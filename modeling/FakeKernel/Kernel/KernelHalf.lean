import FakeKernel.Kernel.Sizes
import FakeKernel.Kernel.Tlb

/-!
# The kernel's half of the page tables

* `KernelMapped`          a table maps what the kernel needs, with leaves of its root;
* `HoldsKernel`           the table of a task has lost none of that;
* `Booked.kernelMapped`   then it is `KernelMapped`, if it fits the areas of the task;
* `taskClone_holdsKernel`, `Kernel.Step.holdsKernel`   a new table has all of it, and no step takes any away;
* `taskDestroy_root`      a root that has just been freed still has the kernel's entries;
* `kernel_stays_mapped`   the table in satp is `KernelMapped` in each state of a run, also when its task is gone.
-/

namespace FakeKernel
open Bytes Bitfield Mm Heap Kernel

variable {k k' k₀ : Kernel} {h h' : Heap} {own own' : Owners} {q q' : TaskList → List Nat} {t a n p m va flags root x : Nat}
  {ns : List Nat} {e : Elf}

/-! ## entries of the root -/

theorem vpnAt_two_ge (hx : splitAddr ≤ x) (hx' : x < 2 ^ 39) : vpnAt 2 splitAddr ≤ vpnAt 2 x := by
  unfold vpnAt field splitAddr at *
  omega

theorem vpnAt_two_lt (hx : x < splitAddr) : vpnAt 2 x < vpnAt 2 splitAddr := by
  unfold vpnAt field splitAddr at *
  omega

/-- at and above `SPLIT` the table is the one that create_page_table makes, with leaves of the root -/
def KernelMapped (mem : Mem) (root : Nat) : Prop :=
  ∀ x, splitAddr ≤ x → x < 2 ^ 39 →
    pteInvalidOrLeaf (entry mem root (vpnAt 2 x)) = true ∧ walk mem 2 root x = kernelMap x

/-- it depends on the upper entries of the root only -/
theorem KernelMapped.congr {mem mem' : Mem} (hk : KernelMapped mem root)
    (h : ∀ i, vpnAt 2 splitAddr ≤ i → i < entryCount → entry mem' root i = entry mem root i) : KernelMapped mem' root := by
  intro x hx hx'
  obtain ⟨hleaf, hwalk⟩ := hk x hx hx'
  have hentry := h (vpnAt 2 x) (vpnAt_two_ge hx hx') (vpnAt_lt 2 x)
  have hleaf' : pteInvalidOrLeaf (entry mem' root (vpnAt 2 x)) = true := by
    rw [hentry]
    exact hleaf
  refine ⟨hleaf', ?_⟩
  rw [← hwalk, walk_succ, walk_succ, hentry]
  unfold walkBelow
  rw [if_pos hleaf, if_pos hleaf]

/-- the areas lie below `SPLIT`, so their pages need no other entries -/
theorem slotsOf_low {areas : List VmArea} (hbelow : ∀ x ∈ areas, x.stop ≤ splitAddr) {s : Nat × Nat} (hs : s ∈ slotsOf areas) :
    s.1 < vpnAt 2 splitAddr := by
  obtain ⟨x, hx, hs⟩ := List.mem_flatMap.mp hs
  obtain ⟨i, hi, rfl⟩ := List.mem_map.mp hs
  have hstop := hbelow x hx
  have hlt := Nat.mul_lt_mul_of_pos_left (List.mem_range.mp hi) (show 0 < pageSize by decide)
  refine vpnAt_two_lt ?_
  unfold VmArea.stop at hstop
  rw [Nat.mul_comm] at hstop
  omega

/-! ## tasks -/

/-- the table of the task maps all that the kernel has mapped -/
def HoldsKernel (h : Heap) (t : Nat) : Prop :=
  ∀ x < 2 ^ 39, ∀ tr, kernelMap x = some tr → mapOf h (h.task t).pageTable x = some tr

/-- user code finds nothing at or above `SPLIT` -/
theorem Booked.user_low (hb : Booked h own t ns) (hw : World h own q) (ht : t ∈ h.live) (hx : x < 2 ^ 39) {tr : Translation}
    (htr : mapOf h (h.task t).pageTable x = some tr) (hu : tr.flags &&& pteUser ≠ 0) : x < splitAddr := by
  have hA := hw.areas t ht
  obtain ⟨p, m, hp, _⟩ := (hw.maps t ht).user x hx tr htr hu
  obtain ⟨a, n, hm, ha⟩ := Covered.area hA hp
  have hin := hb.covered.inside a m p _ hm hp
  have hstop := hb.area_stop hA ha
  rw [VmArea.mem_vpns (hw.aligned t a n ha)] at hin
  have hlt := hin.2
  unfold splitAddr pageSize at *
  omega

theorem Booked.kernelMapped (hb : Booked h own t ns) (hw : World h own q) (ht : t ∈ h.live) (hf : Fitted h t) (hk : HoldsKernel h t) :
    KernelMapped h.mm.mem (h.task t).pageTable := by
  intro x hx hx'
  constructor
  · by_contra hleaf
    have hroot := (hf.tabled.one _ (vpnAt_lt 2 x)).mp (Bool.eq_false_iff.mpr hleaf)
    obtain ⟨s, hs, he⟩ := mem_rootSlots.mp hroot
    have hlow := slotsOf_low (fun z hz => ?_) hs
    · have hge := vpnAt_two_ge hx hx'
      omega
    · rw [hb.areasOf] at hz
      obtain ⟨n, hn, rfl⟩ := List.mem_map.mp hz
      exact hb.below n hn
  · show mapOf h (h.task t).pageTable x = _
    cases hm : mapOf h (h.task t).pageTable x with
    | none =>
      cases hkx : kernelMap x with
      | none => rfl
      | some tr => exact nomatch hm.symm.trans (hk x hx' tr hkx)
    | some tr =>
      by_cases hu : tr.flags &&& pteUser = 0
      · exact ((hw.maps t ht).kern x hx' tr hm hu).symm
      · exact absurd (hb.user_low hw ht hx' hm hu) (Nat.not_lt.mpr hx)

/-! ## the child of a fork -/

/-- what the kernel has mapped is mapped, but where there is a page for user code -/
def KernelOrUser (h : Heap) (t : Nat) : Prop :=
  ∀ x < 2 ^ 39, ∀ tr, kernelMap x = some tr → ∃ tr', mapOf h (h.task t).pageTable x = some tr' ∧ (tr' = tr ∨ tr'.flags &&& pteUser ≠ 0)

theorem Booked.holdsKernel (hb : Booked h own t ns) (hw : World h own q) (ht : t ∈ h.live) (hk : KernelOrUser h t) : HoldsKernel h t := by
  intro x hx tr htr
  obtain ⟨tr', hm, he⟩ := hk x hx tr htr
  cases he with
  | inl he => exact he ▸ hm
  | inr hu =>
    rw [kernelMap_low (hb.user_low hw ht hx hm hu)] at htr
    exact nomatch htr

theorem PageTurn.kernelOrUser (hpt : PageTurn q t a va flags h own h' own' p m) (ht : t ∈ h.live) (hf : UserLeaf flags)
    (hk : KernelOrUser h t) : KernelOrUser h' t := by
  intro x hx tr htr
  rw [hpt.grown.pageTable ht, hpt.map]
  by_cases hs : SamePage 0 x va
  · rw [if_pos hs]
    refine ⟨⟨PA p % 2 ^ 56 + x % 2 ^ 12, flags⟩, ?_, .inr hf.user⟩
    unfold setLeaf
    rw [if_pos]
    rw [Bool.and_eq_true, bne_iff_ne]
    exact ⟨hf.valid, hf.leaf⟩
  · rw [if_neg hs]
    exact hk x hx tr htr

theorem cloneArea_kernelOrUser {regs : Cpu} {area : Nat} (hw : World k.heap own q) (ht : t ∈ k.heap.live)
    (hva : pageSize ∣ (k.heap.area area).va) (hk : KernelOrUser k.heap t) (hrun : k.cloneArea regs t area = .ok k') :
    ∃ own', Grown q t k.heap own k'.heap own' ∧ SameControl k k' ∧ KernelOrUser k'.heap t := by
  obtain ⟨own₁, n, b, h₁, hat, _, hpages⟩ := cloneArea_turn hw ht hva hrun
  have ht₁ : t ∈ h₁.live := hat.grown.live ▸ ht
  have hk₁ : KernelOrUser h₁ t := by
    intro x hx tr htr
    rw [hat.grown.pageTable ht, hat.mapOf hw ht]
    exact hk x hx tr htr
  obtain ⟨own', _, hg, hc, _, hk'⟩ := clonePages_rule (k := k.setHeap h₁) (I := fun _ _ k own => t ∈ k.heap.live ∧ KernelOrUser k.heap t)
    pteFlags_user_lt
    (fun hI hct => ⟨hct.page.grown.live ▸ hI.1, hct.page.kernelOrUser hI.1 (pteFlagsFromVmFlags_userLeaf _) hI.2⟩)
    ⟨ht₁, hk₁⟩ hat.grown.world ht₁ hat.obj.1 hpages
  exact ⟨own', hat.grown.trans hg, (SameControl.of_heap k hat.added.task).trans hc, hk'⟩

theorem vmClone_kernelOrUser {regs : Cpu} (hw : World k.heap own q) (ht : t ∈ k.heap.live) (ha : a ∈ k.heap.live)
    (hk : KernelOrUser k.heap t) (hrun : k.vmClone regs (.vmAreas a) t = .ok k') : KernelOrUser k'.heap t := by
  obtain ⟨_, _, _, _, _, hk'⟩ := vmCloneFrom_rule
    (I := fun node k own => (node = 0 ∨ own.Obj node a .vnode) ∧ a ∈ k.heap.live ∧ KernelOrUser k.heap t)
    (fun {node k₁ own₁ k₂} hz hI hw₁ ht₁ hrun₁ => by
      obtain ⟨hnode, ha₁, hk₁⟩ := hI
      have hobj := hnode.resolve_left hz
      have harea := ((hw₁.areas a ha₁).area node _).mpr ⟨hobj, rfl⟩
      obtain ⟨own₂, hg, hc, hk₂⟩ := cloneArea_kernelOrUser hw₁ ht₁ (hw₁.aligned a _ node harea) hk₁ hrun₁
      have ha₂ : a ∈ k₂.heap.live := hg.live ▸ ha₁
      exact ⟨own₂, hg, hc, (hg.world.areas a ha₂).vm.next node (hg.mono.obj hobj rfl), ha₂, hk₂⟩)
    ⟨(hw.areas a ha).vm.first, ha, hk⟩ hw ht hrun
  exact hk'

/-- a new table has what the kernel needs, and pages of the child are not mapped over it -/
theorem taskClone_holdsKernel {regs : Cpu} (hw : World k.heap own q) (ha : a ∈ k.heap.live) (hb : Booked k.heap own a ns)
    (hrun : k.taskClone regs a = .ok (t, k')) : HoldsKernel k'.heap t := by
  obtain ⟨own', n, ns', hcl, hb', _⟩ := taskClone_booked hw ha hb hrun
  have ht : t ∈ k'.heap.live := hcl.live.2 ▸ List.mem_cons_self
  refine hb'.holdsKernel hcl.world ht ?_
  obtain ⟨_, h₁, own₁, _, stack, root, k₁, hadd, hclone, rfl⟩ := taskClone_added hw ha hrun
  have hk₁ : KernelOrUser h₁ t := by
    intro x hx tr htr
    have hroot : (h₁.task t).pageTable = root := by
      rw [hadd.fields]
      rfl
    rw [hroot, hadd.map]
    exact ⟨tr, htr, .inl rfl⟩
  have hk₂ : KernelOrUser k₁.heap t := vmClone_kernelOrUser (k := k.setHeap h₁) hadd.world (hadd.live ▸ List.mem_cons_self)
    (hadd.live ▸ List.mem_cons_of_mem _ ha) hk₁ hclone
  intro x hx tr htr
  have hroot : ((k₁.heap.setFrame t (k₁.task a).userFrame).task t).pageTable = (k₁.heap.task t).pageTable := by
    show (Function.update k₁.heap.task t _ t).pageTable = _
    rw [Function.update_self]
  have hk₃ := hk₂ x hx tr htr
  rw [← hroot] at hk₃
  exact hk₃

/-! ## the first image -/

/-- the segments and the stack lie below what the kernel has mapped -/
theorem loadElf_holdsKernel (ho : e.Ordered) (hin : e.LiesIn h.mm.mem) (hw : World h own q) (ht : t ∈ h.live)
    (hmap : ∀ x, mapOf h (h.task t).pageTable x = kernelMap x) (hrun : h.loadElf t e.program = .ok (0, h')) : HoldsKernel h' t := by
  have hwf := (hw.maps t ht).wf
  obtain ⟨c, cs, hload, hsegs, hva, _, _, htask⟩ :=
    loadElf_run hin hwf (fun s hs => hw.held.out _ _ _ ((hw.maps t ht).tables s hs)) rfl hrun
  have hroot : (h'.task t).pageTable = (h.task t).pageTable := by
    rw [htask]
    show (Function.update h.task t _ t).pageTable = _
    rw [Function.update_self]
  intro x hx tr htr
  have hge : splitAddr ≤ x := by
    by_contra hlow
    rw [kernelMap_low (Nat.lt_of_not_le hlow)] at htr
    exact nomatch htr
  have hnone : lastCall (c :: cs) x = none := by
    refine lastCall_eq_none.mpr fun d hd hsame => ?_
    have hlow : vpnAt 2 d.va < vpnAt 2 splitAddr := by
      cases List.mem_cons.mp hd with
      | inl he =>
        rw [he, hva]
        decide
      | inr hd =>
        have hs := (hsegs.slots ho.fits (slotOf d.va)).mp (List.mem_map_of_mem hd)
        refine slotsOf_low (fun z hz => ?_) hs
        obtain ⟨ph, hph, rfl⟩ := List.mem_map.mp hz
        have hstop := (ho.fits ph hph).stop
        have hstack : stackBegin ≤ splitAddr := by decide
        omega
    have hpage : vpnAt 2 x = vpnAt 2 d.va := congrArg Prod.fst (slotOf_congr hsame)
    exact absurd (vpnAt_two_ge hge hx) (Nat.not_le.mpr (hpage ▸ hlow))
  have hwalk := hload.walk hwf x
  rw [hnone] at hwalk
  rw [hroot, ← htr, ← hmap x]
  exact hwalk

/-- all tables in use hold what the kernel has mapped -/
def AllHold (h : Heap) : Prop := ∀ t ∈ h.live, HoldsKernel h t

theorem Untouched.holdsKernel (hu : Untouched h h' own own' t) (hw : World h own q) (ht : t ∈ h.live) (hk : HoldsKernel h t) :
    HoldsKernel h' t :=
  fun x hx tr htr => (hu.keeps hw ht).2 x tr (hk x hx tr htr)

theorem Kernel.BootedInOrder.allHold (hb : k.BootedInOrder) : AllHold k.heap := by
  obtain ⟨k₀, e, t, argv, envp, h₁, hblank, ho, hplace, hin, hcreate, hload, _⟩ := hb.image
  obtain ⟨own₁, n, stack, root, ha⟩ := taskCreate_added hblank.world (by rw [hblank.pids]; decide) hcreate
  have hlive : h₁.live = [t] := by rw [ha.live, hblank.live]
  have ht : t ∈ h₁.live := hlive ▸ List.mem_singleton_self t
  have hroot : (h₁.task t).pageTable = root := by
    rw [ha.fields]
    rfl
  obtain ⟨_, hg⟩ := taskInitElf_world ha.world ht hload
  have hin₁ : e.LiesIn h₁.mm.mem := hin.grown ha.mm
  obtain ⟨h₃, own₃, ns, helf, hw₃, ht₃, _, hu, _⟩ := taskInitElf_loaded ho hin₁ (ha.booked hblank.world.held) ha.world ht (hplace ▸ hload)
  have hk := loadElf_holdsKernel ho hin₁ ha.world ht (fun x => by rw [hroot]; exact ha.map x) helf
  intro t' ht'
  rw [hg.live, hlive, List.mem_singleton] at ht'
  rw [ht']
  exact hu.holdsKernel hw₃ ht₃ hk

/-! ## steps -/

theorem Kernel.Step.holdsKernel (hs : Step k k') (ho : Orderly k own q) (hk : AllHold k.heap) : AllHold k'.heap := by
  intro t ht
  by_cases hold : t ∈ k.heap.live
  · have hkept := hs.keptMap_live ho hold ht
    exact fun x hx tr htr => hkept.map x hx tr (hk t hold x hx tr htr)
  · have hf := hs.forks_of_new ho hold ht
    obtain ⟨own', regs, child, n, k₁, hb⟩ := hs.forked ho.consistent hf
    have ha := ho.active (.inr hf.1)
    have hlive : k₁.heap.live = child :: k.heap.live := by rw [hb.cloned.live.2, hb.before.live]
    have hlive' : k'.heap.live = child :: k.heap.live := hb.after.live.trans hlive
    have hchild : t = child := by
      rw [hlive'] at ht
      exact (List.mem_cons.mp ht).resolve_right hold
    obtain ⟨ns, hbook⟩ := (ho.booked.quiet hb.active.world hb.before).booked _ hb.active.live
    have hk₁ := taskClone_holdsKernel hb.active.world hb.active.live hbook hb.clone
    have ht₁ : child ∈ k₁.heap.live := hlive ▸ List.mem_cons_self
    rw [hchild]
    exact (hb.after.untouched child ht₁).holdsKernel hb.cloned.world ht₁ hk₁

theorem Kernel.Steps.allHold (hs : Steps k k') (ho : Orderly k own q) (hk : AllHold k.heap) : AllHold k'.heap := by
  induction hs with
  | refl => exact hk
  | tail hsteps hstep ih =>
    obtain ⟨own₁, q₁, ho₁⟩ := Steps.orderly hsteps ho
    exact hstep.holdsKernel ho₁ ih

/-! ## a table that is given back -/

/-- the page `p` still holds what it held, but where a free page has the link of its list -/
def KeptBehindLink (mem mem' : Mem) (p : Nat) : Prop := ∀ x, onPage p x → 8 ≤ x % pageSize → mem' x = mem x

theorem KeptBehindLink.trans {mem mem' mem'' : Mem} (hk : KeptBehindLink mem mem' p) (hk' : KeptBehindLink mem' mem'' p) :
    KeptBehindLink mem mem'' p :=
  fun x hx h8 => (hk' x hx h8).trans (hk x hx h8)

/-- the entries for the kernel lie behind the link -/
theorem KeptBehindLink.kernelMapped {mem mem' : Mem} (hk : KeptBehindLink mem mem' root) (hroot : pageSize ∣ root)
    (hm : KernelMapped mem root) : KernelMapped mem' root := by
  have hfirst : 1 ≤ vpnAt 2 splitAddr := by decide
  refine hm.congr fun i hi hi' => load_congr fun x h1 h2 => ?_
  obtain ⟨c, rfl⟩ := hroot
  have hx : onPage (pageSize * c) x := by
    unfold onPage
    unfold pageSize entryCount at *
    omega
  refine hk x hx ?_
  unfold onPage at hx
  unfold pageSize at *
  omega

theorem Mm.Shrinks.kept {a a' : Mm} {W : Set Nat} {D : List Nat} (hs : Shrinks a a' W D) (hok : a.Ok) (hp : pageAt p ∈ a.out)
    (hD : p ∉ D) (hW : p ∉ W) : KeptBehindLink a.mem a'.mem p :=
  fun _ hx _ => hs.same hok hp hD hW hx

/-- do_destroy_page_table frees the table itself last -/
theorem doDestroyPageTable_root {a a' : Mm} {level table : Nat} (hok : a.Ok) (ht : Tree a.mem (level + 1) table)
    (hout : ∀ s ∈ tables a.mem (level + 1) table, pageAt s ∈ a.out) (hrun : doDestroyPageTable (level + 1) table a = .ok a') :
    KeptBehindLink a.mem a'.mem table := by
  obtain ⟨a₁, hentries, hfree⟩ := Res.bind_eq_ok.mp hrun
  obtain ⟨D, hs, hD⟩ := (destroyEntries_spec (i := 0) (n := entryCount) (D := []) hok ht hout (fun h h' h'' => doDestroyPageTable_spec h h' h'')
    (by omega) (.refl hok) fun s => by simp [belowUpTo]).2 a₁ hentries
  have hnot : table ∉ D := by
    intro hin
    obtain ⟨j, hj, hmem⟩ := mem_belowUpTo.mp ((hD table).mp hin)
    exact ((tree_succ.mp ht).1 j hj).2 hmem
  have htable := hout table table_mem_tables
  refine (hs.kept hok htable hnot (Set.notMem_empty table)).trans fun x _ h8 => ?_
  exact hs.ok.free_links ((hs.mem_page hok).mpr ⟨htable, hnot⟩) hfree h8

/-- one more page is given back -/
theorem Mm.Shrinks.free_kept {a a' a'' : Mm} {W : Set Nat} {D : List Nat} {s : Nat} (hs : Shrinks a a' W D) (hok : a.Ok)
    (hin : pageAt s ∈ a.out) (hD : s ∉ D) (hrun : a'.freePages (pageAt s) = .ok a'') : KeptBehindLink a'.mem a''.mem p :=
  fun _ _ h8 => hs.ok.free_links ((hs.mem_page hok).mpr ⟨hin, hD⟩) hrun h8

theorem Mm.Shrinks.kfree_kept {a a' a'' : Mm} {W : Set Nat} {D : List Nat} {buf : Nat} (hs : Shrinks a a' W D) (hok : a.Ok)
    (hin : pageAt (buf - 4) ∈ a.out) (hD : buf - 4 ∉ D) (hW : buf - 4 ∉ W) (hhead : load 4 a.mem (buf - 4) = 0)
    (hrun : a'.kfree buf = .ok a'') : KeptBehindLink a'.mem a''.mem p := by
  have hhead' : load 4 a'.mem (buf - 4) = 0 := by
    rw [← hhead]
    refine load_congr fun y hy hy' => hs.same hok hin hD hW ⟨hy, ?_⟩
    unfold pageSize
    omega
  have hfree : a'.freePages (pageAt (buf - 4)) = .ok a'' := by
    show a'.freePages { address := buf - 4, order := 0 } = _
    rw [← hhead']
    exact hrun
  exact hs.free_kept hok hin hD hfree

/-- task_destroy_sched leaves the other blocks of the task -/
theorem SchedBlocks.not_of_role {r : Role} (hA : Areas h.lists own t) (hS : Static h own t) (hp : own.Page p t r)
    (hl : r.isListed = false) (hne : r ≠ .sched) : ¬ SchedBlocks h t p := by
  intro hin
  obtain ⟨r', hr', hrole⟩ := SchedBlocks.role hA hS hin
  rw [(hr'.unique hp).2] at hrole
  cases hrole with
  | inl he =>
    rw [hl] at he
    exact nomatch he
  | inr he => exact hne he

/-- the table of a task that is destroyed: after its entries the stack and the task itself are given back -/
theorem taskDestroy_root (hw : World h own q) (ht : t ∈ h.live) (hnot : ∀ g, (h.task t).sched ∉ q g)
    (hrun : h.taskDestroy t = .ok h') : KeptBehindLink h.mm.mem h'.mm.mem (h.task t).pageTable := by
  have hok := hw.held.ok
  have hA := hw.areas t ht
  have hS := hw.static t ht
  have hM := hw.maps t ht
  obtain ⟨hends, hpid⟩ := taskDestroy_ends hA hrun
  obtain ⟨h₁, D₁, hrun₁, hr₁, hD₁⟩ := taskDestroySched_spec hw ht hends (hw.queues.detached t ht hnot).2
  unfold Heap.taskDestroy at hrun
  rw [if_neg hpid, hrun₁, Res.ok_bind, hr₁.task] at hrun
  obtain ⟨h₂, hdestroy, hrun⟩ := Res.bind_eq_ok.mp hrun
  obtain ⟨mm₂, hmm₂, hret₂⟩ := Res.bind_eq_ok.mp hdestroy
  cases hret₂
  obtain ⟨h₃, hstack, hrun⟩ := Res.bind_eq_ok.mp hrun
  obtain ⟨mm₃, hmm₃, hret₃⟩ := Res.bind_eq_ok.mp hstack
  cases hret₃
  obtain ⟨h₄, hself, hret⟩ := Res.bind_eq_ok.mp hrun
  obtain ⟨mm₄, hmm₄, hret₄⟩ := Res.bind_eq_ok.mp hself
  cases hret₄
  cases hret
  have hkeep := keepsTables hr₁ hw ht hD₁
  obtain ⟨⟨hin, hnot₁⟩, _⟩ := hkeep _ table_mem_tables
  obtain ⟨D₂, hs₂, hD₂⟩ := (destroyRest_spec hw ht hr₁ hD₁).shrinks mm₂ hmm₂
  -- the stack and the task are neither tables nor blocks of the lists
  have hrest : ∀ {p r}, own.Page p t r → r.isListed = false → r ≠ .sched → r ≠ .table → p ∉ D₂ ++ D₁ := by
    intro p r hp hl hne hne' hmem
    cases List.mem_append.mp hmem with
    | inl hmem => exact hne' ((hM.tables p ((hD₂ p).mp hmem)).unique hp).2.symm
    | inr hmem => exact SchedBlocks.not_of_role hA hS hp hl hne ((hD₁ p).mp hmem)
  have hs₁₂ := hr₁.mm.trans hs₂ (Set.empty_subset _)
  have hstackD : (h.task t).kernelStack ∉ D₂ ++ D₁ := hrest hS.stack rfl nofun nofun
  have hstackIn := hw.held.out _ _ _ hS.stack
  obtain ⟨mm₃', hfree₃, hs₃⟩ := hs₁₂.free hok hstackIn hstackD
  have hmm₃' : mm₂.freePages (pageAt (h.task t).kernelStack) = .ok mm₃ := by
    rw [← hr₁.task]
    exact hmm₃
  cases hfree₃.symm.trans hmm₃'
  have hselfD : t - 4 ∉ (h.task t).kernelStack :: (D₂ ++ D₁) := by
    rw [List.mem_cons, not_or]
    exact ⟨hS.task.page.ne hS.stack nofun, hrest hS.task.page rfl nofun nofun⟩
  have hsame : ∀ s ∈ tables h.mm.mem 2 (h.task t).pageTable, SameTable h.mm.mem h₁.mm.mem s := fun s hs => (hkeep s hs).2
  have h1 : KeptBehindLink h.mm.mem h₁.mm.mem (h.task t).pageTable := hr₁.mm.kept hok hin hnot₁ nofun
  have h2 : KeptBehindLink h₁.mm.mem mm₂.mem (h.task t).pageTable := by
    refine doDestroyPageTable_root hr₁.mm.ok (hM.wf.tree.congr hsame) (fun s hs => ?_) hmm₂
    rw [tables_congr hsame] at hs
    exact (hr₁.mm.mem_page hok).mpr (hkeep s hs).1
  have h3 : KeptBehindLink mm₂.mem mm₃.mem (h.task t).pageTable := hs₁₂.free_kept hok hstackIn hstackD hmm₃'
  have h4 : KeptBehindLink mm₃.mem mm₄.mem (h.task t).pageTable :=
    hs₃.kfree_kept hok (hw.held.out _ _ _ hS.task.page) hselfD nofun (hw.held.head _ _ _ hS.task.page rfl) hmm₄
  exact ((h1.trans h2).trans h3).trans h4

/-! ## the table in satp -/

theorem Orderly.kernelMapped (ho : Orderly k own q) (hf : AllFitted k.heap) (hk : AllHold k.heap) (ht : t ∈ k.heap.live) :
    KernelMapped k.heap.mm.mem (k.task t).pageTable := by
  obtain ⟨ns, hb⟩ := ho.booked.booked t ht
  exact hb.kernelMapped ho.world ht (hf t ht) (hk t ht)

/-- while a task runs the table is that of the task -/
theorem Orderly.satp_mapped (ho : Orderly k own q) (hf : AllFitted k.heap) (hk : AllHold k.heap)
    (hctl : k.ctl = .user ∨ k.ctl = .thread) : KernelMapped k.heap.mm.mem k.satp := by
  have ha := ho.active hctl
  rw [ha.satp]
  exact ho.kernelMapped hf hk ha.live

/-- the task has gone, and its table is still in satp -/
theorem Orderly.died_mapped (ho : Orderly k own q) (hf : AllFitted k.heap) (hk : AllHold k.heap)
    (hctl : k.ctl = .user ∨ k.ctl = .thread) (hq : Quiet k.heap h own) (hw : World h own q)
    (hrun : h.taskDestroy k.currentTask = .ok h') : KernelMapped h'.mm.mem k.satp := by
  have ha := ho.active hctl
  have ht : k.currentTask ∈ h.live := hq.live ▸ ha.live
  have hu := hq.untouched k.currentTask ha.live
  obtain ⟨ns, hb⟩ := (ho.booked.quiet hw hq).booked _ ht
  have hf' : AllFitted h := (ho.booked.quiet_sized hw hq hf).1
  have hm := hb.kernelMapped hw ht (hf' _ ht) (hu.holdsKernel ho.world ha.live (hk _ ha.live))
  have hnot : ∀ g, (h.task k.currentTask).sched ∉ q g := by
    rw [hu.task.1]
    exact ha.node ▸ ha.detached
  have hroot : (h.task k.currentTask).pageTable = k.satp := hu.task.2.2.1.trans ha.satp.symm
  have hkept := taskDestroy_root hw ht hnot hrun
  rw [← hroot]
  exact hkept.kernelMapped (hw.maps _ ht).wf.page hm

/-- the step of a task leaves satp as it is, and the table there keeps the kernel's half -/
theorem Kernel.Step.satp_mapped (hs : Step k k') (ho : Orderly k own q) (hf : AllFitted k.heap) (hk : AllHold k.heap)
    (hsatp : KernelMapped k.heap.mm.mem k.satp) : KernelMapped k'.heap.mm.mem k'.satp := by
  obtain ⟨own', q', ho'⟩ := hs.orderly ho
  have hf' := (hs.sized ho hf).1
  have hk' := hs.holdsKernel ho hk
  by_cases hrunning : k'.ctl = .user ∨ k'.ctl = .thread
  · exact ho'.satp_mapped hf' hk' hrunning
  by_cases hctl : k.ctl = .user ∨ k.ctl = .thread
  · have hsame : k'.satp = k.satp := hs.satp ho.consistent fun h => by simp [h] at hctl
    have ha := ho.active hctl
    rw [hsame]
    by_cases hlive : k.currentTask ∈ k'.heap.live
    · rw [ha.satp, ← (hs.keptMap_live ho ha.live hlive).root]
      exact ho'.kernelMapped hf' hk' hlive
    · obtain ⟨own₁, q₁, hout⟩ := hs.outcome ho.consistent
      cases hout.change with
      | quiet hq _ => exact absurd (hq.live ▸ ha.live) hlive
      | died hq hw hrun _ _ => exact ho.died_mapped hf hk hctl hq hw hrun
      | grew hq _ _ _ _ _ hg hq' => exact absurd (hq'.live ▸ hg.live ▸ hq.live ▸ ha.live) hlive
      | forked hq _ _ _ _ hc hq' =>
        refine absurd ?_ hlive
        rw [hq'.live, hc.live.2, hq.live]
        exact List.mem_cons_of_mem _ ha.live
  · cases hs with
    | compute cpu h => exact absurd (.inl h) hctl
    | store va tr b h _ _ _ => exact absurd (.inl h) hctl
    | interrupt i h _ => exact absurd (.inl h) hctl
    | exception code stval h => exact absurd (.inl h) hctl
    | resume o h _ _ => exact absurd (.inr h) hctl
    | schedule h hrun =>
      cases doSchedule_cases hrun with
      | inl hidle =>
        obtain ⟨_, rfl⟩ := hidle
        exact hsatp
      | inr hdis =>
        obtain ⟨_, ⟨rfl, _⟩ | ⟨rfl, _⟩⟩ := hdis
        · exact absurd (.inr rfl) hrunning
        · exact absurd (.inl rfl) hrunning
    | idle regs i h hrun =>
      unfold Kernel.idleInterrupt at hrun
      obtain ⟨k₁, hint, hret⟩ := Res.bind_eq_ok.mp hrun
      cases hret
      have hw : World ({ k with trapframe := trapVector regs k.trapframe } : Kernel).heap own q := ho.world
      have hmm := (handleInterrupt_rests hw hint).1
      have hsame := handleInterrupt_satp hw hint
      show KernelMapped k₁.heap.mm.mem k₁.satp
      rw [hmm, hsame]
      exact hsatp

/-- the kernel finds itself in all tables that may be in use -/
structure Kernel.HalfMapped (k : Kernel) : Prop where
  tasks : ∀ t ∈ k.heap.live, KernelMapped k.heap.mm.mem (k.task t).pageTable
  satp : KernelMapped k.heap.mm.mem k.satp

theorem Kernel.Steps.satp_mapped (hs : Steps k k') (ho : Orderly k own q) (hf : AllFitted k.heap) (hk : AllHold k.heap)
    (hsatp : KernelMapped k.heap.mm.mem k.satp) : KernelMapped k'.heap.mm.mem k'.satp := by
  induction hs with
  | refl => exact hsatp
  | tail hsteps hstep ih =>
    obtain ⟨own₁, q₁, ho₁⟩ := Steps.orderly hsteps ho
    exact hstep.satp_mapped ho₁ (Steps.sized hsteps ho hf).1 (Steps.allHold hsteps ho hk) ih

/-- **The kernel's half.**  If the first image is in order, then from the first dispatch of a task on the table in satp maps what the
kernel needs, as create_page_table has made it, and so does the table of each task.  This is so, too, while the task to which
the table in satp belonged has been destroyed, and the table is free. -/
theorem kernel_stays_mapped (hr : k.ReachableInOrder) (hctl : k.ctl = .user ∨ k.ctl = .thread) (hs : Steps k k') : k'.HalfMapped := by
  obtain ⟨k₀, hb, hs₀⟩ := hr
  obtain ⟨own₀, n, ho₀⟩ := hb.orderly
  obtain ⟨own, q, ho⟩ := hs₀.orderly ho₀
  have hf := (hs₀.sized ho₀ hb.fitted).1
  have hk := hs₀.allHold ho₀ hb.allHold
  obtain ⟨own', q', ho'⟩ := hs.orderly ho
  refine ⟨fun t ht => ?_, ?_⟩
  · exact ho'.kernelMapped (hs.sized ho hf).1 (hs.allHold ho hk) ht
  · exact hs.satp_mapped ho hf hk (ho.satp_mapped hf hk hctl)

/-- the theorem when the stack of the first task has grown -/
theorem kernel_stays_mapped_first : ∃ k k' : Kernel, k.ReachableInOrder ∧ k.ctl = .user ∧ Steps k k' ∧ k'.HalfMapped := by
  obtain ⟨k, own, t, ns, hr, hu⟩ := first_user_in_order
  obtain ⟨k₁, a, k', hstep, hf⟩ := hu.fault initImage_leavesPage
  have hs : Steps k k' := .tail (.single hstep) hf.step
  exact ⟨k, k', hr, hu.ctl, hs, kernel_stays_mapped hr (.inl hu.ctl) hs⟩

end FakeKernel
