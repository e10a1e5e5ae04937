import FakeKernel.Kernel.First
import FakeKernel.Kernel.ForkDemand

/-!
# fork, with all the memory it needs or with too little

* `NewPage`, `CopiedArea`   what a copied page and a copied area look like;
* `cloneArea_copied`, `vmClone_copied`   vm_clone copies every page of every area;
-/

namespace FakeKernel
open Bytes Mm Kernel

variable {h h' : Heap} {own own' : Owners} {q : TaskList → List Nat} {t n a m p va va' flags root i : Nat}
  {ns : List Nat} {k k' : Kernel} {regs : Cpu} {a₀ : Mm} {x : VmArea} {xs : List VmArea}

/-! ## what was copied -/

/-- the page at `va` is mapped for user code, to a page that was free in `a₀` -/
def NewPage (a₀ : Mm) (h : Heap) (root va : Nat) : Prop :=
  ∃ p flags, ¬ a₀.Kept p ∧ UserLeaf flags ∧ ∀ x, SamePage 0 x va → mapOf h root x = some ⟨PA p + x % pageSize, flags⟩

/-- the list of pages of the area behind `n` has `i` members, and its first `i` pages are mapped -/
structure CopiedArea (a₀ : Mm) (h : Heap) (own : Owners) (t n i : Nat) : Prop where
  pages : ∃ ms, h.lists.Exactly own t (.pnode (h.node n).value) (.pages (h.node n).value) ms ∧ ms.length = i
  mapped : ∀ j < i, NewPage a₀ h (h.task t).pageTable ((h.areaOf n).va + pageSize * j)

/-- the areas of `t` are those of `ns`, and all their pages are mapped -/
structure Copied (a₀ : Mm) (h : Heap) (own : Owners) (t : Nat) (ns : List Nat) (xs : List VmArea) : Prop where
  chained : Chained h own t ns
  areas : ns.map h.areaOf = xs
  copied : ∀ n ∈ ns, CopiedArea a₀ h own t n (h.areaOf n).nPages

theorem NewPage.congr (hp : NewPage a₀ h root va) (hmap : ∀ x, mapOf h' root x = mapOf h root x) : NewPage a₀ h' root va := by
  obtain ⟨p, flags, hfree, hf, hpage⟩ := hp
  refine ⟨p, flags, hfree, hf, fun x hx => ?_⟩
  rw [hmap, hpage x hx]

theorem newPage_congr (hva : va % 2 ^ 39 = va' % 2 ^ 39) : NewPage a₀ h root va ↔ NewPage a₀ h root va' := by
  unfold NewPage SamePage
  rw [hva]

namespace PageTurn

/-- the page that was just mapped -/
theorem newPage (hpt : PageTurn q t a va flags h own h' own' p m) (hh : Held h own) (hf : UserLeaf flags)
    (hfree : ¬ a₀.Kept p) : NewPage a₀ h' (h.task t).pageTable va := by
  obtain ⟨N, M, hk⟩ := hpt.takes hh
  have hp : own'.Page p t (.user m (vpnOf va)) := (hk.page _ _ _ rfl).mpr (.inr (.inl ⟨rfl, rfl, rfl⟩))
  have hh' := hpt.grown.world.held
  have hpa : PA p < 2 ^ 56 := (PA_usable (hh'.ok.usable (hh'.out _ _ _ hp) (Tiling.base_mem (pageAt p)))).2
  refine ⟨p, flags, hfree, hf, fun y hy => ?_⟩
  rw [hpt.map y, if_pos hy, setLeaf_eq (.inl hf.leaf), if_neg hf.valid]
  show some (Translation.mk (PA p % 2 ^ 56 + y % 2 ^ 12) flags) = _
  rw [Nat.mod_eq_of_lt hpa]
  rfl

/-- a page that was mapped before is still mapped, or it has just been mapped again -/
theorem newPage_old (hpt : PageTurn q t a va flags h own h' own' p m) (hh : Held h own) (hf : UserLeaf flags)
    (hfree : ¬ a₀.Kept p) (hp : NewPage a₀ h (h.task t).pageTable va') : NewPage a₀ h' (h.task t).pageTable va' := by
  by_cases hsame : SamePage 0 va' va
  · obtain ⟨p', f, hfree', hf', hmap⟩ := hpt.newPage hh hf hfree
    exact ⟨p', f, hfree', hf', fun x hx => hmap x (hx.trans hsame)⟩
  · obtain ⟨p', f, hfree', hf', hmap⟩ := hp
    refine ⟨p', f, hfree', hf', fun x hx => ?_⟩
    have hother : ¬ SamePage 0 x va := fun hx' => hsame (Eq.trans (Eq.symm hx) hx')
    rw [hpt.map x, if_neg hother, hmap x hx]

theorem sameRoot (hpt : PageTurn q t a va flags h own h' own' p m) (ht : t ∈ h.live) :
    (h'.task t).pageTable = (h.task t).pageTable := by
  obtain ⟨_, hs⟩ := hpt.grown.step
  exact (hs.task t ht).2.2.1

theorem areaOf (hpt : PageTurn q t a va flags h own h' own' p m) (hh : Held h own) (hsame : h'.area = h.area)
    (hn : own.Obj n t .vnode) : (h'.node n).value = (h.node n).value ∧ h'.areaOf n = h.areaOf n := by
  obtain ⟨N, M, hk⟩ := hpt.takes hh
  have hv := hpt.value (hk.new hh hn)
  refine ⟨hv, ?_⟩
  unfold Heap.areaOf
  rw [hv, hsame]

/-- one more page of the area behind `n` -/
theorem copied_self (hpt : PageTurn q t a va flags h own h' own' p m) (hw : World h own q) (ht : t ∈ h.live)
    (hsame : h'.area = h.area) (hf : UserLeaf flags) (hfree : ¬ a₀.Kept p) (hn : own.Obj n t .vnode)
    (hv : (h.node n).value = a) (hva : va % 2 ^ 39 = ((h.areaOf n).va + pageSize * i) % 2 ^ 39)
    (hc : CopiedArea a₀ h own t n i) : CopiedArea a₀ h' own' t n (i + 1) := by
  obtain ⟨hvalue, hof⟩ := hpt.areaOf hw.held hsame hn
  obtain ⟨ms, hms, hlen⟩ := hc.pages
  rw [hv] at hms
  refine ⟨⟨ms ++ [m], ?_, by rw [List.length_append, hlen]; rfl⟩, fun j hj => ?_⟩
  · rw [hvalue, hv]
    exact hpt.exactly_self hw.held hms
  · rw [hpt.sameRoot ht, hof]
    by_cases hji : j = i
    · rw [hji, ← newPage_congr hva]
      exact hpt.newPage hw.held hf hfree
    · exact hpt.newPage_old hw.held hf hfree (hc.mapped j (by omega))

/-- the other areas -/
theorem copied_other {ms : List Nat} (hpt : PageTurn q t a va flags h own h' own' p m) (hw : World h own q) (ht : t ∈ h.live)
    (hsame : h'.area = h.area) (hf : UserLeaf flags) (hfree : ¬ a₀.Kept p) (hn : own.Obj n t .vnode)
    (hv : (h.node n).value ≠ a) (hms : h.lists.Exactly own t (.pnode a) (.pages a) ms) (hc : CopiedArea a₀ h own t n i) :
    CopiedArea a₀ h' own' t n i := by
  obtain ⟨hvalue, hof⟩ := hpt.areaOf hw.held hsame hn
  obtain ⟨ms', hms', hlen⟩ := hc.pages
  refine ⟨⟨ms', ?_, hlen⟩, fun j hj => ?_⟩
  · rw [hvalue]
    exact hpt.exactly_pages hw.held hms hv hms'
  · rw [hpt.sameRoot ht, hof]
    exact hpt.newPage_old hw.held hf hfree (hc.mapped j hj)

end PageTurn

namespace AreaTurn

theorem areaOf (hat : AreaTurn q t x h own h' own' n a) (hw : World h own q) (ht : t ∈ h.live) :
    h'.areaOf n = x ∧ (h'.node n).value = a ∧
      ∀ {m}, own.Obj m t .vnode → (h'.node m).value = (h.node m).value ∧ h'.areaOf m = h.areaOf m := by
  have hA' := hat.grown.world.areas t (hat.grown.live ▸ ht)
  have hv : (h'.node n).value = a := ((hA'.area n a).mp hat.obj.1).2
  refine ⟨?_, hv, fun {m} hm => ?_⟩
  · unfold Heap.areaOf
    rw [hv, hat.area]
  · have harea := ((hw.areas t ht).area m _).mpr ⟨hm, rfl⟩
    have hvm : (h'.node m).value = (h.node m).value := ((hA'.area _ _).mp ⟨harea.1, hat.page hw.held harea.page⟩).2
    refine ⟨hvm, ?_⟩
    unfold Heap.areaOf
    rw [hvm]
    exact hat.added.area _ (hat.ne hw.held harea).1

theorem mapOf (hat : AreaTurn q t x h own h' own' n a) (hw : World h own q) (ht : t ∈ h.live) (y : Nat) :
    mapOf h' (h.task t).pageTable y = mapOf h (h.task t).pageTable y :=
  ((hw.maps t ht).wf.extends hat.added.extends fun _ _ => nofun).2.1 y

/-- the areas that there are stay as they are -/
theorem copied (hat : AreaTurn q t x h own h' own' n a) (hw : World h own q) (ht : t ∈ h.live) (hm : own.Obj m t .vnode)
    (hc : CopiedArea a₀ h own t m i) : CopiedArea a₀ h' own' t m i := by
  obtain ⟨hvm, hof⟩ := (hat.areaOf hw ht).2.2 hm
  have harea := ((hw.areas t ht).area m _).mpr ⟨hm, rfl⟩
  obtain ⟨ms, hms, hlen⟩ := hc.pages
  refine ⟨⟨ms, ?_, hlen⟩, fun j hj => ?_⟩
  · rw [hvm]
    exact hat.exactly_pages hw ht harea hms
  · rw [hat.added.task, hof]
    exact (hc.mapped j hj).congr (hat.mapOf hw ht)

end AreaTurn

/-- the areas `xs` are copied, and the first `j` pages of the area `x` behind the last node `n` -/
structure CopyStage (q : TaskList → List Nat) (a₀ : Mm) (t n : Nat) (ns : List Nat) (x : VmArea) (xs : List VmArea) (j : Nat)
    (h : Heap) (own : Owners) : Prop where
  world : World h own q
  live : t ∈ h.live
  kept : ∀ y, a₀.Kept y → h.mm.Kept y
  chained : Chained h own t (ns ++ [n])
  last : h.areaOf n = x
  areas : ns.map h.areaOf = xs
  self : CopiedArea a₀ h own t n j
  others : ∀ m ∈ ns, CopiedArea a₀ h own t m (h.areaOf m).nPages

namespace CopyStage
variable {j : Nat}

theorem vnode (hs : CopyStage q a₀ t n ns x xs j h own) : own.Obj n t .vnode ∧ ∀ m ∈ ns, own.Obj m t .vnode :=
  ⟨(hs.chained.vm.mem n).mp (List.mem_append_right _ (List.mem_singleton_self n)),
    fun m hm => (hs.chained.vm.mem m).mp (List.mem_append_left _ hm)⟩

/-- two nodes stand for two areas -/
theorem value_ne (hs : CopyStage q a₀ t n ns x xs j h own) (hm : m ∈ ns) : (h.node m).value ≠ (h.node n).value := by
  intro he
  obtain ⟨hn, hns⟩ := hs.vnode
  have hA := hs.world.areas t hs.live
  have hmarea := (hA.area m _).mpr ⟨hns m hm, rfl⟩
  have hnarea := (hA.area n _).mpr ⟨hn, he.symm⟩
  have hmn : m = n := Role.area.inj (hmarea.unique hnarea).2
  have hnodup := hs.chained.vm.queue.chain.nodup
  exact (List.nodup_append.mp hnodup).2.2 m hm n (List.mem_singleton_self n) hmn

theorem addPage (hs : CopyStage q a₀ t n ns x xs j k.heap own) (ha : (k.heap.node n).value = a)
    (hva : va % 2 ^ 39 = (x.va + pageSize * j) % 2 ^ 39) (hf : UserLeaf (flags ||| pteUser))
    (hct : CloneTurn q regs t a va flags k own k' own' p m) : CopyStage q a₀ t n ns x xs (j + 1) k'.heap own' := by
  have hw := hs.world
  obtain ⟨hn, hns⟩ := hs.vnode
  obtain ⟨h₁, M, _, hx₁, hp, _⟩ := hct.copy
  have hfree : ¬ a₀.Kept p := fun hk => hx₁.fresh hp (onPage_self p) (hs.kept p hk)
  have hpt := hct.page
  have harea : own.Obj a t (.area n) := ((hw.areas t hs.live).area n a).mpr ⟨hn, ha⟩
  have hof : ∀ m ∈ ns, k'.heap.areaOf m = k.heap.areaOf m := fun m hm => (hpt.areaOf hw.held hct.areas (hns m hm)).2
  obtain ⟨_, hstep⟩ := hpt.grown.step
  obtain ⟨ms, hms⟩ := hs.chained.pages a n harea
  refine ⟨hpt.grown.world, hpt.grown.live ▸ hs.live, fun y hy => hstep.mm.kept (hs.kept y hy), hs.chained.addPage hw hpt harea,
    ?_, ?_, ?_, fun m hm => ?_⟩
  · rw [(hpt.areaOf hw.held hct.areas hn).2, hs.last]
  · rw [← hs.areas]
    exact List.map_congr_left hof
  · exact hpt.copied_self hw hs.live hct.areas hf hfree hn ha (by rw [hs.last]; exact hva) hs.self
  · rw [hof m hm]
    have hne : (k.heap.node m).value ≠ a := ha ▸ hs.value_ne hm
    exact hpt.copied_other hw hs.live hct.areas hf hfree (hns m hm) hne hms (hs.others m hm)

end CopyStage

/-- an area is copied with all its pages -/
theorem cloneArea_copied {area : Nat} (hc : Copied a₀ k.heap own t ns xs) (hw : World k.heap own q) (ht : t ∈ k.heap.live)
    (hkept : ∀ y, a₀.Kept y → k.heap.mm.Kept y) (hva : pageSize ∣ (k.heap.area area).va)
    (hrun : k.cloneArea regs t area = .ok k') : ∃ own' n, Grown q t k.heap own k'.heap own' ∧ SameControl k k' ∧
      Copied a₀ k'.heap own' t (ns ++ [n]) (xs ++ [{ k.heap.area area with refcount := 1 }]) := by
  obtain ⟨own₁, n, a, h₁, hat, hlast, hpages⟩ := cloneArea_turn hw ht hva hrun
  obtain ⟨y, hy⟩ : ∃ y, y = k.heap.area area := ⟨_, rfl⟩
  obtain ⟨z, hz⟩ : ∃ z : VmArea, z = { y with refcount := 1 } := ⟨_, rfl⟩
  have hzva : z.va = y.va := by rw [hz]
  have hzn : z.nPages = y.nPages := by rw [hz]
  rw [← hy] at hat hpages hva ⊢
  rw [← hz] at hat ⊢
  obtain ⟨hself, hvalue, hold⟩ := hat.areaOf hw ht
  have hvnode : ∀ m ∈ ns, own.Obj m t .vnode := fun m hm => (hc.chained.vm.mem m).mp hm
  have hstage : CopyStage q a₀ t n ns z xs 0 h₁ own₁ := by
    refine ⟨hat.grown.world, hat.grown.live ▸ ht, fun x hx => hat.added.extends.kept (hkept x hx),
      hc.chained.addArea hw ht hat (hlast ns), hself, ?_, ⟨⟨[], ?_, rfl⟩, nofun⟩, fun m hm => ?_⟩
    · rw [← hc.areas]
      exact List.map_congr_left fun m hm => (hold (hvnode m hm)).2
    · rw [hvalue]
      exact hat.exactly_new hw ht
    · rw [(hold (hvnode m hm)).2]
      exact hat.copied hw ht (hvnode m hm) (hc.copied m hm)
  -- `i` pages are still to be copied
  obtain ⟨own', va', hg, hcon, hI⟩ := clonePages_rule
    (I := fun i va k own => i ≤ z.nPages ∧ va % 2 ^ 39 = (z.va + pageSize * (z.nPages - i)) % 2 ^ 39 ∧
      (k.heap.node n).value = a ∧ CopyStage q a₀ t n ns z xs (z.nPages - i) k.heap own)
    pteFlags_user_lt
    (fun {i va k own k' own' p m} hI hct => by
      obtain ⟨hi, hva, hv, hs⟩ := hI
      have hnext : z.nPages - (i + 1) + 1 = z.nPages - i := by omega
      have hs' := hs.addPage hv hva (pteFlagsFromVmFlags_userLeaf _) hct
      rw [hnext] at hs'
      refine ⟨by omega, ?_, ?_, hs'⟩
      · have hmul : pageSize * (z.nPages - i) = pageSize * (z.nPages - (i + 1)) + pageSize := by
          rw [← hnext, Nat.mul_succ]
        rw [hmul]
        unfold wordCount
        omega
      · exact (hct.page.areaOf hs.world.held hct.areas hs.vnode.1).1.trans hv)
    ⟨Nat.le_of_eq hzn.symm, by rw [hzn, Nat.sub_self, hzva]; rfl, hvalue, by rw [hzn, Nat.sub_self]; exact hstage⟩
    hat.grown.world (hat.grown.live ▸ ht) hat.obj.1 hpages
  obtain ⟨_, _, _, hs⟩ := hI
  refine ⟨own', n, hat.grown.trans hg, (SameControl.of_heap k hat.added.task).trans hcon, hs.chained, ?_, fun m hm => ?_⟩
  · rw [List.map_append, hs.areas, List.map_singleton, hs.last]
  · cases List.mem_append.mp hm with
    | inl hm => exact hs.others m hm
    | inr hm =>
      rw [List.mem_singleton.mp hm, hs.last]
      exact hs.self

/-- the areas of a clone -/
def Heap.cloneAreas (h : Heap) (ns : List Nat) : List VmArea := ns.map fun n => { h.areaOf n with refcount := 1 }

/-- all areas are copied, in order -/
theorem vmClone_copied {parent : Nat} {nsp : List Nat} (hc : Copied a₀ k.heap own t [] []) (hw : World k.heap own q)
    (ht : t ∈ k.heap.live) (hparent : parent ∈ k.heap.live) (hne : parent ≠ t)
    (hkept : ∀ y, a₀.Kept y → k.heap.mm.Kept y)
    (hch : Chain (fun n => (k.heap.node n).next) 0 (k.heap.lists.list (.vmAreas parent)).first nsp)
    (hrun : k.vmClone regs (.vmAreas parent) t = .ok k') : ∃ own' ns, Grown q t k.heap own k'.heap own' ∧ SameControl k k' ∧
      Copied a₀ k'.heap own' t ns (k.heap.cloneAreas nsp) := by
  have hA := hw.areas parent hparent
  have hnsp := hA.vm.chain hA.vm.first hch
  obtain ⟨own', hg, hcon, ns, done, todo, hI⟩ := vmCloneFrom_rule
    (I := fun node k' own' => ∃ ns done todo, nsp = done ++ todo ∧ Untouched k.heap k'.heap own own' parent ∧
      parent ∈ k'.heap.live ∧ (∀ y, a₀.Kept y → k'.heap.mm.Kept y) ∧
      Chain (fun n => (k'.heap.node n).next) 0 node todo ∧ Copied a₀ k'.heap own' t ns (k.heap.cloneAreas done))
    (fun {node k₁ own₁ k₂} hz hI hw₁ ht₁ harea => by
      obtain ⟨ns, done, todo, hsplit, hu, hp, hkept, hch, hc⟩ := hI
      obtain ⟨todo, rfl, hch'⟩ := hch.cons_of_ne hz
      have hA₁ := hw₁.areas parent hp
      have hin : ∀ m ∈ node :: todo, own.Obj m parent .vnode := fun m hm =>
        hnsp m (hsplit ▸ List.mem_append_right done hm)
      have hobj₁ : ∀ m ∈ node :: todo, own₁.Obj m parent .vnode := fun m hm => (hu.obj rfl).mpr (hin m hm)
      have hva := hw₁.aligned parent _ node ((hA₁.area node _).mpr ⟨hobj₁ node List.mem_cons_self, rfl⟩)
      obtain ⟨own₂, n, hg, hcon, hc₂⟩ := cloneArea_copied hc hw₁ ht₁ hkept hva harea
      have hu₂ := hg.untouched hw₁.held hp hne
      have hnode : ∀ m ∈ node :: todo, k₂.heap.node m = k₁.heap.node m := fun m hm => hu₂.node m .vnode (hobj₁ m hm) rfl
      obtain ⟨_, hstep⟩ := hg.step
      refine ⟨own₂, hg, hcon, ns ++ [n], done ++ [node], todo, ?_, hu.trans hu₂, hg.live ▸ hp,
        fun y hy => hstep.mm.kept (hkept y hy), ?_, ?_⟩
      · rw [hsplit, List.append_assoc]
        rfl
      · rw [hnode node List.mem_cons_self]
        refine hch'.congr fun m hm => ?_
        rw [hnode m (List.mem_cons_of_mem _ hm)]
      · have hof : k₁.heap.areaOf node = k.heap.areaOf node := (hu.areaOf hA (hin node List.mem_cons_self)).2
        unfold Heap.cloneAreas at hc₂ ⊢
        rw [List.map_append, List.map_singleton, ← hof]
        exact hc₂)
    ⟨[], [], nsp, rfl, .refl _ _ _, hparent, hkept, hch, hc⟩ hw ht hrun
  obtain ⟨hsplit, _, _, _, hnil, hc'⟩ := hI
  rw [hnil.of_null, List.append_nil] at hsplit
  exact ⟨own', ns, hg, hcon, hsplit ▸ hc'⟩

/-- a new task has no areas -/
theorem TaskAdded.copied {parent stack : Nat} (ha : TaskAdded q parent h own h' own' t n stack root) (hw : World h own q) :
    Copied a₀ h' own' t [] [] :=
  ⟨⟨(ha.booked hw.held).vm, (ha.booked hw.held).complete.pages⟩, rfl, nofun⟩

/-! ## what SYS_fork is for -/

/-- the nodes of the list of areas of a task -/
def Heap.AreaNodes (h : Heap) (t : Nat) (ns : List Nat) : Prop :=
  Chain (fun n => (h.node n).next) 0 (h.lists.list (.vmAreas t)).first ns

/-- the list of pages of the area behind `n` is complete, and each of its pages is mapped -/
structure ChildArea (a₀ : Mm) (h : Heap) (root n : Nat) : Prop where
  pages : ∃ ms, Chain (fun m => (h.node m).next) 0 (h.lists.list (.pages (h.node n).value)).first ms ∧
    ms.length = (h.areaOf n).nPages
  mapped : ∀ j < (h.areaOf n).nPages, NewPage a₀ h root ((h.areaOf n).va + pageSize * j)

/-- the child `t` is complete and ready, and the current task goes on with its pid -/
structure Forked (k k' : Kernel) (frame : Cpu) (t : Nat) : Prop where
  live : t ∉ k.heap.live ∧ k'.heap.live = t :: k.heap.live
  fields : (k'.task t).pid = k.heap.nextTaskId ∧ (k'.task t).parent = k.currentTask ∧ (k'.task t).kernelFrame = .taskEntry
  result : (k'.task k.currentTask).userFrame = frame.set REG_A0 (k'.task t).pid
  child : (k'.task t).userFrame = frame.set REG_A0 0
  ready : ∃ q, (∀ g, k.heap.lists.Queue (.queue g) (q g)) ∧
    ∀ g, k'.heap.lists.Queue (.queue g) (pushed q .tasks (k'.task t).sched g)
  areas : ∀ ns, k.heap.AreaNodes k.currentTask ns → ∃ ns', k'.heap.AreaNodes t ns' ∧
    ns'.map k'.heap.areaOf = k.heap.cloneAreas ns ∧ ∀ n ∈ ns', ChildArea k.heap.mm k'.heap (k'.task t).pageTable n
  parentAreas : ∀ ns, k.heap.AreaNodes k.currentTask ns → k'.heap.AreaNodes k.currentTask ns ∧
    ∀ n ∈ ns, k'.heap.areaOf n = k.heap.areaOf n
  parentMap : (k'.task k.currentTask).pageTable = (k.task k.currentTask).pageTable ∧
    ∀ x, mapOf k'.heap (k.task k.currentTask).pageTable x = mapOf k.heap (k.task k.currentTask).pageTable x

/-- the current task goes on with an error, and nothing else has changed -/
structure Refused (k k' : Kernel) (frame : Cpu) : Prop where
  errno : ∃ err : Int, err < 0 ∧ (k'.task k.currentTask).userFrame = frame.set REG_A0 (ofInt err)
  live : k'.heap.live = k.heap.live
  lists : k'.heap.lists = k.heap.lists
  areas : k'.heap.area = k.heap.area
  map : ∀ x, mapOf k'.heap (k.task k.currentTask).pageTable x = mapOf k.heap (k.task k.currentTask).pageTable x
  free : k'.heap.mm.sparePages = k.heap.mm.sparePages

theorem Untouched.areaNodes (hu : Untouched h h' own own' t) (hA : Areas h.lists own t) (hns : h.AreaNodes t ns) :
    h'.AreaNodes t ns ∧ ∀ n ∈ ns, h'.areaOf n = h.areaOf n := by
  have hin := hA.vm.chain hA.vm.first hns
  refine ⟨?_, fun n hn => (hu.areaOf hA (hin n hn)).2⟩
  unfold Heap.AreaNodes
  rw [hu.vm]
  exact hns.congr fun n hn => congrArg ListNode.next (hu.areaOf hA (hin n hn)).1

theorem Copied.setFrame (hc : Copied a₀ h own t ns xs) (frame : Cpu) : Copied a₀ (h.setFrame t frame) own t ns xs := by
  have hself : (h.setFrame t frame).task t = { h.task t with userFrame := frame } := Function.update_self _ _ _
  have hroot : ((h.setFrame t frame).task t).pageTable = (h.task t).pageTable := by rw [hself]
  refine ⟨⟨hc.chained.vm, hc.chained.pages⟩, hc.areas, fun n hn => ?_⟩
  obtain ⟨hpages, hmapped⟩ := hc.copied n hn
  refine ⟨hpages, fun j hj => ?_⟩
  rw [hroot]
  exact hmapped j hj

/-- what task_clone leaves -/
theorem taskClone_forked {parent : Nat} {ns : List Nat} (hw : World k.heap own q) (hp : parent ∈ k.heap.live)
    (hns : k.heap.AreaNodes parent ns) (hrun : k.taskClone regs parent = .ok (t, k')) :
    isErr t = false ∧ ∃ own' n ns', TaskCloned q regs parent k own k' own' t n ∧
      (k'.heap.task t).pid = k.heap.nextTaskId ∧ (k'.heap.task t).parent = parent ∧
      (t ≠ k.currentTask → (k'.heap.task t).kernelFrame = .taskEntry) ∧
      (k'.heap.task t).userFrame = (k.heap.task parent).userFrame ∧
      (k'.heap.task parent).userFrame = (k.heap.task parent).userFrame ∧
      Copied k.heap.mm k'.heap own' t ns' (k.heap.cloneAreas ns) := by
  obtain ⟨hgood, h₁, own₁, n, stack, root, k₁, ha, hclone, rfl⟩ := taskClone_added hw hp hrun
  have ht₁ : t ∈ h₁.live := ha.live ▸ List.mem_cons_self
  have hp₁ : parent ∈ h₁.live := ha.live ▸ List.mem_cons_of_mem _ hp
  have hne : parent ≠ t := fun e => ha.fresh (e ▸ hp)
  obtain ⟨hns₁, hof⟩ := (ha.untouched parent hp).areaNodes (hw.areas parent hp) hns
  have hkept : ∀ y, k.heap.mm.Kept y → h₁.mm.Kept y := fun y hy => ha.mm.kept hy
  obtain ⟨own', ns', hg, hcon, hc⟩ := vmClone_copied (k := k.setHeap h₁) (ha.copied hw) ha.world ht₁ hp₁ hne hkept hns₁ hclone
  have hareas : h₁.cloneAreas ns = k.heap.cloneAreas ns := by
    refine List.map_congr_left fun m hm => ?_
    rw [hof m hm]
  have hparent : (k₁.heap.task parent).userFrame = (k.heap.task parent).userFrame := by
    obtain ⟨f, hf⟩ := hcon.task parent
    have hold : h₁.task parent = k.heap.task parent := by
      rw [ha.task, Function.update_of_ne hne]
    rw [hf]
    show (h₁.task parent).userFrame = _
    rw [hold]
  obtain ⟨f, hf⟩ : Kernel.SameFrame (h₁.task t) (k₁.heap.task t) := hcon.task t
  have hself : (k₁.heap.setFrame t (k₁.heap.task parent).userFrame).task t =
      { k₁.heap.task t with userFrame := (k₁.heap.task parent).userFrame } := Function.update_self _ _ _
  have hnew := ha.fields
  refine ⟨hgood, own', n, ns', ha.cloned hclone hg hcon, ?_, ?_, fun hcur => ?_, ?_, ?_, ?_⟩
  · show ((k₁.heap.setFrame t (k₁.heap.task parent).userFrame).task t).pid = _
    rw [hself, hf, hnew]
    rfl
  · show ((k₁.heap.setFrame t (k₁.heap.task parent).userFrame).task t).parent = _
    rw [hself, hf, hnew]
    rfl
  · show ((k₁.heap.setFrame t (k₁.heap.task parent).userFrame).task t).kernelFrame = _
    have hother : k₁.heap.task t = h₁.task t := hcon.other t hcur
    rw [hself, hother, hnew]
    rfl
  · show ((k₁.heap.setFrame t (k₁.heap.task parent).userFrame).task t).userFrame = _
    rw [hself]
    exact hparent
  · have hother : (k₁.heap.setFrame t (k₁.heap.task parent).userFrame).task parent = k₁.heap.task parent :=
      Function.update_of_ne hne _ _
    show ((k₁.heap.setFrame t (k₁.heap.task parent).userFrame).task parent).userFrame = _
    rw [hother]
    exact hparent
  · exact (hareas ▸ hc).setFrame _

end FakeKernel
