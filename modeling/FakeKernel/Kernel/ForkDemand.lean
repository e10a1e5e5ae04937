import FakeKernel.Kernel.Supply

/-!
# How many pages fork takes

* `kmalloc_costs`, `allocPage_costs`   one page for each block that is allocated;
* `clonePage_costs`      two for each page that is copied, and one for each table that is missing;
* `cloneArea_costs`, `vmCloneFrom_costs`   the same for an area and for a list of areas;
* `taskClone_costs`      four more for the task itself.
-/

namespace FakeKernel
open Bytes Bitfield Mm Heap

variable {h h' : Heap} {own own' : Owners} {q : TaskList → List Nat} {t n a va flags size root : Nat}
  {ns : List Nat} {l : List (Nat × Nat)} {k k' : Kernel} {regs : Cpu}

/-! ## one block -/

theorem Mm.Extends.spare {a a' : Mm} {W : Set Nat} {N : List Nat} (hx : Extends a a' W N) :
    a.spare = N.length + a'.spare := by
  rw [Nat.add_comm]
  exact hx.free

namespace Heap

theorem kmalloc_costs (hok : h.mm.Ok) (hs : size ≤ 4092) : Costs (h.kmalloc size) h.mm.spare 1 (fun r => r.2.mm.spare)
    fun r => r.1 ≠ 0 ∧ Extends h.mm r.2.mm ∅ [r.1 - 4] ∧ r.2.task = h.task ∧ r.2.area = h.area := by
  refine ⟨fun hle => ?_, fun r hrun => ?_⟩
  · obtain ⟨p, h', hrun⟩ := kmalloc_room (k := 0) ⟨hok, hle⟩ hs
    exact ⟨_, hrun⟩
  · obtain ⟨p, h'⟩ := r
    obtain ⟨mm, he, h4, hx, _⟩ := kmalloc_spec hok hs hrun
    have hmm : h'.mm = mm := by rw [he]
    rw [← hmm] at hx
    refine ⟨⟨by omega, hx, ?_, ?_⟩, hx.spare⟩
    · rw [he]
    · rw [he]

theorem allocPage_costs (hok : h.mm.Ok) : Costs h.allocPage h.mm.spare 1 (fun r => r.2.mm.spare)
    fun r => r.1 ≠ 0 ∧ Extends h.mm r.2.mm ∅ [r.1] ∧ r.2.task = h.task := by
  refine ⟨fun hle => ?_, fun r hrun => ?_⟩
  · obtain ⟨p, h', hrun⟩ := allocPage_room (k := 0) ⟨hok, hle⟩
    exact ⟨_, hrun⟩
  · obtain ⟨p, h'⟩ := r
    obtain ⟨mm, he, h0, hx⟩ := allocPage_spec hok hrun
    have hmm : h'.mm = mm := by rw [he]
    rw [← hmm] at hx
    refine ⟨⟨h0, hx, ?_⟩, hx.spare⟩
    rw [he]

theorem listNodeCreate_costs (hok : h.mm.Ok) (value : Nat) : Costs (h.listNodeCreate value) h.mm.spare 1
    (fun r => r.2.mm.spare) fun r => r.1 ≠ 0 ∧ Extends h.mm r.2.mm ∅ [r.1 - 4] ∧ r.2.task = h.task ∧ r.2.area = h.area := by
  refine ⟨fun hle => ?_, fun r hrun => ?_⟩
  · obtain ⟨n, h', hrun⟩ := listNodeCreate_room (k := 0) ⟨hok, hle⟩ value
    exact ⟨_, hrun⟩
  · obtain ⟨n, h'⟩ := r
    obtain ⟨mm, he, h4, hx, _⟩ := listNodeCreate_spec hok hrun
    have hmm : h'.mm = mm := by rw [he]
    rw [← hmm] at hx
    refine ⟨⟨by omega, hx, ?_, ?_⟩, hx.spare⟩
    · rw [he]
    · rw [he]

end Heap

/-! ## one page -/

/-- the body of the loop of vm_clone over the pages of an area -/
def Kernel.clonePage (regs : Cpu) (task copy flags va : Nat) (k : Kernel) : Res Kernel := do
  let (page, h) ← k.heap.allocPage
  if page = 0 then panic "out of memory"
  else
    let (node, h) ← h.listNodeCreate page
    if node = 0 then panic "out of memory"
    else
      let h := h.listPush (.pages copy) node
      let (err, h) ← h.setPageUser (h.task task).pageTable va (PA page) flags
      if err ≠ 0 then panic "set_page"
      else
        let (_, k) ← Kernel.copyFromUser regs page va pageSize (k.setHeap h)
        .ok k

theorem Kernel.clonePages_succ (task copy i : Nat) : k.clonePages regs task copy flags (i + 1) va
    = k.clonePage regs task copy flags va >>= Kernel.clonePages regs task copy flags i ((va + pageSize) % wordCount) := by
  unfold Kernel.clonePage
  show (k.heap.allocPage >>= fun r => _) = _
  cases k.heap.allocPage with
  | error e => rfl
  | ok r =>
    by_cases hp : r.1 = 0
    · simp only [Res.ok_bind, hp, if_true]
      rfl
    simp only [Res.ok_bind, hp, if_false]
    cases r.2.listNodeCreate r.1 with
    | error e => rfl
    | ok s =>
      by_cases hn : s.1 = 0
      · simp only [Res.ok_bind, hn, if_true]
        rfl
      simp only [Res.ok_bind, hn, if_false]
      cases (s.2.listPush (.pages copy) s.1).setPageUser ((s.2.listPush (.pages copy) s.1).task task).pageTable va
        (PA r.1) flags with
      | error e => rfl
      | ok u =>
        by_cases he : u.1 = 0
        · simp only [Res.ok_bind, he, ne_eq, not_true_eq_false, if_false]
          cases (k.setHeap u.2).copyFromUser regs r.1 va pageSize with
          | error e => rfl
          | ok v => rfl
        · simp only [Res.ok_bind, he, ne_eq, not_false_eq_true, if_true]
          rfl

/-- the tables of the task are those for the entries `l` -/
structure Copying (k : Kernel) (t root : Nat) (l : List (Nat × Nat)) : Prop where
  rooted : Rooted k.heap.mm root l
  root : (k.heap.task t).pageTable = root

/-- the page itself, its node and the tables for its address -/
theorem clonePage_costs (hc : Copying k t root l) (hf : flags ||| pteUser < 2 ^ 8) (hva : Sv39Va.off va = 0) :
    Costs (k.clonePage regs t a flags va) k.heap.mm.spare (2 + newTables l (slotOf va)) (fun k' => k'.heap.mm.spare)
      fun k' => Copying k' t root (slotOf va :: l) := by
  have hsum : 2 + newTables l (slotOf va) = 1 + (1 + (newTables l (slotOf va) + (0 + 0))) := by omega
  rw [hsum]
  unfold Kernel.clonePage
  refine (allocPage_costs hc.rooted.wf.ok).bind fun (p, h₁) ⟨hp0, hx₁, htask₁⟩ => ?_
  have hp : p ∈ [p] := List.mem_singleton_self p
  simp only [hp0, if_false]
  refine (listNodeCreate_costs hx₁.ok p).bind fun (m, h₂) ⟨hm0, hx₂, htask₂, _⟩ => ?_
  simp only [hm0, if_false]
  have hr₂ : Rooted h₂.mm root l := (hc.rooted.extends hx₁ fun _ _ => nofun).extends hx₂ fun _ _ => nofun
  have hroot₂ : (h₂.task t).pageTable = root := by
    rw [htask₂, htask₁, hc.root]
  have hnew : p ∉ tables h₂.mm.mem 2 root := by
    rw [((hc.rooted.wf.extends hx₁ fun _ _ => nofun).1.extends hx₂ fun _ _ => nofun).2.2,
      (hc.rooted.wf.extends hx₁ fun _ _ => nofun).2.2]
    exact hc.rooted.wf.new_not_mem hx₁ hp
  have hkept : h₂.mm.KeptPage p := hx₂.keptPage (hx₁.new_kept hp)
  have hset : Costs ((h₂.listPush (.pages a) m).setPageUser ((h₂.listPush (.pages a) m).task t).pageTable va (PA p) flags)
      h₂.mm.spare (newTables l (slotOf va) + 0) (fun r => r.2.mm.spare) fun r => r.1 = 0 ∧ Rooted r.2.mm root (slotOf va :: l) ∧
        r.2.task = h₂.task ∧ p ∉ tables r.2.mm.mem 2 root ∧ r.2.mm.KeptPage p := by
    unfold Heap.setPageUser FakeKernel.setPageUser
    have hpage := hr₂.setPage hf hva (off_PA (hx₁.new_usable hp) (hx₁.new_page hp))
    have htable : ((h₂.listPush (.pages a) m).task t).pageTable = root := hroot₂
    rw [htable]
    refine hpage.bind fun (err, mm) ⟨he, hr, N, hsplit⟩ => .ok ⟨he, hr, rfl, fun hin => ?_, hsplit.grow.keptPage hkept⟩ rfl
    cases hsplit.upd.mem_tables p hin with
    | inl hold => exact hnew hold
    | inr hfresh => exact hsplit.grow.not_new hkept hfresh
  have hassoc : newTables l (slotOf va) + (0 + 0) = newTables l (slotOf va) + 0 + 0 := rfl
  rw [hassoc]
  refine hset.bind fun (err, h₃) ⟨he, hr₃, htask₃, hnot, hkept₃⟩ => ?_
  have he : err = 0 := he
  simp only [he, ne_eq, not_true_eq_false, if_false]
  -- the copy writes to the new page, which is no table
  obtain ⟨r, k₄, hcopy, hacc, _⟩ := Kernel.copyFromUser_spec (k.setHeap h₃) regs p va pageSize
  obtain ⟨mem, task, hheap, hmem, hsame, _⟩ := hacc.heap
  rw [hcopy, Res.ok_bind]
  have hmm : k₄.heap.mm = h₃.mm.setMem mem := by
    rw [hheap]
    rfl
  have hx₄ : Extends h₃.mm (h₃.mm.setMem mem) {p} [] :=
    hr₃.wf.ok.write_page hkept₃ (hx₁.new_page hp) hmem
  refine .ok ⟨?_, ?_⟩ ?_
  · rw [hmm]
    exact hr₃.extends hx₄ fun s hs hsp => hnot (hsp ▸ hs)
  · have hblocks : Kernel.SameFrame (h₃.task t) (task t) := hsame t
    rw [hheap]
    show (task t).pageTable = root
    rw [hblocks.blocks.2.2.1, htask₃, hroot₂]
  · show h₃.mm.spare = k₄.heap.mm.spare
    rw [hmm]
    rfl

/-! ## the tables for a list of addresses -/

/-- the tables that the entries `ss` need besides those for `l` -/
def tablesAdded : List (Nat × Nat) → List (Nat × Nat) → Nat
  | _, [] => 0
  | l, s :: ss => newTables l s + tablesAdded (s :: l) ss

theorem tablesAdded_append (l ss us : List (Nat × Nat)) :
    tablesAdded l (ss ++ us) = tablesAdded l ss + tablesAdded (ss.reverse ++ l) us := by
  induction ss generalizing l with
  | nil => exact (Nat.zero_add _).symm
  | cons s ss ih =>
    show newTables l s + tablesAdded (s :: l) (ss ++ us) = _
    rw [ih, List.reverse_cons, List.append_assoc]
    exact (Nat.add_assoc _ _ _).symm

theorem tablesAdded_add (l ss : List (Nat × Nat)) : tablesAdded l ss + tablesFor l = tablesFor (ss.reverse ++ l) := by
  induction ss generalizing l with
  | nil => exact Nat.zero_add _
  | cons s ss ih =>
    have hcons := tablesFor_cons s l
    have htail := ih (s :: l)
    rw [List.reverse_cons, List.append_assoc]
    show newTables l s + tablesAdded (s :: l) ss + tablesFor l = tablesFor (ss.reverse ++ (s :: l))
    omega

theorem tablesAdded_nil (ss : List (Nat × Nat)) : tablesAdded [] ss = tablesFor ss := by
  have h := tablesAdded_add [] ss
  rw [List.append_nil] at h
  have hrev : tablesFor ss.reverse = tablesFor ss := by
    unfold tablesFor rootSlots
    rw [List.map_reverse, List.toFinset_reverse, List.toFinset_reverse]
  exact h.trans hrev

/-- the entries for `n` pages from `va` on -/
def pageSlots (va n : Nat) : List (Nat × Nat) := (List.range n).map fun i => slotOf (va + pageSize * i)

theorem pageSlots_succ (va n : Nat) : pageSlots va (n + 1) = slotOf va :: pageSlots (va + pageSize) n := by
  unfold pageSlots
  rw [List.range_succ_eq_map, List.map_cons, List.map_map]
  refine congrArg _ (List.map_congr_left fun i _ => congrArg slotOf ?_)
  show va + pageSize * (i + 1) = _
  rw [Nat.mul_succ]
  omega

/-- a walk does not look at more than 39 bits -/
theorem slotOf_mod (x y : Nat) : slotOf (x % wordCount + y) = slotOf (x + y) := by
  unfold slotOf Sv39Va.vpn2 Sv39Va.vpn1 field wordCount
  refine Prod.ext ?_ ?_ <;> omega

theorem pageSlots_mod (va n : Nat) : pageSlots (va % wordCount) n = pageSlots va n :=
  List.map_congr_left fun _ _ => slotOf_mod _ _

/-! ## areas -/

/-- two blocks for each page, and the tables -/
theorem clonePages_costs {i : Nat} (hc : Copying k t root l) (hf : flags ||| pteUser < 2 ^ 8) (hva : pageSize ∣ va) :
    Costs (k.clonePages regs t a flags i va) k.heap.mm.spare (2 * i + tablesAdded l (pageSlots va i))
      (fun k' => k'.heap.mm.spare) fun k' => Copying k' t root ((pageSlots va i).reverse ++ l) := by
  induction i generalizing k l va with
  | zero => exact .ok hc rfl
  | succ i ih =>
    have hdvd : pageSize ∣ (va + pageSize) % wordCount :=
      (Nat.dvd_mod_iff (by decide)).mpr (Nat.dvd_add hva (Nat.dvd_refl _))
    have hsum : 2 * (i + 1) + tablesAdded l (pageSlots va (i + 1)) = (2 + newTables l (slotOf va)) +
        (2 * i + tablesAdded (slotOf va :: l) (pageSlots (va + pageSize) i)) := by
      rw [pageSlots_succ]
      show 2 * (i + 1) + (newTables l (slotOf va) + tablesAdded (slotOf va :: l) _) = _
      omega
    have hlist : (pageSlots va (i + 1)).reverse ++ l = (pageSlots (va + pageSize) i).reverse ++ (slotOf va :: l) := by
      rw [pageSlots_succ, List.reverse_cons, List.append_assoc]
      rfl
    rw [Kernel.clonePages_succ, hsum, hlist]
    refine (clonePage_costs hc hf (off_of_dvd hva)).bind fun k₁ hc₁ => ?_
    have hrest := ih hc₁ hdvd
    rw [pageSlots_mod] at hrest
    exact hrest

theorem cloneArea_costs {area : Nat} {x : VmArea} (hc : Copying k t root l) (hx : k.heap.area area = x)
    (hva : pageSize ∣ x.va) : Costs (k.cloneArea regs t area) k.heap.mm.spare
      (2 + 2 * x.nPages + tablesAdded l (pageSlots x.va x.nPages)) (fun k' => k'.heap.mm.spare)
      fun k' => Copying k' t root ((pageSlots x.va x.nPages).reverse ++ l) := by
  have hsum : 2 + 2 * x.nPages + tablesAdded l (pageSlots x.va x.nPages) =
      1 + (1 + (2 * x.nPages + tablesAdded l (pageSlots x.va x.nPages))) := by omega
  rw [hsum]
  unfold Kernel.cloneArea
  refine (kmalloc_costs hc.rooted.wf.ok (by decide)).bind fun (c, h₁) ⟨hc0, hx₁, htask₁, harea₁⟩ => ?_
  simp only [hc0, if_false]
  refine (listNodeCreate_costs hx₁.ok c).bind fun (n, h₂) ⟨hn0, hx₂, htask₂, harea₂⟩ => ?_
  simp only [hn0, if_false]
  have harea : (h₂.listPush (.vmAreas t) n).area area = x := by
    show h₂.area area = x
    rw [harea₂, harea₁, hx]
  rw [harea]
  refine clonePages_costs ⟨?_, ?_⟩ pteFlags_user_lt hva
  · exact (hc.rooted.extends hx₁ fun _ _ => nofun).extends hx₂ fun _ _ => nofun
  · show (h₂.task t).pageTable = root
    rw [htask₂, htask₁, hc.root]

/-- the entries for the pages of the areas `ns` -/
def Heap.areaSlots (h : Heap) (ns : List Nat) : List (Nat × Nat) :=
  ns.flatMap fun n => pageSlots (h.areaOf n).va (h.areaOf n).nPages

/-- the blocks for these areas and pages -/
def Heap.areaBlocks (h : Heap) (ns : List Nat) : Nat := (ns.map fun n => 2 + 2 * (h.areaOf n).nPages).sum

theorem Heap.area_congr (hof : ∀ n ∈ ns, h'.areaOf n = h.areaOf n) :
    h'.areaSlots ns = h.areaSlots ns ∧ h'.areaBlocks ns = h.areaBlocks ns := by
  refine ⟨List.flatMap_congr fun n hn => ?_, congrArg List.sum (List.map_congr_left fun n hn => ?_)⟩
  · rw [hof n hn]
  · rw [hof n hn]

/-- the nodes for the areas of a task that is left alone -/
theorem Untouched.areaOf (hu : Untouched h h' own own' t) (hA : Areas h.lists own t) (hn : own.Obj n t .vnode) :
    h'.node n = h.node n ∧ h'.areaOf n = h.areaOf n := by
  have hnode : h'.node n = h.node n := hu.node n .vnode hn rfl
  refine ⟨hnode, ?_⟩
  unfold Heap.areaOf
  rw [hnode]
  exact hu.area _ n ((hA.area n _).mpr ⟨hn, rfl⟩)

theorem vmCloneFrom_costs {parent fuel node : Nat} (hw : World k.heap own q) (ht : t ∈ k.heap.live)
    (hparent : parent ∈ k.heap.live) (hne : parent ≠ t) (hch : Chain (fun n => (k.heap.node n).next) 0 node ns)
    (hns : ∀ n ∈ ns, own.Obj n parent .vnode) (hfuel : ns.length < fuel) (hc : Copying k t root l) :
    Costs (k.vmCloneFrom regs t fuel node) k.heap.mm.spare (k.heap.areaBlocks ns + tablesAdded l (k.heap.areaSlots ns))
      (fun k' => k'.heap.mm.spare) fun k' => Copying k' t root ((k.heap.areaSlots ns).reverse ++ l) := by
  induction ns generalizing k own node fuel l with
  | nil =>
    cases fuel with
    | zero => exact absurd hfuel (Nat.not_lt_zero _)
    | succ fuel =>
      have hz : node = 0 := hch
      unfold Kernel.vmCloneFrom
      rw [if_pos hz]
      exact .ok hc rfl
  | cons n ns ih =>
    cases fuel with
    | zero => exact absurd hfuel (Nat.not_lt_zero _)
    | succ fuel =>
      obtain ⟨rfl, hn0, hch'⟩ := hch
      have hA := hw.areas parent hparent
      have hobj := hns node List.mem_cons_self
      obtain ⟨x, hx⟩ : ∃ x, k.heap.areaOf node = x := ⟨_, rfl⟩
      have hva : pageSize ∣ x.va := hx ▸ hw.aligned parent _ node ((hA.area node _).mpr ⟨hobj, rfl⟩)
      have hsum : k.heap.areaBlocks (node :: ns) + tablesAdded l (k.heap.areaSlots (node :: ns)) =
          (2 + 2 * x.nPages + tablesAdded l (pageSlots x.va x.nPages)) +
            (k.heap.areaBlocks ns + tablesAdded ((pageSlots x.va x.nPages).reverse ++ l) (k.heap.areaSlots ns)) := by
        unfold Heap.areaBlocks Heap.areaSlots
        rw [List.map_cons, List.sum_cons, List.flatMap_cons, tablesAdded_append, hx]
        omega
      have hrev : (k.heap.areaSlots (node :: ns)).reverse ++ l
          = (k.heap.areaSlots ns).reverse ++ ((pageSlots x.va x.nPages).reverse ++ l) := by
        unfold Heap.areaSlots
        rw [List.flatMap_cons, hx, List.reverse_append, List.append_assoc]
      unfold Kernel.vmCloneFrom
      rw [if_neg hn0, hsum, hrev]
      have harea : Costs (k.cloneArea regs t (k.heap.node node).value) k.heap.mm.spare
          (2 + 2 * x.nPages + tablesAdded l (pageSlots x.va x.nPages)) (fun k' => k'.heap.mm.spare)
          fun k' => Copying k' t root ((pageSlots x.va x.nPages).reverse ++ l) ∧
            ∃ own', Grown q t k.heap own k'.heap own' := by
        obtain ⟨hret, hspec⟩ : Costs (k.cloneArea regs t (k.heap.node node).value) _ _ _ _ := cloneArea_costs hc hx hva
        refine ⟨hret, fun k' hrun => ?_⟩
        obtain ⟨hc', hspare⟩ := hspec k' hrun
        obtain ⟨own', hg, _⟩ := cloneArea_world hw ht (hw.aligned parent _ node ((hA.area node _).mpr ⟨hobj, rfl⟩)) hrun
        exact ⟨⟨hc', own', hg⟩, hspare⟩
      refine harea.bind fun k₁ hk₁ => ?_
      obtain ⟨hc₁, own₁, hg⟩ := hk₁
      have hu := hg.untouched hw.held hparent hne
      have hsame : ∀ m ∈ ns, k₁.heap.node m = k.heap.node m ∧ k₁.heap.areaOf m = k.heap.areaOf m := fun m hm =>
        hu.areaOf hA (hns m (List.mem_cons_of_mem _ hm))
      obtain ⟨hslots, hblocks⟩ := Heap.area_congr fun m hm => (hsame m hm).2
      rw [← hslots, ← hblocks, (hu.areaOf hA hobj).1]
      refine ih hg.world (hg.live ▸ ht) (hg.live ▸ hparent) (hch'.congr fun m hm => ?_) (fun m hm => ?_)
        (Nat.lt_of_succ_lt_succ hfuel) hc₁
      · exact congrArg ListNode.next (hsame m hm).1
      · exact hg.mono.obj (hns m (List.mem_cons_of_mem _ hm)) rfl

/-- vm_clone returns only if the list of areas ends -/
theorem vmCloneFrom_ends {parent fuel node : Nat} (hw : World k.heap own q) (ht : t ∈ k.heap.live)
    (hparent : parent ∈ k.heap.live) (hne : parent ≠ t) (hnode : node = 0 ∨ own.Obj node parent .vnode)
    (hrun : k.vmCloneFrom regs t fuel node = .ok k') : ∃ ns, Chain (fun n => (k.heap.node n).next) 0 node ns := by
  induction fuel generalizing k own node with
  | zero => exact nomatch hrun
  | succ fuel ih =>
    by_cases hz : node = 0
    · exact ⟨[], hz⟩
    · have hobj := hnode.resolve_left hz
      have hA := hw.areas parent hparent
      unfold Kernel.vmCloneFrom at hrun
      rw [if_neg hz] at hrun
      obtain ⟨k₁, hcopy, hrun⟩ := Res.bind_eq_ok.mp hrun
      obtain ⟨own₁, hg, _⟩ := cloneArea_world hw ht (hw.aligned parent _ node ((hA.area node _).mpr ⟨hobj, rfl⟩)) hcopy
      have hu := hg.untouched hw.held hparent hne
      have hA₁ := hg.world.areas parent (hg.live ▸ hparent)
      have hnext : (k₁.heap.node node).next = 0 ∨ own₁.Obj (k₁.heap.node node).next parent .vnode :=
        hA₁.vm.next node (hg.mono.obj hobj rfl)
      obtain ⟨ns, hch⟩ := ih hg.world (hg.live ▸ ht) (hg.live ▸ hparent) hnext hrun
      have hstart : (k₁.heap.node node).next = (k.heap.node node).next := congrArg ListNode.next (hu.node node .vnode hobj rfl)
      rw [hstart] at hch hnext
      have hns := hA₁.vm.chain hnext hch
      have hch' : Chain (fun n => (k.heap.node n).next) 0 (k.heap.node node).next ns := hch.congr fun n hn => by
        rw [hu.node n .vnode ((hu.obj rfl).mp (hns n hn)) rfl]
      exact ⟨node :: ns, rfl, hz, hch'⟩

/-! ## the task -/

/-- the pages that fork takes for a task with the areas `ns`: its struct, its stack, its root table and
its sched node, two for each area, two for each page and one for each table below the root -/
def Heap.forkDemand (h : Heap) (ns : List Nat) : Nat := 4 + h.areaBlocks ns + tablesFor (h.areaSlots ns)

theorem taskCreate_costs {parent : Nat} (hw : World h own q) (hid : 0 < h.nextTaskId) :
    Costs (h.taskCreate parent) h.mm.spare 4 (fun r => r.2.mm.spare)
      fun r => ∃ own' n stack root, TaskAdded q parent h own r.2 own' r.1 n stack root := by
  refine ⟨fun hle => ?_, fun r hrun => ?_⟩
  · obtain ⟨r, hrun, _⟩ := taskCreate_room (k := 0) ⟨hw.held.ok, hle⟩ parent
    exact ⟨r, hrun⟩
  · obtain ⟨t, h'⟩ := r
    obtain ⟨own', n, stack, root, ha⟩ := taskCreate_added hw hid hrun
    exact ⟨⟨own', n, stack, root, ha⟩, ha.mm.spare⟩

/-- the tree of a new task has no tables below the root -/
theorem TaskAdded.copying {parent stack : Nat} (ha : TaskAdded q parent h own h' own' t n stack root) :
    Copying (k.setHeap h') t root [] := by
  have hroot : (h'.task t).pageTable = root := by
    rw [ha.fields]
    rfl
  have hwf := (ha.world.maps t (ha.live ▸ List.mem_cons_self)).wf
  rw [hroot] at hwf
  exact ⟨⟨hwf, .single hwf ha.single⟩, hroot⟩

theorem taskClone_costs {parent : Nat} (hw : World k.heap own q) (hparent : parent ∈ k.heap.live)
    (hch : Chain (fun n => (k.heap.node n).next) 0 (k.heap.lists.list (.vmAreas parent)).first ns) :
    Costs (k.taskClone regs parent) k.heap.mm.spare (k.heap.forkDemand ns) (fun r => r.2.heap.mm.spare)
      fun r => Rooted r.2.heap.mm (r.2.task r.1).pageTable (k.heap.areaSlots ns).reverse := by
  have hid : 0 < k.heap.nextTaskId := Nat.lt_of_le_of_lt (Nat.zero_le _) (hw.pids parent hparent).2
  have hA := hw.areas parent hparent
  have hns := hA.vm.chain hA.vm.first hch
  have hsum : k.heap.forkDemand ns = 4 + (k.heap.areaBlocks ns + tablesAdded [] (k.heap.areaSlots ns) + 0) := by
    rw [tablesAdded_nil]
    exact Nat.add_assoc _ _ _
  rw [hsum]
  unfold Kernel.taskClone
  refine (taskCreate_costs hw hid).bind fun (t, h₁) ⟨own₁, n, stack, root, ha⟩ => ?_
  have hgood : isErr t = false := ha.world.held.not_err ha.obj.1
  simp only [hgood, Bool.false_eq_true, if_false]
  have ht : t ∈ h₁.live := ha.live ▸ List.mem_cons_self
  have hp₁ : parent ∈ h₁.live := ha.live ▸ List.mem_cons_of_mem _ hparent
  have hne : parent ≠ t := fun e => ha.fresh (e ▸ hparent)
  have hu := ha.untouched parent hparent
  have hsame : ∀ m ∈ ns, h₁.node m = k.heap.node m ∧ h₁.areaOf m = k.heap.areaOf m := fun m hm => hu.areaOf hA (hns m hm)
  obtain ⟨hslots, hblocks⟩ := Heap.area_congr fun m hm => (hsame m hm).2
  have hobj₁ : ∀ m ∈ ns, own₁.Obj m parent .vnode := fun m hm => (hu.obj rfl).mpr (hns m hm)
  have hch₁ : Chain (fun n => (h₁.node n).next) 0 (h₁.lists.list (.vmAreas parent)).first ns := by
    rw [hu.vm]
    exact hch.congr fun m hm => congrArg ListNode.next (hsame m hm).1
  have hlen : ns.length < wordCount := hch₁.length_lt (by decide) fun m hm => ha.world.held.obj_lt (hobj₁ m hm)
  have hclone : Costs ((k.setHeap h₁).vmClone regs (.vmAreas parent) t) h₁.mm.spare
      (h₁.areaBlocks ns + tablesAdded [] (h₁.areaSlots ns)) (fun k' => k'.heap.mm.spare)
      fun k' => Copying k' t root ((h₁.areaSlots ns).reverse ++ []) :=
    vmCloneFrom_costs ha.world ht hp₁ hne hch₁ hobj₁ hlen ha.copying
  rw [List.append_nil] at hclone
  rw [← hslots, ← hblocks]
  refine hclone.bind fun k₂ hc => .ok ?_ rfl
  have hframe : ((k₂.setHeap (k₂.heap.setFrame t (k₂.task parent).userFrame)).task t).pageTable = root := by
    show (Function.update k₂.heap.task t _ t).pageTable = root
    rw [Function.update_self]
    exact hc.root
  rw [hframe]
  exact hc.rooted

theorem taskClone_ends {parent child : Nat} (hw : World k.heap own q) (hparent : parent ∈ k.heap.live)
    (hrun : k.taskClone regs parent = .ok (child, k')) :
    ∃ ns, Chain (fun n => (k.heap.node n).next) 0 (k.heap.lists.list (.vmAreas parent)).first ns := by
  obtain ⟨_, h₁, own₁, n, stack, root, k₁, ha, hclone, _⟩ := taskClone_added hw hparent hrun
  have hne : parent ≠ child := fun e => ha.fresh (e ▸ hparent)
  have hp₁ : parent ∈ h₁.live := ha.live ▸ List.mem_cons_of_mem _ hparent
  have hA₁ := ha.world.areas parent hp₁
  have hu := ha.untouched parent hparent
  obtain ⟨ns, hch⟩ : ∃ ns, Chain (fun n => (h₁.node n).next) 0 (h₁.lists.list (.vmAreas parent)).first ns :=
    vmCloneFrom_ends (k := k.setHeap h₁) ha.world (ha.live ▸ List.mem_cons_self) hp₁ hne hA₁.vm.first hclone
  have hns := hA₁.vm.chain hA₁.vm.first hch
  rw [hu.vm] at hch
  refine ⟨ns, hch.congr fun m hm => ?_⟩
  rw [hu.node m .vnode ((hu.obj rfl).mp (hns m hm)) rfl]

end FakeKernel
