import FakeKernel.Kernel.Fitted
import Mathlib.Algebra.BigOperators.Group.Finset.Basic
import Mathlib.Data.Set.Card

/-!
# How many blocks tasks have

* `Tabled.length`         the number of tables of a tree;
* `taskPages_length`      the blocks of a task, counted: they are as many as its areas ask for;
* `Kernel.Step.sized`     what a step takes from the free pages it adds to the blocks of tasks;
* `pages_conserved`       the free pages and the blocks of all tasks are as many in each state of a run.
-/

namespace FakeKernel
open Bytes Mm Heap Kernel

variable {k k' : Kernel} {h h' : Heap} {own own' : Owners} {q : TaskList → List Nat} {t a n p root : Nat} {ns : List Nat} {m : Mem}
  {S : Finset Nat} {T : Finset (Nat × Nat)}

/-! ## the tables of a tree -/

theorem sum_map_range (n : Nat) (f : Nat → Nat) : ((List.range n).map f).sum = ∑ i ∈ Finset.range n, f i := rfl

/-- the tables below the entry `i` of the root -/
theorem Tabled.below_length (hT : Tabled m root S T) (hlt : ∀ x ∈ T, x.2 < entryCount) {i : Nat} (hi : i < entryCount) :
    (FakeKernel.below m 1 (entry m root i)).length = if i ∈ S then 1 + (T.filter fun x => x.1 = i).card else 0 := by
  by_cases hS : i ∈ S
  · have hp := (hT.one i hi).mpr hS
    have hentry : ∀ j ∈ Finset.range entryCount, (FakeKernel.below m 0 (entry m (subtableFromPte (entry m root i)) j)).length
        = if (i, j) ∈ T then 1 else 0 := by
      intro j hj
      have hzero := hT.zero i hi hS j (Finset.mem_range.mp hj)
      by_cases hin : (i, j) ∈ T
      · rw [below_of_pointer (hzero.mpr hin), if_pos hin]
        rfl
      · have hleaf := Bool.eq_true_of_not_eq_false fun h => hin (hzero.mp h)
        unfold FakeKernel.below
        rw [if_pos hleaf, if_neg hin]
        rfl
    rw [if_pos hS, below_of_pointer hp, tables_succ, List.length_cons, List.length_flatMap, sum_map_range, Finset.sum_congr rfl hentry,
      ← Finset.card_filter, Nat.add_comm]
    refine congrArg (1 + ·) (Finset.card_bij (fun j _ => (i, j)) (fun j hj => ?_) (fun j _ j' _ he => (Prod.mk.inj he).2) fun x hx => ?_)
    · exact Finset.mem_filter.mpr ⟨(Finset.mem_filter.mp hj).2, rfl⟩
    · obtain ⟨hin, rfl⟩ := Finset.mem_filter.mp hx
      exact ⟨x.2, Finset.mem_filter.mpr ⟨Finset.mem_range.mpr (hlt x hin), hin⟩, rfl⟩
  · have hleaf := Bool.eq_true_of_not_eq_false fun h => hS ((hT.one i hi).mp h)
    unfold FakeKernel.below
    rw [if_pos hleaf, if_neg hS]
    rfl

theorem Tabled.length (hT : Tabled m root S T) (hS : ∀ i ∈ S, i < entryCount) (hlt : ∀ x ∈ T, x.2 < entryCount) :
    (tables m 2 root).length = 1 + S.card + T.card := by
  have hinter : Finset.range entryCount ∩ S = S := by
    apply Finset.inter_eq_right.mpr
    intro i hi
    exact Finset.mem_range.mpr (hS i hi)
  rw [tables_succ, List.length_cons, List.length_flatMap, sum_map_range,
    Finset.sum_congr rfl fun i hi => hT.below_length hlt (Finset.mem_range.mp hi), Finset.sum_ite_mem, hinter,
    Finset.sum_add_distrib, ← Finset.card_eq_sum_card_fiberwise (f := Prod.fst) fun x hx => hT.below x hx, Finset.sum_const]
  simp
  omega

theorem slotsOf_lt {areas : List VmArea} {s : Nat × Nat} (hs : s ∈ slotsOf areas) : s.1 < entryCount ∧ s.2 < entryCount := by
  obtain ⟨x, _, hs⟩ := List.mem_flatMap.mp hs
  obtain ⟨i, _, rfl⟩ := List.mem_map.mp hs
  exact slotOf_lt _

theorem Fitted.tables_length (hf : Fitted h t) :
    (tables h.mm.mem 2 (h.task t).pageTable).length = 1 + tablesFor (slotsOf (h.areasOf t)) := by
  rw [hf.tabled.length (fun i hi => ?_) fun x hx => ?_]
  · exact Nat.add_assoc _ _ _
  · obtain ⟨s, hs, rfl⟩ := mem_rootSlots.mp hi
    exact (slotsOf_lt hs).1
  · exact (slotsOf_lt (List.mem_toFinset.mp hx)).2

/-! ## the blocks of a task -/

/-- the blocks of the area that the node `n` leads to, and that of the node -/
noncomputable def Heap.nodePages (h : Heap) (n : Nat) : List Nat :=
  (n - 4) :: FakeKernel.areaBlocks h (h.node n).value (listed h (.pages (h.node n).value))

/-- the blocks of a task whose areas are listed by `ns` -/
noncomputable def Heap.taskPages (h : Heap) (t : Nat) (ns : List Nat) : List Nat :=
  (t - 4) :: (h.task t).kernelStack :: ((h.task t).sched - 4) :: (tables h.mm.mem 2 (h.task t).pageTable ++ ns.flatMap h.nodePages)

namespace Areas

/-- the blocks of an area are no nodes of the list of areas -/
theorem areaBlocks_ne {ms : List Nat} (hA : Areas h.lists own t) (ha : own.Obj a t (.area n)) (hms : ∀ m ∈ ms, own.Obj m t (.pnode a))
    (hp : p ∈ FakeKernel.areaBlocks h a ms) : ∃ r, own.Page p t r ∧ r.isListed = true ∧ r ≠ .vnode := by
  rcases areaBlocks_role hA ha hms hp with ⟨hr, _⟩ | ⟨m, v, hr, _⟩ | hr
  · exact ⟨_, hr, rfl, nofun⟩
  · exact ⟨_, hr, rfl, nofun⟩
  · exact ⟨_, hr, rfl, nofun⟩

theorem areaBlocks_nodup {ms : List Nat} (hA : Areas h.lists own t) (ha : own.Obj a t (.area n)) (hnd : ms.Nodup)
    (hms : ∀ m ∈ ms, own.Obj m t (.pnode a)) : (FakeKernel.areaBlocks h a ms).Nodup := by
  have hvalue : ∀ p ∈ ms.map fun m => (h.node m).value, ∃ m v, own.Page p t (.user m v) := by
    intro p hp
    obtain ⟨m, hm, rfl⟩ := List.mem_map.mp hp
    exact ⟨m, (hA.page m _).mpr ⟨⟨a, hms m hm⟩, rfl⟩⟩
  have hnode : ∀ p ∈ ms.map (· - 4), own.Page p t (.pnode a) := by
    intro p hp
    obtain ⟨m, hm, rfl⟩ := List.mem_map.mp hp
    exact (hms m hm).page
  refine List.nodup_cons.mpr ⟨fun hin => ?_, List.nodup_append.mpr ⟨values_nodup hA hnd hms, ?_, fun p hp p' hp' he => ?_⟩⟩
  · cases List.mem_append.mp hin with
    | inl hp =>
      obtain ⟨m, v, hp⟩ := hvalue _ hp
      exact nomatch (ha.page.unique hp).2
    | inr hp => exact nomatch (ha.page.unique (hnode _ hp)).2
  · refine List.Nodup.map_on (fun m hm m' hm' he => ?_) hnd
    have h4 := (hms m hm).1
    have h4' := (hms m' hm').1
    omega
  · obtain ⟨m, v, hp⟩ := hvalue p hp
    exact hp.ne (hnode p' hp') nofun he

/-- the blocks that the node `n` leads to -/
theorem nodePages_listed (hA : Areas h.lists own t) (hn : own.Obj n t .vnode) (hp : p ∈ h.nodePages n) :
    ∃ r, own.Page p t r ∧ r.isListed = true := by
  have ha := (hA.area n _).mpr ⟨hn, rfl⟩
  cases List.mem_cons.mp hp with
  | inl he => exact ⟨_, he ▸ hn.page, rfl⟩
  | inr hp =>
    obtain ⟨r, hr, hl, _⟩ := hA.areaBlocks_ne ha (hA.listed_pnode ha) hp
    exact ⟨r, hr, hl⟩

theorem nodePages_nodup (hA : Areas h.lists own t) (hn : own.Obj n t .vnode)
    (hnd : (listed h (.pages (h.node n).value)).Nodup) : (h.nodePages n).Nodup := by
  have ha := (hA.area n _).mpr ⟨hn, rfl⟩
  have hms := hA.listed_pnode ha
  refine List.nodup_cons.mpr ⟨fun hp => ?_, hA.areaBlocks_nodup ha hnd hms⟩
  obtain ⟨r, hr, _, hne⟩ := hA.areaBlocks_ne ha hms hp
  exact hne (hr.unique hn.page).2

theorem nodePages_disjoint {n' : Nat} (hA : Areas h.lists own t) (hn : own.Obj n t .vnode) (hn' : own.Obj n' t .vnode) (hne : n ≠ n') :
    List.Disjoint (h.nodePages n) (h.nodePages n') := by
  have ha := (hA.area n _).mpr ⟨hn, rfl⟩
  have ha' := (hA.area n' _).mpr ⟨hn', rfl⟩
  have hms := hA.listed_pnode ha
  have hms' := hA.listed_pnode ha'
  intro p hp hp'
  cases List.mem_cons.mp hp with
  | inl he =>
    cases List.mem_cons.mp hp' with
    | inl he' =>
      have h4 := hn.1
      have h4' := hn'.1
      omega
    | inr hp' =>
      obtain ⟨r, hr, _, hv⟩ := hA.areaBlocks_ne ha' hms' hp'
      exact hv (hr.unique (he ▸ hn.page)).2
  | inr hp =>
    cases List.mem_cons.mp hp' with
    | inl he' =>
      obtain ⟨r, hr, _, hv⟩ := hA.areaBlocks_ne ha hms hp
      exact hv (hr.unique (he' ▸ hn'.page)).2
    | inr hp' =>
      have hsame := areaBlocks_disjoint hA ha ha' hms hms' hp hp'
      have hsame : (h.lists.node n).value = (h.lists.node n').value := hsame
      rw [hsame] at ha
      exact hne (Role.area.inj (ha.unique ha').2)

end Areas

namespace Booked

/-- the nodes of the pages of an area, and how many they are -/
theorem pnodes (hb : Booked h own t ns) (hw : World h own q) (ht : t ∈ h.live) (hn : n ∈ ns) :
    (listed h (.pages (h.node n).value)).Nodup ∧ (listed h (.pages (h.node n).value)).length = (h.areaOf n).nPages := by
  have ha := ((hw.areas t ht).area n _).mpr ⟨(hb.vm.mem n).mp hn, rfl⟩
  obtain ⟨ms, page, hag⟩ := hb.areaAgrees hw ht ha (hb.below n hn)
  have hms : listed h (.pages (h.node n).value) = ms := listed_eq hag.queue.chain
  rw [hms]
  exact ⟨hag.queue.chain.nodup, hag.length⟩

theorem mem_taskPages (hb : Booked h own t ns) (hw : World h own q) (ht : t ∈ h.live) :
    p ∈ h.taskPages t ns ↔ TaskBlocks h t p := by
  have hA := hw.areas t ht
  have hlast : ∀ n ∈ ns, (h.area (h.node n).value).lastRef := by
    intro n hn
    have ha := (hA.area n _).mpr ⟨(hb.vm.mem n).mp hn, rfl⟩
    have href : (h.area (h.node n).value).refcount = 1 := hb.complete.refcount _ n ha
    unfold VmArea.lastRef
    rw [href]
    decide
  have hnodes : p ∈ ns.flatMap h.nodePages ↔ FreedAreas h ns (fun a => listed h (.pages a)) p ∨ p ∈ ns.map (· - 4) := by
    rw [List.mem_flatMap, List.mem_map]
    constructor
    · rintro ⟨n, hn, hp⟩
      cases List.mem_cons.mp hp with
      | inl he => exact .inr ⟨n, hn, he.symm⟩
      | inr hp => exact .inl ⟨n, hn, hlast n hn, hp⟩
    · rintro (⟨n, hn, _, hp⟩ | ⟨n, hn, rfl⟩)
      · exact ⟨n, hn, List.mem_cons_of_mem _ hp⟩
      · exact ⟨n, hn, List.mem_cons_self⟩
  unfold Heap.taskPages TaskBlocks SchedBlocks
  rw [List.mem_cons, List.mem_cons, List.mem_cons, List.mem_append, hnodes, hb.vm.listed]
  tauto

theorem taskPages_nodup (hb : Booked h own t ns) (hw : World h own q) (ht : t ∈ h.live) : (h.taskPages t ns).Nodup := by
  have hA := hw.areas t ht
  have hM := hw.maps t ht
  have hS := hw.static t ht
  have hvm : ∀ n ∈ ns, own.Obj n t .vnode := fun n hn => (hb.vm.mem n).mp hn
  have hlisted : ∀ p ∈ ns.flatMap h.nodePages, ∃ r, own.Page p t r ∧ r.isListed = true := by
    intro p hp
    obtain ⟨n, hn, hp⟩ := List.mem_flatMap.mp hp
    exact hA.nodePages_listed (hvm n hn) hp
  -- what else a task has in use is neither a table nor led to by its lists
  have hrest : ∀ p r, own.Page p t r → r ≠ .table → r.isListed = false →
      p ∉ tables h.mm.mem 2 (h.task t).pageTable ++ ns.flatMap h.nodePages := by
    intro p r hp hne hl hin
    cases List.mem_append.mp hin with
    | inl htab => exact hne (hp.unique (hM.tables p htab)).2
    | inr hlist =>
      obtain ⟨r', hr', hl'⟩ := hlisted p hlist
      rw [(hp.unique hr').2, hl'] at hl
      exact nomatch hl
  have hnodes : (ns.flatMap h.nodePages).Nodup := by
    refine List.nodup_flatMap.mpr ⟨fun n hn => hA.nodePages_nodup (hvm n hn) (hb.pnodes hw ht hn).1, ?_⟩
    exact hb.vm.queue.chain.nodup.imp_of_mem fun hn hn' hne => hA.nodePages_disjoint (hvm _ hn) (hvm _ hn') hne
  unfold Heap.taskPages
  refine List.nodup_cons.mpr ⟨fun hin => ?_, List.nodup_cons.mpr ⟨fun hin => ?_, List.nodup_cons.mpr ⟨?_, ?_⟩⟩⟩
  · simp only [List.mem_cons] at hin
    rcases hin with he | he | hin
    · exact hS.task.page.ne hS.stack nofun he
    · exact hS.task.page.ne hS.sched.page nofun he
    · exact hrest _ _ hS.task.page nofun rfl hin
  · simp only [List.mem_cons] at hin
    rcases hin with he | hin
    · exact hS.stack.ne hS.sched.page nofun he
    · exact hrest _ _ hS.stack nofun rfl hin
  · exact hrest _ _ hS.sched.page nofun rfl
  · refine List.nodup_append.mpr ⟨hM.wf.tree.nodup, hnodes, fun p hp p' hp' he => ?_⟩
    obtain ⟨r, hr, hl⟩ := hlisted p' hp'
    refine (hM.tables p hp).ne hr (fun e => ?_) he
    rw [← e] at hl
    exact nomatch hl

/-- a task has the blocks that its areas ask for -/
theorem taskPages_length (hb : Booked h own t ns) (hw : World h own q) (ht : t ∈ h.live) (hf : Fitted h t) :
    (h.taskPages t ns).length = demandOf (h.areasOf t) := by
  have hnode : ∀ n ∈ ns, (h.nodePages n).length = 2 + 2 * (h.areaOf n).nPages := by
    intro n hn
    unfold Heap.nodePages FakeKernel.areaBlocks
    rw [List.length_cons, List.length_cons, List.length_append, List.length_map, List.length_map, (hb.pnodes hw ht hn).2]
    omega
  have hsum : (ns.flatMap h.nodePages).length = blocksOf (h.areasOf t) := by
    unfold blocksOf
    rw [List.length_flatMap, hb.areasOf, List.map_map]
    exact congrArg List.sum (List.map_congr_left hnode)
  unfold Heap.taskPages demandOf
  rw [List.length_cons, List.length_cons, List.length_cons, List.length_append, hf.tables_length, hsum]
  omega

end Booked

/-! ## giving blocks back -/

/-- each page that was given back is one free page more -/
theorem Mm.Shrinks.spare {a a' : Mm} {W : Set Nat} {D : List Nat} (hs : Shrinks a a' W D) (hok : a.Ok) :
    a'.spare = D.length + a.spare := by
  have hnd := hok.nodup
  rw [hs.out.nodup_iff, List.nodup_append] at hnd
  have hpage : ∀ s ∈ D, s ∈ usable ∧ pageSize ∣ s := fun s hs' =>
    ⟨hok.usable (hs.dropped hs') (Tiling.base_mem (pageAt s)), hok.page (hs.dropped hs')⟩
  obtain ⟨I, hI⟩ : ∃ I, I = (Finset.range pageCount).filter fun i => pageNo i ∈ D := ⟨_, rfl⟩
  have hmem : ∀ i, i ∈ I ↔ i < pageCount ∧ pageNo i ∈ D := fun i => by rw [hI, Finset.mem_filter, Finset.mem_range]
  have hcard : I.card = D.length := by
    have himage : I.image pageNo = D.toFinset := by
      apply Finset.ext
      intro s
      rw [Finset.mem_image, List.mem_toFinset]
      constructor
      · rintro ⟨i, hi, rfl⟩
        exact ((hmem i).mp hi).2
      · intro hin
        obtain ⟨i, hi, rfl⟩ := exists_pageNo (hpage s hin).1 (hpage s hin).2
        exact ⟨i, (hmem i).mpr ⟨hi, hin⟩, rfl⟩
    rw [← List.toFinset_card_of_nodup hnd.1.of_map, ← himage, Finset.card_image_of_injective _ fun _ _ => pageNo_inj]
  have hunion : a'.sparePages = a.sparePages ∪ I := by
    apply Finset.ext
    intro i
    rw [Finset.mem_union, Mm.mem_sparePages, Mm.mem_sparePages, hmem]
    constructor
    · intro ⟨hi, hfree⟩
      by_cases hin : pageNo i ∈ D
      · exact .inr ⟨hi, hin⟩
      · refine .inl ⟨hi, fun p hp hx => ?_⟩
        cases List.mem_append.mp (hs.out.mem_iff.mp hp) with
        | inl hgone =>
          obtain ⟨s, hD, rfl⟩ := List.mem_map.mp hgone
          exact hin (pageNo_mem (hpage s hD).1 (hpage s hD).2 hx ▸ hD)
        | inr hout => exact hfree p hout hx
    · intro hin
      cases hin with
      | inl hfree => exact ⟨hfree.1, fun p hp => hfree.2 p (hs.out.mem_iff.mpr (List.mem_append_right _ hp))⟩
      | inr hgone =>
        refine ⟨hgone.1, fun p hp hx => ?_⟩
        have hne : pageAt (pageNo i) ≠ p := hnd.2.2 _ (List.mem_map_of_mem hgone.2) p hp
        have hdis := hok.disjoint (hs.dropped hgone.2) (hs.out.mem_iff.mpr (List.mem_append_right _ hp)) hne
        exact Set.disjoint_left.mp hdis (mem_pageAt.mpr (onPage_self _)) hx
  have hdis : Disjoint a.sparePages I := by
    refine Finset.disjoint_left.mpr fun i hfree hin => ?_
    exact (Mm.mem_sparePages.mp hfree).2 _ (hs.dropped ((hmem i).mp hin).2) (mem_pageAt.mpr (onPage_self _))
  unfold Mm.spare
  rw [hunion, Finset.card_union_of_disjoint hdis, hcard, Nat.add_comm]

theorem Destroyed.spare {D : List Nat} (hd : Destroyed h h' own t D) (hb : Booked h own t ns) (hw : World h own q) (ht : t ∈ h.live)
    (hf : Fitted h t) : h'.mm.spare = demandOf (h.areasOf t) + h.mm.spare := by
  have hout := hd.shrinks.out
  have hnd := hw.held.ok.nodup
  rw [hout.nodup_iff, List.nodup_append] at hnd
  have hperm : D.Perm (h.taskPages t ns) :=
    (List.perm_ext_iff_of_nodup hnd.1.of_map (hb.taskPages_nodup hw ht)).mpr fun p => (hd.dropped p).trans (hb.mem_taskPages hw ht).symm
  rw [hd.shrinks.spare hw.held.ok, hperm.length_eq, hb.taskPages_length hw ht hf]

/-! ## runs -/

/-- the pages that are free, and those that the areas of all tasks ask for -/
noncomputable def Heap.demandTotal (h : Heap) : Nat := h.mm.spare + (h.live.map fun t => demandOf (h.areasOf t)).sum

/-- the page tables of all tasks fit -/
def AllFitted (h : Heap) : Prop := ∀ t ∈ h.live, Fitted h t

namespace AllBooked
variable {q' : TaskList → List Nat}

/-- a task that is left alone -/
theorem untouched_sized (ha : AllBooked h own q) (hw : World h' own' q') (ht : t ∈ h.live) (ht' : t ∈ h'.live)
    (hu : Untouched h h' own own' t) (hf : AllFitted h) : Fitted h' t ∧ h'.areasOf t = h.areasOf t := by
  obtain ⟨ns, hb⟩ := ha.booked t ht
  exact ⟨hu.fitted hb ha.world ht (hw.maps t ht').wf (hf t ht), hu.areasOf hb ha.world ht⟩

/-- no block changes hands -/
theorem quiet_sized (ha : AllBooked h own q) (hw : World h' own q') (hq : Quiet h h' own) (hf : AllFitted h) :
    AllFitted h' ∧ h'.demandTotal = h.demandTotal := by
  have hsame : ∀ t ∈ h.live, Fitted h' t ∧ h'.areasOf t = h.areasOf t := fun t ht =>
    ha.untouched_sized hw ht (hq.live.symm ▸ ht) (hq.untouched t ht) hf
  refine ⟨fun t ht => (hsame t (hq.live ▸ ht)).1, ?_⟩
  unfold Heap.demandTotal Mm.spare
  rw [sparePages_congr hq.out, hq.live]
  exact congrArg (_ + ·) (congrArg List.sum (List.map_congr_left fun t ht => by rw [(hsame t ht).2]))

/-- the blocks that a dead task had are free -/
theorem died_sized {D : List Nat} (ha : AllBooked h own q) (hw : World h' own' q') (ht : t ∈ h.live) (hd : Destroyed h h' own t D)
    (he : own' = own.without t) (hf : AllFitted h) : AllFitted h' ∧ h'.demandTotal = h.demandTotal := by
  obtain ⟨ns, hb⟩ := ha.booked t ht
  have hnot : t ∉ h.live.erase t := List.Nodup.not_mem_erase ha.world.held.nodup.2
  have hsame : ∀ t' ∈ h.live.erase t, Fitted h' t' ∧ h'.areasOf t' = h.areasOf t' := by
    intro t' ht'
    have hne : t' ≠ t := fun e => hnot (e ▸ ht')
    exact ha.untouched_sized hw (List.mem_of_mem_erase ht') (hd.live ▸ ht') (he ▸ hd.untouched ha.world.held hne) hf
  refine ⟨fun t' ht' => (hsame t' (hd.live ▸ ht')).1, ?_⟩
  have hsum := List.sum_map_erase (fun t => demandOf (h.areasOf t)) ht
  have hrest : (h.live.erase t).map (fun t => demandOf (h'.areasOf t)) = (h.live.erase t).map fun t => demandOf (h.areasOf t) :=
    List.map_congr_left fun t' ht' => by rw [(hsame t' ht').2]
  unfold Heap.demandTotal
  rw [hd.live, hrest, hd.spare hb ha.world ht (hf t ht)]
  omega

/-- the stack of a task grows -/
theorem grew_sized {va : Nat} (ha : AllBooked h own q) (ht : t ∈ h.live) (hst : userStackMin ≤ va ∧ va < userStack)
    (hfind : h.vmFindStack (.vmAreas t) va = .ok a) (h0 : a ≠ 0) (hrun : h.expandStack t a (va / pageSize * pageSize) wordCount = .ok h')
    (hg : Grown q t h own h' own') (hf : AllFitted h) : AllFitted h' ∧ h'.demandTotal = h.demandTotal := by
  obtain ⟨ns, hb⟩ := ha.booked t ht
  obtain ⟨hfit, hspare⟩ := expandStack_fitted hb ha.world ht hst.1 hst.2 hfind h0 hrun (hf t ht)
  have hnot : t ∉ h.live.erase t := List.Nodup.not_mem_erase ha.world.held.nodup.2
  have hsame : ∀ t' ∈ h.live, t' ≠ t → Fitted h' t' ∧ h'.areasOf t' = h.areasOf t' := fun t' ht' hne =>
    ha.untouched_sized hg.world ht' (hg.live ▸ ht') (hg.untouched ha.world.held ht' hne) hf
  constructor
  · intro t' ht'
    by_cases he : t' = t
    · exact he ▸ hfit
    · exact (hsame t' (hg.live ▸ ht') he).1
  · have hsum := List.sum_map_erase (fun t => demandOf (h.areasOf t)) ht
    have hsum' := List.sum_map_erase (fun t => demandOf (h'.areasOf t)) ht
    have hrest : (h.live.erase t).map (fun t => demandOf (h'.areasOf t)) = (h.live.erase t).map fun t => demandOf (h.areasOf t) :=
      List.map_congr_left fun t' ht' => by rw [(hsame t' (List.mem_of_mem_erase ht') fun e => hnot (e ▸ ht')).2]
    rw [hrest] at hsum'
    unfold Heap.demandTotal
    rw [hg.live]
    omega

/-- a task is cloned -/
theorem cloned_sized {regs : Cpu} {parent : Nat} (ha : AllBooked k.heap own q) (hp : parent ∈ k.heap.live)
    (hrun : k.taskClone regs parent = .ok (t, k')) (hc : TaskCloned q regs parent k own k' own' t n) (hf : AllFitted k.heap) :
    AllFitted k'.heap ∧ k'.heap.demandTotal = k.heap.demandTotal := by
  obtain ⟨ns, hb⟩ := ha.booked parent hp
  obtain ⟨_, hfit, hspare⟩ := taskClone_fitted ha.world hp hb hrun
  obtain ⟨_, hlive⟩ := hc.live
  have hsame : ∀ t' ∈ k.heap.live, Fitted k'.heap t' ∧ k'.heap.areasOf t' = k.heap.areasOf t' := fun t' ht' =>
    ha.untouched_sized hc.world ht' (hlive ▸ List.mem_cons_of_mem _ ht') (hc.untouched ht') hf
  constructor
  · intro t' ht'
    rw [hlive] at ht'
    cases List.mem_cons.mp ht' with
    | inl he => exact he ▸ hfit
    | inr hin => exact (hsame t' hin).1
  · have hrest : k.heap.live.map (fun t => demandOf (k'.heap.areasOf t)) = k.heap.live.map fun t => demandOf (k.heap.areasOf t) :=
      List.map_congr_left fun t' ht' => by rw [(hsame t' ht').2]
    unfold Heap.demandTotal
    rw [hlive, List.map_cons, List.sum_cons, hrest, hspare]
    omega

end AllBooked

namespace Kernel.Step

theorem sized_forked (hs : Step k k') (ho : Orderly k own q) (hf : AllFitted k.heap) (hfork : k.Forks) :
    AllFitted k'.heap ∧ k'.heap.demandTotal = k.heap.demandTotal := by
  obtain ⟨regs, child, k₁, hclone, _, hfin⟩ := hs.forked_as ho.consistent hfork
  have hi := (ho.active (.inr hfork.1)).callFrame
  have hall : AllBooked k.callFrame.heap own q := ho.booked.quiet hi.active.world hi.quiet
  obtain ⟨hf₀, htotal₀⟩ := ho.booked.quiet_sized hi.active.world hi.quiet hf
  obtain ⟨ns, hb⟩ := hall.booked _ hi.active.live
  obtain ⟨own', n, ns', hcl, hb', _⟩ := taskClone_booked hi.active.world hi.active.live hb hclone
  have hall' : AllBooked k₁.heap own' (pushed q .tasks n) := by
    refine hall.step hcl.world ⟨ns', hb'⟩ (fun t ht => ?_) fun t ht _ => hcl.untouched ht
    rw [hcl.live.2] at ht
    exact List.mem_cons.mp ht
  obtain ⟨hf₁, htotal₁⟩ := hall.cloned_sized hi.active.live hclone hcl hf₀
  obtain ⟨hbr, ha⟩ := hfin own' n hcl
  obtain ⟨hf₂, htotal₂⟩ := hall'.quiet_sized ha.world hbr.after hf₁
  exact ⟨hf₂, htotal₂.trans (htotal₁.trans htotal₀)⟩

theorem sized_grew (hs : Step k k') (ho : Orderly k own q) (hf : AllFitted k.heap) (hg : k.Grows a) :
    AllFitted k'.heap ∧ k'.heap.demandTotal = k.heap.demandTotal := by
  obtain ⟨h', hexp, rfl⟩ := hs.grew hg
  have ha := ho.active (.inr hg.ctl)
  obtain ⟨ns, hb⟩ := ho.booked.booked _ ha.live
  obtain ⟨own', hgrown, hb'⟩ := expandStack_booked hb ha.world ha.live hg.stack.1 hg.area hg.found hexp
  have ha' : Active (k.setHeap h') own' q := ha.grown hgrown
  have hall : AllBooked (k.setHeap h').heap own' q :=
    ho.booked.step hgrown.world ⟨ns, hb'⟩ (fun t ht => .inr (hgrown.live ▸ ht)) fun t ht hne => hgrown.untouched ha.world.held ht hne
  obtain ⟨hf₁, htotal₁⟩ := ho.booked.grew_sized ha.live hg.stack hg.area hg.found hexp hgrown hf
  obtain ⟨hf₂, htotal₂⟩ := hall.quiet_sized ha'.yieldToUser.active.world ha'.yieldToUser.quiet hf₁
  exact ⟨hf₂, htotal₂.trans htotal₁⟩

/-- what a step takes from the free pages it gives to tasks, and the other way round -/
theorem sized (hs : Step k k') (ho : Orderly k own q) (hf : AllFitted k.heap) :
    AllFitted k'.heap ∧ k'.heap.demandTotal = k.heap.demandTotal := by
  by_cases hfork : k.Forks
  · exact hs.sized_forked ho hf hfork
  by_cases hg : ∃ a, k.Grows a
  · obtain ⟨a, hg⟩ := hg
    exact hs.sized_grew ho hf hg
  have hgrow : ∀ a, ¬ k.Grows a := fun a ha => hg ⟨a, ha⟩
  obtain ⟨own', q', hout, hcalm⟩ := hs.calm ho.consistent hfork hgrow
  have hw' := hout.consistent.world
  cases hcalm with
  | quiet hq he =>
    rw [he] at hw'
    exact ho.booked.quiet_sized hw' hq hf
  | died hq hw hd he =>
    obtain ⟨hf₁, htotal₁⟩ := ho.booked.quiet_sized hw hq hf
    have hin := hs.died_live ho.consistent hfork hgrow hq hw hd
    obtain ⟨hf₂, htotal₂⟩ := (ho.booked.quiet hw hq).died_sized hw' hin hd he hf₁
    exact ⟨hf₂, htotal₂.trans htotal₁⟩

end Kernel.Step

theorem Kernel.Steps.sized (hs : Steps k k') (ho : Orderly k own q) (hf : AllFitted k.heap) :
    AllFitted k'.heap ∧ k'.heap.demandTotal = k.heap.demandTotal := by
  induction hs with
  | refl => exact ⟨hf, rfl⟩
  | tail hsteps hstep ih =>
    obtain ⟨own₁, q₁, ho₁⟩ := Steps.orderly hsteps ho
    obtain ⟨hf₂, htotal⟩ := hstep.sized ho₁ ih.1
    exact ⟨hf₂, htotal.trans ih.2⟩

/-! ## from boot on -/

theorem Kernel.BootedInOrder.fitted (hb : k.BootedInOrder) : AllFitted k.heap := by
  obtain ⟨k₀, e, t, argv, envp, h₁, hblank, ho, hplace, hin, hcreate, hload, _⟩ := hb.image
  obtain ⟨own₁, n, stack, root, ha⟩ := taskCreate_added hblank.world (by rw [hblank.pids]; decide) hcreate
  have hlive : h₁.live = [t] := by rw [ha.live, hblank.live]
  have ht : t ∈ h₁.live := hlive ▸ List.mem_singleton_self t
  have hc : Copying (k₀.setHeap h₁) t root [] := ha.copying
  have hr : Rooted h₁.mm (h₁.task t).pageTable [] := by
    have hroot : (h₁.task t).pageTable = root := hc.root
    rw [hroot]
    exact hc.rooted
  obtain ⟨_, hg⟩ := taskInitElf_world ha.world ht hload
  intro t' ht'
  rw [hg.live, hlive, List.mem_singleton] at ht'
  rw [ht']
  exact taskInitElf_fitted ho (hin.grown ha.mm) (ha.booked hblank.world.held) ha.world ht hr (hplace ▸ hload)

/-- the number of blocks of the task `t` -/
noncomputable def Heap.taskSize (h : Heap) (t : Nat) : Nat := Set.ncard {p | TaskBlocks h t p}

theorem Booked.taskSize (hb : Booked h own t ns) (hw : World h own q) (ht : t ∈ h.live) (hf : Fitted h t) :
    h.taskSize t = demandOf (h.areasOf t) := by
  have hset : {p | TaskBlocks h t p} = ((h.taskPages t ns).toFinset : Set Nat) := by
    apply Set.ext
    intro p
    rw [Finset.mem_coe, List.mem_toFinset, hb.mem_taskPages hw ht]
    exact Iff.rfl
  unfold Heap.taskSize
  rw [hset, Set.ncard_coe_finset, List.toFinset_card_of_nodup (hb.taskPages_nodup hw ht), hb.taskPages_length hw ht hf]

/-- the pages that are free, and the blocks of all tasks -/
noncomputable def Heap.pageTotal (h : Heap) : Nat := h.mm.sparePages.card + (h.live.map h.taskSize).sum

theorem Orderly.pageTotal (ho : Orderly k own q) (hf : AllFitted k.heap) : k.heap.pageTotal = k.heap.demandTotal := by
  refine congrArg (k.heap.mm.sparePages.card + ·) (congrArg List.sum (List.map_congr_left fun t ht => ?_))
  obtain ⟨ns, hb⟩ := ho.booked.booked t ht
  exact hb.taskSize ho.world ht (hf t ht)

/-- the state `k'` has all pages of `k`, free or with the tasks that they belong to -/
structure Kernel.Conserves (k k' : Kernel) : Prop where
  /-- a task has four blocks, two for each area, two for each page, and the tables for the addresses of these pages -/
  size : ∀ t ∈ k'.heap.live, k'.heap.taskSize t = demandOf (k'.heap.areasOf t)
  /-- the pages that tasks do not have are free, as many as before -/
  total : k'.heap.pageTotal = k.heap.pageTotal

/-- **Conservation.**  If the first image is in order, each task has exactly the blocks that its areas ask for, and the free pages
together with the blocks of all tasks are as many in all states of a run. -/
theorem pages_conserved (hr : k.ReachableInOrder) (hs : Steps k k') : k.Conserves k' := by
  obtain ⟨k₀, hb, hs₀⟩ := hr
  obtain ⟨own₀, n, ho₀⟩ := hb.orderly
  obtain ⟨own, q, ho⟩ := hs₀.orderly ho₀
  obtain ⟨hf, _⟩ := hs₀.sized ho₀ hb.fitted
  obtain ⟨own', q', ho'⟩ := hs.orderly ho
  obtain ⟨hf', htotal⟩ := hs.sized ho hf
  refine ⟨fun t ht => ?_, ?_⟩
  · obtain ⟨ns, hb⟩ := ho'.booked.booked t ht
    exact hb.taskSize ho'.world ht (hf' t ht)
  · rw [ho'.pageTotal hf', htotal, ho.pageTotal hf]

/-- the theorem when the stack of the first task grows by a page -/
theorem pages_conserved_first : ∃ k k' : Kernel, k.ReachableInOrder ∧ Steps k k' ∧ k.Conserves k' := by
  obtain ⟨k, own, t, ns, hr, hu⟩ := first_user_in_order
  obtain ⟨k₁, a, k', hstep, hf⟩ := hu.fault initImage_leavesPage
  have hs : Steps k k' := .tail (.single hstep) hf.step
  exact ⟨k, k', hr, hs, pages_conserved hr hs⟩

end FakeKernel
