import FakeKernel.Kernel.ForkDemand
import FakeKernel.Kernel.Growth

/-!
# How many pages the growth of a stack takes

* `missingTables`        the tables that a page table does not have yet;
* `growStack_costs`      two pages for each page of the stack, and one for each table that is missing;
* `expandStack_costs`    the same for the loop of task_entry.
-/

namespace FakeKernel
open Bytes Bitfield Mm Heap

variable {h h' : Heap} {own : Owners} {q : TaskList → List Nat} {t n a va flags root start : Nat} {a₀ : Mm} {m : Mem}
  {S : Finset Nat} {T : Finset (Nat × Nat)} {l : List (Nat × Nat)} {s : Nat × Nat}

/-! ## tables that are missing -/

/-- the entries `l` lead through tables; so many of them are not there -/
def missingTables (m : Mem) (root : Nat) (l : List (Nat × Nat)) : Nat :=
  ((rootSlots l).filter fun i => pteInvalidOrLeaf (entry m root i)).card +
    (l.toFinset.filter fun s => pteInvalidOrLeaf (entry m root s.1) ||
      pteInvalidOrLeaf (entry m (subtableFromPte (entry m root s.1)) s.2)).card

theorem slotOf_lt (va : Nat) : (slotOf va).1 < entryCount ∧ (slotOf va).2 < entryCount := ⟨vpnAt_lt 2 va, vpnAt_lt 1 va⟩

theorem Tabled.missing (hT : Tabled m root S T) (hl : ∀ s ∈ l, s.1 < entryCount ∧ s.2 < entryCount) :
    missingTables m root l = (rootSlots l \ S).card + (l.toFinset \ T).card := by
  unfold missingTables
  congr 2
  · apply Finset.ext
    intro i
    rw [Finset.mem_filter, Finset.mem_sdiff]
    refine and_congr_right fun hi => ?_
    obtain ⟨s, hs, rfl⟩ := List.mem_map.mp (List.mem_toFinset.mp hi)
    rw [← hT.one _ (hl s hs).1, Bool.not_eq_false]
  · apply Finset.ext
    intro s
    rw [Finset.mem_filter, Finset.mem_sdiff]
    refine and_congr_right fun hs => ?_
    have hlt := hl s (List.mem_toFinset.mp hs)
    rw [Bool.or_eq_true]
    by_cases hin : s.1 ∈ S
    · rw [← hT.zero _ hlt.1 hin _ hlt.2, Bool.not_eq_false, (hT.one _ hlt.1).mpr hin]
      simp only [Bool.false_eq_true, false_or]
    · have h1 : pteInvalidOrLeaf (entry m root s.1) = true := by
        rw [← Bool.not_eq_false, hT.one _ hlt.1]
        exact hin
      rw [h1]
      exact iff_of_true (.inl rfl) fun hs => hin (hT.below s hs)

/-- any tree has its tables somewhere -/
theorem exists_tabled (m : Mem) (root : Nat) : ∃ S T, Tabled m root S T := by
  obtain ⟨S, hS⟩ : ∃ S : Finset Nat, ∀ i, i ∈ S ↔ i < entryCount ∧ pteInvalidOrLeaf (entry m root i) = false :=
    ⟨(Finset.range entryCount).filter fun i => pteInvalidOrLeaf (entry m root i) = false, fun i => by
      rw [Finset.mem_filter, Finset.mem_range]⟩
  obtain ⟨T, hT⟩ : ∃ T : Finset (Nat × Nat), ∀ s, s ∈ T ↔ s ∈ S ×ˢ Finset.range entryCount ∧
      pteInvalidOrLeaf (entry m (subtableFromPte (entry m root s.1)) s.2) = false :=
    ⟨(S ×ˢ Finset.range entryCount).filter fun s => pteInvalidOrLeaf (entry m (subtableFromPte (entry m root s.1)) s.2) = false,
      fun s => Finset.mem_filter⟩
  refine ⟨S, T, fun i hi => ?_, fun i hi hin j hj => ?_, fun s hs => ?_⟩
  · rw [hS]
    exact ⟨fun hp => ⟨hi, hp⟩, And.right⟩
  · rw [hT, Finset.mem_product, Finset.mem_range]
    exact ⟨fun hp => ⟨⟨hin, hj⟩, hp⟩, And.right⟩
  · rw [hT, Finset.mem_product] at hs
    exact hs.1.1

/-- one element more is one more that is missing, unless it is there -/
theorem card_insert_sdiff {α : Type} [DecidableEq α] (x : α) (A B : Finset α) :
    (insert x A \ B).card = (if x ∈ B then 0 else 1) + (A \ insert x B).card := by
  have he : A \ insert x B = (A \ B).erase x := by
    apply Finset.ext
    intro y
    simp only [Finset.mem_sdiff, Finset.mem_insert, Finset.mem_erase]
    tauto
  rw [he]
  by_cases hx : x ∈ B
  · rw [if_pos hx, Nat.zero_add, Finset.insert_sdiff_of_mem _ hx, Finset.erase_eq_of_notMem]
    exact fun hin => (Finset.mem_sdiff.mp hin).2 hx
  · have hsplit : insert x A \ B = insert x ((A \ B).erase x) := by
      rw [Finset.insert_sdiff_of_notMem _ hx]
      apply Finset.ext
      intro y
      simp only [Finset.mem_sdiff, Finset.mem_insert, Finset.mem_erase]
      tauto
    rw [if_neg hx, hsplit, Finset.card_insert_of_notMem (Finset.notMem_erase x _), Nat.add_comm]

/-! ## one page -/

/-- the tables that are missing for the entry `s` -/
def tablesNew (S : Finset Nat) (T : Finset (Nat × Nat)) (s : Nat × Nat) : Nat := (if s.1 ∈ S then 0 else 1) + (if s ∈ T then 0 else 1)

theorem card_insert_add {α : Type} [DecidableEq α] (x : α) (B : Finset α) : (insert x B).card = (if x ∈ B then 0 else 1) + B.card := by
  by_cases hx : x ∈ B
  · rw [if_pos hx, Finset.insert_eq_of_mem hx, Nat.zero_add]
  · rw [if_neg hx, Finset.card_insert_of_notMem hx, Nat.add_comm]

theorem setPage_costs {pa : Nat} (hw : WellFormed a₀ root) (hT : Tabled a₀.mem root S T) (hf : flags < 2 ^ 8) (hva : Sv39Va.off va = 0)
    (hpa : Sv39Pa.off pa = 0) : Costs (setPage root va pa flags a₀) a₀.spare (tablesNew S T (slotOf va)) (fun r => r.2.spare)
      fun r => r.1 = 0 ∧ WellFormed r.2 root ∧ Tabled r.2.mem root (insert (slotOf va).1 S) (insert (slotOf va) T) := by
  have hsum : (insert (Sv39Va.vpn2 va) S).card + (insert (Sv39Va.vpn2 va, Sv39Va.vpn1 va) T).card
      = tablesNew S T (slotOf va) + (S.card + T.card) := by
    rw [card_insert_add, card_insert_add]
    exact Nat.add_add_add_comm _ _ _ _
  refine ⟨fun hle => ?_, fun (ret, a') hrun => ?_⟩
  · obtain ⟨r, a', hrun⟩ := Mm.Free.setPage ⟨hw.ok, hle⟩ hw hT (Nat.le_of_eq hsum) hva hpa
    exact ⟨_, hrun⟩
  · obtain ⟨hret, _⟩ := setPage_spec hw hf hrun
    obtain ⟨hT₁, N, hsplit, hlen⟩ := setPage_demand hw hf hT hrun
    refine ⟨⟨hret, hsplit.wellFormed hw, hT₁⟩, ?_⟩
    have hfree := hsplit.grow.spare
    show a₀.spare = _ + a'.spare
    omega

theorem vmAreaAddPage_costs (hok : h.mm.Ok) (area page : Nat) : Costs (h.vmAreaAddPage area page) h.mm.spare 1 (fun r => r.2.mm.spare)
    fun r => r.1 = 0 ∧ (∃ N, Extends h.mm r.2.mm ∅ N) ∧ r.2.task = h.task ∧ r.2.area = h.area := by
  unfold Heap.vmAreaAddPage
  refine (listNodeCreate_costs hok page).bind (d := 0) fun (m, h₁) ⟨hm0, hx, htask, harea⟩ => ?_
  have hm0 : m ≠ 0 := hm0
  simp only [hm0, if_false]
  exact .ok ⟨rfl, ⟨_, hx⟩, htask, harea⟩ rfl

theorem allocPage_keeps (hok : h.mm.Ok) : Costs h.allocPage h.mm.spare 1 (fun r => r.2.mm.spare)
    fun r => r.1 ≠ 0 ∧ Extends h.mm r.2.mm ∅ [r.1] ∧ r.2.task = h.task ∧ r.2.area = h.area := by
  have hc := allocPage_costs hok
  refine ⟨hc.returns, fun (p, h') hrun => ?_⟩
  obtain ⟨⟨hp0, hx, htask⟩, hspare⟩ := hc.spec _ hrun
  obtain ⟨_, rfl, _⟩ := allocPage_spec hok hrun
  exact ⟨⟨hp0, hx, htask, rfl⟩, hspare⟩

/-- the table of a task, and where its tables are -/
structure TabledTask (h : Heap) (t root : Nat) (S : Finset Nat) (T : Finset (Nat × Nat)) : Prop where
  wf : WellFormed h.mm root
  tabled : Tabled h.mm.mem root S T
  root : (h.task t).pageTable = root

/-- a step that writes to no table -/
theorem TabledTask.extends {N : List Nat} (ht : TabledTask h t root S T) (hx : Extends h.mm h'.mm ∅ N) (htask : h'.task = h.task) :
    TabledTask h' t root S T :=
  ⟨(ht.wf.extends hx fun _ _ => nofun).1, ht.tabled.extends ht.wf hx fun _ _ => nofun, htask ▸ ht.root⟩

theorem setPageUser_costs {pa : Nat} (ht : TabledTask h t root S T) (hf : flags ||| pteUser < 2 ^ 8) (hva : Sv39Va.off va = 0)
    (hpa : Sv39Pa.off pa = 0) : Costs (h.setPageUser (h.task t).pageTable va pa flags) h.mm.spare (tablesNew S T (slotOf va))
      (fun r => r.2.mm.spare)
      fun r => r.1 = 0 ∧ TabledTask r.2 t root (insert (slotOf va).1 S) (insert (slotOf va) T) ∧ r.2.area = h.area := by
  rw [ht.root]
  exact (setPage_costs ht.wf ht.tabled hf hva hpa).bind (d := 0) fun (err, mm) ⟨he, hw, hT⟩ => .ok ⟨he, ⟨hw, hT, ht.root⟩, rfl⟩ rfl

/-- the stack in `a` takes its next page, the node of the page, and tables -/
theorem growStack_costs (ht : TabledTask h t root S T) (hva : pageSize ∣ (h.area a).va) (hv : va = lowerPage (h.area a).va) :
    Costs (h.growStack t a) h.mm.spare (2 + tablesNew S T (slotOf va)) (fun h' => h'.mm.spare)
      fun h' => TabledTask h' t root (insert (slotOf va).1 S) (insert (slotOf va) T) ∧ (h'.area a).va = va := by
  have hsum : 2 + tablesNew S T (slotOf va) = 1 + (1 + (tablesNew S T (slotOf va) + 0)) := by omega
  rw [hsum]
  unfold Heap.growStack
  refine (allocPage_keeps ht.wf.ok).bind fun (p, h₁) ⟨hp0, hx₁, htask₁, harea₁⟩ => ?_
  have hp : p ∈ [p] := List.mem_singleton_self p
  have hp0 : p ≠ 0 := hp0
  simp only [hp0, if_false]
  obtain ⟨mm₂, hclear, hx₂⟩ := Heap.clearPage_spec h₁ hx₁ hp
  obtain ⟨h₂, hh₂⟩ : ∃ h₂ : Heap, h₂ = { h₁ with mm := mm₂ } := ⟨_, rfl⟩
  have hmm₂ : h₂.mm = mm₂ := by rw [hh₂]
  rw [← hmm₂] at hx₂
  have ht₂ : TabledTask h₂ t root S T := ht.extends hx₂ (by rw [hh₂, ← htask₁])
  have harea₂ : h₂.area = h.area := by rw [hh₂, ← harea₁]
  -- clearing the page takes nothing
  have hspare : h₁.mm.spare = h₂.mm.spare := Nat.add_left_cancel (hx₁.spare.symm.trans hx₂.spare)
  rw [hclear, ← hh₂]
  show Costs _ h₁.mm.spare _ _ _
  rw [hspare]
  refine (vmAreaAddPage_costs hx₂.ok a p).bind fun (err, h₃) ⟨he, ⟨N, hx₃⟩, htask₃, harea₃⟩ => ?_
  have he : err = 0 := he
  have harea₃ : h₃.area = h.area := harea₃.trans harea₂
  simp only [he, ne_eq, not_true_eq_false, if_false, harea₃]
  obtain ⟨h₄, hh₄⟩ : ∃ h₄, h₄ = h₃.setArea a { h.area a with va := va, nPages := ((h.area a).nPages + 1) % wordCount } := ⟨_, rfl⟩
  have ht₃ : TabledTask h₃ t root S T := ht₂.extends hx₃ htask₃
  have ht₄ : TabledTask h₄ t root S T := by
    rw [hh₄]
    exact ⟨ht₃.wf, ht₃.tabled, ht₃.root⟩
  have hva₄ : (h₄.area a).va = va := by
    rw [hh₄]
    show (Function.update h₃.area a _ a).va = _
    rw [Function.update_self]
  have hmm₄ : h₃.mm = h₄.mm := by
    rw [hh₄]
    rfl
  show Costs _ h₃.mm.spare _ _ _
  rw [hmm₄]
  have hset := setPageUser_costs ht₄ (pteFlags_user_lt (f := (h.area a).flags)) (off_of_dvd (hv ▸ lowerPage_dvd hva))
    (off_PA (hx₂.new_usable hp) (hx₂.new_page hp))
  have hbody : Costs (h₄.setPageUser (h₄.task t).pageTable va (PA p) (pteFlagsFromVmFlags (h.area a).flags) >>=
        fun r : Int × Heap => if r.1 ≠ 0 then panic "stack autoexpand: set_page" else .ok r.2) h₄.mm.spare
      (tablesNew S T (slotOf va) + 0) (fun h' => h'.mm.spare)
      fun h' => TabledTask h' t root (insert (slotOf va).1 S) (insert (slotOf va) T) ∧ (h'.area a).va = va :=
    hset.bind fun (err, h₅) ⟨he, ht₅, harea₅⟩ => by
      have he : err = 0 := he
      have harea₅ : h₅.area = h₄.area := harea₅
      simp only [he, ne_eq, not_true_eq_false, if_false]
      exact .ok ⟨ht₅, by rw [harea₅, hva₄]⟩ rfl
  rw [hh₄, hv] at hbody ⊢
  exact hbody

/-! ## the stack -/

theorem pageSlots_concat (va n : Nat) : pageSlots va (n + 1) = pageSlots va n ++ [slotOf (va + pageSize * n)] := by
  unfold pageSlots
  rw [List.range_succ, List.map_append, List.map_singleton]

theorem rootSlots_concat (l : List (Nat × Nat)) (s : Nat × Nat) : rootSlots (l ++ [s]) = insert s.1 (rootSlots l) := by
  apply Finset.ext
  intro i
  simp [rootSlots]

theorem toFinset_concat (l : List (Nat × Nat)) (s : Nat × Nat) : (l ++ [s]).toFinset = insert s l.toFinset := by
  apply Finset.ext
  intro x
  simp

/-- the pages for `i` more pages of stack from `start` on -/
def Heap.growDemand (h : Heap) (root start i : Nat) : Nat := 2 * i + missingTables h.mm.mem root (pageSlots start i)

theorem expandStack_costs {i fuel : Nat} (ht : TabledTask h t root S T) (hstart : pageSize ∣ start)
    (hva : (h.area a).va = start + pageSize * i) (hword : (h.area a).va < wordCount) (hfuel : i < fuel) :
    Costs (h.expandStack t a start fuel) h.mm.spare
      (2 * i + ((rootSlots (pageSlots start i) \ S).card + ((pageSlots start i).toFinset \ T).card)) (fun h' => h'.mm.spare)
      fun h' => TabledTask h' t root (S ∪ rootSlots (pageSlots start i)) (T ∪ (pageSlots start i).toFinset) := by
  induction i generalizing h S T fuel with
  | zero =>
    obtain ⟨fuel, rfl⟩ : ∃ f, fuel = f + 1 := ⟨fuel - 1, by omega⟩
    have h1 : rootSlots (pageSlots start 0) = ∅ := rfl
    have h2 : (pageSlots start 0).toFinset = ∅ := rfl
    rw [h1, h2, Finset.empty_sdiff, Finset.empty_sdiff, Finset.card_empty, Finset.card_empty, Finset.union_empty, Finset.union_empty]
    unfold Heap.expandStack
    rw [if_neg (by omega)]
    exact .ok ht rfl
  | succ i ih =>
    obtain ⟨fuel, rfl⟩ : ∃ f, fuel = f + 1 := ⟨fuel - 1, by omega⟩
    have hlt : start < (h.area a).va := by
      unfold pageSize at hva
      omega
    have hmul : pageSize * (i + 1) = pageSize * i + pageSize := Nat.mul_succ _ _
    have hlow : start + pageSize * i = lowerPage (h.area a).va := by
      rw [lowerPage_of_le (by omega) hword]
      omega
    have hdvd : pageSize ∣ (h.area a).va := hva ▸ Nat.dvd_add hstart (Nat.dvd_mul_right _ _)
    have hsum : 2 * (i + 1) + ((rootSlots (pageSlots start (i + 1)) \ S).card + ((pageSlots start (i + 1)).toFinset \ T).card)
        = 2 + tablesNew S T (slotOf (start + pageSize * i)) + (2 * i +
          ((rootSlots (pageSlots start i) \ insert (slotOf (start + pageSize * i)).1 S).card +
            ((pageSlots start i).toFinset \ insert (slotOf (start + pageSize * i)) T).card)) := by
      rw [pageSlots_concat, rootSlots_concat, toFinset_concat, card_insert_sdiff, card_insert_sdiff]
      unfold tablesNew
      omega
    rw [hsum, pageSlots_concat, rootSlots_concat, toFinset_concat, Finset.union_insert, Finset.union_insert, ← Finset.insert_union,
      ← Finset.insert_union]
    unfold Heap.expandStack
    rw [if_pos hlt]
    refine (growStack_costs ht hdvd hlow).bind fun h' hgrown => ?_
    exact ih hgrown.1 hgrown.2 (by omega) (by omega)

/-- **The growth of a stack.**  A stack grows down to a page exactly if there are two pages for each page that it grows by, and one
for each table that is missing. -/
theorem expandStack_memory {i : Nat} (hw : World h own q) (ht : t ∈ h.live) (hstart : pageSize ∣ start)
    (hva : (h.area a).va = start + pageSize * i) (hword : (h.area a).va < wordCount) :
    (∃ h', h.expandStack t a start wordCount = .ok h') ↔ h.growDemand (h.task t).pageTable start i ≤ h.mm.sparePages.card := by
  obtain ⟨S, T, hT⟩ := exists_tabled h.mm.mem (h.task t).pageTable
  have htt : TabledTask h t (h.task t).pageTable S T := ⟨(hw.maps t ht).wf, hT, rfl⟩
  have hfuel : i < wordCount := by
    unfold pageSize at hva
    omega
  have hslots : ∀ s ∈ pageSlots start i, s.1 < entryCount ∧ s.2 < entryCount := by
    intro s hs
    obtain ⟨j, _, rfl⟩ := List.mem_map.mp hs
    exact slotOf_lt _
  rw [(expandStack_costs htt hstart hva hword hfuel).returns_iff, ← hT.missing hslots]
  exact Iff.rfl

end FakeKernel
