import FakeKernel.Mm.Mmdefs
import Mathlib.Data.List.Nodup
import Mathlib.Data.List.Pairwise

/-!
# Trees of page tables

`Tree m level table`: every table below `table` is referenced by one entry only and superpage leaves
are aligned.  A change to the memory that is confined to one entry of `table`, or to what lies below
that entry, changes the translation of the addresses of that entry only.

* `tree_succ`             a tree, by its entries;
* `SlotChange.walk`, `SlotChange.tree`   one entry is replaced;
* `Update.lift`           an update of a subtree is an update of the tree.
-/

namespace FakeKernel
open Bytes Bitfield

structure Tree (m : Mem) (level table : Nat) : Prop where
  nodup : (tables m level table).Nodup
  aligned : Aligned m level table

/-! ## what lies below an entry -/

def below (m : Mem) (level pte : Nat) : List Nat :=
  if pteInvalidOrLeaf pte then [] else tables m level (subtableFromPte pte)

/-- the rest of a walk that met the entry `pte` in a table of level `level + 1` -/
def walkBelow (m : Mem) (level pte va : Nat) : Option Translation :=
  if pteInvalidOrLeaf pte then leafAt (level + 1) pte va
  else walk m level (subtableFromPte pte) va

def TreeBelow (m : Mem) (level pte : Nat) : Prop :=
  if pteInvalidOrLeaf pte then
    Sv39Pte.flags pte &&& pteValid ≠ 0 → 2 ^ (9 * (level + 1)) ∣ Sv39Pte.ppn pte
  else Tree m level (subtableFromPte pte)

variable {m m' : Mem} {level table pte i s va : Nat}

theorem walk_succ (m : Mem) (level table va : Nat) :
    walk m (level + 1) table va
      = walkBelow m level (entry m table (vpnAt (level + 1) va)) va := rfl

theorem tables_succ (m : Mem) (level table : Nat) :
    tables m (level + 1) table
      = table :: (List.range entryCount).flatMap fun i => below m level (entry m table i) := rfl

theorem mem_tables_succ : s ∈ tables m (level + 1) table ↔
    s = table ∨ ∃ i < entryCount, s ∈ below m level (entry m table i) := by
  rw [tables_succ, List.mem_cons, List.mem_flatMap]
  simp only [List.mem_range]

theorem table_mem_tables : table ∈ tables m level table := by
  cases level with
  | zero => exact List.mem_singleton_self table
  | succ level => exact List.mem_cons_self

theorem below_of_pointer (h : pteInvalidOrLeaf pte = false) :
    below m level pte = tables m level (subtableFromPte pte) := by
  unfold below
  simp [h]

theorem walkBelow_of_pointer (h : pteInvalidOrLeaf pte = false) :
    walkBelow m level pte va = walk m level (subtableFromPte pte) va := by
  unfold walkBelow
  simp [h]

theorem below_of_leaf (h : pteInvalidOrLeaf pte = true) : below m level pte = [] := by
  unfold below
  simp [h]

theorem walkBelow_of_leaf (h : pteInvalidOrLeaf pte = true) :
    walkBelow m level pte va = leafAt (level + 1) pte va := by
  unfold walkBelow
  simp [h]

theorem treeBelow_of_pointer (h : pteInvalidOrLeaf pte = false) :
    TreeBelow m level pte ↔ Tree m level (subtableFromPte pte) := by
  unfold TreeBelow
  simp [h]

theorem treeBelow_of_leaf (h : pteInvalidOrLeaf pte = true) : TreeBelow m level pte ↔
    (Sv39Pte.flags pte &&& pteValid ≠ 0 → 2 ^ (9 * (level + 1)) ∣ Sv39Pte.ppn pte) := by
  unfold TreeBelow
  simp [h]

theorem tree_zero (m : Mem) (table : Nat) : Tree m 0 table :=
  ⟨List.nodup_singleton table, trivial⟩

theorem aligned_succ : Aligned m (level + 1) table ↔ ∀ i < entryCount,
    if pteInvalidOrLeaf (entry m table i) then
      Sv39Pte.flags (entry m table i) &&& pteValid ≠ 0 →
        2 ^ (9 * (level + 1)) ∣ Sv39Pte.ppn (entry m table i)
    else Aligned m level (subtableFromPte (entry m table i)) := Iff.rfl

theorem tree_succ : Tree m (level + 1) table ↔
    (∀ i < entryCount, TreeBelow m level (entry m table i)
      ∧ table ∉ below m level (entry m table i)) ∧
    ∀ i < entryCount, ∀ j < entryCount, i ≠ j →
      List.Disjoint (below m level (entry m table i)) (below m level (entry m table j)) := by
  have hsymm : Std.Symm (Function.onFun List.Disjoint
      fun i => below m level (entry m table i)) := ⟨fun _ _ h => fun _ ha hb => h hb ha⟩
  constructor
  · intro ⟨hnd, hal⟩
    rw [tables_succ, List.nodup_cons, List.nodup_flatMap] at hnd
    obtain ⟨hnot, heach, hpair⟩ := hnd
    refine ⟨fun i hi => ⟨?_, fun hmem => ?_⟩, fun i hi j hj hij => ?_⟩
    · have hi' := aligned_succ.mp hal i hi
      have hndi := heach i (List.mem_range.mpr hi)
      cases h : pteInvalidOrLeaf (entry m table i) with
      | true =>
        simp only [h, if_true] at hi'
        exact (treeBelow_of_leaf h).mpr hi'
      | false =>
        rw [below_of_pointer h] at hndi
        simp only [h, Bool.false_eq_true, if_false] at hi'
        exact (treeBelow_of_pointer h).mpr ⟨hndi, hi'⟩
    · exact hnot (List.mem_flatMap.mpr ⟨i, List.mem_range.mpr hi, hmem⟩)
    · exact hpair.forall (List.mem_range.mpr hi) (List.mem_range.mpr hj) hij
  · intro ⟨heach, hdis⟩
    refine ⟨?_, ?_⟩
    · rw [tables_succ, List.nodup_cons, List.nodup_flatMap]
      refine ⟨fun hmem => ?_, fun i hi => ?_, ?_⟩
      · obtain ⟨i, hi, hmem⟩ := List.mem_flatMap.mp hmem
        exact (heach i (List.mem_range.mp hi)).2 hmem
      · have hi' := (heach i (List.mem_range.mp hi)).1
        cases h : pteInvalidOrLeaf (entry m table i) with
        | true =>
          rw [below_of_leaf h]
          exact List.nodup_nil
        | false =>
          rw [below_of_pointer h]
          exact ((treeBelow_of_pointer h).mp hi').nodup
      · refine List.nodup_range.pairwise_of_forall_ne fun i hi j hj hij => ?_
        exact hdis i (List.mem_range.mp hi) j (List.mem_range.mp hj) hij
    · refine aligned_succ.mpr fun i hi => ?_
      have hi' := (heach i hi).1
      cases h : pteInvalidOrLeaf (entry m table i) with
      | true =>
        simp only [if_true]
        exact (treeBelow_of_leaf h).mp hi'
      | false =>
        simp only [Bool.false_eq_true, if_false]
        exact ((treeBelow_of_pointer h).mp hi').aligned

/-! ## memories that agree on a tree -/

def SameTable (m m' : Mem) (s : Nat) : Prop := ∀ i < entryCount, entry m' s i = entry m s i

theorem tables_congr (h : ∀ s ∈ tables m level table, SameTable m m' s) :
    tables m' level table = tables m level table := by
  induction level generalizing table with
  | zero => rfl
  | succ level ih =>
    rw [tables_succ, tables_succ, List.cons_inj_right]
    refine List.flatMap_congr fun i hi => ?_
    have hi' := List.mem_range.mp hi
    rw [h table table_mem_tables i hi']
    cases hp : pteInvalidOrLeaf (entry m table i) with
    | true => rw [below_of_leaf hp, below_of_leaf hp]
    | false =>
      rw [below_of_pointer hp, below_of_pointer hp]
      refine ih fun s hs => h s (mem_tables_succ.mpr (.inr ⟨i, hi', ?_⟩))
      rw [below_of_pointer hp]
      exact hs

theorem below_congr (h : ∀ s ∈ below m level pte, SameTable m m' s) :
    below m' level pte = below m level pte := by
  cases hp : pteInvalidOrLeaf pte with
  | true => rw [below_of_leaf hp, below_of_leaf hp]
  | false =>
    rw [below_of_pointer hp] at h
    rw [below_of_pointer hp, below_of_pointer hp, tables_congr h]

theorem walk_congr (h : ∀ s ∈ tables m level table, SameTable m m' s) :
    walk m' level table va = walk m level table va := by
  induction level generalizing table with
  | zero =>
    show leafAt 0 (entry m' table _) va = leafAt 0 (entry m table _) va
    rw [h table table_mem_tables _ (vpnAt_lt 0 va)]
  | succ level ih =>
    have hlt := vpnAt_lt (level + 1) va
    rw [walk_succ, walk_succ, h table table_mem_tables _ hlt]
    cases hp : pteInvalidOrLeaf (entry m table (vpnAt (level + 1) va)) with
    | true => rw [walkBelow_of_leaf hp, walkBelow_of_leaf hp]
    | false =>
      rw [walkBelow_of_pointer hp, walkBelow_of_pointer hp]
      refine ih fun s hs => h s (mem_tables_succ.mpr (.inr ⟨_, hlt, ?_⟩))
      rw [below_of_pointer hp]
      exact hs

theorem aligned_congr (h : ∀ s ∈ tables m level table, SameTable m m' s) :
    Aligned m level table → Aligned m' level table := by
  induction level generalizing table with
  | zero => exact fun _ => trivial
  | succ level ih =>
    intro hal
    refine aligned_succ.mpr fun i hi => ?_
    have hi' := aligned_succ.mp hal i hi
    rw [h table table_mem_tables i hi]
    cases hp : pteInvalidOrLeaf (entry m table i) with
    | true =>
      simp only [hp, if_true] at hi' ⊢
      exact hi'
    | false =>
      simp only [hp, Bool.false_eq_true, if_false] at hi' ⊢
      refine ih (fun s hs => h s (mem_tables_succ.mpr (.inr ⟨i, hi, ?_⟩))) hi'
      rw [below_of_pointer hp]
      exact hs

theorem Tree.congr (ht : Tree m level table) (h : ∀ s ∈ tables m level table, SameTable m m' s) :
    Tree m' level table := by
  refine ⟨?_, aligned_congr h ht.aligned⟩
  rw [tables_congr h]
  exact ht.nodup

theorem TreeBelow.congr (ht : TreeBelow m level pte)
    (h : ∀ s ∈ below m level pte, SameTable m m' s) : TreeBelow m' level pte := by
  cases hp : pteInvalidOrLeaf pte with
  | true => exact (treeBelow_of_leaf hp).mpr ((treeBelow_of_leaf hp).mp ht)
  | false =>
    rw [below_of_pointer hp] at h
    exact (treeBelow_of_pointer hp).mpr (((treeBelow_of_pointer hp).mp ht).congr h)

/-! ## one entry is replaced -/

/-- `m'` differs from `m` in entry `i` of `table` and below it only, as far as the tree goes -/
structure SlotChange (m m' : Mem) (level table i : Nat) : Prop where
  lt : i < entryCount
  entries : ∀ j < entryCount, j ≠ i → entry m' table j = entry m table j
  others : ∀ j < entryCount, j ≠ i → ∀ s ∈ below m level (entry m table j), SameTable m m' s

namespace SlotChange

theorem below_eq (h : SlotChange m m' level table i) {j : Nat} (hj : j < entryCount) (hji : j ≠ i) :
    below m' level (entry m' table j) = below m level (entry m table j) := by
  rw [h.entries j hj hji]
  exact below_congr (h.others j hj hji)

theorem walk (h : SlotChange m m' level table i) (va : Nat) :
    walk m' (level + 1) table va
      = if vpnAt (level + 1) va = i then walkBelow m' level (entry m' table i) va
        else walk m (level + 1) table va := by
  have hlt := vpnAt_lt (level + 1) va
  by_cases hi : vpnAt (level + 1) va = i
  · rw [if_pos hi, walk_succ, hi]
  · rw [if_neg hi, walk_succ, walk_succ, h.entries _ hlt hi]
    have hsame := h.others _ hlt hi
    cases hp : pteInvalidOrLeaf (entry m table (vpnAt (level + 1) va)) with
    | true => rw [walkBelow_of_leaf hp, walkBelow_of_leaf hp]
    | false =>
      rw [below_of_pointer hp] at hsame
      rw [walkBelow_of_pointer hp, walkBelow_of_pointer hp, walk_congr hsame]

theorem mem_tables (h : SlotChange m m' level table i) :
    s ∈ tables m' (level + 1) table ↔
      s = table ∨ s ∈ below m' level (entry m' table i) ∨
        ∃ j < entryCount, j ≠ i ∧ s ∈ below m level (entry m table j) := by
  rw [mem_tables_succ]
  constructor
  · intro hs
    cases hs with
    | inl hs => exact .inl hs
    | inr hs =>
      obtain ⟨j, hj, hs⟩ := hs
      by_cases hji : j = i
      · exact .inr (.inl (hji ▸ hs))
      · exact .inr (.inr ⟨j, hj, hji, h.below_eq hj hji ▸ hs⟩)
  · intro hs
    rcases hs with hs | hs | ⟨j, hj, hji, hs⟩
    · exact .inl hs
    · exact .inr ⟨i, h.lt, hs⟩
    · exact .inr ⟨j, hj, (h.below_eq hj hji).symm ▸ hs⟩

theorem tree (h : SlotChange m m' level table i) (ht : Tree m (level + 1) table)
    (hnew : TreeBelow m' level (entry m' table i))
    (hfresh : ∀ s ∈ below m' level (entry m' table i), s ≠ table ∧
      ∀ j < entryCount, j ≠ i → s ∉ below m level (entry m table j)) :
    Tree m' (level + 1) table := by
  obtain ⟨heach, hdis⟩ := tree_succ.mp ht
  refine tree_succ.mpr ⟨fun j hj => ?_, fun j hj k hk hjk => ?_⟩
  · by_cases hji : j = i
    · subst hji
      exact ⟨hnew, fun hmem => (hfresh _ hmem).1 rfl⟩
    · refine ⟨?_, ?_⟩
      · rw [h.entries j hj hji]
        exact (heach j hj).1.congr (h.others j hj hji)
      · rw [h.below_eq hj hji]
        exact (heach j hj).2
  · by_cases hji : j = i
    · subst hji
      have hkj : k ≠ j := hjk.symm
      rw [h.below_eq hk hkj]
      exact fun s hs hs' => (hfresh s hs).2 k hk hkj hs'
    · rw [h.below_eq hj hji]
      by_cases hki : k = i
      · subst hki
        exact fun s hs hs' => (hfresh s hs').2 j hj hji hs
      · rw [h.below_eq hk hki]
        exact hdis j hj k hk hjk

end SlotChange

/-! ## updates of a subtree -/

/-- `m'` is an update of the tree at `table`; the tables in `N` are new -/
structure Update (m m' : Mem) (N : Set Nat) (level table : Nat) : Prop where
  tree : Tree m' level table
  mem_tables : ∀ s ∈ tables m' level table, s ∈ tables m level table ∨ s ∈ N

/-- no table is dropped and all of `N` is in use -/
def Keeps (m m' : Mem) (N : Set Nat) (level table : Nat) : Prop :=
  ∀ s, s ∈ tables m level table ∨ s ∈ N → s ∈ tables m' level table

theorem Update.lift {N : Set Nat} (ht : Tree m (level + 1) table) (hi : i < entryCount)
    (hp : pteInvalidOrLeaf (entry m table i) = false)
    (hu : Update m m' N level (subtableFromPte (entry m table i)))
    (hN : ∀ s ∈ N, s ∉ tables m (level + 1) table)
    (hsame : ∀ s ∈ tables m (level + 1) table,
      s ∉ tables m level (subtableFromPte (entry m table i)) → SameTable m m' s) :
    Update m m' N (level + 1) table ∧
      (Keeps m m' N level (subtableFromPte (entry m table i)) → Keeps m m' N (level + 1) table) ∧
      ∀ va, walk m' (level + 1) table va
        = if vpnAt (level + 1) va = i then walk m' level (subtableFromPte (entry m table i)) va
          else walk m (level + 1) table va := by
  obtain ⟨heach, hdis⟩ := tree_succ.mp ht
  have hroot : table ∉ tables m level (subtableFromPte (entry m table i)) := by
    have := (heach i hi).2
    rwa [below_of_pointer hp] at this
  have hentry : SameTable m m' table := hsame table table_mem_tables hroot
  have hc : SlotChange m m' level table i := by
    refine ⟨hi, fun j hj _ => hentry j hj, fun j hj hji s hs => ?_⟩
    refine hsame s (mem_tables_succ.mpr (.inr ⟨j, hj, hs⟩)) fun hs' => ?_
    rw [← below_of_pointer hp] at hs'
    exact hdis j hj i hi hji hs hs'
  have hnew : below m' level (entry m' table i)
      = tables m' level (subtableFromPte (entry m table i)) := by
    rw [hentry i hi, below_of_pointer hp]
  have hold : ∀ s ∈ tables m level (subtableFromPte (entry m table i)),
      s ∈ tables m (level + 1) table := by
    intro s hs
    rw [← below_of_pointer hp] at hs
    exact mem_tables_succ.mpr (.inr ⟨i, hi, hs⟩)
  refine ⟨⟨hc.tree ht ?_ ?_, ?_⟩, fun hk s hs => hc.mem_tables.mpr ?_, fun va => ?_⟩
  · rw [hentry i hi]
    exact (treeBelow_of_pointer hp).mpr hu.tree
  · intro s hs
    rw [hnew] at hs
    cases hu.mem_tables s hs with
    | inl hin =>
      refine ⟨?_, fun j hj hji hs' => ?_⟩
      · intro e
        rw [e] at hin
        exact hroot hin
      rw [← below_of_pointer hp] at hin
      exact hdis j hj i hi hji hs' hin
    | inr hin =>
      refine ⟨?_, fun j hj _ hs' => ?_⟩
      · intro e
        rw [e] at hin
        exact hN table hin table_mem_tables
      exact hN s hin (mem_tables_succ.mpr (.inr ⟨j, hj, hs'⟩))
  · intro s hs
    rcases hc.mem_tables.mp hs with rfl | hs | ⟨j, hj, _, hs⟩
    · exact .inl table_mem_tables
    · rw [hnew] at hs
      cases hu.mem_tables s hs with
      | inl hin => exact .inl (hold s hin)
      | inr hin => exact .inr hin
    · exact .inl (mem_tables_succ.mpr (.inr ⟨j, hj, hs⟩))
  · rw [hnew]
    cases hs with
    | inr hin => exact .inr (.inl (hk s (.inr hin)))
    | inl hin =>
      cases mem_tables_succ.mp hin with
      | inl he => exact .inl he
      | inr hbelow =>
        obtain ⟨j, hj, hs⟩ := hbelow
        by_cases hji : j = i
        · rw [hji, below_of_pointer hp] at hs
          exact .inr (.inl (hk s (.inl hs)))
        · exact .inr (.inr ⟨j, hj, hji, hs⟩)
  · rw [hc.walk va, hentry i hi, walkBelow_of_pointer hp]

end FakeKernel
