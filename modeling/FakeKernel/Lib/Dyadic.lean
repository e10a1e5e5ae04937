import Mathlib.Data.Nat.Bitwise
import Mathlib.Data.Set.Lattice
import Mathlib.Order.CompletePartialOrder
import Mathlib.Order.Interval.Set.Basic
import Mathlib.Tactic.Ring

/-!
# Aligned power-of-two cells and their buddies

`cell k a = [a, a + 2 ^ k)`.  When `2 ^ k ∣ a` the cell is one of the dyadic cells of order `k`;
its buddy is `a ^^^ 2 ^ k`, and the two together are the cell of order `k + 1` at `parent k a`.

* `cell_laminar`           two aligned cells are disjoint or the smaller lies in the larger;
* `buddy_eq`, `and_mask_eq_parent`   what the bit operations are in arithmetic;
* `cell_succ`              an aligned cell is the disjoint union of its two halves;
* `Reduced.mem_iff`        in a family of disjoint cells without two buddies of one order, the
                           members are exactly the maximal cells inside the union: the family is
                           determined by its union.
-/

namespace Dyadic

def cell (k a : Nat) : Set Nat := Set.Ico a (a + 2 ^ k)

theorem mem_cell {k a x : Nat} : x ∈ cell k a ↔ a ≤ x ∧ x < a + 2 ^ k := Iff.rfl

theorem base_mem_cell (k a : Nat) : a ∈ cell k a :=
  ⟨Nat.le_refl a, Nat.lt_add_of_pos_right (Nat.two_pow_pos k)⟩

theorem cell_subset_iff {k j a b : Nat} :
    cell k a ⊆ cell j b ↔ b ≤ a ∧ a + 2 ^ k ≤ b + 2 ^ j := by
  have hk := Nat.two_pow_pos k
  constructor
  · intro h
    have h1 := h (base_mem_cell k a)
    have h2 : a + 2 ^ k - 1 ∈ cell j b := h ⟨by omega, by omega⟩
    rw [mem_cell] at h1 h2
    omega
  · intro h x hx
    rw [mem_cell] at hx ⊢
    omega

/-- an aligned cell is either inside a larger aligned cell or disjoint from it -/
theorem cell_laminar {k j a b : Nat} (hkj : k ≤ j) (ha : 2 ^ k ∣ a) (hb : 2 ^ j ∣ b) :
    cell k a ⊆ cell j b ∨ Disjoint (cell k a) (cell j b) := by
  obtain ⟨d, rfl⟩ := Nat.exists_eq_add_of_le hkj
  obtain ⟨m, rfl⟩ := ha
  obtain ⟨n, rfl⟩ := hb
  have hk := Nat.two_pow_pos k
  have hpow : 2 ^ (k + d) = 2 ^ k * 2 ^ d := pow_add 2 k d
  rw [hpow, Nat.mul_assoc]
  -- in units of `2 ^ k` the cells are `m` and `[2 ^ d * n, 2 ^ d * n + 2 ^ d)`
  by_cases hin : 2 ^ d * n ≤ m ∧ m < 2 ^ d * n + 2 ^ d
  · left
    rw [cell_subset_iff, hpow]
    have h1 : 2 ^ k * (2 ^ d * n) ≤ 2 ^ k * m := Nat.mul_le_mul_left _ hin.1
    have h2 : 2 ^ k * (m + 1) ≤ 2 ^ k * (2 ^ d * n + 2 ^ d) := Nat.mul_le_mul_left _ hin.2
    rw [Nat.mul_add] at h2
    rw [Nat.mul_add] at h2
    omega
  · right
    rw [Set.disjoint_left]
    intro x hx hx'
    rw [mem_cell] at hx hx'
    rw [hpow] at hx'
    apply hin
    constructor
    · by_contra hlt
      have h1 : 2 ^ k * (m + 1) ≤ 2 ^ k * (2 ^ d * n) := Nat.mul_le_mul_left _ (by omega)
      rw [Nat.mul_add] at h1
      omega
    · by_contra hge
      have h1 : 2 ^ k * (2 ^ d * n + 2 ^ d) ≤ 2 ^ k * m := Nat.mul_le_mul_left _ (by omega)
      rw [Nat.mul_add] at h1
      omega

theorem cell_inj {k a b : Nat} (h : cell k a ⊆ cell k b) : a = b := by
  rw [cell_subset_iff] at h
  omega

/-! ## buddies -/

def buddy (k a : Nat) : Nat := a ^^^ 2 ^ k

/-- the base of the cell of order `k + 1` around `a` -/
def parent (k a : Nat) : Nat := a - a / 2 ^ k % 2 * 2 ^ k

theorem buddy_eq {k a : Nat} (ha : 2 ^ k ∣ a) :
    buddy k a = if a / 2 ^ k % 2 = 0 then a + 2 ^ k else a - 2 ^ k := by
  obtain ⟨m, rfl⟩ := ha
  have hk := Nat.two_pow_pos k
  have hdiv : 2 ^ k * m / 2 ^ k = m := Nat.mul_div_cancel_left m hk
  have hxor : buddy k (2 ^ k * m) = 2 ^ k * (m ^^^ 1) := by
    have h1 : (2 ^ k * m) = m <<< k := by rw [Nat.shiftLeft_eq, Nat.mul_comm]
    have h2 : (2 ^ k : Nat) = 1 <<< k := by rw [Nat.shiftLeft_eq, Nat.one_mul]
    show (2 ^ k * m) ^^^ 2 ^ k = _
    calc (2 ^ k * m) ^^^ 2 ^ k = (m <<< k) ^^^ (1 <<< k) := by rw [h1, ← h2]
      _ = (m ^^^ 1) <<< k := Nat.shiftLeft_xor_distrib.symm
      _ = 2 ^ k * (m ^^^ 1) := by rw [Nat.shiftLeft_eq, Nat.mul_comm]
  rw [hxor, hdiv]
  split
  · rename_i h
    rw [Nat.xor_one_of_even (Nat.even_iff.mpr h), Nat.mul_add, Nat.mul_one]
  · rename_i h
    have hodd : m % 2 = 1 := by omega
    rw [Nat.xor_one_of_odd (Nat.odd_iff.mpr hodd), Nat.mul_sub, Nat.mul_one]

theorem parent_of_even {k a : Nat} (h : a / 2 ^ k % 2 = 0) : parent k a = a := by
  rw [parent, h, Nat.zero_mul, Nat.sub_zero]

theorem parent_of_odd {k a : Nat} (h : a / 2 ^ k % 2 ≠ 0) : parent k a = a - 2 ^ k := by
  have h1 : a / 2 ^ k % 2 = 1 := by omega
  rw [parent, h1, Nat.one_mul]

theorem two_pow_le_of_odd {k a : Nat} (h : a / 2 ^ k % 2 ≠ 0) : 2 ^ k ≤ a := by
  by_contra hlt
  rw [Nat.div_eq_of_lt (Nat.lt_of_not_le hlt)] at h
  exact h rfl

theorem dvd_parent {k a : Nat} (ha : 2 ^ k ∣ a) : 2 ^ (k + 1) ∣ parent k a := by
  obtain ⟨m, rfl⟩ := ha
  have hk := Nat.two_pow_pos k
  rw [parent, Nat.mul_div_cancel_left m hk, Nat.mul_comm (m % 2), ← Nat.mul_sub, pow_succ]
  exact Nat.mul_dvd_mul_left _ ⟨m / 2, by omega⟩

/-- the parent cell is the union of a cell and its buddy -/
theorem cell_parent {k a : Nat} (ha : 2 ^ k ∣ a) :
    cell (k + 1) (parent k a) = cell k a ∪ cell k (buddy k a) := by
  rw [buddy_eq ha]
  ext x
  rw [Set.mem_union, mem_cell, mem_cell, mem_cell, pow_succ]
  split
  · rename_i h
    rw [parent_of_even h]
    omega
  · rename_i h
    have := two_pow_le_of_odd h
    rw [parent_of_odd h]
    omega

/-- the lower half of an aligned cell of order `k + 1` and the upper half are buddies -/
theorem buddy_lower {k a : Nat} (ha : 2 ^ (k + 1) ∣ a) : buddy k a = a + 2 ^ k := by
  obtain ⟨m, rfl⟩ := ha
  have hd : 2 ^ k ∣ 2 ^ (k + 1) * m := Dvd.dvd.mul_right (pow_dvd_pow 2 (Nat.le_succ k)) m
  have heven : 2 ^ (k + 1) * m / 2 ^ k % 2 = 0 := by
    rw [pow_succ, Nat.mul_assoc, Nat.mul_div_cancel_left _ (Nat.two_pow_pos k)]
    omega
  rw [buddy_eq hd, if_pos heven]

theorem buddy_buddy (k a : Nat) : buddy k (buddy k a) = a := by
  rw [buddy, buddy, Nat.xor_assoc, Nat.xor_self, Nat.xor_zero]

theorem parent_lower {k a : Nat} (ha : 2 ^ (k + 1) ∣ a) : parent k a = a := by
  obtain ⟨m, rfl⟩ := ha
  apply parent_of_even
  rw [pow_succ, Nat.mul_assoc, Nat.mul_div_cancel_left _ (Nat.two_pow_pos k)]
  omega

theorem cell_succ {k a : Nat} (ha : 2 ^ (k + 1) ∣ a) :
    cell (k + 1) a = cell k a ∪ cell k (a + 2 ^ k) := by
  have hd : 2 ^ k ∣ a := Nat.dvd_trans (pow_dvd_pow 2 (Nat.le_succ k)) ha
  have h := cell_parent hd
  rwa [parent_lower ha, buddy_lower ha] at h

/-- masking bit `k` off an aligned `w`-bit number is taking the parent -/
theorem and_mask_eq_parent {w k a : Nat} (hw : a < 2 ^ w) (hk : k < w) (ha : 2 ^ k ∣ a) :
    a &&& (2 ^ w - 1 - 2 ^ k) = parent k a := by
  have hmask : 2 ^ w - 1 - 2 ^ k = (2 ^ w - 1) ^^^ 2 ^ k := by
    apply Nat.eq_of_testBit_eq
    intro i
    have hlt : 2 ^ k < 2 ^ w := Nat.pow_lt_pow_right (by omega) hk
    have e : 2 ^ w - 1 - 2 ^ k = 2 ^ w - (2 ^ k + 1) := by omega
    rw [e, Nat.testBit_two_pow_sub_succ hlt, Nat.testBit_xor, Nat.testBit_two_pow_sub_one,
      Nat.testBit_two_pow]
    by_cases hik : k = i
    · subst hik
      simp [hk]
    · simp [hik]
  have hall : a &&& (2 ^ w - 1) = a := by
    rw [Nat.and_two_pow_sub_one_eq_mod, Nat.mod_eq_of_lt hw]
  rw [hmask, Nat.and_xor_distrib_left, hall, Nat.and_two_pow]
  by_cases h : a / 2 ^ k % 2 = 0
  · have hbit : a.testBit k = false := by
      rw [Nat.testBit_eq_decide_div_mod_eq, h]
      rfl
    rw [hbit, parent_of_even h]
    simp
  · have hbit : a.testBit k = true := by
      have h1 : a / 2 ^ k % 2 = 1 := by omega
      rw [Nat.testBit_eq_decide_div_mod_eq, h1]
      rfl
    have hxor := buddy_eq ha
    rw [if_neg h] at hxor
    rw [hbit, parent_of_odd h, ← hxor]
    simp [buddy]

/-! ## families of disjoint cells -/

def cover (F : Nat → Set Nat) : Set Nat := {x | ∃ k a, a ∈ F k ∧ x ∈ cell k a}

/-- cells of orders `lo .. hi`, pairwise disjoint, no two buddies below the top order -/
structure Reduced (lo hi : Nat) (F : Nat → Set Nat) : Prop where
  range : ∀ {k a}, a ∈ F k → lo ≤ k ∧ k ≤ hi
  aligned : ∀ {k a}, a ∈ F k → 2 ^ k ∣ a
  disjoint : ∀ {k a j b}, a ∈ F k → b ∈ F j → (k, a) ≠ (j, b) → Disjoint (cell k a) (cell j b)
  noBuddy : ∀ {k a}, k < hi → a ∈ F k → buddy k a ∉ F k

namespace Reduced
variable {lo hi : Nat} {F G : Nat → Set Nat}

theorem subset_cover {k a : Nat} (h : a ∈ F k) : cell k a ⊆ cover F :=
  fun _ hx => ⟨k, a, h, hx⟩

/-- a cell inside the union lies in one member -/
theorem exists_member (R : Reduced lo hi F) {k : Nat} (hlo : lo ≤ k) :
    ∀ {a : Nat}, k ≤ hi → 2 ^ k ∣ a → cell k a ⊆ cover F →
      ∃ j b, k ≤ j ∧ b ∈ F j ∧ cell k a ⊆ cell j b := by
  induction k, hlo using Nat.le_induction with
  | base =>
    intro a _ ha hsub
    obtain ⟨j, b, hb, hab⟩ := hsub (base_mem_cell lo a)
    have hj := (R.range hb).1
    rcases cell_laminar hj ha (R.aligned hb) with h | h
    · exact ⟨j, b, hj, hb, h⟩
    · exact absurd hab (Set.disjoint_left.mp h (base_mem_cell lo a))
  | succ k _ ih =>
    intro a hk ha hsub
    have hdvd : 2 ^ k ∣ a := Nat.dvd_trans (pow_dvd_pow 2 (Nat.le_succ k)) ha
    have hdvd' : 2 ^ k ∣ a + 2 ^ k := (Nat.dvd_add_right hdvd).mpr (Nat.dvd_refl _)
    have hsplit := cell_succ ha
    have hlow : cell k a ⊆ cell (k + 1) a := hsplit ▸ Set.subset_union_left
    have hupp : cell k (a + 2 ^ k) ⊆ cell (k + 1) a := hsplit ▸ Set.subset_union_right
    obtain ⟨i, b, hi1, hb, hlb⟩ := ih (by omega) hdvd (hlow.trans hsub)
    obtain ⟨j, c, hj1, hc, huc⟩ := ih (by omega) hdvd' (hupp.trans hsub)
    -- a half inside a cell of larger order drags the whole cell in
    have grow : ∀ {l d x : Nat}, k + 1 ≤ l → d ∈ F l → x ∈ cell (k + 1) a → x ∈ cell l d →
        ∃ j b, k + 1 ≤ j ∧ b ∈ F j ∧ cell (k + 1) a ⊆ cell j b := by
      intro l d x hl hd hx hxd
      rcases cell_laminar hl ha (R.aligned hd) with h | h
      · exact ⟨l, d, hl, hd, h⟩
      · exact absurd hxd (Set.disjoint_left.mp h hx)
    rcases Nat.lt_or_ge k i with hki | hki
    · exact grow hki hb (hlow (base_mem_cell k a)) (hlb (base_mem_cell k a))
    rcases Nat.lt_or_ge k j with hkj | hkj
    · exact grow hkj hc (hupp (base_mem_cell k _)) (huc (base_mem_cell k _))
    -- otherwise both halves are members, and they are buddies
    obtain rfl : i = k := by omega
    obtain rfl : j = i := by omega
    obtain rfl : a = b := cell_inj hlb
    have hc' : a + 2 ^ j = c := cell_inj huc
    have hbud : buddy j a ∈ F j := by rw [buddy_lower ha, hc']; exact hc
    exact absurd hbud (R.noBuddy (by omega) hb)

/-- **The members are the maximal cells of the union.** -/
theorem mem_iff (R : Reduced lo hi F) {k a : Nat} (hlo : lo ≤ k) (hhi : k ≤ hi) (ha : 2 ^ k ∣ a) :
    a ∈ F k ↔ cell k a ⊆ cover F ∧ (k < hi → ¬ cell (k + 1) (parent k a) ⊆ cover F) := by
  have hpar : cell k a ⊆ cell (k + 1) (parent k a) := cell_parent ha ▸ Set.subset_union_left
  constructor
  · intro hmem
    refine ⟨subset_cover hmem, fun hk hsub => ?_⟩
    obtain ⟨j, b, hj, hb, hin⟩ := R.exists_member (by omega) hk (dvd_parent ha) hsub
    have hne : (k, a) ≠ (j, b) := by
      intro e
      have := (Prod.mk.inj e).1
      omega
    have hd := R.disjoint hmem hb hne
    exact Set.disjoint_left.mp hd (base_mem_cell k a) (hin (hpar (base_mem_cell k a)))
  · rintro ⟨hsub, hmax⟩
    obtain ⟨j, b, hj, hb, hin⟩ := R.exists_member hlo hhi ha hsub
    rcases Nat.lt_or_ge k j with hkj | hkj
    · exfalso
      refine hmax (by have := (R.range hb).2; omega) ?_
      rcases cell_laminar hkj (dvd_parent ha) (R.aligned hb) with h | h
      · exact h.trans (subset_cover hb)
      · exact absurd (hin (base_mem_cell k a))
          (Set.disjoint_left.mp h (hpar (base_mem_cell k a)))
    · obtain rfl : j = k := by omega
      obtain rfl : a = b := cell_inj hin
      exact hb

/-- a reduced family is determined by its union -/
theorem eq_of_cover_eq (R : Reduced lo hi F) (R' : Reduced lo hi G) (h : cover F = cover G)
    (k : Nat) : F k = G k := by
  ext a
  constructor
  · intro ha
    obtain ⟨h1, h2⟩ := R.range ha
    rwa [R'.mem_iff h1 h2 (R.aligned ha), ← h, ← R.mem_iff h1 h2 (R.aligned ha)]
  · intro ha
    obtain ⟨h1, h2⟩ := R'.range ha
    rwa [R.mem_iff h1 h2 (R'.aligned ha), h, ← R'.mem_iff h1 h2 (R'.aligned ha)]

end Reduced

end Dyadic
