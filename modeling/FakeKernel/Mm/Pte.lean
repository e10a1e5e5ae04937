import FakeKernel.Mm.PageTable
import FakeKernel.Mm.Tree

/-!
# What the bit fields of an entry say

* `flags_updatePte`, `ppn_updatePte`   the entry that set_page writes;
* `subtable_updatePte`                 the entry that points to a new table;
* `leafAt_updatePte`                   the translation of a leaf that set_page writes;
* `leafAt_expandPte`                   an entry of a split superpage translates as the superpage;
* `samePage_zero`                      a page, by the fields of its addresses; also of larger pages.
-/

namespace FakeKernel
open Bytes Bitfield

variable {pa flags pte level i x va : Nat}

theorem flags_updatePte (pa flags pte : Nat) :
    Sv39Pte.flags (updatePte pa flags pte) = flags % 2 ^ 8 := by
  unfold updatePte Sv39Pte.flags Sv39Pte.setPpn Sv39Pte.setFlags
  rw [field_setField_below (by decide), field_setField_self]

theorem ppn_updatePte (pa flags pte : Nat) :
    Sv39Pte.ppn (updatePte pa flags pte) = Sv39Pa.ppn pa := by
  unfold updatePte Sv39Pte.ppn Sv39Pte.setPpn
  rw [field_setField_self]
  exact Nat.mod_eq_of_lt (field_lt _ _ _)

theorem updatePte_lt (h : pte < 2 ^ 64) : updatePte pa flags pte < 2 ^ 64 := by
  unfold updatePte Sv39Pte.setPpn Sv39Pte.setFlags
  exact setField_lt (by decide) (setField_lt (by decide) h)

theorem expandPte_lt (h : pte < 2 ^ 64) : expandPte pte level i < 2 ^ 64 := by
  unfold expandPte
  split
  · exact setField_lt (by decide) h
  · split
    · exact setField_lt (by decide) h
    · exact h

theorem flags_expandPte (pte level i : Nat) :
    Sv39Pte.flags (expandPte pte level i) = Sv39Pte.flags pte := by
  unfold expandPte
  split
  · exact field_setField_below (by decide)
  · split
    · exact field_setField_below (by decide)
    · rfl

theorem invalidOrLeaf_expandPte (h : pteInvalidOrLeaf pte = true) :
    pteInvalidOrLeaf (expandPte pte level i) = true := by
  unfold pteInvalidOrLeaf at h ⊢
  rwa [flags_expandPte]

/-- a page of RAM has a physical address that an entry can hold -/
theorem PA_usable {s : Nat} (hs : s ∈ usable) : PA s + kernBase = s + kernPhy ∧ PA s < 2 ^ 56 := by
  obtain ⟨h1, h2⟩ := hs
  unfold kernPhyBase at h1 h2
  unfold PA wordCount
  unfold kernBase splitAddr at *
  unfold kernPhy phyBase
  omega

theorem subtable_updatePte {s : Nat} (hs : s ∈ usable) (hp : pageSize ∣ s) :
    subtableFromPte (updatePte (PA s) flags pte) = s := by
  obtain ⟨h1, h2⟩ := PA_usable hs
  have hlow := hs.1
  have hhigh := hs.2
  obtain ⟨n, rfl⟩ := hp
  unfold subtableFromPte
  rw [ppn_updatePte]
  unfold VA paFromPpn Sv39Pa.ppn field pageIndexBits wordCount
  unfold kernPhyBase at hlow hhigh
  unfold kernBase splitAddr kernPhy phyBase pageSize at *
  rw [Nat.shiftLeft_eq]
  omega

theorem off_PA {s : Nat} (hs : s ∈ usable) (hp : pageSize ∣ s) : Sv39Pa.off (PA s) = 0 := by
  obtain ⟨h1, h2⟩ := PA_usable hs
  obtain ⟨n, rfl⟩ := hp
  unfold Sv39Pa.off field
  unfold kernBase splitAddr kernPhy phyBase pageSize at *
  omega

theorem subtable_page (pte : Nat) : pageSize ∣ subtableFromPte pte := by
  unfold subtableFromPte VA paFromPpn kernBase splitAddr kernPhy phyBase pageIndexBits wordCount
    pageSize
  rw [Nat.shiftLeft_eq]
  omega

theorem tables_page {m : Mem} {table : Nat} (h : pageSize ∣ table) :
    ∀ s ∈ tables m level table, pageSize ∣ s := by
  induction level generalizing table with
  | zero =>
    intro s hs
    rwa [List.mem_singleton.mp hs]
  | succ level ih =>
    intro s hs
    cases mem_tables_succ.mp hs with
    | inl he => rwa [he]
    | inr hin =>
      obtain ⟨i, _, hin⟩ := hin
      cases hp : pteInvalidOrLeaf (entry m table i) with
      | true =>
        rw [below_of_leaf hp] at hin
        exact absurd hin List.not_mem_nil
      | false =>
        rw [below_of_pointer hp] at hin
        exact ih (subtable_page _) s hin

theorem pointer_updatePte (pa pte : Nat) :
    pteInvalidOrLeaf (updatePte pa pteValid pte) = false := by
  unfold pteInvalidOrLeaf
  rw [flags_updatePte]
  rfl

/-! ## leaves -/

theorem leafAt_eq (level pte va : Nat) : leafAt level pte va =
    if Sv39Pte.flags pte &&& pteValid != 0 && pteIsLeaf (Sv39Pte.flags pte) then
      some ⟨Sv39Pte.ppn pte / 2 ^ (9 * level) * 2 ^ (12 + 9 * level) + va % 2 ^ (12 + 9 * level),
        Sv39Pte.flags pte⟩
    else none := rfl

/-- what a page of `level` translates to after it was set -/
def setLeaf (level pa flags va : Nat) : Option Translation :=
  if flags &&& pteValid != 0 && pteIsLeaf flags then
    some { pa := pa % 2 ^ 56 + va % 2 ^ (12 + 9 * level), flags := flags }
  else none

theorem ppn_pa (hpa : 2 ^ (12 + 9 * level) ∣ pa) (hl : level ≤ 2) :
    Sv39Pa.ppn pa / 2 ^ (9 * level) * 2 ^ (12 + 9 * level) = pa % 2 ^ 56 ∧
      2 ^ (9 * level) ∣ Sv39Pa.ppn pa := by
  unfold Sv39Pa.ppn field
  obtain ⟨n, rfl⟩ := hpa
  have hcases : level = 0 ∨ level = 1 ∨ level = 2 := by omega
  rcases hcases with h | h | h
  · subst h
    omega
  · subst h
    omega
  · subst h
    omega

theorem leafAt_updatePte (hf : flags < 2 ^ 8)
    (hpa : pteIsLeaf flags = true → 2 ^ (12 + 9 * level) ∣ pa) (hl : level ≤ 2) :
    leafAt level (updatePte pa flags pte) va = setLeaf level pa flags va := by
  rw [leafAt_eq, flags_updatePte, ppn_updatePte, Nat.mod_eq_of_lt hf]
  unfold setLeaf
  cases hleaf : pteIsLeaf flags with
  | false => rw [Bool.and_false]; rfl
  | true => rw [(ppn_pa (hpa hleaf) hl).1]

theorem ppn_eq (pte : Nat) :
    Sv39Pte.ppn pte = field 10 9 pte + 2 ^ 9 * (field 19 9 pte + 2 ^ 9 * field 28 26 pte) := by
  unfold Sv39Pte.ppn
  rw [show 44 = 9 + 35 from rfl, field_append 10 9 35, show 35 = 9 + 26 from rfl,
    field_append (10 + 9) 9 26]

/-- splitting a superpage keeps the translation; `level` is that of the new table -/
theorem leafAt_expandPte (hl : level ≤ 1) :
    leafAt level (expandPte pte level (vpnAt level va)) va = leafAt (level + 1) pte va := by
  have hppn : Sv39Pte.ppn (expandPte pte level (vpnAt level va)) / 2 ^ (9 * level)
        * 2 ^ (12 + 9 * level) + va % 2 ^ (12 + 9 * level)
      = Sv39Pte.ppn pte / 2 ^ (9 * (level + 1)) * 2 ^ (12 + 9 * (level + 1))
        + va % 2 ^ (12 + 9 * (level + 1)) := by
    have h9 := field_lt 10 9 pte
    have h19 := field_lt 19 9 pte
    rw [ppn_eq, ppn_eq]
    have hcases : level = 0 ∨ level = 1 := by omega
    cases hcases with
    | inl h =>
      subst h
      show (field 10 9 (setField 10 9 (vpnAt 0 va) pte) + 2 ^ 9 *
        (field 19 9 (setField 10 9 (vpnAt 0 va) pte)
          + 2 ^ 9 * field 28 26 (setField 10 9 (vpnAt 0 va) pte))) / 2 ^ 0 * 2 ^ 12
        + va % 2 ^ 12 = _
      rw [field_setField_self, field_setField_above (by decide), field_setField_above (by decide)]
      unfold vpnAt
      rw [field_eq_mod_div]
      omega
    | inr h =>
      subst h
      show (field 10 9 (setField 19 9 (vpnAt 1 va) pte) + 2 ^ 9 *
        (field 19 9 (setField 19 9 (vpnAt 1 va) pte)
          + 2 ^ 9 * field 28 26 (setField 19 9 (vpnAt 1 va) pte))) / 2 ^ 9 * 2 ^ 21
        + va % 2 ^ 21 = _
      rw [field_setField_below (by decide), field_setField_self, field_setField_above (by decide)]
      unfold vpnAt
      rw [field_eq_mod_div 21]
      omega
  rw [leafAt_eq, leafAt_eq, flags_expandPte, hppn]

/-- the 2M leaves of a split 1G superpage are aligned -/
theorem aligned_expandPte (h : 2 ^ 18 ∣ Sv39Pte.ppn pte) :
    2 ^ 9 ∣ Sv39Pte.ppn (expandPte pte 1 i) := by
  have h9 := field_lt 10 9 pte
  rw [ppn_eq] at h ⊢
  have hlow : field 10 9 (expandPte pte 1 i) = field 10 9 pte := field_setField_below (by decide)
  rw [hlow]
  omega

/-! ## pages -/

/-- two 39-bit addresses in one page of `level` -/
def SamePage (level x va : Nat) : Prop :=
  x % 2 ^ 39 / 2 ^ (12 + 9 * level) = va % 2 ^ 39 / 2 ^ (12 + 9 * level)

instance (level x va : Nat) : Decidable (SamePage level x va) :=
  inferInstanceAs (Decidable (_ = _))

theorem samePage_two : SamePage 2 x va ↔ vpnAt 2 x = vpnAt 2 va := by
  unfold SamePage vpnAt
  rw [field_eq_mod_div, field_eq_mod_div]

theorem samePage_one :
    SamePage 1 x va ↔ vpnAt 2 x = vpnAt 2 va ∧ vpnAt 1 x = vpnAt 1 va := by
  have hx : x % 2 ^ 39 / 2 ^ 21 = vpnAt 1 x + 2 ^ 9 * vpnAt 2 x := by
    rw [← field_eq_mod_div 21 18]
    exact field_append 21 9 9 x
  have hva : va % 2 ^ 39 / 2 ^ 21 = vpnAt 1 va + 2 ^ 9 * vpnAt 2 va := by
    rw [← field_eq_mod_div 21 18]
    exact field_append 21 9 9 va
  have h1 := vpnAt_lt 1 x
  have h2 := vpnAt_lt 1 va
  unfold entryCount at h1 h2
  show x % 2 ^ 39 / 2 ^ 21 = va % 2 ^ 39 / 2 ^ 21 ↔ _
  omega

theorem samePage_zero : SamePage 0 x va ↔
    vpnAt 2 x = vpnAt 2 va ∧ vpnAt 1 x = vpnAt 1 va ∧ vpnAt 0 x = vpnAt 0 va := by
  have hx : x % 2 ^ 39 / 2 ^ 12 = vpnAt 0 x + 2 ^ 9 * (vpnAt 1 x + 2 ^ 9 * vpnAt 2 x) := by
    rw [← field_eq_mod_div 12 27, show 27 = 9 + 18 from rfl, field_append 12 9 18,
      show 18 = 9 + 9 from rfl, field_append (12 + 9) 9 9]
    rfl
  have hva : va % 2 ^ 39 / 2 ^ 12 = vpnAt 0 va + 2 ^ 9 * (vpnAt 1 va + 2 ^ 9 * vpnAt 2 va) := by
    rw [← field_eq_mod_div 12 27, show 27 = 9 + 18 from rfl, field_append 12 9 18,
      show 18 = 9 + 9 from rfl, field_append (12 + 9) 9 9]
    rfl
  have h1 := vpnAt_lt 1 x
  have h2 := vpnAt_lt 1 va
  have h3 := vpnAt_lt 0 x
  have h4 := vpnAt_lt 0 va
  unfold entryCount at h1 h2 h3 h4
  show x % 2 ^ 39 / 2 ^ 12 = va % 2 ^ 39 / 2 ^ 12 ↔ _
  omega

end FakeKernel
