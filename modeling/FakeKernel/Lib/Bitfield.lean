import Mathlib.Data.Nat.Basic
import Mathlib.Tactic.Ring

/-!
# Bit fields of natural numbers

`field lo w v` is the field of `w` bits that starts at bit `lo` of `v`, and `setField lo w x v` is
`v` with that field replaced by the low `w` bits of `x`.

* `field_setField_self`, `field_setField_below`, `field_setField_above`   a write is seen by its own
  field only;
* `field_append`   two adjacent fields read as one;
* `setField_lt`    a write stays below the width of the word.
-/

namespace Bitfield

def field (lo w v : Nat) : Nat := v / 2 ^ lo % 2 ^ w

def setField (lo w x v : Nat) : Nat :=
  v % 2 ^ lo + 2 ^ lo * (x % 2 ^ w + 2 ^ w * (v / 2 ^ (lo + w)))

variable {lo w lo' w' v x n : Nat}

theorem field_lt (lo w v : Nat) : field lo w v < 2 ^ w := Nat.mod_lt _ (Nat.two_pow_pos w)

theorem field_eq_mod_div (lo w v : Nat) : field lo w v = v % 2 ^ (lo + w) / 2 ^ lo := by
  unfold field
  rw [pow_add, Nat.mod_mul_right_div_self]

theorem setField_mod (lo w x v : Nat) : setField lo w x v % 2 ^ lo = v % 2 ^ lo := by
  unfold setField
  rw [Nat.add_mul_mod_self_left, Nat.mod_mod]

theorem setField_div_low (lo w x v : Nat) :
    setField lo w x v / 2 ^ lo = x % 2 ^ w + 2 ^ w * (v / 2 ^ (lo + w)) := by
  have hlt : v % 2 ^ lo < 2 ^ lo := Nat.mod_lt _ (Nat.two_pow_pos lo)
  unfold setField
  rw [Nat.add_mul_div_left _ _ (Nat.two_pow_pos lo), Nat.div_eq_of_lt hlt, Nat.zero_add]

theorem setField_div (lo w x v : Nat) :
    setField lo w x v / 2 ^ (lo + w) = v / 2 ^ (lo + w) := by
  have hlt : x % 2 ^ w < 2 ^ w := Nat.mod_lt _ (Nat.two_pow_pos w)
  calc setField lo w x v / 2 ^ (lo + w)
      = setField lo w x v / 2 ^ lo / 2 ^ w := by rw [Nat.div_div_eq_div_mul, pow_add]
    _ = (x % 2 ^ w + 2 ^ w * (v / 2 ^ (lo + w))) / 2 ^ w := by rw [setField_div_low]
    _ = v / 2 ^ (lo + w) := by
      rw [Nat.add_mul_div_left _ _ (Nat.two_pow_pos w), Nat.div_eq_of_lt hlt, Nat.zero_add]

/-! ## reads after writes -/

theorem field_setField_self (lo w x v : Nat) : field lo w (setField lo w x v) = x % 2 ^ w := by
  unfold field
  rw [setField_div_low, Nat.add_mul_mod_self_left, Nat.mod_mod]

theorem field_setField_below (h : lo' + w' ≤ lo) :
    field lo' w' (setField lo w x v) = field lo' w' v := by
  have hdvd : 2 ^ (lo' + w') ∣ 2 ^ lo := pow_dvd_pow 2 h
  rw [field_eq_mod_div, field_eq_mod_div, ← Nat.mod_mod_of_dvd (setField lo w x v) hdvd,
    setField_mod, Nat.mod_mod_of_dvd v hdvd]

theorem field_setField_above (h : lo + w ≤ lo') :
    field lo' w' (setField lo w x v) = field lo' w' v := by
  obtain ⟨d, rfl⟩ := Nat.exists_eq_add_of_le h
  unfold field
  rw [pow_add 2 (lo + w) d, ← Nat.div_div_eq_div_mul, setField_div, Nat.div_div_eq_div_mul]

theorem setField_lt (h : lo + w ≤ n) (hv : v < 2 ^ n) : setField lo w x v < 2 ^ n := by
  obtain ⟨d, rfl⟩ := Nat.exists_eq_add_of_le h
  have hdiv : v / 2 ^ (lo + w) < 2 ^ d := by
    rw [Nat.div_lt_iff_lt_mul (Nat.two_pow_pos _), ← pow_add, Nat.add_comm d]
    exact hv
  have : setField lo w x v / 2 ^ (lo + w) < 2 ^ d := by rwa [setField_div]
  rw [Nat.div_lt_iff_lt_mul (Nat.two_pow_pos _), ← pow_add, Nat.add_comm d] at this
  exact this

/-! ## adjacent fields -/

theorem field_append (lo w w' v : Nat) :
    field lo (w + w') v = field lo w v + 2 ^ w * field (lo + w) w' v := by
  unfold field
  rw [pow_add 2 w w', Nat.mod_mul, Nat.div_div_eq_div_mul, ← pow_add]

end Bitfield
