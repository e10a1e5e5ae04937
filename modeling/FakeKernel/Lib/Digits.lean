import Mathlib.Data.Nat.Digits.Lemmas
import Mathlib.Data.BitVec
import Mathlib.Logic.Function.Basic
import Mathlib.Tactic.Ring

/-!
# Digits, most significant first

Numbers are printed by a loop that stores the digits of `x` in a buffer from its start on, least
significant first, and a second loop that reads the buffer backwards.  Numbers are read by a loop that
multiplies and adds, in the ring of the machine's integers.

* `digits`, `value`        the digits of a number and the number of some digits, in any semiring;
* `fill`, `fill_spec`      `do { buf[top++] = tab(x % b); x /= b; } while (x != 0)`;
* `downFrom`, `fill_back`  the loop backwards.
-/

namespace Digits

variable {α : Type*} {R : Type*} {b k n top x : Nat}

/-- the digits of `x` in base `b`, most significant first; 0 has one digit -/
def digits (b x : Nat) : List Nat := if x = 0 then [0] else (Nat.digits b x).reverse

/-- the number that some digits stand for, as a loop computes it that multiplies and adds -/
def value [Semiring R] (b : R) (l : List Nat) : R := l.foldl (fun (acc : R) (d : Nat) => acc * b + (d : R)) 0

/-! ## one digit after the other -/

theorem pos_of_div_ne_zero (hx : x / b ≠ 0) : 0 < x := by
  apply Nat.pos_of_ne_zero
  rintro rfl
  exact hx (Nat.zero_div b)

theorem digits_last (hb : 2 ≤ b) (hx : x / b = 0) : digits b x = [x % b] := by
  have hlt : x < b := (Nat.div_eq_zero_iff_lt (by omega)).mp hx
  rw [Nat.mod_eq_of_lt hlt]
  by_cases h0 : x = 0
  · rw [h0]
    rfl
  · rw [digits, if_neg h0, Nat.digits_of_lt b x h0 hlt]
    rfl

theorem digits_step (hb : 2 ≤ b) (hx : x / b ≠ 0) : digits b x = digits b (x / b) ++ [x % b] := by
  have h0 : 0 < x := pos_of_div_ne_zero hx
  rw [digits, if_neg h0.ne', digits, if_neg hx, Nat.digits_def' (by omega) h0, List.reverse_cons]

theorem digits_induct {motive : Nat → Prop} (hb : 2 ≤ b) (last : ∀ x, x / b = 0 → motive x)
    (step : ∀ x, x / b ≠ 0 → motive (x / b) → motive x) (x : Nat) : motive x := by
  induction x using Nat.strong_induction_on with
  | _ x ih =>
    by_cases hx : x / b = 0
    · exact last x hx
    · exact step x hx (ih (x / b) (Nat.div_lt_self (pos_of_div_ne_zero hx) (by omega)))

theorem digits_lt (hb : 2 ≤ b) : ∀ d ∈ digits b x, d < b := by
  induction x using digits_induct hb with
  | last x hx =>
    rw [digits_last hb hx]
    simpa using Nat.mod_lt x (by omega)
  | step x hx ih =>
    rw [digits_step hb hx]
    intro d hd
    rcases List.mem_append.mp hd with hd | hd
    · exact ih d hd
    · rw [List.mem_singleton.mp hd]
      exact Nat.mod_lt x (by omega)

theorem digits_length_pos : 0 < (digits b x).length := by
  rw [digits]
  split
  · exact Nat.one_pos
  · rename_i h0
    rw [List.length_reverse]
    exact List.length_pos_of_ne_nil (Nat.digits_ne_nil_iff_ne_zero.mpr h0)

theorem digits_length_le (hb : 2 ≤ b) (hk : 0 < k) (hx : x < b ^ k) : (digits b x).length ≤ k := by
  rw [digits]
  split
  · exact hk
  · rw [List.length_reverse]
    exact (Nat.digits_length_le_iff hb x).mpr hx

theorem value_append_one [Semiring R] (b : R) (l : List Nat) (d : Nat) :
    value b (l ++ [d]) = value b l * b + (d : R) := by
  simp [value, List.foldl_append]

/-- multiplying and adding gives the number back, in any semiring -/
theorem value_digits [Semiring R] (hb : 2 ≤ b) (x : Nat) : value (b : R) (digits b x) = (x : R) := by
  induction x using digits_induct hb with
  | last x hx =>
    have hlt : x < b := (Nat.div_eq_zero_iff_lt (by omega)).mp hx
    rw [digits_last hb hx, Nat.mod_eq_of_lt hlt]
    simp [value]
  | step x hx ih =>
    rw [digits_step hb hx, value_append_one, ih, ← Nat.cast_mul, ← Nat.cast_add]
    congr 1
    rw [Nat.mul_comm]
    exact Nat.div_add_mod x b

/-! ## the loop that stores the digits -/

/-- `do { buf[top++] = tab(x % b); x /= b; } while (x != 0)` -/
def fill (b : { b : Nat // 2 ≤ b }) (tab : Nat → α) (x top : Nat) (buf : Nat → α) : Nat × (Nat → α) :=
  let buf := Function.update buf top (tab (x % b))
  if hx : x / b ≠ 0 then fill b tab (x / b) (top + 1) buf else (top + 1, buf)
termination_by x
decreasing_by exact Nat.div_lt_self (pos_of_div_ne_zero hx) b.2

/-- the cells from `top` on, `n` of them -/
def cells (buf : Nat → α) (top n : Nat) : List α := (List.range n).map fun i => buf (top + i)

theorem cells_succ (buf : Nat → α) (top n : Nat) : cells buf top (n + 1) = buf top :: cells buf (top + 1) n := by
  rw [cells, List.range_succ_eq_map, List.map_cons, List.map_map, cells]
  congr 1
  apply List.map_congr_left
  intro i _
  show buf (top + (i + 1)) = buf (top + 1 + i)
  rw [Nat.add_right_comm, Nat.add_assoc]

/-- the digits of `x` are stored backwards, and nothing else is touched -/
theorem fill_spec (b : { b : Nat // 2 ≤ b }) (tab : Nat → α) (x top : Nat) (buf : Nat → α) :
    (fill b tab x top buf).1 = top + (digits b x).length ∧
    cells (fill b tab x top buf).2 top (digits b x).length = (digits b x).reverse.map tab ∧
    ∀ i, ¬ (top ≤ i ∧ i < top + (digits b x).length) → (fill b tab x top buf).2 i = buf i := by
  induction x using digits_induct b.2 generalizing top buf with
  | last x hx =>
    have hrun : fill b tab x top buf = (top + 1, Function.update buf top (tab (x % b))) := by
      rw [fill]
      exact dif_neg (not_not.mpr hx)
    rw [hrun, digits_last b.2 hx]
    refine ⟨rfl, ?_, fun i hi => ?_⟩
    · simp [cells]
    · apply Function.update_of_ne
      intro he
      exact hi ⟨he.ge, by simp [he]⟩
  | step x hx ih =>
    have hrun : fill b tab x top buf
        = fill b tab (x / b) (top + 1) (Function.update buf top (tab (x % b))) := by
      conv_lhs => rw [fill]
      exact dif_pos hx
    obtain ⟨htop, hcells, hout⟩ := ih (top + 1) (Function.update buf top (tab (x % b)))
    rw [hrun, digits_step b.2 hx, List.length_append, List.length_singleton, List.reverse_append,
      List.reverse_singleton]
    refine ⟨?_, ?_, fun i hi => ?_⟩
    · rw [htop]
      omega
    · have hfirst : (fill b tab (x / b) (top + 1) (Function.update buf top (tab (x % b)))).2 top = tab (x % b) := by
        rw [hout top (by omega), Function.update_self]
      rw [cells_succ, hfirst, hcells]
      rfl
    · rw [hout i (by omega), Function.update_of_ne (by omega)]

/-! ## the loop that reads them backwards -/

/-- `top`, …, 1, 0 -/
def downFrom : Nat → List Nat
  | 0 => [0]
  | n + 1 => (n + 1) :: downFrom n

@[simp] theorem downFrom_length : (downFrom n).length = n + 1 := by
  induction n with
  | zero => rfl
  | succ n ih => rw [downFrom, List.length_cons, ih]

theorem mem_downFrom : x ∈ downFrom n ↔ x ≤ n := by
  induction n with
  | zero => simp [downFrom]
  | succ n ih =>
    rw [downFrom, List.mem_cons, ih]
    omega

theorem map_downFrom (buf : Nat → α) (n : Nat) : (downFrom n).map buf = buf n :: (cells buf 0 n).reverse := by
  induction n with
  | zero => rfl
  | succ n ih =>
    rw [downFrom, List.map_cons, ih, cells, cells, List.range_succ, List.map_append, List.reverse_append]
    simp

/-- reading backwards from `top` gives the cell behind the digits, then the digits in their order -/
theorem fill_back (b : { b : Nat // 2 ≤ b }) (tab : Nat → α) (x : Nat) (buf : Nat → α) :
    (downFrom (fill b tab x 0 buf).1).map (fill b tab x 0 buf).2
      = buf (digits b x).length :: (digits b x).map tab := by
  obtain ⟨htop, hcells, hout⟩ := fill_spec b tab x 0 buf
  rw [Nat.zero_add] at htop hout
  rw [htop, map_downFrom, hcells, hout _ (by omega), ← List.map_reverse, List.reverse_reverse]

end Digits
