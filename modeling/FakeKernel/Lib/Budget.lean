/-!
# Computations that use up a resource

`Costs x free c left P`: with `free` units at hand the computation `x` returns if and only if `c` of
them are enough.  When it returns, `left` is what the result has left over and `P` holds of it.

* `Costs.bind`      one computation after the other: the costs add up;
* `Costs.returns_iff`   what it takes to return.
-/

variable {ε α β : Type} {x : Except ε α} {f : α → Except ε β} {a : α} {free c d : Nat} {left left' : α → Nat}
  {leftB : β → Nat} {P Q : α → Prop} {PB : β → Prop}

structure Costs (x : Except ε α) (free c : Nat) (left : α → Nat) (P : α → Prop) : Prop where
  returns : c ≤ free → ∃ a, x = .ok a
  spec : ∀ a, x = .ok a → P a ∧ free = c + left a

namespace Costs

theorem ok (hP : P a) (hl : free = left a) : Costs (.ok a : Except ε α) free 0 left P := by
  refine ⟨fun _ => ⟨a, rfl⟩, fun b hb => ?_⟩
  cases hb
  exact ⟨hP, by rw [hl, Nat.zero_add]⟩

theorem bind (hx : Costs x free c left P) (hf : ∀ a, P a → Costs (f a) (left a) d leftB PB) :
    Costs (x >>= f) free (c + d) leftB PB := by
  cases x with
  | error e =>
    refine ⟨fun hle => ?_, fun b hb => nomatch hb⟩
    obtain ⟨a, ha⟩ := hx.returns (Nat.le_trans (Nat.le_add_right c d) hle)
    exact nomatch ha
  | ok a =>
    obtain ⟨hP, hfree⟩ := hx.spec a rfl
    have hfa := hf a hP
    refine ⟨fun hle => hfa.returns (by omega), fun b hb => ?_⟩
    obtain ⟨hPB, hleft⟩ := hfa.spec b hb
    exact ⟨hPB, by omega⟩

theorem mono (hx : Costs x free c left P) (hP : ∀ a, P a → Q a ∧ left' a = left a) : Costs x free c left' Q := by
  refine ⟨hx.returns, fun a ha => ?_⟩
  obtain ⟨hPa, hfree⟩ := hx.spec a ha
  obtain ⟨hQ, he⟩ := hP a hPa
  exact ⟨hQ, by rw [he, hfree]⟩

theorem returns_iff (hx : Costs x free c left P) : (∃ a, x = .ok a) ↔ c ≤ free := by
  refine ⟨fun ⟨a, ha⟩ => ?_, hx.returns⟩
  rw [(hx.spec a ha).2]
  exact Nat.le_add_right c (left a)

end Costs
