import Mathlib.Data.List.Basic
import Mathlib.Data.Nat.ModEq
import Mathlib.Logic.Function.Basic

/-!
# Ring buffers with free-running counters

`RingBuffer cap modulus buf w r l`: the ring `buf` with `cap` slots, whose counters `w` and `r` are never
reset but run modulo `modulus`, holds the queue `l`.

* `RingBuffer.full_iff`, `RingBuffer.empty_iff`   what comparing the counters tells;
* `RingBuffer.push`, `RingBuffer.pop`             the two operations are enqueue and dequeue.
-/

variable {α : Type*}

structure RingBuffer (cap modulus : Nat) (buf : Nat → α) (w r : Nat) (l : List α) : Prop where
  length_le : l.length ≤ cap
  lt : r < modulus
  write : w = (r + l.length) % modulus
  slot : ∀ i x, l[i]? = some x → buf ((r + i) % cap) = x

namespace RingBuffer
variable {cap modulus w r : Nat} {buf : Nat → α} {l l' : List α} {x : α}

theorem init (hm : r < modulus) : RingBuffer cap modulus buf r r [] where
  length_le := Nat.zero_le cap
  lt := hm
  write := (Nat.mod_eq_of_lt hm).symm
  slot := nofun

/-- two numbers less than one lap apart meet in no slot but their own -/
theorem eq_of_mod_eq {n i j : Nat} (hi : i < n) (hj : j < n) (h : (r + i) % n = (r + j) % n) :
    i = j := by
  have hmod : i ≡ j [MOD n] := Nat.ModEq.add_left_cancel' r h
  exact Nat.ModEq.eq_of_lt_of_lt hmod hi hj

theorem counter_eq_iff (h : RingBuffer cap modulus buf w r l) (hcap : cap < modulus) {n : Nat}
    (hn : n ≤ cap) : w = (r + n) % modulus ↔ l.length = n := by
  have hle := h.length_le
  rw [h.write]
  constructor
  · intro he
    exact eq_of_mod_eq (by omega) (by omega) he
  · intro he
    rw [he]

theorem full_iff (h : RingBuffer cap modulus buf w r l) (hcap : cap < modulus) :
    w = (r + cap) % modulus ↔ l.length = cap := h.counter_eq_iff hcap (Nat.le_refl cap)

theorem empty_iff (h : RingBuffer cap modulus buf w r l) (hcap : cap < modulus) : w = r ↔ l = [] := by
  have hzero := h.counter_eq_iff hcap (Nat.zero_le cap)
  rw [Nat.add_zero, Nat.mod_eq_of_lt h.lt] at hzero
  rw [hzero, List.length_eq_zero_iff]

theorem push (h : RingBuffer cap modulus buf w r l) (hdvd : cap ∣ modulus) (hlen : l.length < cap) :
    RingBuffer cap modulus (Function.update buf (w % cap) x) ((w + 1) % modulus) r (l ++ [x]) where
  length_le := by
    rw [List.length_append]
    exact hlen
  lt := h.lt
  write := by
    rw [h.write, List.length_append, Nat.mod_add_mod]
    rfl
  slot := by
    have hslot : w % cap = (r + l.length) % cap := by
      rw [h.write, Nat.mod_mod_of_dvd _ hdvd]
    intro i y hy
    rw [hslot]
    by_cases hi : i < l.length
    · rw [List.getElem?_append_left hi] at hy
      have hne : (r + i) % cap ≠ (r + l.length) % cap := by
        intro he
        have := eq_of_mod_eq (by omega) hlen he
        omega
      rw [Function.update_of_ne hne]
      exact h.slot i y hy
    · rw [List.getElem?_append_right (Nat.not_lt.mp hi)] at hy
      have hzero : i - l.length = 0 := by
        by_contra hne
        rw [List.getElem?_eq_none (by simp only [List.length_singleton]; omega)] at hy
        exact nomatch hy
      rw [hzero] at hy
      have hi' : i = l.length := by omega
      cases hy
      rw [hi', Function.update_self]

theorem pop (h : RingBuffer cap modulus buf w r (x :: l)) (hdvd : cap ∣ modulus) (hpos : 0 < modulus) :
    buf (r % cap) = x ∧ RingBuffer cap modulus buf w ((r + 1) % modulus) l := by
  refine ⟨h.slot 0 x rfl, ?_, Nat.mod_lt _ hpos, ?_, fun i y hy => ?_⟩
  · have hle := h.length_le
    rw [List.length_cons] at hle
    omega
  · rw [h.write, Nat.mod_add_mod, List.length_cons]
    congr 1
    omega
  · have hmod : ((r + 1) % modulus + i) % cap = (r + (i + 1)) % cap := by
      rw [Nat.add_mod, Nat.mod_mod_of_dvd _ hdvd, ← Nat.add_mod]
      congr 1
      omega
    rw [hmod]
    exact h.slot (i + 1) y hy

/-- the queue is determined by the counters and the slots -/
theorem unique (h : RingBuffer cap modulus buf w r l) (h' : RingBuffer cap modulus buf w r l')
    (hcap : cap < modulus) : l = l' := by
  have hlen : l.length = l'.length := (h.counter_eq_iff hcap h'.length_le).mp h'.write
  refine List.ext_getElem? fun i => ?_
  by_cases hi : i < l.length
  · have hl := List.getElem?_eq_getElem hi
    have hl' := List.getElem?_eq_getElem (hlen ▸ hi)
    rw [hl, hl', ← h.slot i _ hl, ← h'.slot i _ hl']
  · rw [List.getElem?_eq_none (Nat.not_lt.mp hi), List.getElem?_eq_none (hlen ▸ Nat.not_lt.mp hi)]

end RingBuffer
