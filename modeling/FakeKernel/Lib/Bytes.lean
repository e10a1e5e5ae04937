import Mathlib.Data.Nat.Basic
import Mathlib.Logic.Function.Basic
import Mathlib.Tactic.Ring

/-!
# Byte memory with little-endian loads and stores

A memory is a total function from addresses to bytes.  `load n m a` reads the `n` bytes at `a`
as a little-endian number, `store n m a v` writes the low `n` bytes of `v`.

* `load_store`        reading back what was stored gives the value modulo `256 ^ n`;
* `store_apply_out`   a store changes no byte outside `[a, a + n)`;
* `load_store_disj`   a load from a disjoint range is not affected;
* `load_congr`        a load depends on the bytes of its range only.
-/

namespace Bytes

abbrev Mem := Nat → UInt8

def load : Nat → Mem → Nat → Nat
  | 0, _, _ => 0
  | n + 1, m, a => (m a).toNat + 256 * load n m (a + 1)

def store : Nat → Mem → Nat → Nat → Mem
  | 0, m, _, _ => m
  | n + 1, m, a, v => store n (Function.update m a (UInt8.ofNat v)) (a + 1) (v / 256)

theorem load_congr {n : Nat} {m m' : Mem} {a : Nat}
    (h : ∀ x, a ≤ x → x < a + n → m x = m' x) : load n m a = load n m' a := by
  induction n generalizing a with
  | zero => rfl
  | succ n ih =>
    have hhead : m a = m' a := h a (Nat.le_refl a) (by omega)
    have htail : load n m (a + 1) = load n m' (a + 1) :=
      ih fun x hx hx' => h x (by omega) (by omega)
    show (m a).toNat + 256 * load n m (a + 1) = (m' a).toNat + 256 * load n m' (a + 1)
    rw [hhead, htail]

theorem load_shift {n : Nat} {m : Mem} {a b : Nat} : load n (fun x => m (b + x)) a = load n m (b + a) := by
  induction n generalizing a with
  | zero => rfl
  | succ n ih =>
    show (m (b + a)).toNat + 256 * load n (fun x => m (b + x)) (a + 1) = (m (b + a)).toNat + 256 * load n m (b + a + 1)
    rw [ih, Nat.add_assoc]

theorem load_eq_zero {n : Nat} {m : Mem} {a : Nat} (h : ∀ x, a ≤ x → x < a + n → m x = 0) : load n m a = 0 := by
  induction n generalizing a with
  | zero => rfl
  | succ n ih =>
    show (m a).toNat + 256 * load n m (a + 1) = 0
    rw [h a (Nat.le_refl a) (by omega), ih fun x h1 h2 => h x (by omega) (by omega)]
    rfl

theorem load_lt (n : Nat) (m : Mem) (a : Nat) : load n m a < 256 ^ n := by
  induction n generalizing a with
  | zero => exact Nat.one_pos
  | succ n ih =>
    have hb : (m a).toNat < 256 := (m a).toNat_lt
    have htail := ih (a + 1)
    show (m a).toNat + 256 * load n m (a + 1) < 256 ^ (n + 1)
    rw [pow_succ]
    omega

theorem store_apply_out {n : Nat} {m : Mem} {a v x : Nat} (h : x < a ∨ a + n ≤ x) :
    store n m a v x = m x := by
  induction n generalizing m a v with
  | zero => rfl
  | succ n ih =>
    have hne : x ≠ a := by omega
    show store n (Function.update m a (UInt8.ofNat v)) (a + 1) (v / 256) x = m x
    rw [ih (by omega), Function.update_of_ne hne]

theorem store_zero {n : Nat} {m : Mem} {a x : Nat} (h1 : a ≤ x) (h2 : x < a + n) : store n m a 0 x = 0 := by
  induction n generalizing m a with
  | zero => omega
  | succ n ih =>
    show store n (Function.update m a (UInt8.ofNat 0)) (a + 1) 0 x = 0
    by_cases hx : x = a
    · rw [store_apply_out (by omega), hx, Function.update_self]
      rfl
    · exact ih (by omega) (by omega)

theorem load_store_disj {k n : Nat} {m : Mem} {a b v : Nat} (h : a + n ≤ b ∨ b + k ≤ a) :
    load k (store n m a v) b = load k m b :=
  load_congr fun x hx hx' => store_apply_out (by omega)

theorem load_store (n : Nat) (m : Mem) (a v : Nat) : load n (store n m a v) a = v % 256 ^ n := by
  induction n generalizing m a v with
  | zero => rw [pow_zero, Nat.mod_one]; rfl
  | succ n ih =>
    have hbyte : store n (Function.update m a (UInt8.ofNat v)) (a + 1) (v / 256) a
        = UInt8.ofNat v := by
      rw [store_apply_out (by omega), Function.update_self]
    show (store n (Function.update m a (UInt8.ofNat v)) (a + 1) (v / 256) a).toNat
      + 256 * load n (store n (Function.update m a (UInt8.ofNat v)) (a + 1) (v / 256)) (a + 1) = _
    rw [hbyte, ih, UInt8.toNat_ofNat', pow_succ 256 n, Nat.mul_comm (256 ^ n) 256, Nat.mod_mul]

theorem load_store_lt {n : Nat} {m : Mem} {a v : Nat} (h : v < 256 ^ n) :
    load n (store n m a v) a = v := by
  rw [load_store, Nat.mod_eq_of_lt h]

end Bytes
