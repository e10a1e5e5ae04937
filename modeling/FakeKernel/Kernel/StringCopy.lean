import FakeKernel.Kernel.Loading
import FakeKernel.Kernel.Arguments

/-!
# The contract of strlcpy (kernel/string.h)

string.h wants the length of the string that strlcpy tried to create.  The loop returns the index of
the NUL when it meets it, and the size of the buffer when it does not: the two agree up to the string
that is one byte longer than what fits.

* `Strlcpy`                 what string.h says about a call;
* `strlcpyFrom_truncates`   the loop on a string that does not fit;
* `strlcpy_contract`        when a call does what string.h says.
-/

namespace FakeKernel
open Bytes Mm Heap

variable {m m' : Mem} {dest src n len i r : Nat}

/-- string.h about a call with a string of `len` bytes: `r` is what it returns, `m'` what it leaves -/
structure Strlcpy (m : Mem) (dest src n len r : Nat) (m' : Mem) : Prop where
  writes : ∀ x, ¬ (dest ≤ x ∧ x < dest + n) → m' x = m x
  string : StringAt m' dest (min len (n - 1))
  copied : ∀ j < min len (n - 1), m' (dest + j) = m (src + j)
  returns : r = len

/-- `__restrict`: the buffer and the string have no byte in common -/
def Restrict (dest n src len : Nat) : Prop := ∀ j ≤ len, ¬ (dest ≤ src + j ∧ src + j < dest + n)

/-- the loop on a string that does not fit: it returns the size of the buffer, and the last byte that
it copied gives way to the NUL -/
theorem strlcpyFrom_truncates (hs : StringAt m src len) (hdis : Restrict dest n src len) (hlen : n ≤ len)
    (hn : i + r = n) (h0 : 0 < n) :
    (strlcpyFrom dest src n r i m).1 = n ∧
    (strlcpyFrom dest src n r i m).2 (dest + (n - 1)) = 0 ∧
    (∀ j, i ≤ j → j < n - 1 → (strlcpyFrom dest src n r i m).2 (dest + j) = m (src + j)) ∧
    ∀ j < i, j < n - 1 → (strlcpyFrom dest src n r i m).2 (dest + j) = m (dest + j) := by
  induction r generalizing i m with
  | zero =>
    refine ⟨rfl, Function.update_self _ _ _, fun j h1 h2 => ?_, fun j _ hj => ?_⟩
    · omega
    · apply Function.update_of_ne
      omega
  | succ r ih =>
    have hi : i < len := by omega
    obtain ⟨m₁, hm₁⟩ : ∃ m₁, m₁ = Function.update m (dest + i) (m (src + i)) := ⟨_, rfl⟩
    have hsame : ∀ j ≤ len, m₁ (src + j) = m (src + j) := by
      intro j hj
      have hne : src + j ≠ dest + i := fun he => hdis j hj (by omega)
      rw [hm₁, Function.update_of_ne hne]
    have hself : m₁ (dest + i) = m (src + i) := by rw [hm₁, Function.update_self]
    have hrun : strlcpyFrom dest src n (r + 1) i m = strlcpyFrom dest src n r (i + 1) m₁ := by
      have hset : m₁ (src + i) ≠ 0 := by
        rw [hsame i hi.le]
        exact hs.set i hi
      rw [strlcpyFrom, ← hm₁]
      exact if_neg hset
    have hnext : i + 1 + r = n := by omega
    obtain ⟨hret, hnul, hcopy, hkept⟩ := ih (hs.congr hsame) hnext
    rw [hrun]
    refine ⟨hret, hnul, fun j h1 h2 => ?_, fun j hj h2 => ?_⟩
    · by_cases hj : j = i
      · rw [hj, hkept i (by omega) (by omega), hself]
      · rw [hcopy j (by omega) h2, hsame j (by omega)]
    · rw [hkept j (by omega) h2, hm₁, Function.update_of_ne (by omega)]

/-- a string that fits -/
theorem strlcpyFrom_fits (hs : StringAt m src len) (hdis : Restrict dest n src len) (hlen : len < n) :
    Strlcpy m dest src n len (strlcpyFrom dest src n n 0 m).1 (strlcpyFrom dest src n n 0 m).2 := by
  have hmin : min len (n - 1) = len := by omega
  have hapart : ∀ j ≤ len, ¬ (dest ≤ src + j ∧ src + j ≤ dest + len) := fun j hj hin => hdis j hj (by omega)
  have hroom : len < 0 + n := by omega
  obtain ⟨hret, hcopy, hout⟩ := strlcpyFrom_spec hs hapart (Nat.zero_le len) hroom
  refine ⟨fun x hx => hout x (by omega), ⟨fun j hj => ?_, ?_⟩, fun j hj => ?_, hret⟩
  · rw [hcopy j (Nat.zero_le j) (by omega)]
    exact hs.set j (by omega)
  · rw [hmin, hcopy len (Nat.zero_le len) (Nat.le_refl len)]
    exact hs.stop
  · exact hcopy j (Nat.zero_le j) (by omega)

/-- a string that does not fit -/
theorem strlcpyFrom_cut (hs : StringAt m src len) (hdis : Restrict dest n src len) (hlen : n ≤ len)
    (h0 : 0 < n) : (strlcpyFrom dest src n n 0 m).1 = n ∧
      Strlcpy m dest src n len len (strlcpyFrom dest src n n 0 m).2 := by
  have hmin : min len (n - 1) = n - 1 := by omega
  obtain ⟨hret, hnul, hcopy, -⟩ := strlcpyFrom_truncates hs hdis hlen (Nat.zero_add n) h0
  refine ⟨hret, fun x hx => ?_, ⟨fun j hj => ?_, ?_⟩, fun j hj => ?_, rfl⟩
  · exact (strlcpyFrom_out (Nat.zero_add n) hx).resolve_right (by omega)
  · rw [hcopy j (Nat.zero_le j) (by omega)]
    exact hs.set j (by omega)
  · rw [hmin]
    exact hnul
  · exact hcopy j (Nat.zero_le j) (by omega)

/-- strlcpy does what string.h says exactly for the strings of up to `n` bytes -/
theorem strlcpy_contract (m : Mem) (dest src n len : Nat) (h0 : 0 < n) (hn : n < wordCount / 2)
    (hs : StringAt m src len) (hdis : Restrict dest n src len) :
    ∃ r m', strlcpy dest src n m = .ok (r, m') ∧ (Strlcpy m dest src n len r m' ↔ len ≤ n) := by
  refine ⟨_, _, if_pos ⟨h0, hn⟩, ?_⟩
  by_cases hlen : len < n
  · have hfits := strlcpyFrom_fits hs hdis hlen
    exact ⟨fun _ => hlen.le, fun _ => hfits⟩
  · obtain ⟨hret, hcut⟩ := strlcpyFrom_cut hs hdis (Nat.le_of_not_lt hlen) h0
    constructor
    · intro hstr
      exact (hstr.returns.symm.trans hret).le
    · intro hle
      have hlen' : len = n := by omega
      exact { hcut with returns := hret.trans hlen'.symm }

/-- "ab" at address 16 -/
def twoBytes : Mem := Function.update (Function.update (fun _ => 0) 16 97) 17 98

theorem twoBytes_string : StringAt twoBytes 16 2 := ⟨by decide, by decide⟩

theorem strlcpy_contract_two : ∃ r m', strlcpy 0 16 2 twoBytes = .ok (r, m') ∧
    (Strlcpy twoBytes 0 16 2 2 r m' ↔ 2 ≤ 2) :=
  strlcpy_contract twoBytes 0 16 2 2 (by decide) (by decide) twoBytes_string fun j _ hj => by omega

/-- a buffer of one byte: strlcpy says that it tried to create a string of one byte -/
theorem strlcpy_short : ¬ ∀ (m : Mem) (dest src n len : Nat), 0 < n → n < wordCount / 2 → StringAt m src len →
    Restrict dest n src len → ∃ r m', strlcpy dest src n m = .ok (r, m') ∧ Strlcpy m dest src n len r m' := by
  intro hall
  obtain ⟨r, m', hrun, hstr⟩ := hall twoBytes 0 16 1 2 (by decide) (by decide) twoBytes_string fun j _ hj => by omega
  have hret : r = 2 := hstr.returns
  have hone : strlcpy 0 16 1 twoBytes = .ok (1, (strlcpyFrom 0 16 1 1 0 twoBytes).2) := rfl
  have he := Except.ok.inj (hone.symm.trans hrun)
  have h1 : 1 = r := congrArg Prod.fst he
  omega

end FakeKernel
