import FakeKernel.Lib.Digits

/-!
# Numbers in user programs (user/stdio.h)

putint writes a NUL between the sign and the digits, or before the digits: its last loop starts one
cell behind them.  getint skips it.

* `putint`, `getint`   what a program writes, and what it reads of a stream of bytes;
* `putint_eq`          the sign, the NUL, the digits;
* `getint_putint`      the number comes back, and nothing behind the next byte is consumed.
-/

namespace FakeKernel
namespace User

def bufLen : Nat := 64

def isdigit (c : UInt8) : Bool := '0'.toUInt8 ≤ c && c ≤ '9'.toUInt8

/-! ## output -/

/-- `d + '0'` -/
def digitChar (d : Nat) : UInt8 := UInt8.ofNat (d + '0'.toNat)

theorem two_le_ten : 2 ≤ 10 := by decide

/-- `stack` is what the stack holds behind the buffer -/
def printUint (stack : Nat → UInt8) (x : BitVec 64) (neg : Bool) : List UInt8 :=
  let buf := fun i => if i < bufLen then 0 else stack i
  let (top, buf) := Digits.fill ⟨10, two_le_ten⟩ digitChar x.toNat 0 buf
  (if neg then ['-'.toUInt8] else []) ++ (Digits.downFrom top).map buf

def putint (stack : Nat → UInt8) (value : BitVec 32) : List UInt8 :=
  if value.toInt < 0 then printUint stack (-value.signExtend 64) true else printUint stack (value.signExtend 64) false

/-! ## input -/

/-- the first loop of getint; `none` means that getchar waits -/
def skipToDigit : BitVec 32 → List UInt8 → Option (BitVec 32 × UInt8 × List UInt8)
  | _, [] => none
  | sign, c :: input =>
    if isdigit c then some (sign, c, input) else skipToDigit (if c = '-'.toUInt8 then -1 else sign) input

/-- the second loop of getint -/
def readDigits : BitVec 32 → UInt8 → List UInt8 → Option (BitVec 32 × List UInt8)
  | _, _, [] => none
  | i, c, c' :: input =>
    let i := i * 10 + BitVec.ofNat 32 c.toNat - BitVec.ofNat 32 '0'.toNat
    if isdigit c' then readDigits i c' input else some (i, input)

/-- the number, and what is left of the stream -/
def getint (input : List UInt8) : Option (BitVec 32 × List UInt8) := do
  let (sign, c, input) ← skipToDigit 1 input
  let (i, input) ← readDigits 0 c input
  some (i * sign, input)

variable {stack : Nat → UInt8} {v : BitVec 32} {x : BitVec 64} {neg : Bool} {front rest : List UInt8} {b c : UInt8}
  {d : Nat} {ds : List Nat} {i sign : BitVec 32}

/-! ## what putint writes -/

theorem printUint_eq (stack : Nat → UInt8) (x : BitVec 64) (neg : Bool) : printUint stack x neg =
    (if neg then ['-'.toUInt8] else []) ++ 0 :: (Digits.digits 10 x.toNat).map digitChar := by
  have hlt : x.toNat < 10 ^ 20 := x.isLt.trans (by decide)
  have hlen : (Digits.digits 10 x.toNat).length ≤ 20 := Digits.digits_length_le (by decide) (by decide) hlt
  have hshort : (Digits.digits 10 x.toNat).length < bufLen := hlen.trans_lt (by decide)
  have hback := Digits.fill_back ⟨10, two_le_ten⟩ digitChar x.toNat fun i => if i < bufLen then 0 else stack i
  rw [if_pos hshort] at hback
  rw [← hback]
  rfl

theorem putint_eq (stack : Nat → UInt8) (v : BitVec 32) : putint stack v =
    (if v.toInt < 0 then ['-'.toUInt8] else []) ++ 0 :: (Digits.digits 10 v.toInt.natAbs).map digitChar := by
  have hext : (v.signExtend 64).toInt = v.toInt := BitVec.toInt_signExtend_of_le (by decide)
  have hcond := BitVec.toInt_eq_toNat_cond (v.signExtend 64)
  have hlt := (v.signExtend 64).isLt
  rw [hext] at hcond
  by_cases hneg : v.toInt < 0
  · have habs : (-v.signExtend 64).toNat = v.toInt.natAbs := by
      rw [BitVec.toNat_neg]
      split at hcond <;> omega
    rw [putint, if_pos hneg, if_pos hneg, printUint_eq, habs, if_pos rfl]
  · have habs : (v.signExtend 64).toNat = v.toInt.natAbs := by
      split at hcond <;> omega
    rw [putint, if_neg hneg, if_neg hneg, printUint_eq, habs]
    rfl

/-! ## what getint reads -/

theorem digitChar_digit : ∀ d < 10, isdigit (digitChar d) = true ∧
    BitVec.ofNat 32 (digitChar d).toNat - BitVec.ofNat 32 '0'.toNat = (d : BitVec 32) := by decide

theorem skipToDigit_front (hfront : ∀ b ∈ front, isdigit b = false ∧ b ≠ '-'.toUInt8) :
    skipToDigit sign (front ++ rest) = skipToDigit sign rest := by
  induction front with
  | nil => rfl
  | cons b front ih =>
    obtain ⟨hd, hm⟩ := hfront b List.mem_cons_self
    rw [List.cons_append, skipToDigit, hd, if_neg Bool.false_ne_true, if_neg hm]
    exact ih fun b hb => hfront b (List.mem_cons_of_mem _ hb)

/-- the digits behind the first one -/
theorem readDigits_digits (hd : d < 10) (hds : ∀ d ∈ ds, d < 10) (hc : isdigit c = false) :
    readDigits i (digitChar d) (ds.map digitChar ++ c :: rest) =
      some ((d :: ds).foldl (fun (acc : BitVec 32) (d : Nat) => acc * 10 + (d : BitVec 32)) i, rest) := by
  induction ds generalizing d i with
  | nil =>
    rw [List.map_nil, List.nil_append, readDigits, hc, if_neg Bool.false_ne_true, add_sub_assoc, (digitChar_digit d hd).2]
    rfl
  | cons d' ds ih =>
    have hd' : d' < 10 := hds d' List.mem_cons_self
    rw [List.map_cons, List.cons_append, readDigits, if_pos (digitChar_digit d' hd').1, add_sub_assoc, (digitChar_digit d hd).2,
      ih hd' fun d hd => hds d (List.mem_cons_of_mem _ hd)]
    rfl

/-- a numeral behind a NUL -/
theorem skipToDigit_numeral (n : Nat) (sign : BitVec 32) (rest : List UInt8) (hc : isdigit c = false) : ∃ (d : Nat) (ds : List Nat),
    skipToDigit sign (0 :: (Digits.digits 10 n).map digitChar ++ c :: rest) =
      some (sign, digitChar d, ds.map digitChar ++ c :: rest) ∧
    readDigits 0 (digitChar d) (ds.map digitChar ++ c :: rest) = some ((n : BitVec 32), rest) := by
  obtain ⟨d, ds, hdigits⟩ := List.exists_cons_of_length_pos (Digits.digits_length_pos (b := 10) (x := n))
  have hlt : ∀ y ∈ d :: ds, y < 10 := by
    rw [← hdigits]
    exact Digits.digits_lt (by decide)
  have hd : d < 10 := hlt d List.mem_cons_self
  have hvalue := Digits.value_digits (R := BitVec 32) (show 2 ≤ 10 by decide) n
  refine ⟨d, ds, ?_, ?_⟩
  · have hnul : skipToDigit sign (0 :: (Digits.digits 10 n).map digitChar ++ c :: rest) =
        skipToDigit sign ((Digits.digits 10 n).map digitChar ++ c :: rest) := rfl
    rw [hnul, hdigits, List.map_cons, List.cons_append, skipToDigit, if_pos (digitChar_digit d hd).1]
  · rw [readDigits_digits hd (fun y hy => hlt y (List.mem_cons_of_mem _ hy)) hc, ← hvalue, hdigits]
    rfl

/-- getint gives back what putint was given, and consumes one byte behind the number -/
theorem getint_putint (stack : Nat → UInt8) (v : BitVec 32) (front rest : List UInt8) (c : UInt8)
    (hfront : ∀ b ∈ front, isdigit b = false ∧ b ≠ '-'.toUInt8) (hc : isdigit c = false) :
    getint (front ++ putint stack v ++ c :: rest) = some (v, rest) := by
  have hcond := BitVec.toInt_eq_toNat_cond v
  have hlt := v.isLt
  have habs : ((v.toInt.natAbs : Nat) : BitVec 32).toNat = v.toInt.natAbs := by
    show (BitVec.ofNat 32 v.toInt.natAbs).toNat = _
    rw [BitVec.toNat_ofNat]
    split at hcond <;> omega
  rw [getint, List.append_assoc, skipToDigit_front hfront, putint_eq]
  by_cases hneg : v.toInt < 0
  · obtain ⟨d, ds, hskip, hread⟩ := skipToDigit_numeral v.toInt.natAbs (-1) rest hc
    have hsign : skipToDigit 1 (((if v.toInt < 0 then ['-'.toUInt8] else []) ++
        0 :: (Digits.digits 10 v.toInt.natAbs).map digitChar) ++ c :: rest) =
        skipToDigit (-1) (0 :: (Digits.digits 10 v.toInt.natAbs).map digitChar ++ c :: rest) := by
      rw [if_pos hneg]
      rfl
    have hv : ((v.toInt.natAbs : Nat) : BitVec 32) * -1 = v := by
      rw [mul_neg_one]
      apply BitVec.eq_of_toNat_eq
      rw [BitVec.toNat_neg, habs]
      split at hcond <;> omega
    rw [hsign, hskip]
    show (readDigits 0 (digitChar d) (ds.map digitChar ++ c :: rest)).bind _ = _
    rw [hread]
    show some (_ * -1, rest) = _
    rw [hv]
  · obtain ⟨d, ds, hskip, hread⟩ := skipToDigit_numeral v.toInt.natAbs 1 rest hc
    have hv : ((v.toInt.natAbs : Nat) : BitVec 32) * 1 = v := by
      rw [mul_one]
      apply BitVec.eq_of_toNat_eq
      rw [habs]
      split at hcond <;> omega
    rw [if_neg hneg, List.nil_append, hskip]
    show (readDigits 0 (digitChar d) (ds.map digitChar ++ c :: rest)).bind _ = _
    rw [hread]
    show some (_ * 1, rest) = _
    rw [hv]

/-- INT_MIN behind a blank and in front of a newline -/
theorem getint_putint_min : getint ([' '.toUInt8] ++ putint (fun _ => 0) (BitVec.intMin 32) ++ '\n'.toUInt8 :: []) =
    some (BitVec.intMin 32, []) :=
  getint_putint (fun _ => 0) (BitVec.intMin 32) [' '.toUInt8] [] '\n'.toUInt8 (List.forall_mem_singleton.mpr (by decide)) rfl

end User
end FakeKernel
