import FakeKernel.Lib.Digits
import FakeKernel.Lib.Bytes

/-!
# Printing (kernel/printf.c)

The functions return the bytes they give to putchar.  print_int also returns the indices at which it
reads its buffer, and vprintk the addresses at which it reads the format.

* `printUint`, `printInt`       numbers;
* `scanInt`, `directive`, `vprintk`   the format; `none` means that the fuel does not suffice;
* `Exact`, `printInt_exact`     when print_int prints a number as it should.
-/

namespace FakeKernel
open Bytes

def BUFLEN : Nat := 64

def P_UNSIGNED : Nat := 1
def P_HEX : Nat := 2
def P_BIN : Nat := 4
def P_ZEROPAD : Nat := 8

def INT64_MIN : BitVec 64 := BitVec.intMin 64

/-- the digits up to base 16 -/
def tab (d : Nat) : UInt8 :=
  ['0'.toUInt8, '1'.toUInt8, '2'.toUInt8, '3'.toUInt8, '4'.toUInt8, '5'.toUInt8, '6'.toUInt8, '7'.toUInt8,
    '8'.toUInt8, '9'.toUInt8, 'a'.toUInt8, 'b'.toUInt8, 'c'.toUInt8, 'd'.toUInt8, 'e'.toUInt8, 'f'.toUInt8].getD d 0

def prints : List UInt8 → List UInt8
  | [] => []
  | c :: str => if c ≠ 0 then c :: prints str else []

def isdigit (c : UInt8) : Bool := '0'.toUInt8 ≤ c && c ≤ '9'.toUInt8

/-! ## numbers -/

/-- what a call writes, and the indices at which it reads its buffer -/
structure Printed where
  out : List UInt8
  reads : List Nat

/-- `for (int i = from; i < pad; ++i) putchar(padchar)` -/
def padding (start pad : Int) (padchar : UInt8) : List UInt8 := List.replicate (pad - start).toNat padchar

/-- `stack` is what the stack holds behind the buffer -/
def printUint (stack : Nat → UInt8) (x : Nat) (base : { b : Nat // 2 ≤ b }) (pad : Int) (padchar : UInt8)
    (neg : Bool) : Printed :=
  let buf := fun i => if i < BUFLEN then 0 else stack i
  let (top, buf) := Digits.fill base tab x 0 buf
  let before := if neg && padchar == '0'.toUInt8 then ['-'.toUInt8] else []
  let after := if neg && padchar == ' '.toUInt8 then ['-'.toUInt8] else []
  { out := before ++ padding (top + neg.toNat) pad padchar ++ after ++ (Digits.downFrom top).map buf
    reads := Digits.downFrom top }

/-- the digits of `INT64_MIN` -/
def minDigits : List UInt8 :=
  ['9', '2', '2', '3', '3', '7', '2', '0', '3', '6', '8', '5', '4', '7', '7', '5', '8', '0', '8'].map Char.toUInt8

def baseOf (flags : Nat) : { b : Nat // 2 ≤ b } :=
  if flags &&& P_HEX ≠ 0 then ⟨16, by decide⟩ else if flags &&& P_BIN ≠ 0 then ⟨2, by decide⟩ else ⟨10, by decide⟩

def padcharOf (flags : Nat) : UInt8 := if flags &&& P_ZEROPAD ≠ 0 then '0'.toUInt8 else ' '.toUInt8

def printInt (stack : Nat → UInt8) (x : BitVec 64) (flags : Nat) (pad : Int) : Printed :=
  let padchar := padcharOf flags
  let base := baseOf flags
  if flags &&& P_UNSIGNED ≠ 0 then printUint stack x.toNat base pad padchar false
  else if x = INT64_MIN then
    let before := if padchar = '0'.toUInt8 then ['-'.toUInt8] else []
    let after := if padchar = ' '.toUInt8 then ['-'.toUInt8] else []
    { out := before ++ padding 20 pad padchar ++ after ++ prints minDigits, reads := [] }
  else if x.toInt < 0 then printUint stack (-x).toNat base pad padchar true
  else printUint stack x.toNat base pad padchar false

/-! ## the format -/

/-- an argument: its slot, and the bytes of the string when it is the address of one -/
structure PrintkArg where
  slot : BitVec 64
  text : List UInt8

/-- what vprintk finds: the memory, its arguments, and the stack behind the buffer of print_int at the
call that prints an argument -/
structure PrintkEnv where
  mem : Mem
  args : Nat → PrintkArg
  stack : Nat → Nat → UInt8

/-- a directive that was carried out: the conversion characters and the arguments it consumed -/
structure Consumed where
  convs : Nat
  args : Nat

/-- the state of vprintk: where it is in the format and in the arguments, and a history of the bytes it
has written, the addresses of the format it has read, and the directives -/
structure Printk where
  fmt : Nat
  args : Nat
  out : List UInt8
  reads : List Nat
  directives : List Consumed

/-- the variables of the inner loop; `convs` counts the conversion characters -/
structure Directive where
  flags : Nat
  pad : Int
  is64 : Bool
  done : Bool
  convs : Nat

namespace Printk

def start (fmt : Nat) : Printk := { fmt := fmt, args := 0, out := [], reads := [], directives := [] }

/-- `*fmt++` -/
def next (s : Printk) : Printk := { s with fmt := s.fmt + 1, reads := s.reads ++ [s.fmt] }

/-- `--fmt` -/
def back (s : Printk) : Printk := { s with fmt := s.fmt - 1 }

def emit (l : List UInt8) (s : Printk) : Printk := { s with out := s.out ++ l }

/-- `va_arg` -/
def took (s : Printk) : Printk := { s with args := s.args + 1 }

/-- the end of a directive that began with `args` arguments behind it -/
def finish (args : Nat) (d : Directive) (s : Printk) : Printk :=
  { s with directives := s.directives ++ [{ convs := d.convs, args := s.args - args }] }

end Printk

def nextArg (arg : PrintkArg) (is64 : Bool) : BitVec 64 :=
  if is64 then arg.slot else (arg.slot.setWidth 32).setWidth 64

/-- the first loop of scan_int; `c` is the character it stopped at -/
def scanSign (mem : Mem) : Nat → BitVec 32 → Printk → Option (BitVec 32 × UInt8 × Printk)
  | 0, _, _ => none
  | n + 1, sign, s =>
    let c := mem s.fmt
    let s := s.next
    if isdigit c then some (sign, c, s)
    else scanSign mem n (if c = '-'.toUInt8 then -1 else sign) s

/-- the second loop of scan_int -/
def scanDigits (mem : Mem) : Nat → BitVec 32 → UInt8 → Printk → Option (BitVec 32 × Printk)
  | 0, _, _, _ => none
  | n + 1, i, c, s =>
    let i := i * 10 + BitVec.ofNat 32 c.toNat - BitVec.ofNat 32 '0'.toNat
    let c := mem s.fmt
    let s := s.next
    if isdigit c then scanDigits mem n i c s else some (i, s.back)

def scanInt (mem : Mem) (n : Nat) (s : Printk) : Option (BitVec 32 × Printk) := do
  let (sign, c, s) ← scanSign mem n 1 s
  let (i, s) ← scanDigits mem n 0 c s
  some (i * sign, s)

namespace Printk

/-- `print_int(next_arg(&args, is64), flags, pad)` -/
def printArg (env : PrintkEnv) (is64 : Bool) (flags : Nat) (pad : Int) (s : Printk) : Printk :=
  (s.emit (printInt (env.stack s.args) (nextArg (env.args s.args) is64) flags pad).out).took

/-- the switch of the inner loop, behind `done = true` -/
def switch (env : PrintkEnv) (c : UInt8) (d : Directive) (s : Printk) : Directive × Printk :=
  let conv : Directive := { d with done := true, convs := d.convs + 1 }
  if c = '%'.toUInt8 then (conv, s.emit ['%'.toUInt8])
  else if c = 'd'.toUInt8 then (conv, s.printArg env d.is64 d.flags d.pad)
  else if c = 'x'.toUInt8 then (conv, s.printArg env d.is64 (d.flags ||| P_HEX ||| P_UNSIGNED) d.pad)
  else if c = 'a'.toUInt8 then (conv, s.printArg env d.is64 (d.flags ||| P_HEX) d.pad)
  else if c = 'b'.toUInt8 then (conv, s.printArg env d.is64 (d.flags ||| P_BIN) d.pad)
  else if c = 'u'.toUInt8 then
    ({ conv with done := false }, s.printArg env d.is64 (d.flags ||| P_UNSIGNED) d.pad)
  else if c = 'l'.toUInt8 then ({ d with is64 := true, done := false }, s)
  else if c = 'p'.toUInt8 then
    ({ conv with pad := 16 }, s.printArg env true (d.flags ||| P_UNSIGNED ||| P_HEX ||| P_ZEROPAD) 16)
  else if c = 'c'.toUInt8 then (conv, (s.emit [UInt8.ofBitVec ((env.args s.args).slot.setWidth 8)]).took)
  else if c = 's'.toUInt8 then (conv, (s.emit (prints (env.args s.args).text)).took)
  else if c = 0 then (conv, s)
  else (conv, s.emit [c])

end Printk

/-- the inner loop of vprintk -/
def directive (env : PrintkEnv) : Nat → Directive → Printk → Option (Directive × Printk)
  | 0, _, _ => none
  | n + 1, d, s =>
    let c := env.mem s.fmt
    let s := s.next
    if c = '0'.toUInt8 then directive env n { d with flags := d.flags ||| P_ZEROPAD, done := false } s
    else if isdigit c then do
      let (pad, s) ← scanInt env.mem n s.back
      directive env n { d with pad := pad.toInt, done := false } s
    else
      let (d, s) := s.switch env c d
      if d.done then some (d, s) else directive env n d s

def Directive.start : Directive := { flags := 0, pad := 0, is64 := false, done := false, convs := 0 }

def vprintk (env : PrintkEnv) : Nat → Printk → Option Printk
  | 0, _ => none
  | n + 1, s =>
    let c := env.mem s.fmt
    let s := s.next
    if c = 0 then some s
    else if c ≠ '%'.toUInt8 then vprintk env n (s.emit [c])
    else do
      let (d, t) ← directive env n Directive.start s
      vprintk env n (t.finish s.args d)

/-! ## what print_int should print -/

variable {stack : Nat → UInt8} {x : Nat} {base : { b : Nat // 2 ≤ b }} {pad : Int} {flags : Nat} {neg : Bool}

/-- the digits of `x` as characters -/
def numeral (base x : Nat) : List UInt8 := (Digits.digits base x).map tab

/-- a number with its sign, padded on the left: zeros go behind the sign, blanks before it -/
def formatted (neg : Bool) (padchar : UInt8) (pad : Int) (num : List UInt8) : List UInt8 :=
  let sign := if neg then ['-'.toUInt8] else []
  let fillers := padding (num.length + neg.toNat) pad padchar
  if padchar = '0'.toUInt8 then sign ++ fillers ++ num else fillers ++ sign ++ num

def signed (x : BitVec 64) (flags : Nat) : Bool := flags &&& P_UNSIGNED = 0 && x.toInt < 0

def magnitude (x : BitVec 64) (flags : Nat) : Nat := if signed x flags then (-x).toNat else x.toNat

/-- print_int prints the number and reads within its buffer -/
structure Exact (x : BitVec 64) (flags : Nat) (pad : Int) (p : Printed) : Prop where
  out : p.out = formatted (signed x flags) (padcharOf flags) pad (numeral (baseOf flags) (magnitude x flags))
  length : (p.out.length : Int) = max pad ((numeral (baseOf flags) (magnitude x flags)).length + (signed x flags).toNat)
  reads : ∀ i ∈ p.reads, i < BUFLEN

theorem padcharOf_cases (flags : Nat) : padcharOf flags = '0'.toUInt8 ∨ padcharOf flags = ' '.toUInt8 := by
  rw [padcharOf]
  split
  · exact .inl rfl
  · exact .inr rfl

theorem formatted_length (neg : Bool) (padchar : UInt8) (pad : Int) (num : List UInt8) :
    ((formatted neg padchar pad num).length : Int) = max pad (num.length + neg.toNat) := by
  have hsign : (if neg then ['-'.toUInt8] else []).length = neg.toNat := by cases neg <;> rfl
  rw [formatted]
  split
  · simp only [List.length_append, hsign, padding, List.length_replicate]
    omega
  · simp only [List.length_append, hsign, padding, List.length_replicate]
    omega

/-! ## print_uint -/

theorem printUint_reads (padchar : UInt8) :
    (printUint stack x base pad padchar neg).reads = Digits.downFrom (numeral base x).length := by
  have htop := (Digits.fill_spec base tab x 0 fun i => if i < BUFLEN then 0 else stack i).1
  rw [Nat.zero_add] at htop
  show Digits.downFrom (Digits.fill base tab x 0 fun i => if i < BUFLEN then 0 else stack i).1 = _
  rw [htop, numeral, List.length_map]

/-- the last loop starts behind the digits: one more byte goes before them -/
theorem printUint_out (stack : Nat → UInt8) (x : Nat) (base : { b : Nat // 2 ≤ b }) (pad : Int) (flags : Nat) (neg : Bool) :
    ∃ front c, ((numeral base x).length < BUFLEN → c = 0) ∧
      formatted neg (padcharOf flags) pad (numeral base x) = front ++ numeral base x ∧
      (printUint stack x base pad (padcharOf flags) neg).out = front ++ c :: numeral base x := by
  obtain ⟨buf, hbuf⟩ : ∃ buf : Nat → UInt8, buf = fun i => if i < BUFLEN then 0 else stack i := ⟨_, rfl⟩
  have htop := (Digits.fill_spec base tab x 0 buf).1
  have hlen : (numeral base x).length = (Digits.digits base x).length := List.length_map ..
  have hback : (Digits.downFrom (Digits.fill base tab x 0 buf).1).map (Digits.fill base tab x 0 buf).2 =
      buf (numeral base x).length :: numeral base x := by
    rw [hlen]
    exact Digits.fill_back base tab x buf
  rw [Nat.zero_add, ← hlen] at htop
  have hrun : (printUint stack x base pad (padcharOf flags) neg).out =
      (if neg && padcharOf flags == '0'.toUInt8 then ['-'.toUInt8] else []) ++
        padding ((numeral base x).length + neg.toNat) pad (padcharOf flags) ++
        (if neg && padcharOf flags == ' '.toUInt8 then ['-'.toUInt8] else []) ++
        (buf (numeral base x).length :: numeral base x) := by
    rw [← hback, ← htop, hbuf]
    rfl
  refine ⟨_, buf (numeral base x).length, fun h => ?_, ?_, hrun⟩
  · rw [hbuf]
    exact if_pos h
  · have hne : '0'.toUInt8 ≠ ' '.toUInt8 := by decide
    rw [formatted]
    rcases padcharOf_cases flags with h | h
    · rw [h]
      cases neg <;> simp [hne]
    · rw [h]
      cases neg <;> simp [hne.symm]

/-- so print_uint never prints a number alone -/
theorem printUint_long (stack : Nat → UInt8) (x : Nat) (base : { b : Nat // 2 ≤ b }) (pad : Int) (flags : Nat) (neg : Bool) :
    (printUint stack x base pad (padcharOf flags) neg).out.length =
      (formatted neg (padcharOf flags) pad (numeral base x)).length + 1 := by
  obtain ⟨front, c, -, hform, hout⟩ := printUint_out stack x base pad flags neg
  rw [hform, hout, List.length_append, List.length_append, List.length_cons]
  omega

/-! ## print_int -/

theorem printInt_eq (stack : Nat → UInt8) (pad : Int) {x : BitVec 64} (h : flags &&& P_UNSIGNED ≠ 0 ∨ x ≠ INT64_MIN) :
    printInt stack x flags pad =
      printUint stack (magnitude x flags) (baseOf flags) pad (padcharOf flags) (signed x flags) := by
  by_cases hu : flags &&& P_UNSIGNED = 0
  · have hmin : x ≠ INT64_MIN := h.resolve_left (not_not.mpr hu)
    have hs : signed x flags = decide (x.toInt < 0) := by simp [signed, hu]
    rw [printInt, if_neg (not_not.mpr hu), if_neg hmin, magnitude, hs]
    by_cases hneg : x.toInt < 0
    · simp [hneg]
    · simp [hneg]
  · have hs : signed x flags = false := by simp [signed, hu]
    rw [printInt, if_pos hu, magnitude, hs]
    rfl

theorem numeral_min : numeral 10 (2 ^ 63) = minDigits := by decide

/-- in the other bases `2 ^ 63` ends with a 0 -/
theorem numeral_min_last {b : Nat} (hb : b = 16 ∨ b = 2) : (numeral b (2 ^ 63)).getLast? = some '0'.toUInt8 := by
  rcases hb with rfl | rfl
  · rw [numeral, Digits.digits_step (by decide) (by decide)]
    simp [tab]
  · rw [numeral, Digits.digits_step (by decide) (by decide)]
    simp [tab]

theorem signed_min (h : flags &&& P_UNSIGNED = 0) :
    signed INT64_MIN flags = true ∧ magnitude INT64_MIN flags = 2 ^ 63 := by
  have hs : signed INT64_MIN flags = true := by
    rw [signed, h]
    decide
  refine ⟨hs, ?_⟩
  rw [magnitude, if_pos hs]
  decide

/-- the path for `INT64_MIN` writes what it would write in base 10 -/
theorem printInt_min (stack : Nat → UInt8) (pad : Int) (h : flags &&& P_UNSIGNED = 0) :
    (printInt stack INT64_MIN flags pad).out = formatted true (padcharOf flags) pad minDigits ∧
    (printInt stack INT64_MIN flags pad).reads = [] := by
  have hne : '0'.toUInt8 ≠ ' '.toUInt8 := by decide
  have hlen : minDigits.length = 19 := rfl
  have hprints : prints minDigits = minDigits := by decide
  rw [printInt, if_neg (not_not.mpr h), if_pos rfl, formatted, hprints, hlen]
  refine ⟨?_, rfl⟩
  rcases padcharOf_cases flags with hp | hp
  · rw [hp]
    simp [hne]
  · rw [hp]
    simp [hne.symm]

theorem formatted_getLast? {num : List UInt8} (padchar : UInt8) (h : num ≠ []) :
    (formatted neg padchar pad num).getLast? = num.getLast? := by
  rw [formatted]
  split
  · exact List.getLast?_append_of_ne_nil _ h
  · exact List.getLast?_append_of_ne_nil _ h

theorem numeral_ne_nil : numeral base x ≠ [] := by
  apply List.ne_nil_of_length_pos
  rw [numeral, List.length_map]
  exact Digits.digits_length_pos

theorem baseOf_cases (flags : Nat) : (flags &&& P_HEX = 0 ∧ flags &&& P_BIN = 0 ∧ baseOf flags = ⟨10, by decide⟩) ∨
    ((flags &&& P_HEX ≠ 0 ∨ flags &&& P_BIN ≠ 0) ∧ ((baseOf flags : Nat) = 16 ∨ (baseOf flags : Nat) = 2)) := by
  rw [baseOf]
  by_cases hhex : flags &&& P_HEX = 0
  · by_cases hbin : flags &&& P_BIN = 0
    · simp [hhex, hbin]
    · simp [hhex, hbin]
  · simp [hhex]

/-- print_int prints a number as it should on the path for `INT64_MIN` only, and there in base 10 only -/
theorem printInt_exact (stack : Nat → UInt8) (x : BitVec 64) (flags : Nat) (pad : Int) :
    Exact x flags pad (printInt stack x flags pad) ↔
      flags &&& P_UNSIGNED = 0 ∧ flags &&& P_HEX = 0 ∧ flags &&& P_BIN = 0 ∧ x = INT64_MIN := by
  constructor
  · intro hexact
    by_cases hpath : flags &&& P_UNSIGNED ≠ 0 ∨ x ≠ INT64_MIN
    · -- one byte too many
      have hlong := printUint_long stack (magnitude x flags) (baseOf flags) pad flags (signed x flags)
      rw [← printInt_eq stack pad hpath, hexact.out] at hlong
      omega
    · obtain ⟨hu, rfl⟩ : flags &&& P_UNSIGNED = 0 ∧ x = INT64_MIN := by
        rw [not_or, not_not, not_not] at hpath
        exact hpath
      obtain ⟨hs, hm⟩ := signed_min hu
      rcases baseOf_cases flags with ⟨hhex, hbin, -⟩ | ⟨-, hbase⟩
      · exact ⟨hu, hhex, hbin, rfl⟩
      · -- the digits on this path are decimal whatever the base is
        have hout := congrArg List.getLast? ((printInt_min stack pad hu).1.symm.trans hexact.out)
        rw [hs, hm, formatted_getLast? _ (by decide), formatted_getLast? _ numeral_ne_nil, numeral_min_last hbase] at hout
        exact absurd hout (by decide)
  · rintro ⟨hu, hhex, hbin, rfl⟩
    obtain ⟨hs, hm⟩ := signed_min hu
    obtain ⟨hout, hreads⟩ := printInt_min stack pad hu
    have hnum : numeral (baseOf flags) (magnitude INT64_MIN flags) = minDigits := by
      rw [hm, baseOf, hhex, hbin]
      exact numeral_min
    have hform : (printInt stack INT64_MIN flags pad).out = formatted (signed INT64_MIN flags) (padcharOf flags) pad
        (numeral (baseOf flags) (magnitude INT64_MIN flags)) := by rw [hout, hs, hnum]
    refine ⟨hform, ?_, fun i hi => ?_⟩
    · rw [hform]
      exact formatted_length _ _ _ _
    · rw [hreads] at hi
      exact absurd hi List.not_mem_nil

/-- "0" is printed as a NUL and a "0" -/
theorem printInt_zero : ¬ ∀ (stack : Nat → UInt8) (x : BitVec 64) (flags : Nat) (pad : Int),
    0 ≤ pad → Exact x flags pad (printInt stack x flags pad) := by
  intro hall
  have hexact := hall (fun _ => 0) 0 0 0 (by decide)
  have hne : (0 : BitVec 64) ≠ INT64_MIN := by decide
  have hrun := printInt_eq (fun _ => 0) 0 (.inr hne : 0 &&& P_UNSIGNED ≠ 0 ∨ (0 : BitVec 64) ≠ INT64_MIN)
  have hlong := printUint_long (fun _ => 0) (magnitude 0 0) (baseOf 0) 0 0 (signed 0 0)
  rw [← hrun, hexact.out] at hlong
  omega

/-- with 64 binary digits the byte before them comes from behind the buffer -/
theorem printUint_past (h : 64 ≤ (numeral base x).length) (padchar : UInt8) :
    ∃ i ∈ (printUint stack x base pad padchar neg).reads, BUFLEN ≤ i := by
  rw [printUint_reads]
  exact ⟨_, Digits.mem_downFrom.mpr (Nat.le_refl _), h⟩

end FakeKernel
