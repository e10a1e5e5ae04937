import FakeKernel.Mm.Kmalloc

/-!
# Access to user memory (kernel/mm.c, kernel/mm.h, kernel/string.c)

`Uaccess` is what the accessors see: the kernel's memory, the user's memory as the page table shows
it (`none` is a page fault), and the two flags that enter_sum sets.  `touched` is a history of the
addresses from user space that were dereferenced; no function reads it.
-/

namespace FakeKernel
open Bytes

structure Uaccess where
  mm : Mm
  user : Nat → Option UInt8
  writable : Nat → Bool
  mayPageFault : Bool
  sum : Bool
  touched : List Nat

/-- a result together with the state in which the function returned or stopped -/
structure Ran (α : Type) where
  result : Res α
  state : Uaccess

/-- `access_ok`; sizes are signed, the subtraction is not -/
def accessOk (addr : Nat) (size : Int) : Bool :=
  size ≤ (taskSizeMax : Int) && (addr : Int) ≤ ((splitAddr : Int) - size) % (wordCount : Int)

def ERR_PTR (err : Int) : Nat := ((-err) % (wordCount : Int)).toNat

def isErr (ptr : Nat) : Bool := wordCount / 2 ≤ ptr

def wrap (x : Nat) : Nat := x % wordCount

namespace Uaccess

def enterSum (s : Uaccess) : Uaccess := { s with mayPageFault := true, sum := true }

def exitSum (s : Uaccess) : Uaccess := { s with mayPageFault := false, sum := false }

def touch (x : Nat) (s : Uaccess) : Uaccess := { s with touched := wrap x :: s.touched }

def storeKernel (n x v : Nat) (s : Uaccess) : Uaccess :=
  { s with mm := s.mm.setMem (store n s.mm.mem x v) }

/-- the eight bytes of a pointer in user memory -/
def touchWord (x : Nat) (s : Uaccess) : Uaccess :=
  (List.range 8).foldr (fun k s => s.touch (x + k)) s

/-- a little-endian load of `n` bytes from user memory -/
def loadUser (user : Nat → Option UInt8) : Nat → Nat → Option Nat
  | 0, _ => some 0
  | n + 1, x => do
    let b ← user (wrap x)
    let rest ← loadUser user n (x + 1)
    some (b.toNat + 256 * rest)

/-! ## user_memcpy -/

/-- which of the two buffers of user_memcpy is the user's -/
inductive Direction where
  | fromUser
  | toUser

/-- `dest[i] = src[i]`; `none` is a page fault -/
def copyByte : Direction → Nat → Nat → Uaccess → Option Uaccess
  | .fromUser, dest, src, s =>
    (s.user (wrap src)).map fun b => s.storeKernel 1 dest b.toNat
  | .toUser, dest, src, s =>
    if s.writable (wrap dest) then
      some { s with user := Function.update s.user (wrap dest) (some (s.mm.mem src)) }
    else none

def userSide : Direction → Nat → Nat → Nat
  | .fromUser, _, src => src
  | .toUser, dest, _ => dest

/-- the loop of user_memcpy, `n` bytes from the `i`-th on; `false` is a page fault -/
def copyLoop (dir : Direction) (dest src : Nat) : Nat → Nat → Uaccess → Bool × Uaccess
  | 0, _, s => (true, s)
  | n + 1, i, s =>
    let s := s.touch (userSide dir (dest + i) (src + i))
    match copyByte dir (dest + i) (src + i) s with
    | none => (false, s)
    | some s => copyLoop dir dest src n (i + 1) s

def userMemcpy (dir : Direction) (dest src : Nat) (n : Int) (s : Uaccess) : Ran Int :=
  let (ok, s) := copyLoop dir dest src n.toNat 0 s.enterSum
  { result := .ok (if ok then 0 else -EFAULT), state := s.exitSum }

def copyFromUser (dest src : Nat) (n : Int) (s : Uaccess) : Ran Int :=
  if accessOk src n then userMemcpy .fromUser dest src n s
  else { result := .ok (-EFAULT), state := s }

def copyToUser (dest src : Nat) (n : Int) (s : Uaccess) : Ran Int :=
  if accessOk dest n then userMemcpy .toUser dest src n s
  else { result := .ok (-EFAULT), state := s }

/-! ## strings -/

/-- the loop of strlcpy with a source in user memory, `r` bytes from the `i`-th on; `none` is a
page fault -/
def strlcpyLoop (dest src n : Nat) : Nat → Nat → Uaccess → Option Nat × Uaccess
  | 0, _, s => (some n, s.storeKernel 1 (dest + (n - 1)) 0)
  | r + 1, i, s =>
    let s := s.touch (src + i)
    match s.user (wrap (src + i)) with
    | none => (none, s)
    | some b =>
      let s := s.storeKernel 1 (dest + i) b.toNat
      if b = 0 then (some i, s) else strlcpyLoop dest src n r (i + 1) s

def userStrlcpy (dest src : Nat) (n : Int) (s : Uaccess) : Ran Int :=
  if n ≤ 0 then
    { result := panic "assertion failed: user_strlcpy: bad n", state := s }
  else if accessOk src n then
    match strlcpyLoop dest src n.toNat n.toNat 0 s.enterSum with
    | (none, s) => { result := .ok (-EFAULT), state := s.exitSum }
    | (some length, s) => { result := .ok length, state := s.exitSum }
  else { result := .ok (-EFAULT), state := s }

/-! ## user_copy_args -/

/-- the slot `i` of the array at `args` -/
def slot (user : Nat → Option UInt8) (args i : Nat) : Option Nat := loadUser user 8 (args + 8 * i)

/-- `for (argc = 0; args_ok[argc]; ++argc)`; `none` is a page fault -/
def scanArgs (args : Nat) : Nat → Nat → Uaccess → Res (Option Nat) × Uaccess
  | 0, _, s => (.error .hang, s)
  | n + 1, argc, s =>
    let s := s.touchWord (args + 8 * argc)
    match slot s.user args argc with
    | none => (.ok none, s)
    | some p => if p = 0 then (.ok (some argc), s) else scanArgs args n (argc + 1) s

/-- the loop over the strings, `n` of them from the `i`-th on; the value is 0 or the error -/
def copyStrings (args buf : Nat) : Nat → Nat → Nat → Uaccess → Res Int × Uaccess
  | 0, _, _, s => (.ok 0, s)
  | n + 1, i, off, s =>
    let s := (s.storeKernel 8 (buf + 8 * i) (buf + off)).touchWord (args + 8 * i)
    match slot s.user args i with
    | none => (.ok EFAULT, s)
    | some p =>
      if argMax ≤ off then (panic "assertion failed: strlcpy: bad n", s)
      else
        match strlcpyLoop (buf + off) p (argMax - off) (argMax - off) 0 s with
        | (none, s) => (.ok EFAULT, s)
        | (some length, s) =>
          if argMax - off ≤ length then (.ok E2BIG, s)
          else copyStrings args buf n (i + 1) (off + (length + 1)) s

/-- the `cleanup` and `ok` labels of user_copy_args -/
def finishArgs (buf argc : Nat) : Res Int × Uaccess → Ran Nat
  | (.error e, s) => { result := .error e, state := s }
  | (.ok err, s) =>
    if err = 0 then { result := .ok buf, state := (s.storeKernel 8 (buf + 8 * argc) 0).exitSum }
    else
      match s.mm.kfree buf with
      | .error e => { result := .error e, state := s }
      | .ok mm => { result := .ok (ERR_PTR err), state := { s with mm := mm }.exitSum }

def userCopyArgs (args : Nat) (s : Uaccess) : Ran Nat :=
  if accessOk args 8 then
    match s.mm.kmalloc argMax with
    | .error e => { result := .error e, state := s }
    | .ok (buf, mm) =>
      let s := { s with mm := mm }
      if buf = 0 then { result := .ok (ERR_PTR ENOMEM), state := s }
      else
        match scanArgs args wordCount 0 s.enterSum with
        | (.error e, s) => { result := .error e, state := s }
        | (.ok none, s) => finishArgs buf 0 (.ok EFAULT, s)
        | (.ok (some argc), s) =>
          let off := 8 * (argc + 1)
          if argMax < off then { result := .ok (ERR_PTR E2BIG), state := s }
          else finishArgs buf argc (copyStrings args buf argc 0 off s)
  else { result := .ok (ERR_PTR EFAULT), state := s }

end Uaccess

end FakeKernel
