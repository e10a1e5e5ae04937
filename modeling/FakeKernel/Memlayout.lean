import FakeKernel.Lib.Bytes

/-!
# Addresses, constants and results (kernel/memlayout.h, kernel/mm.h, kernel/errno.h)

Addresses are 64-bit kernel virtual addresses held in `Nat`; `0` is `NULL`.  `Res` is the result of
a kernel function: it may also never return, because it panicked or because a loop never ends.
-/

namespace FakeKernel
open Bytes

def phyBase : Nat := 0x80000000
def phySize : Nat := 128 * 1024 * 1024
def pageSize : Nat := 4096
def maxOrder : Nat := 10
def skipOrder : Nat := 8

def splitAddr : Nat := 0x3f00000000
def kernPhy : Nat := phyBase
def kernBase : Nat := splitAddr
def kernStop : Nat := kernBase + 0x40000000
def kernPhyBase : Nat := kernBase
def kernPhyStop : Nat := kernPhyBase + phySize
def mmioPhy : Nat := 0
def mmioBase : Nat := kernStop
def mmioStop : Nat := mmioBase + 0x40000000
def userStack : Nat := 0x3ef0000000
def userStackMin : Nat := 0x3ee0000000

def taskSizeMax : Nat := 128 * 1024 * 1024
def argMax : Nat := pageSize - 16

def ENOENT : Int := 2
def E2BIG : Int := 7
def ENOMEM : Int := 12
def EFAULT : Int := 14
def EINVAL : Int := 22
def ENOSYS : Int := 38

/-- the number of 64-bit values; a walk over more links than this has met one of them twice -/
def wordCount : Nat := 2 ^ 64

/-- `_PA`, in 64-bit arithmetic -/
def PA (x : Nat) : Nat := (x + wordCount - kernBase + kernPhy) % wordCount

/-- `_VA`, in 64-bit arithmetic -/
def VA (x : Nat) : Nat := (x + kernBase - kernPhy) % wordCount

/-- how a kernel function fails to return -/
inductive Stop where
  | panic (msg : String)
  | hang
deriving DecidableEq, Repr

abbrev Res := Except Stop

def panic {α : Type} (msg : String) : Res α := .error (.panic msg)

def kassert (cond : Bool) (message : String) : Res Unit :=
  if cond then .ok () else panic message

namespace Res
variable {α β : Type}

theorem bind_eq_ok {x : Res α} {f : α → Res β} {b : β} :
    (x >>= f) = .ok b ↔ ∃ a, x = .ok a ∧ f a = .ok b := by
  cases x with
  | error e => exact ⟨nofun, fun ⟨_, h, _⟩ => nomatch h⟩
  | ok a =>
    constructor
    · exact fun h => ⟨a, rfl, h⟩
    · rintro ⟨a', h, hf⟩
      cases h
      exact hf

@[simp] theorem ok_bind {a : α} {f : α → Res β} : ((.ok a : Res α) >>= f) = f a := rfl

@[simp] theorem error_bind {e : Stop} {f : α → Res β} : ((.error e : Res α) >>= f) = .error e := rfl

@[simp] theorem panic_ne_ok {msg : String} {a : α} : (panic msg : Res α) ≠ .ok a := nofun

end Res

theorem kassert_eq_ok {cond : Bool} {message : String} {u : Unit} :
    kassert cond message = .ok u ↔ cond = true := by
  cases cond with
  | false => exact ⟨nofun, nofun⟩
  | true => exact ⟨fun _ => rfl, fun _ => rfl⟩

end FakeKernel
