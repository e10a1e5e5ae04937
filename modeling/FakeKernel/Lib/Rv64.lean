import FakeKernel.Lib.Bytes
import Mathlib.Data.Fin.Basic
import Mathlib.Data.List.Nodup

/-!
# Straight-line RV64 code

* `Regs`, `Csrs`      the integer registers, and control registers of any kind, which keep only the bits they have;
* `Instr`, `exec`     loads, stores and moves between registers; `Code.run` ends in a jump;
* `Stored`, `Loaded`  what a block that saves, or restores, registers one by one leaves behind.

Register `r` lies in the word `8 * r` of the block that it is saved to.
-/

namespace Rv64
open Bytes

instance registerCount : NeZero 32 := ⟨by decide⟩

/-- the integer registers; x0 is zero -/
@[ext] structure Regs where
  val : Fin 32 → BitVec 64
  zero : val 0 = 0

namespace Regs
variable {x : Regs} {r r' : Fin 32} {v : BitVec 64}

def set (r : Fin 32) (v : BitVec 64) (x : Regs) : Regs :=
  if h : r = 0 then x
  else { val := Function.update x.val r v, zero := (Function.update_of_ne (Ne.symm h) v x.val).trans x.zero }

@[simp] theorem set_self (h : r ≠ 0) : (x.set r v).val r = v := by
  unfold set
  rw [dif_neg h]
  exact Function.update_self r v x.val

@[simp] theorem set_of_ne (h : r' ≠ r) : (x.set r v).val r' = x.val r' := by
  unfold set
  split
  · rfl
  · exact Function.update_of_ne h v x.val

end Regs

/-- the names of control registers, with the bits that each of them has -/
class ControlRegisters (C : Type*) where
  mask : C → BitVec 64

@[ext] structure Csrs (C : Type*) [ControlRegisters C] where
  val : C → BitVec 64
  masked : ∀ c, val c &&& ControlRegisters.mask c = val c

namespace Csrs
variable {C : Type*} [ControlRegisters C] [DecidableEq C] {x : Csrs C} {c c' : C} {v : BitVec 64}

def set (c : C) (v : BitVec 64) (x : Csrs C) : Csrs C where
  val := Function.update x.val c (v &&& ControlRegisters.mask c)
  masked c' := by
    by_cases h : c' = c
    · rw [h, Function.update_self, BitVec.and_assoc, BitVec.and_self]
    · rw [Function.update_of_ne h, x.masked]

theorem set_self : (x.set c v).val c = v &&& ControlRegisters.mask c := Function.update_self c _ x.val

@[simp] theorem set_of_ne (h : c' ≠ c) : (x.set c v).val c' = x.val c' := Function.update_of_ne h _ x.val

end Csrs

structure State (C : Type*) [ControlRegisters C] where
  regs : Regs
  csr : Csrs C
  mem : Mem
  pc : BitVec 64

/-- the destination stands first, but in a store -/
inductive Instr (C : Type*) where
  | sd (src : Fin 32) (off : Nat) (base : Fin 32)
  | ld (dst : Fin 32) (off : Nat) (base : Fin 32)
  /-- also la -/
  | li (dst : Fin 32) (v : BitVec 64)
  | add (dst a b : Fin 32)
  | csrw (c : C) (src : Fin 32)
  | csrr (dst : Fin 32) (c : C)

inductive Exit (C : Type*) where
  | jump (target : BitVec 64)
  | ret
  /-- mret and sret, with the register that they take the program counter from -/
  | trapRet (c : C)

variable {C : Type*} [ControlRegisters C] {s s' : State C} {b r : Fin 32} {l : List (Fin 32)} {p p' : List (Instr C)} {n x : Nat}

namespace State

def setReg (r : Fin 32) (v : BitVec 64) (s : State C) : State C := { s with regs := s.regs.set r v }

def addr (off : Nat) (base : Fin 32) (s : State C) : Nat := (s.regs.val base + BitVec.ofNat 64 off).toNat

/-- an offset that does not lead around the end of memory -/
theorem addr_eq (h : (s.regs.val b).toNat + n < 2 ^ 64) : s.addr n b = (s.regs.val b).toNat + n := by
  unfold addr
  rw [BitVec.toNat_add, BitVec.toNat_ofNat, Nat.add_mod_mod, Nat.mod_eq_of_lt h]

end State

/-! ## blocks of registers -/

def saves (b : Fin 32) (l : List (Fin 32)) : List (Instr C) := l.map fun r => .sd r (8 * r.val) b

def loads (b : Fin 32) (l : List (Fin 32)) : List (Instr C) := l.map fun r => .ld r (8 * r.val) b

/-- the registers of `l` have been saved to the block at `n` -/
structure Stored (n : Nat) (l : List (Fin 32)) (s s' : State C) : Prop where
  regs : s'.regs = s.regs
  csr : s'.csr = s.csr
  slot : ∀ r ∈ l, load 8 s'.mem (n + 8 * r.val) = (s.regs.val r).toNat
  out : ∀ x, (∀ r ∈ l, x < n + 8 * r.val ∨ n + 8 * r.val + 8 ≤ x) → s'.mem x = s.mem x

/-- the registers of `l` have been restored from the block at `n` -/
structure Loaded (n : Nat) (l : List (Fin 32)) (s s' : State C) : Prop where
  mem : s'.mem = s.mem
  csr : s'.csr = s.csr
  reg : ∀ r ∈ l, (s'.regs.val r).toNat = load 8 s.mem (n + 8 * r.val)
  other : ∀ r, r ∉ l → s'.regs.val r = s.regs.val r

/-- a word that lies beside the words of `l` -/
theorem Stored.load_out (hs : Stored n l s s') (h : ∀ r ∈ l, x + 8 ≤ n + 8 * r.val ∨ n + 8 * r.val + 8 ≤ x) :
    load 8 s'.mem x = load 8 s.mem x := by
  apply load_congr
  intro y h1 h2
  apply hs.out
  intro r hr
  have := h r hr
  omega

theorem toNat_load (m : Mem) (a : Nat) : (BitVec.ofNat 64 (load 8 m a)).toNat = load 8 m a :=
  (BitVec.toNat_ofNat _ _).trans (Nat.mod_eq_of_lt (load_lt 8 m a))

/-- what a mask without the lowest bit makes of a number -/
theorem toNat_and_not_one (v : BitVec 64) : (v &&& ~~~1#64).toNat = v.toNat / 2 * 2 := by
  have h : v &&& ~~~1#64 = v >>> 1 <<< 1 := by
    apply BitVec.eq_of_getLsbD_eq
    intro i hi
    rw [BitVec.getLsbD_and, BitVec.getLsbD_not, BitVec.getLsbD_one, BitVec.getLsbD_shiftLeft, BitVec.getLsbD_ushiftRight]
    cases i with
    | zero => simp
    | succ i => simp [hi, Nat.add_comm 1 i]
  rw [h, BitVec.toNat_shiftLeft, BitVec.toNat_ushiftRight, Nat.shiftLeft_eq, Nat.shiftRight_eq_div_pow]
  have := v.isLt
  omega

/-! ## running code -/

variable [DecidableEq C]

def Instr.exec : Instr C → State C → State C
  | .sd src off base, s => { s with mem := store 8 s.mem (s.addr off base) (s.regs.val src).toNat }
  | .ld dst off base, s => s.setReg dst (BitVec.ofNat 64 (load 8 s.mem (s.addr off base)))
  | .li dst v, s => s.setReg dst v
  | .add dst a b, s => s.setReg dst (s.regs.val a + s.regs.val b)
  | .csrw c src, s => { s with csr := s.csr.set c (s.regs.val src) }
  | .csrr dst c, s => s.setReg dst (s.csr.val c)

def exec (p : List (Instr C)) (s : State C) : State C := p.foldl (fun s i => i.exec s) s

@[simp] theorem exec_nil : exec [] s = s := rfl

@[simp] theorem exec_cons (i : Instr C) : exec (i :: p) s = exec p (i.exec s) := rfl

@[simp] theorem exec_append : exec (p ++ p') s = exec p' (exec p s) := List.foldl_append

/-- jalr clears the lowest bit -/
def Exit.target : Exit C → State C → BitVec 64
  | .jump target, _ => target
  | .ret, s => s.regs.val 1 &&& ~~~1#64
  | .trapRet c, s => s.csr.val c

structure Code (C : Type*) where
  body : List (Instr C)
  exit : Exit C

def Code.run (c : Code C) (s : State C) : State C :=
  let s := exec c.body s
  { s with pc := c.exit.target s }

/-! ## running a block -/

theorem exec_saves (hl : l.Nodup) (hn : (s.regs.val b).toNat + 256 ≤ 2 ^ 64) :
    Stored (s.regs.val b).toNat l s (exec (saves b l) s) := by
  induction l generalizing s with
  | nil => exact ⟨rfl, rfl, nofun, fun _ _ => rfl⟩
  | cons r l ih =>
    obtain ⟨hr, hl⟩ := List.nodup_cons.mp hl
    have haddr : s.addr (8 * r.val) b = (s.regs.val b).toNat + 8 * r.val := State.addr_eq (by omega)
    obtain ⟨s₁, hs₁⟩ : ∃ s₁, s₁ = (Instr.sd r (8 * r.val) b).exec s := ⟨_, rfl⟩
    have hregs : s₁.regs = s.regs := by rw [hs₁]; rfl
    have hmem : s₁.mem = store 8 s.mem ((s.regs.val b).toNat + 8 * r.val) (s.regs.val r).toNat := by
      rw [hs₁, ← haddr]
      rfl
    have ih := ih (s := s₁) hl (hregs ▸ hn)
    rw [hregs] at ih
    show Stored _ _ s (exec (saves b l) ((Instr.sd r (8 * r.val) b).exec s))
    rw [← hs₁]
    refine ⟨ih.regs.trans hregs, ih.csr.trans (by rw [hs₁]; rfl), fun r' hr' => ?_, fun x hx => ?_⟩
    · cases List.mem_cons.mp hr' with
      | inl he =>
        -- the words of the others lie beside this one
        rw [he, ih.load_out fun r'' hr'' => ?_, hmem, load_store_lt (s.regs.val r).isLt]
        have hne : r.val ≠ r''.val := fun e => hr (Fin.ext e ▸ hr'')
        omega
      | inr hin => exact (ih.slot r' hin).trans (by rw [hregs])
    · rw [ih.out x fun r' hr' => hx r' (List.mem_cons_of_mem _ hr'), hmem]
      have := hx r List.mem_cons_self
      exact store_apply_out (by omega)

theorem exec_loads (hb : b ∉ l) (h0 : 0 ∉ l) (hl : l.Nodup) (hn : (s.regs.val b).toNat + 256 ≤ 2 ^ 64) :
    Loaded (s.regs.val b).toNat l s (exec (loads b l) s) := by
  induction l generalizing s with
  | nil => exact ⟨rfl, rfl, nofun, fun _ _ => rfl⟩
  | cons r l ih =>
    obtain ⟨hr, hl⟩ := List.nodup_cons.mp hl
    have hbr : b ≠ r := fun e => hb (e ▸ List.mem_cons_self)
    have hr0 : r ≠ 0 := fun e => h0 (e ▸ List.mem_cons_self)
    have haddr : s.addr (8 * r.val) b = (s.regs.val b).toNat + 8 * r.val := State.addr_eq (by omega)
    obtain ⟨s₁, hs₁⟩ : ∃ s₁, s₁ = (Instr.ld r (8 * r.val) b).exec s := ⟨_, rfl⟩
    have hregs : s₁.regs = s.regs.set r (BitVec.ofNat 64 (load 8 s.mem ((s.regs.val b).toNat + 8 * r.val))) := by
      rw [hs₁, ← haddr]
      rfl
    have hbase : s₁.regs.val b = s.regs.val b := by rw [hregs, Regs.set_of_ne hbr]
    have hmem : s₁.mem = s.mem := by rw [hs₁]; rfl
    have ih := ih (s := s₁) (fun h => hb (List.mem_cons_of_mem _ h)) (fun h => h0 (List.mem_cons_of_mem _ h)) hl (hbase ▸ hn)
    rw [hbase] at ih
    show Loaded _ _ s (exec (loads b l) ((Instr.ld r (8 * r.val) b).exec s))
    rw [← hs₁]
    refine ⟨ih.mem.trans hmem, ih.csr.trans (by rw [hs₁]; rfl), fun r' hr' => ?_, fun r' hr' => ?_⟩
    · cases List.mem_cons.mp hr' with
      | inl he =>
        rw [he, ih.other r hr, hregs, Regs.set_self hr0, toNat_load]
      | inr hin => exact (ih.reg r' hin).trans (by rw [hmem])
    · obtain ⟨hne, hin⟩ := not_or.mp fun h => hr' (List.mem_cons.mpr h)
      rw [ih.other r' hin, hregs, Regs.set_of_ne hne]

end Rv64
