import FakeKernel.Kernel.Context
import FakeKernel.Lib.Rv64

/-!
# The assembly code (kernel/trap.S, timervec of kernel/start.S)

* `cpuAt`                     a `struct cpu` in memory;
* `trapVectorCode`, `kernelToUserCode`   entering and leaving the kernel: they do what `trapVector` and `kernelToUser` say;
* `ksetjmp`, `klongjmp`       the second return of ksetjmp;
* `timervec`                  the timer interrupt of machine mode is not seen by what it interrupts.
-/

namespace FakeKernel
open Bytes Rv64

inductive Csr where
  | sscratch
  | sepc
  | mscratch
  | mepc
  | sip
deriving DecidableEq

/-- the registers for a program counter have no lowest bit -/
instance csrRegisters : ControlRegisters Csr where
  mask
    | .sepc => ~~~1#64
    | .mepc => ~~~1#64
    | _ => BitVec.allOnes 64

@[simp] theorem set_sepc (v : BitVec 64) (x : Csrs Csr) : (x.set .sepc v).val .sepc = v &&& ~~~1#64 := Csrs.set_self

@[simp] theorem set_sscratch (v : BitVec 64) (x : Csrs Csr) : (x.set .sscratch v).val .sscratch = v :=
  Csrs.set_self.trans BitVec.and_allOnes

@[simp] theorem set_mscratch (v : BitVec 64) (x : Csrs Csr) : (x.set .mscratch v).val .mscratch = v :=
  Csrs.set_self.trans BitVec.and_allOnes

/-- `struct cpu` at the address `a` -/
def cpuAt (m : Mem) (a : Nat) : Cpu where
  registers := fun r => if r < 32 then load 8 m (a + 8 * r) else 0
  pc := load 8 m (a + 256)

/-- the registers of the hart -/
def hartCpu (s : State Csr) : Cpu where
  registers := fun r => if h : r < 32 then (s.regs.val ⟨r, h⟩).toNat else 0
  pc := s.pc.toNat

/-- what the hart was doing when it trapped to supervisor mode: sepc holds its program counter -/
def trappedCpu (s : State Csr) : Cpu := { hartCpu s with pc := (s.csr.val .sepc).toNat }

/-- sepc drops the lowest bit of a program counter -/
def Cpu.evenPc (c : Cpu) : Cpu := { c with pc := c.pc / 2 * 2 }

theorem Cpu.evenPc_of_even {c : Cpu} (h : 2 ∣ c.pc) : c.evenPc = c := by
  unfold Cpu.evenPc
  rw [Nat.div_mul_cancel h]

theorem trappedCpu_even (s : State Csr) : 2 ∣ (trappedCpu s).pc := by
  show 2 ∣ (s.csr.val .sepc).toNat
  rw [← s.csr.masked .sepc]
  show 2 ∣ (s.csr.val .sepc &&& ~~~1#64).toNat
  rw [toNat_and_not_one]
  exact Nat.dvd_mul_left _ _

/-! ## the code -/

def trapVectorCode (trapframe trapHandler : BitVec 64) : Code Csr where
  body :=
    [.csrw .sscratch 5, .li 5 trapframe,
      .sd 1 8 5, .sd 2 16 5, .sd 3 24 5, .sd 4 32 5, .sd 6 48 5, .sd 7 56 5, .sd 8 64 5, .sd 9 72 5,
      .sd 10 80 5, .sd 11 88 5, .sd 12 96 5, .sd 13 104 5, .sd 14 112 5, .sd 15 120 5, .sd 16 128 5,
      .sd 17 136 5, .sd 18 144 5, .sd 19 152 5, .sd 20 160 5, .sd 21 168 5, .sd 22 176 5, .sd 23 184 5,
      .sd 24 192 5, .sd 25 200 5, .sd 26 208 5, .sd 27 216 5, .sd 28 224 5, .sd 29 232 5, .sd 30 240 5,
      .sd 31 248 5,
      .csrr 6 .sscratch, .sd 6 40 5,
      .csrr 6 .sepc, .sd 6 256 5,
      .ld 2 264 5]
  exit := .jump trapHandler

def kernelToUserCode (trapframe : BitVec 64) : Code Csr where
  body :=
    [.li 5 trapframe, .ld 6 256 5, .csrw .sepc 6,
      .ld 6 40 5, .csrw .sscratch 6,
      .ld 1 8 5, .ld 2 16 5, .ld 3 24 5, .ld 4 32 5, .ld 6 48 5, .ld 7 56 5, .ld 8 64 5, .ld 9 72 5,
      .ld 10 80 5, .ld 11 88 5, .ld 12 96 5, .ld 13 104 5, .ld 14 112 5, .ld 15 120 5, .ld 16 128 5,
      .ld 17 136 5, .ld 18 144 5, .ld 19 152 5, .ld 20 160 5, .ld 21 168 5, .ld 22 176 5, .ld 23 184 5,
      .ld 24 192 5, .ld 25 200 5, .ld 26 208 5, .ld 27 216 5, .ld 28 224 5, .ld 29 232 5, .ld 30 240 5,
      .ld 31 248 5,
      .csrr 5 .sscratch]
  exit := .trapRet .sepc

/-- up to its first `ret` -/
def ksetjmp (lret1 : BitVec 64) : Code Csr where
  body :=
    [.sd 1 8 10, .sd 2 16 10, .sd 3 24 10, .sd 4 32 10, .sd 5 40 10, .sd 6 48 10, .sd 7 56 10, .sd 8 64 10,
      .sd 9 72 10, .sd 10 80 10, .sd 11 88 10, .sd 12 96 10, .sd 13 104 10, .sd 14 112 10, .sd 15 120 10,
      .sd 16 128 10, .sd 17 136 10, .sd 18 144 10, .sd 19 152 10, .sd 20 160 10, .sd 21 168 10,
      .sd 22 176 10, .sd 23 184 10, .sd 24 192 10, .sd 25 200 10, .sd 26 208 10, .sd 27 216 10,
      .sd 28 224 10, .sd 29 232 10, .sd 30 240 10, .sd 31 248 10,
      .li 5 lret1, .sd 5 256 10,
      .li 10 0]
  exit := .ret

/-- the code at the label .Lret1 of ksetjmp -/
def ksetjmpLret1 : Code Csr where
  body := [.ld 1 8 10, .li 10 1]
  exit := .ret

def klongjmp : Code Csr where
  body :=
    [.ld 1 256 10,
      .ld 2 16 10, .ld 3 24 10, .ld 4 32 10, .ld 5 40 10, .ld 6 48 10, .ld 7 56 10, .ld 8 64 10, .ld 9 72 10,
      .ld 11 88 10, .ld 12 96 10, .ld 13 104 10, .ld 14 112 10, .ld 15 120 10, .ld 16 128 10, .ld 17 136 10,
      .ld 18 144 10, .ld 19 152 10, .ld 20 160 10, .ld 21 168 10, .ld 22 176 10, .ld 23 184 10,
      .ld 24 192 10, .ld 25 200 10, .ld 26 208 10, .ld 27 216 10, .ld 28 224 10, .ld 29 232 10,
      .ld 30 240 10, .ld 31 248 10,
      .ld 10 80 10]
  exit := .ret

def clintMtime : Nat := 0x2000000 + 0xBFF8
def clintMtimecmp : Nat := 0x2000000 + 0x4000
def timerInterval : Nat := 1000000

def timervec (timerscratch : BitVec 64) : Code Csr where
  body :=
    [.csrw .mscratch 5, .li 5 timerscratch, .sd 6 8 5, .csrr 6 .mscratch, .sd 6 0 5,
      .li 5 (BitVec.ofNat 64 clintMtime), .ld 5 0 5, .li 6 (BitVec.ofNat 64 timerInterval), .add 6 6 5,
      .li 5 (BitVec.ofNat 64 clintMtimecmp), .sd 6 0 5,
      .li 5 2, .csrw .sip 5,
      .li 5 timerscratch, .ld 6 8 5, .ld 5 0 5]
  exit := .trapRet .mepc

/-! ## entering the kernel -/

variable {s s₁ s₂ : State Csr} {tf th lret1 ts : BitVec 64} {x r : Nat}

/-- the registers that are moved one by one; t0 holds the address of the frame -/
def movedFin : List (Fin 32) :=
  [1, 2, 3, 4, 6, 7, 8, 9, 10, 11, 12, 13, 14, 15, 16, 17, 18, 19, 20, 21, 22, 23, 24, 25, 26, 27, 28, 29, 30, 31]

theorem mem_movedFin {r : Fin 32} : r ∈ movedFin ↔ r ≠ 0 ∧ r ≠ 5 := by
  revert r
  decide

theorem trapVectorCode_body (tf th : BitVec 64) : (trapVectorCode tf th).body =
    [.csrw .sscratch 5, .li 5 tf] ++ saves 5 movedFin ++
      [.csrr 6 .sscratch, .sd 6 40 5, .csrr 6 .sepc, .sd 6 256 5, .ld 2 264 5] := rfl

theorem kernelToUserCode_body (tf : BitVec 64) : (kernelToUserCode tf).body =
    [.li 5 tf, .ld 6 256 5, .csrw .sepc 6, .ld 6 40 5, .csrw .sscratch 6] ++ loads 5 movedFin ++ [.csrr 5 .sscratch] := rfl

/-- what trap_vector leaves behind: the trapframe, the stack of the kernel, and nothing else -/
structure Entered (tf th : BitVec 64) (s s' : State Csr) : Prop where
  frame : cpuAt s'.mem tf.toNat = trapVector (trappedCpu s) (cpuAt s.mem tf.toNat)
  out : ∀ x, x < tf.toNat + 8 ∨ tf.toNat + 264 ≤ x → s'.mem x = s.mem x
  sp : (s'.regs.val 2).toNat = load 8 s.mem (tf.toNat + 264)
  pc : s'.pc = th

/-- what _kernel_to_user leaves behind; sepc drops the lowest bit of an odd program counter, `kernelToUser` keeps it -/
structure Left (tf : BitVec 64) (s s' : State Csr) : Prop where
  cpu : hartCpu s' = kernelToUser (cpuAt s.mem tf.toNat).evenPc
  mem : s'.mem = s.mem

theorem hartCpu_reg (s : State Csr) (r : Fin 32) : (hartCpu s).registers r.val = (s.regs.val r).toNat := by
  show (if h : r.val < 32 then (s.regs.val ⟨r.val, h⟩).toNat else 0) = _
  rw [dif_pos r.isLt]

theorem cpuAt_reg (m : Mem) (a : Nat) (r : Fin 32) : (cpuAt m a).registers r.val = load 8 m (a + 8 * r.val) := if_pos r.isLt

/-- two sets of registers agree if they do on the 32 that there are -/
theorem Cpu.ext_fin {c c' : Cpu} (hreg : ∀ r : Fin 32, c'.registers r.val = c.registers r.val)
    (hout : ∀ r, 32 ≤ r → c'.registers r = c.registers r) (hpc : c'.pc = c.pc) : c' = c := by
  have hregs : c'.registers = c.registers := by
    funext r
    by_cases h : r < 32
    · exact hreg ⟨r, h⟩
    · exact hout r (Nat.le_of_not_lt h)
  cases c
  cases c'
  simp only at hregs hpc
  rw [hregs, hpc]

theorem moveRegisters_zero (src dest : Nat → Nat) : moveRegisters src dest 0 = dest 0 := by
  unfold moveRegisters
  rw [Function.update_of_ne (by decide), foldl_update, if_neg (by decide)]

theorem moveRegisters_out (src dest : Nat → Nat) (h : 32 ≤ r) : moveRegisters src dest r = dest r := by
  have hin : r ∉ movedRegisters := by
    simp only [movedRegisters, List.mem_cons, List.not_mem_nil, or_false]
    omega
  have h5 : r ≠ REG_T0 := by
    unfold REG_T0
    omega
  unfold moveRegisters
  rw [Function.update_of_ne h5, foldl_update, if_neg hin]

theorem trapVectorCode_enters (htf : tf.toNat + 272 ≤ 2 ^ 64) : Entered tf th s ((trapVectorCode tf th).run s) := by
  obtain ⟨s₁, hs₁⟩ : ∃ s₁, s₁ = exec [.csrw .sscratch 5, .li 5 tf] s := ⟨_, rfl⟩
  have hregs₁ : s₁.regs = s.regs.set 5 tf := by rw [hs₁]; rfl
  have hcsr₁ : s₁.csr = s.csr.set .sscratch (s.regs.val 5) := by rw [hs₁]; rfl
  have hmem₁ : s₁.mem = s.mem := by rw [hs₁]; rfl
  have hbase : s₁.regs.val 5 = tf := by rw [hregs₁, Regs.set_self (by decide)]
  have hst : Stored tf.toNat movedFin s₁ (exec (saves 5 movedFin) s₁) := by
    have h := exec_saves (s := s₁) (b := 5) (l := movedFin) (by decide) (by rw [hbase]; omega)
    rw [hbase] at h
    exact h
  obtain ⟨s₂, hs₂⟩ : ∃ s₂, s₂ = exec (saves 5 movedFin) s₁ := ⟨_, rfl⟩
  rw [← hs₂] at hst
  have hbase₂ : s₂.regs.val 5 = tf := by rw [hst.regs, hbase]
  have ht0 : s₂.csr.val .sscratch = s.regs.val 5 := by rw [hst.csr, hcsr₁, set_sscratch]
  have hsepc : s₂.csr.val .sepc = s.csr.val .sepc := by rw [hst.csr, hcsr₁, Csrs.set_of_ne (by decide)]
  have hreg₁ : ∀ r : Fin 32, r ≠ 5 → s₁.regs.val r = s.regs.val r := fun r hr => by rw [hregs₁, Regs.set_of_ne hr]
  obtain ⟨s₃, hs₃⟩ : ∃ s₃, s₃ = exec [.csrr 6 .sscratch, .sd 6 40 5, .csrr 6 .sepc, .sd 6 256 5, .ld 2 264 5] s₂ := ⟨_, rfl⟩
  have hmem₃ : s₃.mem = store 8 (store 8 s₂.mem (tf.toNat + 40) (s.regs.val 5).toNat) (tf.toNat + 256) (s.csr.val .sepc).toNat := by
    have h40 : (tf.toNat + 40) % 2 ^ 64 = tf.toNat + 40 := Nat.mod_eq_of_lt (by omega)
    have h256 : (tf.toNat + 256) % 2 ^ 64 = tf.toNat + 256 := Nat.mod_eq_of_lt (by omega)
    simp only [Nat.reducePow] at h40 h256
    simp [hs₃, Instr.exec, State.setReg, State.addr, hbase₂, h40, h256, ht0, hsepc]
  have hsp : s₃.regs.val 2 = BitVec.ofNat 64 (load 8 s₃.mem (tf.toNat + 264)) := by
    have h264 : (tf.toNat + 264) % 2 ^ 64 = tf.toNat + 264 := Nat.mod_eq_of_lt (by omega)
    simp only [Nat.reducePow] at h264
    simp [hs₃, Instr.exec, State.setReg, State.addr, hbase₂, h264]
  have hrun : (trapVectorCode tf th).run s = { s₃ with pc := th } := by
    unfold Code.run
    rw [trapVectorCode_body, exec_append, exec_append, ← hs₁, ← hs₂, ← hs₃]
    rfl
  -- the words of the registers that were saved in the block
  have hslot : ∀ r ∈ movedFin, load 8 s₃.mem (tf.toNat + 8 * r.val) = (s.regs.val r).toNat := by
    intro r hr
    have h5 : r ≠ 5 := (mem_movedFin.mp hr).2
    have h5' : r.val ≠ 5 := fun e => h5 (Fin.ext e)
    rw [hmem₃, load_store_disj (by omega), load_store_disj (by omega), hst.slot r hr, hreg₁ r h5]
  have hbeside : ∀ y, (∀ r : Fin 32, r ≠ 0 → y < tf.toNat + 8 * r.val ∨ tf.toNat + 8 * r.val + 8 ≤ y) →
      (y < tf.toNat + 256 ∨ tf.toNat + 264 ≤ y) → s₃.mem y = s.mem y := by
    intro y hy h256
    have h5 := hy 5 (by decide)
    rw [hmem₃, store_apply_out (by omega), store_apply_out (by omega), hst.out y fun r hr => hy r (mem_movedFin.mp hr).1, hmem₁]
  have hlow : ∀ y, y < tf.toNat + 8 ∨ tf.toNat + 264 ≤ y → s₃.mem y = s.mem y := by
    intro y hy
    apply hbeside y
    · intro r hr
      have hr0 : r.val ≠ 0 := fun e => hr (Fin.ext e)
      omega
    · omega
  rw [hrun]
  refine ⟨Cpu.ext_fin (fun r => ?_) (fun r hr => ?_) ?_, hlow, ?_, rfl⟩
  · show (cpuAt s₃.mem tf.toNat).registers r.val = moveRegisters (hartCpu s).registers (cpuAt s.mem tf.toNat).registers r.val
    rw [cpuAt_reg]
    by_cases h0 : r = 0
    · rw [h0]
      show load 8 s₃.mem (tf.toNat + 8 * 0) = moveRegisters _ _ 0
      rw [moveRegisters_zero]
      show _ = load 8 s.mem (tf.toNat + 8 * 0)
      apply load_congr
      intro y _ hy
      exact hlow y (by omega)
    · have h1 : 1 ≤ r.val := Nat.pos_of_ne_zero fun e => h0 (Fin.ext e)
      rw [moveRegisters_apply _ _ h1 (by omega), hartCpu_reg]
      by_cases h5 : r = 5
      · rw [h5, hmem₃]
        show load 8 _ (tf.toNat + 40) = _
        rw [load_store_disj (by omega), load_store_lt (s.regs.val 5).isLt]
      · exact hslot r (mem_movedFin.mpr ⟨h0, h5⟩)
  · show (cpuAt s₃.mem tf.toNat).registers r = moveRegisters (hartCpu s).registers (cpuAt s.mem tf.toNat).registers r
    rw [moveRegisters_out _ _ hr]
    show (if r < 32 then _ else 0) = (if r < 32 then _ else 0)
    rw [if_neg (Nat.not_lt.mpr hr), if_neg (Nat.not_lt.mpr hr)]
  · show load 8 s₃.mem (tf.toNat + 256) = (s.csr.val .sepc).toNat
    rw [hmem₃, load_store_lt (s.csr.val .sepc).isLt]
  · show (s₃.regs.val 2).toNat = _
    rw [hsp, toNat_load]
    apply load_congr
    intro y hy _
    exact hlow y (.inr (by omega))

/-! ## leaving the kernel -/

theorem kernelToUserCode_leaves (htf : tf.toNat + 264 ≤ 2 ^ 64) : Left tf s ((kernelToUserCode tf).run s) := by
  obtain ⟨s₁, hs₁⟩ : ∃ s₁, s₁ = exec [.li 5 tf, .ld 6 256 5, .csrw .sepc 6, .ld 6 40 5, .csrw .sscratch 6] s := ⟨_, rfl⟩
  have h40 : (tf.toNat + 40) % 2 ^ 64 = tf.toNat + 40 := Nat.mod_eq_of_lt (by omega)
  have h256 : (tf.toNat + 256) % 2 ^ 64 = tf.toNat + 256 := Nat.mod_eq_of_lt (by omega)
  simp only [Nat.reducePow] at h40 h256
  have hbase : s₁.regs.val 5 = tf := by simp [hs₁, Instr.exec, State.setReg]
  have hmem₁ : s₁.mem = s.mem := by rw [hs₁]; rfl
  have hsepc : s₁.csr.val .sepc = BitVec.ofNat 64 (load 8 s.mem (tf.toNat + 256)) &&& ~~~1#64 := by
    have hset : s₁.csr.val .sepc = (Csrs.set .sepc (BitVec.ofNat 64 (load 8 s.mem (tf.toNat + 256))) s.csr).val .sepc := by
      simp [hs₁, Instr.exec, State.setReg, State.addr, h256]
    exact hset.trans (set_sepc _ _)
  have hscratch : s₁.csr.val .sscratch = BitVec.ofNat 64 (load 8 s.mem (tf.toNat + 40)) := by
    simp [hs₁, Instr.exec, State.setReg, State.addr, h40]
  have hld : Loaded tf.toNat movedFin s₁ (exec (loads 5 movedFin) s₁) := by
    have h := exec_loads (s := s₁) (b := 5) (l := movedFin) (by decide) (by decide) (by decide) (by rw [hbase]; omega)
    rw [hbase] at h
    exact h
  obtain ⟨s₂, hs₂⟩ : ∃ s₂, s₂ = exec (loads 5 movedFin) s₁ := ⟨_, rfl⟩
  rw [← hs₂] at hld
  obtain ⟨s₃, hs₃⟩ : ∃ s₃, s₃ = exec [.csrr 5 .sscratch] s₂ := ⟨_, rfl⟩
  have hregs₃ : s₃.regs = s₂.regs.set 5 (s₂.csr.val .sscratch) := by rw [hs₃]; rfl
  have hcsr₃ : s₃.csr = s₁.csr := by
    rw [← hld.csr, hs₃]
    rfl
  have hrun : (kernelToUserCode tf).run s = { s₃ with pc := s₃.csr.val .sepc } := by
    unfold Code.run
    rw [kernelToUserCode_body, exec_append, exec_append, ← hs₁, ← hs₂, ← hs₃]
    rfl
  rw [hrun]
  refine ⟨Cpu.ext_fin (fun r => ?_) (fun r hr => ?_) ?_, ?_⟩
  · rw [hartCpu_reg]
    show (s₃.regs.val r).toNat = moveRegisters (cpuAt s.mem tf.toNat).registers (fun _ => 0) r.val
    by_cases h0 : r = 0
    · rw [h0, s₃.regs.zero]
      show 0 = moveRegisters _ (fun _ => 0) 0
      rw [moveRegisters_zero]
    · have h1 : 1 ≤ r.val := Nat.pos_of_ne_zero fun e => h0 (Fin.ext e)
      rw [moveRegisters_apply _ _ h1 (by omega), cpuAt_reg]
      by_cases h5 : r = 5
      · rw [h5, hregs₃, Regs.set_self (by decide), hld.csr, hscratch]
        exact toNat_load _ _
      · rw [hregs₃, Regs.set_of_ne h5, hld.reg r (mem_movedFin.mpr ⟨h0, h5⟩), hmem₁]
  · show (if h : r < 32 then _ else 0) = moveRegisters _ (fun _ => 0) r
    rw [dif_neg (Nat.not_lt.mpr hr), moveRegisters_out _ _ hr]
  · show (s₃.csr.val .sepc).toNat = load 8 s.mem (tf.toNat + 256) / 2 * 2
    rw [hcsr₃, hsepc, toNat_and_not_one, toNat_load]
  · show s₃.mem = s.mem
    rw [← hmem₁, ← hld.mem, hs₃]
    rfl

/-! ## ksetjmp -/

/-- the registers that klongjmp moves one by one; a0 holds the address of the buffer -/
def jumpFin : List (Fin 32) :=
  [2, 3, 4, 5, 6, 7, 8, 9, 11, 12, 13, 14, 15, 16, 17, 18, 19, 20, 21, 22, 23, 24, 25, 26, 27, 28, 29, 30, 31]

theorem mem_jumpFin {r : Fin 32} : r ∈ jumpFin ↔ r ≠ 0 ∧ r ≠ 1 ∧ r ≠ 10 := by
  revert r
  decide

/-- all registers but x0 -/
def savedFin : List (Fin 32) := [1, 2, 3, 4, 5, 6, 7, 8, 9, 10, 11, 12, 13, 14, 15, 16, 17, 18, 19, 20, 21, 22, 23, 24, 25, 26, 27,
  28, 29, 30, 31]

theorem mem_savedFin {r : Fin 32} : r ∈ savedFin ↔ r ≠ 0 := by
  revert r
  decide

theorem ksetjmp_body (lret1 : BitVec 64) : (ksetjmp lret1).body =
    saves 10 savedFin ++ [.li 5 lret1, .sd 5 256 10, .li 10 0] := rfl

theorem klongjmp_body : klongjmp.body = [.ld 1 256 10] ++ loads 10 jumpFin ++ [.ld 10 80 10] := rfl

/-- the first return of ksetjmp; t0 is lost -/
structure SetJmp (lret1 : BitVec 64) (s s' : State Csr) : Prop where
  a0 : s'.regs.val 10 = 0
  pc : s'.pc = Exit.target .ret s
  regs : ∀ r, r ≠ 5 → r ≠ 10 → s'.regs.val r = s.regs.val r
  csr : s'.csr = s.csr
  slot : ∀ r : Fin 32, r ≠ 0 → load 8 s'.mem ((s.regs.val 10).toNat + 8 * r.val) = (s.regs.val r).toNat
  again : load 8 s'.mem ((s.regs.val 10).toNat + 256) = lret1.toNat
  out : ∀ x, x < (s.regs.val 10).toNat + 8 ∨ (s.regs.val 10).toNat + 264 ≤ x → s'.mem x = s.mem x

theorem ksetjmp_returns (hfits : (s.regs.val 10).toNat + 264 ≤ 2 ^ 64) : SetJmp lret1 s ((ksetjmp lret1).run s) := by
  have hst := exec_saves (s := s) (b := 10) (l := savedFin) (by decide) (by omega)
  obtain ⟨s₁, hs₁⟩ : ∃ s₁, s₁ = exec (saves 10 savedFin) s := ⟨_, rfl⟩
  rw [← hs₁] at hst
  obtain ⟨s₂, hs₂⟩ : ∃ s₂, s₂ = exec [.li 5 lret1, .sd 5 256 10, .li 10 0] s₁ := ⟨_, rfl⟩
  have h256 : ((s.regs.val 10).toNat + 256) % 2 ^ 64 = (s.regs.val 10).toNat + 256 := Nat.mod_eq_of_lt (by omega)
  simp only [Nat.reducePow] at h256
  have hregs₂ : s₂.regs = (s.regs.set 5 lret1).set 10 0 := by
    rw [← hst.regs, hs₂]
    rfl
  have hmem₂ : s₂.mem = store 8 s₁.mem ((s.regs.val 10).toNat + 256) lret1.toNat := by
    simp [hs₂, Instr.exec, State.setReg, State.addr, hst.regs, h256]
  have hrun : (ksetjmp lret1).run s = { s₂ with pc := Exit.target .ret s₂ } := by
    unfold Code.run
    rw [ksetjmp_body, exec_append, ← hs₁, ← hs₂]
    rfl
  have hother : ∀ r, r ≠ 5 → r ≠ 10 → s₂.regs.val r = s.regs.val r := fun r h5 h10 => by
    rw [hregs₂, Regs.set_of_ne h10, Regs.set_of_ne h5]
  rw [hrun]
  refine ⟨?_, ?_, hother, ?_, fun r hr => ?_, ?_, fun x hx => ?_⟩
  · show s₂.regs.val 10 = 0
    rw [hregs₂, Regs.set_self (by decide)]
  · show s₂.regs.val 1 &&& _ = s.regs.val 1 &&& _
    rw [hother 1 (by decide) (by decide)]
  · show s₂.csr = s.csr
    rw [← hst.csr, hs₂]
    rfl
  · show load 8 s₂.mem _ = _
    rw [hmem₂, load_store_disj (by omega), hst.slot r (mem_savedFin.mpr hr)]
  · show load 8 s₂.mem _ = _
    rw [hmem₂, load_store_lt lret1.isLt]
  · show s₂.mem x = s.mem x
    rw [hmem₂, store_apply_out (by omega)]
    apply hst.out
    intro r hr
    have hr0 : r.val ≠ 0 := fun e => mem_savedFin.mp hr (Fin.ext e)
    omega

/-- klongjmp moves what a buffer holds to the registers; it comes out where the last word says, and ra is lost -/
structure Jumped (s s' : State Csr) : Prop where
  pc : s'.pc = BitVec.ofNat 64 (load 8 s.mem ((s.regs.val 10).toNat + 256)) &&& ~~~1#64
  regs : ∀ r, r ≠ 0 → r ≠ 1 → s'.regs.val r = BitVec.ofNat 64 (load 8 s.mem ((s.regs.val 10).toNat + 8 * r.val))
  csr : s'.csr = s.csr
  mem : s'.mem = s.mem

theorem klongjmp_jumps (hfits : (s.regs.val 10).toNat + 264 ≤ 2 ^ 64) : Jumped s (klongjmp.run s) := by
  have h256 : ((s.regs.val 10).toNat + 256) % 2 ^ 64 = (s.regs.val 10).toNat + 256 := Nat.mod_eq_of_lt (by omega)
  have h80 : ((s.regs.val 10).toNat + 80) % 2 ^ 64 = (s.regs.val 10).toNat + 80 := Nat.mod_eq_of_lt (by omega)
  simp only [Nat.reducePow] at h256 h80
  obtain ⟨s₁, hs₁⟩ : ∃ s₁, s₁ = exec [.ld 1 256 10] s := ⟨_, rfl⟩
  have hmem₁ : s₁.mem = s.mem := by rw [hs₁]; rfl
  have hcsr₁ : s₁.csr = s.csr := by rw [hs₁]; rfl
  have hregs₁ : s₁.regs = s.regs.set 1 (BitVec.ofNat 64 (load 8 s.mem ((s.regs.val 10).toNat + 256))) := by
    simp [hs₁, Instr.exec, State.setReg, State.addr, h256]
  have hbase₁ : s₁.regs.val 10 = s.regs.val 10 := by rw [hregs₁, Regs.set_of_ne (by decide)]
  have hld : Loaded (s.regs.val 10).toNat jumpFin s₁ (exec (loads 10 jumpFin) s₁) := by
    have h := exec_loads (s := s₁) (b := 10) (l := jumpFin) (by decide) (by decide) (by decide) (by rw [hbase₁]; omega)
    rw [hbase₁] at h
    exact h
  obtain ⟨s₂, hs₂⟩ : ∃ s₂, s₂ = exec (loads 10 jumpFin) s₁ := ⟨_, rfl⟩
  rw [← hs₂] at hld
  have hbase₂ : s₂.regs.val 10 = s.regs.val 10 := (hld.other 10 (by decide)).trans hbase₁
  obtain ⟨s₃, hs₃⟩ : ∃ s₃, s₃ = exec [.ld 10 80 10] s₂ := ⟨_, rfl⟩
  have hregs₃ : s₃.regs = s₂.regs.set 10 (BitVec.ofNat 64 (load 8 s.mem ((s.regs.val 10).toNat + 80))) := by
    simp [hs₃, Instr.exec, State.setReg, State.addr, hbase₂, h80, hld.mem, hmem₁]
  have hrun : klongjmp.run s = { s₃ with pc := Exit.target .ret s₃ } := by
    unfold Code.run
    rw [klongjmp_body, exec_append, exec_append, ← hs₁, ← hs₂, ← hs₃]
    rfl
  rw [hrun]
  refine ⟨?_, fun r h0 h1 => ?_, ?_, ?_⟩
  · show s₃.regs.val 1 &&& _ = _
    rw [hregs₃, Regs.set_of_ne (by decide), hld.other 1 (by decide), hregs₁, Regs.set_self (by decide)]
  · show s₃.regs.val r = _
    by_cases h10 : r = 10
    · rw [h10, hregs₃, Regs.set_self (by decide)]
      rfl
    · apply BitVec.eq_of_toNat_eq
      rw [hregs₃, Regs.set_of_ne h10, hld.reg r (mem_jumpFin.mpr ⟨h0, h1, h10⟩), hmem₁, toNat_load]
  · show s₃.csr = s.csr
    rw [← hcsr₁, ← hld.csr, hs₃]
    rfl
  · show s₃.mem = s.mem
    rw [← hmem₁, ← hld.mem, hs₃]
    rfl

/-- klongjmp, and then the code behind .Lret1 -/
structure LongJmp (s s₂ s' : State Csr) : Prop where
  a0 : s'.regs.val 10 = 1
  pc : s'.pc = Exit.target .ret s
  regs : ∀ r, r ≠ 10 → s'.regs.val r = s.regs.val r
  csr : s'.csr = s₂.csr
  mem : s'.mem = s₂.mem

/-- a buffer that ksetjmp has filled, and that nobody has written since -/
structure Buffered (s s₁ s₂ : State Csr) : Prop where
  a0 : s₂.regs.val 10 = s.regs.val 10
  mem : ∀ x, (s.regs.val 10).toNat ≤ x → x < (s.regs.val 10).toNat + 264 → s₂.mem x = s₁.mem x

theorem Buffered.word (hb : Buffered s s₁ s₂) {i : Nat} (hi : i + 8 ≤ 264) :
    load 8 s₂.mem ((s₂.regs.val 10).toNat + i) = load 8 s₁.mem ((s.regs.val 10).toNat + i) := by
  rw [hb.a0]
  apply load_congr
  intro x h1 h2
  exact hb.mem x (by omega) (by omega)

theorem klongjmp_returns (hfits : (s.regs.val 10).toNat + 264 ≤ 2 ^ 64) (hs : SetJmp lret1 s s₁) (hb : Buffered s s₁ s₂) :
    (klongjmp.run s₂).pc = lret1 &&& ~~~1#64 ∧ LongJmp s s₂ (ksetjmpLret1.run (klongjmp.run s₂)) := by
  have hj : Jumped s₂ (klongjmp.run s₂) := klongjmp_jumps (by rw [hb.a0]; exact hfits)
  obtain ⟨s₃, hs₃⟩ : ∃ s₃, s₃ = klongjmp.run s₂ := ⟨_, rfl⟩
  rw [← hs₃] at hj ⊢
  -- the buffer holds the registers of the call
  have hregs : ∀ r, r ≠ 1 → s₃.regs.val r = s.regs.val r := by
    intro r h1
    by_cases h0 : r = 0
    · rw [h0, s₃.regs.zero, s.regs.zero]
    · rw [hj.regs r h0 h1, hb.word (by omega), hs.slot r h0, BitVec.ofNat_toNat, BitVec.setWidth_eq]
  have h8 : ((s.regs.val 10).toNat + 8) % 2 ^ 64 = (s.regs.val 10).toNat + 8 := Nat.mod_eq_of_lt (by omega)
  simp only [Nat.reducePow] at h8
  have hra : BitVec.ofNat 64 (load 8 s₃.mem ((s.regs.val 10).toNat + 8)) = s.regs.val 1 := by
    have hslot : load 8 s₁.mem ((s.regs.val 10).toNat + 8) = (s.regs.val 1).toNat := hs.slot 1 (by decide)
    rw [hj.mem, ← hb.a0, hb.word (by omega), hslot, BitVec.ofNat_toNat, BitVec.setWidth_eq]
  have hregs₄ : (ksetjmpLret1.run s₃).regs = (s₃.regs.set 1 (s.regs.val 1)).set 10 1 := by
    simp [Code.run, ksetjmpLret1, Instr.exec, State.setReg, State.addr, hregs 10 (by decide), h8, hra]
  have hother : ∀ r, r ≠ 10 → (ksetjmpLret1.run s₃).regs.val r = s.regs.val r := by
    intro r h10
    rw [hregs₄, Regs.set_of_ne h10]
    by_cases h1 : r = 1
    · rw [h1, Regs.set_self (by decide)]
    · rw [Regs.set_of_ne h1, hregs r h1]
  refine ⟨?_, ?_, ?_, hother, hj.csr, hj.mem⟩
  · rw [hj.pc, hb.word (by omega), hs.again, BitVec.ofNat_toNat, BitVec.setWidth_eq]
  · rw [hregs₄, Regs.set_self (by decide)]
  · show (ksetjmpLret1.run s₃).regs.val 1 &&& _ = s.regs.val 1 &&& _
    rw [hother 1 (by decide)]

/-- **ksetjmp returns twice.**  The first time it returns 0.  Whoever calls klongjmp with that buffer later, in whatever state of the
registers and of other memory, gets behind the same call, where it returns 1: with the registers, and so the stack, of the call. -/
theorem ksetjmp_returns_twice (hfits : (s.regs.val 10).toNat + 264 ≤ 2 ^ 64) (heven : lret1 &&& ~~~1#64 = lret1) :
    SetJmp lret1 s ((ksetjmp lret1).run s) ∧ ∀ s₂, Buffered s ((ksetjmp lret1).run s) s₂ →
      (klongjmp.run s₂).pc = lret1 ∧ LongJmp s s₂ (ksetjmpLret1.run (klongjmp.run s₂)) := by
  have hs : SetJmp lret1 s ((ksetjmp lret1).run s) := ksetjmp_returns hfits
  refine ⟨hs, fun s₂ hb => ?_⟩
  obtain ⟨hpc, hl⟩ := klongjmp_returns hfits hs hb
  exact ⟨hpc.trans heven, hl⟩

/-- every register holds another number; a0 is the address of a buffer -/
def numberedHart : State Csr where
  regs := { val := fun r => 4096 * BitVec.ofNat 64 r.val, zero := rfl }
  csr :=
    { val := fun c => match c with
        | .sscratch => 0x40
        | .sepc => 0x10004
        | .mscratch => 0x50
        | .mepc => 0x20008
        | .sip => 0
      masked := fun c => by cases c <;> decide }
  mem := fun x => UInt8.ofNat x
  pc := 0x10006

/-- klongjmp is called with the stack of another function, and other numbers in all registers but a0 -/
theorem ksetjmp_returns_twice_numbered : ∃ s₁ s₂ : State Csr, s₁ = (ksetjmp 64).run numberedHart ∧ s₁.regs.val 10 = 0 ∧
    (∀ r, r ≠ 0 → r ≠ 10 → s₂.regs.val r ≠ numberedHart.regs.val r) ∧ (klongjmp.run s₂).pc = 64 ∧
    LongJmp numberedHart s₂ (ksetjmpLret1.run (klongjmp.run s₂)) := by
  have ht : SetJmp 64 numberedHart ((ksetjmp 64).run numberedHart) ∧ _ := ksetjmp_returns_twice (by decide) (by decide)
  obtain ⟨hs, hl⟩ := ht
  obtain ⟨s₂, hs₂⟩ : ∃ s₂ : State Csr, s₂ = { (ksetjmp 64).run numberedHart with
      regs := { val := fun r => if r = 0 then 0 else if r = 10 then 0xa000 else 7, zero := rfl } } := ⟨_, rfl⟩
  have hb : Buffered numberedHart ((ksetjmp 64).run numberedHart) s₂ := by
    rw [hs₂]
    exact ⟨rfl, fun _ _ _ => rfl⟩
  refine ⟨_, s₂, rfl, hs.a0, fun r h0 h10 => ?_, hl s₂ hb⟩
  have hr : s₂.regs.val r = 7 := by
    rw [hs₂]
    show (if r = 0 then _ else if r = 10 then _ else _) = _
    rw [if_neg h0, if_neg h10]
  have hne : ∀ r : Fin 32, 7 ≠ numberedHart.regs.val r := by decide
  rw [hr]
  exact hne r

/-! ## traps -/

/-- trap_vector and _kernel_to_user do what the model says of them -/
structure TrapCode (tf th : BitVec 64) (s : State Csr) : Prop where
  entered : Entered tf th s ((trapVectorCode tf th).run s)
  left : ∀ s₂, Left tf s₂ ((kernelToUserCode tf).run s₂)
  left_even : ∀ s₂, 2 ∣ (cpuAt s₂.mem tf.toNat).pc → hartCpu ((kernelToUserCode tf).run s₂) = kernelToUser (cpuAt s₂.mem tf.toNat)
  /-- if the frame has not been written meanwhile, the hart is where it was -/
  again : ∀ s₂, (∀ x, tf.toNat ≤ x → x < tf.toNat + 264 → s₂.mem x = ((trapVectorCode tf th).run s).mem x) →
    hartCpu ((kernelToUserCode tf).run s₂) = trappedCpu s

theorem cpuAt_congr {m m' : Mem} {a : Nat} (h : ∀ x, a ≤ x → x < a + 264 → m' x = m x) : cpuAt m' a = cpuAt m a := by
  apply Cpu.ext_fin
  · intro r
    rw [cpuAt_reg, cpuAt_reg]
    exact load_congr fun x h1 h2 => h x (by omega) (by omega)
  · intro r hr
    show (if r < 32 then _ else 0) = (if r < 32 then _ else 0)
    rw [if_neg (Nat.not_lt.mpr hr), if_neg (Nat.not_lt.mpr hr)]
  · exact load_congr fun x h1 h2 => h x (by omega) (by omega)

/-- the registers survive a trap and the return from it -/
theorem kernelToUser_trapVector (s : State Csr) (frame : Cpu) : kernelToUser (trapVector (trappedCpu s) frame) = trappedCpu s := by
  apply Cpu.ext_fin
  · intro r
    show moveRegisters (moveRegisters (hartCpu s).registers frame.registers) (fun _ => 0) r.val = (hartCpu s).registers r.val
    by_cases h0 : r = 0
    · rw [hartCpu_reg, h0, s.regs.zero]
      exact moveRegisters_zero _ _
    · have h1 : 1 ≤ r.val := Nat.pos_of_ne_zero fun e => h0 (Fin.ext e)
      rw [moveRegisters_apply _ _ h1 (by omega), moveRegisters_apply _ _ h1 (by omega)]
  · intro r hr
    show moveRegisters _ (fun _ => 0) r = (if h : r < 32 then _ else 0)
    rw [moveRegisters_out _ _ hr, dif_neg (Nat.not_lt.mpr hr)]
  · rfl

/-- **Traps.**  trap_vector fills the trapframe as `trapVector` says, whatever the registers hold, and _kernel_to_user loads it as
`kernelToUser` says, for every even program counter; one after the other, they give back all registers and the program counter. -/
theorem trap_code_refined (htf : tf.toNat + 272 ≤ 2 ^ 64) : TrapCode tf th s where
  entered := trapVectorCode_enters htf
  left s₂ := kernelToUserCode_leaves (by omega)
  left_even s₂ heven := by
    have hout : Left tf s₂ ((kernelToUserCode tf).run s₂) := kernelToUserCode_leaves (by omega)
    rw [hout.cpu, Cpu.evenPc_of_even heven]
  again s₂ hmem := by
    have hin : Entered tf th s ((trapVectorCode tf th).run s) := trapVectorCode_enters htf
    have hout : Left tf s₂ ((kernelToUserCode tf).run s₂) := kernelToUserCode_leaves (by omega)
    have heven : 2 ∣ (trapVector (trappedCpu s) (cpuAt s.mem tf.toNat)).pc := trappedCpu_even s
    rw [hout.cpu, cpuAt_congr hmem, hin.frame, Cpu.evenPc_of_even heven]
    exact kernelToUser_trapVector _ _

/-- the word of t0 in the frame is 0x5000, that of the program counter is sepc -/
theorem trap_code_refined_numbered : TrapCode 0x3f00001000 0x3f00002000 numberedHart ∧
    load 8 ((trapVectorCode 0x3f00001000 0x3f00002000).run numberedHart).mem 0x3f00001028 = 0x5000 ∧
    load 8 ((trapVectorCode 0x3f00001000 0x3f00002000).run numberedHart).mem 0x3f00001100 = 0x10004 := by
  have ht : TrapCode 0x3f00001000 0x3f00002000 numberedHart := trap_code_refined (by decide)
  have h5 : (trapVector (trappedCpu numberedHart) (cpuAt numberedHart.mem 0x3f00001000)).registers 5 = 0x5000 := rfl
  refine ⟨ht, (congrFun (congrArg Cpu.registers ht.entered.frame) 5).trans h5, congrArg Cpu.pc ht.entered.frame⟩

/-! ## the timer -/

/-- what timervec leaves behind: the next interrupt is due, the kernel is told, and the rest is as it was -/
structure TimerServed (ts : BitVec 64) (s s' : State Csr) : Prop where
  regs : s'.regs = s.regs
  pc : s'.pc = s.csr.val .mepc
  due : load 8 s'.mem clintMtimecmp = (load 8 s.mem clintMtime + timerInterval) % 2 ^ 64
  sip : s'.csr.val .sip = 2
  csr : ∀ c, c ≠ .sip → c ≠ .mscratch → s'.csr.val c = s.csr.val c
  out : ∀ x, (x < ts.toNat ∨ ts.toNat + 16 ≤ x) → (x < clintMtimecmp ∨ clintMtimecmp + 8 ≤ x) → s'.mem x = s.mem x

theorem timervec_body (ts : BitVec 64) : (timervec ts).body =
    [.csrw .mscratch 5, .li 5 ts, .sd 6 8 5, .csrr 6 .mscratch, .sd 6 0 5] ++
      [.li 5 (BitVec.ofNat 64 clintMtime), .ld 5 0 5, .li 6 (BitVec.ofNat 64 timerInterval), .add 6 6 5,
        .li 5 (BitVec.ofNat 64 clintMtimecmp), .sd 6 0 5, .li 5 2, .csrw .sip 5] ++
      [.li 5 ts, .ld 6 8 5, .ld 5 0 5] := rfl

/-- **Timer interrupts.**  timervec changes no register of what it interrupts; timerscratch lies above the CLINT. -/
theorem timervec_transparent (hlow : clintMtime + 8 ≤ ts.toNat) (hhigh : ts.toNat + 16 ≤ 2 ^ 64) :
    TimerServed ts s ((timervec ts).run s) := by
  have hlt := ts.isLt
  have h8 : (ts.toNat + 8) % 2 ^ 64 = ts.toNat + 8 := Nat.mod_eq_of_lt (by omega)
  simp only [Nat.reducePow] at h8
  have hcmp : clintMtimecmp + 8 ≤ ts.toNat := by
    unfold clintMtime at hlow
    unfold clintMtimecmp
    omega
  -- t0 and t1 are saved
  obtain ⟨s₁, hs₁⟩ : ∃ s₁, s₁ = exec [.csrw .mscratch 5, .li 5 ts, .sd 6 8 5, .csrr 6 .mscratch, .sd 6 0 5] s := ⟨_, rfl⟩
  have hmem₁ : s₁.mem = store 8 (store 8 s.mem (ts.toNat + 8) (s.regs.val 6).toNat) ts.toNat (s.regs.val 5).toNat := by
    simp [hs₁, Instr.exec, State.setReg, State.addr, h8]
  have hcsr₁ : s₁.csr = s.csr.set .mscratch (s.regs.val 5) := by rw [hs₁]; rfl
  have hother₁ : ∀ r, r ≠ 5 → r ≠ 6 → s₁.regs.val r = s.regs.val r := fun r h5 h6 => by
    simp [hs₁, Instr.exec, State.setReg, h5, h6]
  have hmtime : load 8 s₁.mem clintMtime = load 8 s.mem clintMtime := by
    rw [hmem₁, load_store_disj (by omega), load_store_disj (by omega)]
  -- the next interrupt
  obtain ⟨s₂, hs₂⟩ : ∃ s₂, s₂ = exec [.li 5 (BitVec.ofNat 64 clintMtime), .ld 5 0 5, .li 6 (BitVec.ofNat 64 timerInterval),
    .add 6 6 5, .li 5 (BitVec.ofNat 64 clintMtimecmp), .sd 6 0 5, .li 5 2, .csrw .sip 5] s₁ := ⟨_, rfl⟩
  have haddr : (BitVec.ofNat 64 clintMtimecmp).toNat = clintMtimecmp := by decide
  have haddr' : (BitVec.ofNat 64 clintMtime).toNat = clintMtime := by decide
  have hmem₂ : s₂.mem = store 8 s₁.mem clintMtimecmp ((load 8 s.mem clintMtime + timerInterval) % 2 ^ 64) := by
    have hsum : (BitVec.ofNat 64 timerInterval + BitVec.ofNat 64 (load 8 s.mem clintMtime)).toNat
        = (load 8 s.mem clintMtime + timerInterval) % 2 ^ 64 := by
      rw [BitVec.toNat_add, toNat_load, Nat.add_comm]
      rfl
    rw [← hsum, hs₂]
    simp [Instr.exec, State.setReg, State.addr, haddr, haddr', hmtime]
  have hcsr₂ : s₂.csr = s₁.csr.set .sip 2 := by
    rw [hs₂]
    simp [Instr.exec, State.setReg]
  have hother₂ : ∀ r, r ≠ 5 → r ≠ 6 → s₂.regs.val r = s₁.regs.val r := fun r h5 h6 => by
    simp [hs₂, Instr.exec, State.setReg, h5, h6]
  -- t0 and t1 are restored
  obtain ⟨s₃, hs₃⟩ : ∃ s₃, s₃ = exec [.li 5 ts, .ld 6 8 5, .ld 5 0 5] s₂ := ⟨_, rfl⟩
  have ht0 : BitVec.ofNat 64 (load 8 s₂.mem ts.toNat) = s.regs.val 5 := by
    rw [hmem₂, load_store_disj (by omega), hmem₁, load_store_lt (s.regs.val 5).isLt, BitVec.ofNat_toNat, BitVec.setWidth_eq]
  have ht1 : BitVec.ofNat 64 (load 8 s₂.mem (ts.toNat + 8)) = s.regs.val 6 := by
    rw [hmem₂, load_store_disj (by omega), hmem₁, load_store_disj (by omega), load_store_lt (s.regs.val 6).isLt, BitVec.ofNat_toNat,
      BitVec.setWidth_eq]
  have hregs₃ : s₃.regs = ((s₂.regs.set 5 ts).set 6 (s.regs.val 6)).set 5 (s.regs.val 5) := by
    simp [hs₃, Instr.exec, State.setReg, State.addr, h8, ht0, ht1]
  have hmem₃ : s₃.mem = s₂.mem := by rw [hs₃]; rfl
  have hcsr₃ : s₃.csr = s₂.csr := by rw [hs₃]; rfl
  have hrun : (timervec ts).run s = { s₃ with pc := s₃.csr.val .mepc } := by
    unfold Code.run
    rw [timervec_body, exec_append, exec_append, ← hs₁, ← hs₂, ← hs₃]
    rfl
  have hcsr : ∀ c, c ≠ .sip → c ≠ .mscratch → s₃.csr.val c = s.csr.val c := fun c hsip hms => by
    rw [hcsr₃, hcsr₂, Csrs.set_of_ne hsip, hcsr₁, Csrs.set_of_ne hms]
  rw [hrun]
  refine ⟨?_, hcsr .mepc (by decide) (by decide), ?_, ?_, hcsr, fun x hx hx' => ?_⟩
  · show s₃.regs = s.regs
    apply Regs.ext
    funext r
    rw [hregs₃]
    by_cases h5 : r = 5
    · rw [h5, Regs.set_self (by decide)]
    by_cases h6 : r = 6
    · rw [h6, Regs.set_of_ne (by decide), Regs.set_self (by decide)]
    · rw [Regs.set_of_ne h5, Regs.set_of_ne h6, Regs.set_of_ne h5, hother₂ r h5 h6, hother₁ r h5 h6]
  · show load 8 s₃.mem clintMtimecmp = _
    rw [hmem₃, hmem₂]
    exact load_store_lt (show _ < 256 ^ 8 from Nat.mod_lt _ (by decide))
  · show s₃.csr.val .sip = 2
    rw [hcsr₃, hcsr₂, Csrs.set_self]
    rfl
  · show s₃.mem x = s.mem x
    rw [hmem₃, hmem₂, store_apply_out (by omega), hmem₁, store_apply_out (by omega), store_apply_out (by omega)]

theorem timervec_transparent_numbered : TimerServed 0x80200000 numberedHart ((timervec 0x80200000).run numberedHart) :=
  timervec_transparent (by decide) (by decide)

end FakeKernel
