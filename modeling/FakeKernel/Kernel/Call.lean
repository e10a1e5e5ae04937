import FakeKernel.Kernel.Filled

/-!
# A system call

* `Kernel.Calls`        the current task comes back from yield_to_user with an ecall;
* `Kernel.callFrame`    the state in which task_entry calls syscall;
* `sysReturn_task`       what a call leaves of the tasks;
* `Active.called`       user code can make a call with any registers.
-/

namespace FakeKernel
open Bytes Mm Heap

variable {k k' : Kernel} {own : Owners} {q : TaskList → List Nat} {o : Oracle} {e : Elf} {b : Bool} {id : Nat}

/-- the current task is back from yield_to_user, with the system call `id` -/
structure Kernel.Calls (k : Kernel) (id : Nat) : Prop where
  frame : (k.task k.currentTask).kernelFrame = .yieldToUser
  cause : k.scause = 8
  id : (k.task k.currentTask).userFrame.registers REG_A7 = id

/-- task_entry has moved the program counter behind the ecall -/
def Kernel.callFrame (k : Kernel) : Kernel :=
  let frame := (k.task k.currentTask).userFrame
  k.setHeap (k.heap.setFrame k.currentTask { frame with pc := (frame.pc + 4) % wordCount })

theorem Kernel.callFrame_frame (k : Kernel) :
    (k.callFrame.task k.currentTask).userFrame.registers = (k.task k.currentTask).userFrame.registers := by
  show (Function.update k.heap.task k.currentTask _ k.currentTask).userFrame.registers = _
  rw [Function.update_self]

theorem Active.callFrame (ha : Active k own q) : Within q k own k.callFrame := ha.setFrame _ _

namespace Kernel.Calls

theorem resume (hc : k.Calls id) : k.resume o = k.callFrame.syscall o := by
  unfold Kernel.resume
  rw [hc.frame]
  show k.taskEntryTrap o = _
  unfold taskEntryTrap
  rw [if_pos hc.cause]
  rfl

theorem callFrame_id (hc : k.Calls id) : (k.callFrame.task k.callFrame.currentTask).userFrame.registers REG_A7 = id := by
  show (k.callFrame.task k.currentTask).userFrame.registers REG_A7 = id
  rw [callFrame_frame]
  exact hc.id

theorem fork (hc : k.Calls SYS_fork) : k.resume o = k.callFrame.sysFork o := by
  rw [hc.resume]
  unfold syscall
  simp only [hc.callFrame_id]
  rfl

theorem execve (hc : k.Calls SYS_execve) : k.resume o = k.callFrame.sysExecve o
    ((k.task k.currentTask).userFrame.registers REG_A1) ((k.task k.currentTask).userFrame.registers REG_A2) := by
  rw [hc.resume, ← callFrame_frame]
  unfold syscall
  simp only [hc.callFrame_id]
  rfl

end Kernel.Calls

/-! ## the end of a call -/

theorem sysReturn_task (k : Kernel) (v : Nat) : (k.sysReturn v).heap.task = Function.update k.heap.task k.currentTask
    { k.task k.currentTask with userFrame := (k.task k.currentTask).userFrame.set REG_A0 v, kernelFrame := .yieldToUser } := by
  obtain ⟨k₁, hk₁⟩ : ∃ k₁, k₁ = (k.setHeap (k.heap.setFrame k.currentTask
      ((k.task k.currentTask).userFrame.set REG_A0 v))).log (.returned k.currentTask v) := ⟨_, rfl⟩
  have htask : k₁.heap.task = Function.update k.heap.task k.currentTask
      { k.task k.currentTask with userFrame := (k.task k.currentTask).userFrame.set REG_A0 v } := by
    rw [hk₁]
    rfl
  have hcur : k₁.currentTask = k.currentTask := by
    rw [hk₁]
    rfl
  have hret : k.sysReturn v = k₁.yieldToUser := by
    rw [hk₁]
    rfl
  rw [hret]
  show Function.update k₁.heap.task k₁.currentTask { k₁.heap.task k₁.currentTask with kernelFrame := .yieldToUser } = _
  rw [hcur, htask, Function.update_self]
  funext t
  by_cases ht : t = k.currentTask
  · rw [ht, Function.update_self, Function.update_self]
  · rw [Function.update_of_ne ht, Function.update_of_ne ht, Function.update_of_ne ht]

/-- user code has made a system call with these registers -/
structure Called (k k' : Kernel) (own : Owners) (q : TaskList → List Nat) (cpu : Cpu) : Prop where
  steps : Kernel.Steps k k'
  reachable : k'.Reachable
  ctl : k'.ctl = .thread
  calls : k'.Calls (cpu.registers REG_A7)
  a0 : (k'.task k'.currentTask).userFrame.registers REG_A0 = cpu.registers REG_A0
  a1 : (k'.task k'.currentTask).userFrame.registers REG_A1 = cpu.registers REG_A1
  a2 : (k'.task k'.currentTask).userFrame.registers REG_A2 = cpu.registers REG_A2
  active : Active k' own q
  within : Within q k own k'.callFrame
  mm : k'.callFrame.heap.mm = k.heap.mm
  satp : k'.callFrame.satp = k.satp
  uart : k'.uart = k.uart
  trace : k'.trace = k.trace ++ [.trapped k.currentTask cpu]

theorem Active.called (ha : Active k own q) (hr : k.Reachable) (hctl : k.ctl = .user)
    (hframe : (k.task k.currentTask).kernelFrame = .yieldToUser) (cpu : Cpu) : ∃ k', Called k k' own q cpu := by
  obtain ⟨k₁, hk₁⟩ : ∃ k₁, k₁ = { k with cpu := cpu } := ⟨_, rfl⟩
  have hstep : k.Step k₁ := by
    rw [hk₁]
    exact .compute cpu hctl
  have hctl₁ : k₁.ctl = .user := by
    rw [hk₁]
    exact hctl
  have hi₁ : Within q k own k₁ := by
    rw [hk₁]
    exact ha.control rfl rfl rfl rfl ⟨[], (List.append_nil _).symm, rfl⟩
  have hi₂ := hi₁.active.userException 8 0
  have hself : ((k₁.userException 8 0).task (k₁.userException 8 0).currentTask)
      = { k₁.task k₁.currentTask with userFrame := trapVector k₁.cpu k₁.trapframe } := Function.update_self _ _ _
  have hcpu : k₁.cpu = cpu := by rw [hk₁]
  have hframe₁ : (k₁.task k₁.currentTask).kernelFrame = .yieldToUser := by
    rw [hk₁]
    exact hframe
  obtain ⟨k₀, hboot, hsteps⟩ := hr
  have hsteps₁ : Kernel.Steps k (k₁.userException 8 0) := .tail (.single hstep) (.exception 8 0 hctl₁)
  refine ⟨k₁.userException 8 0, hsteps₁, ⟨k₀, hboot, hsteps.trans hsteps₁⟩, rfl, ⟨?_, rfl, ?_⟩, ?_, ?_, ?_,
    hi₂.active, (hi₁.trans hi₂).trans hi₂.active.callFrame, ?_, ?_, ?_, ?_⟩
  · rw [hself]
    exact hframe₁
  · rw [hself, ← hcpu]
    rfl
  · rw [hself, ← hcpu]
    rfl
  · rw [hself, ← hcpu]
    rfl
  · rw [hself, ← hcpu]
    rfl
  · rw [hk₁]
    rfl
  · rw [hk₁]
    rfl
  · rw [hk₁]
    rfl
  · rw [hk₁]
    rfl

/-- the first task has made a system call: `k` is the state in which syscall is called -/
structure FirstCall (e : Elf) (b : Bool) (k : Kernel) (own : Owners) (t : Nat) (ns : List Nat) (room id a1 a2 : Nat) : Prop where
  reachable : ∃ k₀ : Kernel, k₀.Reachable ∧ k₀.ctl = .thread ∧ k₀.Calls id ∧ k = k₀.callFrame ∧
    (k₀.task k₀.currentTask).userFrame.registers REG_A1 = a1 ∧ (k₀.task k₀.currentTask).userFrame.registers REG_A2 = a2
  active : Active k own fun _ => []
  current : k.currentTask = t
  live : k.heap.live = [t]
  image : FirstImage e b k.heap own t ns room

/-- it can do so with any number and any arguments -/
theorem FirstUser.call {t room : Nat} {ns : List Nat} (hf : FirstUser e b k own t ns room) (id a1 a2 : Nat) :
    ∃ k', FirstCall e b k' own t ns room id a1 a2 ∧ k'.heap.mm = k.heap.mm ∧ Quiet k.heap k'.heap own ∧ k'.satp = k.satp := by
  have hframe : (k.task k.currentTask).kernelFrame = .yieldToUser := by
    rw [hf.current]
    exact hf.frame
  obtain ⟨cpu, hcpu⟩ : ∃ cpu : Cpu, cpu = { registers := fun r => if r = REG_A7 then id else if r = REG_A1 then a1 else a2, pc := 0 } :=
    ⟨_, rfl⟩
  obtain ⟨k', hc⟩ := hf.active.called hf.reachable hf.ctl hframe cpu
  have ht : t ∈ k.heap.live := hf.live ▸ List.mem_singleton_self t
  have hcalls := hc.calls
  have h1 := hc.a1
  have h2 := hc.a2
  rw [hcpu] at hcalls h1 h2
  refine ⟨k'.callFrame, ⟨⟨k', hc.reachable, hc.ctl, hcalls, rfl, h1, h2⟩, hc.within.active, hc.within.current.trans hf.current,
    ?_, hf.image.quiet hf.active.world ht hc.within.quiet hc.within.active.world.held.ok⟩, hc.mm, hc.within.quiet, hc.satp⟩
  rw [hc.within.quiet.live, hf.live]

end FakeKernel
