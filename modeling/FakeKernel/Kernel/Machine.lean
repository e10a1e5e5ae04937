import FakeKernel.Kernel.Sched
import FakeKernel.Kernel.Uart

/-!
# The machine: traps, system calls and dispatching (kernel/irq.c, trap.S, syscall.c, sched.c)

`Kernel` is the state of the one hart and of everything that lives across traps.  Kernel code runs
with interrupts off, so it is a function from one point where control changes hands to the next;
these points are the values of `Ctl`.

* `trapVector`, `kernelToUser`   the register moves of trap.S;
* `vmClone`, `taskClone`         the part of vm.c and sched.c that reads user memory;
* `doSchedule`, `scheduleNext`, `wait`   the scheduler;
* `syscall`, `taskEntryTrap`, `resume`   a kernel thread from a trap to the return to user mode;
* `handleInterrupt`, `userInterrupt`, `userException`   interrupts and exceptions.

What the hardware and the devices do is an input of a step: `Oracle`.
-/

namespace FakeKernel
open Bytes

/-- who runs next -/
inductive Ctl where
  /-- the user code of `current_task` -/
  | user
  /-- klongjmp to the kernel frame of `current_task` -/
  | thread
  /-- schedule() was called -/
  | schedule
  /-- the loop of idle -/
  | idle
deriving DecidableEq, Repr

/-- what happened, as far as the results about runs speak of it -/
inductive Event where
  | trapped (task : Nat) (cpu : Cpu)
  | returned (task result : Nat)
  | forked (parent child : Nat)
  | entered (task : Nat) (cpu : Cpu)
  | dispatched (node : Nat)
  | execve (task : Nat)
  | received (rx : List UInt8)

/-- `satp` is the table that is in use and `trace` a history that no function reads -/
structure Kernel where
  heap : Heap
  uart : Uart
  currentTask : Nat
  currentTaskNode : Nat
  satp : Nat
  trapframe : Cpu
  mayPageFault : Bool
  sum : Bool
  scause : Nat
  stval : Nat
  ctl : Ctl
  cpu : Cpu
  trace : List Event

/-- what comes from outside during one step: the answers of LSR for each character that is printed,
the registers at a page fault of the kernel, and the text of a message -/
structure Oracle where
  lsr : Nat → List Bool
  regs : Cpu
  text : List UInt8

/-- a negative number as a 64-bit word -/
def ofInt (x : Int) : Nat := (x % (wordCount : Int)).toNat

/-! ## trap.S -/

/-- the registers that trap_vector and _kernel_to_user move one by one; t0 goes through sscratch -/
def movedRegisters : List Nat :=
  [1, 2, 3, 4, 6, 7, 8, 9, 10, 11, 12, 13, 14, 15, 16, 17, 18, 19, 20, 21, 22, 23, 24, 25, 26, 27,
    28, 29, 30, 31]

def REG_T0 : Nat := 5

def moveRegisters (src dest : Nat → Nat) : Nat → Nat :=
  Function.update (movedRegisters.foldl (fun f r => Function.update f r (src r)) dest) REG_T0
    (src REG_T0)

def trapVector (cpu frame : Cpu) : Cpu :=
  { registers := moveRegisters cpu.registers frame.registers, pc := cpu.pc }

/-- the registers after sret; x0 is always zero -/
def kernelToUser (frame : Cpu) : Cpu :=
  { registers := moveRegisters frame.registers fun _ => 0, pc := frame.pc }

namespace Kernel

def log (e : Event) (k : Kernel) : Kernel := { k with trace := k.trace ++ [e] }

def task (k : Kernel) (t : Nat) : Task := k.heap.task t

def setHeap (h : Heap) (k : Kernel) : Kernel := { k with heap := h }

def setTask (t : Nat) (x : Task) (k : Kernel) : Kernel := k.setHeap (k.heap.setTask t x)

/-! ## user memory -/

/-- the addresses that a hart with Sv39 translates -/
def canonical (va : Nat) : Bool := va < 2 ^ 38 || wordCount - 2 ^ 38 ≤ va && va < wordCount

def translate (k : Kernel) (va : Nat) : Option Translation :=
  if canonical va then walk k.heap.mm.mem 2 k.satp va else none

def userByte (k : Kernel) (va : Nat) : Option UInt8 :=
  match k.translate va with
  | none => none
  | some tr => if tr.flags &&& pteRead ≠ 0 then some (k.heap.mm.mem (VA tr.pa)) else none

def userWritable (k : Kernel) (va : Nat) : Bool :=
  match k.translate va with
  | none => false
  | some tr => tr.flags &&& pteWrite != 0

def uaccess (k : Kernel) : Uaccess where
  mm := k.heap.mm
  user := k.userByte
  writable := k.userWritable
  mayPageFault := k.mayPageFault
  sum := k.sum
  touched := []

/-- trap_vector and kernel_trap on a page fault of the kernel, up to klongjmp(&page_fault_handler) -/
def kernelFault (regs : Cpu) (k : Kernel) : Kernel :=
  let k := { k with trapframe := trapVector regs k.trapframe }
  if k.currentTask ≠ 0 then
    k.setTask k.currentTask { k.task k.currentTask with kernelFrame := .interrupted }
  else k

/-- the state after an accessor of mm.c; `fault` tells whether it met a page fault -/
def leaveAccess (s : Uaccess) (fault : Bool) (regs : Cpu) (k : Kernel) : Kernel :=
  let k := if fault then k.kernelFault regs else k
  { k with
    heap := { k.heap with mm := s.mm }
    mayPageFault := s.mayPageFault
    sum := s.sum }

def copyFromUser (regs : Cpu) (dest src : Nat) (n : Int) (k : Kernel) : Res (Int × Kernel) := do
  let ran := k.uaccess.copyFromUser dest src n
  let r ← ran.result
  .ok (r, k.leaveAccess ran.state (accessOk src n && r == -EFAULT) regs)

def userCopyArgs (regs : Cpu) (args : Nat) (k : Kernel) : Res (Nat × Kernel) := do
  let ran := k.uaccess.userCopyArgs args
  let r ← ran.result
  .ok (r, k.leaveAccess ran.state (accessOk args 8 && r == ERR_PTR EFAULT) regs)

/-! ## cloning a task -/

/-- the loop of vm_clone over the pages of an area, `n` of them from `va` on -/
def clonePages (regs : Cpu) (task copy flags : Nat) : Nat → Nat → Kernel → Res Kernel
  | 0, _, k => .ok k
  | n + 1, va, k => do
    let (page, h) ← k.heap.allocPage
    if page = 0 then panic "out of memory"
    else
      let (node, h) ← h.listNodeCreate page
      if node = 0 then panic "out of memory"
      else
        let h := h.listPush (.pages copy) node
        let (err, h) ← h.setPageUser (h.task task).pageTable va (PA page) flags
        if err ≠ 0 then panic "set_page"
        else
          let (_, k) ← Kernel.copyFromUser regs page va pageSize (k.setHeap h)
          clonePages regs task copy flags n ((va + pageSize) % wordCount) k

/-- one turn of the list_foreach of vm_clone -/
def cloneArea (regs : Cpu) (task area : Nat) (k : Kernel) : Res Kernel := do
  let (copy, h) ← k.heap.kmalloc sizeofVmArea
  if copy = 0 then panic "out of memory"
  else
    let (node, h) ← h.listNodeCreate copy
    if node = 0 then panic "out of memory"
    else
      let h := h.listPush (.vmAreas task) node
      let x := h.area area
      let h := h.setArea copy { x with refcount := 1 }
      let h := h.listInit (.pages copy)
      clonePages regs task copy (pteFlagsFromVmFlags x.flags) x.nPages x.va (k.setHeap h)

def vmCloneFrom (regs : Cpu) (task : Nat) : Nat → Nat → Kernel → Res Kernel
  | 0, _, _ => .error .hang
  | n + 1, node, k =>
    if node = 0 then .ok k
    else do
      let k ← k.cloneArea regs task (k.heap.node node).value
      vmCloneFrom regs task n (k.heap.node node).next k

def vmClone (regs : Cpu) (r : ListRef) (task : Nat) (k : Kernel) : Res Kernel :=
  vmCloneFrom regs task wordCount (k.heap.lists.list r).first k

/-- `task_clone`; vm_clone returns 0 or panics, so its error path is never taken -/
def taskClone (regs : Cpu) (parent : Nat) (k : Kernel) : Res (Nat × Kernel) := do
  let (task, h) ← k.heap.taskCreate parent
  let k := k.setHeap h
  if isErr task then .ok (task, k)
  else
    let k ← k.vmClone regs (.vmAreas parent) task
    .ok (task, k.setHeap (k.heap.setFrame task (k.task parent).userFrame))

/-! ## the scheduler -/

def schedule (k : Kernel) : Kernel := { k with ctl := .schedule }

/-- `current_task = NULL; current_task_node = NULL; schedule()` -/
def leave (k : Kernel) : Kernel := { k with currentTask := 0, currentTaskNode := 0, ctl := .schedule }

def scheduleNext (k : Kernel) : Kernel :=
  (k.setHeap (k.heap.listPush (.queue .tasks) k.currentTaskNode)).leave

/-- `wait`, called by the thread that goes on at `thread` -/
def wait (group : TaskList) (thread : Thread) (k : Kernel) : Res Kernel := do
  kassert (k.currentTaskNode != 0) "NULL task waiting"
  let k := k.setHeap (k.heap.listPush (.queue group) k.currentTaskNode)
  let x := k.task k.currentTask
  .ok (k.setTask k.currentTask { x with mode := .supervisor, kernelFrame := thread }).leave

def returnToUser (k : Kernel) : Kernel :=
  let cpu := kernelToUser k.trapframe
  { k with cpu := cpu, ctl := .user }.log (.entered k.currentTask cpu)

def doSchedule (k : Kernel) : Res Kernel := do
  kassert (k.currentTaskNode == 0) "schedule: current_task_node not null"
  kassert (k.currentTask == 0) "schedule: current_task not null"
  let (node, L) := k.heap.lists.listShift (.queue .tasks)
  let k := { k with heap := { k.heap with lists := L }, currentTaskNode := node }
  if node = 0 then .ok { k with ctl := .idle }
  else
    let task := (k.heap.node node).value
    let table := (k.task task).pageTable
    if Sv39Pa.off (PA table) ≠ 0 then panic "misaligned page table"
    else
      let k := { k with currentTask := task, satp := table }.log (.dispatched node)
      match (k.task task).mode with
      | .supervisor => .ok { k with ctl := .thread }
      | .user => .ok { k with trapframe := (k.task task).userFrame }.returnToUser

/-- task_destroy of the current task -/
def destroyCurrent (k : Kernel) : Res Kernel := do
  let h ← k.heap.taskDestroy k.currentTask
  .ok (k.setHeap h).leave

/-! ## a kernel thread -/

def yieldToUser (k : Kernel) : Kernel :=
  let x := k.task k.currentTask
  let k := k.setTask k.currentTask { x with kernelFrame := .yieldToUser }
  { k with trapframe := x.userFrame }.returnToUser

/-- the end of a system call in task_entry, and the next turn of its loop -/
def sysReturn (v : Nat) (k : Kernel) : Kernel :=
  let frame := (k.task k.currentTask).userFrame
  let k := k.setHeap (k.heap.setFrame k.currentTask (frame.set REG_A0 v))
  (k.log (.returned k.currentTask v)).yieldToUser

/-- what follows when a text has been printed -/
def finish : After → Kernel → Res Kernel
  | .syscall v, k => .ok (k.sysReturn v)
  | .fault, k => k.destroyCurrent

/-- uartputc for each character of a text -/
def putText (lsr : Nat → List Bool) : List UInt8 → After → Kernel → Res Kernel
  | [], after, k => k.finish after
  | c :: text, after, k =>
    match k.uart.uartputc c (lsr text.length) with
    | none => k.wait .waitOut (.putchar c text after)
    | some u => putText lsr text after { k with uart := u }

def getchar (k : Kernel) : Res Kernel :=
  match k.uart.getchar with
  | none => k.wait .waitIn .getchar
  | some (c, u) => .ok ({ k with uart := u }.sysReturn c.toNat)

def SYS_getchar : Nat := 0
def SYS_putchar : Nat := 1
def SYS_getpid : Nat := 2
def SYS_yield : Nat := 3
def SYS_fork : Nat := 4
def SYS_exit : Nat := 5
def SYS_execve : Nat := 6
def SYS_vmDump : Nat := 114514

def sysFork (o : Oracle) (k : Kernel) : Res Kernel := do
  let (child, k) ← k.taskClone o.regs k.currentTask
  if isErr child then .ok (k.sysReturn child)
  else
    let k := k.setHeap (k.heap.setFrame child ((k.task child).userFrame.set REG_A0 0))
    .ok ((k.log (.forked k.currentTask child)).sysReturn (k.task child).pid)

/-- the labels err_execve_task and what follows it -/
def execveFailed (argv envp : Nat) (k : Kernel) : Res Kernel := do
  let h ← k.heap.kfree argv
  let h ← h.kfree envp
  (k.setHeap h).destroyCurrent

/-- where init and SYS_execve take the program from -/
def program : Nat := VA 0x800f0000

/-- SYS_execve; the second test looks at `argv` again, not at `envp` -/
def sysExecve (o : Oracle) (a1 a2 : Nat) (k : Kernel) : Res Kernel := do
  let k := k.log (.execve k.currentTask)
  let (argv, k) ← k.userCopyArgs o.regs a1
  if isErr argv then .ok (k.sysReturn argv)
  else
    let (envp, k) ← k.userCopyArgs o.regs a2
    if isErr argv then do
      let h ← k.heap.kfree argv
      .ok ((k.setHeap h).sysReturn argv)
    else
      let (retval, h) ← k.heap.taskReinit k.currentTask
      if retval ≠ 0 then (k.setHeap h).execveFailed argv envp
      else
        let (retval, h) ← h.taskInitElf k.currentTask program argv envp
        if retval ≠ 0 then (k.setHeap h).execveFailed argv envp
        else .ok { k with heap := h, ctl := .thread }

/-- `syscall` -/
def syscall (o : Oracle) (k : Kernel) : Res Kernel :=
  let x := k.task k.currentTask
  let id := x.userFrame.registers REG_A7
  let a0 := x.userFrame.registers REG_A0
  let a1 := x.userFrame.registers REG_A1
  let a2 := x.userFrame.registers REG_A2
  if id = SYS_getchar then k.getchar
  else if id = SYS_putchar then k.putText o.lsr [UInt8.ofNat a0] (.syscall 0)
  else if id = SYS_getpid then .ok (k.sysReturn x.pid)
  else if id = SYS_yield then
    .ok (k.setTask k.currentTask { x with mode := .supervisor, kernelFrame := .sysYield }).scheduleNext
  else if id = SYS_fork then k.sysFork o
  else if id = SYS_exit then k.destroyCurrent
  else if id = SYS_execve then k.sysExecve o a1 a2
  else if id = SYS_vmDump then k.putText o.lsr o.text (.syscall 0)
  else .ok (k.sysReturn (ofInt (-ENOSYS)))

/-- the end of the loop of task_entry: the message and task_destroy -/
def taskFault (o : Oracle) (k : Kernel) : Res Kernel := k.putText o.lsr o.text .fault

/-- task_entry from the return of yield_to_user on -/
def taskEntryTrap (o : Oracle) (k : Kernel) : Res Kernel :=
  let t := k.currentTask
  if k.scause = 8 then
    let frame := (k.task t).userFrame
    let frame := { frame with pc := (frame.pc + 4) % wordCount }
    (k.setHeap (k.heap.setFrame t frame)).syscall o
  else if k.scause = 13 ∨ k.scause = 15 then
    if userStackMin ≤ k.stval ∧ k.stval < userStack then do
      let area ← k.heap.vmFindStack (.vmAreas t) k.stval
      if area ≠ 0 then
        let h ← k.heap.expandStack t area (k.stval / pageSize * pageSize) wordCount
        .ok (k.setHeap h).yieldToUser
      else k.taskFault o
    else k.taskFault o
  else k.taskFault o

/-- klongjmp(&current_task->kernel_frame) -/
def resume (o : Oracle) (k : Kernel) : Res Kernel :=
  match (k.task k.currentTask).kernelFrame with
  | .taskEntry => .ok k.yieldToUser
  | .yieldToUser => k.taskEntryTrap o
  | .sysYield => .ok (k.sysReturn 0)
  | .getchar => k.getchar
  | .putchar c text after =>
    match k.uart.uartputcWoken c (o.lsr text.length) with
    | none => k.wait .waitOut (.putchar c text after)
    | some u => putText o.lsr text after { k with uart := u }
  | .interrupted => Heap.badPointer

/-! ## traps -/

inductive Interrupt where
  /-- the supervisor software interrupt that timervec raises -/
  | timer
  /-- an external interrupt: what the PLIC and the serial port answer -/
  | external (irq : Nat) (rx : List UInt8) (lsr : List Bool)

def UART0_IRQ : Nat := 10

/-- `handle_interrupt` with `regs = &trapframe.task`; a timer interrupt ends in schedule() -/
def handleInterrupt (i : Interrupt) (mode : TaskMode) (k : Kernel) : Res Kernel :=
  match i with
  | .timer =>
    if k.currentTask = 0 then .ok k.schedule
    else
      let x := k.task k.currentTask
      match mode with
      | .supervisor =>
        let x := { x with kernelFrame := .interrupted, mode := .supervisor }
        .ok (k.setTask k.currentTask x).scheduleNext
      | .user =>
        let x := { x with userFrame := k.trapframe, mode := .user }
        .ok (k.setTask k.currentTask x).scheduleNext
  | .external irq rx lsr =>
    if irq = UART0_IRQ then do
      let (u, L) ← uartintr rx lsr k.uart k.heap.lists
      .ok ({ k with uart := u, heap := { k.heap with lists := L } }.log (.received rx))
    else if irq ≠ 0 then panic "unknown irq"
    else .ok k

/-- trap_vector and trap_handler on an interrupt of user code -/
def userInterrupt (i : Interrupt) (k : Kernel) : Res Kernel := do
  let k := k.log (.trapped k.currentTask k.cpu)
  let k ← { k with trapframe := trapVector k.cpu k.trapframe }.handleInterrupt i .user
  match i with
  | .timer => .ok k
  | .external _ _ _ => .ok k.returnToUser

/-- trap_vector and trap_handler on an exception of user code -/
def userException (code stval : Nat) (k : Kernel) : Kernel :=
  let k := k.log (.trapped k.currentTask k.cpu)
  let k := { k with trapframe := trapVector k.cpu k.trapframe, scause := code, stval := stval }
  { k.setHeap (k.heap.setFrame k.currentTask k.trapframe) with ctl := .thread }

/-- trap_vector and kernel_trap on an interrupt in idle -/
def idleInterrupt (regs : Cpu) (i : Interrupt) (k : Kernel) : Res Kernel := do
  let k ← { k with trapframe := trapVector regs k.trapframe }.handleInterrupt i .supervisor
  .ok k.schedule

end Kernel

end FakeKernel
