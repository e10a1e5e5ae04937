import FakeKernel.Kernel.List
import FakeKernel.Mm.PageTable
import FakeKernel.Mm.Uaccess

/-!
# Kernel objects (kernel/sched.h, kernel/vm.h, kernel/trap.h)

`Heap` is the memory of the allocator together with the objects that live in it, each by its address.
The kernel reaches both through its direct map of the physical memory.

A `struct cpu` that belongs to user code is a `Cpu`.  A kernel frame is a `Thread`: the ksetjmp at
which the kernel thread of a task goes on, and what lies on its stack there.

* `kmalloc`, `kfree`, `allocPage`, `freePage`   the allocator, on the heap;
* `listNodeCreate`, `listDestroy`               the part of list.h that allocates and frees.
-/

namespace FakeKernel

/-! ## registers -/

structure Cpu where
  registers : Nat → Nat
  pc : Nat

def REG_SP : Nat := 2
def REG_A0 : Nat := 10
def REG_A1 : Nat := 11
def REG_A2 : Nat := 12
def REG_A7 : Nat := 17

def Cpu.set (r v : Nat) (c : Cpu) : Cpu := { c with registers := Function.update c.registers r v }

/-! ## tasks and areas -/

inductive TaskMode where
  | user
  | supervisor
deriving DecidableEq, Repr

/-- what is left to do when a text has been printed -/
inductive After where
  | syscall (result : Nat)
  | fault
deriving DecidableEq, Repr

/-- where a kernel thread goes on -/
inductive Thread where
  /-- the start of task_entry -/
  | taskEntry
  /-- after ksetjmp in yield_to_user -/
  | yieldToUser
  /-- after ksetjmp in SYS_yield -/
  | sysYield
  /-- after the wait of getchar -/
  | getchar
  /-- after the wait of uartputc, with the text that is still to be printed -/
  | putchar (c : UInt8) (text : List UInt8) (after : After)
  /-- a kernel trap left its registers in the frame -/
  | interrupted
deriving DecidableEq, Repr

structure Task where
  pid : Nat
  parent : Nat
  sched : Nat
  kernelStack : Nat
  pageTable : Nat
  mode : TaskMode
  kernelFrame : Thread
  userFrame : Cpu

structure VmArea where
  va : Nat
  nPages : Nat
  refcount : Nat
  flags : Nat
deriving DecidableEq, Repr

def sizeofListNode : Nat := 32
def sizeofVmArea : Nat := 40
def sizeofTask : Nat := 592

/-- `live` is a history of the tasks that were created and not destroyed, `blocks` one of the objects
that kmalloc handed out and kfree did not take back (without the buffers of user_copy_args, which
only execve uses); no function reads them -/
structure Heap where
  mm : Mm
  lists : Lists
  area : Nat → VmArea
  task : Nat → Task
  nextTaskId : Nat
  live : List Nat
  blocks : List Nat

namespace Heap

def node (h : Heap) (n : Nat) : ListNode := h.lists.node n

def setArea (a : Nat) (x : VmArea) (h : Heap) : Heap :=
  { h with area := Function.update h.area a x }

def setTask (t : Nat) (x : Task) (h : Heap) : Heap :=
  { h with task := Function.update h.task t x }

def setFrame (t : Nat) (frame : Cpu) (h : Heap) : Heap :=
  h.setTask t { h.task t with userFrame := frame }

def listInit (r : ListRef) (h : Heap) : Heap := { h with lists := h.lists.listInit r }

def listPush (r : ListRef) (n : Nat) (h : Heap) : Heap := { h with lists := h.lists.listPush r n }

def listRemove (n : Nat) (h : Heap) : Heap := { h with lists := h.lists.listRemove n }

/-! ## the allocator -/

def kmalloc (size : Nat) (h : Heap) : Res (Nat × Heap) := do
  let (p, mm) ← h.mm.kmalloc size
  .ok (p, { h with mm := mm, blocks := p :: h.blocks })

def kfree (buf : Nat) (h : Heap) : Res Heap := do
  let mm ← h.mm.kfree buf
  .ok { h with mm := mm, blocks := h.blocks.erase buf }

/-- `alloc_pages(0).address` -/
def allocPage (h : Heap) : Res (Nat × Heap) := do
  let (page, mm) ← h.mm.allocPages 0
  .ok (page.address, { h with mm := mm })

/-- `free_pages((struct page) { .address = page, .order = 0 })` -/
def freePage (page : Nat) (h : Heap) : Res Heap := do
  let mm ← h.mm.freePages { address := page, order := 0 }
  .ok { h with mm := mm }

def createPageTable (h : Heap) : Res (Nat × Heap) := do
  let (table, mm) ← FakeKernel.createPageTable h.mm
  .ok (table, { h with mm := mm })

def destroyPageTable (table : Nat) (h : Heap) : Res Heap := do
  let mm ← FakeKernel.destroyPageTable table h.mm
  .ok { h with mm := mm }

def unsetUserPages (table : Nat) (h : Heap) : Res Heap := do
  let mm ← FakeKernel.unsetUserPages table h.mm
  .ok { h with mm := mm }

def setPage (table va pa flags : Nat) (h : Heap) : Res (Int × Heap) := do
  let (err, mm) ← FakeKernel.setPage table va pa flags h.mm
  .ok (err, { h with mm := mm })

def setPageUser (table va pa flags : Nat) (h : Heap) : Res (Int × Heap) := do
  let (err, mm) ← FakeKernel.setPageUser table va pa flags h.mm
  .ok (err, { h with mm := mm })

/-- the loop of clear_page, up to the byte `8 * n` -/
def clearWords (page : Nat) : Nat → Bytes.Mem → Bytes.Mem
  | 0, m => m
  | n + 1, m => Bytes.store 8 (clearWords page n m) (page + 8 * n) 0

def clearPage (page : Nat) (h : Heap) : Heap :=
  { h with mm := h.mm.setMem (clearWords page (pageSize / 8) h.mm.mem) }

/-! ## lists that own their nodes -/

def listNodeCreate (value : Nat) (h : Heap) : Res (Nat × Heap) := do
  let (n, h) ← h.kmalloc sizeofListNode
  if n = 0 then .ok (0, h)
  else
    let x := { h.node n with value := value, prev := 0, next := 0 }
    .ok (n, { h with lists := h.lists.setNode n x })

/-- the loop of list_destroy; it reads `next` of a node that it has freed -/
def listDestroyFrom : Nat → Nat → Heap → Res Heap
  | 0, _, _ => .error .hang
  | n + 1, node, h =>
    if node = 0 then .ok h
    else do
      let h ← h.kfree node
      listDestroyFrom n (h.node node).next h

def listDestroy (r : ListRef) (h : Heap) : Res Heap := do
  let h ← listDestroyFrom wordCount (h.lists.list r).first h
  .ok (h.listInit r)

end Heap

end FakeKernel
