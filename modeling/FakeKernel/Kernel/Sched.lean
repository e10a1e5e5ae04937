import FakeKernel.Kernel.Elf

/-!
# Tasks (kernel/sched.c)

The functions of sched.c that create and destroy a task, on the heap.  task_clone reads user memory
and the scheduler changes `current_task`: they are in `FakeKernel.Kernel.Machine`.
-/

namespace FakeKernel

namespace Heap

def taskInitSched (task : Nat) (h : Heap) : Res (Int × Heap) := do
  let h := h.listInit (.vmAreas task)
  let h := h.setTask task { h.task task with mode := .supervisor, kernelFrame := .taskEntry }
  let (node, h) ← h.listNodeCreate task
  if node = 0 then .ok (-ENOMEM, h)
  else
    let h := h.setTask task { h.task task with sched := node }
    .ok (0, h.listPush (.queue .tasks) node)

def taskCreate (parent : Nat) (h : Heap) : Res (Nat × Heap) := do
  let (task, h) ← h.kmalloc sizeofTask
  if task = 0 then .ok (ERR_PTR ENOMEM, h)
  else
    let h := h.setTask task { h.task task with pid := h.nextTaskId, parent := parent }
    let h := { h with nextTaskId := h.nextTaskId + 1 }
    let (stack, h) ← h.allocPage
    if stack = 0 then do
      let h ← h.kfree task
      .ok (task, h)
    else
      let h := h.setTask task { h.task task with kernelStack := stack }
      let (table, h) ← h.createPageTable
      let h := h.setTask task { h.task task with pageTable := table }
      if table = 0 then do
        let h ← h.freePage stack
        let h ← h.kfree task
        .ok (task, h)
      else
        let (ret, h) ← h.taskInitSched task
        if ret ≠ 0 then do
          let h ← h.destroyPageTable table
          let h ← h.freePage stack
          let h ← h.kfree task
          .ok (ERR_PTR (-ret), h)
        else .ok (task, { h with live := task :: h.live })

def taskDestroySched (task : Nat) (h : Heap) : Res Heap := do
  let h ← h.vmDecrefAll (.vmAreas task)
  let h := h.listRemove (h.task task).sched
  h.kfree (h.task task).sched

def taskReinit (task : Nat) (h : Heap) : Res (Int × Heap) := do
  let h ← h.taskDestroySched task
  let h ← h.unsetUserPages (h.task task).pageTable
  h.taskInitSched task

/-- task_destroy up to the call of schedule -/
def taskDestroy (task : Nat) (h : Heap) : Res Heap :=
  if (h.task task).pid = 1 then panic "attempting to kill init"
  else do
    let h ← h.taskDestroySched task
    let h ← h.destroyPageTable (h.task task).pageTable
    let h ← h.freePage (h.task task).kernelStack
    let h ← h.kfree task
    .ok { h with live := h.live.erase task }

/-- one step of the loop of task_entry that grows the stack -/
def growStack (task area : Nat) (h : Heap) : Res Heap := do
  let (page, h) ← h.allocPage
  if page = 0 then panic "stack autoexpand: out of memory"
  else
    let h := h.clearPage page
    let (err, h) ← h.vmAreaAddPage area page
    if err ≠ 0 then panic "stack autoexpand: vm_area_add_page"
    else
      let x := h.area area
      let va := (x.va + wordCount - pageSize) % wordCount
      let h := h.setArea area { x with va := va, nPages := (x.nPages + 1) % wordCount }
      let flags := pteFlagsFromVmFlags x.flags
      let (err, h) ← h.setPageUser (h.task task).pageTable va (PA page) flags
      if err ≠ 0 then panic "stack autoexpand: set_page" else .ok h

def expandStack (task area vaStart : Nat) : Nat → Heap → Res Heap
  | 0, _ => .error .hang
  | n + 1, h =>
    if vaStart < (h.area area).va then do
      let h ← h.growStack task area
      expandStack task area vaStart n h
    else .ok h

end Heap

end FakeKernel
