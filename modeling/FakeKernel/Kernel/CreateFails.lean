import FakeKernel.Mm.Frees
import FakeKernel.Kernel.Teardown
import FakeKernel.Kernel.First

/-!
# Failing allocations in task_create (kernel/sched.c)

alloc_pages panics when it is out of memory, and the callers check for NULL nevertheless.  Here each
allocation of task_create may return NULL, as its checks expect; what the labels of task_create give
back is compared with what was allocated.

* `taskCreateOr`         task_create, with the allocations that return NULL;
* `Undone`, `Released`   nothing is left of what was allocated, and nothing else has changed;
* `taskCreateOr_fails`   what it returns, for every choice of the allocations that fail, and when it panics instead.
-/

namespace FakeKernel
open Bytes Mm Heap

variable {h h' h₁ : Heap} {own : Owners} {q : TaskList → List Nat} {a a' a₁ a₂ mm : Mm} {N D : List Nat}
  {t n stack root size value parent : Nat}

/-- the allocations of task_create -/
inductive CreateAlloc
  | task
  | stack
  | table
  | node
deriving DecidableEq, Repr

namespace Heap

/-! ## allocations that may return NULL -/

def kmallocOr (fails : Bool) (size : Nat) (h : Heap) : Res (Nat × Heap) :=
  if fails then .ok (0, h) else h.kmalloc size

def allocPageOr (fails : Bool) (h : Heap) : Res (Nat × Heap) :=
  if fails then .ok (0, h) else h.allocPage

def createPageTableOr (fails : Bool) (h : Heap) : Res (Nat × Heap) := do
  let (table, h) ← h.allocPageOr fails
  if table = 0 then .ok (0, h)
  else
    let mm ← mapKernelPages table (h.mm.setMem (fillTable table (fun _ => 0) entryCount h.mm.mem))
    .ok (table, { h with mm := mm })

def listNodeCreateOr (fails : Bool) (value : Nat) (h : Heap) : Res (Nat × Heap) := do
  let (n, h) ← h.kmallocOr fails sizeofListNode
  if n = 0 then .ok (0, h)
  else
    let x := { h.node n with value := value, prev := 0, next := 0 }
    .ok (n, { h with lists := h.lists.setNode n x })

def taskInitSchedOr (fails : Bool) (task : Nat) (h : Heap) : Res (Int × Heap) := do
  let h := h.listInit (.vmAreas task)
  let h := h.setTask task { h.task task with mode := .supervisor, kernelFrame := .taskEntry }
  let (node, h) ← h.listNodeCreateOr fails task
  if node = 0 then .ok (-ENOMEM, h)
  else
    let h := h.setTask task { h.task task with sched := node }
    .ok (0, h.listPush (.queue .tasks) node)

/-- task_create from task_init_sched on -/
def createSched (fails : CreateAlloc → Bool) (task stack table : Nat) (h : Heap) : Res (Nat × Heap) := do
  let (ret, h) ← h.taskInitSchedOr (fails .node) task
  if ret ≠ 0 then do
    let h ← h.destroyPageTable table
    let h ← h.freePage stack
    let h ← h.kfree task
    .ok (ERR_PTR (-ret), h)
  else .ok (task, { h with live := task :: h.live })

/-- task_create from create_page_table on -/
def createTable (fails : CreateAlloc → Bool) (task stack : Nat) (h : Heap) : Res (Nat × Heap) := do
  let (table, h) ← h.createPageTableOr (fails .table)
  let h := h.setTask task { h.task task with pageTable := table }
  if table = 0 then do
    let h ← h.freePage stack
    let h ← h.kfree task
    .ok (task, h)
  else createSched fails task stack table h

/-- task_create from alloc_pages on -/
def createStack (fails : CreateAlloc → Bool) (task : Nat) (h : Heap) : Res (Nat × Heap) := do
  let (stack, h) ← h.allocPageOr (fails .stack)
  if stack = 0 then do
    let h ← h.kfree task
    .ok (task, h)
  else createTable fails task stack (h.setTask task { h.task task with kernelStack := stack })

def taskCreateOr (fails : CreateAlloc → Bool) (parent : Nat) (h : Heap) : Res (Nat × Heap) := do
  let (task, h) ← h.kmallocOr (fails .task) sizeofTask
  if task = 0 then .ok (ERR_PTR ENOMEM, h)
  else
    let h := h.setTask task { h.task task with pid := h.nextTaskId, parent := parent }
    createStack fails task { h with nextTaskId := h.nextTaskId + 1 }

@[simp] theorem kmallocOr_true (size : Nat) (h : Heap) : h.kmallocOr true size = .ok (0, h) := rfl

@[simp] theorem kmallocOr_false (size : Nat) (h : Heap) : h.kmallocOr false size = h.kmalloc size := rfl

@[simp] theorem allocPageOr_true (h : Heap) : h.allocPageOr true = .ok (0, h) := rfl

@[simp] theorem allocPageOr_false (h : Heap) : h.allocPageOr false = h.allocPage := rfl

@[simp] theorem createPageTableOr_true (h : Heap) : h.createPageTableOr true = .ok (0, h) := rfl

theorem createPageTableOr_false (h : Heap) : h.createPageTableOr false = h.createPageTable := by
  unfold createPageTableOr Heap.createPageTable FakeKernel.createPageTable
  rw [allocPageOr_false]
  unfold Heap.allocPage
  cases h.mm.allocPages 0 with
  | error e => rfl
  | ok r =>
    simp only [Res.ok_bind]
    by_cases h0 : r.1.address = 0
    · simp only [h0, if_true, Res.ok_bind]
    · simp only [h0, if_false]
      cases mapKernelPages r.1.address (r.2.setMem (fillTable r.1.address (fun _ => 0) entryCount r.2.mem)) with
      | error e => rfl
      | ok mm => rfl

theorem listNodeCreateOr_false (value : Nat) (h : Heap) : h.listNodeCreateOr false value = h.listNodeCreate value := rfl

theorem taskInitSchedOr_false (task : Nat) (h : Heap) : h.taskInitSchedOr false task = h.taskInitSched task := rfl

/-- when no allocation fails this is task_create -/
theorem taskCreateOr_false (parent : Nat) (h : Heap) : h.taskCreateOr (fun _ => false) parent = h.taskCreate parent := by
  unfold taskCreateOr createStack createTable createSched taskCreate
  simp only [kmallocOr_false, allocPageOr_false, createPageTableOr_false, taskInitSchedOr_false]

end Heap

/-! ## an allocation that is not to fail -/

def outOfMemory {α : Type} : Res α := panic "out of memory"

theorem allocPages_or (hok : a.Ok) :
    (¬ a.Free 1 ∧ a.allocPages 0 = outOfMemory) ∨ ∃ p a', a.allocPages 0 = .ok (p, a') := by
  obtain ⟨F, hF⟩ := hok
  rcases alloc_total hF (show 0 < maxOrder by decide) with hrun | herr
  · exact .inr hrun
  · refine .inl ⟨fun hfree => ?_, herr⟩
    obtain ⟨p, a', hrun⟩ := hfree.alloc (n := 0)
    exact nomatch hrun.symm.trans herr

/-- what was allocated was free -/
theorem Mm.Free.of_extends (h : a'.Free n) (hok : a.Ok) (hx : Extends a a' ∅ N) : a.Free (N.length + n) := by
  refine ⟨hok, ?_⟩
  have hle := h.le
  rw [hx.free]
  omega

theorem Mm.Free.extends_iff (hok : a.Ok) (hx : Extends a a' ∅ N) : a.Free (N.length + n) ↔ a'.Free n :=
  ⟨fun h => h.step hx, fun h => h.of_extends hok hx⟩

theorem kmalloc_or (hok : h.mm.Ok) (hs : size ≤ 4092) : (¬ h.mm.Free 1 ∧ h.kmalloc size = outOfMemory) ∨
    ∃ p mm, h.kmalloc size = .ok (p, { h with mm := mm, blocks := p :: h.blocks }) ∧ 4 ≤ p ∧
      Extends h.mm mm ∅ [p - 4] ∧ load 4 mm.mem (p - 4) = 0 := by
  rcases allocPages_or hok with ⟨hfull, herr⟩ | ⟨p, mm, hrun⟩
  · refine .inl ⟨hfull, ?_⟩
    unfold Heap.kmalloc Mm.kmalloc
    simp only [kmallocOrder_small hs, herr]
    rfl
  · right
    have hret : ∃ p h', h.kmalloc size = .ok (p, h') := by
      unfold Heap.kmalloc Mm.kmalloc
      simp only [kmallocOrder_small hs, hrun, Res.ok_bind]
      exact ⟨_, _, rfl⟩
    obtain ⟨p, h', hk⟩ := hret
    obtain ⟨mm, rfl, h4, hx, hhead⟩ := kmalloc_spec hok hs hk
    exact ⟨p, mm, hk, h4, hx, hhead⟩

theorem allocPage_or (hok : h.mm.Ok) : (¬ h.mm.Free 1 ∧ h.allocPage = outOfMemory) ∨
    ∃ p mm, h.allocPage = .ok (p, { h with mm := mm }) ∧ p ≠ 0 ∧ Extends h.mm mm ∅ [p] := by
  rcases allocPages_or hok with ⟨hfull, herr⟩ | ⟨p, mm, hrun⟩
  · refine .inl ⟨hfull, ?_⟩
    unfold Heap.allocPage
    rw [herr]
    rfl
  · right
    have hret : ∃ p h', h.allocPage = .ok (p, h') := by
      unfold Heap.allocPage
      rw [hrun, Res.ok_bind]
      exact ⟨_, _, rfl⟩
    obtain ⟨p, h', hk⟩ := hret
    obtain ⟨mm, rfl, h0, hx⟩ := allocPage_spec hok hk
    exact ⟨p, mm, hk, h0, hx⟩

theorem createPageTable_or (hok : h.mm.Ok) : (¬ h.mm.Free 1 ∧ h.createPageTable = outOfMemory) ∨
    ∃ root mm, h.createPageTable = .ok (root, { h with mm := mm }) ∧ root ≠ 0 ∧ Extends h.mm mm ∅ [root] ∧
      Whole mm root ∧ ∀ s, s ∈ tables mm.mem 2 root ↔ s = root := by
  rcases allocPages_or hok with ⟨hfull, herr⟩ | ⟨p, mm, hrun⟩
  · refine .inl ⟨hfull, ?_⟩
    unfold Heap.createPageTable FakeKernel.createPageTable
    rw [herr]
    rfl
  · right
    obtain ⟨root, a', hc⟩ := createPageTable_of_alloc hrun
    obtain ⟨hx, -, hsingle, -⟩ := createPageTable_spec hok hc
    refine ⟨root, a', ?_, hx.new_ne_zero (List.mem_singleton_self _), hx, Whole.create hok hc,
      fun s => ⟨hsingle s, fun hs => hs ▸ table_mem_tables⟩⟩
    unfold Heap.createPageTable
    rw [hc]
    rfl

/-! ## what is given back -/

/-- the blocks that were allocated have been given back, and the others have the same bytes -/
structure Undone (a a' : Mm) : Prop where
  ok : a'.Ok
  out : a'.out.Perm a.out
  frame : ∀ x, a.Kept x → a'.mem x = a.mem x

theorem Undone.refl (hok : a.Ok) : Undone a a := ⟨hok, .refl _, fun _ _ => rfl⟩

theorem Undone.of (hx : Extends a a₁ ∅ N) (hs : Shrinks a₁ a₂ ∅ D) (hD : D.Perm N) : Undone a a₂ := by
  have hout : a₂.out.Perm a.out := by
    have hperm : (N.map pageAt ++ a.out).Perm (D.map pageAt ++ a₂.out) := hx.out ▸ hs.out
    exact ((List.perm_append_left_iff _).mp (hperm.trans ((hD.map pageAt).append_right _))).symm
  refine ⟨hs.ok, hout, fun x hk => ?_⟩
  have hk₂ : a₂.Kept x := hk.imp_right fun ⟨p, hp, hpx⟩ => ⟨p, hout.mem_iff.mpr hp, hpx⟩
  rw [hs.frame x hk₂ nofun, hx.frame x hk nofun]

/-- what a call has left of the heap: nothing that it allocated, and every list and every task that
there was before as it was -/
structure Released (h h' : Heap) : Prop where
  memory : Undone h.mm h'.mm
  blocks : h'.blocks = h.blocks
  nodes : h'.lists.node = h.lists.node
  lists : ∀ r, (∀ t, t ∉ h.live → r ≠ .vmAreas t) → h'.lists.list r = h.lists.list r
  tasks : ∀ t ∈ h.live, h'.task t = h.task t
  area : h'.area = h.area
  live : h'.live = h.live

theorem Released.refl (hok : h.mm.Ok) : Released h h :=
  ⟨.refl hok, rfl, rfl, fun _ _ => rfl, fun _ _ => rfl, rfl, rfl⟩

/-- `h'` is `h` with a task `t` that is being made -/
structure Partial (t : Nat) (h h' : Heap) : Prop where
  blocks : h'.blocks = t :: h.blocks
  lists : h'.lists = h.lists ∨ h'.lists = h.lists.listInit (.vmAreas t)
  tasks : ∀ s, s ≠ t → h'.task s = h.task s
  area : h'.area = h.area
  live : h'.live = h.live

/-- the heap when the task has its number -/
def Heap.numbered (parent t : Nat) (mm : Mm) (h : Heap) : Heap :=
  { h with
    mm := mm
    blocks := t :: h.blocks
    task := Function.update h.task t { h.task t with pid := h.nextTaskId, parent := parent }
    nextTaskId := h.nextTaskId + 1 }

theorem Heap.numbered_partial (h : Heap) (parent t : Nat) (mm : Mm) : Partial t h (h.numbered parent t mm) :=
  ⟨rfl, .inl rfl, fun _ hs => Function.update_of_ne hs _ _, rfl, rfl⟩

theorem Partial.setTask (hp : Partial t h h') (x : Task) : Partial t h (h'.setTask t x) :=
  ⟨hp.blocks, hp.lists, fun s hs => (Function.update_of_ne hs _ _).trans (hp.tasks s hs), hp.area, hp.live⟩

theorem Partial.setMm (hp : Partial t h h') (mm : Mm) : Partial t h { h' with mm := mm } :=
  ⟨hp.blocks, hp.lists, hp.tasks, hp.area, hp.live⟩

/-- the task goes away again -/
theorem Partial.released (hp : Partial t h h') (ht : t ∉ h.live) (hmm : Undone h.mm mm) :
    Released h { h' with mm := mm, blocks := h.blocks } := by
  refine ⟨hmm, rfl, ?_, fun r hr => ?_, fun s hs => hp.tasks s fun he => ht (he ▸ hs), hp.area, hp.live⟩
  · show h'.lists.node = h.lists.node
    rcases hp.lists with hl | hl
    · rw [hl]
    · rw [hl]
      rfl
  · show h'.lists.list r = h.lists.list r
    rcases hp.lists with hl | hl
    · rw [hl]
    · rw [hl, Lists.list_listInit, if_neg (hr t ht)]

/-- IS_ERR of what is returned, and nothing left -/
structure FailsCleanly (h : Heap) (r : Nat) (h' : Heap) : Prop extends Released h h' where
  err : isErr r = true

/-! ## task_create -/

theorem Heap.kfree_eq {B : List Nat} (hk : h.mm.kfree t = .ok mm) (hb : h.blocks = t :: B) :
    h.kfree t = .ok { h with mm := mm, blocks := B } := by
  unfold Heap.kfree
  rw [hk, hb, List.erase_cons_head]
  rfl

theorem Heap.freePage_eq (hf : h.mm.freePages (pageAt stack) = .ok mm) : h.freePage stack = .ok { h with mm := mm } := by
  unfold Heap.freePage
  show (h.mm.freePages (pageAt stack) >>= fun mm => (Except.ok { h with mm := mm } : Res Heap)) = _
  rw [hf]
  rfl

/-- cleanup_task -/
theorem undo_task (hx : Extends a a₁ ∅ [t - 4]) (hhead : load 4 a₁.mem (t - 4) = 0) :
    ∃ mm, a₁.kfree t = .ok mm ∧ Undone a mm := by
  obtain ⟨mm, hrun, hs⟩ := (Shrinks.refl hx.ok).kfree hx.ok (hx.new_mem (List.mem_singleton_self _)) List.not_mem_nil
    (Set.notMem_empty _) hhead
  exact ⟨mm, hrun, Undone.of hx hs (.refl _)⟩

/-- the header of an object stays while others are allocated -/
theorem header_kept {p : Nat} (hx : Extends a a₁ ∅ [p]) (hx' : Extends a₁ a₂ ∅ N) : load 4 a₂.mem p = load 4 a₁.mem p := by
  have hp := List.mem_singleton_self p
  refine load_congr fun x h1 h2 => hx'.same (hx.new_kept hp) (hx.new_page hp) (Set.notMem_empty _) ⟨h1, ?_⟩
  unfold pageSize
  omega

/-- cleanup_stack -/
theorem undo_stack (hx : Extends a a₁ ∅ [t - 4]) (hhead : load 4 a₁.mem (t - 4) = 0) (hx' : Extends a₁ a₂ ∅ [stack]) :
    ∃ mm₁ mm₂, a₂.freePages (pageAt stack) = .ok mm₁ ∧ mm₁.kfree t = .ok mm₂ ∧ Undone a mm₂ := by
  have hboth : Extends a a₂ ∅ ([stack] ++ [t - 4]) := hx.trans hx' nofun
  have hold := hx'.old_mem (hx.new_mem (List.mem_singleton_self _))
  have hne := hx'.not_new (hx.new_kept (List.mem_singleton_self _))
  obtain ⟨mm₁, hfree, hs₁⟩ := (Shrinks.refl hx'.ok).free hx'.ok (hx'.new_mem (List.mem_singleton_self _)) List.not_mem_nil
  obtain ⟨mm₂, hkfree, hs₂⟩ := hs₁.kfree hx'.ok hold hne (Set.notMem_empty _) ((header_kept hx hx').trans hhead)
  exact ⟨mm₁, mm₂, hfree, hkfree, Undone.of hboth hs₂ (List.Perm.swap _ _ _)⟩

/-- cleanup_page_table -/
theorem undo_table (hx : Extends a a₁ ∅ [t - 4]) (hhead : load 4 a₁.mem (t - 4) = 0) (hx' : Extends a₁ a₂ ∅ [stack])
    {a₃ : Mm} (hx'' : Extends a₂ a₃ ∅ [root]) (hwhole : Whole a₃ root) (hsingle : ∀ s, s ∈ tables a₃.mem 2 root ↔ s = root) :
    ∃ mm₁ mm₂ mm₃, destroyPageTable root a₃ = .ok mm₁ ∧ mm₁.freePages (pageAt stack) = .ok mm₂ ∧ mm₂.kfree t = .ok mm₃ ∧
      Undone a mm₃ := by
  have hlater : Extends a₁ a₃ ∅ ([root] ++ [stack]) := hx'.trans hx'' nofun
  have hall : Extends a a₃ ∅ (([root] ++ [stack]) ++ [t - 4]) := hx.trans hlater nofun
  have hb := doDestroyPageTable_spec hwhole.wf.ok hwhole.wf.tree hwhole.out
  obtain ⟨mm₁, hdestroy⟩ := hb.returns hwhole.flat
  obtain ⟨D, hs, hD⟩ := hb.shrinks mm₁ hdestroy
  have hroot : ∀ s, s ∈ D ↔ s = root := fun s => (hD s).trans (hsingle s)
  have hstack : stack ∉ D := by
    rw [hroot]
    have hne := hx''.not_new (hx'.new_kept (List.mem_singleton_self _))
    exact fun he => hne (he ▸ List.mem_singleton_self _)
  have ht : t - 4 ∉ stack :: D := by
    have hne := hlater.not_new (hx.new_kept (List.mem_singleton_self _))
    rw [List.mem_cons, hroot]
    rintro (he | he)
    · exact hne (he ▸ List.mem_append_right _ (List.mem_singleton_self _))
    · exact hne (he ▸ List.mem_append_left _ (List.mem_singleton_self _))
  obtain ⟨mm₂, hfree, hs₂⟩ := hs.free hwhole.wf.ok (hx''.old_mem (hx'.new_mem (List.mem_singleton_self _))) hstack
  obtain ⟨mm₃, hkfree, hs₃⟩ := hs₂.kfree hwhole.wf.ok (hlater.old_mem (hx.new_mem (List.mem_singleton_self _))) ht
    (Set.notMem_empty _) ((header_kept hx hlater).trans hhead)
  refine ⟨mm₁, mm₂, mm₃, hdestroy, hfree, hkfree, Undone.of hall hs₃ ?_⟩
  have hperm : D.Perm [root] := by
    have hnd : (D.map pageAt).Nodup := (List.nodup_append.mp (hs.out.nodup_iff.mp hwhole.wf.ok.nodup)).1
    refine (List.perm_ext_iff_of_nodup (List.Nodup.of_map _ hnd) (List.nodup_singleton _)).mpr fun s => ?_
    rw [hroot, List.mem_singleton]
  exact ((hperm.cons stack).cons (t - 4)).trans (List.reverse_perm [root, stack, t - 4])

/-- the node cannot be allocated -/
theorem createSched_fails {fails : CreateAlloc → Bool} (hf : fails .node = true) (hp : Partial t h h') (ht : t ∉ h.live)
    (hl : h'.lists = h.lists) (hx : Extends h.mm a₁ ∅ [t - 4]) (hhead : load 4 a₁.mem (t - 4) = 0)
    (hx' : Extends a₁ a₂ ∅ [stack]) (hx'' : Extends a₂ h'.mm ∅ [root]) (hwhole : Whole h'.mm root)
    (hsingle : ∀ s, s ∈ tables h'.mm.mem 2 root ↔ s = root) :
    ∃ r h₂, h'.createSched fails t stack root = .ok (r, h₂) ∧ Released h h₂ ∧ isErr r = true := by
  obtain ⟨mm₁, mm₂, mm₃, hdestroy, hfree, hkfree, hundo⟩ := undo_table hx hhead hx' hx'' hwhole hsingle
  obtain ⟨h₁, hh₁⟩ : ∃ h₁, h₁ = (h'.listInit (.vmAreas t)).setTask t
    { h'.task t with mode := .supervisor, kernelFrame := .taskEntry } := ⟨_, rfl⟩
  have hp₁ : Partial t h h₁ := by
    have hinit : Partial t h (h'.listInit (.vmAreas t)) :=
      ⟨hp.blocks, .inr (by rw [← hl]; rfl), hp.tasks, hp.area, hp.live⟩
    rw [hh₁]
    exact hinit.setTask _
  have hmm : h₁.mm = h'.mm := by rw [hh₁]; rfl
  refine ⟨ERR_PTR (- -ENOMEM), { h₁ with mm := mm₃, blocks := h.blocks }, ?_, hp₁.released ht hundo, by decide⟩
  have hinit : h'.taskInitSchedOr (fails .node) t = .ok (-ENOMEM, h₁) := by
    rw [hf, hh₁]
    rfl
  have hd : h₁.destroyPageTable root = .ok { h₁ with mm := mm₁ } := by
    unfold Heap.destroyPageTable
    rw [hmm, hdestroy]
    rfl
  unfold createSched
  rw [hinit, Res.ok_bind]
  simp only
  rw [if_pos (by decide), hd, Res.ok_bind, Heap.freePage_eq (h := { h₁ with mm := mm₁ }) hfree, Res.ok_bind,
    Heap.kfree_eq (h := { h₁ with mm := mm₂ }) hkfree hp₁.blocks]
  rfl

/-- the table or the node cannot be allocated -/
theorem createTable_fails {fails : CreateAlloc → Bool} (hf : fails .table = true ∨ fails .node = true)
    (hp : Partial t h h') (ht : t ∉ h.live) (hl : h'.lists = h.lists) (hptr : isErr t = false)
    (hx : Extends h.mm a₁ ∅ [t - 4]) (hhead : load 4 a₁.mem (t - 4) = 0) (hx' : Extends a₁ h'.mm ∅ [stack]) :
    (¬ h'.mm.Free (if fails .table then 0 else 1) ∧ h'.createTable fails t stack = outOfMemory) ∨
      (h'.mm.Free (if fails .table then 0 else 1) ∧ ∃ r h₂, h'.createTable fails t stack = .ok (r, h₂) ∧ Released h h₂ ∧
        (isErr r = true ↔ fails .table = false)) := by
  unfold createTable
  by_cases htable : fails .table = true
  · right
    rw [if_pos htable]
    refine ⟨⟨hx'.ok, Nat.zero_le _⟩, ?_⟩
    obtain ⟨mm₁, mm₂, hfree, hkfree, hundo⟩ := undo_stack hx hhead hx'
    obtain ⟨h₁, hh₁⟩ : ∃ h₁, h₁ = h'.setTask t { h'.task t with pageTable := 0 } := ⟨_, rfl⟩
    have hp₁ : Partial t h h₁ := hh₁ ▸ hp.setTask _
    have hmm : h₁.mm = h'.mm := by rw [hh₁]; rfl
    refine ⟨t, { h₁ with mm := mm₂, blocks := h.blocks }, ?_, hp₁.released ht hundo, iff_of_false ?_ ?_⟩
    · rw [htable, createPageTableOr_true, Res.ok_bind]
      simp only [if_true]
      rw [← hh₁, Heap.freePage_eq (hmm ▸ hfree), Res.ok_bind, Heap.kfree_eq (h := { h₁ with mm := mm₁ }) hkfree hp₁.blocks]
      rfl
    · rw [hptr]
      decide
    · rw [htable]
      decide
  · rw [Bool.not_eq_true] at htable
    rw [htable, createPageTableOr_false]
    rw [if_neg Bool.false_ne_true]
    rcases createPageTable_or (hx'.ok) with ⟨hfull, herr⟩ | ⟨root, mm, hrun, h0, hx'', hwhole, hsingle⟩
    · refine .inl ⟨hfull, ?_⟩
      rw [herr]
      rfl
    · right
      refine ⟨(Mm.Free.extends_iff (n := 0) hx'.ok hx'').mpr ⟨hx''.ok, Nat.zero_le _⟩, ?_⟩
      rw [hrun, Res.ok_bind]
      simp only
      rw [if_neg h0]
      obtain ⟨r, h₂, hrun', hrel, herr⟩ := createSched_fails (hf.resolve_left (by rw [htable]; decide))
        ((hp.setMm mm).setTask { h'.task t with pageTable := root }) ht hl hx hhead hx' hx'' hwhole hsingle
      exact ⟨r, h₂, hrun', hrel, iff_of_true herr trivial⟩

/-- the stack cannot be allocated: what is returned is the task that was freed -/
theorem createStack_null {fails : CreateAlloc → Bool} (hstack : fails .stack = true) (hp : Partial t h h') (ht : t ∉ h.live)
    (hx : Extends h.mm h'.mm ∅ [t - 4]) (hhead : load 4 h'.mm.mem (t - 4) = 0) :
    ∃ h₂, h'.createStack fails t = .ok (t, h₂) ∧ Released h h₂ := by
  obtain ⟨mm, hkfree, hundo⟩ := undo_task hx hhead
  refine ⟨{ h' with mm := mm, blocks := h.blocks }, ?_, hp.released ht hundo⟩
  unfold createStack
  rw [hstack, allocPageOr_true, Res.ok_bind]
  simp only [if_true]
  rw [Heap.kfree_eq hkfree hp.blocks]
  rfl

/-- the stack, the table or the node cannot be allocated -/
theorem createStack_fails {fails : CreateAlloc → Bool} (hf : fails .stack = true ∨ fails .table = true ∨ fails .node = true)
    (hp : Partial t h h') (ht : t ∉ h.live) (hl : h'.lists = h.lists) (hptr : isErr t = false)
    (hx : Extends h.mm h'.mm ∅ [t - 4]) (hhead : load 4 h'.mm.mem (t - 4) = 0) :
    (¬ h'.mm.Free (if fails .stack then 0 else if fails .table then 1 else 2) ∧ h'.createStack fails t = outOfMemory) ∨
      (h'.mm.Free (if fails .stack then 0 else if fails .table then 1 else 2) ∧ ∃ r h₂, h'.createStack fails t = .ok (r, h₂) ∧
        Released h h₂ ∧ (isErr r = true ↔ fails .stack = false ∧ fails .table = false)) := by
  by_cases hstack : fails .stack = true
  · obtain ⟨h₂, hrun, hrel⟩ := createStack_null hstack hp ht hx hhead
    rw [if_pos hstack]
    refine .inr ⟨⟨hx.ok, Nat.zero_le _⟩, t, h₂, hrun, hrel, iff_of_false ?_ ?_⟩
    · rw [hptr]
      decide
    · rw [hstack]
      exact fun hfalse => Bool.false_ne_true hfalse.1.symm
  · rw [Bool.not_eq_true] at hstack
    unfold createStack
    rw [hstack, allocPageOr_false]
    rw [if_neg Bool.false_ne_true]
    rcases allocPage_or hx.ok with ⟨hfull, herr⟩ | ⟨stack, mm, hrun, h0, hx'⟩
    · refine .inl ⟨fun hfree => hfull (hfree.mono (by split <;> decide)), ?_⟩
      rw [herr]
      rfl
    · rw [hrun, Res.ok_bind]
      simp only
      rw [if_neg h0]
      have hcount : (if fails .table then 1 else 2) = [stack].length + (if fails .table then 0 else 1) := by split <;> rfl
      rw [hcount, Mm.Free.extends_iff hx.ok hx']
      have hrest : fails .table = true ∨ fails .node = true := hf.resolve_left (by rw [hstack]; decide)
      rcases createTable_fails hrest ((hp.setMm mm).setTask { h'.task t with kernelStack := stack }) ht hl hptr hx hhead hx'
        with herr | ⟨hfree, r, h₂, hrun', hrel, herr⟩
      · exact .inl herr
      · exact .inr ⟨hfree, r, h₂, hrun', hrel, herr.trans (and_iff_right trivial).symm⟩

/-- how many allocations task_create makes before one returns NULL -/
def takenBefore (fails : CreateAlloc → Bool) : Nat :=
  if fails .task then 0 else if fails .stack then 1 else if fails .table then 2 else 3

/-- task_create gives back what it has allocated whatever fails, unless there are too few pages for the allocations before;
it returns an error exactly if what fails first is the allocation of the task or of its node -/
theorem taskCreateOr_fails (h : Heap) (own : Owners) (q : TaskList → List Nat) (fails : CreateAlloc → Bool) (parent : Nat)
    (hw : World h own q) (hf : ∃ x, fails x = true) :
    (¬ h.mm.Free (takenBefore fails) ∧ h.taskCreateOr fails parent = outOfMemory) ∨
      (h.mm.Free (takenBefore fails) ∧ ∃ r h', h.taskCreateOr fails parent = .ok (r, h') ∧ Released h h' ∧
        (FailsCleanly h r h' ↔ fails .task = true ∨ fails .stack = false ∧ fails .table = false)) := by
  have hok := hw.held.ok
  unfold taskCreateOr takenBefore
  by_cases htask : fails .task = true
  · right
    rw [htask, kmallocOr_true, Res.ok_bind]
    simp only [if_true]
    exact ⟨⟨hok, Nat.zero_le _⟩, _, _, rfl, .refl hok, iff_of_true ⟨.refl hok, by decide⟩ (.inl trivial)⟩
  rw [Bool.not_eq_true] at htask
  rw [htask, kmallocOr_false, if_neg Bool.false_ne_true]
  rcases kmalloc_or hok (show sizeofTask ≤ 4092 by decide) with ⟨hfull, herr⟩ | ⟨t, mm, hrun, h4, hx, hhead⟩
  · refine .inl ⟨fun hfree => hfull (hfree.mono (by split <;> [decide; split <;> decide])), ?_⟩
    rw [herr]
    rfl
  have ht0 : t ≠ 0 := by omega
  have hdead : t ∉ h.live := hw.not_live hx
  have hptr : isErr t = false := isErr_of_usable (hx.new_usable (List.mem_singleton_self _))
  have hrest : fails .stack = true ∨ fails .table = true ∨ fails .node = true := by
    obtain ⟨x, hx⟩ := hf
    cases x with
    | task => exact absurd (htask.symm.trans hx) Bool.false_ne_true
    | stack => exact .inl hx
    | table => exact .inr (.inl hx)
    | node => exact .inr (.inr hx)
  have hp : Partial t h (h.numbered parent t mm) := h.numbered_partial parent t mm
  have hcount : (if fails .stack then 1 else if fails .table then 2 else 3) =
      [t - 4].length + (if fails .stack then 0 else if fails .table then 1 else 2) := by
    split <;> [rfl; split <;> rfl]
  rw [hcount, Mm.Free.extends_iff hok hx, hrun, Res.ok_bind]
  simp only
  rw [if_neg ht0]
  rcases createStack_fails hrest hp hdead rfl hptr hx hhead with herr | ⟨hfree, r, h₂, hrun', hrel, herr⟩
  · exact .inl herr
  · refine .inr ⟨hfree, r, h₂, hrun', hrel, fun hclean => .inr (herr.mp hclean.err), fun hcond => ⟨hrel, herr.mpr ?_⟩⟩
    exact hcond.resolve_left Bool.false_ne_true

theorem bootKernel_free (e : Elf) {n : Nat} (hn : n ≤ 766) : (bootKernel e).heap.mm.Free n := (bootMm_start e).room.free.mono hn

/-- at boot, without a node: what was allocated before is given back, and an error is returned -/
theorem taskCreateOr_fails_node : ∃ r h', (bootKernel initImage).heap.taskCreateOr (· == .node) 0 = .ok (r, h') ∧
    FailsCleanly (bootKernel initImage).heap r h' := by
  have hfails := taskCreateOr_fails (bootKernel initImage).heap (fun _ => none) (fun _ => []) (· == .node) 0
    (bootKernel_blank initImage).world ⟨.node, rfl⟩
  have hcount : takenBefore (· == .node) ≤ 766 := show 3 ≤ 766 by omega
  obtain ⟨_, r, h', hrun, _, hclean⟩ := hfails.resolve_left fun hfull => hfull.1 (bootKernel_free initImage hcount)
  exact ⟨r, h', hrun, hclean.mpr (.inr ⟨rfl, rfl⟩)⟩

/-- at boot, without a stack: task_create returns the address of the task that it has freed -/
theorem taskCreate_returns_freed : ∃ r h', (bootKernel initImage).heap.taskCreateOr (· == .stack) 0 = .ok (r, h') ∧
    Released (bootKernel initImage).heap h' ∧ ¬ FailsCleanly (bootKernel initImage).heap r h' := by
  have hw := (bootKernel_blank initImage).world
  have hroom : (bootKernel initImage).heap.mm.Free (0 + 1) := bootKernel_free initImage (by omega)
  obtain ⟨t, h₁, hrun⟩ := kmalloc_room hroom (show sizeofTask ≤ 4092 by decide)
  obtain ⟨mm, rfl, h4, hx, hhead⟩ := kmalloc_spec hw.held.ok (by decide) hrun
  have ht0 : t ≠ 0 := by omega
  have hptr : isErr t = false := isErr_of_usable (hx.new_usable (List.mem_singleton_self _))
  obtain ⟨h₂, hret, hrel⟩ := createStack_null (show (CreateAlloc.stack == CreateAlloc.stack) = true from rfl)
    ((bootKernel initImage).heap.numbered_partial 0 t mm) (hw.not_live hx) hx hhead
  refine ⟨t, h₂, ?_, hrel, fun hclean => ?_⟩
  · have halloc : (bootKernel initImage).heap.kmallocOr (CreateAlloc.task == .stack) sizeofTask = (bootKernel initImage).heap.kmalloc sizeofTask := rfl
    unfold taskCreateOr
    rw [halloc, hrun, Res.ok_bind]
    simp only
    rw [if_neg ht0]
    exact hret
  · exact Bool.false_ne_true (hptr.symm.trans hclean.err)

end FakeKernel
