import FakeKernel.Kernel.Occasion
import FakeKernel.Kernel.Relaunch

/-!
# The registers of a task across traps

* `context`                the registers with which each task is to go on, from the events so far;
* `Saved`, `Suspended`     where they are while the task does not run: which copy counts depends on its kernel frame;
* `Tracked`, `Contexts`    the invariant inside a kernel thread, and between two steps;
* `Contexts.step`          a step keeps it;
* `user_context_preserved` whatever runs in between, a task enters user code with the registers of its last trap.
-/

namespace FakeKernel
open Bytes Mm Heap Kernel

variable {k k' k₁ : Kernel} {h h' : Heap} {own own' : Owners} {q : TaskList → List Nat} {o : Oracle}
  {x y frame : Cpu} {evs : List Event} {t n v : Nat} {th : Thread}

/-! ## contexts -/

/-- the 31 integer registers and the program counter are the same -/
def SameContext (x y : Cpu) : Prop := (∀ r, 1 ≤ r → r ≤ 31 → y.registers r = x.registers r) ∧ y.pc = x.pc

/-- behind the ecall -/
def Cpu.advance (x : Cpu) : Cpu := { x with pc := (x.pc + 4) % wordCount }

/-- the registers with which the tasks go on: those of the trap, and after a system call those behind the ecall with the
result in a0, which is 0 for a forked child -/
def contextStep (ctx : Nat → Option Cpu) : Event → Nat → Option Cpu
  | .trapped t cpu => Function.update ctx t (some cpu)
  | .returned t v => Function.update ctx t ((ctx t).map fun x => x.advance.set REG_A0 v)
  | .forked parent child => Function.update ctx child ((ctx parent).map fun x => x.advance.set REG_A0 0)
  | .entered _ _ => ctx
  | .dispatched _ => ctx
  | .execve _ => ctx
  | .received _ => ctx

/-- `none` for a task that was not in user mode yet -/
def context (evs : List Event) : Nat → Option Cpu := evs.foldl contextStep fun _ => none

theorem context_snoc (evs : List Event) (ev : Event) : context (evs ++ [ev]) = contextStep (context evs) ev := by
  unfold context
  rw [List.foldl_append]
  rfl

/-- the contexts do not change when bytes arrive -/
theorem context_received {rx : List UInt8} {evs' : List Event} (he : evs' = [] ∨ evs' = [.received rx]) :
    context (evs ++ evs') = context evs := by
  rcases he with rfl | rfl
  · rw [List.append_nil]
  · exact context_snoc evs _

theorem SameContext.refl (x : Cpu) : SameContext x x := ⟨fun _ _ _ => rfl, rfl⟩

theorem SameContext.trans {z : Cpu} (h₁ : SameContext x y) (h₂ : SameContext y z) : SameContext x z :=
  ⟨fun r hr hr' => (h₂.1 r hr hr').trans (h₁.1 r hr hr'), h₂.2.trans h₁.2⟩

theorem SameContext.advance (hs : SameContext x y) : SameContext x.advance y.advance := by
  refine ⟨hs.1, ?_⟩
  show (y.pc + 4) % wordCount = (x.pc + 4) % wordCount
  rw [hs.2]

theorem SameContext.set (hs : SameContext x y) (r v : Nat) : SameContext (x.set r v) (y.set r v) := by
  refine ⟨fun r' h1 h31 => ?_, hs.2⟩
  show Function.update y.registers r v r' = Function.update x.registers r v r'
  by_cases he : r' = r
  · rw [he, Function.update_self, Function.update_self]
  · rw [Function.update_of_ne he, Function.update_of_ne he]
    exact hs.1 r' h1 h31

/-! ## trap.S -/

theorem foldl_update (src : Nat → Nat) (l : List Nat) (dest : Nat → Nat) (r : Nat) :
    l.foldl (fun f r => Function.update f r (src r)) dest r = if r ∈ l then src r else dest r := by
  induction l generalizing dest with
  | nil => rfl
  | cons a l ih =>
    rw [List.foldl_cons, ih]
    by_cases hin : r ∈ l
    · rw [if_pos hin, if_pos (List.mem_cons_of_mem a hin)]
    · rw [if_neg hin]
      by_cases he : r = a
      · rw [he, Function.update_self, if_pos List.mem_cons_self]
      · rw [Function.update_of_ne he, if_neg (List.not_mem_cons_of_ne_of_not_mem he hin)]

/-- every register but x0 is moved -/
theorem moveRegisters_apply (src dest : Nat → Nat) {r : Nat} (h1 : 1 ≤ r) (h31 : r ≤ 31) : moveRegisters src dest r = src r := by
  unfold moveRegisters
  by_cases h5 : r = REG_T0
  · rw [h5, Function.update_self]
  · have hin : r ∈ movedRegisters := by
      unfold REG_T0 at h5
      simp only [movedRegisters, List.mem_cons, List.not_mem_nil, or_false]
      omega
    rw [Function.update_of_ne h5, foldl_update, if_pos hin]

theorem trapVector_same (cpu frame : Cpu) : SameContext cpu (trapVector cpu frame) :=
  ⟨fun _ h1 h31 => moveRegisters_apply _ _ h1 h31, rfl⟩

theorem kernelToUser_same (frame : Cpu) : SameContext frame (kernelToUser frame) :=
  ⟨fun _ h1 h31 => moveRegisters_apply _ _ h1 h31, rfl⟩

/-! ## what is saved -/

/-- `frame` holds the registers `c`, if there are any -/
def Holds (c : Option Cpu) (frame : Cpu) : Prop := ∀ x, c = some x → SameContext x frame

/-- what the user frame holds while a text is printed: after a fault the task does not go on -/
def Due (c : Option Cpu) (frame : Cpu) : After → Prop
  | .syscall _ => Holds (c.map Cpu.advance) frame
  | .fault => True

/-- what the user frame holds, by the point where the kernel thread goes on: inside a system call the program counter is
behind the ecall already -/
def Saved (c : Option Cpu) (frame : Cpu) : Thread → Prop
  | .taskEntry => Holds c frame
  | .yieldToUser => Holds c frame
  | .sysYield => Holds (c.map Cpu.advance) frame
  | .getchar => Holds (c.map Cpu.advance) frame
  | .putchar _ _ after => Due c frame after
  | .interrupted => True

/-- a task that does not run goes on in user mode if it was interrupted there, and in its kernel thread otherwise -/
structure Suspended (c : Option Cpu) (x : Task) : Prop where
  mode : x.mode = .user ↔ x.kernelFrame = .yieldToUser
  saved : Saved c x.userFrame x.kernelFrame

/-- every return to user mode so far has restored a context -/
def Restored (evs : List Event) : Prop :=
  ∀ pre t cpu post, evs = pre ++ .entered t cpu :: post → Holds (context pre t) cpu

/-- the tasks that do not run are suspended -/
structure Tracked (k : Kernel) : Prop where
  history : Restored k.trace
  others : ∀ t ∈ k.heap.live, t ≠ k.currentTask → Suspended (context k.trace t) (k.task t)

/-- and the current task is in user mode, or its thread goes on with what was saved -/
structure Contexts (k : Kernel) : Prop where
  tracked : Tracked k
  user : k.ctl = .user → (k.task k.currentTask).kernelFrame = .yieldToUser ∧ ∃ evs cpu, k.trace = evs ++ [.entered k.currentTask cpu]
  thread : k.ctl = .thread →
    Saved (context k.trace k.currentTask) (k.task k.currentTask).userFrame (k.task k.currentTask).kernelFrame ∧
      ((k.task k.currentTask).kernelFrame = .yieldToUser → ∃ evs cpu, k.trace = evs ++ [.trapped k.currentTask cpu])

theorem Restored.nil : Restored [] := fun pre _ _ _ he => absurd he.symm (List.append_ne_nil_of_right_ne_nil pre (List.cons_ne_nil _ _))

theorem Restored.snoc {ev : Event} (hr : Restored evs) (hev : ∀ t cpu, ev = .entered t cpu → Holds (context evs t) cpu) :
    Restored (evs ++ [ev]) := by
  intro pre t cpu post he
  rcases List.eq_nil_or_concat post with rfl | ⟨post', ev', rfl⟩
  · obtain ⟨rfl, hev'⟩ := List.append_inj' he rfl
    exact hev t cpu (List.cons.inj hev').1
  · rw [List.concat_eq_append, ← List.cons_append, ← List.append_assoc] at he
    exact hr pre t cpu post' (List.append_inj' he rfl).1

theorem Restored.received {rx : List UInt8} {evs' : List Event} (hr : Restored evs) (he : evs' = [] ∨ evs' = [.received rx]) :
    Restored (evs ++ evs') := by
  rcases he with rfl | rfl
  · rw [List.append_nil]
    exact hr
  · exact hr.snoc nofun

namespace Tracked

/-- the others and the history are as they were -/
theorem congr (ht : Tracked k) (htr : k'.trace = k.trace) (hcur : k'.currentTask = k.currentTask)
    (hlive : ∀ t ∈ k'.heap.live, t ∈ k.heap.live)
    (htask : ∀ t ∈ k.heap.live, t ≠ k.currentTask → k'.task t = k.task t) : Tracked k' := by
  refine ⟨?_, fun t hin hne => ?_⟩
  · rw [htr]
    exact ht.history
  · rw [hcur] at hne
    rw [htr, htask t (hlive t hin) hne]
    exact ht.others t (hlive t hin) hne

/-- bytes arrive -/
theorem external {rx : List UInt8} (ht : Tracked k) (he : evs = [] ∨ evs = [.received rx]) (htr : k'.trace = k.trace ++ evs)
    (hcur : k'.currentTask = k.currentTask) (hlive : k'.heap.live = k.heap.live) (htask : k'.heap.task = k.heap.task) : Tracked k' := by
  refine ⟨?_, fun t hin hne => ?_⟩
  · rw [htr]
    exact ht.history.received he
  · rw [hlive] at hin
    rw [hcur] at hne
    show Suspended (context k'.trace t) (k'.heap.task t)
    rw [htr, context_received he, htask]
    exact ht.others t hin hne

/-- an event about the current task -/
theorem log (ht : Tracked k) (ev : Event) (hev : ∀ t cpu, ev = .entered t cpu → Holds (context k.trace t) cpu)
    (hctx : ∀ t, t ≠ k.currentTask → contextStep (context k.trace) ev t = context k.trace t) : Tracked (k.log ev) := by
  refine ⟨ht.history.snoc hev, fun t hin hne => ?_⟩
  show Suspended (context (k.trace ++ [ev]) t) (k.task t)
  rw [context_snoc, hctx t hne]
  exact ht.others t hin hne

theorem setTask (ht : Tracked k) (x : Task) : Tracked (k.setTask k.currentTask x) :=
  ht.congr rfl rfl (fun _ => id) fun _ _ hne => Function.update_of_ne hne _ _

/-- the current task does not run any longer -/
theorem leave (ht : Tracked k) (htr : k'.trace = k.trace) (hctl : k'.ctl = .schedule)
    (hlive : ∀ t ∈ k'.heap.live, t ∈ k.heap.live) (htask : ∀ t ∈ k.heap.live, k'.task t = k.task t)
    (hs : k.currentTask ∈ k'.heap.live → Suspended (context k.trace k.currentTask) (k.task k.currentTask)) : Contexts k' := by
  refine ⟨⟨?_, fun t hin _ => ?_⟩, fun hc => ?_, fun hc => ?_⟩
  · rw [htr]
    exact ht.history
  · rw [htr, htask t (hlive t hin)]
    by_cases he : t = k.currentTask
    · rw [he] at hin ⊢
      exact hs hin
    · exact ht.others t (hlive t hin) he
  · exact nomatch hctl.symm.trans hc
  · exact nomatch hctl.symm.trans hc

/-! ### the end of a kernel thread -/

theorem returnToUser (ht : Tracked k) (hf : (k.task k.currentTask).kernelFrame = .yieldToUser)
    (hs : Holds (context k.trace k.currentTask) k.trapframe) : Contexts k.returnToUser := by
  refine ⟨?_, fun _ => ⟨hf, k.trace, _, rfl⟩, nofun⟩
  have ht' : Tracked { k with cpu := kernelToUser k.trapframe, ctl := .user } :=
    ht.congr rfl rfl (fun _ => id) fun _ _ _ => rfl
  refine ht'.log _ (fun t cpu he x hx => ?_) fun _ _ => rfl
  obtain ⟨rfl, rfl⟩ := Event.entered.inj he
  exact (hs x hx).trans (kernelToUser_same _)

theorem yieldToUser (ht : Tracked k) (hs : Holds (context k.trace k.currentTask) (k.task k.currentTask).userFrame) :
    Contexts k.yieldToUser := by
  have ht' : Tracked { k.setTask k.currentTask { k.task k.currentTask with kernelFrame := .yieldToUser } with
      trapframe := (k.task k.currentTask).userFrame } :=
    (ht.setTask { k.task k.currentTask with kernelFrame := .yieldToUser }).congr rfl rfl (fun _ => id) fun _ _ _ => rfl
  refine ht'.returnToUser ?_ hs
  show (Function.update k.heap.task k.currentTask _ k.currentTask).kernelFrame = .yieldToUser
  rw [Function.update_self]

theorem sysReturn (ht : Tracked k)
    (hs : Holds ((context k.trace k.currentTask).map Cpu.advance) (k.task k.currentTask).userFrame) (v : Nat) :
    Contexts (k.sysReturn v) := by
  have ht₁ : Tracked (k.setHeap (k.heap.setFrame k.currentTask ((k.task k.currentTask).userFrame.set REG_A0 v))) :=
    ht.setTask _
  have ht₂ := ht₁.log (.returned k.currentTask v) nofun fun t hne => Function.update_of_ne hne _ _
  refine ht₂.yieldToUser fun x hx => ?_
  have hctx : context (k.trace ++ [.returned k.currentTask v]) k.currentTask = some x := hx
  rw [context_snoc] at hctx
  have hctx : Function.update (context k.trace) k.currentTask
      ((context k.trace k.currentTask).map fun x => x.advance.set REG_A0 v) k.currentTask = some x := hctx
  rw [Function.update_self] at hctx
  obtain ⟨y, hy, rfl⟩ := Option.map_eq_some_iff.mp hctx
  show SameContext _ (Function.update k.heap.task k.currentTask _ k.currentTask).userFrame
  rw [Function.update_self]
  exact (hs y.advance (Option.map_eq_some_iff.mpr ⟨y, hy, rfl⟩)).set REG_A0 v

theorem scheduleNext (ht : Tracked k) (hs : Suspended (context k.trace k.currentTask) (k.task k.currentTask)) :
    Contexts k.scheduleNext := ht.leave rfl rfl (fun _ => id) (fun _ _ => rfl) fun _ => hs

/-- the kernel thread waits -/
theorem wait {group : TaskList} (ht : Tracked k) (hrun : k.wait group th = .ok k') (hne : th ≠ .yieldToUser)
    (hs : Saved (context k.trace k.currentTask) (k.task k.currentTask).userFrame th) : Contexts k' := by
  unfold Kernel.wait at hrun
  obtain ⟨_, _, hrun⟩ := Res.bind_eq_ok.mp hrun
  cases hrun
  refine (ht.setTask { k.task k.currentTask with mode := .supervisor, kernelFrame := th }).leave rfl rfl (fun _ => id)
    (fun _ _ => rfl) fun _ => ?_
  show Suspended _ (Function.update k.heap.task k.currentTask _ k.currentTask)
  rw [Function.update_self]
  exact ⟨⟨nofun, fun he => absurd he hne⟩, hs⟩

theorem destroyCurrent (ht : Tracked k) (ha : Active k own q) (hrun : k.destroyCurrent = .ok k') : Contexts k' := by
  unfold Kernel.destroyCurrent at hrun
  obtain ⟨h', hdes, hret⟩ := Res.bind_eq_ok.mp hrun
  cases hret
  obtain ⟨D, hd⟩ := taskDestroy_destroyed ha.world ha.live (ha.node ▸ ha.detached) hdes
  have hlive : h'.live = k.heap.live.erase k.currentTask := hd.live
  refine ht.leave rfl rfl (fun t hin => ?_) (fun t _ => ?_) fun hin => ?_
  · have hin : t ∈ h'.live := hin
    rw [hlive] at hin
    exact List.mem_of_mem_erase hin
  · show h'.task t = k.heap.task t
    rw [hd.task]
  · have hin : k.currentTask ∈ h'.live := hin
    rw [hlive] at hin
    exact absurd rfl ((List.Nodup.mem_erase_iff ha.world.held.nodup.2).mp hin).1

theorem finish {after : After} (ht : Tracked k) (ha : Active k own q)
    (hs : Due (context k.trace k.currentTask) (k.task k.currentTask).userFrame after) (hrun : k.finish after = .ok k') :
    Contexts k' := by
  cases after with
  | syscall v =>
    cases hrun
    exact ht.sysReturn hs v
  | fault => exact ht.destroyCurrent ha hrun

theorem setUart (ht : Tracked k) (u : Uart) : Tracked { k with uart := u } := ht.congr rfl rfl (fun _ => id) fun _ _ _ => rfl

theorem putText {lsr : Nat → List Bool} {text : List UInt8} {after : After} (ht : Tracked k) (ha : Active k own q)
    (hs : Due (context k.trace k.currentTask) (k.task k.currentTask).userFrame after)
    (hrun : k.putText lsr text after = .ok k') : Contexts k' := by
  induction text generalizing k with
  | nil => exact ht.finish ha hs hrun
  | cons c text ih =>
    unfold Kernel.putText at hrun
    cases hput : k.uart.uartputc c (lsr text.length) with
    | none =>
      rw [hput] at hrun
      exact ht.wait hrun (fun he => Thread.noConfusion he) hs
    | some u =>
      rw [hput] at hrun
      exact ih (ht.setUart u) (ha.setUart u) hs hrun

theorem getchar (ht : Tracked k)
    (hs : Holds ((context k.trace k.currentTask).map Cpu.advance) (k.task k.currentTask).userFrame)
    (hrun : k.getchar = .ok k') : Contexts k' := by
  unfold Kernel.getchar at hrun
  cases hget : k.uart.getchar with
  | none =>
    rw [hget] at hrun
    exact ht.wait hrun (fun he => Thread.noConfusion he) hs
  | some cu =>
    rw [hget] at hrun
    cases hrun
    exact (ht.setUart cu.2).sysReturn hs _

end Tracked

/-! ## fork and the growth of the stack -/

/-- what task_clone leaves of the tasks: the child goes on like the parent -/
theorem TaskCloned.tasks {regs : Cpu} (hc : TaskCloned q regs k.currentTask k own k' own' t n) (hcur : k.currentTask ∈ k.heap.live) :
    (∀ t' ∈ k.heap.live, t' ≠ k.currentTask → k'.task t' = k.task t') ∧
      (k'.task k.currentTask).userFrame = (k.task k.currentTask).userFrame ∧
      (k'.task t).mode = .supervisor ∧ (k'.task t).kernelFrame = .taskEntry ∧
      (k'.task t).userFrame = (k.task k.currentTask).userFrame := by
  obtain ⟨h₁, own₁, stack, root, k₁, ha, _, _, hcon, rfl⟩ := hc.steps
  have hold : ∀ t' ∈ k.heap.live, h₁.task t' = k.heap.task t' := fun t' hin => by
    rw [ha.task, Function.update_of_ne fun he : t' = t => ha.fresh (he ▸ hin)]
  have hne : ∀ t' ∈ k.heap.live, t' ≠ t := fun t' hin he => ha.fresh (he ▸ hin)
  have hother : ∀ t', t' ≠ k.currentTask → k₁.heap.task t' = h₁.task t' := hcon.other
  have hframe : (k₁.heap.task k.currentTask).userFrame = (k.task k.currentTask).userFrame := by
    obtain ⟨f, hf⟩ : Kernel.SameFrame (h₁.task k.currentTask) (k₁.heap.task k.currentTask) := hcon.task k.currentTask
    rw [hf, hold _ hcur]
    rfl
  have hchild : (k₁.setHeap (k₁.heap.setFrame t (k₁.task k.currentTask).userFrame)).task t
      = { h₁.task t with userFrame := (k₁.task k.currentTask).userFrame } := by
    show Function.update k₁.heap.task t _ t = _
    rw [Function.update_self, hother t (hne _ hcur).symm]
  refine ⟨fun t' hin hcne => ?_, ?_, ?_, ?_, ?_⟩
  · show Function.update k₁.heap.task t _ t' = k.heap.task t'
    rw [Function.update_of_ne (hne t' hin), hother t' hcne, hold t' hin]
  · show (Function.update k₁.heap.task t _ k.currentTask).userFrame = _
    rw [Function.update_of_ne (hne _ hcur)]
    exact hframe
  · rw [hchild, ha.task, Function.update_self]
    rfl
  · rw [hchild, ha.task, Function.update_self]
    rfl
  · rw [hchild]
    exact hframe

namespace Tracked

theorem sysFork (ht : Tracked k) (ha : Active k own q)
    (hs : Holds ((context k.trace k.currentTask).map Cpu.advance) (k.task k.currentTask).userFrame)
    (hrun : k.sysFork o = .ok k') : Contexts k' := by
  unfold Kernel.sysFork at hrun
  obtain ⟨⟨child, k₁⟩, hclone, hrun⟩ := Res.bind_eq_ok.mp hrun
  obtain ⟨hgood, own', n, hc⟩ := taskClone_cloned ha.world ha.live hclone
  simp only [hgood, Bool.false_eq_true, if_false] at hrun
  cases hrun
  obtain ⟨hothers, hframe, hmode, hthread, hchild⟩ := hc.tasks ha.live
  obtain ⟨hfresh, hlive⟩ := hc.live
  obtain ⟨_, _, _, hk₁⟩ := hc.control
  have hcur : k₁.currentTask = k.currentTask := by rw [hk₁]
  have htr : k₁.trace = k.trace := by rw [hk₁]
  have hne : ∀ t ∈ k.heap.live, t ≠ child := fun t hin he => hfresh (he ▸ hin)
  have hctx : ∀ t, context (k₁.trace ++ [.forked k₁.currentTask child]) t = Function.update (context k.trace) child
      ((context k.trace k.currentTask).map fun x => x.advance.set REG_A0 0) t := fun t => by
    rw [context_snoc, htr, hcur]
    rfl
  have ht₃ : Tracked ((k₁.setHeap (k₁.heap.setFrame child ((k₁.task child).userFrame.set REG_A0 0))).log
      (.forked k₁.currentTask child)) := by
    refine ⟨?_, fun t hin htne => ?_⟩
    · have hhist : Restored k₁.trace := htr ▸ ht.history
      exact hhist.snoc nofun
    · have hin : t ∈ k₁.heap.live := hin
      have htne : t ≠ k₁.currentTask := htne
      rw [hlive] at hin
      rw [hcur] at htne
      show Suspended (context (k₁.trace ++ [.forked k₁.currentTask child]) t)
        (Function.update k₁.heap.task child { k₁.task child with userFrame := (k₁.task child).userFrame.set REG_A0 0 } t)
      rw [hctx]
      cases List.mem_cons.mp hin with
      | inl he =>
        rw [he, Function.update_self, Function.update_self]
        refine ⟨?_, ?_⟩
        · rw [hmode, hthread]
          exact ⟨nofun, nofun⟩
        · rw [hthread]
          intro x hx
          obtain ⟨y, hy, rfl⟩ := Option.map_eq_some_iff.mp hx
          rw [hchild]
          exact (hs y.advance (Option.map_eq_some_iff.mpr ⟨y, hy, rfl⟩)).set REG_A0 0
      | inr hold =>
        rw [Function.update_of_ne (hne t hold), Function.update_of_ne (hne t hold)]
        show Suspended _ (k₁.task t)
        rw [hothers t hold htne]
        exact ht.others t hold htne
  refine ht₃.sysReturn ?_ _
  show Holds ((context (k₁.trace ++ [.forked k₁.currentTask child]) k₁.currentTask).map Cpu.advance)
    (Function.update k₁.heap.task child _ k₁.currentTask).userFrame
  rw [hctx, hcur, Function.update_of_ne (hne _ ha.live), Function.update_of_ne (hne _ ha.live)]
  show Holds _ (k₁.task k.currentTask).userFrame
  rw [hframe]
  exact hs

end Tracked

theorem expandStack_task {table a va fuel : Nat} (hw : WellFormed h.mm table) (ht : (h.task t).pageTable = table)
    (hrun : h.expandStack t a va fuel = .ok h') : h'.task = h.task := by
  induction fuel generalizing h with
  | zero => exact nomatch hrun
  | succ fuel ih =>
    unfold Heap.expandStack at hrun
    by_cases hlt : va < (h.area a).va
    · rw [if_pos hlt] at hrun
      obtain ⟨h₁, hgrow, hrun⟩ := Res.bind_eq_ok.mp hrun
      obtain ⟨_, hr, _, _, _, _, htask, _⟩ := growStack_run hw (.refl h.mm) ht hgrow
      exact (ih (hr.inv hw).1 (by rw [htask, ht]) hrun).trans htask
    · rw [if_neg hlt] at hrun
      cases hrun
      rfl

/-! ## system calls -/

namespace Tracked

theorem syscall (ht : Tracked k) (ha : Active k own q) (hexec : (k.task k.currentTask).userFrame.registers REG_A7 ≠ SYS_execve)
    (hs : Holds ((context k.trace k.currentTask).map Cpu.advance) (k.task k.currentTask).userFrame)
    (hrun : k.syscall o = .ok k') : Contexts k' := by
  have hdue : Due (context k.trace k.currentTask) (k.task k.currentTask).userFrame (.syscall 0) := hs
  unfold Kernel.syscall at hrun
  simp only [hexec, if_false] at hrun
  split at hrun
  · exact ht.getchar hs hrun
  split at hrun
  · exact ht.putText ha hdue hrun
  split at hrun
  · cases hrun
    exact ht.sysReturn hs _
  split at hrun
  · cases hrun
    refine (ht.setTask _).scheduleNext ?_
    show Suspended _ (Function.update k.heap.task k.currentTask _ k.currentTask)
    rw [Function.update_self]
    exact ⟨⟨nofun, nofun⟩, hs⟩
  split at hrun
  · exact ht.sysFork ha hs hrun
  split at hrun
  · exact ht.destroyCurrent ha hrun
  split at hrun
  · exact ht.putText ha hdue hrun
  · cases hrun
    exact ht.sysReturn hs _

theorem taskEntryTrap (ht : Tracked k) (ha : Active k own q)
    (hexec : k.scause = 8 → (k.task k.currentTask).userFrame.registers REG_A7 ≠ SYS_execve)
    (hs : Holds (context k.trace k.currentTask) (k.task k.currentTask).userFrame) (hrun : k.taskEntryTrap o = .ok k') :
    Contexts k' := by
  unfold Kernel.taskEntryTrap at hrun
  simp only at hrun
  have hdue : Due (context k.trace k.currentTask) (k.task k.currentTask).userFrame .fault := trivial
  have hfault : k.taskFault o = .ok k' → Contexts k' := ht.putText ha hdue
  by_cases hcall : k.scause = 8
  · rw [if_pos hcall] at hrun
    obtain ⟨frame, hframe⟩ : ∃ frame, frame = (k.task k.currentTask).userFrame.advance := ⟨_, rfl⟩
    have hself : (k.setHeap (k.heap.setFrame k.currentTask frame)).task k.currentTask
        = { k.task k.currentTask with userFrame := frame } := Function.update_self _ _ _
    have hrun : (k.setHeap (k.heap.setFrame k.currentTask frame)).syscall o = .ok k' := by
      rw [hframe]
      exact hrun
    refine (ht.setTask _).syscall (ha.setFrame k.currentTask frame).active ?_ ?_ hrun
    · show ((k.setHeap (k.heap.setFrame k.currentTask frame)).task k.currentTask).userFrame.registers REG_A7 ≠ _
      rw [hself, hframe]
      exact hexec hcall
    · show Holds _ ((k.setHeap (k.heap.setFrame k.currentTask frame)).task k.currentTask).userFrame
      rw [hself, hframe]
      intro x hx
      obtain ⟨y, hy, rfl⟩ := Option.map_eq_some_iff.mp hx
      exact (hs y hy).advance
  rw [if_neg hcall] at hrun
  by_cases hpf : k.scause = 13 ∨ k.scause = 15
  · rw [if_pos hpf] at hrun
    by_cases hst : userStackMin ≤ k.stval ∧ k.stval < userStack
    · rw [if_pos hst] at hrun
      obtain ⟨a, hfind, hrun⟩ := Res.bind_eq_ok.mp hrun
      by_cases h0 : a ≠ 0
      · rw [if_pos h0] at hrun
        obtain ⟨h', hexp, hret⟩ := Res.bind_eq_ok.mp hrun
        cases hret
        obtain ⟨_, harea⟩ := vmFindStack_area (ha.world.areas _ ha.live) hfind h0
        obtain ⟨_, hg⟩ := expandStack_world ha.world ha.live harea hexp
        have htask := expandStack_task (ha.world.maps _ ha.live).wf rfl hexp
        have ht' : Tracked (k.setHeap h') := ht.congr rfl rfl (fun t hin => hg.live ▸ hin) fun t _ _ => congrFun htask t
        refine ht'.yieldToUser ?_
        show Holds _ (h'.task k.currentTask).userFrame
        rw [htask]
        exact hs
      · rw [if_neg h0] at hrun
        exact hfault hrun
    · rw [if_neg hst] at hrun
      exact hfault hrun
  · rw [if_neg hpf] at hrun
    exact hfault hrun

theorem resume (ht : Tracked k) (ha : Active k own q) (hexec : ¬ k.Execve)
    (hs : Saved (context k.trace k.currentTask) (k.task k.currentTask).userFrame (k.task k.currentTask).kernelFrame)
    (hrun : k.resume o = .ok k') : Contexts k' := by
  unfold Kernel.resume at hrun
  cases hth : (k.task k.currentTask).kernelFrame with
  | taskEntry =>
    rw [hth] at hrun hs
    cases hrun
    exact ht.yieldToUser hs
  | yieldToUser =>
    rw [hth] at hrun hs
    exact ht.taskEntryTrap ha (fun hcall hreg => hexec ⟨hth, hcall, hreg⟩) hs hrun
  | sysYield =>
    rw [hth] at hrun hs
    cases hrun
    exact ht.sysReturn hs 0
  | getchar =>
    rw [hth] at hrun hs
    exact ht.getchar hs hrun
  | putchar c text after =>
    rw [hth] at hrun hs
    simp only at hrun
    cases hput : k.uart.uartputcWoken c (o.lsr text.length) with
    | none =>
      rw [hput] at hrun
      exact ht.wait hrun (fun he => Thread.noConfusion he) hs
    | some u =>
      rw [hput] at hrun
      exact (ht.setUart u).putText (ha.setUart u) hs hrun
  | interrupted =>
    rw [hth] at hrun
    exact absurd hrun Res.panic_ne_ok

end Tracked

/-! ## traps and dispatching -/

namespace Contexts

/-- the state of trap_vector on a trap of user code -/
theorem trapped (hk : Contexts k) (hctl : k.ctl = .user) (htr : k'.trace = k.trace ++ [.trapped k.currentTask k.cpu])
    (hcur : k'.currentTask = k.currentTask) (hheap : k'.heap = k.heap) :
    Tracked k' ∧ context k'.trace k'.currentTask = some k.cpu ∧ (k'.task k'.currentTask).kernelFrame = .yieldToUser := by
  have ht : Tracked (k.log (.trapped k.currentTask k.cpu)) :=
    hk.tracked.log _ nofun fun t hne => Function.update_of_ne hne _ _
  have htask : k'.task = k.task := by
    unfold Kernel.task
    rw [hheap]
  refine ⟨ht.congr htr hcur (fun t hin => ?_) fun t _ _ => congrFun htask t, ?_, ?_⟩
  · rw [hheap] at hin
    exact hin
  · rw [htr, hcur, context_snoc]
    exact Function.update_self _ _ _
  · rw [htask, hcur]
    exact (hk.user hctl).1

theorem userInterrupt {i : Interrupt} (hk : Contexts k) (ha : Active k own q) (hctl : k.ctl = .user)
    (hrun : k.userInterrupt i = .ok k') : Contexts k' := by
  unfold Kernel.userInterrupt at hrun
  obtain ⟨k₂, hint, hrun⟩ := Res.bind_eq_ok.mp hrun
  obtain ⟨k₁, hk₁⟩ : ∃ k₁, k₁ = { k.log (.trapped k.currentTask k.cpu) with trapframe := trapVector k.cpu k.trapframe } := ⟨_, rfl⟩
  obtain ⟨ht, hctx, hframe⟩ : Tracked k₁ ∧ _ := hk.trapped hctl (by rw [hk₁]; rfl) (by rw [hk₁]; rfl) (by rw [hk₁]; rfl)
  have hsame : Holds (context k₁.trace k₁.currentTask) k₁.trapframe := by
    intro x hx
    rw [hctx] at hx
    rw [← Option.some.inj hx, hk₁]
    exact trapVector_same _ _
  have hint : k₁.handleInterrupt i .user = .ok k₂ := hk₁ ▸ hint
  have ha₁ : Active k₁ own q := by
    rw [hk₁]
    exact (ha.control rfl rfl rfl rfl ⟨[.trapped k.currentTask k.cpu], rfl, rfl⟩ : Within q k own
      { k.log (.trapped k.currentTask k.cpu) with trapframe := trapVector k.cpu k.trapframe }).active
  cases i with
  | timer =>
    cases hrun
    have hne : k₁.currentTask ≠ 0 := fun e => ha₁.world.zero_not_live (e ▸ ha₁.live)
    unfold Kernel.handleInterrupt at hint
    simp only [hne, if_false] at hint
    cases hint
    refine (ht.setTask { k₁.task k₁.currentTask with userFrame := k₁.trapframe, mode := .user }).scheduleNext ?_
    show Suspended _ (Function.update k₁.heap.task k₁.currentTask _ k₁.currentTask)
    rw [Function.update_self]
    refine ⟨⟨fun _ => hframe, fun _ => rfl⟩, ?_⟩
    show Saved _ k₁.trapframe (k₁.task k₁.currentTask).kernelFrame
    rw [hframe]
    exact hsame
  | external irq rx lsr =>
    cases hrun
    obtain ⟨u, L', evs, _, rfl, he, _⟩ := external_spec ha₁.world hint
    have ht₂ : Tracked { k₁ with uart := u, heap := { k₁.heap with lists := L' }, trace := k₁.trace ++ evs } :=
      ht.external he rfl rfl rfl rfl
    refine ht₂.returnToUser hframe ?_
    show Holds (context (k₁.trace ++ evs) k₁.currentTask) k₁.trapframe
    rw [context_received he]
    exact hsame

theorem userException (hk : Contexts k) (hctl : k.ctl = .user) (code stval : Nat) : Contexts (k.userException code stval) := by
  obtain ⟨k₁, hk₁⟩ : ∃ k₁, k₁ = { k.log (.trapped k.currentTask k.cpu) with
    trapframe := trapVector k.cpu k.trapframe, scause := code, stval := stval } := ⟨_, rfl⟩
  obtain ⟨ht, hctx, hframe⟩ : Tracked k₁ ∧ _ := hk.trapped hctl (by rw [hk₁]; rfl) (by rw [hk₁]; rfl) (by rw [hk₁]; rfl)
  have htr : k₁.trace = k.trace ++ [.trapped k₁.currentTask k.cpu] := by
    rw [hk₁]
    rfl
  have he : k.userException code stval = { k₁.setHeap (k₁.heap.setFrame k₁.currentTask k₁.trapframe) with ctl := .thread } := by
    rw [hk₁]
    rfl
  rw [he]
  have hself : (k₁.setHeap (k₁.heap.setFrame k₁.currentTask k₁.trapframe)).task k₁.currentTask
      = { k₁.task k₁.currentTask with userFrame := k₁.trapframe } := Function.update_self _ _ _
  refine ⟨(ht.setTask _).congr rfl rfl (fun _ => id) fun _ _ _ => rfl, nofun, fun _ => ⟨?_, fun _ => ⟨k.trace, k.cpu, htr⟩⟩⟩
  show Saved (context k₁.trace k₁.currentTask)
    ((k₁.setHeap (k₁.heap.setFrame k₁.currentTask k₁.trapframe)).task k₁.currentTask).userFrame
    ((k₁.setHeap (k₁.heap.setFrame k₁.currentTask k₁.trapframe)).task k₁.currentTask).kernelFrame
  rw [hself]
  show Saved _ k₁.trapframe (k₁.task k₁.currentTask).kernelFrame
  rw [hframe, hctx]
  intro x hx
  rw [← Option.some.inj hx, hk₁]
  exact trapVector_same _ _

/-- nobody runs: all live tasks are suspended -/
theorem suspended (hk : Contexts k) (ha : Inactive k own q) (hin : t ∈ k.heap.live) : Suspended (context k.trace t) (k.task t) :=
  hk.tracked.others t hin fun he => ha.world.zero_not_live (ha.nobody.1 ▸ he ▸ hin)

theorem doSchedule (hk : Contexts k) (ha : Inactive k own q) (hrun : k.doSchedule = .ok k') : Contexts k' := by
  cases doSchedule_cases hrun with
  | inl hidle =>
    obtain ⟨_, rfl⟩ := hidle
    exact ⟨hk.tracked.congr rfl rfl (fun _ => id) fun _ _ _ => rfl, nofun, nofun⟩
  | inr hdis =>
    obtain ⟨h0, hk'⟩ := hdis
    obtain ⟨n, l, hg⟩ : ∃ n l, q .tasks = n :: l := by
      have hc := (ha.world.queues.queue .tasks).chain
      cases hg : q .tasks with
      | nil =>
        rw [hg] at hc
        exact absurd hc h0
      | cons n l => exact ⟨n, l, rfl⟩
    obtain ⟨ha₁, hq₁, htr₁⟩ := ha.dispatch hg
    have hctx : context k.dispatch.trace = context k.trace := by
      rw [htr₁, context_snoc]
      rfl
    have hall : ∀ t ∈ k.dispatch.heap.live, Suspended (context k.dispatch.trace t) (k.dispatch.task t) := fun t hin => by
      rw [hctx]
      exact hk.suspended ha hin
    have ht : Tracked k.dispatch := by
      refine ⟨?_, fun t hin _ => hall t hin⟩
      rw [htr₁]
      exact hk.tracked.history.snoc nofun
    have hcur := hall _ ha₁.live
    cases hk' with
    | inl hsup =>
      obtain ⟨rfl, hmode⟩ := hsup
      refine ⟨ht.congr rfl rfl (fun _ => id) fun _ _ _ => rfl, nofun, fun _ => ⟨hcur.saved, fun hthread => ?_⟩⟩
      exact nomatch hmode.symm.trans (hcur.mode.mpr hthread)
    | inr huser =>
      obtain ⟨rfl, hmode⟩ := huser
      have hthread := hcur.mode.mp hmode
      have hs := hcur.saved
      rw [hthread] at hs
      have ht' : Tracked { k.dispatch with trapframe := (k.dispatch.task k.dispatch.currentTask).userFrame } :=
        ht.congr rfl rfl (fun _ => id) fun _ _ _ => rfl
      exact ht'.returnToUser hthread hs

theorem idleInterrupt {i : Interrupt} {regs : Cpu} (hk : Contexts k) (ha : Inactive k own q)
    (hrun : k.idleInterrupt regs i = .ok k') : Contexts k' := by
  unfold Kernel.idleInterrupt at hrun
  obtain ⟨k₂, hint, hret⟩ := Res.bind_eq_ok.mp hrun
  cases hret
  obtain ⟨k₁, hk₁⟩ : ∃ k₁, k₁ = { k with trapframe := trapVector regs k.trapframe } := ⟨_, rfl⟩
  have hint : k₁.handleInterrupt i .supervisor = .ok k₂ := hk₁ ▸ hint
  have ha₁ : Inactive k₁ own q := by
    rw [hk₁]
    exact ⟨ha.world, ha.nobody, ha.queued⟩
  have ht : Tracked k₁ := by
    rw [hk₁]
    exact hk.tracked.congr rfl rfl (fun _ => id) fun _ _ _ => rfl
  cases i with
  | timer =>
    unfold Kernel.handleInterrupt at hint
    simp only [ha₁.nobody.1, if_true] at hint
    cases hint
    exact ⟨ht.congr rfl rfl (fun _ => id) fun _ _ _ => rfl, nofun, nofun⟩
  | external irq rx lsr =>
    obtain ⟨u, L', evs, _, rfl, he, _⟩ := external_spec ha₁.world hint
    exact ⟨ht.external he rfl rfl rfl rfl, nofun, nofun⟩

/-- a step keeps the invariant -/
theorem step (hk : Contexts k) (hc : Consistent k own q) (hs : Step k k') : Contexts k' := by
  cases hs with
  | compute cpu h => exact ⟨hk.tracked.congr rfl rfl (fun _ => id) fun _ _ _ => rfl, hk.user, hk.thread⟩
  | store va tr b h => exact ⟨hk.tracked.congr rfl rfl (fun _ => id) fun _ _ _ => rfl, hk.user, hk.thread⟩
  | interrupt i h hrun => exact hk.userInterrupt (hc.active (.inl h)) h hrun
  | exception code stval h => exact hk.userException h code stval
  | resume o h hexec hrun => exact hk.tracked.resume (hc.active (.inr h)) hexec (hk.thread h).1 hrun
  | schedule h hrun => exact hk.doSchedule (hc.inactive (.inl h)) hrun
  | idle regs i h hrun => exact hk.idleInterrupt (hc.inactive (.inr h)) hrun

theorem steps (hk : Contexts k) (hc : Consistent k own q) (hs : Steps k k') : Contexts k' := by
  induction hs with
  | refl => exact hk
  | tail hs hstep ih =>
    obtain ⟨_, _, _, hc₁, _⟩ := Steps.consistent hs hc
    exact ih.step hc₁ hstep

end Contexts

/-! ## from boot on -/

theorem Kernel.Booted.contexts (hb : k.Booted) : Contexts k := by
  obtain ⟨k₀, argv, envp, hblank, hrun⟩ := hb
  unfold Kernel.init at hrun
  obtain ⟨⟨t, h₁⟩, hcreate, hrun⟩ := Res.bind_eq_ok.mp hrun
  obtain ⟨⟨r, h₂⟩, helf, hret⟩ := Res.bind_eq_ok.mp hrun
  cases hret
  have hid : 0 < k₀.heap.nextTaskId := by
    rw [hblank.pids]
    exact Nat.one_pos
  obtain ⟨own₁, n, stack, root, ha⟩ := taskCreate_added hblank.world hid hcreate
  have hlive : h₁.live = [t] := by rw [ha.live, hblank.live]
  have ht : t ∈ h₁.live := hlive ▸ List.mem_singleton_self t
  obtain ⟨own, hg⟩ := taskInitElf_world ha.world ht helf
  obtain ⟨frame, htask⟩ := taskInitElf_task ha.world ht helf
  refine ⟨⟨?_, fun t' hin _ => ?_⟩, nofun, nofun⟩
  · show Restored k₀.trace
    rw [hblank.trace]
    exact .nil
  · have hin : t' ∈ h₂.live := hin
    rw [hg.live, hlive, List.mem_singleton] at hin
    show Suspended (context k₀.trace t') (h₂.task t')
    rw [hin, htask, hblank.trace]
    show Suspended none (Function.update h₁.task t { h₁.task t with userFrame := frame } t)
    rw [Function.update_self, ha.task, Function.update_self]
    exact ⟨⟨nofun, nofun⟩, fun _ => nofun⟩

/-- what holds of the registers in a run -/
structure ContextKept (k : Kernel) : Prop where
  /-- each time a task enters user mode, its registers are those of its last trap, moved on by its system call -/
  entered : ∀ pre t cpu post, k.trace = pre ++ .entered t cpu :: post → ∀ x, context pre t = some x → SameContext x cpu
  /-- user code runs only when it was entered -/
  user : k.ctl = .user → ∃ evs cpu, k.trace = evs ++ [.entered k.currentTask cpu]
  /-- and a system call begins only when it was trapped -/
  trapped : k.ctl = .thread → (k.task k.currentTask).kernelFrame = .yieldToUser →
    ∃ evs cpu, k.trace = evs ++ [.trapped k.currentTask cpu]

/-- **Contexts.**  Whatever runs in between, a task enters user mode with the registers of its last trap, behind the ecall and with
the result in a0 when a system call has completed. -/
theorem user_context_preserved (hr : k.Reachable) : ContextKept k := by
  obtain ⟨k₀, hb, hs⟩ := hr
  obtain ⟨own, n, ha, hctl, _⟩ := hb.inactive
  have hk := hb.contexts.steps (ha.consistent (.inl hctl)) hs
  exact ⟨hk.tracked.history, fun h => (hk.user h).2, fun h => (hk.thread h).2⟩

/-- the theorem when an interrupt of no device comes while the first task runs -/
theorem user_context_preserved_first : ∃ (k : Kernel) (evs : List Event) (x cpu : Cpu), k.Reachable ∧
    k.trace = evs ++ [.entered k.currentTask cpu] ∧ context evs k.currentTask = some x ∧ SameContext x cpu := by
  obtain ⟨k, own, t, ns, hf⟩ := first_user
  obtain ⟨k₁, hk₁⟩ : ∃ k₁, k₁ = { k.log (.trapped k.currentTask k.cpu) with trapframe := trapVector k.cpu k.trapframe } := ⟨_, rfl⟩
  have hrun : k.userInterrupt (.external 0 [] []) = .ok k₁.returnToUser := by
    rw [hk₁]
    rfl
  obtain ⟨k₀, hboot, hsteps⟩ := hf.reachable
  have hr : k₁.returnToUser.Reachable := ⟨k₀, hboot, hsteps.tail (.interrupt _ hf.ctl hrun)⟩
  have hctx : context k₁.trace k₁.currentTask = some k.cpu := by
    rw [hk₁]
    show context (k.trace ++ [.trapped k.currentTask k.cpu]) k.currentTask = _
    rw [context_snoc]
    exact Function.update_self _ _ _
  have hkept := user_context_preserved hr
  exact ⟨k₁.returnToUser, k₁.trace, k.cpu, _, hr, rfl, hctx, hkept.entered k₁.trace _ _ [] rfl _ hctx⟩

end FakeKernel
