import FakeKernel.Kernel.Context

/-!
# System calls

* `Phase`, `protocolStep`   what may happen to a task next: it traps, it may get an answer, and it goes back to user mode;
* `Answer`                  what each system call answers;
* `Ended`, `resume_ended`   how a stretch of a kernel thread ends;
* `Follows`, `Follows.step` every step of every task follows the protocol;
* `syscalls_answered`       so each call gets one answer at most, and the right one, however often its thread has waited.
-/

namespace FakeKernel
open Bytes Mm Heap Kernel

variable {k k' k₁ k₂ : Kernel} {h h' : Heap} {own own' : Owners} {q : TaskList → List Nat} {o : Oracle}
  {x y : Cpu} {evs evs' : List Event} {t n v : Nat} {th : Thread} {A A' : Nat → Prop} {P P' : Thread → Prop} {F F' : Prop}

/-! ## the protocol -/

inductive Phase where
  /-- it was not in user mode yet -/
  | fresh
  | user
  /-- it trapped with these registers -/
  | kernel (x : Cpu)
  /-- its system call has completed -/
  | answered

abbrev Phases := Nat → Phase

/-- an event that the protocol does not allow is refused -/
def protocolStep (p : Phases) : Event → Option Phases
  | .trapped t cpu =>
    match p t with
    | .user => some (Function.update p t (.kernel cpu))
    | _ => none
  | .returned t _ =>
    match p t with
    | .kernel _ => some (Function.update p t .answered)
    | _ => none
  | .entered t _ =>
    match p t with
    | .user => none
    | _ => some (Function.update p t .user)
  | .forked parent child =>
    match p parent with
    | .kernel x => if x.registers REG_A7 = SYS_fork then some (Function.update p child .fresh) else none
    | _ => none
  | .dispatched _ => some p
  | .execve _ => none
  | .received _ => some p

def protocol (evs : List Event) : Option Phases := evs.foldlM protocolStep fun _ => .fresh

/-- what the system call that `t` trapped for with the registers `x` answers when it completes; exit answers nothing -/
inductive Answer (k k' : Kernel) (t : Nat) (x : Cpu) : Nat → Prop where
  | getchar (c : UInt8) (u : Uart) (hid : x.registers REG_A7 = SYS_getchar) (hget : k.uart.getchar = some (c, u)) (hu : k'.uart = u) :
      Answer k k' t x c.toNat
  | putchar (lsr : List Bool) (u : Uart) (hid : x.registers REG_A7 = SYS_putchar)
      (hput : k.uart.uartputc (UInt8.ofNat (x.registers REG_A0)) lsr = some u ∨
        k.uart.uartputcWoken (UInt8.ofNat (x.registers REG_A0)) lsr = some u) (hu : k'.uart = u) : Answer k k' t x 0
  | getpid (hid : x.registers REG_A7 = SYS_getpid) : Answer k k' t x (k.task t).pid
  | yield (hid : x.registers REG_A7 = SYS_yield) : Answer k k' t x 0
  | fork (child : Nat) (hid : x.registers REG_A7 = SYS_fork) (hnew : child ∉ k.heap.live) (hlive : child ∈ k'.heap.live) :
      Answer k k' t x (k'.task child).pid
  | vmDump (hid : x.registers REG_A7 = SYS_vmDump) : Answer k k' t x 0
  | unknown (hid : x.registers REG_A7 ∉ [SYS_getchar, SYS_putchar, SYS_getpid, SYS_yield, SYS_fork, SYS_exit, SYS_execve, SYS_vmDump]) :
      Answer k k' t x (ofInt (-ENOSYS))

/-! ## how a stretch of a kernel thread ends -/

/-- the threads of the other tasks stay where they are -/
def OtherFrames (k k' : Kernel) : Prop := ∀ t ∈ k.heap.live, t ≠ k.currentTask → (k'.task t).kernelFrame = (k.task t).kernelFrame

/-- the same tasks, and nothing has happened -/
structure Alike (k k₁ : Kernel) : Prop where
  current : k₁.currentTask = k.currentTask
  trace : k₁.trace = k.trace
  live : k₁.heap.live = k.heap.live
  others : OtherFrames k k₁

/-- the current task is back in user mode -/
structure Back (k k' : Kernel) : Prop where
  ctl : k'.ctl = .user
  current : k'.currentTask = k.currentTask
  self : (k'.task k.currentTask).kernelFrame = .yieldToUser
  others : OtherFrames k k'

/-- nobody runs, and the thread of the current task goes on at `th` -/
structure Parked (th : Thread) (k k' : Kernel) : Prop where
  ctl : k'.ctl = .schedule
  trace : k'.trace = k.trace
  live : k'.heap.live = k.heap.live
  self : (k'.task k.currentTask).kernelFrame = th
  others : OtherFrames k k'

structure Gone (k k' : Kernel) : Prop where
  ctl : k'.ctl = .schedule
  trace : k'.trace = k.trace
  live : ∀ t ∈ k'.heap.live, t ∈ k.heap.live ∧ t ≠ k.currentTask
  others : OtherFrames k k'

/-- a new task whose thread is at its beginning -/
structure Spawned (child : Nat) (k k' : Kernel) : Prop where
  fresh : child ∉ k.heap.live
  live : k'.heap.live = child :: k.heap.live
  start : (k'.task child).kernelFrame = .taskEntry

/-- the answers are `A`, the thread may stop where `P` holds, and it may fork if `F` holds -/
inductive Ended (A : Nat → Prop) (P : Thread → Prop) (F : Prop) (k k' : Kernel) : Prop where
  | back (cpu : Cpu) (hb : Back k k') (hl : k'.heap.live = k.heap.live) (htr : k'.trace = k.trace ++ [.entered k.currentTask cpu])
  | answer (v : Nat) (cpu : Cpu) (hv : A v) (hb : Back k k') (hl : k'.heap.live = k.heap.live)
      (htr : k'.trace = k.trace ++ [.returned k.currentTask v, .entered k.currentTask cpu])
  | fork (child v : Nat) (cpu : Cpu) (hv : A v) (hf : F) (hb : Back k k') (hc : Spawned child k k')
      (htr : k'.trace = k.trace ++ [.forked k.currentTask child, .returned k.currentTask v, .entered k.currentTask cpu])
  | parked (th : Thread) (hp : P th) (hw : Parked th k k')
  | gone (hg : Gone k k')

namespace Alike

theorem refl (k : Kernel) : Alike k k := ⟨rfl, rfl, rfl, fun _ _ _ => rfl⟩

theorem frames (ha : Alike k k₁) (hf : OtherFrames k₁ k') : OtherFrames k k' := fun t ht hne =>
  (hf t (ha.live ▸ ht) (ha.current ▸ hne)).trans (ha.others t ht hne)

theorem back (ha : Alike k k₁) (hb : Back k₁ k') : Back k k' := by
  refine ⟨hb.ctl, hb.current.trans ha.current, ?_, ha.frames hb.others⟩
  rw [← ha.current]
  exact hb.self

theorem parked (ha : Alike k k₁) (hw : Parked th k₁ k') : Parked th k k' := by
  refine ⟨hw.ctl, hw.trace.trans ha.trace, hw.live.trans ha.live, ?_, ha.frames hw.others⟩
  rw [← ha.current]
  exact hw.self

theorem gone (ha : Alike k k₁) (hg : Gone k₁ k') : Gone k k' := by
  refine ⟨hg.ctl, hg.trace.trans ha.trace, fun t ht => ?_, ha.frames hg.others⟩
  rw [← ha.live, ← ha.current]
  exact hg.live t ht

theorem ended (ha : Alike k k₁) (he : Ended A P F k₁ k') : Ended A P F k k' := by
  cases he with
  | back cpu hb hl htr =>
    rw [ha.trace, ha.current] at htr
    exact .back cpu (ha.back hb) (hl.trans ha.live) htr
  | answer v cpu hv hb hl htr =>
    rw [ha.trace, ha.current] at htr
    exact .answer v cpu hv (ha.back hb) (hl.trans ha.live) htr
  | fork child v cpu hv hf hb hc htr =>
    rw [ha.trace, ha.current] at htr
    exact .fork child v cpu hv hf (ha.back hb) ⟨ha.live ▸ hc.fresh, ha.live ▸ hc.live, hc.start⟩ htr
  | parked th hp hw => exact .parked th hp (ha.parked hw)
  | gone hg => exact .gone (ha.gone hg)

theorem setUart (k : Kernel) (u : Uart) : Alike k { k with uart := u } := ⟨rfl, rfl, rfl, fun _ _ _ => rfl⟩

theorem setTask (k : Kernel) (z : Task) : Alike k (k.setTask k.currentTask z) :=
  ⟨rfl, rfl, rfl, fun _ _ hne => congrArg Task.kernelFrame (Function.update_of_ne hne _ _)⟩

end Alike

theorem Ended.mono (he : Ended A P F k k') (hA : ∀ v, A v → A' v) (hP : ∀ th, P th → P' th) (hF : F → F') : Ended A' P' F' k k' := by
  cases he with
  | back cpu hb hl htr => exact .back cpu hb hl htr
  | answer v cpu hv hb hl htr => exact .answer v cpu (hA v hv) hb hl htr
  | fork child v cpu hv hf hb hc htr => exact .fork child v cpu (hA v hv) (hF hf) hb hc htr
  | parked th hp hw => exact .parked th (hP th hp) hw
  | gone hg => exact .gone hg

theorem back_yieldToUser (k : Kernel) : Back k k.yieldToUser := by
  refine ⟨rfl, rfl, ?_, fun t _ hne => congrArg Task.kernelFrame (Function.update_of_ne hne _ _)⟩
  show (Function.update k.heap.task k.currentTask _ k.currentTask).kernelFrame = _
  rw [Function.update_self]

theorem yieldToUser_ended (k : Kernel) : Ended A P F k k.yieldToUser := .back _ (back_yieldToUser k) rfl rfl

theorem sysReturn_back (k : Kernel) (v : Nat) : Back k (k.sysReturn v) := by
  have h : Back (k.setHeap (k.heap.setFrame k.currentTask ((k.task k.currentTask).userFrame.set REG_A0 v))) (k.sysReturn v) :=
    ⟨rfl, rfl, (back_yieldToUser _).self, (back_yieldToUser _).others⟩
  exact (Alike.setTask k _).back h

theorem sysReturn_ended (hv : A v) : Ended A P F k (k.sysReturn v) :=
  .answer v _ hv (sysReturn_back k v) rfl (by
    show (k.trace ++ [.returned k.currentTask v]) ++ [.entered k.currentTask _] = _
    rw [List.append_assoc]
    rfl)

theorem wait_ended {group : TaskList} (hp : P th) (hrun : k.wait group th = .ok k') : Ended A P F k k' := by
  unfold Kernel.wait at hrun
  obtain ⟨_, _, hrun⟩ := Res.bind_eq_ok.mp hrun
  cases hrun
  refine .parked th hp ⟨rfl, rfl, rfl, ?_, fun t _ hne => congrArg Task.kernelFrame (Function.update_of_ne hne _ _)⟩
  show (Function.update k.heap.task k.currentTask _ k.currentTask).kernelFrame = _
  rw [Function.update_self]

theorem destroyCurrent_ended (ha : Active k own q) (hrun : k.destroyCurrent = .ok k') : Ended A P F k k' := by
  unfold Kernel.destroyCurrent at hrun
  obtain ⟨h', hdes, hret⟩ := Res.bind_eq_ok.mp hrun
  cases hret
  obtain ⟨D, hd⟩ := taskDestroy_destroyed ha.world ha.live (ha.node ▸ ha.detached) hdes
  refine .gone ⟨rfl, rfl, fun t ht => ?_, fun t _ _ => ?_⟩
  · have ht : t ∈ h'.live := ht
    rw [hd.live, List.Nodup.mem_erase_iff ha.world.held.nodup.2] at ht
    exact ⟨ht.2, ht.1⟩
  · show (h'.task t).kernelFrame = (k.heap.task t).kernelFrame
    rw [hd.task]

/-- the texts of system calls are printed for an answer, those of faults are not -/
def AfterOk (A : Nat → Prop) : After → Prop
  | .syscall v => A v
  | .fault => True

theorem putText_ended {lsr : Nat → List Bool} {text : List UInt8} {after : After} (ha : Active k own q) (hA : AfterOk A after)
    (hP : ∀ c text, P (.putchar c text after)) (hrun : k.putText lsr text after = .ok k') : Ended A P F k k' := by
  induction text generalizing k with
  | nil =>
    have hrun : k.finish after = .ok k' := hrun
    cases after with
    | syscall v =>
      cases hrun
      exact sysReturn_ended hA
    | fault => exact destroyCurrent_ended ha hrun
  | cons c text ih =>
    unfold Kernel.putText at hrun
    cases hput : k.uart.uartputc c (lsr text.length) with
    | none =>
      rw [hput] at hrun
      exact wait_ended (hP c text) hrun
    | some u =>
      rw [hput] at hrun
      have he : Ended A P F { k with uart := u } k' := ih (ha.setUart u) hrun
      exact (Alike.setUart k u).ended he

theorem getchar_ended (hP : P .getchar) (hA : ∀ c u, k.uart.getchar = some (c, u) → k'.uart = u → A c.toNat)
    (hrun : k.getchar = .ok k') :
    Ended A P F k k' := by
  unfold Kernel.getchar at hrun
  cases hget : k.uart.getchar with
  | none =>
    rw [hget] at hrun
    exact wait_ended hP hrun
  | some cu =>
    rw [hget] at hrun
    cases hrun
    have he : Ended A P F { k with uart := cu.2 } (Kernel.sysReturn cu.1.toNat { k with uart := cu.2 }) :=
      sysReturn_ended (hA cu.1 cu.2 hget rfl)
    exact (Alike.setUart k cu.2).ended he

theorem sysReturn_other (k : Kernel) (v : Nat) (hne : t ≠ k.currentTask) : (k.sysReturn v).task t = k.task t :=
  (Function.update_of_ne hne _ _).trans (Function.update_of_ne hne _ _)

theorem sysFork_ended (ha : Active k own q) (hF : F)
    (hA : ∀ child, child ∉ k.heap.live → child ∈ k'.heap.live → A (k'.task child).pid) (hrun : k.sysFork o = .ok k') :
    Ended A P F k k' := by
  unfold Kernel.sysFork at hrun
  obtain ⟨⟨child, k₁⟩, hclone, hrun⟩ := Res.bind_eq_ok.mp hrun
  obtain ⟨hgood, own', n, hc⟩ := taskClone_cloned ha.world ha.live hclone
  simp only [hgood, Bool.false_eq_true, if_false] at hrun
  obtain ⟨hothers, _, _, hthread, _⟩ := hc.tasks ha.live
  obtain ⟨hfresh, hlive⟩ := hc.live
  obtain ⟨_, _, _, hk₁⟩ := hc.control
  have hcur : k₁.currentTask = k.currentTask := by rw [hk₁]
  have htr : k₁.trace = k.trace := by rw [hk₁]
  have hne : ∀ t ∈ k.heap.live, t ≠ child := fun t hin he => hfresh (he ▸ hin)
  obtain ⟨k₂, hk₂⟩ : ∃ k₂, k₂ = k₁.setHeap (k₁.heap.setFrame child ((k₁.task child).userFrame.set REG_A0 0)) := ⟨_, rfl⟩
  rw [← hk₂] at hrun
  have hcur₂ : k₂.currentTask = k.currentTask := by rw [hk₂, ← hcur]; rfl
  have hlive₂ : k₂.heap.live = child :: k.heap.live := by rw [hk₂, ← hlive]; rfl
  have htr₂ : k₂.trace = k.trace := by rw [hk₂, ← htr]; rfl
  have hself₂ : (k₂.task child).kernelFrame = .taskEntry := by
    rw [hk₂, ← hthread]
    show (Function.update k₁.heap.task child _ child).kernelFrame = _
    rw [Function.update_self]
    rfl
  have hother₂ : ∀ t ∈ k.heap.live, t ≠ k.currentTask → k₂.task t = k.task t := fun t ht htne => by
    rw [hk₂, ← hothers t ht htne]
    exact Function.update_of_ne (hne t ht) _ _
  have hret : k' = (k₂.log (.forked k₂.currentTask child)).sysReturn (k₂.task child).pid := (Except.ok.inj hrun).symm
  have hb := sysReturn_back (k₂.log (.forked k₂.currentTask child)) (k₂.task child).pid
  have hchild : k'.task child = k₂.task child := by
    rw [hret]
    exact sysReturn_other _ _ fun he => hne _ ha.live (hcur₂.symm.trans he.symm)
  have hlive' : k'.heap.live = child :: k.heap.live := by
    rw [← hlive₂, hret]
    rfl
  rw [← hret] at hb
  refine .fork child (k₂.task child).pid (kernelToUser k'.trapframe) ?_ hF ⟨hb.ctl, hb.current.trans hcur₂, ?_, fun t ht htne => ?_⟩ ⟨hfresh, hlive', ?_⟩ ?_
  · rw [← hchild]
    exact hA child hfresh (hlive' ▸ List.mem_cons_self)
  · rw [← hcur₂]
    exact hb.self
  · rw [← hother₂ t ht htne]
    exact hb.others t (hlive₂ ▸ List.mem_cons_of_mem _ ht) (hcur₂ ▸ htne)
  · rw [hchild]
    exact hself₂
  · rw [hret, ← htr₂, ← hcur₂]
    show ((k₂.trace ++ [_]) ++ [_]) ++ [_] = k₂.trace ++ [_, _, _]
    rw [List.append_assoc, List.append_assoc]
    rfl

/-! ## system calls -/

/-- the task trapped for the system call `id` -/
def Phase.Asks (p : Phase) (id : Nat) : Prop := ∃ x, p = .kernel x ∧ x.registers REG_A7 = id

/-- it trapped for putchar of `c` -/
def Phase.Prints (p : Phase) (c : UInt8) : Prop :=
  ∃ x, p = .kernel x ∧ x.registers REG_A7 = SYS_putchar ∧ UInt8.ofNat (x.registers REG_A0) = c

/-- where the thread of a task may be, by its phase -/
def Serving (p : Phase) : Thread → Prop
  | .taskEntry => p = .fresh
  | .yieldToUser => ∃ x, p = .kernel x
  | .sysYield => p.Asks SYS_yield
  | .getchar => p.Asks SYS_getchar
  | .putchar c text (.syscall v) => v = 0 ∧ (p.Prints c ∧ text = [] ∨ p.Asks SYS_vmDump)
  | .putchar _ _ .fault => ∃ x, p = .kernel x
  | .interrupted => False

theorem Serving.not_user {p : Phase} (hs : Serving p th) : p ≠ .user := by
  rintro rfl
  cases th with
  | taskEntry => exact nomatch (hs : Phase.user = .fresh)
  | yieldToUser =>
    obtain ⟨_, hp⟩ := hs
    cases hp
  | sysYield =>
    obtain ⟨_, hp, _⟩ := hs
    cases hp
  | getchar =>
    obtain ⟨_, hp, _⟩ := hs
    cases hp
  | putchar c text after =>
    cases after with
    | fault =>
      obtain ⟨_, hp⟩ := hs
      cases hp
    | syscall v =>
      obtain ⟨_, ⟨⟨_, hp, _⟩, _⟩ | ⟨_, hp, _⟩⟩ := hs
      · cases hp
      · cases hp
  | interrupted => exact hs

theorem putchar_ended {c : UInt8} {lsr : Nat → List Bool} (hP : P (.putchar c [] (.syscall 0)))
    (hA : ∀ u, k.uart.uartputc c (lsr 0) = some u → k'.uart = u → A 0) (hrun : k.putText lsr [c] (.syscall 0) = .ok k') :
    Ended A P F k k' := by
  unfold Kernel.putText at hrun
  rw [List.length_nil] at hrun
  cases hput : k.uart.uartputc c (lsr 0) with
  | none =>
    rw [hput] at hrun
    exact wait_ended hP hrun
  | some u =>
    rw [hput] at hrun
    cases hrun
    have he : Ended A P F { k with uart := u } (Kernel.sysReturn 0 { k with uart := u }) := sysReturn_ended (hA u hput rfl)
    exact (Alike.setUart k u).ended he

theorem syscall_ended (ha : Active k own q)
    (hregs : ∀ r, 1 ≤ r → r ≤ 31 → (k.task k.currentTask).userFrame.registers r = x.registers r)
    (hexec : x.registers REG_A7 ≠ SYS_execve) (hrun : k.syscall o = .ok k') :
    Ended (Answer k k' k.currentTask x) (Serving (.kernel x)) (x.registers REG_A7 = SYS_fork) k k' := by
  unfold Kernel.syscall at hrun
  simp only [hregs REG_A7 (by decide) (by decide), hregs REG_A0 (by decide) (by decide), hexec, if_false] at hrun
  have hasks : Phase.Asks (.kernel x) (x.registers REG_A7) := ⟨x, rfl, rfl⟩
  split at hrun
  · rename_i hcall
    exact getchar_ended (hcall ▸ hasks : Phase.Asks _ SYS_getchar) (fun c u hget hu => .getchar c u hcall hget hu) hrun
  split at hrun
  · rename_i hcall
    exact putchar_ended ⟨rfl, .inl ⟨⟨x, rfl, hcall, rfl⟩, rfl⟩⟩ (fun u hput hu => .putchar _ u hcall (.inl hput) hu) hrun
  split at hrun
  · rename_i hcall
    cases hrun
    exact sysReturn_ended (.getpid hcall)
  split at hrun
  · rename_i hcall
    cases hrun
    refine .parked .sysYield (hcall ▸ hasks : Phase.Asks _ SYS_yield) ⟨rfl, rfl, rfl, ?_, (Alike.setTask k _).others⟩
    show (Function.update k.heap.task k.currentTask _ k.currentTask).kernelFrame = _
    rw [Function.update_self]
  split at hrun
  · rename_i hcall
    exact sysFork_ended ha hcall (fun child hnew hlive => .fork child hcall hnew hlive) hrun
  split at hrun
  · exact destroyCurrent_ended ha hrun
  split at hrun
  · rename_i hcall
    have hA : AfterOk (Answer k k' k.currentTask x) (.syscall 0) := Answer.vmDump hcall
    have hP : ∀ c text, Serving (.kernel x) (.putchar c text (.syscall 0)) := fun _ _ => ⟨rfl, .inr (hcall ▸ hasks)⟩
    exact putText_ended ha hA hP hrun
  · cases hrun
    refine sysReturn_ended (.unknown ?_)
    simp only [List.mem_cons, List.not_mem_nil, or_false, not_or]
    exact ⟨‹_›, ‹_›, ‹_›, ‹_›, ‹_›, ‹_›, hexec, ‹_›⟩

/-- the program counter behind the ecall makes no difference -/
theorem Answer.callFrame (hv : Answer k.callFrame k' k.currentTask x v) : Answer k k' k.currentTask x v := by
  cases hv with
  | getchar c u hid hget hu => exact .getchar c u hid hget hu
  | putchar lsr u hid hput hu => exact .putchar lsr u hid hput hu
  | getpid hid =>
    have hpid : (k.callFrame.task k.currentTask).pid = (k.task k.currentTask).pid := by
      show (Function.update k.heap.task k.currentTask _ k.currentTask).pid = _
      rw [Function.update_self]
      rfl
    rw [hpid]
    exact .getpid hid
  | yield hid => exact .yield hid
  | fork child hid hnew hlive => exact .fork child hid hnew hlive
  | vmDump hid => exact .vmDump hid
  | unknown hid => exact .unknown hid

theorem taskEntryTrap_ended (ha : Active k own q)
    (hregs : ∀ r, 1 ≤ r → r ≤ 31 → (k.task k.currentTask).userFrame.registers r = x.registers r)
    (hexec : k.scause = 8 → x.registers REG_A7 ≠ SYS_execve) (hrun : k.taskEntryTrap o = .ok k') :
    Ended (Answer k k' k.currentTask x) (Serving (.kernel x)) (x.registers REG_A7 = SYS_fork) k k' := by
  unfold Kernel.taskEntryTrap at hrun
  simp only at hrun
  have hfault : k.taskFault o = .ok k' →
      Ended (Answer k k' k.currentTask x) (Serving (.kernel x)) (x.registers REG_A7 = SYS_fork) k k' :=
    putText_ended ha trivial fun _ _ => ⟨x, rfl⟩
  split at hrun
  · rename_i hcall
    have hrun : k.callFrame.syscall o = .ok k' := hrun
    have hsame : Alike k k.callFrame := Alike.setTask k _
    have hregs' : ∀ r, 1 ≤ r → r ≤ 31 → (k.callFrame.task k.callFrame.currentTask).userFrame.registers r = x.registers r :=
      fun r h1 h31 => (congrFun (callFrame_frame k) r).trans (hregs r h1 h31)
    have hended := syscall_ended ha.callFrame.active hregs' (hexec hcall) hrun
    exact hsame.ended (hended.mono (fun v hv => Answer.callFrame hv) (fun _ => id) id)
  split at hrun
  · split at hrun
    · obtain ⟨a, hfind, hrun⟩ := Res.bind_eq_ok.mp hrun
      split at hrun
      · rename_i h0
        obtain ⟨h', hexp, hret⟩ := Res.bind_eq_ok.mp hrun
        cases hret
        obtain ⟨_, harea⟩ := vmFindStack_area (ha.world.areas _ ha.live) hfind h0
        obtain ⟨_, hg⟩ := expandStack_world ha.world ha.live harea hexp
        have htask := expandStack_task (ha.world.maps _ ha.live).wf rfl hexp
        have hsame : Alike k (k.setHeap h') := ⟨rfl, rfl, hg.live, fun t _ _ => congrArg Task.kernelFrame (congrFun htask t)⟩
        exact hsame.ended (yieldToUser_ended (k.setHeap h'))
      · exact hfault hrun
    · exact hfault hrun
  · exact hfault hrun

/-- one stretch of a thread: it answers the call that its task trapped for, or leaves the thread where it can go on -/
theorem resume_ended {p : Phase} (ha : Active k own q) (hs : Serving p (k.task k.currentTask).kernelFrame)
    (htrap : (k.task k.currentTask).kernelFrame = .yieldToUser →
      ∃ x, p = .kernel x ∧ ∀ r, 1 ≤ r → r ≤ 31 → (k.task k.currentTask).userFrame.registers r = x.registers r)
    (hexec : ¬ k.Execve) (hrun : k.resume o = .ok k') :
    Ended (fun v => ∃ x, p = .kernel x ∧ Answer k k' k.currentTask x v) (Serving p) (p.Asks SYS_fork) k k' := by
  unfold Kernel.resume at hrun
  cases hth : (k.task k.currentTask).kernelFrame with
  | taskEntry =>
    rw [hth] at hrun
    cases hrun
    exact yieldToUser_ended k
  | yieldToUser =>
    rw [hth] at hrun
    obtain ⟨x, rfl, hregs⟩ := htrap hth
    have hexec' : k.scause = 8 → x.registers REG_A7 ≠ SYS_execve := fun h8 hid =>
      hexec ⟨hth, h8, (hregs REG_A7 (by decide) (by decide)).trans hid⟩
    refine (taskEntryTrap_ended ha hregs hexec' hrun).mono (fun v hv => ⟨x, rfl, hv⟩) (fun _ => id) fun hid => ⟨x, rfl, hid⟩
  | sysYield =>
    rw [hth] at hrun hs
    cases hrun
    obtain ⟨x, hp, hid⟩ := hs
    exact sysReturn_ended ⟨x, hp, .yield hid⟩
  | getchar =>
    rw [hth] at hrun hs
    obtain ⟨x, hp, hid⟩ := id hs
    exact getchar_ended hs (fun c u hget hu => ⟨x, hp, .getchar c u hid hget hu⟩) hrun
  | putchar c text after =>
    rw [hth] at hrun hs
    simp only at hrun
    cases hput : k.uart.uartputcWoken c (o.lsr text.length) with
    | none =>
      rw [hput] at hrun
      exact wait_ended hs hrun
    | some u =>
      rw [hput] at hrun
      have ha' := ha.setUart u
      cases after with
      | fault =>
        have hA : AfterOk (fun v => ∃ x, p = .kernel x ∧ Answer k k' k.currentTask x v) .fault := trivial
        have hP : ∀ c text, Serving p (.putchar c text .fault) := fun _ _ => hs
        exact (Alike.setUart k u).ended (putText_ended ha' hA hP hrun)
      | syscall v =>
        obtain ⟨rfl, ⟨x, hp, hid, hc⟩, rfl⟩ | ⟨rfl, hdump⟩ := (and_or_left.mp hs : _ ∨ _)
        · cases hrun
          rw [← hc] at hput
          exact (Alike.setUart k u).ended (sysReturn_ended ⟨x, hp, .putchar _ u hid (.inr hput) rfl⟩)
        · obtain ⟨x, hp, hid⟩ := id hdump
          have hA : AfterOk (fun v => ∃ x, p = .kernel x ∧ Answer k k' k.currentTask x v) (.syscall 0) := ⟨x, hp, .vmDump hid⟩
          have hP : ∀ c text, Serving p (.putchar c text (.syscall 0)) := fun _ _ => ⟨rfl, .inr hdump⟩
          exact (Alike.setUart k u).ended (putText_ended ha' hA hP hrun)
  | interrupted =>
    rw [hth] at hs
    exact hs.elim

/-! ## every step follows the protocol -/

theorem protocolStep_trapped {p : Phases} (hp : p t = .user) (x : Cpu) :
    protocolStep p (.trapped t x) = some (Function.update p t (.kernel x)) := by
  simp [protocolStep, hp]

theorem protocolStep_returned {p : Phases} (hp : p t = .kernel x) (v : Nat) :
    protocolStep p (.returned t v) = some (Function.update p t .answered) := by
  simp [protocolStep, hp]

theorem protocolStep_entered {p : Phases} (hp : p t ≠ .user) (x : Cpu) :
    protocolStep p (.entered t x) = some (Function.update p t .user) := by
  cases hph : p t with
  | user => exact absurd hph hp
  | fresh => simp [protocolStep, hph]
  | kernel y => simp [protocolStep, hph]
  | answered => simp [protocolStep, hph]

theorem protocolStep_forked {p : Phases} (hp : (p t).Asks SYS_fork) (child : Nat) :
    protocolStep p (.forked t child) = some (Function.update p child .fresh) := by
  obtain ⟨x, hx, hid⟩ := hp
  simp [protocolStep, hx, hid]

theorem protocol_append {p : Phases} (hp : protocol evs = some p) : protocol (evs ++ evs') = evs'.foldlM protocolStep p := by
  unfold protocol at hp ⊢
  rw [List.foldlM_append, hp]
  rfl

theorem protocol_snoc {p p' : Phases} {ev : Event} (hp : protocol evs = some p) (hev : protocolStep p ev = some p') :
    protocol (evs ++ [ev]) = some p' := by
  rw [protocol_append hp, List.foldlM_cons, hev]
  rfl

/-- the protocol goes on when bytes arrive -/
theorem protocol_received {p : Phases} {rx : List UInt8} (hp : protocol evs = some p) (he : evs' = [] ∨ evs' = [.received rx]) :
    protocol (evs ++ evs') = some p := by
  rcases he with rfl | rfl
  · rw [List.append_nil]
    exact hp
  · exact protocol_snoc hp rfl

/-- the history follows the protocol so far, and each thread is where the phase of its task lets it be -/
structure Follows (k : Kernel) (p : Phases) : Prop where
  phases : protocol k.trace = some p
  others : ∀ t ∈ k.heap.live, t ≠ k.currentTask → Serving (p t) (k.task t).kernelFrame
  user : k.ctl = .user → p k.currentTask = .user
  thread : k.ctl = .thread → Serving (p k.currentTask) (k.task k.currentTask).kernelFrame

/-- an answer in the step from `k` to `k'` is that of the call of the current task -/
def Answers (k k' : Kernel) (p : Phases) (evs : List Event) : Prop :=
  ∀ t v, .returned t v ∈ evs → t = k.currentTask ∧ ∃ x, p t = .kernel x ∧ Answer k k' t x v

/-- what a step adds to the history -/
structure Advances (k k' : Kernel) (p p' : Phases) : Prop where
  follows : Follows k' p'
  trace : ∃ evs, k'.trace = k.trace ++ evs ∧ Answers k k' p evs

namespace Follows

variable {p p' : Phases}

/-- nobody runs -/
theorem nobody (hp : protocol k.trace = some p) (hctl : k.ctl = .schedule ∨ k.ctl = .idle)
    (hall : ∀ t ∈ k.heap.live, Serving (p t) (k.task t).kernelFrame) : Follows k p := by
  refine ⟨hp, fun t ht _ => hall t ht, fun h => ?_, fun h => ?_⟩
  · rw [h] at hctl
    exact absurd hctl (by decide)
  · rw [h] at hctl
    exact absurd hctl (by decide)

/-- the task that trapped last did so with the registers that its user frame holds -/
theorem trapped (hf : Follows k p) (hk : Contexts k) (hctl : k.ctl = .thread) (hth : (k.task k.currentTask).kernelFrame = .yieldToUser) :
    ∃ x, p k.currentTask = .kernel x ∧ ∀ r, 1 ≤ r → r ≤ 31 → (k.task k.currentTask).userFrame.registers r = x.registers r := by
  obtain ⟨hsaved, htrap⟩ := hk.thread hctl
  obtain ⟨evs, cpu, htr⟩ := htrap hth
  obtain ⟨p₀, hp₀, hp⟩ : ∃ p₀, protocol evs = some p₀ ∧ protocolStep p₀ (.trapped k.currentTask cpu) = some p := by
    have h := hf.phases
    rw [htr] at h
    unfold protocol at h
    rw [List.foldlM_append] at h
    obtain ⟨p₀, hp₀, hp⟩ := Option.bind_eq_some_iff.mp h
    refine ⟨p₀, hp₀, ?_⟩
    rw [List.foldlM_cons] at hp
    obtain ⟨p₁, hp₁, hret⟩ := Option.bind_eq_some_iff.mp hp
    cases hret
    exact hp₁
  refine ⟨cpu, ?_, ?_⟩
  · unfold protocolStep at hp
    simp only at hp
    split at hp
    · cases hp
      exact Function.update_self _ _ _
    · cases hp
  · rw [hth, htr, context_snoc] at hsaved
    exact (hsaved cpu (Function.update_self _ _ _)).1

theorem resume (hf : Follows k p) (hk : Contexts k) (ha : Active k own q) (hctl : k.ctl = .thread) (hexec : ¬ k.Execve)
    (hrun : k.resume o = .ok k') : ∃ p', Advances k k' p p' := by
  have hs := hf.thread hctl
  have hnu := hs.not_user
  have hafter : Back k k' → ∀ p', protocol k'.trace = some p' → p' k.currentTask = .user →
      (∀ t ∈ k'.heap.live, t ≠ k.currentTask → Serving (p' t) (k'.task t).kernelFrame) → Follows k' p' := by
    intro hb p' hp' hu hoth
    refine ⟨hp', fun t ht hne => hoth t ht (hb.current ▸ hne), fun _ => hb.current.symm ▸ hu, fun h => ?_⟩
    exact nomatch hb.ctl.symm.trans h
  have hothers : OtherFrames k k' → ∀ t ∈ k.heap.live, t ≠ k.currentTask → Serving (p t) (k'.task t).kernelFrame := by
    intro ho t ht hne
    rw [ho t ht hne]
    exact hf.others t ht hne
  cases resume_ended ha hs (hf.trapped hk hctl) hexec hrun with
  | back cpu hb hl htr =>
    have hp' := protocol_snoc hf.phases (protocolStep_entered hnu cpu)
    rw [← htr] at hp'
    refine ⟨_, hafter hb _ hp' (Function.update_self _ _ _) fun t ht hne => ?_, _, htr, ?_⟩
    · rw [Function.update_of_ne hne]
      exact hothers hb.others t (hl ▸ ht) hne
    · intro t v hin
      exact nomatch List.mem_singleton.mp hin
  | answer v cpu hv hb hl htr =>
    obtain ⟨x, hx, hans⟩ := hv
    have hp' := protocol_snoc (protocol_snoc hf.phases (protocolStep_returned hx v)) (protocolStep_entered (x := cpu) (t := k.currentTask)
      (by rw [Function.update_self]; nofun))
    rw [List.append_assoc, List.singleton_append, ← htr] at hp'
    refine ⟨_, hafter hb _ hp' (Function.update_self _ _ _) fun t ht hne => ?_, _, htr, ?_⟩
    · rw [Function.update_of_ne hne, Function.update_of_ne hne]
      exact hothers hb.others t (hl ▸ ht) hne
    · intro t v' hin
      cases List.mem_cons.mp hin with
      | inl he =>
        cases he
        exact ⟨rfl, x, hx, hans⟩
      | inr hin => exact nomatch List.mem_singleton.mp hin
  | fork child v cpu hv hfork hb hc htr =>
    obtain ⟨x, hx, hans⟩ := hv
    have hne : k.currentTask ≠ child := fun he => hc.fresh (he ▸ ha.live)
    have hx' : Function.update p child .fresh k.currentTask = .kernel x := (Function.update_of_ne hne _ _).trans hx
    have hp' := protocol_snoc (protocol_snoc (protocol_snoc hf.phases (protocolStep_forked hfork child)) (protocolStep_returned hx' v))
      (protocolStep_entered (x := cpu) (t := k.currentTask) (by rw [Function.update_self]; nofun))
    simp only [List.append_assoc, List.cons_append, List.nil_append, ← htr] at hp'
    refine ⟨_, hafter hb _ hp' (Function.update_self _ _ _) fun t ht htne => ?_, _, htr, ?_⟩
    · rw [Function.update_of_ne htne, Function.update_of_ne htne]
      rw [hc.live] at ht
      cases List.mem_cons.mp ht with
      | inl he =>
        rw [he, Function.update_self, hc.start]
        exact rfl
      | inr ht =>
        have hnew : t ≠ child := fun he => hc.fresh (he ▸ ht)
        rw [Function.update_of_ne hnew]
        exact hothers hb.others t ht htne
    · intro t v' hin
      simp only [List.mem_cons, List.not_mem_nil, or_false, reduceCtorEq, false_or, Event.returned.injEq] at hin
      obtain ⟨rfl, rfl⟩ := hin
      exact ⟨rfl, x, hx, hans⟩
  | parked th hp hw =>
    refine ⟨p, nobody (hw.trace.symm ▸ hf.phases) (.inl hw.ctl) fun t ht => ?_, [], hw.trace.trans (List.append_nil _).symm, nofun⟩
    by_cases he : t = k.currentTask
    · rw [he, hw.self]
      exact hp
    · exact hothers hw.others t (hw.live ▸ ht) he
  | gone hg =>
    refine ⟨p, nobody (hg.trace.symm ▸ hf.phases) (.inl hg.ctl) fun t ht => ?_, [], hg.trace.trans (List.append_nil _).symm, nofun⟩
    obtain ⟨hin, hne⟩ := hg.live t ht
    exact hothers hg.others t hin hne

/-! ### traps and dispatching -/

/-- the thread of the task that is trapped waits in yield_to_user -/
theorem afterTrap (hf : Follows k p) (hk : Contexts k) (hctl : k.ctl = .user) :
    protocol (k.trace ++ [.trapped k.currentTask k.cpu]) = some (Function.update p k.currentTask (.kernel k.cpu)) ∧
      ∀ t ∈ k.heap.live, Serving (Function.update p k.currentTask (.kernel k.cpu) t) (k.task t).kernelFrame := by
  refine ⟨protocol_snoc hf.phases (protocolStep_trapped (hf.user hctl) _), fun t ht => ?_⟩
  by_cases he : t = k.currentTask
  · rw [he, Function.update_self, (hk.user hctl).1]
    exact ⟨k.cpu, rfl⟩
  · rw [Function.update_of_ne he]
    exact hf.others t ht he

theorem returnToUser (hp : protocol k.trace = some p) (hlive : k.currentTask ∈ k.heap.live)
    (hall : ∀ t ∈ k.heap.live, Serving (p t) (k.task t).kernelFrame) :
    Follows k.returnToUser (Function.update p k.currentTask .user) := by
  refine ⟨protocol_snoc hp (protocolStep_entered (hall _ hlive).not_user _), fun t ht hne => ?_, fun _ => Function.update_self _ _ _, nofun⟩
  have hne : t ≠ k.currentTask := hne
  rw [Function.update_of_ne hne]
  exact hall t ht

theorem userInterrupt {i : Interrupt} (hf : Follows k p) (hk : Contexts k) (ha : Active k own q) (hctl : k.ctl = .user)
    (hrun : k.userInterrupt i = .ok k') : ∃ p', Advances k k' p p' := by
  obtain ⟨hp, hall⟩ := hf.afterTrap hk hctl
  unfold Kernel.userInterrupt at hrun
  obtain ⟨k₂, hint, hrun⟩ := Res.bind_eq_ok.mp hrun
  obtain ⟨k₁, hk₁⟩ : ∃ k₁, k₁ = { k.log (.trapped k.currentTask k.cpu) with trapframe := trapVector k.cpu k.trapframe } := ⟨_, rfl⟩
  have hint : k₁.handleInterrupt i .user = .ok k₂ := hk₁ ▸ hint
  have hcur : k₁.currentTask = k.currentTask := by rw [hk₁]; rfl
  have htr : k₁.trace = k.trace ++ [.trapped k.currentTask k.cpu] := by rw [hk₁]; rfl
  have hheap : k₁.heap = k.heap := by rw [hk₁]; rfl
  have hall₁ : ∀ t ∈ k₁.heap.live, Serving (Function.update p k.currentTask (.kernel k.cpu) t) (k₁.heap.task t).kernelFrame := by
    rw [hheap]
    exact hall
  rw [← htr] at hp
  cases i with
  | timer =>
    cases hrun
    have hne : k₁.currentTask ≠ 0 := fun he => ha.world.zero_not_live (he ▸ hcur ▸ ha.live)
    unfold Kernel.handleInterrupt at hint
    simp only [hne, if_false] at hint
    cases hint
    refine ⟨_, nobody hp (.inl rfl) fun t ht => ?_, _, htr, fun t v hin => nomatch List.mem_singleton.mp hin⟩
    have hs := hall₁ t ht
    show Serving _ (Function.update k₁.heap.task k₁.currentTask _ t).kernelFrame
    by_cases he : t = k₁.currentTask
    · rw [he, Function.update_self]
      rw [he] at hs
      exact hs
    · rw [Function.update_of_ne he]
      exact hs
  | external irq rx lsr =>
    cases hrun
    obtain ⟨u, L', evs, _, rfl, he, _⟩ := external_spec (hheap ▸ ha.world) hint
    have hlive : k₁.currentTask ∈ k₁.heap.live := by
      rw [hcur, hheap]
      exact ha.live
    have hf' : Follows (Kernel.returnToUser { k₁ with uart := u, heap := { k₁.heap with lists := L' }, trace := k₁.trace ++ evs }) _ :=
      returnToUser (protocol_received hp he) hlive hall₁
    refine ⟨_, hf', .trapped k.currentTask k.cpu :: evs ++ [.entered k.currentTask (kernelToUser k₁.trapframe)], ?_, fun t v hin => ?_⟩
    · show (k₁.trace ++ evs) ++ [.entered k₁.currentTask _] = _
      rw [htr, hcur, List.append_assoc, List.append_assoc]
      rfl
    · rcases he with rfl | rfl
      · rcases List.mem_pair.mp hin with he | he <;> cases he
      · simp only [List.cons_append, List.nil_append, List.mem_cons, List.not_mem_nil, or_false, reduceCtorEq] at hin

theorem userException (hf : Follows k p) (hk : Contexts k) (ha : Active k own q) (hctl : k.ctl = .user) (code stval : Nat) :
    ∃ p', Advances k (k.userException code stval) p p' := by
  obtain ⟨hp, hall⟩ := hf.afterTrap hk hctl
  have hfr : ∀ t, ((k.userException code stval).task t).kernelFrame = (k.task t).kernelFrame := fun t => by
    show (Function.update k.heap.task k.currentTask _ t).kernelFrame = _
    by_cases he : t = k.currentTask
    · rw [he, Function.update_self]
      rfl
    · rw [Function.update_of_ne he]
      rfl
  refine ⟨_, ⟨hp, fun t ht _ => ?_, nofun, fun _ => ?_⟩, _, rfl, fun t v hin => nomatch List.mem_singleton.mp hin⟩
  · rw [hfr]
    exact hall t ht
  · rw [hfr]
    exact hall _ ha.live

theorem doSchedule (hf : Follows k p) (ha : Inactive k own q) (hrun : k.doSchedule = .ok k') : ∃ p', Advances k k' p p' := by
  have hall : ∀ t ∈ k.heap.live, Serving (p t) (k.task t).kernelFrame := fun t ht =>
    hf.others t ht fun he => ha.world.zero_not_live (ha.nobody.1 ▸ he ▸ ht)
  cases doSchedule_cases hrun with
  | inl hidle =>
    obtain ⟨_, rfl⟩ := hidle
    exact ⟨p, nobody hf.phases (.inr rfl) hall, [], (List.append_nil _).symm, nofun⟩
  | inr hdis =>
    obtain ⟨h0, hk'⟩ := hdis
    obtain ⟨n, l, hg⟩ : ∃ n l, q .tasks = n :: l := by
      have hc := (ha.world.queues.queue .tasks).chain
      cases hg : q .tasks with
      | nil =>
        rw [hg] at hc
        exact absurd hc h0
      | cons n l => exact ⟨n, l, rfl⟩
    obtain ⟨ha₁, _, htr⟩ := ha.dispatch hg
    have hp : protocol k.dispatch.trace = some p := by
      rw [htr]
      exact protocol_snoc hf.phases rfl
    cases hk' with
    | inl hsup =>
      obtain ⟨rfl, _⟩ := hsup
      exact ⟨p, ⟨hp, fun t ht _ => hall t ht, nofun, fun _ => hall _ ha₁.live⟩, _, htr, fun t v hin => nomatch List.mem_singleton.mp hin⟩
    | inr huser =>
      obtain ⟨rfl, _⟩ := huser
      obtain ⟨k₁, hk₁⟩ : ∃ k₁, k₁ = { k.dispatch with trapframe := (k.dispatch.task k.dispatch.currentTask).userFrame } := ⟨_, rfl⟩
      have hf' : Follows k₁.returnToUser (Function.update p k₁.currentTask .user) := by
        rw [hk₁]
        exact returnToUser hp ha₁.live hall
      refine ⟨_, hk₁ ▸ hf', [.dispatched n, .entered k.dispatch.currentTask (kernelToUser (k.dispatch.task k.dispatch.currentTask).userFrame)],
        ?_, fun t v hin => ?_⟩
      · show k.dispatch.trace ++ [_] = _
        rw [htr, List.append_assoc]
        rfl
      · cases List.mem_cons.mp hin with
        | inl he => cases he
        | inr hin => exact nomatch List.mem_singleton.mp hin

theorem idleInterrupt {i : Interrupt} {regs : Cpu} (hf : Follows k p) (ha : Inactive k own q)
    (hrun : k.idleInterrupt regs i = .ok k') : ∃ p', Advances k k' p p' := by
  have hall : ∀ t ∈ k.heap.live, Serving (p t) (k.task t).kernelFrame := fun t ht =>
    hf.others t ht fun he => ha.world.zero_not_live (ha.nobody.1 ▸ he ▸ ht)
  unfold Kernel.idleInterrupt at hrun
  obtain ⟨k₂, hint, hret⟩ := Res.bind_eq_ok.mp hrun
  cases hret
  obtain ⟨k₁, hk₁⟩ : ∃ k₁, k₁ = { k with trapframe := trapVector regs k.trapframe } := ⟨_, rfl⟩
  have hint : k₁.handleInterrupt i .supervisor = .ok k₂ := hk₁ ▸ hint
  cases i with
  | timer =>
    have h0 : k₁.currentTask = 0 := by
      rw [hk₁]
      exact ha.nobody.1
    unfold Kernel.handleInterrupt at hint
    simp only [h0, if_true] at hint
    cases hint
    rw [hk₁]
    exact ⟨p, nobody hf.phases (.inl rfl) hall, [], (List.append_nil _).symm, nofun⟩
  | external irq rx lsr =>
    have hw₁ : World k₁.heap own q := by
      rw [hk₁]
      exact ha.world
    obtain ⟨u, L', evs, _, rfl, he, _⟩ := external_spec hw₁ hint
    rw [hk₁]
    refine ⟨p, nobody (protocol_received hf.phases he) (.inl rfl) hall, evs, rfl, fun t v hin => ?_⟩
    rcases he with rfl | rfl
    · exact nomatch hin
    · exact nomatch List.mem_singleton.mp hin

theorem step (hf : Follows k p) (hk : Contexts k) (hc : Consistent k own q) (hs : Step k k') : ∃ p', Advances k k' p p' := by
  cases hs with
  | compute cpu h => exact ⟨p, ⟨hf.phases, hf.others, hf.user, hf.thread⟩, [], (List.append_nil _).symm, nofun⟩
  | store va tr b h => exact ⟨p, ⟨hf.phases, hf.others, hf.user, hf.thread⟩, [], (List.append_nil _).symm, nofun⟩
  | interrupt i h hrun => exact hf.userInterrupt hk (hc.active (.inl h)) h hrun
  | exception code stval h => exact hf.userException hk (hc.active (.inl h)) h code stval
  | resume o h hexec hrun => exact hf.resume hk (hc.active (.inr h)) h hexec hrun
  | schedule h hrun => exact hf.doSchedule (hc.inactive (.inl h)) hrun
  | idle regs i h hrun => exact hf.idleInterrupt (hc.inactive (.inr h)) hrun

theorem steps (hf : Follows k p) (hk : Contexts k) (hc : Consistent k own q) (hs : Steps k k') : ∃ p', Follows k' p' := by
  induction hs with
  | refl => exact ⟨p, hf⟩
  | tail hs hstep ih =>
    obtain ⟨p₁, hf₁⟩ := ih
    obtain ⟨_, _, _, hc₁, _⟩ := Steps.consistent hs hc
    obtain ⟨p', ha⟩ := hf₁.step (hk.steps hc hs) hc₁ hstep
    exact ⟨p', ha.follows⟩

end Follows

/-! ## from boot on -/

theorem Kernel.Booted.follows (hb : k.Booted) : Follows k fun _ => .fresh := by
  obtain ⟨k₀, argv, envp, hblank, hrun⟩ := hb
  unfold Kernel.init at hrun
  obtain ⟨⟨t, h₁⟩, hcreate, hrun⟩ := Res.bind_eq_ok.mp hrun
  obtain ⟨⟨r, h₂⟩, helf, hret⟩ := Res.bind_eq_ok.mp hrun
  cases hret
  have hid : 0 < k₀.heap.nextTaskId := by
    rw [hblank.pids]
    exact Nat.one_pos
  obtain ⟨own₁, n, stack, root, ha⟩ := taskCreate_added hblank.world hid hcreate
  have hlive : h₁.live = [t] := by rw [ha.live, hblank.live]
  have ht : t ∈ h₁.live := hlive ▸ List.mem_singleton_self t
  obtain ⟨own, hg⟩ := taskInitElf_world ha.world ht helf
  obtain ⟨frame, htask⟩ := taskInitElf_task ha.world ht helf
  refine Follows.nobody ?_ (.inl rfl) fun t' hin => ?_
  · show protocol k₀.trace = _
    rw [hblank.trace]
    rfl
  · have hin : t' ∈ h₂.live := hin
    rw [hg.live, hlive, List.mem_singleton] at hin
    show Serving .fresh (h₂.task t').kernelFrame
    rw [hin, htask]
    show Serving .fresh (Function.update h₁.task t { h₁.task t with userFrame := frame } t).kernelFrame
    rw [Function.update_self, ha.task, Function.update_self]
    exact rfl

/-- what holds of system calls in a run -/
structure SyscallsAnswered (k : Kernel) : Prop where
  /-- a task traps only in user mode, and it gets one answer at most until it is back there -/
  history : ∃ p, protocol k.trace = some p
  /-- and the answer is that of the call that it trapped for -/
  answers : ∀ k' evs t v, Step k k' → k'.trace = k.trace ++ evs → .returned t v ∈ evs →
    t = k.currentTask ∧ ∃ p x, protocol k.trace = some p ∧ p t = .kernel x ∧ Answer k k' t x v

/-- **System calls.**  However often a kernel thread has waited for the serial port or given way to others, the one answer that its
task gets is that of the call for which it trapped. -/
theorem syscalls_answered (hr : k.Reachable) : SyscallsAnswered k := by
  obtain ⟨k₀, hb, hs⟩ := hr
  obtain ⟨own, n, ha, hctl, _⟩ := hb.inactive
  have hc₀ := ha.consistent (.inl hctl)
  obtain ⟨p, hf⟩ := hb.follows.steps hb.contexts hc₀ hs
  obtain ⟨own', q', _, hc, _⟩ := Steps.consistent hs hc₀
  refine ⟨⟨p, hf.phases⟩, fun k' evs t v hstep htr hin => ?_⟩
  obtain ⟨p', _, evs', htr', hans⟩ := hf.step (hb.contexts.steps hc₀ hs) hc hstep
  have he : evs = evs' := List.append_cancel_left (htr.symm.trans htr')
  obtain ⟨ht, x, hx, hv⟩ := hans t v (he ▸ hin)
  exact ⟨ht, p, x, hf.phases, hx, hv⟩

/-- the theorem when the first task asks for its pid -/
theorem syscalls_answered_first : ∃ (k k' : Kernel) (p : Phases) (x : Cpu), k.Reachable ∧ k.Step k' ∧ protocol k.trace = some p ∧
    p k.currentTask = .kernel x ∧ Answer k k' k.currentTask x (k.task k.currentTask).pid := by
  obtain ⟨k, own, t, ns, hf⟩ := first_user
  have hframe : (k.task k.currentTask).kernelFrame = .yieldToUser := by
    rw [hf.current]
    exact hf.frame
  obtain ⟨k₁, hc⟩ := hf.active.called hf.reachable hf.ctl hframe { registers := fun _ => SYS_getpid, pc := 0 }
  have hnot : ¬ k₁.Execve := fun he => absurd (hc.calls.id.symm.trans he.2.2) (by decide)
  have hpid : (k₁.callFrame.task k₁.currentTask).pid = (k₁.task k₁.currentTask).pid := by
    show (Function.update k₁.heap.task k₁.currentTask _ k₁.currentTask).pid = _
    rw [Function.update_self]
    rfl
  have hrun : k₁.resume quietOracle = .ok (k₁.callFrame.sysReturn (k₁.task k₁.currentTask).pid) := by
    rw [hc.calls.resume, ← hpid]
    unfold syscall
    simp only [hc.calls.callFrame_id]
    rfl
  have hstep : k₁.Step _ := .resume _ hc.ctl hnot hrun
  have htr : (k₁.callFrame.sysReturn (k₁.task k₁.currentTask).pid).trace
      = k₁.trace ++ ([.returned k₁.currentTask (k₁.task k₁.currentTask).pid] ++
        [.entered k₁.currentTask (kernelToUser (k₁.callFrame.sysReturn (k₁.task k₁.currentTask).pid).trapframe)]) :=
    List.append_assoc _ _ _
  obtain ⟨_, p, x, hp, hx, hans⟩ := (syscalls_answered hc.reachable).answers _ _ _ _ hstep htr List.mem_cons_self
  exact ⟨k₁, _, p, x, hc.reachable, hstep, hp, hx, hans⟩

end FakeKernel
