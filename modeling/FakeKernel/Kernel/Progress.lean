import FakeKernel.Kernel.Answers
import FakeKernel.Kernel.ForkCall
import FakeKernel.Kernel.GrowthDemand
import FakeKernel.Kernel.Inherit

/-!
# The kernel does not come down

* `World.uartintr_returns`, `Inactive.doSchedule_returns`, ...   interrupts and dispatching;
* `Active.destroyCurrent_returns`   a task can end, but for the first;
* `Kernel.Supplied`          the pages that a system call or a page fault needs;
* `kernel_runs_on`           no assertion fails, and memory is the only thing that can be missing.
-/

namespace FakeKernel
open Bytes Mm Heap Kernel

variable {k k' k₁ : Kernel} {h h' : Heap} {own own' : Owners} {q q' : TaskList → List Nat} {o : Oracle} {g : TaskList}
  {t n a : Nat} {ns : List Nat} {L : Lists} {th : Thread}

/-! ## interrupts -/

theorem World.wakeupUnless_returns {c : Prop} [Decidable c] (hw : World h own q) (hne : g ≠ .tasks) :
    ∃ L', (if c then (.ok h.lists : Res Lists) else h.lists.wakeup g) = .ok L' := by
  by_cases hc : c
  · rw [if_pos hc]
    exact ⟨_, rfl⟩
  · rw [if_neg hc]
    exact hw.wakeupLoop_returns hne (hw.group_length g)

theorem World.uartintr_returns (hw : World h own q) (rx : List UInt8) (lsr : List Bool) (u : Uart) :
    ∃ r, FakeKernel.uartintr rx lsr u h.lists = .ok r := by
  unfold FakeKernel.uartintr
  simp only
  obtain ⟨L₁, hin⟩ := hw.wakeupUnless_returns (c := rx = []) (show TaskList.waitIn ≠ .tasks from nofun)
  rw [hin, Res.ok_bind]
  obtain ⟨q₁, hw₁, _⟩ := hw.wakeupUnless (show TaskList.waitIn ≠ .tasks from nofun) hin
  obtain ⟨L₂, hout⟩ := hw₁.wakeupUnless_returns (c := ((rx.foldl Uart.receive u).uartstart lsr).outFull = true)
    (show TaskList.waitOut ≠ .tasks from nofun)
  rw [hout, Res.ok_bind]
  exact ⟨_, rfl⟩

/-- the timer, or an interrupt that the PLIC may report: none, or that of the serial port -/
def Kernel.Interrupt.Known : Interrupt → Prop
  | .timer => True
  | .external irq _ _ => irq = UART0_IRQ ∨ irq = 0

theorem World.handleInterrupt_returns {i : Interrupt} (hw : World k.heap own q) (hi : i.Known) (mode : TaskMode) :
    ∃ k', k.handleInterrupt i mode = .ok k' := by
  unfold Kernel.handleInterrupt
  cases i with
  | timer =>
    by_cases h0 : k.currentTask = 0
    · simp only [h0, if_true]
      exact ⟨_, rfl⟩
    · simp only [h0, if_false]
      cases mode with
      | supervisor => exact ⟨_, rfl⟩
      | user => exact ⟨_, rfl⟩
  | external irq rx lsr =>
    obtain ⟨r, hrun⟩ := hw.uartintr_returns rx lsr k.uart
    cases hi with
    | inl he =>
      simp only [he, if_true, hrun, Res.ok_bind]
      exact ⟨_, rfl⟩
    | inr he =>
      rw [he]
      exact ⟨_, rfl⟩

theorem Active.userInterrupt_returns {i : Interrupt} (ha : Active k own q) (hi : i.Known) : ∃ k', k.userInterrupt i = .ok k' := by
  have hw : World ({ k.log (.trapped k.currentTask k.cpu) with trapframe := trapVector k.cpu k.trapframe } : Kernel).heap own q := ha.world
  obtain ⟨k₁, hrun⟩ := hw.handleInterrupt_returns hi .user
  cases i with
  | timer => exact ⟨_, Res.bind_eq_ok.mpr ⟨k₁, hrun, rfl⟩⟩
  | external irq rx lsr => exact ⟨_, Res.bind_eq_ok.mpr ⟨k₁, hrun, rfl⟩⟩

theorem Inactive.idleInterrupt_returns {i : Interrupt} (ha : Inactive k own q) (hi : i.Known) (regs : Cpu) :
    ∃ k', k.idleInterrupt regs i = .ok k' := by
  have hw : World ({ k with trapframe := trapVector regs k.trapframe } : Kernel).heap own q := ha.world
  obtain ⟨k₁, hrun⟩ := hw.handleInterrupt_returns hi .supervisor
  exact ⟨_, Res.bind_eq_ok.mpr ⟨k₁, hrun, rfl⟩⟩

/-! ## dispatching -/

theorem Inactive.doSchedule_returns (ha : Inactive k own q) : ∃ k', k.doSchedule = .ok k' := by
  have hnode : kassert (k.currentTaskNode == 0) "schedule: current_task_node not null" = .ok () := by
    rw [ha.nobody.2]
    rfl
  have hcur : kassert (k.currentTask == 0) "schedule: current_task not null" = .ok () := by
    rw [ha.nobody.1]
    rfl
  unfold Kernel.doSchedule
  rw [hnode, Res.ok_bind, hcur, Res.ok_bind]
  simp only
  cases hg : q .tasks with
  | nil =>
    have hq : k.heap.lists.Queue (.queue .tasks) [] := hg ▸ ha.world.queues.queue .tasks
    rw [hq.shift_nil, if_pos rfl]
    exact ⟨_, rfl⟩
  | cons n l =>
    have hq : k.heap.lists.Queue (.queue .tasks) (n :: l) := hg ▸ ha.world.queues.queue .tasks
    have hn : n ∈ q .tasks := hg ▸ List.mem_cons_self
    have hn0 : (k.heap.lists.listShift (.queue .tasks)).1 ≠ 0 := by
      rw [hq.shift_fst]
      exact ha.world.sched_ne_zero hn
    -- the table of a task is a page of RAM
    obtain ⟨ha₁, _⟩ := ha.dispatch hg
    have hroot := (ha₁.world.maps _ ha₁.live).tables _ table_mem_tables
    have hh := ha₁.world.held
    have hoff : Sv39Pa.off (PA (k.dispatch.task k.dispatch.currentTask).pageTable) = 0 :=
      off_PA (hh.ok.usable (hh.out _ _ _ hroot) (Tiling.base_mem (pageAt _))) (hh.page hroot)
    rw [if_neg hn0]
    split
    · rename_i hbad
      exact absurd hoff hbad
    split
    · exact ⟨_, rfl⟩
    · exact ⟨_, rfl⟩

/-! ## the end of a kernel thread -/

theorem Active.wait_returns (ha : Active k own q) (group : TaskList) (th : Thread) : ∃ k', k.wait group th = .ok k' := by
  have hnode : kassert (k.currentTaskNode != 0) "NULL task waiting" = .ok () := by
    rw [bne_iff_ne.mpr (ha.node ▸ (ha.world.static _ ha.live).sched.ne_zero)]
    rfl
  unfold Kernel.wait
  rw [hnode, Res.ok_bind]
  exact ⟨_, rfl⟩

theorem Active.getchar_returns (ha : Active k own q) : ∃ k', k.getchar = .ok k' := by
  unfold Kernel.getchar
  cases k.uart.getchar with
  | none => exact ha.wait_returns _ _
  | some cu => exact ⟨_, rfl⟩

/-- a task whose areas are in order can end, but for the first one -/
theorem Active.destroyCurrent_returns (ha : Active k own q) (hb : Booked k.heap own k.currentTask ns)
    (hpid : (k.task k.currentTask).pid ≠ 1) : ∃ k', k.destroyCurrent = .ok k' := by
  have hnot : ∀ g, (k.heap.task k.currentTask).sched ∉ q g := ha.node ▸ ha.detached
  obtain ⟨hret, _⟩ := taskDestroy_spec ha.world ha.live (hb.complete.ends ha.world ha.live) hnot hpid
  obtain ⟨h', hrun⟩ := hret hb.complete.flat
  exact ⟨_, Res.bind_eq_ok.mpr ⟨h', hrun, rfl⟩⟩

/-- what must hold for `after` to follow a text -/
def After.Ready (k : Kernel) (own : Owners) : After → Prop
  | .syscall _ => True
  | .fault => (∃ ns, Booked k.heap own k.currentTask ns) ∧ (k.task k.currentTask).pid ≠ 1

theorem Active.putText_returns {lsr : Nat → List Bool} {text : List UInt8} {after : After} (ha : Active k own q)
    (hr : after.Ready k own) : ∃ k', k.putText lsr text after = .ok k' := by
  induction text generalizing k with
  | nil =>
    cases after with
    | syscall v => exact ⟨_, rfl⟩
    | fault =>
      obtain ⟨⟨ns, hb⟩, hpid⟩ := hr
      exact ha.destroyCurrent_returns hb hpid
  | cons c text ih =>
    unfold Kernel.putText
    cases k.uart.uartputc c (lsr text.length) with
    | none => exact ha.wait_returns _ _
    | some u =>
      refine ih (ha.setUart u) ?_
      cases after with
      | syscall v => trivial
      | fault => exact hr

/-! ## system calls and faults -/

/-- the thread ends its task: the task exits, or it has met a fault -/
inductive Kernel.Ending (k : Kernel) : Prop where
  | exit (hc : k.Calls SYS_exit)
  | fault (hframe : (k.task k.currentTask).kernelFrame = .yieldToUser) (hcause : k.scause ≠ 8) (hgrow : ∀ a, ¬ k.Grows a)
  | reports (c : UInt8) (text : List UInt8) (hframe : (k.task k.currentTask).kernelFrame = .putchar c text .fault)

/-- the pages that a fork or a page fault needs are there -/
structure Kernel.Supplied (k : Kernel) : Prop where
  fork : k.Forks → ∃ ns, k.heap.AreaNodes k.currentTask ns ∧ k.heap.forkDemand ns ≤ k.heap.mm.sparePages.card
  grow : ∀ a, k.Grows a → k.heap.growDemand (k.task k.currentTask).pageTable (k.stval / pageSize * pageSize)
    (((k.heap.area a).va - k.stval / pageSize * pageSize) / pageSize) ≤ k.heap.mm.sparePages.card

/-- how much the stack grows -/
theorem Orderly.growth (ho : Orderly k own q) (hg : k.Grows a) :
    (∃ h', k.heap.expandStack k.currentTask a (k.stval / pageSize * pageSize) wordCount = .ok h') ↔
      k.heap.growDemand (k.task k.currentTask).pageTable (k.stval / pageSize * pageSize)
        (((k.heap.area a).va - k.stval / pageSize * pageSize) / pageSize) ≤ k.heap.mm.sparePages.card := by
  have ha := ho.active (.inr hg.ctl)
  have hw := ho.world
  obtain ⟨ns, hb⟩ := ho.booked.booked _ ha.live
  have hA := hw.areas _ ha.live
  obtain ⟨n, harea⟩ := vmFindStack_area hA hg.area hg.found
  obtain ⟨c, hc⟩ := hw.aligned _ a n harea
  have hstop := hb.area_stop hA harea
  have hlt := vmFindStack_lt hg.area hg.found
  refine expandStack_memory hw ha.live (Nat.dvd_mul_left _ _) ?_ ?_
  · unfold pageSize at *
    omega
  · unfold VmArea.stop splitAddr at hstop
    unfold wordCount
    omega

theorem Active.syscall_returns (ha : Active k own q) (hb : Booked k.heap own k.currentTask ns)
    (hexec : (k.task k.currentTask).userFrame.registers REG_A7 ≠ SYS_execve)
    (hexit : (k.task k.currentTask).userFrame.registers REG_A7 = SYS_exit → (k.task k.currentTask).pid ≠ 1)
    (hfork : (k.task k.currentTask).userFrame.registers REG_A7 = SYS_fork → k.heap.forkDemand ns ≤ k.heap.mm.sparePages.card) :
    ∃ k', k.syscall o = .ok k' := by
  unfold Kernel.syscall
  simp only [hexec, if_false]
  split
  · exact ha.getchar_returns
  split
  · exact ha.putText_returns trivial
  split
  · exact ⟨_, rfl⟩
  split
  · exact ⟨_, rfl⟩
  split
  · rename_i hcall
    exact sysFork_returns ha ((taskClone_costs ha.world ha.live hb.vm.queue.chain).returns_iff.mpr (hfork hcall))
  split
  · rename_i hcall
    exact ha.destroyCurrent_returns hb (hexit hcall)
  split
  · exact ha.putText_returns trivial
  · exact ⟨_, rfl⟩

theorem Orderly.taskEntryTrap_returns (ho : Orderly k own q) (hctl : k.ctl = .thread)
    (hth : (k.task k.currentTask).kernelFrame = .yieldToUser) (hexec : ¬ k.Execve)
    (hinit : k.Ending → (k.task k.currentTask).pid ≠ 1) (hsup : k.Supplied) : ∃ k', k.taskEntryTrap o = .ok k' := by
  have ha := ho.active (.inr hctl)
  obtain ⟨ns, hb⟩ := ho.booked.booked _ ha.live
  have hfault : k.scause ≠ 8 → (∀ a, ¬ k.Grows a) → ∃ k', k.taskFault o = .ok k' := fun hcause hno =>
    ha.putText_returns ⟨⟨ns, hb⟩, hinit (.fault hth hcause hno)⟩
  unfold Kernel.taskEntryTrap
  simp only
  split
  · rename_i hcause
    have hi := ha.callFrame
    have hregs : ∀ r, (k.callFrame.task k.callFrame.currentTask).userFrame.registers r
        = (k.task k.currentTask).userFrame.registers r := congrFun (callFrame_frame k)
    have hb' : Booked k.callFrame.heap own k.callFrame.currentTask ns := hb.untouched ha.world ha.live (hi.quiet.untouched _ ha.live)
    refine hi.active.syscall_returns hb' (fun hid => ?_) (fun hid => ?_) fun hid => ?_
    · rw [hregs] at hid
      exact hexec ⟨hth, hcause, hid⟩
    · rw [hregs] at hid
      have hpid : (k.callFrame.task k.currentTask).pid = (k.task k.currentTask).pid := by
        show (Function.update k.heap.task k.currentTask _ k.currentTask).pid = _
        rw [Function.update_self]
        rfl
      show (k.callFrame.task k.currentTask).pid ≠ 1
      rw [hpid]
      exact hinit (.exit ⟨hth, hcause, hid⟩)
    · rw [hregs] at hid
      obtain ⟨ns', hns', hle⟩ := hsup.fork ⟨hctl, hth, hcause, hid⟩
      obtain rfl := Chain.unique hns' hb.vm.queue.chain
      exact hle
  rename_i hcause
  split
  · rename_i hpf
    split
    · rename_i hst
      obtain ⟨a, hfind⟩ : ∃ a, k.heap.vmFindStack (.vmAreas k.currentTask) k.stval = .ok a :=
        ⟨_, (hb.areaList ha.world ha.live).vmFindStack_eq⟩
      rw [hfind, Res.ok_bind]
      split
      · rename_i h0
        have hg : k.Grows a := ⟨hctl, hth, hpf, hst, hfind, h0⟩
        obtain ⟨h', hrun⟩ := (ho.growth hg).mpr (hsup.grow a hg)
        rw [hrun, Res.ok_bind]
        exact ⟨_, rfl⟩
      · rename_i h0
        refine hfault hcause fun b hg => h0 ?_
        have he : b = a := Except.ok.inj (hg.area.symm.trans hfind)
        exact he ▸ hg.found
    · rename_i hst
      exact hfault hcause fun b hg => hst hg.stack
  · rename_i hpf
    exact hfault hcause fun b hg => hpf hg.cause

theorem Orderly.resume_returns (ho : Orderly k own q) (hctl : k.ctl = .thread) (hexec : ¬ k.Execve)
    (hth : (k.task k.currentTask).kernelFrame ≠ .interrupted) (hinit : k.Ending → (k.task k.currentTask).pid ≠ 1) (hsup : k.Supplied) :
    ∃ k', k.resume o = .ok k' := by
  have ha := ho.active (.inr hctl)
  unfold Kernel.resume
  cases hf : (k.task k.currentTask).kernelFrame with
  | taskEntry => exact ⟨_, rfl⟩
  | yieldToUser => exact ho.taskEntryTrap_returns hctl hf hexec hinit hsup
  | sysYield => exact ⟨_, rfl⟩
  | getchar => exact ha.getchar_returns
  | putchar c text after =>
    simp only
    cases k.uart.uartputcWoken c (o.lsr text.length) with
    | none => exact ha.wait_returns _ _
    | some u =>
      refine (ha.setUart u).putText_returns ?_
      cases after with
      | syscall v => trivial
      | fault => exact ⟨ho.booked.booked _ ha.live, hinit (.reports c text hf)⟩
  | interrupted => exact absurd hf hth

/-- and a thread that goes on had the pages that it needed -/
theorem Orderly.supplied (ho : Orderly k own q) (hctl : k.ctl = .thread) (hexec : ¬ k.Execve) (hrun : k.resume o = .ok k') :
    k.Supplied := by
  have ha := ho.active (.inr hctl)
  have hs : k.Step k' := .resume o hctl hexec hrun
  refine ⟨fun hf => ?_, fun a hg => ?_⟩
  · obtain ⟨ns, hb⟩ := ho.booked.booked _ ha.live
    obtain ⟨regs, child, k₁, hclone, _⟩ := hs.forked_as ho.consistent hf
    have hi := ha.callFrame.active
    exact ⟨ns, hb.vm.queue.chain, (taskClone_costs hi.world hi.live hb.vm.queue.chain).returns_iff.mp ⟨_, hclone⟩⟩
  · obtain ⟨h', hexp, _⟩ := hs.grew hg
    exact (ho.growth hg).mp ⟨h', hexp⟩

/-! ## in every state -/

/-- the kernel goes on from `k`, whatever comes from outside -/
structure RunsOn (k : Kernel) : Prop where
  user : k.ctl = .user → ∀ i : Interrupt, i.Known → ∃ k', k.userInterrupt i = .ok k'
  idle : k.ctl = .idle → ∀ (regs : Cpu) (i : Interrupt), i.Known → ∃ k', k.idleInterrupt regs i = .ok k'
  schedule : k.ctl = .schedule → ∃ k', k.doSchedule = .ok k'
  /-- unless the first task ends, a thread goes on exactly if there are the pages that it needs -/
  thread : k.ctl = .thread → ¬ k.Execve → (k.Ending → (k.task k.currentTask).pid ≠ 1) →
    ∀ o : Oracle, (∃ k', k.resume o = .ok k') ↔ k.Supplied

/-- **The kernel does not come down.**  If the first image is in order, no assertion of the kernel fails in any run: do_schedule and
interrupts always return, and kernel threads do so exactly if the pages for a fork or for the growth of a stack are there. -/
theorem kernel_runs_on (hr : k.ReachableInOrder) : RunsOn k := by
  obtain ⟨own, q, ho⟩ := hr.orderly
  obtain ⟨k₀, hb, hs⟩ := hr
  obtain ⟨own₀, n₀, ho₀⟩ := hb.orderly
  obtain ⟨p, hf⟩ := hb.booted.follows.steps hb.booted.contexts ho₀.consistent hs
  refine ⟨fun hctl i hi => ?_, fun hctl regs i hi => ?_, fun hctl => ?_, fun hctl hexec hinit o => ⟨fun ⟨k', hrun⟩ => ?_, fun hsup => ?_⟩⟩
  · exact (ho.active (.inl hctl)).userInterrupt_returns hi
  · exact (ho.consistent.inactive (.inr hctl)).idleInterrupt_returns hi regs
  · exact (ho.consistent.inactive (.inl hctl)).doSchedule_returns
  · exact ho.supplied hctl hexec hrun
  · refine ho.resume_returns hctl hexec (fun hth => ?_) hinit hsup
    have hserve := hf.thread hctl
    rw [hth] at hserve
    exact hserve

/-- the theorem when the first task runs and the timer rings -/
theorem kernel_runs_on_first : ∃ k k' : Kernel, k.ReachableInOrder ∧ RunsOn k ∧ k.userInterrupt .timer = .ok k' := by
  obtain ⟨k, own, t, ns, hr, hu⟩ := first_user_in_order
  have hon : RunsOn k := kernel_runs_on hr
  obtain ⟨k', hrun⟩ := hon.user hu.ctl .timer trivial
  exact ⟨k, k', hr, hon, hrun⟩

end FakeKernel
