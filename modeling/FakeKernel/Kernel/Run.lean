import FakeKernel.Kernel.Control

/-!
# Runs of the kernel

* `Kernel.Step`        one step of user code, of the hardware, or of the kernel between two points where
                       control changes hands; a call of execve is no such step;
* `Kernel.Booted`      the state in which main calls schedule();
* `Kernel.Reachable`   a run from there;
* `Step.outcome`, `Reachable.consistent`   the invariant holds in every state that is reached;
* `Kernel.Steps.outside`   memory outside of the allocator's pages stays as it is.
-/

namespace FakeKernel
open Bytes Mm Kernel

variable {k k' k'' k₁ : Kernel} {own own' : Owners} {q q' : TaskList → List Nat} {h : Heap} {L' : Lists}

/-! ## interrupts -/

/-- the two calls of wakeup in uartintr -/
theorem World.wakeupUnless {c : Prop} [Decidable c] {group : TaskList} (hw : World h own q) (hne : group ≠ .tasks)
    (hrun : (if c then (.ok h.lists : Res Lists) else h.lists.wakeup group) = .ok L') :
    ∃ q', World { h with lists := L' } own q' ∧ Quiet h { h with lists := L' } own ∧
      Fifo.Run .tasks q [] q' ∧ ∀ n, (∃ g, n ∈ q' g) ↔ ∃ g, n ∈ q g := by
  by_cases hc : c
  · rw [if_pos hc] at hrun
    have he : h.lists = L' := Except.ok.inj hrun
    subst he
    exact ⟨q, hw, .refl _ _, .refl, fun _ => Iff.rfl⟩
  · rw [if_neg hc] at hrun
    obtain ⟨hw', hq⟩ := hw.wakeup hne hrun
    exact ⟨_, hw', hq, (Fifo.Step.wake group hne).run, fun n => Fifo.mem_release hne⟩

theorem World.uartintr {u u' : Uart} {rx : List UInt8} {lsr : List Bool} (hw : World h own q)
    (hrun : uartintr rx lsr u h.lists = .ok (u', L')) :
    ∃ q', World { h with lists := L' } own q' ∧ Quiet h { h with lists := L' } own ∧
      Fifo.Run .tasks q [] q' ∧ ∀ n, (∃ g, n ∈ q' g) ↔ ∃ g, n ∈ q g := by
  unfold FakeKernel.uartintr at hrun
  simp only at hrun
  obtain ⟨L₁, hin, hrun⟩ := Res.bind_eq_ok.mp hrun
  obtain ⟨L₂, hout, hret⟩ := Res.bind_eq_ok.mp hrun
  cases hret
  obtain ⟨q₁, hw₁, hq₁, hr₁, hm₁⟩ :=
    hw.wakeupUnless (show TaskList.waitIn ≠ .tasks from nofun) hin
  obtain ⟨q₂, hw₂, hq₂, hr₂, hm₂⟩ :=
    hw₁.wakeupUnless (show TaskList.waitOut ≠ .tasks from nofun) hout
  exact ⟨q₂, hw₂, hq₁.trans hq₂, hr₁.trans hr₂, fun n => (hm₂ n).trans (hm₁ n)⟩

/-- the queues have changed and nobody was lost -/
theorem Active.requeued (ha : Active k own q) (hw : World k'.heap own q') (hq : Quiet k.heap k'.heap own)
    (hm : ∀ n, (∃ g, n ∈ q' g) ↔ ∃ g, n ∈ q g) (hcur : k'.currentTask = k.currentTask)
    (hnode : k'.currentTaskNode = k.currentTaskNode) (hsatp : k'.satp = k.satp) : Active k' own q' := by
  have hsame := hq.untouched _ ha.live
  refine ⟨hw, ?_, ?_, ?_, fun g hin => ?_, fun t ht hne => ?_⟩
  · rw [hcur, hq.live]
    exact ha.live
  · rw [hcur, hnode, ha.node]
    exact hsame.task.1.symm
  · rw [hcur, hsatp, ha.satp]
    exact hsame.task.2.2.1.symm
  · rw [hnode] at hin
    obtain ⟨g', hin'⟩ := (hm _).mp ⟨g, hin⟩
    exact ha.detached g' hin'
  · rw [hq.live] at ht
    rw [hcur] at hne
    have he : (k'.task t).sched = (k.task t).sched := (hq.untouched t ht).task.1
    rw [he]
    exact (hm _).mpr (ha.queued t ht hne)

theorem Inactive.requeued (ha : Inactive k own q) (hw : World k'.heap own q') (hq : Quiet k.heap k'.heap own)
    (hm : ∀ n, (∃ g, n ∈ q' g) ↔ ∃ g, n ∈ q g) (hcur : k'.currentTask = k.currentTask)
    (hnode : k'.currentTaskNode = k.currentTaskNode) : Inactive k' own q' := by
  refine ⟨hw, ?_, fun t ht => ?_⟩
  · rw [hcur, hnode]
    exact ha.nobody
  · rw [hq.live] at ht
    have he : (k'.task t).sched = (k.task t).sched := (hq.untouched t ht).task.1
    rw [he]
    exact (hm _).mpr (ha.queued t ht)

/-- a timer interrupt of user code -/
theorem Active.timer (ha : Active k own q) (hrun : k.handleInterrupt .timer .user = .ok k') :
    ∃ q', Outcome q k own k' own q' := by
  have hne : k.currentTask ≠ 0 := fun e => ha.world.zero_not_live (e ▸ ha.live)
  unfold Kernel.handleInterrupt at hrun
  simp only [hne, if_false] at hrun
  cases hrun
  have h₁ := ha.setTask (t := k.currentTask)
    (x := { k.task k.currentTask with userFrame := k.trapframe, mode := .user }) ⟨rfl, rfl, rfl, rfl⟩
  exact ⟨_, h₁.before h₁.active.scheduleNext⟩

theorem dispatched_received {rx : List UInt8} {evs : List Event} (he : evs = [] ∨ evs = [.received rx]) : dispatched evs = [] := by
  rcases he with rfl | rfl <;> rfl

/-- an external interrupt does not depend on who runs -/
theorem external_spec {irq : Nat} {rx : List UInt8} {lsr : List Bool} {mode : TaskMode}
    (hw : World k.heap own q) (hrun : k.handleInterrupt (.external irq rx lsr) mode = .ok k') :
    ∃ u L' evs q', k' = { k with uart := u, heap := { k.heap with lists := L' }, trace := k.trace ++ evs } ∧
      (evs = [] ∨ evs = [.received rx]) ∧ World k'.heap own q' ∧ Quiet k.heap k'.heap own ∧
      Fifo.Run .tasks q [] q' ∧ ∀ n, (∃ g, n ∈ q' g) ↔ ∃ g, n ∈ q g := by
  unfold Kernel.handleInterrupt at hrun
  by_cases hirq : irq = UART0_IRQ
  · simp only [hirq, if_true] at hrun
    obtain ⟨⟨u, L'⟩, huart, hret⟩ := Res.bind_eq_ok.mp hrun
    cases hret
    obtain ⟨q', hw', hq, hr, hm⟩ := hw.uartintr huart
    exact ⟨u, L', [.received rx], q', rfl, .inr rfl, hw', hq, hr, hm⟩
  · simp only [hirq, if_false] at hrun
    split at hrun
    · exact absurd hrun Res.panic_ne_ok
    · cases hrun
      refine ⟨k.uart, k.heap.lists, [], q, ?_, .inl rfl, hw, .refl _ _, .refl, fun _ => Iff.rfl⟩
      rw [List.append_nil]

theorem Active.userInterrupt {i : Interrupt} (ha : Active k own q) (hrun : k.userInterrupt i = .ok k') :
    ∃ q', Outcome q k own k' own q' := by
  unfold Kernel.userInterrupt at hrun
  obtain ⟨k₁, hint, hrun⟩ := Res.bind_eq_ok.mp hrun
  obtain ⟨k₀, hk₀⟩ : ∃ k₀, k₀ = { k.log (.trapped k.currentTask k.cpu) with
      trapframe := trapVector k.cpu k.trapframe } := ⟨_, rfl⟩
  have h₀ : Within q k own k₀ := by
    rw [hk₀]
    exact ha.control rfl rfl rfl rfl ⟨_, rfl, rfl⟩
  have hint : k₀.handleInterrupt i .user = .ok k₁ := hk₀ ▸ hint
  cases i with
  | timer =>
    cases hrun
    obtain ⟨q', ho⟩ := h₀.active.timer hint
    exact ⟨q', h₀.before ho⟩
  | external irq rx lsr =>
    cases hrun
    obtain ⟨u, L', evs₁, q', hk₁, hd₁, hw₁, hq₁, hr, hm⟩ := external_spec h₀.active.world hint
    have ha₁ : Active k₁ own q' :=
      h₀.active.requeued hw₁ hq₁ hm (by rw [hk₁]) (by rw [hk₁]) (by rw [hk₁])
    have hi := ha₁.returnToUser
    have hcons := hi.active.consistent (.inl rfl)
    obtain ⟨evs, htr, hd⟩ := hi.events
    have htr₁ : k₁.trace = k₀.trace ++ evs₁ := by rw [hk₁]
    rw [htr₁, List.append_assoc] at htr
    refine ⟨q', h₀.before ⟨hcons, .quiet (hq₁.trans hi.quiet) rfl, evs₁ ++ evs, htr, ?_⟩⟩
    rw [dispatched_append, dispatched_received hd₁, hd]
    exact hr

theorem Active.userException (ha : Active k own q) (code stval : Nat) :
    Within q k own (k.userException code stval) := by
  obtain ⟨k₁, hk₁⟩ : ∃ k₁, k₁ = { k.log (.trapped k.currentTask k.cpu) with
      trapframe := trapVector k.cpu k.trapframe, scause := code, stval := stval } := ⟨_, rfl⟩
  have h₁ : Within q k own k₁ := by
    rw [hk₁]
    exact ha.control rfl rfl rfl rfl ⟨_, rfl, rfl⟩
  have h₂ := h₁.active.setFrame k₁.currentTask k₁.trapframe
  have h₃ : Within q (k₁.setHeap (k₁.heap.setFrame k₁.currentTask k₁.trapframe)) own
      { k₁.setHeap (k₁.heap.setFrame k₁.currentTask k₁.trapframe) with ctl := .thread } :=
    h₂.active.control rfl rfl rfl rfl ⟨[], (List.append_nil _).symm, rfl⟩
  have he : k.userException code stval =
      { k₁.setHeap (k₁.heap.setFrame k₁.currentTask k₁.trapframe) with ctl := .thread } := by
    rw [hk₁]
    rfl
  rw [he]
  exact (h₁.trans h₂).trans h₃

theorem Inactive.idleInterrupt {i : Interrupt} {regs : Cpu} (ha : Inactive k own q)
    (hrun : k.idleInterrupt regs i = .ok k') : ∃ q', Outcome q k own k' own q' := by
  unfold Kernel.idleInterrupt at hrun
  obtain ⟨k₁, hint, hret⟩ := Res.bind_eq_ok.mp hrun
  cases hret
  obtain ⟨k₀, hk₀⟩ : ∃ k₀, k₀ = { k with trapframe := trapVector regs k.trapframe } := ⟨_, rfl⟩
  rw [← hk₀] at hint
  have ha₀ : Inactive k₀ own q := by
    rw [hk₀]
    exact ⟨ha.world, ha.nobody, ha.queued⟩
  have hheap : k₀.heap = k.heap := by rw [hk₀]
  have htr : k₀.trace = k.trace := by rw [hk₀]
  cases i with
  | timer =>
    unfold Kernel.handleInterrupt at hint
    simp only [ha₀.nobody.1, if_true] at hint
    cases hint
    refine ⟨q, (⟨ha₀.world, ha₀.nobody, ha₀.queued⟩ : Inactive k₀.schedule.schedule own q).consistent (.inl rfl), .quiet ?_ rfl, [], ?_, .refl⟩
    · show Quiet k.heap k₀.heap own
      rw [hheap]
      exact .refl _ _
    · show k₀.trace = _
      rw [htr, List.append_nil]
  | external irq rx lsr =>
    obtain ⟨u, L', evs, q', hk₁, hd, hw₁, hq₁, hr, hm⟩ := external_spec ha₀.world hint
    have ha₁ : Inactive k₁ own q' := ha₀.requeued hw₁ hq₁ hm (by rw [hk₁]) (by rw [hk₁])
    refine ⟨q', (⟨ha₁.world, ha₁.nobody, ha₁.queued⟩ : Inactive k₁.schedule own q').consistent (.inl rfl), .quiet ?_ rfl, evs, ?_, ?_⟩
    · show Quiet k.heap k₁.heap own
      rw [← hheap]
      exact hq₁
    · show k₁.trace = _
      rw [hk₁, ← htr]
    · rw [dispatched_received hd]
      exact hr

/-! ## dispatching -/

/-- do_schedule up to the point where it looks at the mode of the task -/
def Kernel.dispatch (k : Kernel) : Kernel :=
  let (node, L) := k.heap.lists.listShift (.queue .tasks)
  let h := { k.heap with lists := L }
  let t := (h.node node).value
  ({ k with heap := h, currentTaskNode := node, currentTask := t, satp := (h.task t).pageTable } : Kernel).log
    (.dispatched node)

theorem doSchedule_cases (hrun : k.doSchedule = .ok k') :
    ((k.heap.lists.list (.queue .tasks)).first = 0 ∧ k' = { k with currentTaskNode := 0, ctl := .idle }) ∨
    ((k.heap.lists.list (.queue .tasks)).first ≠ 0 ∧
      (k' = { k.dispatch with ctl := .thread } ∧ (k.dispatch.task k.dispatch.currentTask).mode = .supervisor ∨
        k' = { k.dispatch with trapframe := (k.dispatch.task k.dispatch.currentTask).userFrame }.returnToUser ∧
          (k.dispatch.task k.dispatch.currentTask).mode = .user)) := by
  unfold Kernel.doSchedule at hrun
  obtain ⟨_, _, hrun⟩ := Res.bind_eq_ok.mp hrun
  obtain ⟨_, _, hrun⟩ := Res.bind_eq_ok.mp hrun
  simp only at hrun
  by_cases h0 : (k.heap.lists.list (.queue .tasks)).first = 0
  · rw [Lists.listShift_of_empty h0, if_pos rfl] at hrun
    exact .inl ⟨h0, (Except.ok.inj hrun).symm⟩
  · refine .inr ⟨h0, ?_⟩
    have hfst := h0
    rw [← Lists.listShift_fst] at hfst
    rw [if_neg hfst] at hrun
    split at hrun
    · exact absurd hrun Res.panic_ne_ok
    split at hrun
    · rename_i hmode
      exact .inl ⟨(Except.ok.inj hrun).symm, hmode⟩
    · rename_i hmode
      exact .inr ⟨(Except.ok.inj hrun).symm, hmode⟩

/-- the first of the ready list is the current task -/
theorem Inactive.dispatch {n : Nat} {l : List Nat} (ha : Inactive k own q) (hg : q .tasks = n :: l) :
    Active k.dispatch own (Function.update q .tasks l) ∧ Quiet k.heap k.dispatch.heap own ∧
      k.dispatch.trace = k.trace ++ [.dispatched n] := by
  have hq : k.heap.lists.Queue (.queue .tasks) (n :: l) := hg ▸ ha.world.queues.queue .tasks
  have hn : n ∈ q .tasks := hg ▸ List.mem_cons_self
  obtain ⟨hw₁, hq₁⟩ := ha.world.shift hg
  obtain ⟨t, ht, hnt⟩ := ha.world.queues.sched .tasks n hn
  obtain ⟨h₁, hh₁⟩ : ∃ h₁, h₁ = { k.heap with lists := (k.heap.lists.listShift (.queue .tasks)).2 } := ⟨_, rfl⟩
  rw [← hh₁] at hw₁ hq₁
  have ht₁ : t ∈ h₁.live := hq₁.live ▸ ht
  have hsched : (h₁.task t).sched = n := (hq₁.untouched t ht).task.1.trans hnt.symm
  have hvalue : (h₁.node n).value = t := hsched ▸ hw₁.queues.value t ht₁
  have hdis : k.dispatch = ({ k with
      heap := h₁, currentTaskNode := n, currentTask := t, satp := (h₁.task t).pageTable } : Kernel).log
        (.dispatched n) := by
    unfold Kernel.dispatch
    simp only [hq.shift_fst, ← hh₁, hvalue]
    rw [hh₁]
  rw [hdis]
  refine ⟨⟨hw₁, ht₁, hsched.symm, rfl, fun g hin => ?_, fun t' ht' hne => ?_⟩, hq₁, rfl⟩
  · have hin : n ∈ Function.update q .tasks l g := hin
    by_cases he : g = .tasks
    · rw [he, Function.update_self] at hin
      exact (List.nodup_cons.mp hq.chain.nodup).1 hin
    · rw [Function.update_of_ne he] at hin
      exact he (ha.world.queues.unique hin hn)
  · have ht' : t' ∈ k.heap.live := hq₁.live ▸ ht'
    have hsame : (h₁.task t').sched = (k.heap.task t').sched := (hq₁.untouched t' ht').task.1
    obtain ⟨g, hin⟩ := ha.queued t' ht'
    have hin : (k.heap.task t').sched ∈ q g := hin
    refine ⟨g, ?_⟩
    show (h₁.task t').sched ∈ Function.update q .tasks l g
    rw [hsame]
    by_cases he : g = .tasks
    · rw [he, hg, List.mem_cons] at hin
      rw [he, Function.update_self]
      refine hin.resolve_left fun e => hne ?_
      show t' = t
      rw [← ha.world.queues.value t' ht', e, hnt, ha.world.queues.value t ht]
    · rw [Function.update_of_ne he]
      exact hin

theorem Inactive.doSchedule (ha : Inactive k own q) (hrun : k.doSchedule = .ok k') :
    ∃ q', Outcome q k own k' own q' := by
  have hempty : (k.heap.lists.list (.queue .tasks)).first = 0 ↔ q .tasks = [] := by
    have hc := (ha.world.queues.queue .tasks).chain
    cases hg : q .tasks with
    | nil =>
      rw [hg] at hc
      exact ⟨fun _ => rfl, fun _ => hc⟩
    | cons n l =>
      rw [hg] at hc
      exact ⟨fun h0 => absurd (hc.1.symm.trans h0) hc.2.1, nofun⟩
  cases doSchedule_cases hrun with
  | inl hidle =>
    obtain ⟨_, rfl⟩ := hidle
    have hin : Inactive { k with currentTaskNode := 0, ctl := .idle } own q :=
      ⟨ha.world, ⟨ha.nobody.1, rfl⟩, ha.queued⟩
    exact ⟨q, hin.consistent (.inr rfl), .quiet (.refl _ _) rfl, [], (List.append_nil _).symm, .refl⟩
  | inr hdis =>
    obtain ⟨h0, hk'⟩ := hdis
    cases hg : q .tasks with
    | nil => exact absurd (hempty.mpr hg) h0
    | cons n l =>
      obtain ⟨ha₁, hq₁, htr₁⟩ := ha.dispatch hg
      have hfin : ∀ {k'}, Within (Function.update q .tasks l) k.dispatch own k' →
          k'.ctl = .user ∨ k'.ctl = .thread → Outcome q k own k' own (Function.update q .tasks l) := by
        intro k' hi hctl
        obtain ⟨evs, htr, hd⟩ := hi.events
        refine ⟨hi.active.consistent hctl, .quiet (hq₁.trans hi.quiet) rfl, [.dispatched n] ++ evs, ?_, ?_⟩
        · rw [htr, htr₁, List.append_assoc]
        · rw [dispatched_append, hd, List.append_nil]
          exact (Fifo.Step.serve n l hg).run
      cases hk' with
      | inl hsup =>
        obtain ⟨rfl, _⟩ := hsup
        have h₂ : Within (Function.update q .tasks l) k.dispatch own { k.dispatch with ctl := .thread } :=
          ha₁.control rfl rfl rfl rfl ⟨[], (List.append_nil _).symm, rfl⟩
        exact ⟨_, hfin h₂ (.inr rfl)⟩
      | inr huser =>
        obtain ⟨rfl, _⟩ := huser
        have h₂ : Within (Function.update q .tasks l) k.dispatch own
            { k.dispatch with trapframe := (k.dispatch.task k.dispatch.currentTask).userFrame } :=
          ha₁.control rfl rfl rfl rfl ⟨[], (List.append_nil _).symm, rfl⟩
        exact ⟨_, hfin (h₂.trans h₂.active.returnToUser) (.inl rfl)⟩

/-! ## runs -/

/-- one step; what comes from outside is arbitrary -/
inductive Kernel.Step (k : Kernel) : Kernel → Prop where
  /-- user code computes, jumps and reads memory -/
  | compute (cpu : Cpu) (h : k.ctl = .user) : Step k { k with cpu := cpu }
  /-- user code stores a byte where the page table lets it -/
  | store (va : Nat) (tr : Translation) (b : UInt8) (h : k.ctl = .user) (htr : k.translate va = some tr)
      (hu : tr.flags &&& pteUser ≠ 0) (hw : tr.flags &&& pteWrite ≠ 0) :
      Step k (k.setHeap { k.heap with mm := k.heap.mm.write (VA tr.pa) b })
  | interrupt (i : Interrupt) {k' : Kernel} (h : k.ctl = .user) (hrun : k.userInterrupt i = .ok k') : Step k k'
  | exception (code stval : Nat) (h : k.ctl = .user) : Step k (k.userException code stval)
  | resume (o : Oracle) {k' : Kernel} (h : k.ctl = .thread) (hexec : ¬ k.Execve)
      (hrun : k.resume o = .ok k') : Step k k'
  | schedule {k' : Kernel} (h : k.ctl = .schedule) (hrun : k.doSchedule = .ok k') : Step k k'
  | idle (regs : Cpu) (i : Interrupt) {k' : Kernel} (h : k.ctl = .idle) (hrun : k.idleInterrupt regs i = .ok k') :
      Step k k'

def Kernel.Steps : Kernel → Kernel → Prop := Relation.ReflTransGen Step

/-- the walk looks at 39 bits of an address -/
theorem walk_mod (m : Mem) {level table va : Nat} (hl : level ≤ 2) :
    walk m level table (va % 2 ^ 39) = walk m level table va := by
  have hvpn : ∀ l ≤ 2, vpnAt l (va % 2 ^ 39) = vpnAt l va := by
    intro l hle
    unfold vpnAt Bitfield.field
    have hcases : l = 0 ∨ l = 1 ∨ l = 2 := by omega
    obtain rfl | rfl | rfl := hcases <;> omega
  have hleaf : ∀ l ≤ 2, ∀ pte, leafAt l pte (va % 2 ^ 39) = leafAt l pte va := by
    intro l hle pte
    have hdvd : 2 ^ (12 + 9 * l) ∣ 2 ^ 39 := Nat.pow_dvd_pow 2 (by omega)
    unfold leafAt
    rw [Nat.mod_mod_of_dvd va hdvd]
  induction level generalizing table with
  | zero =>
    show leafAt 0 (entry m table (vpnAt 0 (va % 2 ^ 39))) (va % 2 ^ 39) = leafAt 0 (entry m table (vpnAt 0 va)) va
    rw [hvpn 0 hl, hleaf 0 hl]
  | succ level ih =>
    unfold walk
    simp only [hvpn (level + 1) hl, hleaf (level + 1) hl, ih (Nat.le_of_succ_le hl)]

/-- user code reaches the pages of its task only -/
theorem Active.translate {va : Nat} {tr : Translation} (ha : Active k own q) (htr : k.translate va = some tr)
    (hu : tr.flags &&& pteUser ≠ 0) : ∃ p m v, own.Page p k.currentTask (.user m v) ∧
      tr.pa = PA p + va % pageSize ∧ onPage p (VA tr.pa) := by
  have hM := ha.world.maps k.currentTask ha.live
  have hsatp : k.satp = (k.heap.task k.currentTask).pageTable := ha.satp
  have hwalk : walk k.heap.mm.mem 2 (k.heap.task k.currentTask).pageTable (va % 2 ^ 39) = some tr := by
    unfold Kernel.translate at htr
    split at htr
    · rw [walk_mod _ (Nat.le_refl 2), ← hsatp]
      exact htr
    · exact nomatch htr
  obtain ⟨p, m, hp, hpa⟩ := hM.user _ (Nat.mod_lt _ (by decide)) tr hwalk hu
  have hpa : tr.pa = PA p + va % pageSize := by
    rw [hpa]
    unfold pageSize
    omega
  refine ⟨p, m, _, hp, hpa, ?_⟩
  have hin := ha.world.held.ok.usable (ha.world.held.out _ _ _ hp) (Tiling.base_mem (pageAt p))
  have h1 : PA p + kernBase = p + kernPhy := (PA_usable hin).1
  have hva : VA tr.pa = p + va % pageSize := by
    have hr : va % pageSize < pageSize := Nat.mod_lt _ (by decide)
    have hlt : p < kernPhyBase + 2 ^ 22 := hin.2
    have hsum : PA p + va % pageSize + kernBase - kernPhy = p + va % pageSize := by omega
    rw [hpa]
    unfold VA
    rw [hsum, Nat.mod_eq_of_lt]
    unfold kernPhyBase kernBase splitAddr at hlt
    unfold pageSize at hr
    unfold wordCount
    unfold pageSize
    omega
  rw [hva]
  exact ⟨Nat.le_add_right _ _, Nat.add_lt_add_left (Nat.mod_lt _ (by decide)) p⟩

theorem Consistent.active (hc : Consistent k own q) (hctl : k.ctl = .user ∨ k.ctl = .thread) : Active k own q := by
  unfold Consistent at hc
  cases hctl with
  | inl h =>
    rw [h] at hc
    exact hc
  | inr h =>
    rw [h] at hc
    exact hc

theorem Consistent.inactive (hc : Consistent k own q) (hctl : k.ctl = .schedule ∨ k.ctl = .idle) :
    Inactive k own q := by
  unfold Consistent at hc
  cases hctl with
  | inl h =>
    rw [h] at hc
    exact hc
  | inr h =>
    rw [h] at hc
    exact hc

/-- a step keeps the invariant -/
theorem Kernel.Step.outcome (hs : Step k k') (hc : Consistent k own q) : ∃ own' q', Outcome q k own k' own' q' := by
  cases hs with
  | compute cpu h =>
    have ha := hc.active (.inl h)
    have hi : Within q k own { k with cpu := cpu } :=
      ha.control rfl rfl rfl rfl ⟨[], (List.append_nil _).symm, rfl⟩
    exact ⟨own, q, hi.outcome (.inl h)⟩
  | store va tr b h htr hu _ =>
    have ha := hc.active (.inl h)
    obtain ⟨p, m, v, hp, _, hx⟩ := ha.translate htr hu
    have hmem : ∀ x, ¬ onPage p x → Function.update k.heap.mm.mem (VA tr.pa) b x = k.heap.mm.mem x :=
      fun x hx' => Function.update_of_ne (fun e => hx' (by rw [e]; exact hx)) _ _
    obtain ⟨hw, hq⟩ := ha.world.store hp hmem
    have hi : Within q k own (k.setHeap { k.heap with mm := k.heap.mm.write (VA tr.pa) b }) :=
      ⟨ha.congr hw hq rfl rfl rfl, hq, rfl, [], (List.append_nil _).symm, rfl⟩
    exact ⟨own, q, hi.outcome (.inl h)⟩
  | interrupt i h hrun =>
    obtain ⟨q', ho⟩ := (hc.active (.inl h)).userInterrupt hrun
    exact ⟨own, q', ho⟩
  | exception code stval h =>
    exact ⟨own, q, ((hc.active (.inl h)).userException code stval).outcome (.inr rfl)⟩
  | resume o h hexec hrun => exact (hc.active (.inr h)).resume hexec hrun
  | schedule h hrun =>
    obtain ⟨q', ho⟩ := (hc.inactive (.inl h)).doSchedule hrun
    exact ⟨own, q', ho⟩
  | idle regs i h hrun =>
    obtain ⟨q', ho⟩ := (hc.inactive (.inr h)).idleInterrupt hrun
    exact ⟨own, q', ho⟩

theorem Kernel.Steps.consistent (hs : Steps k k') (hc : Consistent k own q) :
    ∃ own' q' evs, Consistent k' own' q' ∧ k'.trace = k.trace ++ evs ∧
      Fifo.Run .tasks q (dispatched evs) q' := by
  induction hs with
  | refl => exact ⟨own, q, [], hc, (List.append_nil _).symm, .refl⟩
  | tail _ hs ih =>
    obtain ⟨own₁, q₁, evs, hc₁, htr, hr⟩ := ih
    obtain ⟨own', q', ho⟩ := hs.outcome hc₁
    obtain ⟨evs', htr', hr'⟩ := ho.events
    refine ⟨own', q', evs ++ evs', ho.consistent, ?_, ?_⟩
    · rw [htr', htr, List.append_assoc]
    · rw [dispatched_append]
      exact hr.trans hr'

/-- a run writes nothing outside of the allocator's pages -/
theorem Kernel.Steps.outside {x : Nat} (hs : Steps k k') (hc : Consistent k own q) (hx : x ∉ usable) :
    k'.heap.mm.mem x = k.heap.mm.mem x := by
  induction hs with
  | refl => rfl
  | tail hs hstep ih =>
    obtain ⟨own₁, q₁, _, hc₁, _⟩ := Steps.consistent hs hc
    obtain ⟨_, _, ho⟩ := hstep.outcome hc₁
    exact (ho.change.outside hx).trans ih

/-! ## from boot on -/

/-- init behind sched_init; what task_init_elf returns is ignored -/
def Kernel.init (argv envp : Nat) (k : Kernel) : Res Kernel := do
  let (task, h) ← k.heap.taskCreate 0
  let (_, h) ← h.taskInitElf task program argv envp
  .ok { k with heap := h, ctl := .schedule }

/-- behind mm_init and sched_init: there are no tasks, and but for the early table memory held anything at first -/
structure Kernel.Blank (k : Kernel) : Prop where
  mm : ∃ early m m', EarlyTable early m ∧ establishIdenticalMapping early m = .ok m' ∧ mmInit early m' = .ok k.heap.mm
  queues : ∀ g, k.heap.lists.list (.queue g) = { first := 0, last := 0 }
  pids : k.heap.nextTaskId = 1
  live : k.heap.live = []
  blocks : k.heap.blocks = []
  uart : k.uart = Uart.init
  nobody : k.currentTask = 0 ∧ k.currentTaskNode = 0
  fault : k.mayPageFault = false ∧ k.sum = false
  trace : k.trace = []

/-- the state in which main calls schedule() -/
def Kernel.Booted (k : Kernel) : Prop := ∃ (k₀ : Kernel) (argv envp : Nat), k₀.Blank ∧ k₀.init argv envp = .ok k

def Kernel.Reachable (k : Kernel) : Prop := ∃ k₀ : Kernel, k₀.Booted ∧ Steps k₀ k

theorem Kernel.Blank.start (hb : k.Blank) : ∃ early m, EarlyTable early m ∧ MmStart early m k.heap.mm := by
  obtain ⟨early, m, m', he, hmap, hinit⟩ := hb.mm
  exact ⟨early, m, he, mmInit_spec he hmap hinit⟩

theorem Kernel.Blank.world (hb : k.Blank) : World k.heap (fun _ => none) fun _ => [] := by
  obtain ⟨_, _, _, hs⟩ := hb.start
  have hno : ∀ t, t ∉ k.heap.live := fun t ht => by
    rw [hb.live] at ht
    exact absurd ht List.not_mem_nil
  refine ⟨⟨?_, nofun, nofun, nofun, fun b hb' => ?_, ?_⟩, fun t ht => absurd ht (hno t), fun _ _ _ ha => absurd ha.2 nofun,
    fun t ht => absurd ht (hno t), fun t ht => absurd ht (hno t), fun t ht => absurd ht (hno t),
    ⟨fun g => ?_, nofun, fun t ht => absurd ht (hno t), fun t ht => absurd ht (hno t)⟩⟩
  · exact hs.ok
  · rw [hb.blocks] at hb'
    exact absurd hb' List.not_mem_nil
  · rw [hb.blocks, hb.live]
    exact ⟨List.nodup_nil, List.nodup_nil⟩
  · have hl := hb.queues g
    refine ⟨?_, ?_, nofun⟩
    · rw [hl]
      exact rfl
    · rw [hl]
      rfl

/-- the first task is in the ready list and nobody runs -/
theorem Kernel.Booted.inactive (hb : k.Booted) : ∃ own n, Inactive k own (pushed (fun _ => []) .tasks n) ∧
    k.ctl = .schedule ∧ k.trace = [] := by
  obtain ⟨k₀, argv, envp, hblank, hrun⟩ := hb
  unfold Kernel.init at hrun
  obtain ⟨⟨t, h₁⟩, hcreate, hrun⟩ := Res.bind_eq_ok.mp hrun
  obtain ⟨⟨r, h₂⟩, helf, hret⟩ := Res.bind_eq_ok.mp hrun
  cases hret
  have hid : 0 < k₀.heap.nextTaskId := by
    rw [hblank.pids]
    exact Nat.one_pos
  obtain ⟨own₁, n, stack, root, ha⟩ := taskCreate_added hblank.world hid hcreate
  have hlive : h₁.live = [t] := by rw [ha.live, hblank.live]
  obtain ⟨own, hg⟩ := taskInitElf_world ha.world (hlive ▸ List.mem_singleton_self t) helf
  refine ⟨own, n, ⟨hg.world, hblank.nobody, fun t' ht' => ⟨.tasks, mem_pushed.mpr (.inr ⟨rfl, ?_⟩)⟩⟩, rfl,
    hblank.trace⟩
  have ht' : t' ∈ h₁.live := hg.live ▸ ht'
  obtain ⟨_, hs⟩ := hg.step
  have hsame : (h₂.task t').sched = (h₁.task t').sched := (hs.task t' ht').1
  rw [hlive, List.mem_singleton] at ht'
  subst ht'
  show (h₂.task t').sched = n
  rw [hsame, ha.task, Function.update_self]
  rfl

/-- the invariant holds in every state of a run from boot -/
theorem Kernel.Reachable.consistent (hr : k.Reachable) : ∃ own q, Consistent k own q := by
  obtain ⟨k₀, hb, hs⟩ := hr
  obtain ⟨own, n, ha, hctl, _⟩ := hb.inactive
  obtain ⟨own', q', _, hc, _⟩ := hs.consistent (ha.consistent (.inl hctl))
  exact ⟨own', q', hc⟩

end FakeKernel
