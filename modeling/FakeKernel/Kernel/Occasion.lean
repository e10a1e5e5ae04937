import FakeKernel.Kernel.Call

/-!
# Which steps change the blocks of tasks

* `Kernel.Forks`, `Kernel.Grows`   the thread that goes on calls fork, or needs a larger stack;
* `Rests`, `Settled`               what the other steps leave alone;
* `Kernel.Step.calm`               such a step changes no blocks, or it ends the current task;
* `Kernel.Step.forked`, `Kernel.Step.grew`   what the two do.
-/

namespace FakeKernel
open Bytes Mm Heap Kernel

variable {k k' k₁ : Kernel} {h h' : Heap} {own own' : Owners} {q q' : TaskList → List Nat} {o : Oracle} {e : Elf} {a t n : Nat}

/-- the thread that goes on calls fork -/
def Kernel.Forks (k : Kernel) : Prop := k.ctl = .thread ∧ k.Calls SYS_fork

/-- the thread that goes on makes the stack in the area `a` grow -/
structure Kernel.Grows (k : Kernel) (a : Nat) : Prop where
  ctl : k.ctl = .thread
  frame : (k.task k.currentTask).kernelFrame = .yieldToUser
  cause : k.scause = 13 ∨ k.scause = 15
  stack : userStackMin ≤ k.stval ∧ k.stval < userStack
  area : k.heap.vmFindStack (.vmAreas k.currentTask) k.stval = .ok a
  found : a ≠ 0

/-- areas and tasks stay, or the current task is gone -/
def Settled (k k' : Kernel) : Prop :=
  (k'.heap.area = k.heap.area ∧ k'.heap.live = k.heap.live) ∨
    (k.currentTask ∈ k.heap.live ∧ k'.heap.live = k.heap.live.erase k.currentTask)

/-- memory, areas and tasks stay, or the current task is destroyed -/
def Rests (own : Owners) (k k' : Kernel) : Prop :=
  (k'.heap.mm = k.heap.mm ∧ k'.heap.area = k.heap.area ∧ k'.heap.live = k.heap.live) ∨
    (k.currentTask ∈ k.heap.live ∧ ∃ (h : Heap) (D : List Nat), h.mm = k.heap.mm ∧ h.live = k.heap.live ∧
      Destroyed h k'.heap own k.currentTask D)

theorem Rests.settled (hr : Rests own k k') : Settled k k' := by
  cases hr with
  | inl hsame => exact .inl hsame.2
  | inr hgone =>
    obtain ⟨hcur, h, D, _, hlive, hd⟩ := hgone
    exact .inr ⟨hcur, hlive ▸ hd.live⟩

/-- no blocks change hands, or the current task is destroyed -/
inductive Calm (q : TaskList → List Nat) (k : Kernel) (own : Owners) (k' : Kernel) (own' : Owners) : Prop where
  | quiet (hq : Quiet k.heap k'.heap own) (he : own' = own)
  | died {D : List Nat} {h : Heap} (hq : Quiet k.heap h own) (hw : World h own q) (hd : Destroyed h k'.heap own k.currentTask D)
      (he : own' = own.without k.currentTask)

theorem Active.setUart (ha : Active k own q) (u : Uart) : Active { k with uart := u } own q :=
  (ha.control rfl rfl rfl rfl ⟨[], (List.append_nil _).symm, rfl⟩ : Within q k own { k with uart := u }).active

/-! ## the steps of a thread -/

theorem Kernel.wait_rests {group : TaskList} {th : Thread} (hrun : k.wait group th = .ok k') : Rests own k k' := by
  unfold Kernel.wait at hrun
  obtain ⟨_, _, hrun⟩ := Res.bind_eq_ok.mp hrun
  cases hrun
  exact .inl ⟨rfl, rfl, rfl⟩

theorem Kernel.getchar_rests (hrun : k.getchar = .ok k') : Rests own k k' := by
  unfold Kernel.getchar at hrun
  cases hget : k.uart.getchar with
  | none =>
    rw [hget] at hrun
    exact wait_rests hrun
  | some cu =>
    rw [hget] at hrun
    cases hrun
    exact .inl ⟨rfl, rfl, rfl⟩

namespace Active

theorem destroyCurrent_rests (ha : Active k own q) (hrun : k.destroyCurrent = .ok k') : Rests own k k' := by
  unfold Kernel.destroyCurrent at hrun
  obtain ⟨h', hdes, hret⟩ := Res.bind_eq_ok.mp hrun
  cases hret
  obtain ⟨D, hd⟩ := taskDestroy_destroyed ha.world ha.live (ha.node ▸ ha.detached) hdes
  exact .inr ⟨ha.live, k.heap, D, rfl, rfl, hd⟩

theorem finish_rests {after : After} (ha : Active k own q) (hrun : k.finish after = .ok k') : Rests own k k' := by
  cases after with
  | syscall v =>
    cases hrun
    exact .inl ⟨rfl, rfl, rfl⟩
  | fault => exact ha.destroyCurrent_rests hrun

theorem putText_rests {lsr : Nat → List Bool} {text : List UInt8} {after : After} (ha : Active k own q)
    (hrun : k.putText lsr text after = .ok k') : Rests own k k' := by
  induction text generalizing k with
  | nil => exact ha.finish_rests hrun
  | cons c text ih =>
    unfold Kernel.putText at hrun
    cases hput : k.uart.uartputc c (lsr text.length) with
    | none =>
      rw [hput] at hrun
      exact wait_rests hrun
    | some u =>
      rw [hput] at hrun
      have hrest : Rests own { k with uart := u } k' := ih (ha.setUart u) hrun
      exact hrest

theorem syscall_rests (ha : Active k own q) (hfork : (k.task k.currentTask).userFrame.registers REG_A7 ≠ SYS_fork)
    (hexec : (k.task k.currentTask).userFrame.registers REG_A7 ≠ SYS_execve) (hrun : k.syscall o = .ok k') : Rests own k k' := by
  unfold Kernel.syscall at hrun
  simp only [hfork, hexec, if_false] at hrun
  split at hrun
  · exact getchar_rests hrun
  split at hrun
  · exact ha.putText_rests hrun
  split at hrun
  · cases hrun
    exact .inl ⟨rfl, rfl, rfl⟩
  split at hrun
  · cases hrun
    exact .inl ⟨rfl, rfl, rfl⟩
  split at hrun
  · exact ha.destroyCurrent_rests hrun
  split at hrun
  · exact ha.putText_rests hrun
  · cases hrun
    exact .inl ⟨rfl, rfl, rfl⟩

theorem taskEntryTrap_rests (ha : Active k own q) (hctl : k.ctl = .thread)
    (hth : (k.task k.currentTask).kernelFrame = .yieldToUser) (hexec : ¬ k.Execve) (hfork : ¬ k.Forks) (hgrow : ∀ a, ¬ k.Grows a)
    (hrun : k.taskEntryTrap o = .ok k') : Rests own k k' := by
  unfold Kernel.taskEntryTrap at hrun
  simp only at hrun
  have hfault : k.taskFault o = .ok k' → Rests own k k' := ha.putText_rests
  by_cases hcall : k.scause = 8
  · rw [if_pos hcall] at hrun
    have hid : ∀ id, (k.task k.currentTask).userFrame.registers REG_A7 ≠ id →
        (k.callFrame.task k.callFrame.currentTask).userFrame.registers REG_A7 ≠ id := fun id hne => by
      show (k.callFrame.task k.currentTask).userFrame.registers REG_A7 ≠ id
      rw [callFrame_frame]
      exact hne
    exact ha.callFrame.active.syscall_rests (hid _ fun hreg => hfork ⟨hctl, hth, hcall, hreg⟩)
      (hid _ fun hreg => hexec ⟨hth, hcall, hreg⟩) hrun
  rw [if_neg hcall] at hrun
  by_cases hpf : k.scause = 13 ∨ k.scause = 15
  · rw [if_pos hpf] at hrun
    by_cases hst : userStackMin ≤ k.stval ∧ k.stval < userStack
    · rw [if_pos hst] at hrun
      obtain ⟨a, hfind, hrun⟩ := Res.bind_eq_ok.mp hrun
      by_cases h0 : a ≠ 0
      · exact absurd ⟨hctl, hth, hpf, hst, hfind, h0⟩ (hgrow a)
      · rw [if_neg h0] at hrun
        exact hfault hrun
    · rw [if_neg hst] at hrun
      exact hfault hrun
  · rw [if_neg hpf] at hrun
    exact hfault hrun

theorem resume_rests (ha : Active k own q) (hctl : k.ctl = .thread) (hexec : ¬ k.Execve) (hfork : ¬ k.Forks)
    (hgrow : ∀ a, ¬ k.Grows a) (hrun : k.resume o = .ok k') : Rests own k k' := by
  unfold Kernel.resume at hrun
  cases hth : (k.task k.currentTask).kernelFrame with
  | taskEntry =>
    rw [hth] at hrun
    cases hrun
    exact .inl ⟨rfl, rfl, rfl⟩
  | yieldToUser =>
    rw [hth] at hrun
    exact ha.taskEntryTrap_rests hctl hth hexec hfork hgrow hrun
  | sysYield =>
    rw [hth] at hrun
    cases hrun
    exact .inl ⟨rfl, rfl, rfl⟩
  | getchar =>
    rw [hth] at hrun
    exact getchar_rests hrun
  | putchar c text after =>
    rw [hth] at hrun
    simp only at hrun
    cases hput : k.uart.uartputcWoken c (o.lsr text.length) with
    | none =>
      rw [hput] at hrun
      exact wait_rests hrun
    | some u =>
      rw [hput] at hrun
      exact (ha.setUart u).putText_rests hrun
  | interrupted =>
    rw [hth] at hrun
    exact absurd hrun Res.panic_ne_ok

end Active

/-! ## interrupts and dispatching -/

theorem Kernel.handleInterrupt_rests {i : Interrupt} {mode : TaskMode} (hw : World k.heap own q)
    (hrun : k.handleInterrupt i mode = .ok k') :
    k'.heap.mm = k.heap.mm ∧ k'.heap.area = k.heap.area ∧ k'.heap.live = k.heap.live := by
  cases i with
  | timer =>
    unfold Kernel.handleInterrupt at hrun
    by_cases h0 : k.currentTask = 0
    · simp only [h0, if_true] at hrun
      cases hrun
      exact ⟨rfl, rfl, rfl⟩
    · simp only [h0, if_false] at hrun
      cases mode with
      | supervisor =>
        cases hrun
        exact ⟨rfl, rfl, rfl⟩
      | user =>
        cases hrun
        exact ⟨rfl, rfl, rfl⟩
  | external irq rx lsr =>
    obtain ⟨u, L', _, _, rfl, _⟩ := external_spec hw hrun
    exact ⟨rfl, rfl, rfl⟩

theorem Kernel.doSchedule_rests (hrun : k.doSchedule = .ok k') :
    k'.heap.mm = k.heap.mm ∧ k'.heap.area = k.heap.area ∧ k'.heap.live = k.heap.live := by
  cases doSchedule_cases hrun with
  | inl hidle =>
    obtain ⟨_, rfl⟩ := hidle
    exact ⟨rfl, rfl, rfl⟩
  | inr hdis =>
    obtain ⟨_, hk'⟩ := hdis
    cases hk' with
    | inl hsup =>
      obtain ⟨rfl, _⟩ := hsup
      exact ⟨rfl, rfl, rfl⟩
    | inr huser =>
      obtain ⟨rfl, _⟩ := huser
      exact ⟨rfl, rfl, rfl⟩

/-- a step that neither forks nor makes a stack grow stores a byte of user memory, or it rests -/
theorem Kernel.Step.rests (hs : Step k k') (hc : Consistent k own q) (hfork : ¬ k.Forks) (hgrow : ∀ a, ¬ k.Grows a) :
    (∃ va tr b, k.ctl = .user ∧ k.translate va = some tr ∧ tr.flags &&& pteUser ≠ 0 ∧ tr.flags &&& pteWrite ≠ 0 ∧
      k' = k.setHeap { k.heap with mm := k.heap.mm.write (VA tr.pa) b }) ∨ Rests own k k' := by
  cases hs with
  | compute cpu h => exact .inr (.inl ⟨rfl, rfl, rfl⟩)
  | store va tr b h htr hu hw => exact .inl ⟨va, tr, b, h, htr, hu, hw, rfl⟩
  | interrupt i h hrun =>
    unfold Kernel.userInterrupt at hrun
    obtain ⟨k₁, hint, hrun⟩ := Res.bind_eq_ok.mp hrun
    have hw : World ({ k.log (.trapped k.currentTask k.cpu) with trapframe := trapVector k.cpu k.trapframe } : Kernel).heap own q :=
      (hc.active (.inl h)).world
    have hrest := handleInterrupt_rests hw hint
    cases i with
    | timer =>
      cases hrun
      exact .inr (.inl hrest)
    | external irq rx lsr =>
      cases hrun
      exact .inr (.inl hrest)
  | exception code stval h => exact .inr (.inl ⟨rfl, rfl, rfl⟩)
  | resume o h hexec hrun => exact .inr ((hc.active (.inr h)).resume_rests h hexec hfork hgrow hrun)
  | schedule h hrun => exact .inr (.inl (doSchedule_rests hrun))
  | idle regs i h hrun =>
    unfold Kernel.idleInterrupt at hrun
    obtain ⟨k₁, hint, hret⟩ := Res.bind_eq_ok.mp hrun
    cases hret
    have hw : World ({ k with trapframe := trapVector regs k.trapframe } : Kernel).heap own q := (hc.inactive (.inr h)).world
    have hrest := handleInterrupt_rests hw hint
    exact .inr (.inl hrest)

theorem Kernel.Step.settled (hs : Step k k') (hc : Consistent k own q) (hfork : ¬ k.Forks) (hgrow : ∀ a, ¬ k.Grows a) : Settled k k' := by
  rcases hs.rests hc hfork hgrow with ⟨_, _, _, _, _, _, _, rfl⟩ | hrest
  · exact .inl ⟨rfl, rfl⟩
  · exact hrest.settled

/-! ## the other changes -/

/-- the area that vm_find_stack finds lies above the address -/
theorem vmFindStack_lt {r : ListRef} {va : Nat} (hrun : h.vmFindStack r va = .ok a) (h0 : a ≠ 0) : va < (h.area a).va := by
  have hfrom : ∀ {fuel node}, h.vmFindStackFrom va fuel node = .ok a → va < (h.area a).va := by
    intro fuel
    induction fuel with
    | zero => exact fun hrun => nomatch hrun
    | succ fuel ih =>
      intro node hrun
      unfold Heap.vmFindStackFrom at hrun
      by_cases hz : node = 0
      · simp only [hz, if_true] at hrun
        exact absurd (Except.ok.inj hrun).symm h0
      simp only [hz, if_false] at hrun
      split at hrun
      · exact absurd (Except.ok.inj hrun).symm h0
      split at hrun
      · rename_i hlt
        split at hrun
        · rw [← Except.ok.inj hrun]
          exact hlt
        · exact absurd (Except.ok.inj hrun).symm h0
      · exact ih hrun
  exact hfrom hrun

/-- a stack that has grown is no longer where it was -/
theorem expandStack_lower {va fuel : Nat} (hw : World h own q) (ht : t ∈ h.live) (hobj : own.Obj a t (.area n))
    (hrun : h.expandStack t a va fuel = .ok h') : (h'.area a).va ≤ va := by
  obtain ⟨_, _, _, hle⟩ := expandStack_rule (I := fun _ _ => True) (fun _ _ _ _ => trivial) trivial hw ht hobj hrun
  exact hle

theorem List.erase_ne_self {l : List Nat} (ht : t ∈ l) : l.erase t ≠ l := fun he => by
  have hlen := congrArg List.length he
  rw [List.length_erase_of_mem ht] at hlen
  have hpos := List.length_pos_of_mem ht
  omega

/-- a step of another kind is calm -/
theorem Kernel.Step.calm (hs : Step k k') (hc : Consistent k own q) (hfork : ¬ k.Forks) (hgrow : ∀ a, ¬ k.Grows a) :
    ∃ own' q', Outcome q k own k' own' q' ∧ Calm q k own k' own' := by
  have hset := hs.settled hc hfork hgrow
  obtain ⟨own', q', ho⟩ := hs.outcome hc
  refine ⟨own', q', ho, ?_⟩
  cases ho.change with
  | quiet hq he => exact .quiet hq he
  | died hq hw _ hd he => exact .died hq hw hd he
  | grew hq hw hst hfind harea hrun hg hq' =>
    rename_i a n stval h h'
    have hlive : k'.heap.live = k.heap.live := (hq'.live.trans hg.live).trans hq.live
    cases hset with
    | inl hsame =>
      have ht : k.currentTask ∈ h.live := hw.held.live _ _ _ harea.page rfl
      have hlt := vmFindStack_lt hfind harea.ne_zero
      have hle := expandStack_lower hw ht harea hrun
      have h1 : k'.heap.area a = h'.area a := (hq'.untouched _ (hg.live ▸ ht)).area a n (hg.mono.obj harea rfl)
      have h2 : h.area a = k.heap.area a := (hq.untouched _ (hq.live ▸ ht)).area a n harea
      rw [hsame.1, ← h2] at h1
      rw [← h1] at hle
      have hround : stval / pageSize * pageSize ≤ stval := Nat.div_mul_le_self _ _
      omega
    | inr hgone =>
      exact absurd (hgone.2.symm.trans hlive) (List.erase_ne_self hgone.1)
  | forked hq ha hcur hrun hchild hc hq' =>
    rename_i regs child n k₁ k₂
    have hlive : k'.heap.live = child :: k.heap.live := by
      rw [hq'.live, hc.live.2, hq.live]
    cases hset with
    | inl hsame =>
      have hlen := congrArg List.length (hlive.symm.trans hsame.2)
      rw [List.length_cons] at hlen
      omega
    | inr hgone =>
      have hlen := congrArg List.length (hlive.symm.trans hgone.2)
      rw [List.length_cons, List.length_erase_of_mem hgone.1] at hlen
      omega

/-- memory does change when a task is destroyed -/
theorem Destroyed.mm_ne {D : List Nat} (hd : Destroyed h h' own a D) (hok : h.mm.Ok) : h'.mm.out ≠ h.mm.out := fun he => by
  have hin : a - 4 ∈ D := (hd.dropped _).mpr (.inr (.inr (.inr rfl)))
  have hout := hd.shrinks.dropped hin
  rw [← he] at hout
  exact ((hd.shrinks.mem_page hok).mp hout).2 hin

/-- only a live task is destroyed -/
theorem Kernel.Step.died_live {D : List Nat} (hs : Step k k') (hc : Consistent k own q) (hfork : ¬ k.Forks) (hgrow : ∀ a, ¬ k.Grows a)
    (hq : Quiet k.heap h own) (hw : World h own q) (hd : Destroyed h k'.heap own k.currentTask D) : k.currentTask ∈ h.live := by
  have hne := hd.mm_ne hw.held.ok
  rw [hq.out] at hne
  rcases hs.rests hc hfork hgrow with ⟨_, _, _, _, _, _, _, rfl⟩ | hsame | hgone
  · exact absurd rfl hne
  · exact absurd (congrArg Mm.out hsame.1) hne
  · exact hq.live ▸ hgone.1

/-! ## fork and the growth of a stack -/

/-- a call of fork: the child is cloned, and then no blocks change hands -/
structure Branched (q : TaskList → List Nat) (k : Kernel) (own : Owners) (k' : Kernel) (own' : Owners) (regs : Cpu) (child n : Nat)
    (k₁ : Kernel) : Prop where
  active : Active k.callFrame own q
  before : Quiet k.heap k.callFrame.heap own
  clone : k.callFrame.taskClone regs k.currentTask = .ok (child, k₁)
  cloned : TaskCloned q regs k.currentTask k.callFrame own k₁ own' child n
  after : Quiet k₁.heap k'.heap own'
  same : k'.heap.mm = k₁.heap.mm

/-- what such a call does, whatever the clone is said to own -/
theorem Kernel.Step.forked_as (hs : Step k k') (hc : Consistent k own q) (hf : k.Forks) : ∃ regs child k₁,
    k.callFrame.taskClone regs k.currentTask = .ok (child, k₁) ∧ k'.ctl = .user ∧
    ∀ own' n, TaskCloned q regs k.currentTask k.callFrame own k₁ own' child n →
      Branched q k own k' own' regs child n k₁ ∧ Active k' own' (pushed q .tasks n) := by
  obtain ⟨hctl, hcall⟩ := hf
  have ha := hc.active (.inr hctl)
  have hi := ha.callFrame
  cases hs with
  | compute _ h => exact nomatch h.symm.trans hctl
  | store _ _ _ h => exact nomatch h.symm.trans hctl
  | interrupt _ h => exact nomatch h.symm.trans hctl
  | exception _ _ h => exact nomatch h.symm.trans hctl
  | schedule h => exact nomatch h.symm.trans hctl
  | idle _ _ h => exact nomatch h.symm.trans hctl
  | resume o h hexec hrun =>
    rw [hcall.fork] at hrun
    unfold Kernel.sysFork at hrun
    obtain ⟨⟨child, k₁⟩, hclone, hrun⟩ := Res.bind_eq_ok.mp hrun
    obtain ⟨hgood, _⟩ := taskClone_cloned hi.active.world hi.active.live hclone
    simp only [hgood, Bool.false_eq_true, if_false] at hrun
    obtain ⟨k₂, hk₂⟩ : ∃ k₂, k₂ = k₁.setHeap (k₁.heap.setFrame child ((k₁.task child).userFrame.set REG_A0 0)) := ⟨_, rfl⟩
    rw [← hk₂] at hrun
    cases hrun
    have hmm : k₂.heap.mm = k₁.heap.mm := by rw [hk₂]; rfl
    refine ⟨o.regs, child, k₁, hclone, rfl, fun own' n hcl => ?_⟩
    have h₂ := (hi.active.cloned hcl).setFrame child ((k₁.task child).userFrame.set REG_A0 0)
    rw [← hk₂] at h₂
    have h₃ : Within (pushed q .tasks n) k₂ own' (k₂.log (.forked k₂.currentTask child)) :=
      h₂.active.control rfl rfl rfl rfl ⟨_, rfl, rfl⟩
    have hend := (h₂.trans h₃).trans (h₃.active.sysReturn (k₂.task child).pid)
    exact ⟨⟨hi.active, hi.quiet, hclone, hcl, hend.quiet, hmm⟩, hend.active⟩

theorem Kernel.Step.forked (hs : Step k k') (hc : Consistent k own q) (hf : k.Forks) :
    ∃ own' regs child n k₁, Branched q k own k' own' regs child n k₁ := by
  have hi := (hc.active (.inr hf.1)).callFrame
  obtain ⟨regs, child, k₁, hclone, _, hfin⟩ := hs.forked_as hc hf
  obtain ⟨_, own', n, hcl⟩ := taskClone_cloned hi.active.world hi.active.live hclone
  exact ⟨own', regs, child, n, k₁, (hfin own' n hcl).1⟩

theorem Kernel.Step.grew (hs : Step k k') (hg : k.Grows a) : ∃ h',
    k.heap.expandStack k.currentTask a (k.stval / pageSize * pageSize) wordCount = .ok h' ∧ k' = (k.setHeap h').yieldToUser := by
  have hctl := hg.ctl
  cases hs with
  | compute _ h => exact nomatch h.symm.trans hctl
  | store _ _ _ h => exact nomatch h.symm.trans hctl
  | interrupt _ h => exact nomatch h.symm.trans hctl
  | exception _ _ h => exact nomatch h.symm.trans hctl
  | schedule h => exact nomatch h.symm.trans hctl
  | idle _ _ h => exact nomatch h.symm.trans hctl
  | resume o h hexec hrun =>
    have hcall : k.scause ≠ 8 := by
      have hcause := hg.cause
      omega
    unfold Kernel.resume at hrun
    rw [hg.frame] at hrun
    have hrun : k.taskEntryTrap o = .ok k' := hrun
    unfold Kernel.taskEntryTrap at hrun
    rw [if_neg hcall, if_pos hg.cause, if_pos hg.stack] at hrun
    simp only [hg.area, Res.ok_bind] at hrun
    rw [if_pos hg.found] at hrun
    obtain ⟨h', hexp, hret⟩ := Res.bind_eq_ok.mp hrun
    cases hret
    exact ⟨h', hexp, rfl⟩

end FakeKernel
