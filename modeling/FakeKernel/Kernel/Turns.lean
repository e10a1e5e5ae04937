import FakeKernel.Kernel.Context
import FakeKernel.Kernel.ForkCall

/-!
# Tasks take turns

* `Calling.preempted`   the timer sends the current task to the end of the ready list;
* `Inactive.resumed`    the first of the ready list goes on in user mode;
* `Calling.turn`        one after the other: the two change places;
* `Calling.forks`       a child joins the ready list;
* `TwoTasks.turn`, `first_child`   a task and its child change places.
-/

namespace FakeKernel
open Bytes Mm Heap Kernel

variable {k k' k₁ : Kernel} {h : Heap} {own own' : Owners} {q q' : TaskList → List Nat} {o : Oracle} {e : Elf} {b : Bool}
  {t n m room : Nat} {ns l : List Nat}

theorem Kernel.Reachable.steps (hr : k.Reachable) (hs : Steps k k') : k'.Reachable := by
  obtain ⟨k₀, hb, hs₀⟩ := hr
  exact ⟨k₀, hb, hs₀.trans hs⟩

theorem Kernel.Reachable.contexts (hr : k.Reachable) : Contexts k := by
  obtain ⟨k₀, hb, hs⟩ := hr
  obtain ⟨own, n, ha, hctl, _⟩ := hb.inactive
  exact hb.contexts.steps (ha.consistent (.inl hctl)) hs

/-- when it is dispatched it goes to user mode -/
def Ready (x : Task) : Prop := x.kernelFrame = .yieldToUser ∨ x.kernelFrame = .taskEntry

/-! ## the timer -/

/-- the current task has joined the ready list -/
structure Preempted (k k' : Kernel) (own : Owners) (q : TaskList → List Nat) : Prop where
  step : k.Step k'
  ctl : k'.ctl = .schedule
  inactive : Inactive k' own (pushed q .tasks k.currentTaskNode)
  quiet : Quiet k.heap k'.heap own
  frames : ∀ t, (k'.task t).kernelFrame = (k.task t).kernelFrame
  trace : ∃ evs, k'.trace = k.trace ++ evs ∧ dispatched evs = []

theorem Calling.preempted (hk : Calling k own q) : ∃ k', Preempted k k' own q := by
  have ha := hk.active
  obtain ⟨k₀, hk₀⟩ : ∃ k₀, k₀ = { k.log (.trapped k.currentTask k.cpu) with trapframe := trapVector k.cpu k.trapframe } := ⟨_, rfl⟩
  have h₀ : Within q k own k₀ := by
    rw [hk₀]
    exact ha.control rfl rfl rfl rfl ⟨_, rfl, rfl⟩
  obtain ⟨k₁, hk₁⟩ : ∃ k₁, k₁ = k₀.setTask k₀.currentTask { k₀.task k₀.currentTask with userFrame := k₀.trapframe, mode := .user } :=
    ⟨_, rfl⟩
  have h₁ : Within q k own k₁ := by
    rw [hk₁]
    exact h₀.trans (h₀.active.setTask ⟨rfl, rfl, rfl, rfl⟩)
  have hne : k₀.currentTask ≠ 0 := fun he => h₀.active.world.zero_not_live (he ▸ h₀.active.live)
  have hint : k₀.handleInterrupt .timer .user = .ok k₁.scheduleNext := by
    unfold Kernel.handleInterrupt
    rw [hk₁]
    simp only [hne, if_false]
  have hrun : k.userInterrupt .timer = .ok k₁.scheduleNext := by
    rw [hk₀] at hint
    exact Res.bind_eq_ok.mpr ⟨_, hint, rfl⟩
  have hnode : k₁.currentTaskNode = k.currentTaskNode := by
    rw [hk₁, hk₀]
    rfl
  have hfin := h₁.active.scheduleNext
  have hnot : ∀ g, (k₁.heap.task k₁.currentTask).sched ∉ q g := h₁.active.node ▸ h₁.active.detached
  have hpush := (h₁.active.world.push h₁.active.live hnot .tasks).2
  have hin : Inactive k₁.scheduleNext own (pushed q .tasks k₁.currentTaskNode) := hfin.consistent
  rw [hnode] at hin
  refine ⟨k₁.scheduleNext, .interrupt .timer hk.ctl hrun, rfl, hin, h₁.quiet.trans ?_, fun t => ?_, h₁.events⟩
  · show Quiet k₁.heap (k₁.heap.listPush (.queue .tasks) k₁.currentTaskNode) own
    rw [show k₁.currentTaskNode = (k₁.heap.task k₁.currentTask).sched from h₁.active.node]
    exact hpush
  · show (k₁.heap.task t).kernelFrame = (k.heap.task t).kernelFrame
    have hheap : k₀.heap = k.heap := by
      rw [hk₀]
      rfl
    rw [hk₁]
    show (Function.update k₀.heap.task k₀.currentTask _ t).kernelFrame = _
    by_cases he : t = k₀.currentTask
    · rw [he, Function.update_self, ← hheap]
      rfl
    · rw [Function.update_of_ne he, hheap]

/-! ## the scheduler -/

/-- the task with the sched node `n` goes on, and until then no other task runs -/
structure Resumed (k k' : Kernel) (own : Owners) (q : TaskList → List Nat) (n : Nat) : Prop where
  run : Relation.ReflTransGen (fun k₁ k₂ => (k₁.currentTask = 0 ∨ k₁.currentTask = k'.currentTask) ∧ k₁.Step k₂) k k'
  calling : Calling k' own q
  node : k'.currentTaskNode = n
  quiet : Quiet k.heap k'.heap own
  frames : ∀ t, t ≠ k'.currentTask → (k'.task t).kernelFrame = (k.task t).kernelFrame
  trace : ∃ evs, k'.trace = k.trace ++ evs ∧ dispatched evs = [n]

theorem Resumed.steps (hr : Resumed k k' own q n) : Steps k k' := Relation.ReflTransGen.mono (fun _ _ h => h.2) _ _ hr.run

theorem Inactive.resumed (ha : Inactive k own q) (hr : k.Reachable) (hctl : k.ctl = .schedule) (hg : q .tasks = n :: l)
    (hready : Ready (k.task k.dispatch.currentTask)) : ∃ k', Resumed k k' own (Function.update q .tasks l) n := by
  obtain ⟨ha₁, hq₁, htr₁⟩ := ha.dispatch hg
  have hlive : k.dispatch.currentTask ∈ k.heap.live := hq₁.live ▸ ha₁.live
  have hzero : k.currentTask ≠ k.dispatch.currentTask := fun he => ha.world.zero_not_live (ha.nobody.1 ▸ he ▸ hlive)
  have hmode := (hr.contexts.tracked.others _ hlive hzero.symm).mode
  have hnode : k.dispatch.currentTaskNode = n := by
    have hq : k.heap.lists.Queue (.queue .tasks) (n :: l) := hg ▸ ha.world.queues.queue .tasks
    exact hq.shift_fst
  have hsame : k.dispatch.heap.task = k.heap.task := rfl
  have hwithin : ∀ {k'}, Within (Function.update q .tasks l) k.dispatch own k' →
      ∃ evs, k'.trace = k.trace ++ evs ∧ dispatched evs = [n] := by
    intro k' hi
    obtain ⟨evs, htr, hd⟩ := hi.events
    refine ⟨[.dispatched n] ++ evs, ?_, ?_⟩
    · rw [htr, htr₁, List.append_assoc]
    · rw [dispatched_append, hd]
      rfl
  cases hready with
  | inr hentry =>
    have hsup : (k.task k.dispatch.currentTask).mode = .supervisor := by
      cases hm : (k.task k.dispatch.currentTask).mode with
      | supervisor => rfl
      | user => exact nomatch (hmode.mp hm).symm.trans hentry
    obtain ⟨k₁, hsteps, hi₁, hheap⟩ := ha.entry hctl hg hsup hentry
    have hi₂ := hi₁.trans hi₁.active.yieldToUser
    have hcur : k₁.yieldToUser.currentTask = k₁.currentTask := hi₁.active.yieldToUser.current
    refine ⟨k₁.yieldToUser, ?_, ⟨hr.steps hsteps.steps, rfl, hi₂.active, ?_⟩, ?_, hq₁.trans hi₂.quiet, fun t ht => ?_, hwithin hi₂⟩
    · exact .tail (.single ⟨.inl ha.nobody.1, hsteps.dispatched⟩) ⟨.inr hcur.symm, hsteps.step⟩
    · rw [hcur]
      exact yieldToUser_frame k₁
    · rw [← hnode]
      have htask : (k₁.heap.task k₁.currentTask).sched = (k.dispatch.heap.task k.dispatch.currentTask).sched := by
        rw [hheap, hi₁.current]
      exact (hi₁.active.node.trans htask).trans ha₁.node.symm
    · rw [hcur] at ht
      show (Function.update k₁.heap.task k₁.currentTask _ t).kernelFrame = _
      rw [Function.update_of_ne ht, hheap]
      rfl
  | inl hyield =>
    obtain ⟨k₂, hsched⟩ := ha.doSchedule_ok hg
    have huser : (k.dispatch.task k.dispatch.currentTask).mode = .user := hmode.mpr hyield
    have hfirst : (k.heap.lists.list (.queue .tasks)).first ≠ 0 := by
      have hc := (ha.world.queues.queue .tasks).chain
      rw [hg] at hc
      rw [hc.1]
      exact hc.2.1
    have hk₂ : k₂ = { k.dispatch with trapframe := (k.dispatch.task k.dispatch.currentTask).userFrame }.returnToUser := by
      cases doSchedule_cases hsched with
      | inl hidle => exact absurd hidle.1 hfirst
      | inr hdis =>
        cases hdis.2 with
        | inl hsup =>
          rw [huser] at hsup
          exact nomatch hsup.2
        | inr huser => exact huser.1
    obtain ⟨k₁, hk₁⟩ : ∃ k₁, k₁ = { k.dispatch with trapframe := (k.dispatch.task k.dispatch.currentTask).userFrame } := ⟨_, rfl⟩
    rw [← hk₁] at hk₂
    have hi₁ : Within (Function.update q .tasks l) k.dispatch own k₁ := by
      rw [hk₁]
      exact ha₁.control rfl rfl rfl rfl ⟨[], (List.append_nil _).symm, rfl⟩
    have hi₂ := hi₁.trans hi₁.active.returnToUser
    rw [← hk₂] at hi₂
    have hstep : k.Step k₂ := .schedule hctl hsched
    have hcur : k₂.currentTask = k.dispatch.currentTask := hi₂.current
    have hheap : k₂.heap = k.dispatch.heap := by
      rw [hk₂, hk₁]
      rfl
    have hframe : ∀ t, (k₂.task t).kernelFrame = (k.task t).kernelFrame := fun t => by
      show (k₂.heap.task t).kernelFrame = _
      rw [hheap]
      rfl
    refine ⟨k₂, .single ⟨.inl ha.nobody.1, hstep⟩, ⟨hr.steps (.single hstep), ?_, hi₂.active, ?_⟩, ?_, hq₁.trans hi₂.quiet,
      fun t _ => hframe t, hwithin hi₂⟩
    · rw [hk₂]
      rfl
    · rw [hframe, hcur]
      exact hyield
    · rw [← hnode, hk₂, hk₁]
      rfl

/-! ## both -/

/-- the current task has gone to the end of the ready list, and the first of it goes on -/
structure Turn (k k' : Kernel) (own : Owners) (q : TaskList → List Nat) (n : Nat) (l : List Nat) : Prop where
  between : ∃ k₁, Preempted k k₁ own q ∧ Resumed k₁ k' own (Function.update q .tasks (l ++ [k.currentTaskNode])) n
  calling : Calling k' own (Function.update q .tasks (l ++ [k.currentTaskNode]))

namespace Turn

theorem steps (ht : Turn k k' own q n l) : Steps k k' := by
  obtain ⟨k₁, hp, hr⟩ := ht.between
  exact Relation.ReflTransGen.head hp.step hr.steps

theorem quiet (ht : Turn k k' own q n l) : Quiet k.heap k'.heap own := by
  obtain ⟨k₁, hp, hr⟩ := ht.between
  exact hp.quiet.trans hr.quiet

theorem node (ht : Turn k k' own q n l) : k'.currentTaskNode = n := by
  obtain ⟨k₁, _, hr⟩ := ht.between
  exact hr.node

theorem frames (ht : Turn k k' own q n l) (hne : t ≠ k'.currentTask) : (k'.task t).kernelFrame = (k.task t).kernelFrame := by
  obtain ⟨k₁, hp, hr⟩ := ht.between
  exact (hr.frames t hne).trans (hp.frames t)

theorem trace (ht : Turn k k' own q n l) : ∃ evs, k'.trace = k.trace ++ evs ∧ dispatched evs = [n] := by
  obtain ⟨k₁, hp, hr⟩ := ht.between
  obtain ⟨evs, htr, hd⟩ := hp.trace
  obtain ⟨evs', htr', hd'⟩ := hr.trace
  refine ⟨evs ++ evs', ?_, ?_⟩
  · rw [htr', htr, List.append_assoc]
  · rw [dispatched_append, hd, hd', List.nil_append]

end Turn

/-- the timer interrupt of user code, while the task `t` is the first of the ready list -/
theorem Calling.turn (hk : Calling k own q) (hg : q .tasks = n :: l) (hlive : t ∈ k.heap.live) (hn : (k.task t).sched = n)
    (hready : Ready (k.task t)) : ∃ k', Turn k k' own q n l ∧ k'.currentTask = t := by
  obtain ⟨k₁, hp⟩ := hk.preempted
  have hg₁ : pushed q .tasks k.currentTaskNode .tasks = n :: (l ++ [k.currentTaskNode]) := by
    unfold pushed
    rw [Function.update_self, hg, List.cons_append]
  obtain ⟨ha₁, hq₁, _⟩ := hp.inactive.dispatch hg₁
  have hsched : ∀ s ∈ k.heap.live, (k₁.heap.task s).sched = (k.heap.task s).sched := fun s hs => (hp.quiet.untouched s hs).task.1
  have hin : k₁.dispatch.currentTask ∈ k.heap.live := hp.quiet.live ▸ hq₁.live ▸ ha₁.live
  have hnode : (k₁.heap.task k₁.dispatch.currentTask).sched = n := by
    have hq : k₁.heap.lists.Queue (.queue .tasks) (n :: (l ++ [k.currentTaskNode])) := hg₁ ▸ hp.inactive.world.queues.queue .tasks
    have hfst : k₁.dispatch.currentTaskNode = n := hq.shift_fst
    rw [← hfst]
    exact ha₁.node.symm
  have hcur : k₁.dispatch.currentTask = t := by
    have hvalue := hk.active.world.queues.value
    have he : (k.heap.task k₁.dispatch.currentTask).sched = (k.heap.task t).sched :=
      ((hsched _ hin).symm.trans hnode).trans hn.symm
    rw [← hvalue _ hin, he, hvalue t hlive]
  have hready₁ : Ready (k₁.task k₁.dispatch.currentTask) := by
    rw [hcur]
    exact hready.imp (hp.frames t).trans (hp.frames t).trans
  obtain ⟨k', hr⟩ := hp.inactive.resumed (hk.reachable.steps (.single hp.step)) hp.ctl hg₁ hready₁
  have hqueue : Function.update (pushed q .tasks k.currentTaskNode) .tasks (l ++ [k.currentTaskNode])
      = Function.update q .tasks (l ++ [k.currentTaskNode]) := by
    unfold pushed
    exact Function.update_idem _ _ _
  rw [hqueue] at hr
  refine ⟨k', ⟨⟨k₁, hp, hr⟩, hr.calling⟩, ?_⟩
  have hvalue := hr.calling.active.world.queues.value
  have hlive' : t ∈ k'.heap.live := by
    rw [hr.quiet.live, hp.quiet.live]
    exact hlive
  have hsame : (k'.heap.task t).sched = n := by
    have h1 : (k'.heap.task t).sched = (k₁.heap.task t).sched := (hr.quiet.untouched t (hp.quiet.live ▸ hlive)).task.1
    exact (h1.trans (hsched t hlive)).trans hn
  have hn' : k'.currentTaskNode = (k'.heap.task k'.currentTask).sched := hr.calling.active.node
  rw [← hvalue _ hr.calling.active.live, ← hn', hr.node, ← hsame, hvalue t hlive']

/-! ## a child -/

/-- each page has at most two tables of its own -/
theorem Heap.forkDemand_le (h : Heap) (ns : List Nat) :
    h.forkDemand ns ≤ 4 + (ns.map fun n => 2 + 4 * (h.areaOf n).nPages).sum := by
  have htables : tablesFor (h.areaSlots ns) ≤ 2 * (h.areaSlots ns).length := by
    have h1 : (rootSlots (h.areaSlots ns)).card ≤ ((h.areaSlots ns).map Prod.fst).length := List.toFinset_card_le _
    have h2 : (h.areaSlots ns).toFinset.card ≤ (h.areaSlots ns).length := List.toFinset_card_le _
    rw [List.length_map] at h1
    unfold tablesFor
    omega
  have hsum : h.areaBlocks ns + 2 * (h.areaSlots ns).length = (ns.map fun n => 2 + 4 * (h.areaOf n).nPages).sum := by
    clear htables
    unfold Heap.areaBlocks Heap.areaSlots
    induction ns with
    | nil => rfl
    | cons n ns ih =>
      have hpages : (pageSlots (h.areaOf n).va (h.areaOf n).nPages).length = (h.areaOf n).nPages := by
        unfold pageSlots
        rw [List.length_map, List.length_range]
      rw [List.map_cons, List.sum_cons, List.flatMap_cons, List.length_append, hpages, List.map_cons, List.sum_cons]
      omega
  unfold Heap.forkDemand
  omega

/-- fork logs the child, and the parent goes on -/
theorem sysFork_logs (ha : Active k own q) (hrun : k.sysFork o = .ok k') :
    k'.currentTask = k.currentTask ∧ ∃ child, k'.heap.live = child :: k.heap.live ∧ .forked k.currentTask child ∈ k'.trace := by
  unfold Kernel.sysFork at hrun
  obtain ⟨⟨child, k₁⟩, hclone, hrun⟩ := Res.bind_eq_ok.mp hrun
  obtain ⟨hgood, own', n, hc⟩ := taskClone_cloned ha.world ha.live hclone
  simp only [hgood, Bool.false_eq_true, if_false] at hrun
  obtain ⟨_, _, _, hk₁⟩ := hc.control
  have hcur : k₁.currentTask = k.currentTask := by rw [hk₁]
  cases hrun
  refine ⟨hcur, child, hc.live.2, ?_⟩
  rw [← hcur]
  refine List.mem_append_left _ (List.mem_append_left _ ?_)
  exact List.mem_append_right _ (List.mem_singleton_self _)

/-- the child `t` of the current task, with copies of the areas `ns`, is at the end of the ready list -/
structure Child (k k' : Kernel) (own own' : Owners) (q : TaskList → List Nat) (ns : List Nat) (t : Nat) : Prop where
  steps : Steps k k'
  calling : Calling k' own' (pushed q .tasks (k'.task t).sched)
  current : k'.currentTask = k.currentTask
  live : t ∉ k.heap.live ∧ k'.heap.live = t :: k.heap.live
  entry : (k'.task t).kernelFrame = .taskEntry
  event : .forked k.currentTask t ∈ k'.trace
  untouched : Untouched k.heap k'.heap own own' k.currentTask
  areas : ∃ (a₀ : Mm) (ns' : List Nat), ns'.map k'.heap.areaOf = k.heap.cloneAreas ns ∧ ∀ n ∈ ns', ChildArea a₀ k'.heap (k'.task t).pageTable n

/-- user code calls fork while there is memory for the child -/
theorem Calling.forks (hk : Calling k own q) (hns : k.heap.AreaNodes k.currentTask ns)
    (hle : k.heap.forkDemand ns ≤ k.heap.mm.sparePages.card) : ∃ k' own' t, Child k k' own own' q ns t := by
  obtain ⟨k₁, hc⟩ := hk.active.called hk.reachable hk.ctl hk.frame { registers := fun _ => SYS_fork, pc := 0 }
  have hcall : k₁.Calls SYS_fork := hc.calls
  have ha₁ := hc.within.active
  have hlive := hk.active.live
  have hu₁ := hc.within.quiet.untouched _ hlive
  obtain ⟨hns₁, hof⟩ := hu₁.areaNodes (hk.active.world.areas _ hlive) hns
  rw [← hc.within.current] at hns₁
  obtain ⟨hslots, hblocks⟩ := Heap.area_congr hof
  have hle₁ : k₁.callFrame.heap.forkDemand ns ≤ k₁.callFrame.heap.mm.sparePages.card := by
    unfold Heap.forkDemand at hle ⊢
    rw [hslots, hblocks, hc.mm]
    exact hle
  obtain ⟨k', hrun⟩ := sysFork_returns (o := quietOracle) ha₁ ((taskClone_costs ha₁.world ha₁.live hns₁).returns_iff.mpr hle₁)
  obtain ⟨t, hf⟩ := sysFork_forked ha₁ hns₁ hrun
  obtain ⟨hctl, hframe, _⟩ := sysFork_end ha₁ hrun
  obtain ⟨hcur, child, hlog, hevent⟩ := sysFork_logs ha₁ hrun
  obtain rfl : t = child := (List.cons.inj (hf.live.2.symm.trans hlog)).1
  have hexec : ¬ k₁.Execve := fun he => absurd (hcall.id.symm.trans he.2.2) (by decide)
  have hstep : k₁.Step k' := .resume quietOracle hc.ctl hexec (hcall.fork.trans hrun)
  obtain ⟨regs, child, k₂, hclone, _, hfin⟩ := hstep.forked_as (hc.active.consistent (.inr hc.ctl)) ⟨hc.ctl, hcall⟩
  obtain ⟨_, own', n, hcl⟩ := taskClone_cloned ha₁.world ha₁.live hclone
  obtain ⟨hbr, ha'⟩ := hfin own' n hcl
  obtain rfl : t = child := (List.cons.inj (hf.live.2.symm.trans (hbr.after.live.trans hcl.live.2))).1
  have hn : (k'.task t).sched = n := by
    have hsame : (k'.heap.task t).sched = (k₂.heap.task t).sched :=
      (hbr.after.untouched t (hcl.live.2 ▸ List.mem_cons_self)).task.1
    exact hsame.trans hcl.sched
  have hu : Untouched k.heap k'.heap own own' k.currentTask := by
    have hu₂ := hcl.untouched ha₁.live
    rw [hc.within.current] at hu₂
    have hin : k.currentTask ∈ k₂.heap.live := by
      rw [hcl.live.2, hc.within.quiet.live]
      exact List.mem_cons_of_mem _ hlive
    exact (hu₁.trans hu₂).trans (hbr.after.untouched _ hin)
  obtain ⟨ns', _, hareas, hchild⟩ := hf.areas ns hns₁
  have hclone' : k₁.callFrame.heap.cloneAreas ns = k.heap.cloneAreas ns := by
    unfold Heap.cloneAreas
    exact List.map_congr_left fun n hn => by rw [hof n hn]
  rw [hc.within.current] at hevent
  refine ⟨k', own', t, hc.steps.tail hstep, ?_, hcur.trans hc.within.current, ⟨?_, ?_⟩, hf.fields.2.2, hevent, hu, _, ns', hareas.trans hclone', hchild⟩
  · exact ⟨hc.reachable.steps (.single hstep), hctl, hn ▸ ha', hframe⟩
  · rw [← hc.within.quiet.live]
    exact hf.live.1
  · rw [hf.live.2, hc.within.quiet.live]

/-! ## two tasks -/

/-- `t` runs, and `c` waits for its turn -/
structure TwoTasks (k : Kernel) (own : Owners) (q : TaskList → List Nat) (t c : Nat) : Prop where
  calling : Calling k own q
  current : k.currentTask = t
  live : t ∈ k.heap.live ∧ c ∈ k.heap.live
  ne : t ≠ c
  queue : q .tasks = [(k.task c).sched]
  ready : Ready (k.task c)

/-- the timer makes them change places -/
theorem TwoTasks.turn {c : Nat} (h : TwoTasks k own q t c) :
    ∃ k' q', Turn k k' own q (k.task c).sched [] ∧ TwoTasks k' own q' c t := by
  obtain ⟨k', ht, hcur⟩ := h.calling.turn h.queue h.live.2 rfl h.ready
  have hlive : t ∈ k'.heap.live := ht.quiet.live ▸ h.live.1
  refine ⟨k', _, ht, ht.calling, hcur, ⟨ht.quiet.live ▸ h.live.2, hlive⟩, h.ne.symm, ?_, .inl ?_⟩
  · have hnode : k.currentTaskNode = (k.task t).sched := h.current ▸ h.calling.active.node
    have hsame : (k'.task t).sched = (k.task t).sched := (ht.quiet.untouched t h.live.1).task.1
    rw [Function.update_self, hsame, hnode]
    rfl
  · rw [ht.frames (hcur ▸ h.ne), ← h.current]
    exact h.calling.frame

/-- the first task has forked -/
structure FirstChild (k : Kernel) (own : Owners) (q : TaskList → List Nat) (t c : Nat) : Prop where
  two : TwoTasks k own q t c
  event : .forked t c ∈ k.trace
  stack : k.heap.StackOpen t ∧ ∃ a₀, NewPage a₀ k.heap (k.task c).pageTable stackBegin

theorem first_child : ∃ k own q t c, FirstChild k own q t c := by
  obtain ⟨k, own, t, ns, hf⟩ := first_user
  have ht : k.currentTask = t := hf.current
  have hns : k.heap.AreaNodes k.currentTask ns := ht ▸ hf.image.booked.vm.queue.chain
  have hdemand : k.heap.forkDemand ns ≤ k.heap.mm.sparePages.card := by
    have hsum : (ns.map fun n => 2 + 4 * (k.heap.areaOf n).nPages).sum = 12 := by
      have hmap : (ns.map fun n => 2 + 4 * (k.heap.areaOf n).nPages) = (ns.map k.heap.areaOf).map fun x => 2 + 4 * x.nPages := by
        rw [List.map_map]
        rfl
      rw [hmap, hf.image.areas, initImage_phdr]
      decide
    have hle := k.heap.forkDemand_le ns
    have hfree : 750 ≤ k.heap.mm.sparePages.card := hf.image.room.free.le
    omega
  obtain ⟨k', own', c, hc⟩ := hf.calling.forks hns hdemand
  have hcur : k'.currentTask = t := hc.current.trans ht
  have hlive : t ∈ k.heap.live := hf.live ▸ List.mem_singleton_self t
  have hqueue : pushed (fun _ => []) TaskList.tasks (k'.task c).sched .tasks = [(k'.task c).sched] := Function.update_self _ _ _
  refine ⟨k', own', _, t, c, ⟨hc.calling, hcur, ?_, fun he => hc.live.1 (he ▸ hlive), hqueue, .inr hc.entry⟩, ht ▸ hc.event, ?_, ?_⟩
  · rw [hc.live.2]
    exact ⟨List.mem_cons_of_mem _ hlive, List.mem_cons_self⟩
  · exact (ht ▸ hc.untouched : Untouched k.heap k'.heap own own' t).stackOpen (hf.active.world.maps t hlive) hf.image.stack
  · obtain ⟨a₀, ns', hareas, hchild⟩ := hc.areas
    have hcopies : k.heap.cloneAreas ns = [(initImage.phdr 0).area, stackArea false].map fun x => { x with refcount := 1 } := by
      rw [← hf.image.areas, List.map_map]
      rfl
    have hin : stackArea false ∈ ns'.map k'.heap.areaOf := by
      rw [hareas, hcopies]
      exact List.mem_cons_of_mem _ (List.mem_singleton_self _)
    obtain ⟨n, hn, he⟩ := List.mem_map.mp hin
    refine ⟨a₀, ?_⟩
    have hpage := (hchild n hn).mapped 0
    rw [he] at hpage
    exact hpage Nat.one_pos

/-- the theorem when a task and its child take turns: each is dispatched when the timer has interrupted the other -/
theorem dispatch_order_turns : ∃ (k k' : Kernel) (q q' : TaskList → List Nat) (evs : List Event) (t c n m : Nat),
    k.Reachable ∧ .forked t c ∈ k.trace ∧ Queued k.heap q ∧ q .tasks = [n] ∧ Queued k'.heap q' ∧ k'.trace = k.trace ++ evs ∧
    Fifo.Run .tasks q (dispatched evs) q' ∧ dispatched evs = [n, m] ∧ n ≠ m := by
  obtain ⟨k, own, q, t, c, hf⟩ := first_child
  obtain ⟨k₁, q₁, ht₁, htwo₁⟩ := hf.two.turn
  obtain ⟨k₂, q₂, ht₂, htwo₂⟩ := htwo₁.turn
  obtain ⟨evs₁, htr₁, hd₁⟩ := ht₁.trace
  obtain ⟨evs₂, htr₂, hd₂⟩ := ht₂.trace
  obtain ⟨r, r', evs, hr, hr', htr, hrun, _⟩ := dispatch_order hf.two.calling.reachable (ht₁.steps.trans ht₂.steps)
  have hevs : evs = evs₁ ++ evs₂ := by
    rw [htr₂, htr₁, List.append_assoc] at htr
    exact (List.append_cancel_left htr).symm
  have hsame : r .tasks = q .tasks := Chain.unique (hr.queue .tasks).chain (hf.two.calling.active.world.queues.queue .tasks).chain
  have hne : (k.task c).sched ≠ (k₁.task t).sched := fun he => by
    have hvalue := htwo₁.calling.active.world.queues.value
    have hsched : (k₁.task c).sched = (k.task c).sched := (ht₁.quiet.untouched c hf.two.live.2).task.1
    have hc := hvalue c htwo₁.live.1
    rw [show (k₁.heap.task c).sched = (k₁.heap.task t).sched from hsched.trans he, hvalue t htwo₁.live.2] at hc
    exact hf.two.ne hc
  refine ⟨k, k₂, r, r', evs, t, c, _, _, hf.two.calling.reachable, hf.event, hr, hsame.trans hf.two.queue, hr', htr, hrun, ?_, hne⟩
  rw [hevs, dispatched_append, hd₁, hd₂]
  rfl

end FakeKernel
