import FakeKernel.Kernel.Family
import FakeKernel.Kernel.Refusal

/-!
# The scheduler and execve

* `Kernel.Move`            a step of a run, or a call of execve that succeeds;
* `sched_placement`        until then every live task runs or waits in one list;
* `ExecveLoads.world`      what such a call leaves: the new sched node is in the ready list, and the task goes on;
* `execve_misplaces`       the current task is then in the ready list too.
-/

namespace FakeKernel
open Bytes Mm Heap Uaccess Kernel

variable {k k' k₀ k₁ k₂ : Kernel} {h h' h₁ : Heap} {own own' own₁ own₂ : Owners} {q : TaskList → List Nat} {o : Oracle}
  {ptr len ptr' len' : Nat → Nat} {t n base argv argc envp envc a1 a2 : Nat} {ns : List Nat}

/-! ## runs with execve -/

/-- a step, or a call of execve that gets to klongjmp(&current_task->kernel_frame) -/
inductive Kernel.Move (k : Kernel) : Kernel → Prop where
  | step {k' : Kernel} (hs : k.Step k') : Move k k'
  | execve (o : Oracle) {k' : Kernel} (h : k.ctl = .thread) (hexec : k.Execve) (hrun : k.resume o = .ok k')
      (hok : k'.ctl = .thread) : Move k k'

/-- the thread that goes on calls execve -/
def Kernel.CallsExecve (k : Kernel) : Prop := k.ctl = .thread ∧ k.Execve

/-- **Placement.**  In every state of a run that has not called execve, every live task is in one place, and nothing refers
to a node that was freed. -/
theorem sched_placement (hb : k₀.Booted) (hs : Relation.ReflTransGen (fun k k' => ¬ k.CallsExecve ∧ k.Move k') k₀ k) :
    ∃ q, Placed k q := by
  have hsteps : Steps k₀ k := by
    refine Relation.ReflTransGen.mono (fun k k' hm => ?_) _ _ hs
    cases hm.2 with
    | step hs => exact hs
    | execve o h hexec _ _ => exact absurd ⟨h, hexec⟩ hm.1
  exact Reachable.placed ⟨k₀, hb, hsteps⟩

/-- a step is no such call -/
theorem Kernel.Step.move (hs : k.Step k') : ¬ k.CallsExecve ∧ k.Move k' := by
  refine ⟨fun hc => ?_, .step hs⟩
  have hctl := hc.1
  cases hs with
  | compute _ h => exact nomatch h.symm.trans hctl
  | store _ _ _ h => exact nomatch h.symm.trans hctl
  | interrupt _ h => exact nomatch h.symm.trans hctl
  | exception _ _ h => exact nomatch h.symm.trans hctl
  | resume _ _ hexec => exact hexec hc.2
  | schedule h => exact nomatch h.symm.trans hctl
  | idle _ _ h => exact nomatch h.symm.trans hctl

/-- the theorem when the first task is in user mode -/
theorem sched_placement_first : ∃ (k : Kernel) (q : TaskList → List Nat), k.ctl = .user ∧ Placed k q := by
  obtain ⟨k, own, t, ns, hf⟩ := first_user
  obtain ⟨k₀, hboot, hsteps⟩ := hf.reachable
  have hmoves := Relation.ReflTransGen.mono (fun _ _ hs => Kernel.Step.move hs) _ _ hsteps
  obtain ⟨q, hp⟩ := sched_placement hboot hmoves
  exact ⟨k, q, hf.ctl, hp⟩

/-! ## what execve leaves -/

/-- the new image of the current task is ready, with the sched node `n` -/
structure Relaunched (k k' : Kernel) (n : Nat) : Prop where
  current : k'.currentTask = k.currentTask
  node : k'.currentTaskNode = k.currentTaskNode
  ctl : k'.ctl = .thread
  sched : (k'.task k.currentTask).sched = n
  frame : (k'.task k.currentTask).kernelFrame = .taskEntry
  live : k'.heap.live = k.heap.live

theorem Heap.setFrame_self (h : Heap) (t : Nat) : (h.setFrame t (h.task t).userFrame).task = h.task := Function.update_eq_self _ _

/-- load_elf changes the user frame only, whatever it returns -/
theorem loadElf_task {ret : Int} {root : Nat} (hw : WellFormed h.mm root) (ht : (h.task t).pageTable = root)
    (hrun : h.loadElf t base = .ok (ret, h')) : ∃ frame, h'.task = (h.setFrame t frame).task := by
  unfold loadElf at hrun
  by_cases hmach : (h.image base).eMachine ≠ EM_RISCV
  · rw [if_pos hmach] at hrun
    cases hrun
    exact ⟨_, (h.setFrame_self t).symm⟩
  rw [if_neg hmach] at hrun
  obtain ⟨⟨res, h₁⟩, hsegs, hrun⟩ := Res.bind_eq_ok.mp hrun
  obtain ⟨htask, N, hg⟩ := loadSegments_grown hw ht hsegs
  cases res with
  | error err =>
    cases hrun
    exact ⟨_, htask.trans (h.setFrame_self t).symm⟩
  | ok b =>
    obtain ⟨h₂, hstack, hret⟩ := Res.bind_eq_ok.mp hrun
    cases hret
    obtain ⟨_, _, _, _, _, hframe⟩ := loadStack_run hg.wf (.refl h₁.mm) (by rw [htask, ht]) hstack
    refine ⟨startFrame (h'.image base).eEntry, ?_⟩
    rw [hframe]
    show Function.update h₁.task t _ = Function.update h.task t _
    rw [htask]

/-- so does task_init_elf -/
theorem taskInitElf_task {ret : Int} (hw : World h own q) (ht : t ∈ h.live) (hrun : h.taskInitElf t base argv envp = .ok (ret, h')) :
    ∃ frame, h'.task = (h.setFrame t frame).task := by
  unfold taskInitElf at hrun
  obtain ⟨_, _, hrun⟩ := Res.bind_eq_ok.mp hrun
  obtain ⟨_, _, hrun⟩ := Res.bind_eq_ok.mp hrun
  obtain ⟨⟨ret₁, h₁⟩, hload, hrun⟩ := Res.bind_eq_ok.mp hrun
  simp only at hrun
  obtain ⟨frame₁, htask⟩ := loadElf_task (hw.maps t ht).wf rfl hload
  by_cases h0 : ret₁ = 0
  · subst h0
    rw [if_neg (not_not.mpr rfl)] at hrun
    obtain ⟨own₁, hg, hlast⟩ := loadElf_world hw ht hload
    obtain ⟨_, _, _, _, mem, frame, _, _, rfl⟩ := initArgs_spec hg.world (hg.live ▸ ht) (hlast rfl) hrun
    refine ⟨frame, ?_⟩
    show Function.update h₁.task t { h₁.task t with userFrame := frame } = Function.update h.task t { h.task t with userFrame := frame }
    rw [htask]
    show Function.update (Function.update h.task t { h.task t with userFrame := frame₁ }) t
      { Function.update h.task t { h.task t with userFrame := frame₁ } t with userFrame := frame } = _
    rw [Function.update_idem, Function.update_self]
  · rw [if_pos h0] at hrun
    cases hrun
    exact ⟨frame₁, htask⟩

theorem ExecveLoads.world (hl : ExecveLoads o a1 a2 k k₁ k₂ argv envp h h₁) (ha : Active k own q)
    (hb : Booked k.heap own k.currentTask ns) (hacc : ArgsAccepted (k.log (.execve k.currentTask)) k₁ own own₁ q a1 argv argc ptr len)
    (hacc' : ArgsAccepted k₁ k₂ own₁ own₂ q a2 envp envc ptr' len') (hrun : k.sysExecve o a1 a2 = .ok k')
    (hctl : k'.ctl = .thread) : ∃ n own', Relaunched k k' n ∧ World k'.heap own' (pushed q .tasks n) := by
  obtain ⟨⟨hcur₁, hnode₁⟩, hlive₁, htask₁, _⟩ := hacc.control
  obtain ⟨⟨hcur₂, hnode₂⟩, hlive₂, htask₂, _⟩ := hacc'.control
  have ht₁ : k.currentTask ∈ k₁.heap.live := by
    rw [hlive₁]
    exact ha.live
  have ht₂ : k.currentTask ∈ k₂.heap.live := by
    rw [hlive₂]
    exact ht₁
  have hnot : ∀ g, (k₂.heap.task k.currentTask).sched ∉ q g := by
    rw [htask₂, htask₁]
    exact ha.sched_not_queued
  have hb₁ := hb.untouched (ha.log (.execve k.currentTask)).world ha.live (hacc.untouched (ha.log _).world ha.live)
  have hb₂ := hb₁.untouched hacc.world ht₁ (hacc'.untouched hacc.world ht₁)
  obtain ⟨_, n, hr, mm, D₁, D₂, hi⟩ := taskReinit_spec hacc'.world ht₂ hnot hl.reinit
  have hw := hi.world hacc'.world ht₂ hb₂ hnot
  obtain ⟨hlive, _, _, _, _, htask⟩ := hi.fields
  have ht : k.currentTask ∈ h.live := by
    rw [hlive]
    exact ht₂
  rw [hl.run (hcur₂.trans hcur₁)] at hrun
  obtain ⟨⟨ret, h'⟩, helf, hrun⟩ := Res.bind_eq_ok.mp hrun
  simp only at hrun
  by_cases h0 : ret = 0
  · subst h0
    rw [if_neg (not_not.mpr rfl)] at hrun
    obtain ⟨own', hg⟩ := taskInitElf_world hw ht helf
    obtain ⟨frame, hframe⟩ := taskInitElf_task hw ht helf
    have hself : h'.task k.currentTask = { h.task k.currentTask with userFrame := frame } := by
      rw [hframe]
      exact Function.update_self _ _ _
    rw [htask] at hself
    cases hrun
    refine ⟨n, own', ⟨hcur₂.trans hcur₁, hnode₂.trans hnode₁, rfl, ?_, ?_, ?_⟩, hg.world⟩
    · show (h'.task k.currentTask).sched = n
      rw [hself]
    · show (h'.task k.currentTask).kernelFrame = .taskEntry
      rw [hself]
    · exact hg.live.trans (hlive.trans (hlive₂.trans hlive₁))
  · rw [if_pos h0] at hrun
    rw [execveFailed_ctl hrun] at hctl
    exact nomatch hctl

/-- a current task whose node is in the ready list is in two places -/
theorem not_placed_of_queued (hw : World k.heap own q) (ht : k.currentTask ∈ k.heap.live) (h0 : k.currentTaskNode ≠ 0)
    (hq : (k.task k.currentTask).sched ∈ q .tasks) : ∀ q', ¬ Placed k q' := by
  intro q' hp
  have hqueue : q' .tasks = q .tasks := (hp.queue .tasks).unique (hw.queues.queue .tasks)
  rw [← hqueue] at hq
  cases hp.once _ ht with
  | inl hout => exact hout.2 _ hq
  | inr hin =>
    cases hp.current with
    | inl hzero => exact h0 hzero
    | inr hcur => exact hin.1 hcur.2.symm

/-! ## the first task calls execve -/

/-- behind the string of 3000 bytes there is a table without pointers -/
theorem longArgs_none {user : Nat → Option UInt8} (hu : ∀ j < pageSize, user (stackBegin + j) = some (longArgs j)) :
    IsArgs user (stackBegin + 3016) 0 (fun _ => 0) fun _ => 0 := by
  refine ⟨nofun, nofun, ?_⟩
  have hbyte : ∀ j < 8, user (wrap (stackBegin + 3016 + 8 * 0 + j)) = some (longArgs (3016 + j)) := fun j hj => by
    have hlt : 3016 + j < pageSize := Nat.lt_trans (Nat.add_lt_add_left hj 3016) (by decide)
    rw [Nat.mul_zero, Nat.add_zero, Nat.add_assoc,
      show wrap (stackBegin + (3016 + j)) = stackBegin + (3016 + j) from Nat.mod_eq_of_lt (Nat.lt_trans (Nat.add_lt_add_left hlt _) (by decide))]
    exact hu _ hlt
  have hslot : slot user (stackBegin + 3016) 0 = some (Bytes.load 8 longArgs 3016) := loadUser_bytes hbyte
  rw [hslot, show Bytes.load 8 longArgs 3016 = 0 by decide]

/-- a call of execve that succeeds: the first task goes on in a new copy of its image -/
theorem first_relaunched : ∃ (k k' : Kernel) (own own₂ : Owners) (n : Nat), k.Reachable ∧ k.ctl = .thread ∧ k.Calls SYS_execve ∧
    k.resume quietOracle = .ok k' ∧ Active k.callFrame own (fun _ => []) ∧ Relaunched k.callFrame k' n ∧
    World k'.heap own₂ (pushed (fun _ => []) .tasks n) := by
  obtain ⟨k', k₁, own, own₁, t, ns, argv, hcall, hrun₁, hgood₁, hacc₁, hbytes⟩ := longArgs_argv (stackBegin + 3016)
  obtain ⟨k₂, own₂, envp, h, h₁, hl, hacc₂⟩ := hcall.loads initImage_onePage initImage_placed hrun₁ hgood₁ hacc₁ (longArgs_none hbytes) (by decide) (by decide)
  obtain ⟨k'', hrun, hctl⟩ := (hl.sysExecve hcall.active hacc₁ hacc₂).1 (by decide)
  have hb : Booked k'.heap own k'.currentTask ns := by
    rw [hcall.current]
    exact hcall.image.booked
  obtain ⟨n, own', hre, hw⟩ := hl.world hcall.active hb hacc₁ hacc₂ hrun hctl
  obtain ⟨k, hr, hthread, hc, rfl, h1, h2⟩ := hcall.reachable
  refine ⟨k, k'', own, own', n, hr, hthread, hc, ?_, hcall.active, hre, hw⟩
  rw [hc.execve, h1, h2]
  exact hrun

/-- back in user mode after execve, the current task is in the ready list, and `current_task_node` is not its node or is
one of the list -/
theorem execve_misplaces : ∃ k₀ k : Kernel, k₀.Booted ∧ Relation.ReflTransGen Kernel.Move k₀ k ∧ k.ctl = .user ∧
    ∀ q, ¬ Placed k q := by
  obtain ⟨k, k', own, own', n, ⟨k₀, hboot, hsteps⟩, hthread, hc, hrun, ha, hre, hw⟩ := first_relaunched
  have hmove : k.Move k' := .execve quietOracle hthread ⟨hc.frame, hc.cause, hc.id⟩ hrun hre.ctl
  have hframe : (k'.task k'.currentTask).kernelFrame = .taskEntry := by
    rw [hre.current]
    exact hre.frame
  have hexec : ¬ k'.Execve := fun he => by
    have hthread : Thread.taskEntry = .yieldToUser := hframe.symm.trans he.1
    exact Thread.noConfusion hthread
  have hresume : k'.resume quietOracle = .ok k'.yieldToUser := by
    unfold Kernel.resume
    rw [hframe]
  have hmoves : Relation.ReflTransGen Kernel.Move k₀ k := Relation.ReflTransGen.mono (fun _ _ hs => .step hs) _ _ hsteps
  refine ⟨k₀, k'.yieldToUser, hboot, (hmoves.tail hmove).tail (.step (.resume _ hre.ctl hexec hresume)), rfl, ?_⟩
  have hw' : World k'.yieldToUser.heap own' (pushed (fun _ => []) .tasks n) :=
    (hw.assign (t := k'.currentTask) (x := { k'.task k'.currentTask with kernelFrame := .yieldToUser }) ⟨rfl, rfl, rfl, rfl⟩).1
  have hsched : (k'.yieldToUser.task k'.yieldToUser.currentTask).sched = n := by
    show (Function.update k'.heap.task k'.currentTask _ k'.currentTask).sched = n
    rw [Function.update_self]
    show (k'.task k'.currentTask).sched = n
    rw [hre.current]
    exact hre.sched
  refine not_placed_of_queued hw' ?_ ?_ ?_
  · show k'.currentTask ∈ k'.heap.live
    rw [hre.current, hre.live]
    exact ha.live
  · show k'.currentTaskNode ≠ 0
    rw [hre.node, ha.node]
    exact (ha.world.static _ ha.live).sched.ne_zero
  · rw [hsched]
    exact mem_pushed.mpr (.inr ⟨rfl, rfl⟩)

end FakeKernel
