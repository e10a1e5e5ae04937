import FakeKernel.Kernel.Fork
import FakeKernel.Kernel.Call

/-!
# SYS_fork (kernel/syscall.c)

* `sysFork_forked`   a call that returns has created the child;
* `fork_memory`      when it does: there is memory for all that it needs;
* `fork_exhausts`    a task that forks on and on brings the kernel down.
-/

namespace FakeKernel
open Bytes Mm Heap

variable {k k' : Kernel} {own : Owners} {q : TaskList → List Nat} {o : Oracle} {e : Elf} {b : Bool} {t : Nat} {ns : List Nat}

/-- a child of which only the registers are changed -/
theorem Copied.childArea {h h' : Heap} {a₀ : Mm} {xs : List VmArea} {task : Nat → Task} (hc : Copied a₀ h own t ns xs)
    (hh : h' = { h with task := task }) (ht : (h'.task t).pageTable = (h.task t).pageTable) :
    h'.AreaNodes t ns ∧ ns.map h'.areaOf = xs ∧ ∀ n ∈ ns, ChildArea a₀ h' (h'.task t).pageTable n := by
  rw [ht]
  subst hh
  refine ⟨hc.chained.vm.queue.chain, hc.areas, fun n hn => ?_⟩
  obtain ⟨⟨ms, hms, hlen⟩, hmapped⟩ := hc.copied n hn
  exact ⟨⟨ms, hms.queue.chain, hlen⟩, hmapped⟩

/-- a call of fork that returns has created the child -/
theorem sysFork_forked (ha : Active k own q) (hns : k.heap.AreaNodes k.currentTask ns) (hrun : k.sysFork o = .ok k') :
    ∃ t, Forked k k' (k.task k.currentTask).userFrame t := by
  unfold Kernel.sysFork at hrun
  obtain ⟨⟨child, k₁⟩, hclone, hrun⟩ := Res.bind_eq_ok.mp hrun
  obtain ⟨hgood, own', n, ns', hc, hpid, hparent, hthread, hframe, hframe', hcopied⟩ := taskClone_forked ha.world ha.live hns hclone
  simp only [hgood, Bool.false_eq_true, if_false] at hrun
  obtain ⟨k₂, hk₂⟩ : ∃ k₂, k₂ = k₁.setHeap (k₁.heap.setFrame child ((k₁.task child).userFrame.set REG_A0 0)) := ⟨_, rfl⟩
  obtain ⟨k₃, hk₃⟩ : ∃ k₃, k₃ = k₂.log (.forked k₂.currentTask child) := ⟨_, rfl⟩
  rw [← hk₂, ← hk₃] at hrun
  obtain ⟨pid, hpid₂⟩ : ∃ pid, pid = (k₂.task child).pid := ⟨_, rfl⟩
  rw [← hpid₂] at hrun
  obtain rfl := Except.ok.inj hrun
  obtain ⟨frame, b, c, hk₁⟩ := hc.control
  have hcur : k₃.currentTask = k.currentTask := by
    rw [hk₃, hk₂, hk₁]
    rfl
  have hne : child ≠ k.currentTask := fun he => hc.live.1 (he ▸ ha.live)
  have htask₃ : k₃.heap.task = Function.update k₁.heap.task child
      { k₁.heap.task child with userFrame := (k₁.heap.task child).userFrame.set REG_A0 0 } := by
    rw [hk₃, hk₂]
    rfl
  have htask := sysReturn_task k₃ pid
  rw [hcur] at htask
  have hself : (k₃.sysReturn pid).task k.currentTask = _ := (congrFun htask _).trans (Function.update_self _ _ _)
  have hchild : (k₃.sysReturn pid).task child
      = { k₁.heap.task child with userFrame := (k₁.heap.task child).userFrame.set REG_A0 0 } := by
    refine (congrFun htask child).trans ((Function.update_of_ne hne _ _).trans ?_)
    rw [htask₃, Function.update_self]
  have hpar : k₃.task k.currentTask = k₁.heap.task k.currentTask := by
    show k₃.heap.task k.currentTask = _
    rw [htask₃, Function.update_of_ne (Ne.symm hne)]
  rw [hpar] at hself
  have hheap : (k₃.sysReturn pid).heap = { k₁.heap with task := (k₃.sysReturn pid).heap.task } := by
    rw [hk₃, hk₂]
    rfl
  have hu := hc.untouched ha.live
  have hq : ∀ g, (k₃.sysReturn pid).heap.lists.Queue (.queue g) (pushed q .tasks n g) := fun g => by
    rw [hheap]
    exact hc.world.queues.queue g
  have hsched : ((k₃.sysReturn pid).task child).sched = n := by
    rw [hchild]
    exact hc.sched
  have hpid₃ : pid = ((k₃.sysReturn pid).task child).pid := by
    rw [hchild, hpid₂, hk₂]
    show (Function.update k₁.heap.task child _ child).pid = _
    rw [Function.update_self]
  refine ⟨child, ⟨hc.live.1, ?_⟩, ⟨?_, ?_, ?_⟩, ?_, ?_, ⟨q, ha.world.queues.queue, hsched ▸ hq⟩, fun ns₂ hns₂ => ?_,
    fun ns₂ hns₂ => ?_, ?_, fun x => ?_⟩
  · rw [hheap]
    exact hc.live.2
  · rw [hchild]
    exact hpid
  · rw [hchild]
    exact hparent
  · rw [hchild]
    exact hthread hne
  · rw [← hpid₃, hself]
    show (k₁.heap.task k.currentTask).userFrame.set REG_A0 pid = _
    rw [hframe']
    rfl
  · rw [hchild]
    show (k₁.heap.task child).userFrame.set REG_A0 0 = _
    rw [hframe]
    rfl
  · obtain rfl := Chain.unique hns₂ hns
    exact ⟨ns', hcopied.childArea hheap (by rw [show (k₃.sysReturn pid).heap.task child = _ from hchild])⟩
  · obtain ⟨hnodes, hof⟩ := hu.areaNodes (ha.world.areas _ ha.live) hns₂
    rw [hheap]
    exact ⟨hnodes, hof⟩
  · rw [hself]
    exact hu.task.2.2.1
  · rw [hheap]
    exact hu.mapOf (ha.world.maps _ ha.live) x

/-- fork returns with a complete child, or with an error and nothing changed -/
def ForkReports (o : Oracle) (k : Kernel) : Prop :=
  ∃ k', k.resume o = .ok k' ∧ ((∃ t, Forked k.callFrame k' (k.callFrame.task k.currentTask).userFrame t) ∨
    Refused k.callFrame k' (k.callFrame.task k.currentTask).userFrame)

theorem sysFork_returns (ha : Active k own q) (hrun : ∃ r, k.taskClone o.regs k.currentTask = .ok r) :
    ∃ k', k.sysFork o = .ok k' := by
  obtain ⟨⟨child, k₁⟩, hclone⟩ := hrun
  obtain ⟨hgood, _⟩ := taskClone_added ha.world ha.live hclone
  unfold Kernel.sysFork
  simp only [hclone, Res.ok_bind, hgood]
  exact ⟨_, rfl⟩

/-- **fork and memory.**  fork creates the complete child exactly if the areas of the task form a list that ends, and as many
pages are free as the child needs; else alloc_pages panics, and no error is ever returned. -/
theorem fork_memory (ha : Active k own q) (hc : k.Calls Kernel.SYS_fork) :
    ForkReports o k ↔ ∃ ns, k.heap.AreaNodes k.currentTask ns ∧ k.heap.forkDemand ns ≤ k.heap.mm.sparePages.card := by
  have ha' := ha.callFrame.active
  constructor
  · rintro ⟨k', hrun, _⟩
    rw [hc.fork] at hrun
    obtain ⟨⟨child, k₁⟩, hclone, _⟩ := Res.bind_eq_ok.mp hrun
    obtain ⟨ns, hns⟩ := taskClone_ends ha'.world ha'.live hclone
    exact ⟨ns, hns, (taskClone_costs ha'.world ha'.live hns).returns_iff.mp ⟨_, hclone⟩⟩
  · rintro ⟨ns, hns, hle⟩
    obtain ⟨k', hrun⟩ := sysFork_returns (o := o) ha' ((taskClone_costs ha'.world ha'.live hns).returns_iff.mpr hle)
    exact ⟨k', hc.fork.trans hrun, .inl (sysFork_forked ha' hns hrun)⟩

/-! ## a task that forks on and on -/

/-- user code of a task that can call -/
structure Calling (k : Kernel) (own : Owners) (q : TaskList → List Nat) : Prop where
  reachable : k.Reachable
  ctl : k.ctl = .user
  active : Active k own q
  frame : (k.task k.currentTask).kernelFrame = .yieldToUser

/-- the parent goes on in user mode, and fewer pages are free -/
theorem sysFork_end (ha : Active k own q) (hrun : k.sysFork o = .ok k') :
    k'.ctl = .user ∧ (k'.task k'.currentTask).kernelFrame = .yieldToUser ∧
      k'.heap.mm.sparePages.card < k.heap.mm.sparePages.card := by
  unfold Kernel.sysFork at hrun
  obtain ⟨⟨child, k₁⟩, hclone, hrun⟩ := Res.bind_eq_ok.mp hrun
  obtain ⟨ns, hns⟩ := taskClone_ends ha.world ha.live hclone
  obtain ⟨_, hspare⟩ := (taskClone_costs ha.world ha.live hns).spec _ hclone
  obtain ⟨hgood, _⟩ := taskClone_added ha.world ha.live hclone
  simp only [hgood, Bool.false_eq_true, if_false] at hrun
  obtain ⟨k₂, hk₂⟩ : ∃ k₂, k₂ = k₁.setHeap (k₁.heap.setFrame child ((k₁.task child).userFrame.set REG_A0 0)) := ⟨_, rfl⟩
  obtain ⟨k₃, hk₃⟩ : ∃ k₃, k₃ = k₂.log (.forked k₂.currentTask child) := ⟨_, rfl⟩
  rw [← hk₂, ← hk₃] at hrun
  have hmm : k'.heap.mm = k₁.heap.mm := by
    rw [← Except.ok.inj hrun, hk₃, hk₂]
    rfl
  refine ⟨?_, ?_, ?_⟩
  · rw [← Except.ok.inj hrun]
    rfl
  · rw [← Except.ok.inj hrun]
    have htask := congrFun (sysReturn_task k₃ (k₂.task child).pid) k₃.currentTask
    show ((k₃.sysReturn _).heap.task k₃.currentTask).kernelFrame = _
    rw [htask, Function.update_self]
  · have hdemand : 4 ≤ k.heap.forkDemand ns := by
      unfold Heap.forkDemand
      omega
    have hspare : k.heap.mm.sparePages.card = k.heap.forkDemand ns + k₁.heap.mm.sparePages.card := hspare
    rw [hmm]
    omega

/-- sooner or later there is a fork that does not return -/
theorem fork_exhausts (hk : Calling k own q) : ∃ (k' : Kernel) (own' : Owners) (q' : TaskList → List Nat), k'.Reachable ∧
    k'.ctl = .thread ∧ Active k' own' q' ∧ k'.Calls Kernel.SYS_fork ∧ ∀ k'', k'.resume o ≠ .ok k'' := by
  induction hn : k.heap.mm.sparePages.card using Nat.strong_induction_on generalizing k own q with
  | _ n ih =>
    obtain ⟨k₁, hc⟩ := hk.active.called hk.reachable hk.ctl hk.frame { registers := fun _ => Kernel.SYS_fork, pc := 0 }
    have hcall : k₁.Calls Kernel.SYS_fork := hc.calls
    by_cases hrun : ∃ k₂, k₁.resume o = .ok k₂
    · obtain ⟨k₂, hrun⟩ := hrun
      have hexec : ¬ k₁.Execve := fun he => absurd (hcall.id.symm.trans he.2.2) (by decide)
      obtain ⟨k₀, hboot, hsteps⟩ := hc.reachable
      have hrun' := hrun
      rw [hcall.fork] at hrun'
      obtain ⟨hctl, hframe, hless⟩ := sysFork_end hc.within.active hrun'
      obtain ⟨own', q', ho⟩ := hc.within.active.sysFork hrun'
      rw [hc.mm, hn] at hless
      exact ih _ hless ⟨⟨k₀, hboot, hsteps.tail (.resume o hc.ctl hexec hrun)⟩, hctl, ho.consistent.active (.inl hctl), hframe⟩ rfl
    · exact ⟨k₁, own, q, hc.reachable, hc.ctl, hc.active, hcall, fun k₂ h => hrun ⟨k₂, h⟩⟩

theorem FirstUser.calling {room : Nat} (hf : FirstUser e b k own t ns room) : Calling k own fun _ => [] :=
  ⟨hf.reachable, hf.ctl, hf.active, hf.current ▸ hf.frame⟩

/-- the first task can fork until it brings the kernel down -/
theorem fork_panics : ∃ k : Kernel, k.Reachable ∧ k.ctl = .thread ∧ k.Calls Kernel.SYS_fork ∧
    ¬ ForkReports quietOracle k := by
  obtain ⟨k, own, t, ns, hf⟩ := first_user
  obtain ⟨k', _, _, hr, hctl, _, hc, hno⟩ := fork_exhausts (o := quietOracle) hf.calling
  exact ⟨k', hr, hctl, hc, fun ⟨k'', hrun, _⟩ => hno k'' hrun⟩

/-- the theorem at the first fork of the first task -/
theorem fork_memory_first : ∃ k : Kernel, k.Reachable ∧ k.Calls Kernel.SYS_fork ∧ (ForkReports quietOracle k ↔
    ∃ ns, k.heap.AreaNodes k.currentTask ns ∧ k.heap.forkDemand ns ≤ k.heap.mm.sparePages.card) := by
  obtain ⟨k, own, t, ns, hf⟩ := first_user
  have hk := hf.calling
  obtain ⟨k', hc⟩ := hk.active.called hk.reachable hk.ctl hk.frame { registers := fun _ => Kernel.SYS_fork, pc := 0 }
  have hcall : k'.Calls Kernel.SYS_fork := hc.calls
  exact ⟨k', hc.reachable, hcall, fork_memory hc.active hcall⟩

end FakeKernel
