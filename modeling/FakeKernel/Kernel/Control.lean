import FakeKernel.Kernel.Requeue
import FakeKernel.Lib.Fifo

/-!
# Who runs

* `Active`, `Inactive`     the invariant while there is a current task, and while there is none;
* `Change`                 what a stretch of kernel code does to the blocks of the tasks;
* `Outcome`                such a stretch keeps the invariant;
* `Active.syscall`, ...    a kernel thread from a trap to the next point where control changes hands.
-/

namespace FakeKernel
open Bytes Mm Kernel

variable {k k' k'' k₁ : Kernel} {own own' : Owners} {q q' : TaskList → List Nat} {h : Heap} {o : Oracle}
  {g : TaskList}

/-- the next system call is execve -/
def Kernel.Execve (k : Kernel) : Prop :=
  (k.task k.currentTask).kernelFrame = .yieldToUser ∧ k.scause = 8 ∧
    (k.task k.currentTask).userFrame.registers REG_A7 = SYS_execve

/-- the current task is in none of the lists and the others are in one -/
structure Active (k : Kernel) (own : Owners) (q : TaskList → List Nat) : Prop where
  world : World k.heap own q
  live : k.currentTask ∈ k.heap.live
  node : k.currentTaskNode = (k.task k.currentTask).sched
  satp : k.satp = (k.task k.currentTask).pageTable
  detached : ∀ g, k.currentTaskNode ∉ q g
  queued : ∀ t ∈ k.heap.live, t ≠ k.currentTask → ∃ g, (k.task t).sched ∈ q g

structure Inactive (k : Kernel) (own : Owners) (q : TaskList → List Nat) : Prop where
  world : World k.heap own q
  nobody : k.currentTask = 0 ∧ k.currentTaskNode = 0
  queued : ∀ t ∈ k.heap.live, ∃ g, (k.task t).sched ∈ q g

def Consistent (k : Kernel) (own : Owners) (q : TaskList → List Nat) : Prop :=
  match k.ctl with
  | .user | .thread => Active k own q
  | .schedule | .idle => Inactive k own q

theorem Active.consistent (ha : Active k own q) (hctl : k.ctl = .user ∨ k.ctl = .thread) : Consistent k own q := by
  unfold Consistent
  cases hctl with
  | inl hc =>
    rw [hc]
    exact ha
  | inr hc =>
    rw [hc]
    exact ha

theorem Inactive.consistent (ha : Inactive k own q) (hctl : k.ctl = .schedule ∨ k.ctl = .idle) :
    Consistent k own q := by
  unfold Consistent
  cases hctl with
  | inl hc =>
    rw [hc]
    exact ha
  | inr hc =>
    rw [hc]
    exact ha

/-- the nodes that were dispatched -/
def dispatched (evs : List Event) : List Nat :=
  evs.filterMap fun
    | .dispatched n => some n
    | _ => none

/-- what a stretch of kernel code does: one operation, and before and after it steps that change no
blocks -/
inductive Change (q : TaskList → List Nat) (k : Kernel) (own : Owners) (k' : Kernel) (own' : Owners) :
    Prop where
  | quiet (hq : Quiet k.heap k'.heap own) (he : own' = own)
  | died {D : List Nat} {h : Heap} (hq : Quiet k.heap h own) (hw : World h own q)
      (hrun : h.taskDestroy k.currentTask = .ok k'.heap)
      (hd : Destroyed h k'.heap own k.currentTask D) (he : own' = own.without k.currentTask)
  | grew {a n stval : Nat} {h h' : Heap} (hq : Quiet k.heap h own) (hw : World h own q)
      (hst : userStackMin ≤ stval ∧ stval < userStack)
      (hfind : h.vmFindStack (.vmAreas k.currentTask) stval = .ok a) (ha : own.Obj a k.currentTask (.area n))
      (hrun : h.expandStack k.currentTask a (stval / pageSize * pageSize) wordCount = .ok h')
      (hg : Grown q k.currentTask h own h' own') (hq' : Quiet h' k'.heap own')
  | forked {regs : Cpu} {child n : Nat} {k₁ k₂ : Kernel} (hq : Quiet k.heap k₁.heap own) (ha : Active k₁ own q)
      (hcur : k₁.currentTask = k.currentTask)
      (hrun : k₁.taskClone regs k.currentTask = .ok (child, k₂)) (hchild : isErr child = false)
      (hc : TaskCloned q regs k.currentTask k₁ own k₂ own' child n) (hq' : Quiet k₂.heap k'.heap own')

/-- what is written lies in the allocator's pages -/
theorem Change.outside {x : Nat} (hc : Change q k own k' own') (hx : x ∉ usable) : k'.heap.mm.mem x = k.heap.mm.mem x := by
  cases hc with
  | quiet hq _ => exact hq.outside x hx
  | died hq _ _ hd _ =>
    obtain ⟨h₁, hr, he⟩ := hd.releases
    rw [he]
    exact (hr.mm.frame x (.inl hx) nofun).trans (hq.outside x hx)
  | grew hq hw _ _ _ _ hg hq' => exact (hq'.outside x hx).trans ((hg.outside hw hx).trans (hq.outside x hx))
  | forked hq _ _ _ _ hc hq' =>
    obtain ⟨h₁, own₁, stack, root, k₁, ha, _, hg, _, he⟩ := hc.steps
    refine (hq'.outside x hx).trans (Eq.trans ?_ (hq.outside x hx))
    rw [he]
    exact (hg.outside ha.world hx).trans (ha.mm.frame x (.inl hx) nofun)

/-- the invariant holds in the end, and the lists of sched nodes were used as queues -/
structure Outcome (q : TaskList → List Nat) (k : Kernel) (own : Owners) (k' : Kernel) (own' : Owners)
    (q' : TaskList → List Nat) : Prop where
  consistent : Consistent k' own' q'
  change : Change q k own k' own'
  events : ∃ evs, k'.trace = k.trace ++ evs ∧ Fifo.Run .tasks q (dispatched evs) q'

/-- a step of the current thread that changes no blocks -/
structure Within (q : TaskList → List Nat) (k : Kernel) (own : Owners) (k' : Kernel) : Prop where
  active : Active k' own q
  quiet : Quiet k.heap k'.heap own
  current : k'.currentTask = k.currentTask
  events : ∃ evs, k'.trace = k.trace ++ evs ∧ dispatched evs = []

theorem dispatched_append (l l' : List Event) : dispatched (l ++ l') = dispatched l ++ dispatched l' :=
  List.filterMap_append

namespace Within

theorem refl (ha : Active k own q) : Within q k own k :=
  ⟨ha, .refl _ _, rfl, [], (List.append_nil _).symm, rfl⟩

theorem trans (hi : Within q k own k') (hi' : Within q k' own k'') : Within q k own k'' := by
  obtain ⟨evs, htr, hd⟩ := hi.events
  obtain ⟨evs', htr', hd'⟩ := hi'.events
  refine ⟨hi'.active, hi.quiet.trans hi'.quiet, hi'.current.trans hi.current, evs ++ evs', ?_, ?_⟩
  · rw [htr', htr, List.append_assoc]
  · rw [dispatched_append, hd, hd', List.append_nil]

/-- the current thread goes on -/
theorem outcome (hi : Within q k own k') (hctl : k'.ctl = .user ∨ k'.ctl = .thread) :
    Outcome q k own k' own q := by
  obtain ⟨evs, htr, hd⟩ := hi.events
  refine ⟨hi.active.consistent hctl, .quiet hi.quiet rfl, evs, htr, ?_⟩
  rw [hd]
  exact .refl

theorem before (hi : Within q k own k₁) (ho : Outcome q k₁ own k' own' q') : Outcome q k own k' own' q' := by
  obtain ⟨evs, htr, hd⟩ := hi.events
  obtain ⟨evs', htr', hrun⟩ := ho.events
  refine ⟨ho.consistent, ?_, evs ++ evs', ?_, ?_⟩
  · cases ho.change with
    | quiet hq he => exact .quiet (hi.quiet.trans hq) he
    | died hq hw hrun hd he =>
      rw [hi.current] at hrun hd he
      exact .died (hi.quiet.trans hq) hw hrun hd he
    | grew hq hw hst hfind ha hrun hg hq' =>
      rw [hi.current] at hfind ha hrun hg
      exact .grew (hi.quiet.trans hq) hw hst hfind ha hrun hg hq'
    | forked hq ha hcur hrun hchild hc hq' =>
      rw [hi.current] at hcur hrun hc
      exact .forked (hi.quiet.trans hq) ha hcur hrun hchild hc hq'
  · rw [htr', htr, List.append_assoc]
  · rw [dispatched_append, hd, List.nil_append]
    exact hrun

end Within

theorem World.zero_not_live (hw : World h own q) : 0 ∉ h.live := fun h0 =>
  (hw.static 0 h0).task.ne_zero rfl

/-- the nodes that the links of the area list of `t` lead to -/
inductive Heap.AreaNode (h : Heap) (t : Nat) : Nat → Prop where
  | first (h0 : (h.lists.list (.vmAreas t)).first ≠ 0) : AreaNode h t (h.lists.list (.vmAreas t)).first
  | next {n : Nat} (hn : AreaNode h t n) (h0 : (h.node n).next ≠ 0) : AreaNode h t (h.node n).next

namespace Heap.AreaNode

theorem obj (hn : h.AreaNode t n) (hA : Areas h.lists own t) : own.Obj n t .vnode := by
  induction hn with
  | first h0 => exact hA.vm.first.resolve_left h0
  | next _ h0 ih => exact (hA.vm.next _ ih).resolve_left h0

theorem area (hn : h.AreaNode t n) (hA : Areas h.lists own t) : own.Obj (h.node n).value t (.area n) :=
  (hA.area n _).mpr ⟨hn.obj hA, rfl⟩

end Heap.AreaNode

/-- the area that vm_find_stack finds is in the list -/
theorem vmFindStack_node {t va a : Nat} (hrun : h.vmFindStack (.vmAreas t) va = .ok a) (h0 : a ≠ 0) :
    ∃ m, h.AreaNode t m ∧ (h.node m).value = a := by
  have hfrom : ∀ {fuel node}, (node = 0 ∨ h.AreaNode t node) → h.vmFindStackFrom va fuel node = .ok a →
      ∃ m, h.AreaNode t m ∧ (h.node m).value = a := by
    intro fuel
    induction fuel with
    | zero => exact fun _ hrun => nomatch hrun
    | succ fuel ih =>
      intro node hnode hrun
      unfold Heap.vmFindStackFrom at hrun
      by_cases hz : node = 0
      · simp only [hz, if_true] at hrun
        exact absurd (Except.ok.inj hrun).symm h0
      have hn := hnode.resolve_left hz
      simp only [hz, if_false] at hrun
      split at hrun
      · exact absurd (Except.ok.inj hrun).symm h0
      split at hrun
      · split at hrun
        · exact ⟨node, hn, Except.ok.inj hrun⟩
        · exact absurd (Except.ok.inj hrun).symm h0
      · exact ih ((em _).imp_right hn.next) hrun
  exact hfrom ((em _).imp_right .first) hrun

/-- vm_find_stack finds an area of the task -/
theorem vmFindStack_area {t va a : Nat} (hA : Areas h.lists own t) (hrun : h.vmFindStack (.vmAreas t) va = .ok a)
    (h0 : a ≠ 0) : ∃ n, own.Obj a t (.area n) := by
  obtain ⟨m, hm, rfl⟩ := vmFindStack_node hrun h0
  exact ⟨m, hm.area hA⟩

namespace Active

/-- nothing that the invariant speaks of has changed but the heap -/
theorem congr (ha : Active k own q) (hw : World k'.heap own q) (hq : Quiet k.heap k'.heap own)
    (hcur : k'.currentTask = k.currentTask) (hnode : k'.currentTaskNode = k.currentTaskNode)
    (hsatp : k'.satp = k.satp) : Active k' own q := by
  have hsame := hq.untouched _ ha.live
  refine ⟨hw, ?_, ?_, ?_, ?_, fun t ht hne => ?_⟩
  · rw [hcur, hq.live]
    exact ha.live
  · rw [hcur, hnode, ha.node]
    exact hsame.task.1.symm
  · rw [hcur, hsatp, ha.satp]
    exact hsame.task.2.2.1.symm
  · rw [hnode]
    exact ha.detached
  · rw [hq.live] at ht
    rw [hcur] at hne
    obtain ⟨g, hg⟩ := ha.queued t ht hne
    refine ⟨g, ?_⟩
    have he : (k'.task t).sched = (k.task t).sched := (hq.untouched t ht).task.1
    rw [he]
    exact hg

/-- what does not touch the heap either -/
theorem control (ha : Active k own q) (hheap : k'.heap = k.heap) (hcur : k'.currentTask = k.currentTask)
    (hnode : k'.currentTaskNode = k.currentTaskNode) (hsatp : k'.satp = k.satp)
    (htr : ∃ evs, k'.trace = k.trace ++ evs ∧ dispatched evs = []) : Within q k own k' := by
  have hq : Quiet k.heap k'.heap own := by
    rw [hheap]
    exact .refl _ _
  have hw : World k'.heap own q := by
    rw [hheap]
    exact ha.world
  exact ⟨ha.congr hw hq hcur hnode hsatp, hq, hcur, htr⟩

theorem setTask (ha : Active k own q) {t : Nat} {x : Task} (hx : SameBlocks (k.task t) x) :
    Within q k own (k.setTask t x) := by
  obtain ⟨hw, hq⟩ := ha.world.assign (t := t) hx
  exact ⟨ha.congr hw hq rfl rfl rfl, hq, rfl, [], (List.append_nil _).symm, rfl⟩

theorem setFrame (ha : Active k own q) (t : Nat) (frame : Cpu) :
    Within q k own (k.setHeap (k.heap.setFrame t frame)) := ha.setTask ⟨rfl, rfl, rfl, rfl⟩

theorem returnToUser (ha : Active k own q) : Within q k own k.returnToUser :=
  ha.control rfl rfl rfl rfl ⟨_, rfl, rfl⟩

theorem yieldToUser (ha : Active k own q) : Within q k own k.yieldToUser := by
  have h₁ := ha.setTask (t := k.currentTask) (x := { k.task k.currentTask with kernelFrame := .yieldToUser })
    ⟨rfl, rfl, rfl, rfl⟩
  obtain ⟨hw, hq⟩ := h₁.active.world, h₁.quiet
  have h₂ : Within q _ own
      { k.setTask k.currentTask { k.task k.currentTask with kernelFrame := .yieldToUser } with
        trapframe := (k.task k.currentTask).userFrame } :=
    h₁.active.control rfl rfl rfl rfl ⟨[], (List.append_nil _).symm, rfl⟩
  exact (h₁.trans h₂).trans h₂.active.returnToUser

theorem sysReturn (ha : Active k own q) (v : Nat) : Within q k own (k.sysReturn v) := by
  have h₁ := ha.setFrame k.currentTask ((k.task k.currentTask).userFrame.set REG_A0 v)
  have h₂ : Within q _ own ((k.setHeap (k.heap.setFrame k.currentTask
      ((k.task k.currentTask).userFrame.set REG_A0 v))).log (.returned k.currentTask v)) :=
    h₁.active.control rfl rfl rfl rfl ⟨_, rfl, rfl⟩
  exact (h₁.trans h₂).trans h₂.active.yieldToUser

/-- the current task goes to the end of a list -/
theorem enqueue (ha : Active k own q) (g : TaskList) (h0 : k'.currentTask = 0 ∧ k'.currentTaskNode = 0)
    (hheap : k'.heap = k.heap.listPush (.queue g) k.currentTaskNode) (hctl : k'.ctl = .schedule)
    (htr : k'.trace = k.trace) : Outcome q k own k' own (pushed q g k.currentTaskNode) := by
  have hnot : ∀ g, (k.heap.task k.currentTask).sched ∉ q g := ha.node ▸ ha.detached
  obtain ⟨hw, hq⟩ := ha.world.push ha.live hnot g
  have hnode : (k.heap.task k.currentTask).sched = k.currentTaskNode := ha.node.symm
  rw [hnode, ← hheap] at hw hq
  have hin : Inactive k' own (pushed q g k.currentTaskNode) := by
    refine ⟨hw, h0, fun t ht => ?_⟩
    have ht : t ∈ k.heap.live := hq.live ▸ ht
    have he : (k'.task t).sched = (k.task t).sched := (hq.untouched t ht).task.1
    rw [he]
    by_cases hc : t = k.currentTask
    · refine ⟨g, mem_pushed.mpr (.inr ⟨rfl, ?_⟩)⟩
      rw [hc, ← ha.node]
    · obtain ⟨g', hg'⟩ := ha.queued t ht hc
      exact ⟨g', mem_pushed.mpr (.inl hg')⟩
  refine ⟨hin.consistent (.inl hctl), .quiet hq rfl, [], ?_, (Fifo.Step.join g k.currentTaskNode).run⟩
  rw [htr, List.append_nil]

theorem scheduleNext (ha : Active k own q) :
    Outcome q k own k.scheduleNext own (pushed q .tasks k.currentTaskNode) :=
  ha.enqueue .tasks ⟨rfl, rfl⟩ rfl rfl rfl

theorem wait (ha : Active k own q) {th : Thread} (hrun : k.wait g th = .ok k') :
    ∃ q', Outcome q k own k' own q' := by
  unfold Kernel.wait at hrun
  obtain ⟨_, _, hrun⟩ := Res.bind_eq_ok.mp hrun
  cases hrun
  obtain ⟨x, hx⟩ : ∃ x, x = k.task k.currentTask := ⟨_, rfl⟩
  have h₁ := ha.setTask (t := k.currentTask) (x := { k.task k.currentTask with mode := .supervisor, kernelFrame := th })
    ⟨rfl, rfl, rfl, rfl⟩
  exact ⟨_, h₁.before (h₁.active.enqueue g ⟨rfl, rfl⟩ rfl rfl rfl)⟩

theorem destroyCurrent (ha : Active k own q) (hrun : k.destroyCurrent = .ok k') :
    ∃ own' q', Outcome q k own k' own' q' := by
  unfold Kernel.destroyCurrent at hrun
  obtain ⟨h', hdes, hret⟩ := Res.bind_eq_ok.mp hrun
  cases hret
  have hnot : ∀ g, (k.heap.task k.currentTask).sched ∉ q g := ha.node ▸ ha.detached
  obtain ⟨D, hd⟩ := taskDestroy_destroyed ha.world ha.live hnot hdes
  have hin : Inactive (k.setHeap h').leave (own.without k.currentTask) q := by
    refine ⟨hd.world ha.world hnot, ⟨rfl, rfl⟩, fun t ht => ?_⟩
    have ht : t ∈ h'.live := ht
    rw [hd.live] at ht
    obtain ⟨hne, hin⟩ := (List.Nodup.mem_erase_iff ha.world.held.nodup.2).mp ht
    obtain ⟨g, hg⟩ := ha.queued t hin hne
    refine ⟨g, ?_⟩
    show (h'.task t).sched ∈ q g
    rw [hd.task]
    exact hg
  exact ⟨_, q, hin.consistent (.inl rfl), .died (.refl _ _) ha.world hdes hd rfl, [], (List.append_nil _).symm, .refl⟩

theorem finish (ha : Active k own q) {after : After} (hrun : k.finish after = .ok k') :
    ∃ own' q', Outcome q k own k' own' q' := by
  cases after with
  | syscall v =>
    cases hrun
    exact ⟨own, q, (ha.sysReturn v).outcome (.inl rfl)⟩
  | fault => exact ha.destroyCurrent hrun

theorem putText (ha : Active k own q) {lsr : Nat → List Bool} {text : List UInt8} {after : After}
    (hrun : k.putText lsr text after = .ok k') : ∃ own' q', Outcome q k own k' own' q' := by
  induction text generalizing k with
  | nil => exact ha.finish hrun
  | cons c text ih =>
    unfold Kernel.putText at hrun
    cases hput : k.uart.uartputc c (lsr text.length) with
    | none =>
      rw [hput] at hrun
      obtain ⟨q', ho⟩ := ha.wait hrun
      exact ⟨own, q', ho⟩
    | some u =>
      rw [hput] at hrun
      have h₁ : Within q k own { k with uart := u } :=
        ha.control rfl rfl rfl rfl ⟨[], (List.append_nil _).symm, rfl⟩
      obtain ⟨own', q', ho⟩ := ih h₁.active hrun
      exact ⟨own', q', h₁.before ho⟩

theorem getchar (ha : Active k own q) (hrun : k.getchar = .ok k') : ∃ q', Outcome q k own k' own q' := by
  unfold Kernel.getchar at hrun
  cases hget : k.uart.getchar with
  | none =>
    rw [hget] at hrun
    exact ha.wait hrun
  | some cu =>
    rw [hget] at hrun
    cases hrun
    have h₁ : Within q k own { k with uart := cu.2 } :=
      ha.control rfl rfl rfl rfl ⟨[], (List.append_nil _).symm, rfl⟩
    exact ⟨q, (h₁.trans (h₁.active.sysReturn _)).outcome (.inl rfl)⟩

/-- a child was made: it is the last of the ready list -/
theorem cloned {regs : Cpu} {child n : Nat} (ha : Active k own q)
    (hc : TaskCloned q regs k.currentTask k own k' own' child n) : Active k' own' (pushed q .tasks n) := by
  obtain ⟨hfresh, hlive⟩ := hc.live
  obtain ⟨frame, b, c, hk'⟩ := hc.control
  have hcur : k'.currentTask = k.currentTask := by rw [hk']
  have hnode : k'.currentTaskNode = k.currentTaskNode := by rw [hk']
  have hsatp : k'.satp = k.satp := by rw [hk']
  have hsame : ∀ {t}, t ∈ k.heap.live → SameBlocks (k.task t) (k'.task t) := fun ht => (hc.untouched ht).task
  have hmem : ∀ g m, m ∈ pushed q .tasks n g ↔ m ∈ q g ∨ (g = .tasks ∧ m = n) := fun g m => mem_pushed
  have hne : k.currentTaskNode ≠ n := by
    intro e
    have hlive' : child ∈ k'.heap.live := hlive ▸ List.mem_cons_self
    have hcur' : k.currentTask ∈ k'.heap.live := hlive ▸ List.mem_cons_of_mem _ ha.live
    have hs := (hc.world.static child hlive').sched
    have hs' := (hc.world.static k.currentTask hcur').sched
    have he : (k'.heap.task k.currentTask).sched = (k'.heap.task child).sched := by
      rw [hc.sched, ← e, ha.node]
      exact (hsame ha.live).1
    rw [he] at hs'
    exact hfresh ((hs.unique hs').1 ▸ ha.live)
  refine ⟨hc.world, ?_, ?_, ?_, fun g hin => ?_, fun t ht htc => ?_⟩
  · rw [hcur, hlive]
    exact List.mem_cons_of_mem _ ha.live
  · rw [hcur, hnode, ha.node]
    exact (hsame ha.live).1.symm
  · rw [hcur, hsatp, ha.satp]
    exact (hsame ha.live).2.2.1.symm
  · rw [hnode] at hin
    cases (hmem g _).mp hin with
    | inl hold => exact ha.detached g hold
    | inr hnew => exact hne hnew.2
  · rw [hcur] at htc
    rw [hlive] at ht
    cases List.mem_cons.mp ht with
    | inl he =>
      subst he
      exact ⟨.tasks, (hmem .tasks _).mpr (.inr ⟨rfl, hc.sched⟩)⟩
    | inr hold =>
      obtain ⟨g, hg⟩ := ha.queued t hold htc
      refine ⟨g, (hmem g _).mpr (.inl ?_)⟩
      rw [(hsame hold).1]
      exact hg

theorem sysFork (ha : Active k own q) (hrun : k.sysFork o = .ok k') : ∃ own' q', Outcome q k own k' own' q' := by
  unfold Kernel.sysFork at hrun
  obtain ⟨⟨child, k₁⟩, hclone, hrun⟩ := Res.bind_eq_ok.mp hrun
  obtain ⟨hgood, own', n, hc⟩ := taskClone_cloned ha.world ha.live hclone
  simp only [hgood, Bool.false_eq_true, if_false] at hrun
  have h₂ := (ha.cloned hc).setFrame child ((k₁.task child).userFrame.set REG_A0 0)
  obtain ⟨k₂, hk₂⟩ : ∃ k₂, k₂ = k₁.setHeap (k₁.heap.setFrame child ((k₁.task child).userFrame.set REG_A0 0)) :=
    ⟨_, rfl⟩
  rw [← hk₂] at hrun h₂
  cases hrun
  have h₃ : Within (pushed q .tasks n) k₂ own' (k₂.log (.forked k₂.currentTask child)) :=
    h₂.active.control rfl rfl rfl rfl ⟨_, rfl, rfl⟩
  have hi := (h₂.trans h₃).trans (h₃.active.sysReturn (k₂.task child).pid)
  have hcons := hi.active.consistent (.inl rfl)
  obtain ⟨evs, htr, hd⟩ := hi.events
  obtain ⟨frame, b, c, hk₁⟩ := hc.control
  have htr₁ : k₁.trace = k.trace := by rw [hk₁]
  rw [htr₁] at htr
  refine ⟨own', _, hcons, .forked (.refl _ _) ha rfl hclone hgood hc hi.quiet, evs, htr, ?_⟩
  rw [hd]
  exact (Fifo.Step.join TaskList.tasks n).run

/-- more blocks for the current task -/
theorem grown {h' : Heap} (ha : Active k own q) (hg : Grown q k.currentTask k.heap own h' own') : Active (k.setHeap h') own' q := by
  obtain ⟨_, hs⟩ := hg.step
  refine ⟨hg.world, ?_, ?_, ?_, ha.detached, fun t ht hne => ?_⟩
  · show k.currentTask ∈ h'.live
    rw [hg.live]
    exact ha.live
  · exact ha.node.trans (hs.task _ ha.live).1.symm
  · exact ha.satp.trans (hs.task _ ha.live).2.2.1.symm
  · have ht : t ∈ k.heap.live := hg.live ▸ ht
    obtain ⟨g, hq⟩ := ha.queued t ht hne
    refine ⟨g, ?_⟩
    show (h'.task t).sched ∈ q g
    rw [(hs.task t ht).1]
    exact hq

/-- task_entry grows the stack -/
theorem expand {a : Nat} {h' : Heap} (ha : Active k own q)
    (hst : userStackMin ≤ k.stval ∧ k.stval < userStack)
    (hfind : k.heap.vmFindStack (.vmAreas k.currentTask) k.stval = .ok a) (h0 : a ≠ 0)
    (hrun : k.heap.expandStack k.currentTask a (k.stval / pageSize * pageSize) wordCount = .ok h') :
    ∃ own', Outcome q k own (k.setHeap h').yieldToUser own' q := by
  obtain ⟨n, harea⟩ := vmFindStack_area (ha.world.areas _ ha.live) hfind h0
  obtain ⟨own', hg⟩ := expandStack_world ha.world ha.live harea hrun
  have hi := (ha.grown hg).yieldToUser
  have hcons := hi.active.consistent (.inl rfl)
  obtain ⟨evs, htr, hd⟩ := hi.events
  refine ⟨own', hcons, .grew (.refl _ _) ha.world hst hfind harea hrun hg hi.quiet, evs, htr, ?_⟩
  rw [hd]
  exact .refl

theorem syscall (ha : Active k own q) (hexec : (k.task k.currentTask).userFrame.registers REG_A7 ≠ SYS_execve)
    (hrun : k.syscall o = .ok k') : ∃ own' q', Outcome q k own k' own' q' := by
  unfold Kernel.syscall at hrun
  simp only [hexec, if_false] at hrun
  split at hrun
  · obtain ⟨q', ho⟩ := ha.getchar hrun
    exact ⟨own, q', ho⟩
  split at hrun
  · exact ha.putText hrun
  split at hrun
  · cases hrun
    exact ⟨own, q, (ha.sysReturn _).outcome (.inl rfl)⟩
  split at hrun
  · cases hrun
    have h₁ := ha.setTask (t := k.currentTask)
      (x := { k.task k.currentTask with mode := .supervisor, kernelFrame := .sysYield }) ⟨rfl, rfl, rfl, rfl⟩
    exact ⟨own, _, h₁.before h₁.active.scheduleNext⟩
  split at hrun
  · exact ha.sysFork hrun
  split at hrun
  · exact ha.destroyCurrent hrun
  split at hrun
  · exact ha.putText hrun
  · cases hrun
    exact ⟨own, q, (ha.sysReturn _).outcome (.inl rfl)⟩

/-- a system call other than execve, an access that needs more stack, or a fault -/
theorem taskEntryTrap (ha : Active k own q) (hexec : k.scause = 8 →
    (k.task k.currentTask).userFrame.registers REG_A7 ≠ SYS_execve)
    (hrun : k.taskEntryTrap o = .ok k') : ∃ own' q', Outcome q k own k' own' q' := by
  unfold Kernel.taskEntryTrap at hrun
  simp only at hrun
  by_cases hcall : k.scause = 8
  · rw [if_pos hcall] at hrun
    obtain ⟨frame, hframe⟩ : ∃ frame : Cpu, frame = { (k.task k.currentTask).userFrame with
        pc := ((k.task k.currentTask).userFrame.pc + 4) % wordCount } := ⟨_, rfl⟩
    rw [← hframe] at hrun
    have h₁ := ha.setFrame k.currentTask frame
    have hexec' : ((k.setHeap (k.heap.setFrame k.currentTask frame)).task k.currentTask).userFrame.registers
        REG_A7 ≠ SYS_execve := by
      show (Function.update k.heap.task k.currentTask _ k.currentTask).userFrame.registers REG_A7 ≠ _
      rw [Function.update_self, hframe]
      exact hexec hcall
    obtain ⟨own', q', ho⟩ := h₁.active.syscall hexec' hrun
    exact ⟨own', q', h₁.before ho⟩
  rw [if_neg hcall] at hrun
  by_cases hfault : k.scause = 13 ∨ k.scause = 15
  · rw [if_pos hfault] at hrun
    by_cases hst : userStackMin ≤ k.stval ∧ k.stval < userStack
    · rw [if_pos hst] at hrun
      obtain ⟨a, hfind, hrun⟩ := Res.bind_eq_ok.mp hrun
      by_cases h0 : a ≠ 0
      · rw [if_pos h0] at hrun
        obtain ⟨h', hexp, hret⟩ := Res.bind_eq_ok.mp hrun
        cases hret
        obtain ⟨own', ho⟩ := ha.expand hst hfind h0 hexp
        exact ⟨own', q, ho⟩
      · rw [if_neg h0] at hrun
        exact ha.putText hrun
    · rw [if_neg hst] at hrun
      exact ha.putText hrun
  · rw [if_neg hfault] at hrun
    exact ha.putText hrun

theorem resume (ha : Active k own q) (hexec : ¬ k.Execve) (hrun : k.resume o = .ok k') :
    ∃ own' q', Outcome q k own k' own' q' := by
  unfold Kernel.resume at hrun
  cases hth : (k.task k.currentTask).kernelFrame with
  | taskEntry =>
    rw [hth] at hrun
    cases hrun
    exact ⟨own, q, ha.yieldToUser.outcome (.inl rfl)⟩
  | yieldToUser =>
    rw [hth] at hrun
    exact ha.taskEntryTrap (fun hcall hreg => hexec ⟨hth, hcall, hreg⟩) hrun
  | sysYield =>
    rw [hth] at hrun
    cases hrun
    exact ⟨own, q, (ha.sysReturn 0).outcome (.inl rfl)⟩
  | getchar =>
    rw [hth] at hrun
    obtain ⟨q', ho⟩ := ha.getchar hrun
    exact ⟨own, q', ho⟩
  | putchar c text after =>
    rw [hth] at hrun
    simp only at hrun
    cases hput : k.uart.uartputcWoken c (o.lsr text.length) with
    | none =>
      rw [hput] at hrun
      obtain ⟨q', ho⟩ := ha.wait hrun
      exact ⟨own, q', ho⟩
    | some u =>
      rw [hput] at hrun
      have h₁ : Within q k own { k with uart := u } :=
        ha.control rfl rfl rfl rfl ⟨[], (List.append_nil _).symm, rfl⟩
      obtain ⟨own', q', ho⟩ := h₁.active.putText hrun
      exact ⟨own', q', h₁.before ho⟩
  | interrupted =>
    rw [hth] at hrun
    exact absurd hrun Res.panic_ne_ok

end Active

end FakeKernel
