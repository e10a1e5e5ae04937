import FakeKernel.Kernel.Occasion
import FakeKernel.Kernel.Family

/-!
# Runs from an image that is in order

* `Orderly`              the invariant of the kernel, and the areas and pages of all tasks are booked;
* `Stable`               what else is kept when tasks are made, grow and end;
* `Kernel.Step.stable`   every step keeps both;
* `BootedInOrder`        main has loaded an image whose segments are in order;
* `Kernel.BootedInOrder.orderly`, `Steps.orderly`.
-/

namespace FakeKernel
open Bytes Mm Heap Kernel

variable {k k' k₀ k₁ : Kernel} {h h' : Heap} {own own' : Owners} {q q' : TaskList → List Nat} {a t n : Nat} {e : Elf} {b : Bool}

structure Orderly (k : Kernel) (own : Owners) (q : TaskList → List Nat) : Prop where
  consistent : Consistent k own q
  booked : AllBooked k.heap own q

namespace Orderly

theorem world (ho : Orderly k own q) : World k.heap own q := ho.booked.world

theorem active (ho : Orderly k own q) (hctl : k.ctl = .user ∨ k.ctl = .thread) : Active k own q := ho.consistent.active hctl

end Orderly

/-- a predicate on memory and owners that the steps of tasks keep -/
structure Stable (J : Mm → Owners → Prop) : Prop extends Additive J where
  quiet : ∀ {mm mm' own}, mm'.out = mm.out → J mm own → J mm' own
  died : ∀ {q h h' own t D}, World h own q → (∃ ns, Booked h own t ns) → t ∈ h.live → Destroyed h h' own t D → J h.mm own →
    J h'.mm (own.without t)

theorem Stable.true : Stable fun _ _ => True := { Additive.true with quiet := fun _ _ => trivial, died := fun _ _ _ _ _ => trivial }

namespace Kernel.Step
variable {J : Mm → Owners → Prop}

theorem stable_forked (hJ : Stable J) (hs : Step k k') (ho : Orderly k own q) (hj : J k.heap.mm own) (hf : k.Forks) :
    ∃ own' q', Orderly k' own' q' ∧ J k'.heap.mm own' := by
  obtain ⟨regs, child, k₁, hclone, hctl, hfin⟩ := hs.forked_as ho.consistent hf
  have hi := (ho.active (.inr hf.1)).callFrame
  have hall : AllBooked k.callFrame.heap own q := ho.booked.quiet hi.active.world hi.quiet
  obtain ⟨ns, hb⟩ := hall.booked _ hi.active.live
  obtain ⟨own', n, ns', hcl, hb', _, hj'⟩ := taskClone_additive hJ.toAdditive (hJ.quiet hi.quiet.out hj) hi.active.world hi.active.live hb hclone
  have hall' : AllBooked k₁.heap own' (pushed q .tasks n) := by
    refine hall.step hcl.world ⟨ns', hb'⟩ (fun t ht => ?_) fun t ht _ => hcl.untouched ht
    rw [hcl.live.2] at ht
    exact List.mem_cons.mp ht
  obtain ⟨hbr, ha⟩ := hfin own' n hcl
  exact ⟨own', _, ⟨ha.consistent (.inl hctl), hall'.quiet ha.world hbr.after⟩, hJ.quiet hbr.after.out hj'⟩

theorem stable_grew (hJ : Stable J) (hs : Step k k') (ho : Orderly k own q) (hj : J k.heap.mm own) (hg : k.Grows a) :
    ∃ own' q', Orderly k' own' q' ∧ J k'.heap.mm own' := by
  obtain ⟨h', hexp, rfl⟩ := hs.grew hg
  have ha := ho.active (.inr hg.ctl)
  obtain ⟨ns, hb⟩ := ho.booked.booked _ ha.live
  obtain ⟨own', hgrown, hb', hj'⟩ := expandStack_additive hJ.toAdditive hj hb ha.world ha.live hg.stack.1 hg.area hg.found hexp
  have ha' : Active (k.setHeap h') own' q := ha.grown hgrown
  have hall : AllBooked (k.setHeap h').heap own' q :=
    ho.booked.step hgrown.world ⟨ns, hb'⟩ (fun t ht => .inr (hgrown.live ▸ ht)) fun t ht hne => hgrown.untouched ha.world.held ht hne
  have hi := ha'.yieldToUser
  exact ⟨own', q, ⟨hi.active.consistent (.inl rfl), hall.quiet hi.active.world hi.quiet⟩, hJ.quiet hi.quiet.out hj'⟩

/-- a step keeps the invariant, and what is stable -/
theorem stable (hJ : Stable J) (hs : Step k k') (ho : Orderly k own q) (hj : J k.heap.mm own) :
    ∃ own' q', Orderly k' own' q' ∧ J k'.heap.mm own' := by
  by_cases hf : k.Forks
  · exact hs.stable_forked hJ ho hj hf
  by_cases hg : ∃ a, k.Grows a
  · obtain ⟨a, hg⟩ := hg
    exact hs.stable_grew hJ ho hj hg
  obtain ⟨own', q', hout, hcalm⟩ := hs.calm ho.consistent hf fun a ha => hg ⟨a, ha⟩
  have hw' := hout.consistent.world
  refine ⟨own', q', ⟨hout.consistent, ?_⟩, ?_⟩
  · cases hcalm with
    | quiet hq he =>
      rw [he] at hw' ⊢
      exact ho.booked.quiet hw' hq
    | died hq hw hd he =>
      have hall := ho.booked.quiet hw hq
      refine ⟨hw', fun t ht => ?_⟩
      rw [hd.live] at ht
      have hne : t ≠ k.currentTask := fun e => absurd (e ▸ ht) (List.Nodup.not_mem_erase hw.held.nodup.2)
      have ht := List.mem_of_mem_erase ht
      obtain ⟨ns, hb⟩ := hall.booked t ht
      rw [he]
      exact ⟨ns, hb.untouched hw ht (hd.untouched hw.held hne)⟩
  · cases hcalm with
    | quiet hq he =>
      rw [he]
      exact hJ.quiet hq.out hj
    | died hq hw hd he =>
      rw [he]
      have hin := hs.died_live ho.consistent hf (fun a ha => hg ⟨a, ha⟩) hq hw hd
      exact hJ.died hw ((ho.booked.quiet hw hq).booked _ hin) hin hd (hJ.quiet hq.out hj)

theorem orderly (hs : Step k k') (ho : Orderly k own q) : ∃ own' q', Orderly k' own' q' := by
  obtain ⟨own', q', ho', _⟩ := hs.stable .true ho trivial
  exact ⟨own', q', ho'⟩

end Kernel.Step

theorem Kernel.Steps.stable {J : Mm → Owners → Prop} (hJ : Stable J) (hs : Steps k k') (ho : Orderly k own q) (hj : J k.heap.mm own) :
    ∃ own' q', Orderly k' own' q' ∧ J k'.heap.mm own' := by
  induction hs with
  | refl => exact ⟨own, q, ho, hj⟩
  | tail _ hstep ih =>
    obtain ⟨own₁, q₁, ho₁, hj₁⟩ := ih
    exact hstep.stable hJ ho₁ hj₁

theorem Kernel.Steps.orderly (hs : Steps k k') (ho : Orderly k own q) : ∃ own' q', Orderly k' own' q' := by
  obtain ⟨own', q', ho', _⟩ := hs.stable .true ho trivial
  exact ⟨own', q', ho'⟩

/-! ## from boot on -/

/-- main has loaded an image whose segments are in order, and which lies outside of the allocator's pages -/
structure Kernel.BootedInOrder (k : Kernel) : Prop where
  image : ∃ (k₀ : Kernel) (e : Elf) (t argv envp : Nat) (h₁ : Heap), k₀.Blank ∧ e.Ordered ∧ e.program = program ∧
    e.LiesIn k₀.heap.mm.mem ∧ k₀.heap.taskCreate 0 = .ok (t, h₁) ∧ h₁.taskInitElf t program argv envp = .ok (0, k.heap) ∧
    k₀.init argv envp = .ok k

theorem Kernel.BootedInOrder.booted (hb : k.BootedInOrder) : k.Booted := by
  obtain ⟨k₀, _, _, argv, envp, _, hblank, _, _, _, _, _, hrun⟩ := hb.image
  exact ⟨k₀, argv, envp, hblank, hrun⟩

/-- the areas and pages of the first task are booked -/
theorem Kernel.BootedInOrder.orderly (hb : k.BootedInOrder) : ∃ own n, Orderly k own (pushed (fun _ => []) .tasks n) := by
  obtain ⟨k₀, e, t, argv, envp, h₁, hblank, ho, hplace, hin, hcreate, hload, hrun⟩ := hb.image
  obtain ⟨own₁, n, stack, root, ha⟩ := taskCreate_added hblank.world (by rw [hblank.pids]; decide) hcreate
  have hlive : h₁.live = [t] := by rw [ha.live, hblank.live]
  have ht : t ∈ h₁.live := hlive ▸ List.mem_singleton_self t
  have hb₁ := ha.booked hblank.world.held
  have hall : AllBooked h₁ own₁ (pushed (fun _ => []) .tasks n) := by
    refine ⟨ha.world, fun t' ht' => ⟨[], ?_⟩⟩
    rw [hlive] at ht'
    rw [List.mem_singleton.mp ht']
    exact hb₁
  obtain ⟨own, hall'⟩ := hall.load ht ho (hin.grown ha.mm) hb₁ (hplace ▸ hload)
  have hk : k.currentTask = 0 ∧ k.currentTaskNode = 0 ∧ k.ctl = .schedule := by
    unfold Kernel.init at hrun
    rw [hcreate] at hrun
    simp only [Res.ok_bind, hload] at hrun
    have he := (Except.ok.inj hrun).symm
    exact ⟨(congrArg Kernel.currentTask he).trans hblank.nobody.1, (congrArg Kernel.currentTaskNode he).trans hblank.nobody.2,
      congrArg Kernel.ctl he⟩
  obtain ⟨_, hg⟩ := taskInitElf_world ha.world ht hload
  obtain ⟨_, hs⟩ := hg.step
  refine ⟨own, n, Inactive.consistent ⟨hall'.world, ⟨hk.1, hk.2.1⟩, fun t' ht' => ⟨.tasks, mem_pushed.mpr (.inr ⟨rfl, ?_⟩)⟩⟩
    (.inl hk.2.2), hall'⟩
  rw [hg.live] at ht'
  have hsame : (k.heap.task t').sched = (h₁.task t').sched := (hs.task t' ht').1
  rw [hlive, List.mem_singleton] at ht'
  show (k.heap.task t').sched = n
  rw [hsame, ht', ha.task, Function.update_self]
  rfl

/-- a state that a run from such an image reaches -/
def Kernel.ReachableInOrder (k : Kernel) : Prop := ∃ k₀ : Kernel, k₀.BootedInOrder ∧ Steps k₀ k

theorem Kernel.ReachableInOrder.orderly (hr : k.ReachableInOrder) : ∃ own q, Orderly k own q := by
  obtain ⟨k₀, hb, hs⟩ := hr
  obtain ⟨own, n, ho⟩ := hb.orderly
  exact hs.orderly ho

theorem Kernel.ReachableInOrder.reachable (hr : k.ReachableInOrder) : k.Reachable := by
  obtain ⟨k₀, hb, hs⟩ := hr
  exact ⟨k₀, hb.booted, hs⟩

/-! ## the first task -/

/-- the image of the first task is in order -/
theorem boot_in_order (ho : e.OnePage b) (hp : e.Placed) (hrun : (bootKernel e).init initArgv initEnvp = .ok k) : k.BootedInOrder := by
  obtain ⟨t, h, h', hcreate, _, hload, hk⟩ := boot_load ho hp hrun
  have hheap : k.heap = h' := by rw [hk]
  exact ⟨bootKernel e, e, t, initArgv, initEnvp, h, bootKernel_blank e, ho.ordered, hp.place, hp.liesIn, hcreate,
    hheap ▸ hload, hrun⟩

theorem first_user_in_order : ∃ k own t ns, Kernel.ReachableInOrder k ∧ FirstUser initImage false k own t ns 750 := by
  obtain ⟨k₀, k, own, t, ns, hrun, hsteps, hu⟩ := first_user_run
  exact ⟨k, own, t, ns, ⟨k₀, boot_in_order initImage_onePage initImage_placed hrun, hsteps⟩, hu⟩

end FakeKernel
