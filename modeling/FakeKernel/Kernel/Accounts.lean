import FakeKernel.Kernel.Orderly
import FakeKernel.Kernel.Growth

/-!
# The blocks of the allocator

* `Owners.Uses`          a block is used by a task;
* `Covers`               every block that is handed out is used, or one of a given set;
* `Covers.stable`        tasks that are made, grow and end keep that;
* `blocks_accounted`     in no run does a block get lost, and no two tasks use one.
-/

namespace FakeKernel
open Bytes Mm Heap Kernel

variable {k k' : Kernel} {h h' : Heap} {own own' : Owners} {q : TaskList → List Nat} {t n a p m va flags stack root : Nat}
  {U : Set FakeKernel.Page} {P : FakeKernel.Page}

/-- some task uses the block `P` for something -/
def Owners.Uses (own : Owners) (P : FakeKernel.Page) : Prop := ∃ p t r, own.Page p t r ∧ r.isLoose = false ∧ P = pageAt p

def Covers (U : Set FakeKernel.Page) (mm : Mm) (own : Owners) : Prop := ∀ P ∈ mm.out, own.Uses P ∨ P ∈ U

namespace Covers

/-- the blocks that have been handed out are used -/
theorem grow {N : List Nat} {W : Set Nat} {mm mm' : Mm} (hc : Covers U mm own) (hx : Extends mm mm' W N) (hm : own.Mono own')
    (hN : ∀ s ∈ N, own'.Uses (pageAt s)) : Covers U mm' own' := by
  intro P hP
  rw [hx.out, List.mem_append] at hP
  cases hP with
  | inl hnew =>
    obtain ⟨s, hs, rfl⟩ := List.mem_map.mp hnew
    exact .inl (hN s hs)
  | inr hold =>
    refine (hc P hold).imp_left ?_
    rintro ⟨p, t, r, hp, hr, rfl⟩
    exact ⟨p, t, r, hm p t r hp hr, hr, rfl⟩

theorem area {z : VmArea} (hc : Covers U h.mm own) (hat : AreaTurn q t z h own h' own' n a) : Covers U h'.mm own' := by
  refine hc.grow hat.added.extends hat.grown.mono fun s hs => ?_
  rcases List.mem_append.mp hs with hs | hs
  · rw [List.mem_singleton.mp hs]
    exact ⟨_, t, _, hat.obj.2.page, rfl, rfl⟩
  · rw [List.mem_singleton.mp hs]
    exact ⟨_, t, _, hat.obj.1.page, rfl, rfl⟩

theorem page (hc : Covers U h.mm own) (hw : World h own q) (hpt : PageTurn q t a va flags h own h' own' p m) : Covers U h'.mm own' := by
  obtain ⟨N, M, hk⟩ := hpt.takes hw.held
  refine hc.grow hk.taken.mm hpt.grown.mono fun s hs => ?_
  rcases hk.taken.all s hs with hN | rfl | rfl
  · exact ⟨s, t, .table, (hk.page _ _ _ rfl).mpr (.inl ⟨hN, rfl, rfl⟩), rfl, rfl⟩
  · exact ⟨m - 4, t, .pnode a, (hk.page _ _ _ rfl).mpr (.inr (.inr (.inl ⟨rfl, rfl, rfl⟩))), rfl, rfl⟩
  · exact ⟨s, t, .user m (vpnOf va), (hk.page _ _ _ rfl).mpr (.inr (.inl ⟨rfl, rfl, rfl⟩)), rfl, rfl⟩

theorem task {parent : Nat} (hc : Covers U h.mm own) (hw : World h own q) (ha : TaskAdded q parent h own h' own' t n stack root) :
    Covers U h'.mm own' := by
  have ht : t ∈ h'.live := ha.live ▸ List.mem_cons_self
  have hS := ha.world.static t ht
  have htab := (ha.world.maps t ht).tables _ table_mem_tables
  rw [ha.fields] at htab
  have hsched : own'.Obj n t .sched := by
    have hobj := hS.sched
    rw [ha.fields] at hobj
    exact hobj
  have hstack : own'.Page stack t .stack := by
    have hpage := hS.stack
    rw [ha.fields] at hpage
    exact hpage
  have hmono : own.Mono own' := fun p t' r hp hr =>
    ((ha.untouched t' (hw.held.live p t' r hp hr)).agree p r hr).mpr hp
  refine hc.grow ha.mm hmono fun s hs => ?_
  simp only [newPages, List.cons_append, List.nil_append, List.mem_cons, List.not_mem_nil, or_false] at hs
  rcases hs with rfl | rfl | rfl | rfl
  · exact ⟨_, t, _, hsched.page, rfl, rfl⟩
  · exact ⟨_, t, _, htab, rfl, rfl⟩
  · exact ⟨_, t, _, hstack, rfl, rfl⟩
  · exact ⟨_, t, _, hS.task.page, rfl, rfl⟩

theorem died {D : List Nat} (hc : Covers U h.mm own) (hw : World h own q) (hb : Complete h own t) (ht : t ∈ h.live)
    (hd : Destroyed h h' own t D) : Covers U h'.mm (own.without t) := by
  intro P hP
  have hout : P ∈ h.mm.out := (hd.shrinks.out.mem_iff).mpr (List.mem_append_right _ hP)
  refine (hc P hout).imp_left ?_
  rintro ⟨p, t', r, hp, hr, rfl⟩
  refine ⟨p, t', r, Owners.page_without.mpr ⟨hp, fun he => ?_⟩, hr, rfl⟩
  have hin : p ∈ D := (hd.dropped p).mpr ((hb.taskBlocks hw ht).mpr ⟨r, he ▸ hp, hr⟩)
  exact ((hd.shrinks.mem_page hw.held.ok).mp hP).2 hin

/-- a block that is used is still used, or it has been given back -/
theorem stable (U : Set FakeKernel.Page) : Stable (Covers U) where
  area := fun _ hat hc => hc.area hat
  page := fun hw hpt hc => hc.page hw hpt
  task := fun hw ha hc => hc.task hw ha
  quiet := fun ho hc P hP => hc P (ho ▸ hP)
  died := fun hw hb ht hd hc => by
    obtain ⟨ns, hb⟩ := hb
    exact hc.died hw hb.complete ht hd

end Covers

/-! ## runs -/

/-- the blocks that are handed out and that no task leads to -/
def Kernel.unowned (k : Kernel) : Set FakeKernel.Page :=
  {P | P ∈ k.heap.mm.out ∧ ∀ t ∈ k.heap.live, ∀ p, TaskBlocks k.heap t p → P ≠ pageAt p}

namespace Orderly

theorem taskBlocks (ho : Orderly k own q) (ht : t ∈ k.heap.live) :
    TaskBlocks k.heap t p ↔ ∃ r, own.Page p t r ∧ r.isLoose = false := by
  obtain ⟨ns, hb⟩ := ho.booked.booked t ht
  exact hb.complete.taskBlocks ho.world ht

theorem uses_iff (ho : Orderly k own q) : own.Uses P ↔ ∃ t ∈ k.heap.live, ∃ p, TaskBlocks k.heap t p ∧ P = pageAt p := by
  constructor
  · rintro ⟨p, t, r, hp, hr, rfl⟩
    have ht := ho.world.held.live p t r hp hr
    exact ⟨t, ht, p, (ho.taskBlocks ht).mpr ⟨r, hp, hr⟩, rfl⟩
  · rintro ⟨t, ht, p, hp, rfl⟩
    obtain ⟨r, hp, hr⟩ := (ho.taskBlocks ht).mp hp
    exact ⟨p, t, r, hp, hr, rfl⟩

theorem covers (ho : Orderly k own q) : Covers k.unowned k.heap.mm own := by
  intro P hP
  by_cases hu : own.Uses P
  · exact .inl hu
  · refine .inr ⟨hP, fun t ht p hp he => hu ?_⟩
    exact ho.uses_iff.mpr ⟨t, ht, p, hp, he⟩

end Orderly

/-- the blocks of tasks, and those that belong to none -/
structure Kernel.LosesNothing (k k' : Kernel) : Prop where
  /-- what a task leads to is handed out, and no other task leads to it -/
  out : ∀ t ∈ k'.heap.live, ∀ p, TaskBlocks k'.heap t p → pageAt p ∈ k'.heap.mm.out
  alone : ∀ t ∈ k'.heap.live, ∀ t' ∈ k'.heap.live, ∀ p, TaskBlocks k'.heap t p → TaskBlocks k'.heap t' p → t = t'
  /-- and what no task leads to was lost before -/
  lost : k'.unowned ⊆ k.unowned

/-- **Accounts.**  If the first image is in order, nothing that tasks do loses a block: what is handed out afterwards and belongs to
no task belonged to none before.  The blocks that tasks lead to are handed out, and each of them belongs to one task. -/
theorem blocks_accounted (hr : k.ReachableInOrder) (hs : Steps k k') : k.LosesNothing k' := by
  obtain ⟨own, q, ho⟩ := hr.orderly
  obtain ⟨own', q', ho', hc⟩ := hs.stable (Covers.stable k.unowned) ho ho.covers
  refine ⟨fun t ht p hp => ?_, fun t ht t' ht' p hp hp' => ?_, fun P hP => ?_⟩
  · obtain ⟨r, hp, _⟩ := (ho'.taskBlocks ht).mp hp
    exact ho'.world.held.out p t r hp
  · obtain ⟨r, hp, _⟩ := (ho'.taskBlocks ht).mp hp
    obtain ⟨r', hp', _⟩ := (ho'.taskBlocks ht').mp hp'
    exact (hp.unique hp').1
  · refine (hc P hP.1).resolve_left fun hu => ?_
    obtain ⟨t, ht, p, hp, he⟩ := ho'.uses_iff.mp hu
    exact hP.2 t ht p hp he

/-- the theorem when the stack of the first task grows by a page -/
theorem blocks_accounted_first : ∃ k k' : Kernel, k.ReachableInOrder ∧ Steps k k' ∧ k.LosesNothing k' := by
  obtain ⟨k, own, t, ns, hr, hu⟩ := first_user_in_order
  obtain ⟨k₁, a, k', hstep, hf⟩ := hu.fault initImage_leavesPage
  have hs : Steps k k' := .tail (.single hstep) hf.step
  exact ⟨k, k', hr, hs, blocks_accounted hr hs⟩

end FakeKernel
