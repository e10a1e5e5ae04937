import FakeKernel.Kernel.Exit
import FakeKernel.Kernel.Supply

/-!
# task_reinit (kernel/sched.c)

* `Reinit`           the three steps: the areas are given back, the user half of the tree is emptied, a node is made;
* `taskReinit_spec`  a call that returns has taken them;
* `taskReinit_room`  it returns if the lists end, the tree is flat and a page is free;
* `Reinit.page`      pages that the task does not own stay as they are;
* `Reinit.outside`   so does memory outside of the allocator's pages.
-/

namespace FakeKernel
open Bytes Mm

variable {h h' h₁ : Heap} {own : Owners} {q : TaskList → List Nat} {mm : Mm} {D D₁ D₂ : List Nat} {t n p x k : Nat} {r : Role}

/-- the heap `h₁` is what task_destroy_sched leaves, and `mm` the memory after unset_user_pages -/
structure Reinit (h h' : Heap) (own : Owners) (t n : Nat) (h₁ : Heap) (mm : Mm) (D₁ D₂ : List Nat) : Prop where
  releases : Releases h h₁ own ∅ t D₁
  dropped : ∀ p, p ∈ D₁ ↔ SchedBlocks h t p
  emptied : Emptied h₁.mm mm (h.task t).pageTable D₂
  grow : Extends mm h'.mm ∅ [n - 4]
  head : load 4 h'.mm.mem (n - 4) = 0
  node4 : 4 ≤ n
  heap : h' = { h₁ with
    mm := h'.mm
    lists := ((h₁.lists.listInit (.vmAreas t)).setNode n (h₁.newNode n t)).listPush (.queue .tasks) n
    task := Function.update h₁.task t { h₁.task t with mode := .supervisor, kernelFrame := .taskEntry, sched := n }
    blocks := n :: h₁.blocks }

/-- task_destroy_sched leaves a tree that unset_user_pages can walk -/
theorem emptyRest_spec (hr : Releases h h₁ own ∅ t D) (hw : World h own q) (ht : t ∈ h.live)
    (hD : ∀ p, p ∈ D ↔ SchedBlocks h t p) : WellFormed h₁.mm (h.task t).pageTable ∧
      (∀ s ∈ tables h₁.mm.mem 2 (h.task t).pageTable, pageAt s ∈ h₁.mm.out) ∧
      (Flat h.mm.mem 2 (h.task t).pageTable → Flat h₁.mm.mem 2 (h.task t).pageTable) := by
  have hM := hw.maps t ht
  have hkeep := keepsTables hr hw ht hD
  have hsame : ∀ s ∈ tables h.mm.mem 2 (h.task t).pageTable, SameTable h.mm.mem h₁.mm.mem s := fun s hs => (hkeep s hs).2
  have hout : ∀ s ∈ tables h₁.mm.mem 2 (h.task t).pageTable, pageAt s ∈ h₁.mm.out := by
    intro s hs
    rw [tables_congr hsame] at hs
    exact (hr.mm.mem_page hw.held.ok).mpr (hkeep s hs).1
  exact ⟨⟨hr.mm.ok, hM.wf.tree.congr hsame, hM.wf.page, fun s hs => .of_mem (hout s hs)⟩, hout, fun hf => hf.congr hsame⟩

/-- the calls that task_reinit makes -/
theorem taskReinit_steps {ret : Int} (hw : World h own q) (ht : t ∈ h.live) (hnot : ∀ g, (h.task t).sched ∉ q g)
    (hrun : h.taskReinit t = .ok (ret, h')) : ∃ h₁ D₁ mm, Releases h h₁ own ∅ t D₁ ∧ (∀ p, p ∈ D₁ ↔ SchedBlocks h t p) ∧
      unsetUserPages (h.task t).pageTable h₁.mm = .ok mm ∧ Heap.taskInitSched t { h₁ with mm := mm } = .ok (ret, h') := by
  unfold Heap.taskReinit at hrun
  obtain ⟨h₁, hdestroy, hrun⟩ := Res.bind_eq_ok.mp hrun
  obtain ⟨_, hdecref, _⟩ := Res.bind_eq_ok.mp hdestroy
  obtain ⟨h₁', D₁, hdestroy', hr, hD⟩ := taskDestroySched_spec hw ht (vmDecrefAll_ends (hw.areas t ht) hdecref)
    (hw.queues.detached t ht hnot).2
  obtain rfl : h₁ = h₁' := Except.ok.inj (hdestroy.symm.trans hdestroy')
  obtain ⟨h₂, hunset, hinit⟩ := Res.bind_eq_ok.mp hrun
  obtain ⟨mm, hunset', hret⟩ := Res.bind_eq_ok.mp hunset
  rw [hr.task] at hunset'
  obtain rfl : { h₁ with mm := mm } = h₂ := Except.ok.inj hret
  exact ⟨h₁, D₁, mm, hr, hD, hunset', hinit⟩

theorem taskReinit_spec {ret : Int} (hw : World h own q) (ht : t ∈ h.live) (hnot : ∀ g, (h.task t).sched ∉ q g)
    (hrun : h.taskReinit t = .ok (ret, h')) : ret = 0 ∧ ∃ n h₁ mm D₁ D₂, Reinit h h' own t n h₁ mm D₁ D₂ := by
  obtain ⟨h₁, D₁, mm, hr, hD, hunset, hinit⟩ := taskReinit_steps hw ht hnot hrun
  obtain ⟨hwf, hout, _⟩ := emptyRest_spec hr hw ht hD
  obtain ⟨D₂, he⟩ := (unsetUserPages_spec hwf hout).2 mm hunset
  obtain ⟨rfl, mm', n, hx, hhead, h4, hh⟩ := taskInitSched_spec he.wf.ok hinit
  have hmm : mm' = h'.mm := by rw [hh]
  rw [hmm] at hx hhead hh
  exact ⟨rfl, n, h₁, mm, D₁, D₂, hr, hD, he, hx, hhead, h4, hh⟩

/-- a flat tree stays flat -/
theorem taskReinit_flat {ret : Int} (hw : World h own q) (ht : t ∈ h.live) (hnot : ∀ g, (h.task t).sched ∉ q g)
    (hflat : Flat h.mm.mem 2 (h.task t).pageTable) (hrun : h.taskReinit t = .ok (ret, h')) :
    Flat h'.mm.mem 2 (h.task t).pageTable := by
  obtain ⟨h₁, D₁, mm, hr, hD, hunset, hinit⟩ := taskReinit_steps hw ht hnot hrun
  obtain ⟨hwf, hout, hkeep⟩ := emptyRest_spec hr hw ht hD
  obtain ⟨D₂, hu⟩ := (unsetUserPages_unset hwf hout).2 mm hunset
  have he := hu.emptied hwf hout
  obtain ⟨_, mm', n, hx, _, _, hh⟩ := taskInitSched_spec he.wf.ok hinit
  have hmm : h'.mm = mm' := by rw [hh]
  rw [hmm]
  exact (hu.flat hwf.ok hwf.tree hout (hkeep hflat)).extends he.wf hx fun _ _ => nofun

theorem Mm.Room.shrinks {a a' : Mm} {W : Set Nat} (hr : a.Room k) (hs : Shrinks a a' W D) : a'.Room k := by
  refine ⟨hs.ok, fun p hp => hr.order p ?_, ?_⟩
  · rw [hs.out.mem_iff]
    exact List.mem_append_right _ hp
  · have hlen := hs.out.length_eq
    have hle := hr.length
    rw [List.length_append] at hlen
    omega

/-- task_reinit gives pages back before it takes one -/
theorem taskReinit_room (hw : World h own q) (ht : t ∈ h.live) (hnot : ∀ g, (h.task t).sched ∉ q g) (hends : Ends h t)
    (hflat : Flat h.mm.mem 2 (h.task t).pageTable) (hr : h.mm.Room (k + 1)) :
    ∃ h', h.taskReinit t = .ok (0, h') ∧ h'.mm.Room k := by
  obtain ⟨h₁, D₁, hdestroy, hrel, hD⟩ := taskDestroySched_spec hw ht hends (hw.queues.detached t ht hnot).2
  obtain ⟨hwf, hout, hkeep⟩ := emptyRest_spec hrel hw ht hD
  obtain ⟨hreturns, hspec⟩ := unsetUserPages_spec hwf hout
  obtain ⟨mm, hunset⟩ := hreturns (hkeep hflat)
  obtain ⟨D₂, he⟩ := hspec mm hunset
  have hr₁ : mm.Room (k + 1) := (hr.shrinks hrel.mm).shrinks he.shrinks
  obtain ⟨h₂, hh₂⟩ : ∃ h₂, h₂ = { h₁ with mm := mm } := ⟨_, rfl⟩
  have hmm : h₂.mm = mm := by rw [hh₂]
  obtain ⟨ret, h', hinit⟩ := taskInitSched_room (t := t) (hmm ▸ hr₁.free)
  obtain ⟨rfl, mm', n, hx, _, _, hh⟩ := taskInitSched_spec (hmm ▸ he.wf.ok) hinit
  have hmm' : h'.mm = mm' := by rw [hh]
  refine ⟨h', ?_, ?_⟩
  · unfold Heap.taskReinit Heap.unsetUserPages
    rw [← hrel.task] at hunset
    simp only [hdestroy, Res.ok_bind, hunset]
    rw [← hh₂]
    exact hinit
  · rw [hmm']
    exact (hmm ▸ hr₁).step hx (Nat.le_of_eq (Nat.add_comm 1 k))

namespace Reinit

theorem wf (hi : Reinit h h' own t n h₁ mm D₁ D₂) : WellFormed h'.mm (h.task t).pageTable :=
  (hi.emptied.wf.extends hi.grow fun _ _ => nofun).1

theorem pageTable (hi : Reinit h h' own t n h₁ mm D₁ D₂) : (h'.task t).pageTable = (h.task t).pageTable := by
  rw [hi.heap]
  show (Function.update h₁.task t _ t).pageTable = _
  rw [Function.update_self]
  show (h₁.task t).pageTable = _
  rw [hi.releases.task]

/-- what is written lies in the allocator's pages -/
theorem outside (hi : Reinit h h' own t n h₁ mm D₁ D₂) (hw : World h own q) (ht : t ∈ h.live) (hx : x ∉ usable) :
    h'.mm.mem x = h.mm.mem x := by
  have hroot : ¬ onPage (h.task t).pageTable x := fun hon =>
    hx (hw.held.ok.usable (hw.held.out _ _ _ ((hw.maps t ht).tables _ table_mem_tables)) (mem_pageAt.mpr hon))
  rw [hi.grow.frame x (.inl hx) nofun, hi.emptied.shrinks.frame x (.inl hx) fun s hs => (Set.mem_singleton_iff.mp hs) ▸ hroot]
  exact hi.releases.mm.frame x (.inl hx) nofun

/-- the task has no areas any more -/
theorem vmAreas (hi : Reinit h h' own t n h₁ mm D₁ D₂) : (h'.lists.list (.vmAreas t)).first = 0 := by
  rw [hi.heap]
  show (Lists.list (Lists.listPush _ n (Lists.setNode n _ (h₁.lists.listInit (.vmAreas t)))) (.vmAreas t)).first = 0
  rw [Lists.list_listPush, if_neg nofun, Lists.list_setNode, Lists.list_listInit, if_pos rfl]

/-- the pages that are given back belong to the lists of the task, or they are its sched node or tables -/
theorem role (hi : Reinit h h' own t n h₁ mm D₁ D₂) (hw : World h own q) (ht : t ∈ h.live) (hp : p ∈ D₂ ++ D₁) :
    ∃ r, own.Page p t r ∧ (r.isListed = true ∨ r = .sched ∨ (r = .table ∧ p ∈ D₂)) := by
  cases List.mem_append.mp hp with
  | inl hp =>
    obtain ⟨hin, _⟩ := hi.emptied.dropped p hp
    have hkeep := keepsTables hi.releases hw ht hi.dropped
    rw [tables_congr fun s hs => (hkeep s hs).2] at hin
    exact ⟨.table, (hw.maps t ht).tables p hin, .inr (.inr ⟨rfl, hp⟩)⟩
  | inr hp =>
    obtain ⟨r, hr, hkind⟩ := ((hi.dropped p).mp hp).role (hw.areas t ht) (hw.static t ht)
    exact ⟨r, hr, hkind.elim .inl fun he => .inr (.inl he)⟩

/-- what is not given back is still outstanding, and it holds what it held, unless it is the root -/
theorem rest (hi : Reinit h h' own t n h₁ mm D₁ D₂) (hok : h.mm.Ok) (hp : pageAt p ∈ h.mm.out) (hD : p ∉ D₂ ++ D₁) :
    pageAt p ∈ h'.mm.out ∧ p ≠ n - 4 ∧ (p ≠ (h.task t).pageTable → ∀ x, onPage p x → h'.mm.mem x = h.mm.mem x) := by
  have h1 : p ∉ D₁ := fun hin => hD (List.mem_append_right _ hin)
  have h2 : p ∉ D₂ := fun hin => hD (List.mem_append_left _ hin)
  have hp₁ := (hi.releases.mm.mem_page hok).mpr ⟨hp, h1⟩
  have hp₂ := (hi.emptied.shrinks.mem_page hi.releases.mm.ok).mpr ⟨hp₁, h2⟩
  refine ⟨hi.grow.old_mem hp₂, fun he => ?_, fun hroot x hx => ?_⟩
  · exact hi.grow.not_new (.of_mem hp₂) (he ▸ List.mem_singleton_self _)
  · rw [hi.grow.same (.of_mem hp₂) (hok.page hp) (Set.notMem_empty _) hx,
      hi.emptied.shrinks.same hi.releases.mm.ok hp₁ h2 hroot hx, hi.releases.mm.same hok hp h1 (Set.notMem_empty _) hx]

/-- a page that is not the task's stays as it is -/
theorem page (hi : Reinit h h' own t n h₁ mm D₁ D₂) (hw : World h own q) (ht : t ∈ h.live) (hp : pageAt p ∈ h.mm.out)
    (hno : ∀ r, ¬ own.Page p t r) : pageAt p ∈ h'.mm.out ∧ p ≠ n - 4 ∧ (∀ x, onPage p x → h'.mm.mem x = h.mm.mem x) ∧
      p ∉ tables h'.mm.mem 2 (h.task t).pageTable := by
  have hD : p ∉ D₂ ++ D₁ := fun hin => by
    obtain ⟨r, hr, _⟩ := hi.role hw ht hin
    exact hno r hr
  have hnot : p ∉ tables h.mm.mem 2 (h.task t).pageTable := fun hin => hno _ ((hw.maps t ht).tables p hin)
  obtain ⟨hout, hnew, hsame⟩ := hi.rest hw.held.ok hp hD
  refine ⟨hout, hnew, hsame fun he => hnot (he ▸ table_mem_tables), fun hin => ?_⟩
  have hkeep := keepsTables hi.releases hw ht hi.dropped
  obtain ⟨_, _, htab⟩ := hi.emptied.wf.extends hi.grow fun _ _ => nofun
  rw [htab, hi.emptied.tables, tables_congr fun s hs => (hkeep s hs).2] at hin
  exact hnot hin.1

end Reinit

end FakeKernel
