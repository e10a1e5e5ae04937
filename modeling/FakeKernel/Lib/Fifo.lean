import Mathlib.Data.List.Basic
import Mathlib.Logic.Function.Basic

/-!
# A family of queues, one of which is served

`Fifo.Step ready q ds q'` is one operation on the queues `q`; `ds` is what it served.

* `Fifo.enqueue`      something joins a queue;
* `Fifo.release`      a queue joins the one that is served, in order;
* `Fifo.Run.order`    first in, first out: what is served is a beginning of what was waiting, followed
                      by what joined since;
* `Fifo.Run.served`   whoever waits behind `pre` is served right after `pre`.
-/

namespace Fifo
variable {ι α : Type*} [DecidableEq ι] {ready g : ι} {q q' q'' : ι → List α} {ds ds' pre post : List α}
  {a : α}

/-- the queues when `a` joined `g` -/
def enqueue (q : ι → List α) (g : ι) (a : α) : ι → List α := Function.update q g (q g ++ [a])

/-- the queues when everybody in `g` joined `ready` -/
def release (ready : ι) (q : ι → List α) (g : ι) : ι → List α :=
  Function.update (Function.update q ready (q ready ++ q g)) g []

inductive Step (ready : ι) (q : ι → List α) : List α → (ι → List α) → Prop where
  | join (g : ι) (a : α) : Step ready q [] (enqueue q g a)
  | serve (a : α) (l : List α) (h : q ready = a :: l) : Step ready q [a] (Function.update q ready l)
  | wake (g : ι) (h : g ≠ ready) : Step ready q [] (release ready q g)

inductive Run (ready : ι) (q : ι → List α) : List α → (ι → List α) → Prop where
  | refl : Run ready q [] q
  | tail {ds ds' : List α} {q' q'' : ι → List α} (h : Run ready q ds q') (s : Step ready q' ds' q'') :
      Run ready q (ds ++ ds') q''

/-- nobody is lost when a queue joins the one that is served -/
theorem mem_release (hg : g ≠ ready) : (∃ g', a ∈ release ready q g g') ↔ ∃ g', a ∈ q g' := by
  constructor
  · intro ⟨g', h⟩
    by_cases he : g' = g
    · rw [he, release, Function.update_self] at h
      exact absurd h List.not_mem_nil
    · rw [release, Function.update_of_ne he] at h
      by_cases hr : g' = ready
      · rw [hr, Function.update_self, List.mem_append] at h
        exact h.elim (fun h => ⟨ready, h⟩) fun h => ⟨g, h⟩
      · rw [Function.update_of_ne hr] at h
        exact ⟨g', h⟩
  · intro ⟨g', h⟩
    by_cases he : g' = g ∨ g' = ready
    · refine ⟨ready, ?_⟩
      rw [release, Function.update_of_ne hg.symm, Function.update_self, List.mem_append]
      exact he.elim (fun e => .inr (e ▸ h)) fun e => .inl (e ▸ h)
    · refine ⟨g', ?_⟩
      rw [release, Function.update_of_ne fun e => he (.inl e), Function.update_of_ne fun e => he (.inr e)]
      exact h

theorem Step.run (s : Step ready q ds q') : Run ready q ds q' := .tail .refl s

theorem Run.trans (h : Run ready q ds q') (h' : Run ready q' ds' q'') : Run ready q (ds ++ ds') q'' := by
  induction h' with
  | refl => rwa [List.append_nil]
  | tail _ s ih =>
    rw [← List.append_assoc]
    exact .tail ih s

theorem Step.order (s : Step ready q ds q') : ∃ added, q ready ++ added = ds ++ q' ready := by
  cases s with
  | join g a =>
    by_cases he : ready = g
    · refine ⟨[a], ?_⟩
      rw [he, enqueue, Function.update_self, List.nil_append]
    · refine ⟨[], ?_⟩
      rw [enqueue, Function.update_of_ne he, List.append_nil, List.nil_append]
  | serve a l h =>
    refine ⟨[], ?_⟩
    rw [h, Function.update_self, List.append_nil, List.singleton_append]
  | wake g h =>
    refine ⟨q g, ?_⟩
    rw [release, Function.update_of_ne (Ne.symm h), Function.update_self, List.nil_append]

/-- first in, first out -/
theorem Run.order (h : Run ready q ds q') : ∃ added, q ready ++ added = ds ++ q' ready := by
  induction h with
  | refl => exact ⟨[], List.append_nil _⟩
  | tail _ s ih =>
    obtain ⟨added, he⟩ := ih
    obtain ⟨added', he'⟩ := s.order
    refine ⟨added ++ added', ?_⟩
    rw [← List.append_assoc, he, List.append_assoc, he', List.append_assoc]

/-- what waits behind `pre` is served after exactly `pre` -/
theorem Run.served (h : Run ready q ds q') (hq : q ready = pre ++ a :: post) :
    (∃ rest, pre = ds ++ rest ∧ ∃ added, q' ready = rest ++ a :: (post ++ added)) ∨
      ∃ later, ds = pre ++ a :: later := by
  obtain ⟨added, he⟩ := h.order
  rw [hq, List.append_assoc, List.cons_append] at he
  obtain ⟨rest, hpre, hrest⟩ | ⟨rest, hds, hrest⟩ := List.append_eq_append_iff.mp he
  · cases rest with
    | nil =>
      refine .inl ⟨[], ?_, added, ?_⟩
      · rw [hpre, List.append_nil, List.append_nil]
      · exact hrest.symm
    | cons b rest =>
      refine .inr ⟨rest, ?_⟩
      rw [hpre, (List.cons.inj hrest).1]
  · exact .inl ⟨rest, hds, added, hrest⟩

end Fifo
