import Mathlib.Data.Set.Insert
import Mathlib.Logic.Function.Basic
import Mathlib.Logic.Relation

/-!
# Tasks with memories of their own

* `Memories`        which tasks there are, and what each of them sees of memory;
* `MemoryRules`     how a cell may be written, a memory extended and a memory copied;
* `Memories.Step`   what one task may do;
* `Step.frame`, `Run.frame`   nobody else sees it.
-/

variable {T A C : Type*}

structure Memories (T A C : Type*) where
  live : Set T
  view : T → A → Option C

structure MemoryRules (A C : Type*) where
  write : C → C → Prop
  extend : (A → Option C) → (A → Option C) → Prop
  copy : (A → Option C) → (A → Option C) → Prop

namespace Memories
variable [DecidableEq A] {R R' : MemoryRules A C} {P : T → Prop} {s s' s'' : Memories T A C} {a t : T}

/-- the tasks of `s` other than `a` see the same memory -/
def Others (a : T) (s s' : Memories T A C) : Prop := ∀ t ∈ s.live, t ≠ a → s'.view t = s.view t

/-- the task `a` does something -/
inductive Step (R : MemoryRules A C) (a : T) (s s' : Memories T A C) : Prop where
  | stay (hl : s'.live = s.live) (hv : ∀ t ∈ s.live, s'.view t = s.view t)
  | write (x : A) (c c' : C) (ha : a ∈ s.live) (hx : s.view a x = some c) (hc : R.write c c') (hl : s'.live = s.live)
      (hself : s'.view a = Function.update (s.view a) x (some c')) (hv : Others a s s')
  | extend (ha : a ∈ s.live) (hr : R.extend (s.view a) (s'.view a)) (hl : s'.live = s.live) (hv : Others a s s')
  | spawn (t : T) (ha : a ∈ s.live) (ht : t ∉ s.live) (hr : R.copy (s.view a) (s'.view t)) (hl : s'.live = insert t s.live)
      (hv : ∀ t ∈ s.live, s'.view t = s.view t)
  | exit (ha : a ∈ s.live) (hl : s'.live = s.live \ {a}) (hv : Others a s s')

/-- tasks of which `P` holds do something, one after the other -/
def Run (R : MemoryRules A C) (P : T → Prop) : Memories T A C → Memories T A C → Prop :=
  Relation.ReflTransGen fun s s' => ∃ a, P a ∧ Step R a s s'

/-- nobody else sees what `a` does -/
theorem Step.frame (hs : Step R a s s') (ht : t ∈ s.live) (hne : t ≠ a) : t ∈ s'.live ∧ s'.view t = s.view t := by
  cases hs with
  | stay hl hv => exact ⟨hl ▸ ht, hv t ht⟩
  | write x c c' ha hx hc hl hself hv => exact ⟨hl ▸ ht, hv t ht hne⟩
  | extend ha hr hl hv => exact ⟨hl ▸ ht, hv t ht hne⟩
  | spawn t' ha ht' hr hl hv => exact ⟨hl ▸ Set.mem_insert_of_mem t' ht, hv t ht⟩
  | exit ha hl hv => exact ⟨hl ▸ ⟨ht, hne⟩, hv t ht hne⟩

/-- while others run, the memory of a task stays as it is -/
theorem Run.frame (hr : Run R P s s') (ht : t ∈ s.live) (hne : ∀ a, P a → t ≠ a) : t ∈ s'.live ∧ s'.view t = s.view t := by
  induction hr with
  | refl => exact ⟨ht, rfl⟩
  | tail _ hs ih =>
    obtain ⟨a, ha, hs⟩ := hs
    obtain ⟨hin, hv⟩ := hs.frame ih.1 (hne a ha)
    exact ⟨hin, hv.trans ih.2⟩

end Memories
