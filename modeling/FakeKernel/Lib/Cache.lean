import Mathlib.Data.Set.Insert
import Mathlib.Logic.Relation

/-!
# A cache of a partial map

* `Cache.Sound`      what is cached is what the map says;
* `CachedSystem`     a system with a map, and a cache that is emptied when the system asks for it;
* `CachedSystem.Step`     the cache fills and forgets whenever it likes;
* `Extending.run_sound`   it stays sound, as long as the map only gains what is not cached;
* `run_exists`            the cache does not get in the way of the system.
-/

variable {S A B : Type*}

/-- the pairs in `c` belong to `f` -/
def Cache.Sound (f : A → Option B) (c : Set (A × B)) : Prop := ∀ e ∈ c, f e.1 = some e.2

namespace Cache
variable {f g : A → Option B} {c c' : Set (A × B)} {a : A} {b : B}

theorem Sound.empty (f : A → Option B) : Sound f ∅ := fun _ he => he.elim

theorem Sound.subset (hc : Sound f c) (h : c' ⊆ c) : Sound f c' := fun e he => hc e (h he)

theorem Sound.insert (hc : Sound f c) (h : f a = some b) : Sound f (insert (a, b) c) := by
  rintro e (rfl | he)
  · exact h
  · exact hc e he

theorem Sound.mono (hc : Sound f c) (h : ∀ a b, f a = some b → g a = some b) : Sound g c := fun e he => h _ _ (hc e he)

end Cache

/-- `look` is the map; it need not mean anything in states that are not `inUse`; `fence` empties the cache -/
structure CachedSystem (S A B : Type*) where
  step : S → S → Prop
  look : S → A → Option B
  inUse : S → Prop
  fence : S → S → Prop

namespace CachedSystem
open Cache
variable {m : CachedSystem S A B} {Inv : S → Prop} {s s' : S} {c c' : Set (A × B)} {p p' : S × Set (A × B)}

inductive Step (m : CachedSystem S A B) : S × Set (A × B) → S × Set (A × B) → Prop where
  | fill {s : S} {c : Set (A × B)} (a : A) (b : B) (h : m.look s a = some b) : Step m (s, c) (s, insert (a, b) c)
  | evict {s : S} {c c' : Set (A × B)} (h : c' ⊆ c) : Step m (s, c) (s, c')
  | keep {s s' : S} {c : Set (A × B)} (hs : m.step s s') (h : ¬ m.fence s s') : Step m (s, c) (s', c)
  | flush {s s' : S} {c : Set (A × B)} (hs : m.step s s') (h : m.fence s s') : Step m (s, c) (s', ∅)

/-- without a fence, a map that is in use afterwards was in use before and has only grown -/
structure Extending (m : CachedSystem S A B) (Inv : S → Prop) : Prop where
  inv : ∀ {s s'}, Inv s → m.step s s' → Inv s'
  use : ∀ {s s'}, Inv s → m.step s s' → ¬ m.fence s s' → m.inUse s' →
    m.inUse s ∧ ∀ a b, m.look s a = some b → m.look s' a = some b

namespace Extending

/-- the invariant, and the cache is sound while the map is in use -/
def Good (m : CachedSystem S A B) (Inv : S → Prop) (p : S × Set (A × B)) : Prop :=
  Inv p.1 ∧ (m.inUse p.1 → Sound (m.look p.1) p.2)

theorem step_good (hm : Extending m Inv) (hg : Good m Inv p) (hs : Step m p p') : Good m Inv p' := by
  obtain ⟨hi, hsound⟩ := hg
  cases hs with
  | fill a b h => exact ⟨hi, fun hu => (hsound hu).insert h⟩
  | evict h => exact ⟨hi, fun hu => (hsound hu).subset h⟩
  | keep hs h =>
    refine ⟨hm.inv hi hs, fun hu => ?_⟩
    obtain ⟨hu₀, hmono⟩ := hm.use hi hs h hu
    exact (hsound hu₀).mono hmono
  | flush hs h => exact ⟨hm.inv hi hs, fun _ => .empty _⟩

theorem run_sound (hm : Extending m Inv) (hg : Good m Inv p) (hs : Relation.ReflTransGen (Step m) p p') : Good m Inv p' := by
  induction hs with
  | refl => exact hg
  | tail _ hstep ih => exact hm.step_good ih hstep

end Extending

/-- every run of the system is one with a cache -/
theorem run_exists (hs : Relation.ReflTransGen m.step s s') (c : Set (A × B)) :
    ∃ c', Relation.ReflTransGen (Step m) (s, c) (s', c') := by
  induction hs with
  | refl => exact ⟨c, .refl⟩
  | @tail s₁ s₂ _ hstep ih =>
    obtain ⟨c₁, hs₁⟩ := ih
    by_cases hf : m.fence s₁ s₂
    · exact ⟨∅, hs₁.tail (.flush hstep hf)⟩
    · exact ⟨c₁, hs₁.tail (.keep hstep hf)⟩

end CachedSystem
