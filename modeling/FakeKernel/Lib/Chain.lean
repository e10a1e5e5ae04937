import Mathlib.Data.List.Basic
import Mathlib.Data.List.Nodup
import Mathlib.Data.List.Perm.Subperm

/-!
# Singly linked chains over a `next` function

`Chain next null p l`: starting at `p` and following `next`, one visits exactly the members of `l`,
none of which is `null`, and then reaches `null`.  Nothing is assumed about `next`: it may be read
from a memory, a record field or a table.

* `Chain.unique`     the list is determined by the start;
* `Chain.nodup`      a chain that ends visits no member twice;
* `Chain.congr`      only the links of the members matter;
* `Chain.concat`     linking the last member to a new one appends it;
* `Chain.skip`       unlinking the successor of a member removes it from the list;
* `Chain.next_mem`   a member leads to a member, up to the last one;
* `Chain.length_lt`  a chain of numbers is shorter than a bound of its members;
* `Chain.endless`    a set closed under `next` that avoids `null` starts no chain.
-/

variable {α : Type*}

def Chain (next : α → α) (null : α) : α → List α → Prop
  | p, [] => p = null
  | p, a :: l => p = a ∧ a ≠ null ∧ Chain next null (next a) l

namespace Chain
variable {next next' : α → α} {null p a b : α} {l l₁ l₂ : List α}

@[simp] theorem nil_iff : Chain next null p [] ↔ p = null := Iff.rfl

@[simp] theorem cons_iff :
    Chain next null p (a :: l) ↔ p = a ∧ a ≠ null ∧ Chain next null (next a) l := Iff.rfl

theorem of_null (h : Chain next null null l) : l = [] := by
  cases l with
  | nil => rfl
  | cons a l => exact absurd h.1.symm h.2.1

theorem cons_of_ne (h : Chain next null p l) (hp : p ≠ null) :
    ∃ l', l = p :: l' ∧ Chain next null (next p) l' := by
  cases l with
  | nil => exact absurd h hp
  | cons a l' =>
    obtain ⟨rfl, _, htail⟩ := h
    exact ⟨l', rfl, htail⟩

theorem ne_null (h : Chain next null p l) (ha : a ∈ l) : a ≠ null := by
  induction l generalizing p with
  | nil => exact absurd ha List.not_mem_nil
  | cons b l ih =>
    rcases List.mem_cons.mp ha with rfl | hmem
    · exact h.2.1
    · exact ih h.2.2 hmem

theorem unique (h₁ : Chain next null p l₁) (h₂ : Chain next null p l₂) : l₁ = l₂ := by
  induction l₁ generalizing p l₂ with
  | nil =>
    obtain rfl : p = null := h₁
    exact (of_null h₂).symm
  | cons a l₁ ih =>
    obtain ⟨rfl, hne, htail⟩ := h₁
    obtain ⟨l', rfl, htail'⟩ := cons_of_ne h₂ hne
    rw [ih htail htail']

/-- every member starts a chain of its own, and it is a suffix -/
theorem suffix_of_mem (h : Chain next null p l) (ha : a ∈ l) :
    ∃ s t, l = s ++ a :: t ∧ Chain next null a (a :: t) := by
  induction l generalizing p with
  | nil => exact absurd ha List.not_mem_nil
  | cons b l ih =>
    rcases List.mem_cons.mp ha with rfl | hmem
    · exact ⟨[], l, rfl, rfl, h.2.1, h.2.2⟩
    · obtain ⟨s, t, rfl, ht⟩ := ih h.2.2 hmem
      exact ⟨b :: s, t, rfl, ht⟩

theorem nodup (h : Chain next null p l) : l.Nodup := by
  induction l generalizing p with
  | nil => exact List.nodup_nil
  | cons a l ih =>
    refine List.nodup_cons.mpr ⟨fun hmem => ?_, ih h.2.2⟩
    -- a second visit to `a` would start a strictly shorter chain from the same point
    obtain ⟨s, t, rfl, ht⟩ := suffix_of_mem h.2.2 hmem
    have heq : a :: (s ++ a :: t) = a :: t := unique ⟨rfl, h.2.1, h.2.2⟩ ht
    have hlen := congrArg List.length heq
    simp only [List.length_cons, List.length_append] at hlen
    omega

theorem congr (h : Chain next null p l) (hl : ∀ a ∈ l, next' a = next a) :
    Chain next' null p l := by
  induction l generalizing p with
  | nil => exact h
  | cons a l ih =>
    refine ⟨h.1, h.2.1, ?_⟩
    rw [hl a List.mem_cons_self]
    exact ih h.2.2 fun b hb => hl b (List.mem_cons_of_mem a hb)

theorem push (h : Chain next null p l) (ha : a ≠ null) (hnew : next' a = p)
    (hl : ∀ b ∈ l, next' b = next b) : Chain next' null a (a :: l) := by
  refine ⟨rfl, ha, ?_⟩
  rw [hnew]
  exact h.congr hl

/-- the start of a list that may be empty -/
def start (p a : α) : List α → α
  | [] => a
  | _ :: _ => p

theorem concat (h : Chain next null p l) (ha : a ≠ null) (hnull : next' a = null)
    (hlast : ∀ b, l.getLast? = some b → next' b = a)
    (hl : ∀ b ∈ l, l.getLast? ≠ some b → next' b = next b) :
    Chain next' null (start p a l) (l ++ [a]) := by
  induction l generalizing p with
  | nil => exact ⟨rfl, ha, hnull⟩
  | cons b l ih =>
    refine ⟨h.1, h.2.1, ?_⟩
    have htail := ih h.2.2
    cases l with
    | nil =>
      rw [hlast b rfl]
      exact htail nofun nofun
    | cons c l =>
      have hnd := nodup h
      have hne : ∀ x, (b :: c :: l).getLast? = some x ↔ (c :: l).getLast? = some x := by
        intro x
        rw [List.getLast?_cons_cons]
      have hb : next' b = next b := by
        refine hl b List.mem_cons_self fun e => (List.nodup_cons.mp hnd).1 ?_
        exact List.mem_of_getLast? ((hne b).mp e)
      rw [hb]
      refine htail (fun x hx => hlast x ((hne x).mpr hx)) fun x hx hxl => ?_
      exact hl x (List.mem_cons_of_mem b hx) fun e => hxl ((hne x).mp e)

theorem skip (h : Chain next null p (l₁ ++ a :: b :: l₂)) (hab : next' a = next b)
    (hl : ∀ x ∈ l₁ ++ a :: l₂, x ≠ a → next' x = next x) :
    Chain next' null p (l₁ ++ a :: l₂) := by
  induction l₁ generalizing p with
  | nil =>
    have hnd := nodup h
    obtain ⟨rfl, hne, rfl, _, htail⟩ := h
    have hnot : p ∉ l₂ := fun hm => (List.nodup_cons.mp hnd).1 (List.mem_cons_of_mem _ hm)
    refine ⟨rfl, hne, ?_⟩
    rw [hab]
    exact htail.congr fun x hx =>
      hl x (List.mem_cons_of_mem _ hx) fun e => hnot (e ▸ hx)
  | cons c l₁ ih =>
    have hnd := nodup h
    have hca : c ≠ a := by
      rintro rfl
      exact (List.nodup_cons.mp hnd).1 (List.mem_append_right l₁ List.mem_cons_self)
    refine ⟨h.1, h.2.1, ?_⟩
    have hc : next' c = next c := hl c List.mem_cons_self hca
    rw [hc]
    exact ih h.2.2 fun x hx => hl x (List.mem_cons_of_mem c hx)

theorem after (h : Chain next null p (l₁ ++ a :: l₂)) : Chain next null (next a) l₂ := by
  induction l₁ generalizing p with
  | nil => exact h.2.2
  | cons c l₁ ih => exact ih h.2.2

theorem head_eq (h : Chain next null p l) : p = l.head?.getD null := by
  cases l with
  | nil => exact h
  | cons a l => exact h.1

/-- a member that is not the first one -/
theorem start_ne (h : Chain next null p (l₁ ++ a :: l₂)) (hl : l₁ ≠ []) : p ≠ a := by
  have hnd := nodup h
  cases l₁ with
  | nil => exact absurd rfl hl
  | cons c l₁ =>
    obtain ⟨rfl, _⟩ := h
    rintro rfl
    exact (List.nodup_cons.mp hnd).1 (List.mem_append_right l₁ List.mem_cons_self)

theorem insertAfter (h : Chain next null p (l₁ ++ a :: l₂)) (hb : b ≠ null) (hab : next' a = b)
    (hba : next' b = next a) (hl : ∀ x ∈ l₁ ++ a :: l₂, x ≠ a → next' x = next x) :
    Chain next' null p (l₁ ++ a :: b :: l₂) := by
  induction l₁ generalizing p with
  | nil =>
    have hnd := nodup h
    obtain ⟨rfl, hne, htail⟩ := h
    have hnot : p ∉ l₂ := (List.nodup_cons.mp hnd).1
    refine ⟨rfl, hne, hab, hb, ?_⟩
    rw [hba]
    exact htail.congr fun x hx => hl x (List.mem_cons_of_mem _ hx) fun e => hnot (e ▸ hx)
  | cons c l₁ ih =>
    have hnd := nodup h
    have hca : c ≠ a := by
      rintro rfl
      exact (List.nodup_cons.mp hnd).1 (List.mem_append_right l₁ List.mem_cons_self)
    refine ⟨h.1, h.2.1, ?_⟩
    have hc : next' c = next c := hl c List.mem_cons_self hca
    rw [hc]
    exact ih h.2.2 fun x hx => hl x (List.mem_cons_of_mem c hx)

/-- a member leads to a member, or it is the last one -/
theorem next_mem (h : Chain next null p l) (ha : a ∈ l) :
    next a ∈ l ∨ next a = null ∧ l.getLast? = some a := by
  obtain ⟨s, t, rfl, hchain⟩ := h.suffix_of_mem ha
  cases t with
  | nil => exact .inr ⟨hchain.2.2, List.getLast?_concat⟩
  | cons b t =>
    refine .inl ?_
    rw [hchain.2.2.1]
    exact List.mem_append_right s (List.mem_cons_of_mem a List.mem_cons_self)

/-- a set that is closed under `next` and avoids `null` starts no chain -/
theorem endless {S : α → Prop} (hS : ∀ x, S x → x ≠ null ∧ S (next x)) (hp : S p) :
    ¬ Chain next null p l := by
  intro h
  induction l generalizing p with
  | nil => exact (hS p hp).1 h
  | cons a l ih =>
    obtain ⟨rfl, _, htail⟩ := h
    exact ih (hS p hp).2 htail

theorem length_lt {next : Nat → Nat} {p c : Nat} {l : List Nat} (h : Chain next 0 p l) (hc : 0 < c)
    (hl : ∀ a ∈ l, a < c) : l.length < c := by
  have hnodup : (0 :: l).Nodup := List.nodup_cons.mpr ⟨fun h0 => h.ne_null h0 rfl, h.nodup⟩
  have hsub : 0 :: l ⊆ List.range c := by
    intro a ha
    cases List.mem_cons.mp ha with
    | inl he => exact List.mem_range.mpr (he ▸ hc)
    | inr ha => exact List.mem_range.mpr (hl a ha)
  have hlen := (hnodup.subperm hsub).length_le
  rw [List.length_range] at hlen
  exact hlen

end Chain
