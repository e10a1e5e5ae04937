import FakeKernel.Mm.FreeLists

/-!
# Complete coalescing

`NoBuddies F`: below the highest order no two buddies are both free.  Splitting breaks this for one
pair only, the two halves of the area on its way to the caller; once that area is taken, and after
every free, it holds again.  With it the lists are determined by the union of the free areas
(`eq_of_union_eq`).

* `NoBuddies.alloc`, `NoBuddies.free`;
* `reduced`, `mem_iff_of_union_eq`.
-/

namespace FakeKernel
open Dyadic

def NoBuddies (F : FreeLists) : Prop :=
  ∀ k a, k + 1 < maxOrder → a ∈ F k → Dyadic.buddy (12 + k) a ∉ F k

/-- the only free buddies are `a` of order `k` and its buddy -/
def BuddiesOnlyAt (F : FreeLists) (k a : Nat) : Prop :=
  ∀ j b, j + 1 < maxOrder → b ∈ F j → Dyadic.buddy (12 + j) b ∈ F j →
    j = k ∧ (b = a ∨ Dyadic.buddy (12 + j) b = a)

variable {F : FreeLists} {out : List Page} {k a : Nat} {rest : List Nat}

theorem NoBuddies.only (h : NoBuddies F) : BuddiesOnlyAt F k a :=
  fun j b hj hb hbb => absurd hbb (h j b hj hb)

/-! ## alloc -/

theorem BuddiesOnlyAt.split (h : BuddiesOnlyAt F (k + 1) a) (L : Layout F out)
    (hF : F (k + 1) = a :: rest) (hnil : F k = []) : BuddiesOnlyAt (FreeLists.split k F) k a := by
  intro j b hj hb hbb
  have hb' := (L.mem_split hF (q := ⟨b, j⟩)).mp hb
  have hbb' := (L.mem_split hF (q := ⟨Dyadic.buddy (12 + j) b, j⟩)).mp hbb
  have hal := L.aligned (hF ▸ List.mem_cons_self : a ∈ F (k + 1))
  -- a member of another list than the one of order `k` was there before
  have old : ∀ {c}, (c ∈ F j ∧ (⟨c, j⟩ : Page) ≠ ⟨a, k + 1⟩) ∨ (⟨c, j⟩ : Page) = ⟨a, k⟩ ∨
      (⟨c, j⟩ : Page) = ⟨a + 2 ^ (12 + k), k⟩ → j ≠ k → c ∈ F j ∧ (⟨c, j⟩ : Page) ≠ ⟨a, k + 1⟩ := by
    rintro c (h | h | h) hjk
    · exact h
    · exact absurd (congrArg Page.order h) hjk
    · exact absurd (congrArg Page.order h) hjk
  by_cases hjk : j = k
  · subst hjk
    refine ⟨rfl, ?_⟩
    rcases hb' with ⟨h, _⟩ | h | h
    · rw [hnil] at h
      exact absurd h List.not_mem_nil
    · exact Or.inl (congrArg Page.address h)
    · obtain rfl : b = a + 2 ^ (12 + j) := congrArg Page.address h
      right
      have hlow : Dyadic.buddy (12 + j) a = a + 2 ^ (12 + j) := buddy_lower hal
      rw [← hlow, buddy_buddy]
  · exfalso
    obtain ⟨h1, hne1⟩ := old hb' hjk
    obtain ⟨h2, hne2⟩ := old hbb' hjk
    obtain ⟨rfl, rfl | h3⟩ := h j b hj h1 h2
    · exact hne1 rfl
    · exact hne2 (congrArg (fun c => (⟨c, k + 1⟩ : Page)) h3)

theorem BuddiesOnlyAt.splitDown {n : Nat} (h : BuddiesOnlyAt F (k + n) a) (L : Layout F out)
    (hF : F (k + n) = a :: rest) (hnil : ∀ j, k ≤ j → j < k + n → F j = []) :
    BuddiesOnlyAt (FreeLists.splitDown n k F) k a := by
  induction n generalizing F rest with
  | zero => exact h
  | succ n ih =>
    rw [← Nat.add_assoc] at h hF
    have hhead : FreeLists.split (k + n) F (k + n) = a :: (a + 2 ^ (12 + (k + n))) :: F (k + n) := by
      rw [FreeLists.split_eq hF, Function.update_self]
    refine ih (h.split L hF (hnil _ (by omega) (by omega))) (L.split hF) hhead ?_
    intro j hj hj'
    rw [FreeLists.split_eq hF, Function.update_of_ne (by omega), Function.update_of_ne (by omega)]
    exact hnil j hj (by omega)

theorem BuddiesOnlyAt.take (h : BuddiesOnlyAt F k a) (L : Layout F out) (hF : F k = a :: rest) :
    NoBuddies (FreeLists.take k F) := by
  have hnd := L.nodup k
  rw [hF] at hnd
  intro j b hj hb hbb
  unfold FreeLists.take at hb hbb
  by_cases hjk : j = k
  · subst hjk
    rw [Function.update_self, hF, List.tail_cons] at hb hbb
    have hb' : b ∈ F j := hF ▸ List.mem_cons_of_mem a hb
    have hbb' : Dyadic.buddy (12 + j) b ∈ F j := hF ▸ List.mem_cons_of_mem a hbb
    rcases (h j b hj hb' hbb').2 with rfl | rfl
    · exact (List.nodup_cons.mp hnd).1 hb
    · exact (List.nodup_cons.mp hnd).1 hbb
  · rw [Function.update_of_ne hjk] at hb hbb
    exact hjk (h j b hj hb hbb).1

/-- an allocation leaves no free buddies -/
theorem NoBuddies.alloc {order n : Nat} (h : NoBuddies F) (L : Layout F out)
    (hs : F.Source order n a rest) :
    NoBuddies (FreeLists.take order (FreeLists.splitDown n order F)) := by
  obtain ⟨L', rest', hhead⟩ := L.splitDown hs.head
  exact (h.only.splitDown L hs.head hs.empty).take L' hhead

/-! ## free -/

theorem NoBuddies.put (h : NoBuddies F) {p : Page}
    (hp : p.order + 1 < maxOrder → p.buddy.address ∉ F p.order) :
    NoBuddies (FreeLists.put p F) := by
  intro j b hj hb hbb
  unfold FreeLists.put at hb hbb
  by_cases hjk : j = p.order
  · subst hjk
    rw [Function.update_self, List.mem_cons] at hb hbb
    rcases hb with rfl | hb
    · rcases hbb with hself | hbb
      · have h0 : Dyadic.buddy (12 + p.order) p.address ^^^ p.address = 0 := by
          rw [hself, Nat.xor_self]
        have hxor : Dyadic.buddy (12 + p.order) p.address ^^^ p.address = 2 ^ (12 + p.order) := by
          unfold Dyadic.buddy
          rw [Nat.xor_comm p.address, Nat.xor_assoc, Nat.xor_self, Nat.xor_zero]
        have := Nat.two_pow_pos (12 + p.order)
        omega
      · exact hp hj hbb
    · rcases hbb with hself | hbb
      · have hbud : p.buddy.address = b := by
          show Dyadic.buddy (12 + p.order) p.address = b
          rw [← hself, buddy_buddy]
        exact hp hj (hbud ▸ hb)
      · exact h _ b hj hb hbb
  · rw [Function.update_of_ne hjk] at hb hbb
    exact h j b hj hb hbb

theorem NoBuddies.erase (h : NoBuddies F) (b : Nat) :
    NoBuddies (Function.update F k ((F k).erase b)) := by
  intro j c hj hc hcc
  by_cases hjk : j = k
  · subst hjk
    rw [Function.update_self] at hc hcc
    exact h j c hj (List.mem_of_mem_erase hc) (List.mem_of_mem_erase hcc)
  · rw [Function.update_of_ne hjk] at hc hcc
    exact h j c hj hc hcc

theorem NoBuddies.free {n : Nat} {p : Page} (h : NoBuddies F) : NoBuddies (FreeLists.free n p F) := by
  induction n generalizing F p with
  | zero => exact h
  | succ n ih =>
    unfold FreeLists.free
    split
    · rename_i htop
      exact h.put fun hlt => absurd htop (by omega)
    · split
      · exact ih (h.erase _)
      · rename_i hb
        exact h.put fun _ => hb

/-! ## the lists are determined by the union of the areas -/

/-- the free areas as a family of cells -/
def cells (F : FreeLists) (j : Nat) : Set Nat := {a | 12 ≤ j ∧ a ∈ F (j - 12)}

theorem mem_cells {k a : Nat} : a ∈ cells F (12 + k) ↔ a ∈ F k := by
  unfold cells
  simp

theorem reduced (h : NoBuddies F) (L : Layout F out) : Reduced 12 (12 + (maxOrder - 1)) (cells F) := by
  have back : ∀ {j a}, a ∈ cells F j → ∃ k, j = 12 + k ∧ a ∈ F k := by
    rintro j a ⟨hj, ha⟩
    exact ⟨j - 12, by omega, ha⟩
  refine ⟨?_, ?_, ?_, ?_⟩
  · intro j a ha
    obtain ⟨k, rfl, ha'⟩ := back ha
    have := L.order_lt ha'
    omega
  · intro j a ha
    obtain ⟨k, rfl, ha'⟩ := back ha
    exact L.aligned ha'
  · intro j a i b ha hb hne
    obtain ⟨k, rfl, ha'⟩ := back ha
    obtain ⟨l, rfl, hb'⟩ := back hb
    have hpq : (⟨a, k⟩ : Page) ≠ ⟨b, l⟩ := by
      intro e
      obtain ⟨rfl, rfl⟩ := Page.mk.inj e
      exact hne rfl
    have hd := L.tiling.disjoint (Layout.mem_tiles_free ha') (Layout.mem_tiles_free hb') hpq
    rwa [Page.bytes_eq, Page.bytes_eq] at hd
  · intro j a hj ha hb
    obtain ⟨k, rfl, ha'⟩ := back ha
    exact h k a (by omega) ha' (mem_cells.mp hb)

theorem mem_cover {x : Nat} : x ∈ cover (cells F) ↔ ∃ k a, a ∈ F k ∧ x ∈ Page.bytes ⟨a, k⟩ := by
  constructor
  · rintro ⟨j, a, ⟨hj, ha⟩, hx⟩
    refine ⟨j - 12, a, ha, ?_⟩
    rw [Page.bytes_eq]
    show x ∈ cell (12 + (j - 12)) a
    rwa [Nat.add_sub_cancel' hj]
  · rintro ⟨k, a, ha, hx⟩
    rw [Page.bytes_eq] at hx
    exact ⟨12 + k, a, mem_cells.mpr ha, hx⟩

/-- two states without free buddies whose free areas have the same union have the same areas on
every list -/
theorem mem_iff_of_union_eq {G : FreeLists} {out' : List Page} (hF : NoBuddies F) (L : Layout F out)
    (hG : NoBuddies G) (L' : Layout G out')
    (hun : ∀ x, (∃ k a, a ∈ F k ∧ x ∈ Page.bytes ⟨a, k⟩) ↔ ∃ k a, a ∈ G k ∧ x ∈ Page.bytes ⟨a, k⟩)
    (k a : Nat) : a ∈ F k ↔ a ∈ G k := by
  have hcov : cover (cells F) = cover (cells G) := by
    ext x
    rw [mem_cover, mem_cover]
    exact hun x
  have heq := (reduced hF L).eq_of_cover_eq (reduced hG L') hcov (12 + k)
  rw [← mem_cells, heq, mem_cells]

end FakeKernel
