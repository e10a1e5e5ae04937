import FakeKernel.Lib.Dyadic
import FakeKernel.Mm.Buddy
import Mathlib.Data.Set.Pairwise.Lattice
import Mathlib.Tactic.NormNum

/-!
# The free lists as lists (abstract allocator)

What the buddy allocator does once the links are forgotten: `FreeLists` gives the free areas of
each order as a list, and `split`, `splitDown`, `take`, `free` act on these lists.  The blocks that
are free or outstanding tile a fixed region (`Tiling`), and every operation keeps the tiling.

* `Tiling.replace`    blocks may be exchanged for others with the same union;
* `Layout`            free areas and outstanding blocks tile the region, nothing is listed twice;
* `Layout.split`, `Layout.take`, `Layout.put`, `Layout.merge`   the four elementary moves;
* `Layout.splitDown`, `Layout.free`   the two loops.
-/

namespace FakeKernel
open Dyadic

namespace Page

def size (p : Page) : Nat := pageSize <<< p.order
def bytes (p : Page) : Set Nat := Set.Ico p.address (p.address + p.size)

end Page

theorem pageSize_shiftLeft (k : Nat) : pageSize <<< k = 2 ^ (12 + k) := by
  rw [Nat.shiftLeft_eq, pow_add]
  rfl

theorem Page.bytes_eq (p : Page) : p.bytes = cell (12 + p.order) p.address := by
  unfold Page.bytes Page.size cell
  rw [pageSize_shiftLeft]

/-- the memory that page_allocator_init puts on the lists: one area of 1M and one of 2M -/
def usable : Set Nat := Set.Ico (kernPhyBase + 2 ^ 20) (kernPhyBase + 2 ^ 22)

/-! ## tilings -/

structure Tiling (S : Set Page) : Prop where
  order_lt : ∀ {p}, p ∈ S → p.order < maxOrder
  aligned : ∀ {p}, p ∈ S → 2 ^ (12 + p.order) ∣ p.address
  disjoint : ∀ {p q}, p ∈ S → q ∈ S → p ≠ q → Disjoint p.bytes q.bytes
  union : ∀ x, x ∈ usable ↔ ∃ p ∈ S, x ∈ p.bytes

namespace Tiling
variable {S T U : Set Page} {p q : Page}

theorem base_mem (p : Page) : p.address ∈ p.bytes := by
  rw [Page.bytes_eq]
  exact base_mem_cell _ _

theorem eq_of_mem (h : Tiling S) (hp : p ∈ S) (hq : q ∈ S) {x : Nat} (hx : x ∈ p.bytes)
    (hx' : x ∈ q.bytes) : p = q := by
  by_contra hne
  exact Set.disjoint_left.mp (h.disjoint hp hq hne) hx hx'

/-- **Exchange.**  Some blocks may be replaced by others with the same union. -/
theorem replace (h : Tiling S) (hT : T ⊆ S) (hlt : ∀ p ∈ U, p.order < maxOrder)
    (hal : ∀ p ∈ U, 2 ^ (12 + p.order) ∣ p.address)
    (hdis : ∀ p ∈ U, ∀ q ∈ U, p ≠ q → Disjoint p.bytes q.bytes)
    (hun : ∀ x, (∃ p ∈ T, x ∈ p.bytes) ↔ ∃ p ∈ U, x ∈ p.bytes) : Tiling (S \ T ∪ U) := by
  have apart : ∀ p ∈ S \ T, ∀ q ∈ U, Disjoint p.bytes q.bytes := by
    intro p hp q hq
    rw [Set.disjoint_left]
    intro x hx hx'
    obtain ⟨t, ht, hxt⟩ := (hun x).mpr ⟨q, hq, hx'⟩
    have e : p = t := h.eq_of_mem hp.1 (hT ht) hx hxt
    exact hp.2 (e ▸ ht)
  refine ⟨?_, ?_, ?_, ?_⟩
  · rintro p (hp | hp)
    · exact h.order_lt hp.1
    · exact hlt p hp
  · rintro p (hp | hp)
    · exact h.aligned hp.1
    · exact hal p hp
  · rintro p q (hp | hp) (hq | hq) hne
    · exact h.disjoint hp.1 hq.1 hne
    · exact apart p hp q hq
    · exact (apart q hq p hp).symm
    · exact hdis p hp q hq hne
  · intro x
    rw [h.union x]
    by_cases hx : ∃ p ∈ T, x ∈ p.bytes
    · have hU := (hun x).mp hx
      obtain ⟨t, ht, hxt⟩ := hx
      obtain ⟨u, hu, hxu⟩ := hU
      exact ⟨fun _ => ⟨u, Or.inr hu, hxu⟩, fun _ => ⟨t, hT ht, hxt⟩⟩
    · constructor
      · rintro ⟨p, hp, hxp⟩
        exact ⟨p, Or.inl ⟨hp, fun hpt => hx ⟨p, hpt, hxp⟩⟩, hxp⟩
      · rintro ⟨p, hp | hp, hxp⟩
        · exact ⟨p, hp.1, hxp⟩
        · exact absurd ((hun x).mpr ⟨p, hp, hxp⟩) hx

end Tiling

def Page.lower (p : Page) : Page := ⟨p.address, p.order - 1⟩
def Page.upper (p : Page) : Page := ⟨p.address + 2 ^ (12 + (p.order - 1)), p.order - 1⟩
def Page.buddy (p : Page) : Page := ⟨Dyadic.buddy (12 + p.order) p.address, p.order⟩
def Page.parent (p : Page) : Page := ⟨Dyadic.parent (12 + p.order) p.address, p.order + 1⟩

theorem Page.bytes_halves {p : Page} (h0 : 0 < p.order) (ha : 2 ^ (12 + p.order) ∣ p.address) :
    p.bytes = p.lower.bytes ∪ p.upper.bytes := by
  have e : 12 + p.order = 12 + (p.order - 1) + 1 := by omega
  rw [e] at ha
  rw [p.bytes_eq, p.lower.bytes_eq, p.upper.bytes_eq, e]
  exact cell_succ ha

theorem Page.halves_disjoint (p : Page) : Disjoint p.lower.bytes p.upper.bytes := by
  rw [Page.bytes_eq, Page.bytes_eq, Set.disjoint_left]
  rintro x ⟨_, hx⟩ ⟨hx', _⟩
  change x < p.address + 2 ^ (12 + (p.order - 1)) at hx
  change p.address + 2 ^ (12 + (p.order - 1)) ≤ x at hx'
  exact absurd hx (Nat.not_lt.mpr hx')

theorem Page.bytes_parent {p : Page} (ha : 2 ^ (12 + p.order) ∣ p.address) :
    p.parent.bytes = p.bytes ∪ p.buddy.bytes := by
  rw [Page.bytes_eq, Page.bytes_eq, Page.bytes_eq]
  exact cell_parent ha

theorem Tiling.split {S : Set Page} {p : Page} (h : Tiling S) (hp : p ∈ S) (h0 : 0 < p.order) :
    Tiling (S \ {p} ∪ {p.lower, p.upper}) := by
  have ha := h.aligned hp
  have hlt := h.order_lt hp
  have hd : 2 ^ (12 + (p.order - 1)) ∣ p.address :=
    Nat.dvd_trans (pow_dvd_pow 2 (by omega)) ha
  refine h.replace (Set.singleton_subset_iff.mpr hp) ?_ ?_ ?_ ?_
  · rintro q (rfl | rfl)
    · show p.order - 1 < maxOrder
      omega
    · show p.order - 1 < maxOrder
      omega
  · rintro q (rfl | rfl)
    · exact hd
    · exact (Nat.dvd_add_right hd).mpr (Nat.dvd_refl _)
  · rintro q (rfl | rfl) r (rfl | rfl) hne
    · exact absurd rfl hne
    · exact p.halves_disjoint
    · exact p.halves_disjoint.symm
    · exact absurd rfl hne
  · intro x
    simp only [Set.mem_singleton_iff, exists_eq_left, Set.mem_insert_iff, exists_eq_or_imp]
    rw [Page.bytes_halves h0 ha]
    rfl

theorem Tiling.merge {S : Set Page} {p : Page} (h : Tiling S) (hp : p ∈ S) (hb : p.buddy ∈ S)
    (htop : p.order + 1 < maxOrder) : Tiling (S \ {p, p.buddy} ∪ {p.parent}) := by
  have ha := h.aligned hp
  refine h.replace ?_ ?_ ?_ ?_ ?_
  · rintro q (rfl | rfl)
    · exact hp
    · exact hb
  · rintro q rfl
    exact htop
  · rintro q rfl
    exact Dyadic.dvd_parent ha
  · rintro q rfl r rfl hne
    exact absurd rfl hne
  · intro x
    simp only [Set.mem_singleton_iff, exists_eq_left, Set.mem_insert_iff, exists_eq_or_imp]
    rw [Page.bytes_parent ha]
    rfl

/-! ## free lists -/

abbrev FreeLists := Nat → List Nat

/-- the blocks that are on a list or outstanding -/
def tiles (F : FreeLists) (out : List Page) : Set Page := {p | p.address ∈ F p.order ∨ p ∈ out}

structure Layout (F : FreeLists) (out : List Page) : Prop where
  tiling : Tiling (tiles F out)
  nodup : ∀ k, (F k).Nodup
  outNodup : out.Nodup
  apart : ∀ p ∈ out, p.address ∉ F p.order

namespace FreeLists

/-- the bytes of the free areas -/
def bytes (F : FreeLists) : Set Nat := {x | ∃ k, ∃ b ∈ F k, x ∈ Page.bytes ⟨b, k⟩}

/-- the area `a` at the head of the list of order `k + 1` becomes two areas of order `k` -/
def split (k : Nat) (F : FreeLists) : FreeLists :=
  match F (k + 1) with
  | [] => F
  | a :: rest =>
    Function.update (Function.update F (k + 1) rest) k (a :: (a + 2 ^ (12 + k)) :: F k)

theorem split_eq {k : Nat} {F : FreeLists} {a : Nat} {rest : List Nat}
    (hk : F (k + 1) = a :: rest) :
    split k F = Function.update (Function.update F (k + 1) rest) k (a :: (a + 2 ^ (12 + k)) :: F k) := by
  unfold split
  rw [hk]

def splitDown : Nat → Nat → FreeLists → FreeLists
  | 0, _, F => F
  | n + 1, k, F => splitDown n k (split (k + n) F)

/-- the area `a`, `n` orders above `order`, is the one an allocation of `order` takes apart -/
structure Source (F : FreeLists) (order n a : Nat) (rest : List Nat) : Prop where
  lt : order + n < maxOrder
  head : F (order + n) = a :: rest
  empty : ∀ j, order ≤ j → j < order + n → F j = []

def take (k : Nat) (F : FreeLists) : FreeLists := Function.update F k (F k).tail

def put (p : Page) (F : FreeLists) : FreeLists :=
  Function.update F p.order (p.address :: F p.order)

def free : Nat → Page → FreeLists → FreeLists
  | 0, _, F => F
  | n + 1, p, F =>
    if p.order = maxOrder - 1 then put p F
    else if p.buddy.address ∈ F p.order then
      free n p.parent (Function.update F p.order ((F p.order).erase p.buddy.address))
    else put p F

end FreeLists

namespace Layout
variable {F : FreeLists} {out : List Page}

theorem mem_tiles_free {k : Nat} {a : Nat} (h : a ∈ F k) : (⟨a, k⟩ : Page) ∈ tiles F out :=
  Or.inl h

theorem order_lt (L : Layout F out) {k : Nat} {a : Nat} (h : a ∈ F k) : k < maxOrder :=
  L.tiling.order_lt (mem_tiles_free h)

theorem aligned (L : Layout F out) {k : Nat} {a : Nat} (h : a ∈ F k) : 2 ^ (12 + k) ∣ a :=
  L.tiling.aligned (mem_tiles_free h)

/-- an area is on one list only -/
theorem order_unique (L : Layout F out) {k j : Nat} {a : Nat} (h : a ∈ F k) (h' : a ∈ F j) :
    k = j :=
  congrArg Page.order (L.tiling.eq_of_mem (mem_tiles_free h) (mem_tiles_free h')
    (Tiling.base_mem _) (Tiling.base_mem ⟨a, j⟩))

theorem bytes_usable (L : Layout F out) {p : Page} (hp : p ∈ tiles F out) : p.bytes ⊆ usable :=
  fun x hx => (L.tiling.union x).mpr ⟨p, hp, hx⟩

theorem disjoint_out (L : Layout F out) {k : Nat} {a : Nat} {p : Page} (h : a ∈ F k)
    (hp : p ∈ out) : Disjoint (Page.bytes ⟨a, k⟩) p.bytes := by
  refine L.tiling.disjoint (mem_tiles_free h) (Or.inr hp) ?_
  rintro rfl
  exact L.apart _ hp h

/-- a byte of an outstanding block, or outside the region, is in no free area -/
theorem not_free (L : Layout F out) {x : Nat} (hx : x ∉ usable ∨ ∃ p ∈ out, x ∈ p.bytes) :
    x ∉ F.bytes := by
  intro ⟨k, b, hb, hxb⟩
  cases hx with
  | inl h => exact h (L.bytes_usable (mem_tiles_free hb) hxb)
  | inr h =>
    obtain ⟨p, hp, hxp⟩ := h
    exact Set.disjoint_left.mp (L.disjoint_out hb hp) hxb hxp

/-! ### the four elementary moves -/

/-- a free area becomes outstanding -/
theorem take (L : Layout F out) {k : Nat} {a : Nat} {rest : List Nat} (hk : F k = a :: rest) :
    Layout (FreeLists.take k F) (⟨a, k⟩ :: out) := by
  have hnd := L.nodup k
  rw [hk] at hnd
  have hmem : ∀ p : Page, p.address ∈ FreeLists.take k F p.order ↔
      p.address ∈ F p.order ∧ p ≠ ⟨a, k⟩ := by
    intro p
    obtain ⟨b, j⟩ := p
    unfold FreeLists.take
    by_cases hj : j = k
    · subst hj
      show b ∈ Function.update F j (F j).tail j ↔ b ∈ F j ∧ _
      rw [Function.update_self, hk, List.tail_cons, List.mem_cons]
      constructor
      · intro hb
        refine ⟨Or.inr hb, fun e => ?_⟩
        obtain rfl : b = a := congrArg Page.address e
        exact (List.nodup_cons.mp hnd).1 hb
      · rintro ⟨rfl | hb, hne⟩
        · exact absurd rfl hne
        · exact hb
    · show b ∈ Function.update F k (F k).tail j ↔ b ∈ F j ∧ _
      rw [Function.update_of_ne hj]
      exact ⟨fun hb => ⟨hb, fun e => hj (congrArg Page.order e)⟩, And.left⟩
  have hin : a ∈ F k := hk ▸ List.mem_cons_self
  have htiles : tiles (FreeLists.take k F) (⟨a, k⟩ :: out) = tiles F out := by
    ext p
    show p.address ∈ FreeLists.take k F p.order ∨ p ∈ (⟨a, k⟩ : Page) :: out
      ↔ p.address ∈ F p.order ∨ p ∈ out
    rw [hmem, List.mem_cons]
    by_cases hp : p = ⟨a, k⟩
    · subst hp
      simp [hin]
    · simp [hp]
  refine ⟨htiles ▸ L.tiling, ?_, ?_, ?_⟩
  · intro j
    unfold FreeLists.take
    by_cases hj : j = k
    · subst hj
      rw [Function.update_self]
      exact (L.nodup j).tail
    · rw [Function.update_of_ne hj]
      exact L.nodup j
  · exact List.nodup_cons.mpr ⟨fun hp => L.apart _ hp hin, L.outNodup⟩
  · intro p hp hpF
    have hpF' := (hmem p).mp hpF
    rcases List.mem_cons.mp hp with rfl | hp
    · exact hpF'.2 rfl
    · exact L.apart p hp hpF'.1

theorem mem_put {p q : Page} :
    q.address ∈ FreeLists.put p F q.order ↔ q = p ∨ q.address ∈ F q.order := by
  obtain ⟨a, k⟩ := p
  obtain ⟨b, j⟩ := q
  unfold FreeLists.put
  by_cases hj : j = k
  · subst hj
    simp
  · simp [hj]

/-- an outstanding block is put on its list -/
theorem put (L : Layout F out) {p : Page} (hp : p ∈ out) :
    Layout (FreeLists.put p F) (out.erase p) := by
  have htiles : tiles (FreeLists.put p F) (out.erase p) = tiles F out := by
    ext q
    show q.address ∈ FreeLists.put p F q.order ∨ q ∈ out.erase p
      ↔ q.address ∈ F q.order ∨ q ∈ out
    rw [mem_put, L.outNodup.mem_erase_iff]
    by_cases hq : q = p
    · subst hq
      simp [hp]
    · simp [hq]
  refine ⟨htiles ▸ L.tiling, ?_, L.outNodup.erase p, ?_⟩
  · intro j
    unfold FreeLists.put
    by_cases hj : j = p.order
    · subst hj
      rw [Function.update_self]
      exact List.nodup_cons.mpr ⟨L.apart p hp, L.nodup _⟩
    · rw [Function.update_of_ne hj]
      exact L.nodup j
  · intro q hq hqF
    obtain ⟨hne, hq⟩ := L.outNodup.mem_erase_iff.mp hq
    rcases mem_put.mp hqF with rfl | hqF
    · exact hne rfl
    · exact L.apart q hq hqF

theorem mem_split {k : Nat} {a : Nat} {rest : List Nat} (L : Layout F out)
    (hk : F (k + 1) = a :: rest) {q : Page} :
    q.address ∈ FreeLists.split k F q.order ↔
      (q.address ∈ F q.order ∧ q ≠ ⟨a, k + 1⟩) ∨ q = ⟨a, k⟩ ∨ q = ⟨a + 2 ^ (12 + k), k⟩ := by
  have hnd := L.nodup (k + 1)
  rw [hk] at hnd
  obtain ⟨b, j⟩ := q
  rw [FreeLists.split_eq hk]
  by_cases hj : j = k
  · subst hj
    simp only [Function.update_self, List.mem_cons, Page.mk.injEq, and_true, ne_eq,
      Nat.ne_of_lt (Nat.lt_succ_self j), and_false, not_false_eq_true]
    tauto
  · by_cases hj' : j = k + 1
    · subst hj'
      simp only [Function.update_of_ne hj, Function.update_self, hk, List.mem_cons, ne_eq,
        Page.mk.injEq, hj, and_true, and_false, or_false]
      constructor
      · intro hb
        refine ⟨Or.inr hb, ?_⟩
        rintro rfl
        exact (List.nodup_cons.mp hnd).1 hb
      · rintro ⟨h | h, hne⟩
        · exact absurd h hne
        · exact h
    · simp [hj, hj']

/-- the head of a list becomes two areas of the order below -/
theorem split (L : Layout F out) {k : Nat} {a : Nat} {rest : List Nat}
    (hk : F (k + 1) = a :: rest) : Layout (FreeLists.split k F) out := by
  have hin : a ∈ F (k + 1) := hk ▸ List.mem_cons_self
  have hup : a + 2 ^ (12 + k) ∈ Page.bytes ⟨a, k + 1⟩ := by
    have hpow : 2 ^ (12 + (k + 1)) = 2 ^ (12 + k) * 2 := pow_succ 2 (12 + k)
    have := Nat.two_pow_pos (12 + k)
    rw [Page.bytes_eq]
    refine ⟨Nat.le_add_right a _, ?_⟩
    show a + 2 ^ (12 + k) < a + 2 ^ (12 + (k + 1))
    rw [hpow]
    omega
  -- neither half is listed or outstanding before the split
  have fresh : ∀ q ∈ tiles F out, q.address ∈ Page.bytes ⟨a, k + 1⟩ → q.order = k → False := by
    intro q hq hqa hqk
    have e := L.tiling.eq_of_mem hq (mem_tiles_free hin) (Tiling.base_mem q) hqa
    rw [e] at hqk
    exact absurd hqk (Nat.succ_ne_self k)
  have hlowF : a ∉ F k := fun h => fresh ⟨a, k⟩ (Or.inl h) (Tiling.base_mem ⟨a, k + 1⟩) rfl
  have hupF : a + 2 ^ (12 + k) ∉ F k := fun h => fresh ⟨_, k⟩ (Or.inl h) hup rfl
  have htiles : tiles (FreeLists.split k F) out
      = tiles F out \ {⟨a, k + 1⟩} ∪ {⟨a, k⟩, ⟨a + 2 ^ (12 + k), k⟩} := by
    ext q
    show q.address ∈ FreeLists.split k F q.order ∨ q ∈ out
      ↔ ((q.address ∈ F q.order ∨ q ∈ out) ∧ q ≠ ⟨a, k + 1⟩) ∨ q = ⟨a, k⟩ ∨ q = ⟨_, k⟩
    rw [L.mem_split hk]
    have hout : q ∈ out → q ≠ ⟨a, k + 1⟩ := by
      rintro hq rfl
      exact L.apart _ hq hin
    tauto
  refine ⟨?_, ?_, L.outNodup, ?_⟩
  · rw [htiles]
    exact L.tiling.split (mem_tiles_free hin) (Nat.succ_pos k)
  · intro j
    have hnd := L.nodup (k + 1)
    rw [hk] at hnd
    rw [FreeLists.split_eq hk]
    by_cases hj : j = k
    · subst hj
      have hpos := Nat.two_pow_pos (12 + j)
      rw [Function.update_self]
      refine List.nodup_cons.mpr ⟨?_, List.nodup_cons.mpr ⟨hupF, L.nodup j⟩⟩
      rw [List.mem_cons]
      rintro (h | h)
      · omega
      · exact hlowF h
    · rw [Function.update_of_ne hj]
      by_cases hj' : j = k + 1
      · subst hj'
        rw [Function.update_self]
        exact hnd.tail
      · rw [Function.update_of_ne hj']
        exact L.nodup j
  · intro q hq hqF
    rcases (L.mem_split hk).mp hqF with ⟨h, _⟩ | rfl | rfl
    · exact L.apart q hq h
    · exact fresh _ (Or.inr hq) (Tiling.base_mem ⟨a, k + 1⟩) rfl
    · exact fresh _ (Or.inr hq) hup rfl

/-- an outstanding block swallows its free buddy -/
theorem merge (L : Layout F out) {p : Page} (hp : p ∈ out) (hb : p.buddy.address ∈ F p.order)
    (htop : p.order + 1 < maxOrder) :
    Layout (Function.update F p.order ((F p.order).erase p.buddy.address))
      (p.parent :: out.erase p) := by
  have ha := L.tiling.aligned (Or.inr hp)
  have hsub := Page.bytes_parent ha
  have hmem : ∀ q : Page,
      q.address ∈ Function.update F p.order ((F p.order).erase p.buddy.address) q.order ↔
        q.address ∈ F q.order ∧ q ≠ p.buddy := by
    rintro ⟨b, j⟩
    by_cases hj : j = p.order
    · subst hj
      rw [Function.update_self, (L.nodup p.order).mem_erase_iff]
      show b ≠ p.buddy.address ∧ b ∈ F p.order ↔ b ∈ F p.order ∧ _
      rw [and_comm, ne_eq, ne_eq, Page.mk.injEq]
      simp [Page.buddy]
    · rw [Function.update_of_ne hj]
      refine ⟨fun h => ⟨h, ?_⟩, And.left⟩
      intro e
      exact hj (congrArg Page.order e)
  have fresh : p.parent ∉ tiles F out := by
    intro h
    have hx : p.address ∈ p.parent.bytes := hsub ▸ Or.inl (Tiling.base_mem p)
    have e := L.tiling.eq_of_mem h (Or.inr hp) hx (Tiling.base_mem p)
    have := congrArg Page.order e
    exact absurd this (Nat.succ_ne_self _)
  have hbout : p.buddy ∉ out := fun h => L.apart _ h hb
  have htiles : tiles (Function.update F p.order ((F p.order).erase p.buddy.address))
      (p.parent :: out.erase p) = tiles F out \ {p, p.buddy} ∪ {p.parent} := by
    ext q
    show q.address ∈ Function.update F p.order _ q.order ∨ q ∈ p.parent :: out.erase p
      ↔ ((q.address ∈ F q.order ∨ q ∈ out) ∧ ¬ (q = p ∨ q = p.buddy)) ∨ q = p.parent
    rw [hmem, List.mem_cons, L.outNodup.mem_erase_iff]
    have h1 : q.address ∈ F q.order → q ≠ p := by
      rintro h rfl
      exact L.apart _ hp h
    have h2 : q ∈ out → q ≠ p.buddy := by
      rintro h rfl
      exact hbout h
    tauto
  refine ⟨?_, ?_, ?_, ?_⟩
  · rw [htiles]
    exact L.tiling.merge (Or.inr hp) (Or.inl hb) htop
  · intro j
    by_cases hj : j = p.order
    · subst hj
      rw [Function.update_self]
      exact (L.nodup _).erase _
    · rw [Function.update_of_ne hj]
      exact L.nodup j
  · refine List.nodup_cons.mpr ⟨fun h => ?_, L.outNodup.erase p⟩
    exact fresh (Or.inr (List.mem_of_mem_erase h))
  · intro q hq hqF
    have hqF' := ((hmem q).mp hqF).1
    rcases List.mem_cons.mp hq with rfl | hq
    · exact fresh (Or.inl hqF')
    · exact L.apart q (List.mem_of_mem_erase hq) hqF'

/-! ### the two operations -/

theorem splitDown {n k : Nat} {a : Nat} {rest : List Nat} (L : Layout F out)
    (hk : F (k + n) = a :: rest) :
    Layout (FreeLists.splitDown n k F) out ∧
      ∃ rest', FreeLists.splitDown n k F k = a :: rest' := by
  induction n generalizing F rest with
  | zero => exact ⟨L, rest, hk⟩
  | succ n ih =>
    have hhead : FreeLists.split (k + n) F (k + n)
        = a :: (a + 2 ^ (12 + (k + n))) :: F (k + n) := by
      rw [← Nat.add_assoc] at hk
      rw [FreeLists.split_eq hk]
      exact Function.update_self ..
    exact ih (L.split hk) hhead

theorem free {n : Nat} {p : Page} (L : Layout F out) (hp : p ∈ out) (hn : maxOrder ≤ p.order + n) :
    Layout (FreeLists.free n p F) (out.erase p) := by
  induction n generalizing F out p with
  | zero =>
    have := L.tiling.order_lt (Or.inr hp)
    omega
  | succ n ih =>
    unfold FreeLists.free
    split
    · exact L.put hp
    · rename_i htop
      have hlt := L.tiling.order_lt (Or.inr hp)
      split
      · rename_i hb
        have h := ih (L.merge hp hb (by omega)) List.mem_cons_self
          (by show maxOrder ≤ p.order + 1 + n; omega)
        rwa [List.erase_cons_head] at h
      · exact L.put hp

end Layout

end FakeKernel
