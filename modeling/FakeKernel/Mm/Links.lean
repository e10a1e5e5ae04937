import FakeKernel.Lib.Chain
import FakeKernel.Mm.FreeLists
import Mathlib.Data.Finset.Card
import Mathlib.Order.Interval.Finset.Nat

/-!
# The links in memory represent the free lists

`Linked s F`: the chain of every order, read from memory, is the list `F` of that order.  Each
function of the allocator acts on the memory as its counterpart acts on the lists, and writes only
inside the areas it takes apart or puts together.

* `splitArea_spec`, `splitDown_spec`, `allocPages_spec`;
* `findBuddy_found`, `unlink_spec`, `put_spec`, `freePagesAt_spec`;
* `pageAllocatorInit_linked`.
-/

namespace FakeKernel
open Bytes Dyadic

def Linked (s : Buddy) (F : FreeLists) : Prop :=
  ∀ k, k < maxOrder → Chain (link s.mem) 0 (s.buddyPages k) (F k)

theorem link_setLink_self {m : Mem} {p v : Nat} (hv : v < wordCount) : link (setLink m p v) p = v :=
  load_store_lt hv

theorem link_setLink_of_ne {m : Mem} {p v a : Nat} (hp : pageSize ∣ p) (ha : pageSize ∣ a)
    (hne : a ≠ p) : link (setLink m p v) a = link m a := by
  apply load_store_disj
  obtain ⟨i, rfl⟩ := hp
  obtain ⟨j, rfl⟩ := ha
  unfold pageSize at *
  omega

theorem setLink_apply_out {m : Mem} {p v x : Nat} (k : Nat) (hx : x ∉ Page.bytes ⟨p, k⟩) :
    setLink m p v x = m x := by
  apply store_apply_out
  have hsize : 4096 ≤ Page.size ⟨p, k⟩ := by
    unfold Page.size
    rw [pageSize_shiftLeft, pow_add]
    exact Nat.le_mul_of_pos_right _ (Nat.two_pow_pos k)
  by_contra h
  have hle : p ≤ x := by omega
  have hlt : x < p + Page.size ⟨p, k⟩ := by omega
  exact hx ⟨hle, hlt⟩

theorem pageSize_dvd_two_pow (k : Nat) : pageSize ∣ 2 ^ (12 + k) := by
  rw [pow_add]
  exact Nat.dvd_mul_right _ _

namespace Layout
variable {F : FreeLists} {out : List Page} {p : Page} {a k : Nat}

theorem usable_bounds {x : Nat} (h : x ∈ usable) : 0 < x ∧ x < wordCount := by
  have h1 := h.1
  have h2 := h.2
  unfold kernPhyBase kernBase splitAddr at h1 h2
  unfold wordCount
  omega

theorem tile_bounds (L : Layout F out) (h : p ∈ tiles F out) :
    0 < p.address ∧ p.address < wordCount :=
  usable_bounds (L.bytes_usable h (Tiling.base_mem p))

theorem tile_page (L : Layout F out) (h : p ∈ tiles F out) : pageSize ∣ p.address :=
  Nat.dvd_trans (pageSize_dvd_two_pow _) (L.tiling.aligned h)

theorem free_ne_zero (L : Layout F out) (h : a ∈ F k) : a ≠ 0 :=
  Nat.pos_iff_ne_zero.mp (L.tile_bounds (mem_tiles_free h)).1

theorem free_lt (L : Layout F out) (h : a ∈ F k) : a < wordCount :=
  (L.tile_bounds (mem_tiles_free h)).2

theorem free_page (L : Layout F out) (h : a ∈ F k) : pageSize ∣ a :=
  L.tile_page (mem_tiles_free h)

/-- a list is shorter than the number of addresses -/
theorem length_lt (L : Layout F out) (k : Nat) : (F k).length < wordCount := by
  have hsub : (F k).toFinset ⊆ Finset.Ico 1 wordCount := by
    intro a ha
    have h := List.mem_toFinset.mp ha
    exact Finset.mem_Ico.mpr ⟨Nat.pos_of_ne_zero (L.free_ne_zero h), L.free_lt h⟩
  have hcard := Finset.card_le_card hsub
  rw [List.toFinset_card_of_nodup (L.nodup k), Nat.card_Ico] at hcard
  have : 0 < wordCount := Nat.two_pow_pos 64
  omega

end Layout

namespace Linked
variable {F : FreeLists} {out : List Page} {s : Buddy} {k a : Nat} {rest : List Nat}

theorem head_eq_zero_iff (hs : Linked s F) (hk : k < maxOrder) : s.buddyPages k = 0 ↔ F k = [] := by
  have h := hs k hk
  constructor
  · intro h0
    rw [h0] at h
    exact h.of_null
  · intro hnil
    rw [hnil] at h
    exact h

theorem of_cons (hs : Linked s F) (hk : k < maxOrder) (hF : F k = a :: rest) :
    s.buddyPages k = a ∧ a ≠ 0 ∧ Chain (link s.mem) 0 (link s.mem a) rest := by
  have h := hs k hk
  rwa [hF] at h

/-! ## split_area -/

theorem splitArea_spec (hs : Linked s F) (L : Layout F out) (hF : F (k + 1) = a :: rest) :
    ∃ s', s.splitArea (k + 1) = .ok s' ∧ Linked s' (FreeLists.split k F) ∧
      ∀ x, x ∉ Page.bytes ⟨a, k + 1⟩ → s'.mem x = s.mem x := by
  have hin : a ∈ F (k + 1) := hF ▸ List.mem_cons_self
  have hord := L.order_lt hin
  have L' := L.split hF
  obtain ⟨hhead, hne, htail⟩ := hs.of_cons hord hF
  -- the upper half
  obtain ⟨a2, ha2⟩ : ∃ a2, a2 = a + 2 ^ (12 + k) := ⟨_, rfl⟩
  have hsplit : FreeLists.split k F k = a :: a2 :: F k := by
    rw [FreeLists.split_eq hF, Function.update_self, ha2]
  have hin2 : a2 ∈ FreeLists.split k F k := hsplit ▸ List.mem_cons_of_mem _ List.mem_cons_self
  have hne2 : a2 ≠ 0 := L'.free_ne_zero hin2
  have haa2 : a ≠ a2 := by
    have := Nat.two_pow_pos (12 + k)
    omega
  have hpa := L.free_page hin
  have hpa2 := L'.free_page hin2
  have hlt2 := L'.free_lt hin2
  obtain ⟨m, hm⟩ : ∃ m, m = setLink (setLink s.mem a a2) a2 (s.buddyPages k) := ⟨_, rfl⟩
  have hlinka : link m a = a2 := by
    rw [hm, link_setLink_of_ne hpa2 hpa haa2, link_setLink_self hlt2]
  have hlinka2 : link m a2 = s.buddyPages k := by
    have hlt : s.buddyPages k < wordCount := by
      have h := hs k (by omega)
      cases hFk : F k with
      | nil =>
        rw [hFk] at h
        rw [show s.buddyPages k = 0 from h]
        exact Nat.two_pow_pos 64
      | cons b l =>
        rw [hFk] at h
        rw [h.1]
        exact L.free_lt (hFk ▸ List.mem_cons_self)
    rw [hm, link_setLink_self hlt]
  have hlink : ∀ {j b : Nat}, b ∈ F j → b ≠ a → link m b = link s.mem b := by
    intro j b hb hba
    have hb2 : b ≠ a2 := by
      rintro rfl
      -- the upper half lies inside the area that is split
      have hmem : b ∈ Page.bytes ⟨a, k + 1⟩ := by
        have hpow : 2 ^ (12 + (k + 1)) = 2 ^ (12 + k) * 2 := pow_succ 2 (12 + k)
        have := Nat.two_pow_pos (12 + k)
        rw [Page.bytes_eq]
        refine ⟨?_, ?_⟩
        · show a ≤ b
          omega
        · show b < a + 2 ^ (12 + (k + 1))
          omega
      have e := L.tiling.eq_of_mem (Layout.mem_tiles_free hb) (Layout.mem_tiles_free hin)
        (Tiling.base_mem _) hmem
      exact hba (congrArg Page.address e)
    have hpb := L.free_page hb
    rw [hm, link_setLink_of_ne hpa2 hpb hb2, link_setLink_of_ne hpa hpb hba]
  have hk1 : k ≠ k + 1 := Nat.ne_of_lt (Nat.lt_succ_self k)
  have hrun : s.splitArea (k + 1) = .ok
      { mem := m
        buddyPages := Function.update (Function.update s.buddyPages (k + 1) (link s.mem a)) k a } := by
    unfold Buddy.splitArea
    rw [hhead, if_neg hne]
    simp only [Buddy.setHead, Buddy.setLink, Nat.add_sub_cancel, pageSize_shiftLeft,
      Function.update_of_ne hk1, ← ha2, ← hm]
  refine ⟨_, hrun, ?_, ?_⟩
  · intro j hj
    rw [FreeLists.split_eq hF]
    show Chain (link m) 0
      (Function.update (Function.update s.buddyPages (k + 1) (link s.mem a)) k a j) _
    by_cases hjk : j = k
    · subst hjk
      rw [Function.update_self, Function.update_self, ← ha2]
      refine ⟨rfl, hne, hlinka, hne2, ?_⟩
      rw [hlinka2]
      refine (hs j hj).congr fun b hb => hlink hb ?_
      rintro rfl
      exact absurd (L.order_unique hb hin) hk1
    · rw [Function.update_of_ne hjk, Function.update_of_ne hjk]
      by_cases hjk1 : j = k + 1
      · subst hjk1
        rw [Function.update_self, Function.update_self]
        refine htail.congr fun b hb => hlink (hF ▸ List.mem_cons_of_mem a hb) ?_
        rintro rfl
        have hnd := L.nodup (k + 1)
        rw [hF] at hnd
        exact (List.nodup_cons.mp hnd).1 hb
      · rw [Function.update_of_ne hjk1, Function.update_of_ne hjk1]
        refine (hs j hj).congr fun b hb => hlink hb ?_
        rintro rfl
        exact hjk1 (L.order_unique hb hin)
  · intro x hx
    have hhalves := Page.bytes_halves (p := ⟨a, k + 1⟩) (Nat.succ_pos k) (L.aligned hin)
    rw [hhalves] at hx
    show m x = s.mem x
    rw [hm, setLink_apply_out k (fun h => hx (Or.inr (by subst ha2; exact h))),
      setLink_apply_out k (fun h => hx (Or.inl h))]

theorem splitDown_spec {n : Nat} (hs : Linked s F) (L : Layout F out) (hF : F (k + n) = a :: rest) :
    ∃ s', s.splitDown n k = .ok s' ∧ Linked s' (FreeLists.splitDown n k F) ∧
      ∀ x, x ∉ Page.bytes ⟨a, k + n⟩ → s'.mem x = s.mem x := by
  induction n generalizing s F rest with
  | zero => exact ⟨s, rfl, hs, fun x _ => rfl⟩
  | succ n ih =>
    rw [← Nat.add_assoc] at hF
    have hin : a ∈ F (k + n + 1) := hF ▸ List.mem_cons_self
    obtain ⟨s₁, hrun₁, hs₁, hmem₁⟩ := hs.splitArea_spec L hF
    have hhead : FreeLists.split (k + n) F (k + n) = a :: (a + 2 ^ (12 + (k + n))) :: F (k + n) := by
      rw [FreeLists.split_eq hF, Function.update_self]
    obtain ⟨s', hrun, hs', hmem⟩ := ih hs₁ (L.split hF) hhead
    refine ⟨s', ?_, hs', fun x hx => ?_⟩
    · unfold Buddy.splitDown
      rw [← Nat.add_assoc, hrun₁, Res.ok_bind, hrun]
    · rw [← Nat.add_assoc] at hx
      have hhalves := Page.bytes_halves (p := ⟨a, k + n + 1⟩) (Nat.succ_pos _) (L.aligned hin)
      rw [hmem x (fun h => hx (hhalves ▸ Or.inl h)), hmem₁ x hx]

/-! ## alloc_pages -/

theorem promotedOrder_spec (s : Buddy) {n k : Nat} (hk : k ≤ maxOrder) (hn : maxOrder ≤ k + n) :
    k ≤ s.promotedOrder n k ∧ s.promotedOrder n k ≤ maxOrder ∧
      (∀ j, k ≤ j → j < s.promotedOrder n k → s.buddyPages j = 0) ∧
      (s.promotedOrder n k < maxOrder → s.buddyPages (s.promotedOrder n k) ≠ 0) := by
  induction n generalizing k with
  | zero =>
    unfold Buddy.promotedOrder
    exact ⟨Nat.le_refl k, hk, fun j h1 h2 => absurd h2 (Nat.not_lt.mpr h1), fun h => by omega⟩
  | succ n ih =>
    unfold Buddy.promotedOrder
    split
    · rename_i h
      obtain ⟨h1, h2, h3, h4⟩ := ih (k := k + 1) h.1 (by omega)
      refine ⟨by omega, h2, fun j hj hj' => ?_, h4⟩
      rcases Nat.eq_or_lt_of_le hj with rfl | hlt
      · exact h.2
      · exact h3 j hlt hj'
    · rename_i h
      exact ⟨Nat.le_refl k, hk, fun j h1 h2 => absurd h2 (Nat.not_lt.mpr h1),
        fun hlt h0 => h ⟨hlt, h0⟩⟩

theorem take_spec (hs : Linked s F) (hF : F k = a :: rest) :
    Linked (s.setHead k (link s.mem a)) (FreeLists.take k F) := by
  intro j hj
  show Chain (link s.mem) 0 (Function.update s.buddyPages k (link s.mem a) j)
    (Function.update F k (F k).tail j)
  by_cases hjk : j = k
  · subst hjk
    rw [Function.update_self, Function.update_self, hF]
    exact (hs.of_cons hj hF).2.2
  · rw [Function.update_of_ne hjk, Function.update_of_ne hjk]
    exact hs j hj

/-- alloc_pages takes the head of the list of `order` after splitting down to it, and panics
exactly when all lists from `order` on are empty -/
theorem allocPages_spec (hs : Linked s F) (L : Layout F out) {order : Nat} (ho : order < maxOrder) :
    (∃ n a rest s', F.Source order n a rest ∧ s.allocPages order = .ok (⟨a, order⟩, s') ∧
      Linked s' (FreeLists.take order (FreeLists.splitDown n order F)) ∧
      ∀ x, x ∉ F.bytes → s'.mem x = s.mem x)
    ∨ (s.allocPages order = .error (.panic "out of memory") ∧
      ∀ j, order ≤ j → j < maxOrder → F j = []) := by
  obtain ⟨h1, h2, h3, h4⟩ := promotedOrder_spec s (n := maxOrder) (Nat.le_of_lt ho) (by omega)
  obtain ⟨m, hm⟩ : ∃ m, m = s.promotedOrder maxOrder order := ⟨_, rfl⟩
  rw [← hm] at h1 h2 h3 h4
  have hnil : ∀ j, order ≤ j → j < m → F j = [] := fun j hj hjm =>
    (hs.head_eq_zero_iff (Nat.lt_of_lt_of_le hjm h2)).mp (h3 j hj hjm)
  have hbad : ¬ maxOrder ≤ order := Nat.not_le.mpr ho
  rcases Nat.lt_or_ge m maxOrder with hlt | hge
  · left
    cases hFm : F m with
    | nil => exact absurd ((hs.head_eq_zero_iff hlt).mpr hFm) (h4 hlt)
    | cons a rest =>
      obtain ⟨n, rfl⟩ := Nat.exists_eq_add_of_le h1
      have hin : a ∈ F (order + n) := hFm ▸ List.mem_cons_self
      obtain ⟨s₁, hrun, hs₁, hmem⟩ := hs.splitDown_spec L hFm
      obtain ⟨_, rest₁, hhead⟩ := L.splitDown hFm
      have hpage := (hs₁.of_cons ho hhead).1
      refine ⟨n, a, rest, s₁.setHead order (link s₁.mem a), ⟨hlt, hFm, hnil⟩, ?_, ?_, ?_⟩
      · unfold Buddy.allocPages
        rw [if_neg hbad, ← hm, if_neg (Nat.ne_of_lt hlt), Nat.add_sub_cancel_left]
        show (s.splitDown n order >>= _) = _
        rw [hrun, Res.ok_bind, hpage]
      · exact hs₁.take_spec hhead
      · exact fun x hx => hmem x fun hxa => hx ⟨_, a, hin, hxa⟩
  · right
    obtain rfl : m = maxOrder := by omega
    refine ⟨?_, hnil⟩
    unfold Buddy.allocPages
    rw [if_neg hbad, ← hm, if_pos rfl]
    rfl

end Linked

/-! ## free_pages -/

/-- the slot that holds the link to the area behind `pre` -/
def slotAfter : Buddy.Slot → List Nat → Buddy.Slot
  | prev, [] => prev
  | _, c :: pre => slotAfter (.area c) pre

theorem slotAfter_concat (prev : Buddy.Slot) (pre : List Nat) (c : Nat) :
    slotAfter prev (pre ++ [c]) = .area c := by
  induction pre generalizing prev with
  | nil => rfl
  | cons b pre ih => exact ih (.area b)

theorem findBuddy_absent {m : Mem} {buddy free : Nat} (prev : Buddy.Slot) (n : Nat) {l : List Nat}
    (h : Chain (link m) 0 free l) (hn : l.length < n) (hl : buddy ∉ l) :
    ∃ slot, Buddy.findBuddy m buddy n prev free = .ok (slot, 0) := by
  induction l generalizing n prev free with
  | nil =>
    obtain rfl : free = 0 := h
    obtain ⟨n, rfl⟩ := Nat.exists_eq_add_of_lt hn
    rw [List.length_nil, Nat.zero_add]
    unfold Buddy.findBuddy
    exact ⟨prev, if_pos rfl⟩
  | cons a l ih =>
    obtain ⟨rfl, hne, htail⟩ := h
    cases n with
    | zero => exact absurd hn (Nat.not_lt_zero _)
    | succ n =>
      have hab : free ≠ buddy := by
        rintro rfl
        exact hl List.mem_cons_self
      unfold Buddy.findBuddy
      rw [if_neg hne, if_neg hab]
      exact ih (.area free) n htail (Nat.lt_of_succ_lt_succ hn) fun hm => hl (List.mem_cons_of_mem _ hm)

theorem findBuddy_found {m : Mem} {buddy free : Nat} (prev : Buddy.Slot) (n : Nat)
    {pre post : List Nat} (h : Chain (link m) 0 free (pre ++ buddy :: post)) (hn : pre.length < n)
    (hl : buddy ∉ pre) :
    Buddy.findBuddy m buddy n prev free = .ok (slotAfter prev pre, buddy) := by
  induction pre generalizing n prev free with
  | nil =>
    obtain ⟨rfl, hne, _⟩ := h
    obtain ⟨n, rfl⟩ := Nat.exists_eq_add_of_lt hn
    rw [List.length_nil, Nat.zero_add]
    unfold Buddy.findBuddy
    rw [if_neg hne, if_pos rfl]
    rfl
  | cons a pre ih =>
    obtain ⟨rfl, hne, htail⟩ := h
    cases n with
    | zero => exact absurd hn (Nat.not_lt_zero _)
    | succ n =>
      have hab : free ≠ buddy := by
        rintro rfl
        exact hl List.mem_cons_self
      unfold Buddy.findBuddy
      rw [if_neg hne, if_neg hab]
      exact ih (.area free) n htail (Nat.lt_of_succ_lt_succ hn) fun hm => hl (List.mem_cons_of_mem _ hm)

namespace Linked
variable {F : FreeLists} {out : List Page} {s : Buddy} {k a : Nat}

/-- `*prev = *free` takes the area `a` off its list and writes to a free area at most -/
theorem unlink_spec (hs : Linked s F) (L : Layout F out) {pre post : List Nat}
    (hF : F k = pre ++ a :: post) (hk : k < maxOrder) :
    Linked (s.setSlot (slotAfter (.head k) pre) (link s.mem a))
        (Function.update F k (pre ++ post)) ∧
      ∀ x, x ∉ F.bytes → (s.setSlot (slotAfter (.head k) pre) (link s.mem a)).mem x = s.mem x := by
  have hchain := hs k hk
  rw [hF] at hchain
  rcases List.eq_nil_or_concat pre with rfl | ⟨pre', c, rfl⟩
  · refine ⟨?_, fun x _ => rfl⟩
    intro j hj
    show Chain (link s.mem) 0 (Function.update s.buddyPages k (link s.mem a) j)
      (Function.update F k ([] ++ post) j)
    by_cases hjk : j = k
    · subst hjk
      rw [Function.update_self, Function.update_self]
      exact hchain.2.2
    · rw [Function.update_of_ne hjk, Function.update_of_ne hjk]
      exact hs j hj
  · rw [List.concat_eq_append] at *
    rw [slotAfter_concat]
    have hc : c ∈ F k := by
      rw [hF]
      simp
    have ha : a ∈ F k := by
      rw [hF]
      simp
    have hlt : link s.mem a < wordCount := load_lt 8 s.mem a
    have hself : link (setLink s.mem c (link s.mem a)) c = link s.mem a := link_setLink_self hlt
    have hother : ∀ {j b : Nat}, b ∈ F j → b ≠ c →
        link (setLink s.mem c (link s.mem a)) b = link s.mem b := fun hb hbc =>
      link_setLink_of_ne (L.free_page hc) (L.free_page hb) hbc
    refine ⟨?_, ?_⟩
    · intro j hj
      show Chain (link (setLink s.mem c (link s.mem a))) 0 (s.buddyPages j)
        (Function.update F k (pre' ++ [c] ++ post) j)
      by_cases hjk : j = k
      · subst hjk
        rw [Function.update_self, List.append_assoc, List.singleton_append]
        rw [List.append_assoc, List.singleton_append] at hchain
        refine hchain.skip hself fun x hx hxc => hother (j := j) ?_ hxc
        rw [hF, List.append_assoc, List.singleton_append]
        rcases List.mem_append.mp hx with h | h
        · exact List.mem_append_left _ h
        · rcases List.mem_cons.mp h with rfl | h
          · exact absurd rfl hxc
          · simp [h]
      · rw [Function.update_of_ne hjk]
        refine (hs j hj).congr fun b hb => hother hb ?_
        rintro rfl
        exact hjk (L.order_unique hb hc)
    · exact fun x hx => setLink_apply_out k fun hxc => hx ⟨k, c, hc, hxc⟩

theorem put_spec (hs : Linked s F) (L : Layout F out) {p : Page} (hp : p ∈ out) :
    Linked ((s.setLink p.address (s.buddyPages p.order)).setHead p.order p.address)
        (FreeLists.put p F) ∧
      ∀ x, x ∉ p.bytes →
        ((s.setLink p.address (s.buddyPages p.order)).setHead p.order p.address).mem x
          = s.mem x := by
  have hpt : p ∈ tiles F out := Or.inr hp
  have hk := L.tiling.order_lt hpt
  have hne : p.address ≠ 0 := Nat.pos_iff_ne_zero.mp (L.tile_bounds hpt).1
  have hnot : ∀ {j b : Nat}, b ∈ F j → b ≠ p.address := by
    rintro j b hb rfl
    have e := L.tiling.eq_of_mem hpt (Layout.mem_tiles_free hb) (Tiling.base_mem p)
      (Tiling.base_mem ⟨p.address, j⟩)
    have hj : p.order = j := congrArg Page.order e
    exact L.apart p hp (hj ▸ hb)
  have hlt : s.buddyPages p.order < wordCount := by
    have h := hs p.order hk
    cases hF : F p.order with
    | nil =>
      rw [hF] at h
      rw [show s.buddyPages p.order = 0 from h]
      exact Nat.two_pow_pos 64
    | cons b l =>
      rw [hF] at h
      rw [h.1]
      exact L.free_lt (hF ▸ List.mem_cons_self)
  have hother : ∀ {j b : Nat}, b ∈ F j →
      link (setLink s.mem p.address (s.buddyPages p.order)) b = link s.mem b := fun hb =>
    link_setLink_of_ne (L.tile_page hpt) (L.free_page hb) (hnot hb)
  refine ⟨?_, ?_⟩
  · intro j hj
    show Chain (link (setLink s.mem p.address (s.buddyPages p.order))) 0
      (Function.update s.buddyPages p.order p.address j)
      (Function.update F p.order (p.address :: F p.order) j)
    by_cases hjk : j = p.order
    · subst hjk
      rw [Function.update_self, Function.update_self]
      exact (hs _ hj).push hne (link_setLink_self hlt) fun b hb => hother hb
    · rw [Function.update_of_ne hjk, Function.update_of_ne hjk]
      exact (hs j hj).congr fun b hb => hother hb
  · exact fun x hx => setLink_apply_out p.order hx

/-- one call of free_pages: the block goes on its list, or its buddy leaves that list and the two are
freed as one -/
theorem freePagesAt_step {p : Page} (hs : Linked s F) (L : Layout F out) (hp : p ∈ out) (n : Nat) :
    (s.freePagesAt (n + 1) p = .ok ((s.setLink p.address (s.buddyPages p.order)).setHead p.order p.address) ∧
      FreeLists.free (n + 1) p F = FreeLists.put p F) ∨
    ∃ pre post, F p.order = pre ++ p.buddy.address :: post ∧ Layout (Function.update F p.order (pre ++ post)) (p.parent :: out.erase p) ∧
      s.freePagesAt (n + 1) p
        = (s.setSlot (slotAfter (.head p.order) pre) (link s.mem p.buddy.address)).freePagesAt n p.parent ∧
      FreeLists.free (n + 1) p F = FreeLists.free n p.parent (Function.update F p.order (pre ++ post)) := by
  have hpt : p ∈ tiles F out := Or.inr hp
  have hlt := L.tiling.order_lt hpt
  have hal := L.tiling.aligned hpt
  rw [Buddy.freePagesAt, FreeLists.free, if_neg (Nat.not_le.mpr hlt)]
  by_cases htop : p.order = maxOrder - 1
  · rw [if_pos htop, if_pos htop]
    exact .inl ⟨rfl, rfl⟩
  rw [if_neg htop, if_neg htop]
  have hbuddy : p.address ^^^ (pageSize <<< p.order) = p.buddy.address := by
    rw [pageSize_shiftLeft]
    rfl
  have hchain := hs p.order hlt
  have hlen := L.length_lt p.order
  simp only [hbuddy]
  by_cases hb : p.buddy.address ∈ F p.order
  · -- the buddy is free: unlink it and free the parent
    right
    rw [if_pos hb]
    obtain ⟨pre, post, hF, hpre⟩ := List.eq_append_cons_of_mem hb
    have herase : (F p.order).erase p.buddy.address = pre ++ post := by
      rw [hF, List.erase_append_right _ hpre, List.erase_cons_head]
    rw [hF] at hchain
    have hfind := findBuddy_found (.head p.order) wordCount hchain
      (by rw [hF, List.length_append] at hlen; omega) hpre
    have hmask : p.address &&& (wordCount - 1 - pageSize <<< p.order) = p.parent.address := by
      rw [pageSize_shiftLeft]
      have hk : 12 + p.order < 64 := by
        unfold maxOrder at hlt
        omega
      exact and_mask_eq_parent (L.tile_bounds hpt).2 hk hal
    have hL' := L.merge hp hb (by omega)
    rw [herase] at hL' ⊢
    refine ⟨pre, post, hF, hL', ?_, rfl⟩
    rw [hfind, Res.ok_bind]
    simp only [hmask, if_true]
    rfl
  · left
    rw [if_neg hb]
    obtain ⟨slot, hfind⟩ := findBuddy_absent (.head p.order) wordCount hchain hlen hb
    have hne : (0 : Nat) ≠ p.buddy.address := by
      intro h0
      have e : p.address = 2 ^ (12 + p.order) := Nat.xor_eq_zero_iff.mp h0.symm
      have hsmall : 2 ^ (12 + p.order) ≤ 2 ^ 21 := Nat.pow_le_pow_right Nat.two_pos (by
        unfold maxOrder at hlt
        omega)
      have hlow := (L.bytes_usable hpt (Tiling.base_mem p)).1
      unfold kernPhyBase kernBase splitAddr at hlow
      omega
    refine ⟨?_, rfl⟩
    rw [hfind, Res.ok_bind]
    simp only [if_neg hne]

/-- free_pages of an outstanding block returns, and acts on the lists as `FreeLists.free` -/
theorem freePagesAt_spec {n : Nat} {p : Page} (hs : Linked s F) (L : Layout F out) (hp : p ∈ out)
    (hn : maxOrder ≤ p.order + n) :
    ∃ s', s.freePagesAt n p = .ok s' ∧ Linked s' (FreeLists.free n p F) ∧
      ∀ x, x ∉ F.bytes → x ∉ p.bytes → s'.mem x = s.mem x := by
  induction n generalizing s F out p with
  | zero =>
    have := L.tiling.order_lt (Or.inr hp)
    omega
  | succ n ih =>
    have hpt : p ∈ tiles F out := Or.inr hp
    rcases hs.freePagesAt_step L hp n with ⟨hrun, hfree⟩ | ⟨pre, post, hF, hL', hrun, hfree⟩
    · obtain ⟨hput, hputmem⟩ := hs.put_spec L hp
      rw [hrun, hfree]
      exact ⟨_, rfl, hput, fun x _ hx => hputmem x hx⟩
    · obtain ⟨hun, hunmem⟩ := hs.unlink_spec L hF (L.tiling.order_lt hpt)
      obtain ⟨s', hrun', hs', hmem⟩ := ih hun hL' List.mem_cons_self
        (by show maxOrder ≤ p.order + 1 + n; omega)
      rw [hrun, hfree]
      refine ⟨s', hrun', hs', fun x hx hxp => ?_⟩
      have hx' : x ∉ FreeLists.bytes (Function.update F p.order (pre ++ post)) := by
        intro ⟨j, c, hc, hxc⟩
        refine hx ⟨j, c, ?_, hxc⟩
        by_cases hj : j = p.order
        · subst hj
          rw [Function.update_self] at hc
          rw [hF]
          rcases List.mem_append.mp hc with hc | hc
          · exact List.mem_append_left _ hc
          · exact List.mem_append_right _ (List.mem_cons_of_mem _ hc)
        · rwa [Function.update_of_ne hj] at hc
      have hxpar : x ∉ p.parent.bytes := by
        rw [Page.bytes_parent (L.tiling.aligned hpt)]
        intro h
        cases h with
        | inl h => exact hxp h
        | inr h =>
          refine hx ⟨p.order, p.buddy.address, ?_, h⟩
          rw [hF]
          exact List.mem_append_right _ List.mem_cons_self
      rw [hmem x hx' hxpar, hunmem x hx]

/-- free_pages writes links, and links lie in the first eight bytes of a page -/
theorem freePagesAt_links {n x : Nat} {p : Page} {s' : Buddy} (hs : Linked s F) (L : Layout F out) (hp : p ∈ out)
    (hx : 8 ≤ x % pageSize) (hrun : s.freePagesAt n p = .ok s') : s'.mem x = s.mem x := by
  have hlink : ∀ {m : Mem} {b v : Nat}, pageSize ∣ b → setLink m b v x = m x := by
    intro m b v hb
    apply store_apply_out
    by_contra hin
    have hmod : x % pageSize = x - b := by
      obtain ⟨k, rfl⟩ := hb
      have hlt : x - pageSize * k < pageSize := by
        unfold pageSize at *
        omega
      have he : x = x - pageSize * k + pageSize * k := by omega
      rw [he, Nat.add_mul_mod_self_left, Nat.mod_eq_of_lt hlt]
      omega
    omega
  induction n generalizing s F out p with
  | zero => exact nomatch hrun
  | succ n ih =>
    rcases hs.freePagesAt_step L hp n with ⟨hstep, -⟩ | ⟨pre, post, hF, hL', hstep, -⟩
    · rw [hstep] at hrun
      cases hrun
      exact hlink (L.tile_page (Or.inr hp))
    · rw [hstep] at hrun
      obtain ⟨hun, -⟩ := hs.unlink_spec L hF (L.tiling.order_lt (Or.inr hp))
      rw [ih hun hL' List.mem_cons_self hrun]
      rcases List.eq_nil_or_concat pre with rfl | ⟨pre', c, rfl⟩
      · rfl
      · have hc : c ∈ F p.order := by
          rw [hF]
          simp
        rw [List.concat_eq_append, slotAfter_concat]
        exact hlink (L.free_page hc)

end Linked

/-! ## page_allocator_init -/

/-- what page_allocator_init leaves on the lists -/
def initLists : FreeLists := fun k =>
  if k = 9 then [kernPhyBase + 2 ^ 21] else if k = 8 then [kernPhyBase + 2 ^ 20] else []

theorem mem_initLists {k a : Nat} :
    a ∈ initLists k ↔ (k = 8 ∧ a = kernPhyBase + 2 ^ 20) ∨ (k = 9 ∧ a = kernPhyBase + 2 ^ 21) := by
  unfold initLists
  by_cases h9 : k = 9
  · subst h9
    simp
  · by_cases h8 : k = 8
    · subst h8
      simp
    · simp [h8, h9]

/-- the chain of all 2M areas is built first; the loop over SKIP_ORDER then ends it after one -/
theorem pageAllocatorInit_eq (m : Mem) : ∃ m', Buddy.pageAllocatorInit m =
    { mem := setLink (setLink m' (kernPhyBase + 2 ^ 21) 0) (kernPhyBase + 2 ^ 20) 0
      buddyPages := Function.update (Function.update (Function.update (fun _ => 0) 9
        (kernPhyBase + 2 ^ 21)) 9 (kernPhyBase + 2 ^ 21)) 8 (kernPhyBase + 2 ^ 20) } :=
  ⟨_, rfl⟩

theorem pageAllocatorInit_linked (m : Mem) : Linked (Buddy.pageAllocatorInit m) initLists := by
  obtain ⟨m', hm'⟩ := pageAllocatorInit_eq m
  have h8 : pageSize ∣ kernPhyBase + 2 ^ 20 := Nat.dvd_of_mod_eq_zero rfl
  have h9 : pageSize ∣ kernPhyBase + 2 ^ 21 := Nat.dvd_of_mod_eq_zero rfl
  intro k hk
  rw [hm']
  by_cases hk9 : k = 9
  · subst hk9
    refine ⟨rfl, nofun, ?_⟩
    show link (setLink (setLink m' (kernPhyBase + 2 ^ 21) 0) (kernPhyBase + 2 ^ 20) 0)
      (kernPhyBase + 2 ^ 21) = 0
    rw [link_setLink_of_ne h8 h9 (by decide), link_setLink_self (Nat.two_pow_pos 64)]
  · by_cases hk8 : k = 8
    · subst hk8
      refine ⟨rfl, nofun, ?_⟩
      exact link_setLink_self (Nat.two_pow_pos 64)
    · have hnil : initLists k = [] := by
        unfold initLists
        rw [if_neg hk9, if_neg hk8]
      rw [hnil]
      show Function.update _ 8 _ k = 0
      rw [Function.update_of_ne hk8, Function.update_of_ne hk9, Function.update_of_ne hk9]

theorem initLists_layout : Layout initLists [] := by
  have hmem : ∀ {p : Page}, p ∈ tiles initLists [] ↔
      p = ⟨kernPhyBase + 2 ^ 20, 8⟩ ∨ p = ⟨kernPhyBase + 2 ^ 21, 9⟩ := by
    rintro ⟨a, k⟩
    show a ∈ initLists k ∨ _ ∈ [] ↔ _
    rw [mem_initLists]
    simp [and_comm]
  refine ⟨⟨?_, ?_, ?_, ?_⟩, ?_, List.nodup_nil, fun p hp => absurd hp List.not_mem_nil⟩
  · intro p hp
    rcases hmem.mp hp with rfl | rfl
    · decide
    · decide
  · intro p hp
    rcases hmem.mp hp with rfl | rfl
    · exact Nat.dvd_of_mod_eq_zero rfl
    · exact Nat.dvd_of_mod_eq_zero rfl
  · intro p q hp hq hne
    have hdis : Disjoint (Page.bytes ⟨kernPhyBase + 2 ^ 20, 8⟩)
        (Page.bytes ⟨kernPhyBase + 2 ^ 21, 9⟩) := by
      rw [Set.disjoint_left]
      rintro x ⟨_, hx⟩ ⟨hx', _⟩
      exact absurd (Nat.lt_of_lt_of_le hx (Nat.le_of_eq rfl)) (Nat.not_lt.mpr hx')
    rcases hmem.mp hp with rfl | rfl
    · rcases hmem.mp hq with rfl | rfl
      · exact absurd rfl hne
      · exact hdis
    · rcases hmem.mp hq with rfl | rfl
      · exact hdis.symm
      · exact absurd rfl hne
  · intro x
    simp only [hmem, exists_eq_or_imp, exists_eq_left]
    unfold usable Page.bytes Page.size pageSize
    simp only [Set.mem_Ico, Nat.shiftLeft_eq]
    omega
  · intro k
    unfold initLists
    split
    · exact List.nodup_singleton _
    · split
      · exact List.nodup_singleton _
      · exact List.nodup_nil

end FakeKernel
