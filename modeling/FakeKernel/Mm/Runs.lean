import FakeKernel.Mm.Coalesce
import FakeKernel.Mm.Links
import Mathlib.Logic.Relation

/-!
# Runs of the buddy allocator

A run starts with page_allocator_init on any memory and goes on with any allocations, frees of
outstanding blocks, and client writes inside outstanding blocks, in any order.

* `Mm.Inv`                the invariant: tiling, links in memory, no two free buddies;
* `alloc_step`, `free_step`, `write_step`   what one step does to it, and that frees return;
* `Mm.reachable_inv`      it holds in every reachable state;
* `buddy_safety`          the chains, alignment, disjointness and framing;
* `never_conserves`       most of the region is on no list and never will be;
* `coalescing`            no free buddies; the lists depend on the set of free pages only.
-/

namespace FakeKernel
open Bytes Dyadic

namespace Mm

/-- one operation of a client that frees and writes only what it holds -/
inductive Step : Mm → Mm → Prop where
  | alloc {a a' : Mm} {order : Nat} {p : Page} (ho : order < maxOrder)
      (h : a.allocPages order = .ok (p, a')) : Step a a'
  | free {a a' : Mm} {p : Page} (hp : p ∈ a.out) (h : a.freePages p = .ok a') : Step a a'
  | write {a : Mm} {p : Page} {x : Nat} (v : UInt8) (hp : p ∈ a.out) (hx : x ∈ p.bytes) :
      Step a (a.write x v)

def Reachable (a : Mm) : Prop := ∃ m, Relation.ReflTransGen Step (init m) a

theorem reachable_init (m : Mem) : (init m).Reachable := ⟨m, .refl⟩

structure Inv (a : Mm) (F : FreeLists) : Prop where
  layout : Layout F a.out
  linked : Linked a.buddy F
  noBuddies : NoBuddies F

theorem init_inv (m : Mem) : (init m).Inv initLists := by
  refine ⟨initLists_layout, pageAllocatorInit_linked m, ?_⟩
  intro k a hk ha hb
  rcases mem_initLists.mp ha with ⟨rfl, rfl⟩ | ⟨rfl, rfl⟩
  · rcases mem_initLists.mp hb with ⟨_, h⟩ | ⟨h, _⟩
    · exact absurd h (by decide)
    · exact absurd h (by decide)
  · exact absurd hk (by decide)

/-- a byte that the allocator does not own: it lies in an outstanding block or outside the region -/
def Kept (a : Mm) (x : Nat) : Prop := x ∉ usable ∨ ∃ p ∈ a.out, x ∈ p.bytes

variable {a a' : Mm} {F : FreeLists} {p : Page}

/-- an allocation returns a block or panics with "out of memory" -/
theorem alloc_total (h : a.Inv F) {order : Nat} (ho : order < maxOrder) :
    (∃ p a', a.allocPages order = .ok (p, a')) ∨
      a.allocPages order = .error (.panic "out of memory") := by
  unfold allocPages
  rcases h.linked.allocPages_spec h.layout ho with ⟨n, x, rest, s', _, hrun, _⟩ | ⟨hrun, _⟩
  · left
    rw [hrun]
    exact ⟨_, _, rfl⟩
  · right
    rw [hrun]
    rfl

/-- where a page of the region is in no outstanding block, a page can be allocated -/
theorem Inv.alloc_page (h : a.Inv F) {x : Nat} (hx : x ∈ usable) (hfree : ∀ q ∈ a.out, x ∉ q.bytes) :
    ∃ p a', a.allocPages 0 = .ok (p, a') := by
  unfold allocPages
  rcases h.linked.allocPages_spec h.layout (show 0 < maxOrder by decide) with ⟨n, b, rest, s', _, hrun, _⟩ | ⟨_, hnil⟩
  · rw [hrun]
    exact ⟨_, _, rfl⟩
  · exfalso
    obtain ⟨p, hp, hxp⟩ := (h.layout.tiling.union x).mp hx
    cases hp with
    | inl hin =>
      rw [hnil p.order (Nat.zero_le _) (h.layout.order_lt hin)] at hin
      exact absurd hin List.not_mem_nil
    | inr hout => exact hfree p hout hxp

/-- the number of pages that page_allocator_init puts on its lists -/
def pageCount : Nat := 768

/-- as long as not every page is outstanding, one can be allocated -/
theorem Inv.alloc_succeeds (h : a.Inv F) (hord : ∀ p ∈ a.out, p.order = 0) (hlen : a.out.length < pageCount) :
    ∃ p a', a.allocPages 0 = .ok (p, a') := by
  by_contra hnone
  -- otherwise every page of the region is an outstanding block
  have hall : ∀ i < pageCount, (⟨kernPhyBase + 2 ^ 20 + 4096 * i, 0⟩ : Page) ∈ a.out := by
    intro i hi
    have hx : kernPhyBase + 2 ^ 20 + 4096 * i ∈ FakeKernel.usable := by
      unfold pageCount at hi
      constructor
      · omega
      · omega
    obtain ⟨p, hout, hxp⟩ : ∃ p ∈ a.out, kernPhyBase + 2 ^ 20 + 4096 * i ∈ p.bytes := by
      by_contra hno
      exact hnone (h.alloc_page hx fun q hq hxq => hno ⟨q, hq, hxq⟩)
    obtain ⟨m, hm⟩ := h.layout.tile_page (.inr hout)
    have h0 := hord p hout
    obtain ⟨addr, order⟩ := p
    obtain rfl : order = 0 := h0
    obtain rfl : addr = pageSize * m := hm
    obtain ⟨h1, h2⟩ := hxp
    unfold Page.size at h2
    rw [pageSize_shiftLeft] at h2
    have he : kernPhyBase + 2 ^ 20 + 4096 * i = pageSize * m := by
      unfold kernPhyBase kernBase splitAddr pageSize at *
      simp only at h1 h2
      omega
    rw [he]
    exact hout
  have hsub : (List.range pageCount).map
      (fun i => (⟨kernPhyBase + 2 ^ 20 + 4096 * i, 0⟩ : Page)) ⊆ a.out := by
    intro p hp
    obtain ⟨i, hi, rfl⟩ := List.mem_map.mp hp
    exact hall i (List.mem_range.mp hi)
  have hnd : ((List.range pageCount).map
      (fun i => (⟨kernPhyBase + 2 ^ 20 + 4096 * i, 0⟩ : Page))).Nodup := by
    refine List.nodup_range.map fun i j hij => ?_
    have := congrArg Page.address hij
    simp only at this
    omega
  have hle := (hnd.subperm hsub).length_le
  rw [List.length_map, List.length_range] at hle
  omega

theorem Inv.alloc_another (h : a.Inv F) (hout : a.out = [p]) (hord : p.order = 0) :
    ∃ q a', a.allocPages 0 = .ok (q, a') := by
  apply h.alloc_succeeds
  · intro r hr
    rw [hout] at hr
    rw [List.mem_singleton.mp hr]
    exact hord
  · rw [hout]
    show 1 < pageCount
    decide

theorem alloc_step (h : a.Inv F) {order : Nat} (ho : order < maxOrder)
    (hrun : a.allocPages order = .ok (p, a')) :
    (∃ F', a'.Inv F') ∧ p.order = order ∧ a'.out = p :: a.out ∧
      ∀ x, a.Kept x → a'.buddy.mem x = a.buddy.mem x := by
  unfold allocPages at hrun
  rcases h.linked.allocPages_spec h.layout ho with ⟨n, x, rest, s', hs, hal, hl, hmem⟩ | ⟨hal, _⟩
  · rw [hal, Res.ok_bind] at hrun
    cases hrun
    obtain ⟨L', rest', hhead⟩ := h.layout.splitDown hs.head
    exact ⟨⟨_, L'.take hhead, hl, h.noBuddies.alloc h.layout hs⟩, rfl, rfl,
      fun x hx => hmem x (h.layout.not_free hx)⟩
  · rw [hal] at hrun
    exact nomatch hrun

theorem free_step (h : a.Inv F) (hp : p ∈ a.out) :
    ∃ a', a.freePages p = .ok a' ∧ (∃ F', a'.Inv F') ∧ a'.out = a.out.erase p ∧
      ∀ x, a'.Kept x → a'.buddy.mem x = a.buddy.mem x := by
  obtain ⟨s', hrun, hl, hmem⟩ := h.linked.freePagesAt_spec h.layout hp
    (Nat.le_add_left maxOrder p.order)
  have L' := h.layout.free hp (Nat.le_add_left maxOrder p.order)
  refine ⟨{ buddy := s', out := a.out.erase p }, ?_, ⟨_, L', hl, h.noBuddies.free⟩, rfl, ?_⟩
  · unfold freePages Buddy.freePages
    rw [hrun]
    rfl
  · intro x hx
    cases hx with
    | inl hout =>
      exact hmem x (h.layout.not_free (.inl hout))
        fun hxp => hout (h.layout.bytes_usable (.inr hp) hxp)
    | inr hin =>
      obtain ⟨q, hq, hxq⟩ := hin
      obtain ⟨hne, hq'⟩ := h.layout.outNodup.mem_erase_iff.mp hq
      refine hmem x (h.layout.not_free (.inr ⟨q, hq', hxq⟩)) fun hxp => ?_
      exact Set.disjoint_left.mp (h.layout.tiling.disjoint (.inr hq') (.inr hp) hne) hxq hxp

/-- writes outside the free areas change no link -/
theorem Inv.setMem_step (h : a.Inv F) {m : Mem} (hm : ∀ x, ¬ a.Kept x → m x = a.mem x) :
    (a.setMem m).Inv F := by
  refine ⟨h.layout, fun k hk => (h.linked k hk).congr fun b hb => ?_, h.noBuddies⟩
  apply load_congr
  intro y hy hy'
  apply hm
  intro hkept
  refine h.layout.not_free hkept ⟨k, b, hb, hy, ?_⟩
  have hsize : 4096 ≤ Page.size ⟨b, k⟩ := by
    unfold Page.size
    rw [pageSize_shiftLeft, pow_add]
    exact Nat.le_mul_of_pos_right _ (Nat.two_pow_pos k)
  show y < b + Page.size ⟨b, k⟩
  omega

theorem write_step (h : a.Inv F) {x : Nat} (hx : a.Kept x) (v : UInt8) : (a.write x v).Inv F := by
  apply h.setMem_step
  intro y hy
  have hne : y ≠ x := fun e => hy (e ▸ hx)
  exact Function.update_of_ne hne v a.mem

theorem step_inv (h : a.Inv F) (hs : Step a a') : ∃ F', a'.Inv F' := by
  cases hs with
  | alloc ho hrun => exact (alloc_step h ho hrun).1
  | free hp hrun =>
    obtain ⟨b, hrun', hinv, _⟩ := free_step h hp
    rw [hrun] at hrun'
    cases hrun'
    exact hinv
  | write v hp hx => exact ⟨F, write_step h (.inr ⟨_, hp, hx⟩) v⟩

theorem reachable_inv (h : a.Reachable) : ∃ F, a.Inv F := by
  obtain ⟨m, hm⟩ := h
  induction hm with
  | refl => exact ⟨initLists, init_inv m⟩
  | tail _ hs ih =>
    obtain ⟨F, hF⟩ := ih
    exact step_inv hF hs

/-- two pages are allocated and the first of them is freed -/
structure FirstFreed (p q : Page) (a : Mm) : Prop where
  run : ∃ a₁ a₂, (init fun _ => 0).allocPages 0 = .ok (p, a₁) ∧ a₁.allocPages 0 = .ok (q, a₂) ∧
    a₂.freePages p = .ok a
  reachable : a.Reachable
  out : a.out = [q]
  order : q.order = 0

theorem exists_firstFreed : ∃ p q a, FirstFreed p q a := by
  have hinv := init_inv fun _ => 0
  obtain ⟨p, a₁, hp⟩ := hinv.alloc_succeeds nofun (show 0 < pageCount by decide)
  obtain ⟨⟨F₁, hF₁⟩, hord, hout₁, _⟩ := alloc_step hinv (show 0 < maxOrder by decide) hp
  replace hout₁ : a₁.out = [p] := hout₁
  obtain ⟨q, a₂, hq⟩ := hF₁.alloc_another hout₁ hord
  obtain ⟨⟨F₂, hF₂⟩, hord', hout₂, _⟩ := alloc_step hF₁ (show 0 < maxOrder by decide) hq
  rw [hout₁] at hout₂
  have hmem : p ∈ a₂.out := by
    rw [hout₂]
    exact List.mem_cons_of_mem q List.mem_cons_self
  obtain ⟨a, hfree, _, hout, _⟩ := free_step hF₂ hmem
  have hne : p ≠ q := fun e => (List.nodup_cons.mp (hout₂ ▸ hF₂.layout.outNodup)).1 (e ▸ List.mem_cons_self)
  have hout : a.out = [q] := by
    rw [hout, hout₂, List.erase_cons_tail (by simpa using hne.symm), List.erase_cons_head]
  exact ⟨p, q, a, ⟨a₁, a₂, hp, hq, hfree⟩,
    ⟨_, ((Relation.ReflTransGen.single (.alloc (by decide) hp)).tail (.alloc (by decide) hq)).tail (.free hmem hfree)⟩, hout, hord'⟩

end Mm

/-! ## safety -/

/-- every area on a list, with its order -/
def freeAreas (F : FreeLists) : List Page :=
  (List.range maxOrder).flatMap fun k => (F k).map fun a => ⟨a, k⟩

theorem mem_freeAreas {F : FreeLists} {p : Page} :
    p ∈ freeAreas F ↔ p.order < maxOrder ∧ p.address ∈ F p.order := by
  unfold freeAreas
  rw [List.mem_flatMap]
  constructor
  · rintro ⟨k, hk, hp⟩
    obtain ⟨a, ha, rfl⟩ := List.mem_map.mp hp
    exact ⟨List.mem_range.mp hk, ha⟩
  · rintro ⟨hk, ha⟩
    exact ⟨p.order, List.mem_range.mpr hk, List.mem_map.mpr ⟨p.address, ha, rfl⟩⟩

namespace Layout
variable {F : FreeLists} {out : List Page} {p : Page}

theorem nodup_freeAreas (L : Layout F out) : (freeAreas F).Nodup := by
  unfold freeAreas
  rw [List.nodup_flatMap]
  refine ⟨fun k _ => (L.nodup k).map fun _ _ e => congrArg Page.address e, ?_⟩
  refine List.nodup_range.pairwise_of_forall_ne fun j _ k _ hjk => ?_
  intro p hp hp'
  obtain ⟨b, _, rfl⟩ := List.mem_map.mp hp
  obtain ⟨c, _, e⟩ := List.mem_map.mp hp'
  exact hjk (congrArg Page.order e).symm

theorem mem_tiles (L : Layout F out) : p ∈ freeAreas F ++ out ↔ p ∈ tiles F out := by
  rw [List.mem_append, mem_freeAreas]
  exact or_congr_left ⟨And.right, fun h => ⟨L.order_lt h, h⟩⟩

theorem pairwise_disjoint (L : Layout F out) :
    (freeAreas F ++ out).Pairwise fun p q => Disjoint p.bytes q.bytes := by
  have hnd : (freeAreas F ++ out).Nodup := by
    rw [List.nodup_append]
    refine ⟨L.nodup_freeAreas, L.outNodup, fun p hp q hq => ?_⟩
    rintro rfl
    exact L.apart p hq (mem_freeAreas.mp hp).2
  exact hnd.pairwise_of_forall_ne fun p hp q hq hne =>
    L.tiling.disjoint (L.mem_tiles.mp hp) (L.mem_tiles.mp hq) hne

end Layout

/-- the region that the constants of memlayout.h give to the allocator -/
def managed : Set Nat := Set.Ico (kernPhyBase + pageSize <<< skipOrder) kernPhyStop

theorem usable_subset_managed : usable ⊆ managed := by
  rintro x ⟨h1, h2⟩
  refine ⟨h1, Nat.lt_of_lt_of_le h2 ?_⟩
  decide

/-- **Safety.**  In every reachable state the chains read from memory end and repeat nothing, all
free areas and outstanding blocks are aligned, inside the managed region and pairwise disjoint, and
neither operation writes to a block that stays outstanding.  An allocation returns or panics with
"out of memory"; freeing an outstanding block returns. -/
theorem buddy_safety {a : Mm} (h : a.Reachable) :
    (∃ F : Nat → List Nat,
      (∀ k, k < maxOrder →
        Chain (link a.buddy.mem) 0 (a.buddy.buddyPages k) (F k) ∧ (F k).Nodup) ∧
      (∀ p ∈ freeAreas F ++ a.out, p.size ∣ p.address ∧ p.bytes ⊆ managed) ∧
      (freeAreas F ++ a.out).Pairwise fun p q => Disjoint p.bytes q.bytes) ∧
    (∀ order, order < maxOrder →
      ((∃ p a', a.allocPages order = .ok (p, a')) ∨
        a.allocPages order = .error (.panic "out of memory")) ∧
      ∀ p a', a.allocPages order = .ok (p, a') → p.order = order ∧ a'.out = p :: a.out ∧
        ∀ q ∈ a.out, ∀ x ∈ q.bytes, a'.buddy.mem x = a.buddy.mem x) ∧
    (∀ p ∈ a.out, ∃ a', a.freePages p = .ok a' ∧ a'.out = a.out.erase p ∧
      ∀ q ∈ a'.out, ∀ x ∈ q.bytes, a'.buddy.mem x = a.buddy.mem x) := by
  obtain ⟨F, hF⟩ := Mm.reachable_inv h
  have L := hF.layout
  refine ⟨⟨F, fun k hk => ⟨hF.linked k hk, L.nodup k⟩, fun p hp => ?_, L.pairwise_disjoint⟩, ?_, ?_⟩
  · have hp' := L.mem_tiles.mp hp
    refine ⟨?_, (L.bytes_usable hp').trans usable_subset_managed⟩
    unfold Page.size
    rw [pageSize_shiftLeft]
    exact L.tiling.aligned hp'
  · intro order ho
    refine ⟨Mm.alloc_total hF ho, fun p a' hrun => ?_⟩
    obtain ⟨_, hord, hout, hmem⟩ := Mm.alloc_step hF ho hrun
    exact ⟨hord, hout, fun q hq x hx => hmem x (.inr ⟨q, hq, hx⟩)⟩
  · intro p hp
    obtain ⟨a', hrun, _, hout, hmem⟩ := Mm.free_step hF hp
    exact ⟨a', hrun, hout, fun q hq x hx => hmem x (.inr ⟨q, hq, hx⟩)⟩

theorem buddy_safety_freed : ∃ p q a, Mm.FirstFreed p q a ∧
    (∃ F : Nat → List Nat, (∀ k, k < maxOrder → Chain (link a.buddy.mem) 0 (a.buddy.buddyPages k) (F k) ∧ (F k).Nodup) ∧
      (∀ r ∈ freeAreas F ++ [q], r.size ∣ r.address ∧ r.bytes ⊆ managed) ∧
      (freeAreas F ++ [q]).Pairwise fun r r' => Disjoint r.bytes r'.bytes) ∧
    (∃ r a', a.allocPages 0 = .ok (r, a') ∧ a'.out = [r, q] ∧ ∀ x ∈ q.bytes, a'.buddy.mem x = a.buddy.mem x) ∧
    ∃ a', a.freePages q = .ok a' ∧ a'.out = [] := by
  obtain ⟨p, q, a, h⟩ := Mm.exists_firstFreed
  obtain ⟨hlists, halloc, hfree⟩ := buddy_safety h.reachable
  obtain ⟨F, hF⟩ := Mm.reachable_inv h.reachable
  obtain ⟨r, a', hr⟩ := hF.alloc_another h.out h.order
  obtain ⟨_, hout, hframe⟩ := (halloc 0 (by decide)).2 r a' hr
  obtain ⟨b, hb, hbout, _⟩ := hfree q (by rw [h.out]; exact List.mem_cons_self)
  rw [h.out] at hlists hout hframe hbout
  exact ⟨p, q, a, h, hlists, ⟨r, a', hr, hout, hframe q List.mem_cons_self⟩, b, hb, by simpa using hbout⟩

/-! ## lost memory -/

/-- the free areas and outstanding blocks that contain the address `x`, with repetitions -/
def owners (F : FreeLists) (out : List Page) (x : Nat) : List Page :=
  (freeAreas F ++ out).filter fun p => p.address ≤ x && x < p.address + p.size

theorem mem_owners {F : FreeLists} {out : List Page} {x : Nat} {p : Page} :
    p ∈ owners F out x ↔ p ∈ freeAreas F ++ out ∧ x ∈ p.bytes := by
  unfold owners Page.bytes
  rw [List.mem_filter, Bool.and_eq_true, decide_eq_true_iff, decide_eq_true_iff]
  exact Iff.rfl

/-- every page of the managed region is in exactly one free area or outstanding block -/
def Mm.Conserves (a : Mm) : Prop :=
  ∃ F, Linked a.buddy F ∧
    ∀ x, pageSize ∣ x → x ∈ managed → (owners F a.out x).length = 1

/-- what does hold: the pages of `usable` are conserved -/
theorem usable_conserved {a : Mm} (h : a.Reachable) :
    ∃ F, Linked a.buddy F ∧ ∀ x, x ∈ usable → (owners F a.out x).length = 1 := by
  obtain ⟨F, hF⟩ := Mm.reachable_inv h
  have L := hF.layout
  refine ⟨F, hF.linked, fun x hx => ?_⟩
  obtain ⟨p, hp, hxp⟩ := (L.tiling.union x).mp hx
  have hmem : p ∈ owners F a.out x := mem_owners.mpr ⟨L.mem_tiles.mpr hp, hxp⟩
  have hdis : (owners F a.out x).Pairwise fun p q => Disjoint p.bytes q.bytes :=
    L.pairwise_disjoint.filter _
  -- two owners would share `x`
  cases ho : owners F a.out x with
  | nil =>
    rw [ho] at hmem
    exact absurd hmem List.not_mem_nil
  | cons q l =>
    cases l with
    | nil => rfl
    | cons r l =>
      have hq : q ∈ owners F a.out x := ho ▸ List.mem_cons_self
      have hr : r ∈ owners F a.out x := ho ▸ List.mem_cons_of_mem _ List.mem_cons_self
      rw [ho] at hdis
      have hqr := (List.pairwise_cons.mp hdis).1 r List.mem_cons_self
      exact absurd (mem_owners.mp hr).2 (Set.disjoint_left.mp hqr (mem_owners.mp hq).2)

/-- a page that page_allocator_init drops when it ends the chain of 2M areas after one -/
def lostPage : Nat := kernPhyBase + 2 ^ 22

theorem lostPage_managed : pageSize ∣ lostPage ∧ lostPage ∈ managed := by
  refine ⟨Nat.dvd_of_mod_eq_zero rfl, ?_, ?_⟩
  · show kernPhyBase + pageSize <<< skipOrder ≤ lostPage
    decide
  · show lostPage < kernPhyStop
    decide

theorem Mm.Inv.lost {a : Mm} {F : FreeLists} (h : a.Inv F) : owners F a.out lostPage = [] := by
  rw [List.eq_nil_iff_forall_not_mem]
  intro p hp
  obtain ⟨hp, hx⟩ := mem_owners.mp hp
  have hu := h.layout.bytes_usable (h.layout.mem_tiles.mp hp) hx
  exact absurd hu.2 (Nat.lt_irrefl _)

/-- the lists are determined by the memory -/
theorem Linked.unique {s : Buddy} {F G : FreeLists} (h : Linked s F) (h' : Linked s G) {k : Nat}
    (hk : k < maxOrder) : F k = G k :=
  (h k hk).unique (h' k hk)

theorem freeAreas_congr {F G : FreeLists} (h : ∀ k, k < maxOrder → F k = G k) :
    freeAreas F = freeAreas G := by
  unfold freeAreas
  refine List.flatMap_congr fun k hk => ?_
  rw [h k (List.mem_range.mp hk)]

theorem Mm.Inv.not_conserves {a : Mm} {F : FreeLists} (h : a.Inv F) : ¬ a.Conserves := by
  rintro ⟨G, hG, hcons⟩
  have hlen := hcons lostPage lostPage_managed.1 lostPage_managed.2
  have hFG : freeAreas G = freeAreas F := freeAreas_congr fun k hk => hG.unique h.linked hk
  unfold owners at hlen
  rw [hFG] at hlen
  have hnil := h.lost
  unfold owners at hnil
  rw [hnil] at hlen
  exact absurd hlen Nat.zero_ne_one

/-- **Lost memory.**  No reachable state conserves the managed region. -/
theorem never_conserves {a : Mm} (h : a.Reachable) : ¬ a.Conserves := by
  obtain ⟨F, hF⟩ := Mm.reachable_inv h
  exact hF.not_conserves

theorem never_conserves_init : ¬ (Mm.init fun _ => 0).Conserves :=
  never_conserves (Mm.reachable_init fun _ => 0)

/-- right after initialisation, on a zeroed memory, the page at 4M is on no list -/
theorem init_loses_page : ¬ (Mm.init fun _ => 0).Conserves ∧ lostPage ∈ managed ∧
    ∀ F, Linked (Mm.init fun _ => 0).buddy F → owners F (Mm.init fun _ => 0).out lostPage = [] := by
  refine ⟨(Mm.init_inv fun _ => 0).not_conserves, lostPage_managed.2, ?_⟩
  intro F hF
  have hinit := Mm.init_inv fun _ => 0
  have hFG : freeAreas F = freeAreas initLists :=
    freeAreas_congr fun k hk => hF.unique hinit.linked hk
  have hlost := hinit.lost
  unfold owners at hlost ⊢
  rw [hFG]
  exact hlost

/-! ## coalescing -/

/-- the free pages -/
def freePageSet (F : FreeLists) : Set Nat := {x | pageSize ∣ x ∧ ∃ p ∈ freeAreas F, x ∈ p.bytes}

/-- the free pages are what the outstanding blocks leave of `usable` -/
theorem freePageSet_eq {F : FreeLists} {out : List Page} (L : Layout F out) :
    freePageSet F = {x | pageSize ∣ x ∧ x ∈ usable ∧ ∀ q ∈ out, x ∉ q.bytes} := by
  ext x
  refine and_congr_right fun _ => ?_
  constructor
  · rintro ⟨p, hp, hx⟩
    have hfree := (mem_freeAreas.mp hp).2
    exact ⟨L.bytes_usable (.inl hfree) hx, fun q hq => Set.disjoint_left.mp (L.disjoint_out hfree hq) hx⟩
  · rintro ⟨huse, hout⟩
    obtain ⟨p, hp, hx⟩ := (L.tiling.union x).mp huse
    cases hp with
    | inl hfree => exact ⟨p, mem_freeAreas.mpr ⟨L.order_lt hfree, hfree⟩, hx⟩
    | inr hold => exact absurd hx (hout p hold)

theorem page_mem_bytes {p : Page} (hp : pageSize ∣ p.address) (x : Nat) :
    x / pageSize * pageSize ∈ p.bytes ↔ x ∈ p.bytes := by
  obtain ⟨a, k⟩ := p
  obtain ⟨i, hi⟩ := hp
  have hsize : Page.size ⟨a, k⟩ = 4096 * 2 ^ k := by
    unfold Page.size
    rw [pageSize_shiftLeft, pow_add]
    rfl
  change a = 4096 * i at hi
  show a ≤ x / 4096 * 4096 ∧ x / 4096 * 4096 < a + Page.size ⟨a, k⟩
    ↔ a ≤ x ∧ x < a + Page.size ⟨a, k⟩
  rw [hsize, hi]
  omega

namespace Mm.Inv
variable {a a' : Mm} {F F' : FreeLists}

theorem mem_union_iff (h : a.Inv F) (x : Nat) :
    (∃ k b, b ∈ F k ∧ x ∈ Page.bytes ⟨b, k⟩) ↔ x / pageSize * pageSize ∈ freePageSet F := by
  constructor
  · rintro ⟨k, b, hb, hx⟩
    refine ⟨Nat.dvd_mul_left _ _, ⟨b, k⟩, mem_freeAreas.mpr ⟨h.layout.order_lt hb, hb⟩, ?_⟩
    exact (page_mem_bytes (p := ⟨b, k⟩) (h.layout.free_page hb) x).mpr hx
  · rintro ⟨_, p, hp, hx⟩
    have hb := (mem_freeAreas.mp hp).2
    exact ⟨p.order, p.address, hb, (page_mem_bytes (h.layout.free_page hb) x).mp hx⟩

theorem same_lists (h : a.Inv F) (h' : a'.Inv F') (heq : freePageSet F = freePageSet F')
    (k x : Nat) : x ∈ F k ↔ x ∈ F' k := by
  refine mem_iff_of_union_eq h.noBuddies h.layout h'.noBuddies h'.layout (fun y => ?_) k x
  rw [h.mem_union_iff, h'.mem_union_iff, heq]

end Mm.Inv

/-- **Complete coalescing and history independence.**  In every reachable state no two buddies below
the highest order are free; the areas on each list depend on the set of free pages only; and when
nothing is outstanding each list holds the areas it held right after initialisation. -/
theorem coalescing {a : Mm} (h : a.Reachable) {F : FreeLists} (hF : Linked a.buddy F) :
    (∀ k, k < maxOrder - 1 → ∀ x ∈ F k, x ^^^ (pageSize <<< k) ∉ F k) ∧
    (∀ a' : Mm, a'.Reachable → ∀ F', Linked a'.buddy F' → freePageSet F = freePageSet F' →
      ∀ k, k < maxOrder → ∀ x, x ∈ F k ↔ x ∈ F' k) ∧
    (a.out = [] → ∀ m F₀, Linked (Mm.init m).buddy F₀ →
      ∀ k, k < maxOrder → ∀ x, x ∈ F k ↔ x ∈ F₀ k) := by
  obtain ⟨G, hG⟩ := Mm.reachable_inv h
  have hFG : ∀ k, k < maxOrder → F k = G k := fun k hk => hF.unique hG.linked hk
  have hset : freePageSet F = freePageSet G := by
    unfold freePageSet
    rw [freeAreas_congr hFG]
  have hdet : ∀ a' : Mm, a'.Reachable → ∀ F', Linked a'.buddy F' → freePageSet F = freePageSet F' →
      ∀ k, k < maxOrder → ∀ x, x ∈ F k ↔ x ∈ F' k := by
    intro a' h' F' hF' heq k hk x
    obtain ⟨G', hG'⟩ := Mm.reachable_inv h'
    have hFG' : ∀ k, k < maxOrder → F' k = G' k := fun k hk => hF'.unique hG'.linked hk
    have hset' : freePageSet F' = freePageSet G' := by
      unfold freePageSet
      rw [freeAreas_congr hFG']
    rw [hFG k hk, hFG' k hk]
    exact hG.same_lists hG' (by rw [← hset, heq, hset']) k x
  refine ⟨?_, hdet, ?_⟩
  · intro k hk x hx
    rw [hFG k (by omega)] at hx ⊢
    rw [pageSize_shiftLeft]
    exact hG.noBuddies k x (by omega) hx
  · intro hout m F₀ hF₀
    have hinit := Mm.init_inv m
    refine hdet (Mm.init m) (Mm.reachable_init m) F₀ hF₀ ?_
    have hset₀ : freePageSet F₀ = freePageSet initLists := by
      unfold freePageSet
      rw [freeAreas_congr fun k hk => hF₀.unique hinit.linked hk]
    rw [hset, hset₀, freePageSet_eq hG.layout, freePageSet_eq hinit.layout, hout]
    rfl

theorem coalescing_freed : ∃ p q a F, Mm.FirstFreed p q a ∧ Linked a.buddy F ∧
    (∀ k, k < maxOrder - 1 → ∀ x ∈ F k, x ^^^ (pageSize <<< k) ∉ F k) ∧
    (∃ r a₁ a₂ F₂, a.allocPages 0 = .ok (r, a₁) ∧ a₁.freePages r = .ok a₂ ∧ Linked a₂.buddy F₂ ∧
      ∀ k, k < maxOrder → ∀ x, x ∈ F k ↔ x ∈ F₂ k) ∧
    ∃ a' F', a.freePages q = .ok a' ∧ Linked a'.buddy F' ∧ ∀ k, k < maxOrder → ∀ x, x ∈ F' k ↔ x ∈ initLists k := by
  obtain ⟨p, q, a, h⟩ := Mm.exists_firstFreed
  obtain ⟨F, hF⟩ := Mm.reachable_inv h.reachable
  obtain ⟨m, hm⟩ := h.reachable
  have hq : q ∈ a.out := by
    rw [h.out]
    exact List.mem_cons_self
  obtain ⟨hbuddies, hsame, _⟩ := coalescing h.reachable hF.linked
  -- a third page is allocated and freed
  obtain ⟨r, a₁, hr⟩ := hF.alloc_another h.out h.order
  obtain ⟨⟨F₁, hF₁⟩, _, hout₁, _⟩ := Mm.alloc_step hF (show 0 < maxOrder by decide) hr
  have hmem : r ∈ a₁.out := by
    rw [hout₁]
    exact List.mem_cons_self
  obtain ⟨a₂, hfree₂, ⟨F₂, hF₂⟩, hout₂, _⟩ := Mm.free_step hF₁ hmem
  have hset : freePageSet F = freePageSet F₂ := by
    rw [freePageSet_eq hF.layout, freePageSet_eq hF₂.layout, hout₂, hout₁, List.erase_cons_head]
  -- the second one is freed
  obtain ⟨a', hfree, ⟨F', hF'⟩, hout', _⟩ := Mm.free_step hF hq
  have hnil : a'.out = [] := by
    rw [hout', h.out, List.erase_cons_head]
  refine ⟨p, q, a, F, h, hF.linked, hbuddies, ⟨r, a₁, a₂, F₂, hr, hfree₂, hF₂.linked, ?_⟩, a', F', hfree, hF'.linked, ?_⟩
  · exact hsame a₂ ⟨m, (hm.tail (.alloc (by decide) hr)).tail (.free hmem hfree₂)⟩ F₂ hF₂.linked hset
  · exact (coalescing ⟨m, hm.tail (.free hq hfree)⟩ hF'.linked).2.2 hnil (fun _ => 0) initLists
      (pageAllocatorInit_linked fun _ => 0)

end FakeKernel
