import FakeKernel.Lib.Budget
import FakeKernel.Mm.Progress
import Mathlib.Data.Finset.Card
import Mathlib.Data.Finset.Prod

/-!
# How many pages an operation takes

* `Mm.sparePages`     the pages of RAM that are free;
* `Mm.Free.alloc`    a page can be allocated as long as one is free;
* `Tabled`           the places of a tree where tables are;
* `setPage_demand`   set_page takes one page for each table that is missing;
* `Mm.Free.setPage`  and returns if there are as many;
* `Rooted.setPage`   the two together, for a tree that has the tables for some addresses.
-/

namespace FakeKernel
open Bytes Bitfield Mm

variable {a a' a₁ : Mm} {root table va pa flags n i j x s : Nat} {N : List Nat} {W : Set Nat}

/-! ## free pages -/

def pageNo (i : Nat) : Nat := kernPhyBase + 2 ^ 20 + pageSize * i

/-- the pages that are part of no outstanding block, by number -/
def Mm.sparePages (a : Mm) : Finset Nat :=
  (Finset.range pageCount).filter fun i => ∀ p ∈ a.out, ¬ (p.address ≤ pageNo i ∧ pageNo i < p.address + p.size)

theorem Mm.mem_sparePages : i ∈ a.sparePages ↔ i < pageCount ∧ ∀ p ∈ a.out, pageNo i ∉ p.bytes := by
  unfold sparePages
  rw [Finset.mem_filter, Finset.mem_range]
  exact Iff.rfl

theorem pageNo_usable (hi : i < pageCount) : pageNo i ∈ usable := by
  have hle : pageSize * i + pageSize ≤ pageSize * pageCount := Nat.mul_le_mul_left pageSize hi
  have hend : pageSize * pageCount + 2 ^ 20 = 2 ^ 22 := by decide
  have hpos : 0 < pageSize := by decide
  refine ⟨Nat.le_add_right _ _, ?_⟩
  show kernPhyBase + 2 ^ 20 + pageSize * i < kernPhyBase + 2 ^ 22
  omega

/-- a page of RAM has a number -/
theorem exists_pageNo (hs : s ∈ usable) (hdvd : pageSize ∣ s) : ∃ i < pageCount, pageNo i = s := by
  obtain ⟨m, rfl⟩ := hdvd
  obtain ⟨b, hb⟩ : ∃ b, kernPhyBase + 2 ^ 20 = pageSize * b := ⟨(kernPhyBase + 2 ^ 20) / pageSize, by decide⟩
  have h1 : pageSize * b ≤ pageSize * m := hb ▸ hs.1
  have h2 : pageSize * m < kernPhyBase + 2 ^ 22 := hs.2
  have hsize : kernPhyBase + 2 ^ 22 = kernPhyBase + 2 ^ 20 + pageSize * pageCount := by decide
  have hpos : 0 < pageSize := by decide
  have hbm : b ≤ m := Nat.le_of_mul_le_mul_left h1 hpos
  refine ⟨m - b, ?_, ?_⟩
  · rw [hsize, hb, ← Nat.mul_add] at h2
    have hlt := Nat.lt_of_mul_lt_mul_left h2
    omega
  · unfold pageNo
    rw [hb, ← Nat.mul_add, Nat.add_sub_cancel' hbm]

theorem pageNo_inj (h : pageNo i = pageNo j) : i = j := by
  unfold pageNo pageSize at h
  omega

/-- the page of a number lies in the block at `s` only if it is `s` -/
theorem pageNo_mem (hs : s ∈ usable) (hdvd : pageSize ∣ s) (hin : pageNo i ∈ (pageAt s).bytes) : pageNo i = s := by
  obtain ⟨j, _, rfl⟩ := exists_pageNo hs hdvd
  rw [mem_pageAt] at hin
  unfold onPage pageNo pageSize at *
  omega

/-- each page that was handed out is one free page less -/
theorem Mm.Extends.free (hx : Extends a a' W N) : a.sparePages.card = a'.sparePages.card + N.length := by
  have hnd : N.Nodup := by
    have hout := hx.ok.nodup
    rw [hx.out, List.nodup_append] at hout
    exact hout.1.of_map
  have hnum : ∀ s ∈ N, ∃ i < pageCount, pageNo i = s := fun s hs => exists_pageNo (hx.new_usable hs) (hx.new_page hs)
  obtain ⟨I, hI⟩ : ∃ I, I = (Finset.range pageCount).filter fun i => pageNo i ∈ N := ⟨_, rfl⟩
  have hmem : ∀ i, i ∈ I ↔ i < pageCount ∧ pageNo i ∈ N := fun i => by rw [hI, Finset.mem_filter, Finset.mem_range]
  have hcard : I.card = N.length := by
    have himage : I.image pageNo = N.toFinset := by
      ext s
      rw [Finset.mem_image, List.mem_toFinset]
      constructor
      · rintro ⟨i, hi, rfl⟩
        exact ((hmem i).mp hi).2
      · intro hs
        obtain ⟨i, hi, rfl⟩ := hnum s hs
        exact ⟨i, (hmem i).mpr ⟨hi, hs⟩, rfl⟩
    rw [← List.toFinset_card_of_nodup hnd, ← himage, Finset.card_image_of_injective _ fun _ _ => pageNo_inj]
  have hunion : a.sparePages = a'.sparePages ∪ I := by
    ext i
    rw [Finset.mem_union, mem_sparePages, mem_sparePages, hmem, hx.out]
    constructor
    · intro ⟨hi, hfree⟩
      by_cases hin : pageNo i ∈ N
      · exact .inr ⟨hi, hin⟩
      · refine .inl ⟨hi, fun p hp hx' => ?_⟩
        cases List.mem_append.mp hp with
        | inl hnew =>
          obtain ⟨s, hs, rfl⟩ := List.mem_map.mp hnew
          exact hin (pageNo_mem (hx.new_usable hs) (hx.new_page hs) hx' ▸ hs)
        | inr hold => exact hfree p hold hx'
    · intro hin
      cases hin with
      | inl hfree => exact ⟨hfree.1, fun p hp => hfree.2 p (List.mem_append_right _ hp)⟩
      | inr hnew =>
        refine ⟨hnew.1, fun p hp hx' => ?_⟩
        exact hx.fresh hnew.2 (onPage_self _) (.inr ⟨p, hp, hx'⟩)
  have hdis : Disjoint a'.sparePages I := by
    refine Finset.disjoint_left.mpr fun i hfree hin => ?_
    exact (mem_sparePages.mp hfree).2 _ (hx.new_mem ((hmem i).mp hin).2) (mem_pageAt.mpr (onPage_self _))
  rw [hunion, Finset.card_union_of_disjoint hdis, hcard]

/-- at least `n` pages are free -/
structure Mm.Free (a : Mm) (n : Nat) : Prop where
  ok : a.Ok
  le : n ≤ a.sparePages.card

namespace Mm.Free

theorem step (h : a.Free (N.length + n)) (hx : Extends a a' W N) : a'.Free n := by
  refine ⟨hx.ok, ?_⟩
  have hle := h.le
  rw [hx.free] at hle
  omega

theorem mono {m : Nat} (h : a.Free n) (hm : m ≤ n) : a.Free m := ⟨h.ok, Nat.le_trans hm h.le⟩

theorem alloc (h : a.Free (n + 1)) : ∃ p a', a.allocPages 0 = .ok (p, a') := by
  obtain ⟨F, hF⟩ := h.ok
  obtain ⟨i, hi⟩ := Finset.card_pos.mp (Nat.lt_of_lt_of_le (Nat.succ_pos n) h.le)
  obtain ⟨hlt, hfree⟩ := mem_sparePages.mp hi
  exact hF.alloc_page (pageNo_usable hlt) hfree

theorem kmalloc (h : a.Free (n + 1)) {size : Nat} (hs : size ≤ 4092) : ∃ buf a', a.kmalloc size = .ok (buf, a') := by
  obtain ⟨p, a₁, halloc⟩ := h.alloc
  unfold Mm.kmalloc
  simp only [kmallocOrder_small hs, halloc, Res.ok_bind]
  exact ⟨_, _, rfl⟩

theorem createPageTable (h : a.Free (n + 1)) : ∃ root a', createPageTable a = .ok (root, a') := by
  obtain ⟨p, a₁, halloc⟩ := h.alloc
  exact createPageTable_of_alloc halloc

theorem expandSuperpage (h : a.Free (n + 1)) (pte level : Nat) : ∃ s a', expandSuperpage pte level a = .ok (s, a') := by
  obtain ⟨p, a₁, halloc⟩ := h.alloc
  unfold FakeKernel.expandSuperpage
  rw [halloc, Res.ok_bind]
  by_cases h0 : p.address = 0
  · simp only [h0, if_true]
    exact ⟨_, _, rfl⟩
  · simp only [h0, if_false]
    exact ⟨_, _, rfl⟩

end Mm.Free

namespace Mm

/-- without a free page nothing can be allocated -/
theorem Ok.alloc_none (h : a.Ok) (h0 : a.sparePages = ∅) : a.allocPages 0 = .error (.panic "out of memory") := by
  obtain ⟨F, hF⟩ := h
  rcases alloc_total hF (show 0 < maxOrder by decide) with ⟨p, a', hrun⟩ | herr
  · obtain ⟨hord, hp⟩ := Ok.alloc ⟨F, hF⟩ (by decide) hrun
    have hcard := (hp.extends hord).free
    rw [h0, Finset.card_empty] at hcard
    exact absurd hcard.symm (Nat.succ_ne_zero _)
  · exact herr

theorem Ok.kmalloc_none (h : a.Ok) (h0 : a.sparePages = ∅) {size : Nat} (hs : size ≤ 4092) :
    a.kmalloc size = .error (.panic "out of memory") := by
  unfold Mm.kmalloc
  simp only [kmallocOrder_small hs, h.alloc_none h0, Res.error_bind]

/-- in some reachable state no page is free -/
theorem exists_exhausted : ∃ a : Mm, a.Reachable ∧ a.sparePages = ∅ := by
  have hrun : ∀ n (a : Mm), a.Reachable → a.sparePages.card = n → ∃ a' : Mm, a'.Reachable ∧ a'.sparePages = ∅ := by
    intro n
    induction n with
    | zero => exact fun a ha h0 => ⟨a, ha, Finset.card_eq_zero.mp h0⟩
    | succ n ih =>
      intro a ha hn
      have hok : a.Ok := reachable_inv ha
      obtain ⟨p, a', halloc⟩ := Free.alloc ⟨hok, Nat.le_of_eq hn.symm⟩
      obtain ⟨hord, hp⟩ := hok.alloc (by decide) halloc
      have hcard : a.sparePages.card = a'.sparePages.card + 1 := (hp.extends hord).free
      obtain ⟨m, hm⟩ := ha
      exact ih a' ⟨m, hm.tail (.alloc (by decide) halloc)⟩ (by omega)
  exact hrun _ _ (reachable_init fun _ => 0) rfl

end Mm

/-- where every outstanding block is a page, each of them takes one number -/
theorem Mm.Room.free (hr : a.Room n) : a.Free n := by
  refine ⟨hr.ok, ?_⟩
  have hmem : ∀ i ∈ Finset.range pageCount \ a.sparePages, pageAt (pageNo i) ∈ a.out := by
    intro i hi
    rw [Finset.mem_sdiff, Finset.mem_range, mem_sparePages] at hi
    obtain ⟨p, hp, hx⟩ : ∃ p ∈ a.out, pageNo i ∈ p.bytes := by
      by_contra hnone
      exact hi.2 ⟨hi.1, fun p hp hx => hnone ⟨p, hp, hx⟩⟩
    obtain ⟨s, o⟩ := p
    obtain rfl : o = 0 := hr.order _ hp
    have hs := pageNo_mem (hr.ok.usable hp (Tiling.base_mem (pageAt s))) (hr.ok.page hp) hx
    exact hs ▸ hp
  have hle : (Finset.range pageCount \ a.sparePages).card ≤ a.out.toFinset.card := by
    refine Finset.card_le_card_of_injOn (fun i => pageAt (pageNo i)) (fun i hi => ?_) fun i _ j _ he => ?_
    · exact List.mem_toFinset.mpr (hmem i hi)
    · exact pageNo_inj (pageAt_injective he)
  have hsub : a.sparePages ⊆ Finset.range pageCount := Finset.filter_subset _ _
  have hcard := Finset.card_sdiff_add_card_eq_card hsub
  have hlen := List.toFinset_card_le a.out
  rw [Finset.card_range] at hcard
  have := hr.length
  omega

/-! ## steps that leave a tree alone -/

/-- writes to pages that were just handed out -/
theorem Mm.Extends.write_new (h : Extends a a' W N) {p : Nat} (hp : p ∈ N) {m : Mem}
    (hm : ∀ x, ¬ onPage p x → m x = a'.mem x) : Extends a (a'.setMem m) W N := by
  have hw := h.ok.write_page (h.new_kept hp) (h.new_page hp) hm
  have := h.trans hw fun t ht => .inr ((Set.mem_singleton_iff.mp ht) ▸ hp)
  exact this

theorem Mm.Extends.new_ne_zero (h : Extends a a' W N) {p : Nat} (hp : p ∈ N) : p ≠ 0 := by
  have hlow := (h.new_usable hp).1
  unfold kernPhyBase kernBase splitAddr at hlow
  omega

/-- a step that writes to no table of a tree leaves the tree as it is -/
theorem WellFormed.extends (hw : WellFormed a root) (hx : Extends a a' W N)
    (hW : ∀ s ∈ tables a.mem 2 root, s ∉ W) :
    WellFormed a' root ∧ (∀ x, walk a'.mem 2 root x = walk a.mem 2 root x) ∧
      tables a'.mem 2 root = tables a.mem 2 root := by
  have hsame : ∀ s ∈ tables a.mem 2 root, SameTable a.mem a'.mem s := by
    intro s hs i hi
    refine entry_congr hi fun x hx₁ hx₂ => ?_
    exact hx.same (hw.kept s hs) (tables_page hw.page s hs) (hW s hs) ⟨hx₁, hx₂⟩
  have htab := tables_congr hsame
  refine ⟨⟨hx.ok, hw.tree.congr hsame, hw.page, fun s hs => ?_⟩, fun x => walk_congr hsame, htab⟩
  rw [htab] at hs
  exact hx.keptPage (hw.kept s hs)

/-- the pages that a step took are not tables of a tree that was there before -/
theorem WellFormed.new_not_mem (hw : WellFormed a root) (hx : Extends a a' W N) {p : Nat}
    (hp : p ∈ N) : p ∉ tables a.mem 2 root :=
  fun hmem => hx.not_new (hw.kept p hmem) hp

/-! ## where tables are -/

variable {m m' : Mem} {S : Finset Nat} {T : Finset (Nat × Nat)}

/-- the entries `S` of the root lead to tables, and the entries `T` of these do -/
structure Tabled (m : Mem) (root : Nat) (S : Finset Nat) (T : Finset (Nat × Nat)) : Prop where
  one : ∀ i < entryCount, (pteInvalidOrLeaf (entry m root i) = false ↔ i ∈ S)
  zero : ∀ i < entryCount, i ∈ S → ∀ j < entryCount,
    (pteInvalidOrLeaf (entry m (subtableFromPte (entry m root i)) j) = false ↔ (i, j) ∈ T)
  below : ∀ x ∈ T, x.1 ∈ S

theorem subtable_mem_tables (hi : i < entryCount) (hp : pteInvalidOrLeaf (entry m root i) = false) :
    subtableFromPte (entry m root i) ∈ tables m 2 root := by
  refine mem_tables_succ.mpr (.inr ⟨i, hi, ?_⟩)
  rw [below_of_pointer hp]
  exact table_mem_tables

theorem Tabled.congr (hT : Tabled m root S T) (hroot : SameTable m m' root)
    (hsub : ∀ i < entryCount, i ∈ S → SameTable m m' (subtableFromPte (entry m root i))) : Tabled m' root S T := by
  refine ⟨fun i hi => ?_, fun i hi hS j hj => ?_, hT.below⟩
  · rw [hroot i hi]
    exact hT.one i hi
  · rw [hroot i hi, hsub i hi hS j hj]
    exact hT.zero i hi hS j hj

/-- what does not concern the tree -/
theorem Tabled.extends (hT : Tabled a.mem root S T) (hw : WellFormed a root) (hx : Extends a a' W N)
    (hW : ∀ s ∈ tables a.mem 2 root, s ∉ W) : Tabled a'.mem root S T := by
  have hsame : ∀ s ∈ tables a.mem 2 root, SameTable a.mem a'.mem s := fun s hs i hi =>
    entry_congr hi fun y h1 h2 => hx.same (hw.kept s hs) (tables_page hw.page s hs) (hW s hs) ⟨h1, h2⟩
  refine hT.congr (hsame root table_mem_tables) fun i hi hS => hsame _ ?_
  exact subtable_mem_tables hi ((hT.one i hi).mpr hS)

/-- a tree of one table -/
theorem Tabled.single (hw : WellFormed a root) (h : ∀ s ∈ tables a.mem 2 root, s = root) : Tabled a.mem root ∅ ∅ := by
  refine ⟨fun i hi => iff_of_false (fun hp => ?_) (Finset.notMem_empty i), fun i _ hS => absurd hS (Finset.notMem_empty i),
    fun x hx => absurd hx (Finset.notMem_empty x)⟩
  exact ((hw.sub hi hp).2 _ table_mem_tables).2 (h _ (subtable_mem_tables hi hp))

/-! ## set_page -/

/-- the entry of the root becomes a pointer -/
theorem ensurePage2m_demand {r : Option (Nat × Nat)} (hw : WellFormed a root) (hT : Tabled a.mem root S T)
    (hrun : ensurePage2m root va a = .ok (r, a')) : Tabled a'.mem root (insert (Sv39Va.vpn2 va) S) T ∧
      ∃ N, Splitting a a' root N ∧ N.length + S.card = (insert (Sv39Va.vpn2 va) S).card := by
  have hi : Sv39Va.vpn2 va < entryCount := field_lt 30 9 va
  obtain ⟨i, hv⟩ : ∃ i, i = Sv39Va.vpn2 va := ⟨_, rfl⟩
  obtain ⟨_, _, N, _, hsplit, _⟩ := ensurePage2m_spec hw hrun
  unfold ensurePage2m at hrun
  obtain ⟨u, hcheck, hrun⟩ := Res.bind_eq_ok.mp hrun
  obtain ⟨hoff, hvpn⟩ := checkVa2m_eq_ok.mp hcheck
  rw [← hv] at hrun hi ⊢
  cases hleaf : pteInvalidOrLeaf (entry a.mem root i) with
  | false =>
    have hS : i ∈ S := (hT.one i hi).mp hleaf
    simp only [hleaf, Bool.false_eq_true, if_false] at hrun
    have ha : a = a' := (Prod.mk.inj (Except.ok.inj hrun)).2
    rw [Finset.insert_eq_of_mem hS, ← ha]
    exact ⟨hT, [], .refl hw, Nat.zero_add _⟩
  | true =>
    have hS : i ∉ S := fun hS => by
      rw [← hT.one i hi, hleaf] at hS
      exact nomatch hS
    simp only [hleaf, if_true] at hrun
    obtain ⟨⟨s, a₁⟩, hexp, hrun⟩ := Res.bind_eq_ok.mp hrun
    obtain ⟨hne, hx, hfill⟩ := expandSuperpage_spec hw.ok (entry_lt _ _ _) hexp
    have hsin : s ∈ [s] := List.mem_singleton_self s
    simp only [hne, if_false, setPage1g_pointer (hx.new_usable hsin) (hx.new_page hsin) hoff hvpn, Res.ok_bind, ← hv] at hrun
    have ha := (Prod.mk.inj (Except.ok.inj hrun)).2
    obtain ⟨pte, hpte⟩ : ∃ pte, pte = updatePte (PA s) pteValid (entry a₁.mem root i) := ⟨_, rfl⟩
    rw [← hpte] at ha
    obtain ⟨hx', _, _, _, hptr, hsub⟩ := expand_step (Nat.le_refl 1) hw.tree hw.kept hw.page hi hleaf hx hfill hpte
    rw [ha] at hx' hptr hsub
    have hsame : ∀ u ∈ tables a.mem 2 root, ∀ j < entryCount, u ≠ root ∨ j ≠ i → entry a'.mem u j = entry a.mem u j := by
      rw [← ha]
      exact same_entries hx hw.page hw.kept (fun _ _ => Set.notMem_empty _) hi
    have hN : N = [s] := hsplit.grow.new_eq hx'
    have hnew : s ≠ root := fun e => hx.not_new (hw.kept root table_mem_tables) (e ▸ hsin)
    refine ⟨⟨fun k hk => ?_, fun k hk hkS j hj => ?_, fun x hxT => Finset.mem_insert_of_mem (hT.below x hxT)⟩, N, hsplit, ?_⟩
    · rw [Finset.mem_insert]
      by_cases hki : k = i
      · rw [hki]
        exact iff_of_true hptr (.inl rfl)
      · rw [hsame root table_mem_tables k hk (.inr hki), hT.one k hk]
        exact (or_iff_right hki).symm
    · by_cases hki : k = i
      · -- the new table has leaves only
        rw [hki, hsub]
        have hentry : entry a'.mem s j = entry a₁.mem s j := by
          rw [← ha]
          exact entry_setEntry_of_ne hw.page (hx.new_page hsin) hi hj (.inl hnew)
        rw [hentry, hfill j hj, invalidOrLeaf_expandPte hleaf]
        exact iff_of_false nofun fun hin => hS (hT.below _ hin)
      · have hkS : k ∈ S := (Finset.mem_insert.mp hkS).resolve_left hki
        have hp := (hT.one k hk).mpr hkS
        rw [hsame root table_mem_tables k hk (.inr hki),
          hsame _ (subtable_mem_tables hk hp) j hj (.inl ((hw.sub hk hp).2 _ table_mem_tables).2)]
        exact hT.zero k hk hkS j hj
    · rw [hN, Finset.card_insert_of_notMem hS]
      exact Nat.add_comm _ _

/-- the entry of the table of level 1 becomes a pointer -/
theorem ensureSubtable_demand {r : Option Nat} (hw : WellFormed a root) (hT : Tabled a.mem root S T)
    (hoff : Sv39Va.off va = 0) (hvpn : Sv39Va.vpn0 va = 0) (hS : Sv39Va.vpn2 va ∈ S)
    (ht : table = subtableFromPte (entry a.mem root (Sv39Va.vpn2 va)))
    (hrun : ensureSubtable root va (entry a.mem table (Sv39Va.vpn1 va)) a = .ok (r, a')) :
    Tabled a'.mem root S (insert (Sv39Va.vpn2 va, Sv39Va.vpn1 va) T) ∧
      ∃ N, Splitting a a' root N ∧ N.length + T.card = (insert (Sv39Va.vpn2 va, Sv39Va.vpn1 va) T).card := by
  have hi2 : Sv39Va.vpn2 va < entryCount := field_lt 30 9 va
  have hi1 : Sv39Va.vpn1 va < entryCount := field_lt 21 9 va
  have hp := (hT.one _ hi2).mpr hS
  obtain ⟨N, _, hsplit, _⟩ := ensureSubtable_spec hw hoff hvpn hp ht hrun
  obtain ⟨htree, hsub⟩ := hw.sub hi2 hp
  rw [← ht] at htree hsub
  have hzero := hT.zero _ hi2 hS _ hi1
  rw [← ht] at hzero
  unfold ensureSubtable at hrun
  cases hleaf : pteInvalidOrLeaf (entry a.mem table (Sv39Va.vpn1 va)) with
  | false =>
    simp only [hleaf, Bool.false_eq_true, if_false] at hrun
    have ha : a = a' := (Prod.mk.inj (Except.ok.inj hrun)).2
    rw [Finset.insert_eq_of_mem (hzero.mp hleaf), ← ha]
    exact ⟨hT, [], .refl hw, Nat.zero_add _⟩
  | true =>
    have hnot : (Sv39Va.vpn2 va, Sv39Va.vpn1 va) ∉ T := fun hin => by
      rw [← hzero, hleaf] at hin
      exact nomatch hin
    simp only [hleaf, if_true] at hrun
    obtain ⟨⟨s, a₁⟩, hexp, hrun⟩ := Res.bind_eq_ok.mp hrun
    obtain ⟨hne, hx, hfill⟩ := expandSuperpage_spec hw.ok (entry_lt _ _ _) hexp
    have hsin : s ∈ [s] := List.mem_singleton_self s
    have hroot₁ : entry a₁.mem root (Sv39Va.vpn2 va) = entry a.mem root (Sv39Va.vpn2 va) :=
      entry_congr hi2 fun x h1 h2 => hx.same (hw.kept root table_mem_tables) hw.page (Set.notMem_empty _) ⟨h1, h2⟩
    have hens := ensurePage2m_of_pointer a₁ root hoff hvpn (by rw [hroot₁, hp])
    rw [hroot₁, ← ht] at hens
    obtain ⟨pte, hpte⟩ : ∃ pte, pte = updatePte (PA s) pteValid (entry a₁.mem table (Sv39Va.vpn1 va)) := ⟨_, rfl⟩
    have hset : setPage2m root va (PA s) pteValid a₁ = .ok (0, a₁.setEntry table (Sv39Va.vpn1 va) pte) := by
      unfold setPage2m
      simp only [off_PA (hx.new_usable hsin) (hx.new_page hsin), not_leaf_pteValid, ne_eq,
        not_true_eq_false, Bool.false_eq_true, and_false, or_self, if_false, hens, Res.ok_bind, hpte]
    simp only [hne, if_false, hset, Res.ok_bind] at hrun
    have ha : a₁.setEntry table (Sv39Va.vpn1 va) pte = a' := (Prod.mk.inj (Except.ok.inj hrun)).2
    have hpage : pageSize ∣ table := ht ▸ subtable_page _
    have hkept : ∀ u ∈ tables a.mem 1 table, a.KeptPage u := fun u hu => (hsub u hu).1
    obtain ⟨hx', _, _, _, hptr, _⟩ := expand_step (Nat.zero_le 1) htree hkept hpage hi1 hleaf hx hfill hpte
    rw [ha] at hx' hptr
    have hN : N = [s] := hsplit.grow.new_eq hx'
    have hsame : ∀ u ∈ tables a.mem 2 root, u ≠ table → SameTable a.mem a'.mem u := fun u hu hne i hi =>
      entry_congr hi fun y h1 h2 => hx'.same (hw.kept u hu) (tables_page hw.page u hu) hne ⟨h1, h2⟩
    have hself : ∀ j < entryCount, j ≠ Sv39Va.vpn1 va → entry a'.mem table j = entry a.mem table j := fun j hj hne => by
      rw [← ha]
      exact same_entries hx hpage hkept (fun _ _ => Set.notMem_empty _) hi1 table table_mem_tables j hj (.inr hne)
    have hroot : SameTable a.mem a'.mem root := hsame root table_mem_tables (hsub table table_mem_tables).2.symm
    -- the tables that other entries of the root lead to are other tables
    have hother : ∀ k < entryCount, k ≠ Sv39Va.vpn2 va → pteInvalidOrLeaf (entry a.mem root k) = false →
        subtableFromPte (entry a.mem root k) ≠ table := by
      intro k hk hne hpk he
      have hdis := (tree_succ.mp hw.tree).2 k hk _ hi2 hne
      rw [below_of_pointer hpk, below_of_pointer hp, ← ht, he] at hdis
      exact hdis table_mem_tables table_mem_tables
    refine ⟨⟨fun k hk => ?_, fun k hk hkS j hj => ?_, fun x hxT => ?_⟩, N, hsplit, ?_⟩
    · rw [hroot k hk]
      exact hT.one k hk
    · rw [hroot k hk, Finset.mem_insert, Prod.mk.injEq]
      by_cases hki : k = Sv39Va.vpn2 va
      · rw [hki, ← ht]
        by_cases hj1 : j = Sv39Va.vpn1 va
        · rw [hj1]
          exact iff_of_true hptr (.inl ⟨rfl, rfl⟩)
        · rw [hself j hj hj1, ht, hT.zero _ hi2 hS j hj]
          exact (or_iff_right fun h => hj1 h.2).symm
      · have hpk := (hT.one k hk).mpr hkS
        rw [hsame _ (subtable_mem_tables hk hpk) (hother k hk hki hpk) j hj, hT.zero k hk hkS j hj]
        exact (or_iff_right fun h => hki h.1).symm
    · cases Finset.mem_insert.mp hxT with
      | inl he =>
        rw [he]
        exact hS
      | inr hin => exact hT.below x hin
    · rw [hN, Finset.card_insert_of_notMem hnot]
      exact Nat.add_comm _ _

/-- a table of level 0 is neither the root nor a table of level 1 -/
theorem level0_apart (hw : WellFormed a root) (hi : i < entryCount) (hj : j < entryCount)
    (hp : pteInvalidOrLeaf (entry a.mem root i) = false)
    (hp' : pteInvalidOrLeaf (entry a.mem (subtableFromPte (entry a.mem root i)) j) = false)
    (hs : s = subtableFromPte (entry a.mem (subtableFromPte (entry a.mem root i)) j)) :
    root ≠ s ∧ ∀ k < entryCount, pteInvalidOrLeaf (entry a.mem root k) = false →
      subtableFromPte (entry a.mem root k) ≠ s := by
  obtain ⟨htree, hsub⟩ := hw.sub hi hp
  have hin : s ∈ tables a.mem 1 (subtableFromPte (entry a.mem root i)) := by
    refine mem_tables_succ.mpr (.inr ⟨j, hj, ?_⟩)
    rw [below_of_pointer hp', ← hs]
    exact table_mem_tables
  refine ⟨(hsub s hin).2.symm, fun k hk hpk he => ?_⟩
  by_cases hki : k = i
  · have hnot := ((tree_succ.mp htree).1 j hj).2
    rw [below_of_pointer hp', ← hs, ← he, hki] at hnot
    exact hnot table_mem_tables
  · have hdis := (tree_succ.mp hw.tree).2 k hk i hi hki
    rw [below_of_pointer hpk, below_of_pointer hp, he] at hdis
    exact hdis table_mem_tables hin

/-- set_page takes a page for each of the two tables that is missing -/
theorem setPage_demand {r : Int} (hw : WellFormed a root) (hf : flags < 2 ^ 8) (hT : Tabled a.mem root S T)
    (hrun : setPage root va pa flags a = .ok (r, a')) :
    Tabled a'.mem root (insert (Sv39Va.vpn2 va) S) (insert (Sv39Va.vpn2 va, Sv39Va.vpn1 va) T) ∧
      ∃ N, Splitting a a' root N ∧ N.length + (S.card + T.card)
        = (insert (Sv39Va.vpn2 va) S).card + (insert (Sv39Va.vpn2 va, Sv39Va.vpn1 va) T).card := by
  have hi2 : Sv39Va.vpn2 va < entryCount := field_lt 30 9 va
  have hi1 : Sv39Va.vpn1 va < entryCount := field_lt 21 9 va
  have hi0 : Sv39Va.vpn0 va < entryCount := field_lt 12 9 va
  obtain ⟨_, N, _, hsplit, _⟩ := setPage_spec hw hf hrun
  unfold setPage at hrun
  by_cases hmis : Sv39Va.off va ≠ 0 ∨ Sv39Pa.off pa ≠ 0
  · rw [if_pos hmis] at hrun
    exact absurd hrun Res.panic_ne_ok
  rw [if_neg hmis] at hrun
  have hv2 : Sv39Va.vpn2 (Sv39Va.setVpn0 0 va) = Sv39Va.vpn2 va := field_setField_above (by decide)
  have hv1 : Sv39Va.vpn1 (Sv39Va.setVpn0 0 va) = Sv39Va.vpn1 va := field_setField_above (by decide)
  obtain ⟨⟨r₁, a₁⟩, hens, hrun⟩ := Res.bind_eq_ok.mp hrun
  obtain ⟨hoff, hvpn, _, hr₁, _⟩ := ensurePage2m_spec hw hens
  obtain ⟨hT₁, N₁, hs₁, hlen₁⟩ := ensurePage2m_demand hw hT hens
  have hw₁ := hs₁.wellFormed hw
  simp only [hr₁] at hrun
  obtain ⟨⟨r₂, a₂⟩, hsub, hrun⟩ := Res.bind_eq_ok.mp hrun
  have hS : Sv39Va.vpn2 (Sv39Va.setVpn0 0 va) ∈ insert (Sv39Va.vpn2 (Sv39Va.setVpn0 0 va)) S := Finset.mem_insert_self _ _
  have hp₁ : pteInvalidOrLeaf (entry a₁.mem root (Sv39Va.vpn2 (Sv39Va.setVpn0 0 va))) = false :=
    (hT₁.one _ (field_lt 30 9 _)).mpr hS
  obtain ⟨_, hr₂, _, _, hroot, hp₂, _⟩ := ensureSubtable_spec hw₁ hoff hvpn hp₁ rfl hsub
  obtain ⟨hT₂, N₂, hs₂, hlen₂⟩ := ensureSubtable_demand hw₁ hT₁ hoff hvpn hS rfl hsub
  have hw₂ := hs₂.wellFormed hw₁
  simp only [hr₂] at hrun
  have ha := (Prod.mk.inj (Except.ok.inj hrun)).2
  rw [hv2, hv1] at ha hT₂ hlen₂ hp₂
  rw [hv2] at hlen₁ hp₁ hroot
  have hp₁' : pteInvalidOrLeaf (entry a₂.mem root (Sv39Va.vpn2 va)) = false := by
    rw [hroot]
    exact hp₁
  have hp₂' : pteInvalidOrLeaf (entry a₂.mem (subtableFromPte (entry a₂.mem root (Sv39Va.vpn2 va))) (Sv39Va.vpn1 va)) = false := by
    rw [hroot]
    exact hp₂
  obtain ⟨s, hs⟩ : ∃ s, s = subtableFromPte (entry a₂.mem (subtableFromPte (entry a₁.mem root (Sv39Va.vpn2 va)))
    (Sv39Va.vpn1 va)) := ⟨_, rfl⟩
  rw [← hs] at ha
  have hs' : s = subtableFromPte (entry a₂.mem (subtableFromPte (entry a₂.mem root (Sv39Va.vpn2 va))) (Sv39Va.vpn1 va)) := by
    rw [hs, hroot]
  obtain ⟨hne, hother⟩ := level0_apart hw₂ hi2 hi1 hp₁' hp₂' hs'
  have hspage : pageSize ∣ s := hs ▸ subtable_page _
  have hsame : ∀ u ∈ tables a₂.mem 2 root, u ≠ s → SameTable a₂.mem a'.mem u := fun u hu hus k hk => by
    rw [← ha]
    exact entry_setEntry_of_ne hspage (tables_page hw₂.page u hu) hi0 hk (.inl hus)
  have hnew : N = N₂ ++ N₁ := by
    have hout : a'.out = a₂.out := by
      rw [← ha]
      rfl
    have hall := (hs₁.trans hs₂).grow.out
    rw [← hout, hsplit.grow.out] at hall
    exact List.map_injective_iff.mpr pageAt_injective (List.append_cancel_right hall)
  refine ⟨hT₂.congr (hsame root table_mem_tables hne) fun k hk hkS => ?_, N, hsplit, ?_⟩
  · have hpk := (hT₂.one k hk).mpr hkS
    exact hsame _ (subtable_mem_tables hk hpk) (hother k hk hpk)
  · rw [hnew, List.length_append]
    omega

/-- set_page returns if there are as many pages as it takes -/
theorem Mm.Free.setPage (h : a.Free n) (hw : WellFormed a root) (hT : Tabled a.mem root S T)
    (hn : (insert (Sv39Va.vpn2 va) S).card + (insert (Sv39Va.vpn2 va, Sv39Va.vpn1 va) T).card ≤ n + (S.card + T.card))
    (hva : Sv39Va.off va = 0) (hpa : Sv39Pa.off pa = 0) : ∃ r a', setPage root va pa flags a = .ok (r, a') := by
  have hoff : Sv39Va.off (Sv39Va.setVpn0 0 va) = 0 := by
    rw [← hva]
    exact field_setField_below (by decide)
  have hvpn : Sv39Va.vpn0 (Sv39Va.setVpn0 0 va) = 0 := field_setField_self 12 9 0 va
  have hv2 : Sv39Va.vpn2 (Sv39Va.setVpn0 0 va) = Sv39Va.vpn2 va := field_setField_above (by decide)
  have hv1 : Sv39Va.vpn1 (Sv39Va.setVpn0 0 va) = Sv39Va.vpn1 va := field_setField_above (by decide)
  have hi2 : Sv39Va.vpn2 va < entryCount := field_lt 30 9 va
  have hi1 : Sv39Va.vpn1 va < entryCount := field_lt 21 9 va
  have hT1 := Finset.card_le_card (Finset.subset_insert (Sv39Va.vpn2 va, Sv39Va.vpn1 va) T)
  have hens : ∃ r a', ensurePage2m root (Sv39Va.setVpn0 0 va) a = .ok (r, a') := by
    unfold ensurePage2m
    rw [(checkVa2m_eq_ok (u := ())).mpr ⟨hoff, hvpn⟩, Res.ok_bind, hv2]
    cases hleaf : pteInvalidOrLeaf (entry a.mem root (Sv39Va.vpn2 va)) with
    | false =>
      simp only [hleaf, Bool.false_eq_true, if_false]
      exact ⟨_, _, rfl⟩
    | true =>
      have hS : Sv39Va.vpn2 va ∉ S := fun hS => by
        rw [← hT.one _ hi2, hleaf] at hS
        exact nomatch hS
      rw [Finset.card_insert_of_notMem hS] at hn
      obtain ⟨s, a₁, hexp⟩ := (h.mono (by omega : 0 + 1 ≤ n)).expandSuperpage (entry a.mem root (Sv39Va.vpn2 va)) 1
      obtain ⟨hne, hx, _⟩ := expandSuperpage_spec h.ok (entry_lt _ _ _) hexp
      have hs : s ∈ [s] := List.mem_singleton_self s
      simp only [hleaf, if_true, hexp, Res.ok_bind, hne, if_false,
        setPage1g_pointer (hx.new_usable hs) (hx.new_page hs) hoff hvpn]
      exact ⟨_, _, rfl⟩
  obtain ⟨r₁, a₁, hens⟩ := hens
  obtain ⟨_, _, _, rfl, _⟩ := ensurePage2m_spec hw hens
  obtain ⟨hT₁, N₁, hs₁, hlen₁⟩ := ensurePage2m_demand hw hT hens
  have hw₁ := hs₁.wellFormed hw
  have hfree : N₁.length ≤ n := by
    rw [hv2] at hlen₁
    omega
  obtain ⟨l, hl⟩ := Nat.exists_eq_add_of_le hfree
  have h₁ : a₁.Free l := (hl ▸ h).step hs₁.grow
  rw [hv2] at hlen₁ hT₁
  have hp₁ := (hT₁.one _ hi2).mpr (Finset.mem_insert_self _ _)
  unfold FakeKernel.setPage
  rw [if_neg fun h => h.elim (fun h => h hva) fun h => h hpa]
  simp only [hens, Res.ok_bind, hv2, hv1]
  obtain ⟨t, ht⟩ : ∃ t, t = subtableFromPte (entry a₁.mem root (Sv39Va.vpn2 va)) := ⟨_, rfl⟩
  obtain ⟨pte, hpte⟩ : ∃ pte, pte = entry a₁.mem t (Sv39Va.vpn1 va) := ⟨_, rfl⟩
  rw [← ht, ← hpte]
  have hsub : ∃ r a', ensureSubtable root (Sv39Va.setVpn0 0 va) pte a₁ = .ok (r, a') := by
    unfold ensureSubtable
    cases hleaf : pteInvalidOrLeaf pte with
    | false =>
      simp only [Bool.false_eq_true, if_false]
      exact ⟨_, _, rfl⟩
    | true =>
      have hnot : (Sv39Va.vpn2 va, Sv39Va.vpn1 va) ∉ T := fun hin => by
        rw [← hT₁.zero _ hi2 (Finset.mem_insert_self _ _) _ hi1, ← ht, ← hpte, hleaf] at hin
        exact nomatch hin
      rw [Finset.card_insert_of_notMem hnot] at hn
      obtain ⟨s, a₂, hexp⟩ := (h₁.mono (by omega : 0 + 1 ≤ l)).expandSuperpage pte 0
      have hpte' : pte < 2 ^ 64 := hpte ▸ entry_lt _ _ _
      obtain ⟨hne, hx, _⟩ := expandSuperpage_spec h₁.ok hpte' hexp
      have hs : s ∈ [s] := List.mem_singleton_self s
      have hroot : entry a₂.mem root (Sv39Va.vpn2 va) = entry a₁.mem root (Sv39Va.vpn2 va) :=
        entry_congr hi2 fun x h1 h2 =>
          hx.same (hw₁.kept root table_mem_tables) hw.page (Set.notMem_empty _) ⟨h1, h2⟩
      have hens' := ensurePage2m_of_pointer a₂ root hoff hvpn (by rw [hv2, hroot, hp₁])
      simp only [if_true, hexp, Res.ok_bind, hne, if_false, setPage2m,
        off_PA (hx.new_usable hs) (hx.new_page hs), not_leaf_pteValid, ne_eq, not_true_eq_false,
        Bool.false_eq_true, and_false, or_self, hens']
      exact ⟨_, _, rfl⟩
  obtain ⟨r₂, a₂, hsub⟩ := hsub
  rw [hsub, Res.ok_bind]
  cases r₂ with
  | none => exact ⟨_, _, rfl⟩
  | some s => exact ⟨_, _, rfl⟩

/-! ## what set_page costs -/

def Mm.spare (a : Mm) : Nat := a.sparePages.card

/-- the entries of the root and of the table of level 1 that a walk of `va` goes through -/
def slotOf (va : Nat) : Nat × Nat := (Sv39Va.vpn2 va, Sv39Va.vpn1 va)

def rootSlots (l : List (Nat × Nat)) : Finset Nat := (l.map Prod.fst).toFinset

/-- the tables below the root that are needed for the entries `l` -/
def tablesFor (l : List (Nat × Nat)) : Nat := (rootSlots l).card + l.toFinset.card

/-- those that `s` needs besides -/
def newTables (l : List (Nat × Nat)) (s : Nat × Nat) : Nat :=
  (if s.1 ∈ rootSlots l then 0 else 1) + (if s ∈ l then 0 else 1)

theorem rootSlots_cons (s : Nat × Nat) (l : List (Nat × Nat)) : rootSlots (s :: l) = insert s.1 (rootSlots l) :=
  List.toFinset_cons

theorem tablesFor_cons (s : Nat × Nat) (l : List (Nat × Nat)) : tablesFor (s :: l) = newTables l s + tablesFor l := by
  have hcard : ∀ {α : Type} [DecidableEq α] (S : Finset α) (y : α), (insert y S).card = (if y ∈ S then 0 else 1) + S.card := by
    intro α _ S y
    rw [Finset.card_insert_eq_ite]
    split <;> omega
  have hmem : s ∈ l.toFinset ↔ s ∈ l := List.mem_toFinset
  unfold tablesFor newTables
  rw [rootSlots_cons, List.toFinset_cons, hcard, hcard, if_congr hmem rfl rfl]
  omega

/-- a tree whose tables are those for the entries `l` -/
structure Rooted (a : Mm) (root : Nat) (l : List (Nat × Nat)) : Prop where
  wf : WellFormed a root
  tabled : Tabled a.mem root (rootSlots l) l.toFinset

theorem Rooted.extends {l : List (Nat × Nat)} (hr : Rooted a root l) (hx : Extends a a' W N)
    (hW : ∀ s ∈ tables a.mem 2 root, s ∉ W) : Rooted a' root l :=
  ⟨(hr.wf.extends hx hW).1, hr.tabled.extends hr.wf hx hW⟩

theorem Rooted.setPage {l : List (Nat × Nat)} (hr : Rooted a root l) (hf : flags < 2 ^ 8) (hva : Sv39Va.off va = 0)
    (hpa : Sv39Pa.off pa = 0) : Costs (setPage root va pa flags a) a.spare (newTables l (slotOf va)) (fun r => r.2.spare)
      fun r => r.1 = 0 ∧ Rooted r.2 root (slotOf va :: l) ∧ ∃ N, Splitting a r.2 root N := by
  have hcons := tablesFor_cons (slotOf va) l
  have hroots : rootSlots (slotOf va :: l) = insert (Sv39Va.vpn2 va) (rootSlots l) := rootSlots_cons _ l
  have hsubs : (slotOf va :: l).toFinset = insert (Sv39Va.vpn2 va, Sv39Va.vpn1 va) l.toFinset := List.toFinset_cons
  unfold tablesFor at hcons
  rw [hroots, hsubs] at hcons
  refine ⟨fun hle => ?_, fun r hrun => ?_⟩
  · obtain ⟨r, a', hrun⟩ : ∃ r a', FakeKernel.setPage root va pa flags a = .ok (r, a') :=
      Mm.Free.setPage ⟨hr.wf.ok, hle⟩ hr.wf hr.tabled (Nat.le_of_eq hcons) hva hpa
    exact ⟨_, hrun⟩
  · obtain ⟨ret, a'⟩ := r
    obtain ⟨hret, _⟩ := setPage_spec hr.wf hf hrun
    obtain ⟨hT, N, hsplit, hlen⟩ := setPage_demand hr.wf hf hr.tabled hrun
    refine ⟨⟨hret, ⟨hsplit.wellFormed hr.wf, ?_⟩, N, hsplit⟩, ?_⟩
    · rw [hroots, hsubs]
      exact hT
    · have hfree := hsplit.grow.free
      unfold Mm.spare
      show a.sparePages.card = _ + a'.sparePages.card
      omega

end FakeKernel
