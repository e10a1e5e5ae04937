import FakeKernel.Mm.Refine

/-!
# Allocations that succeed

`Room a n`: every outstanding block is one page and at least `n` pages of the region are free.  As
long as there is room, the functions of mm.c that allocate return.

* `Room.step`      a step that took some pages leaves the rest of the room;
* `Room.alloc`, `Room.kmalloc`, `Room.createPageTable`, `Room.setPage`.
-/

namespace FakeKernel
open Bytes Bitfield Mm

structure Mm.Room (a : Mm) (n : Nat) : Prop where
  ok : a.Ok
  order : ∀ p ∈ a.out, p.order = 0
  length : a.out.length + n ≤ pageCount

variable {a a' : Mm} {root va pa flags n : Nat} {N : List Nat} {W : Set Nat}

namespace Mm.Room

theorem mono {m : Nat} (hr : a.Room n) (hm : m ≤ n) : a.Room m :=
  ⟨hr.ok, hr.order, by have := hr.length; omega⟩

theorem step (hr : a.Room n) (hx : Extends a a' W N) {m : Nat} (hm : N.length + m ≤ n) :
    a'.Room m := by
  refine ⟨hx.ok, fun p hp => ?_, ?_⟩
  · rw [hx.out] at hp
    cases List.mem_append.mp hp with
    | inl hnew =>
      obtain ⟨s, _, rfl⟩ := List.mem_map.mp hnew
      rfl
    | inr hold => exact hr.order p hold
  · rw [hx.out, List.length_append, List.length_map]
    have := hr.length
    omega

theorem length_lt (hr : a.Room (n + 1)) : a.out.length < pageCount := by
  have := hr.length
  omega

theorem alloc (hr : a.Room (n + 1)) : ∃ p a', a.allocPages 0 = .ok (p, a') :=
  hr.ok.alloc_succeeds hr.order hr.length_lt

theorem kmalloc (hr : a.Room (n + 1)) {size : Nat} (hs : size ≤ 4092) :
    ∃ buf a', a.kmalloc size = .ok (buf, a') :=
  hr.ok.kmalloc_succeeds hr.order hr.length_lt hs

theorem createPageTable (hr : a.Room (n + 1)) : ∃ root a', createPageTable a = .ok (root, a') :=
  createPageTable_succeeds hr.ok hr.order hr.length_lt

theorem expandSuperpage (hr : a.Room (n + 1)) (pte level : Nat) :
    ∃ s a', expandSuperpage pte level a = .ok (s, a') := by
  obtain ⟨p, a₁, halloc⟩ := hr.alloc
  unfold FakeKernel.expandSuperpage
  rw [halloc, Res.ok_bind]
  by_cases h0 : p.address = 0
  · simp only [h0, if_true]
    exact ⟨_, _, rfl⟩
  · simp only [h0, if_false]
    exact ⟨_, _, rfl⟩

theorem ensurePage2m (hr : a.Room (n + 1)) (hoff : Sv39Va.off va = 0) (hvpn : Sv39Va.vpn0 va = 0) :
    ∃ r a', ensurePage2m root va a = .ok (r, a') := by
  unfold FakeKernel.ensurePage2m
  rw [(checkVa2m_eq_ok (u := ())).mpr ⟨hoff, hvpn⟩, Res.ok_bind]
  cases hleaf : pteInvalidOrLeaf (entry a.mem root (Sv39Va.vpn2 va)) with
  | false =>
    simp only [hleaf, Bool.false_eq_true, if_false]
    exact ⟨_, _, rfl⟩
  | true =>
    obtain ⟨s, a₁, hexp⟩ := hr.expandSuperpage (entry a.mem root (Sv39Va.vpn2 va)) 1
    obtain ⟨hne, hx, _⟩ := expandSuperpage_spec hr.ok (entry_lt _ _ _) hexp
    have hs : s ∈ [s] := List.mem_singleton_self s
    simp only [hleaf, if_true, hexp, Res.ok_bind, hne, if_false,
      setPage1g_pointer (hx.new_usable hs) (hx.new_page hs) hoff hvpn]
    exact ⟨_, _, rfl⟩

theorem setPage (hr : a.Room (n + 2)) (hw : WellFormed a root) (hva : Sv39Va.off va = 0)
    (hpa : Sv39Pa.off pa = 0) : ∃ r a', setPage root va pa flags a = .ok (r, a') := by
  have hoff : Sv39Va.off (Sv39Va.setVpn0 0 va) = 0 := by
    rw [← hva]
    exact field_setField_below (by decide)
  have hvpn : Sv39Va.vpn0 (Sv39Va.setVpn0 0 va) = 0 := field_setField_self 12 9 0 va
  unfold FakeKernel.setPage
  rw [if_neg fun h => h.elim (fun h => h hva) fun h => h hpa]
  have hr₀ : a.Room (n + 1) := hr.mono (by omega)
  obtain ⟨r₁, a₁, hens⟩ : ∃ r a', FakeKernel.ensurePage2m root (Sv39Va.setVpn0 0 va) a = .ok (r, a') :=
    hr₀.ensurePage2m hoff hvpn
  obtain ⟨_, _, N₁, rfl, he₁, _, hp₁, hlen₁⟩ := ensurePage2m_spec hw hens
  have hr₁ : a₁.Room (n + 1) := hr.step he₁.grow (by omega)
  simp only [hens, Res.ok_bind]
  obtain ⟨t, ht⟩ : ∃ t, t = subtableFromPte (entry a₁.mem root
      (Sv39Va.vpn2 (Sv39Va.setVpn0 0 va))) := ⟨_, rfl⟩
  obtain ⟨pte, hpte⟩ : ∃ pte, pte = entry a₁.mem t (Sv39Va.vpn1 (Sv39Va.setVpn0 0 va)) := ⟨_, rfl⟩
  rw [← ht, ← hpte]
  have hsub : ∃ r a', ensureSubtable root (Sv39Va.setVpn0 0 va) pte a₁ = .ok (r, a') := by
    unfold ensureSubtable
    cases hleaf : pteInvalidOrLeaf pte with
    | false =>
      simp only [Bool.false_eq_true, if_false]
      exact ⟨_, _, rfl⟩
    | true =>
      obtain ⟨s, a₂, hexp⟩ := hr₁.expandSuperpage pte 0
      have hpte' : pte < 2 ^ 64 := hpte ▸ entry_lt _ _ _
      obtain ⟨hne, hx, _⟩ := expandSuperpage_spec hr₁.ok hpte' hexp
      have hs : s ∈ [s] := List.mem_singleton_self s
      have hw₁ := he₁.wellFormed hw
      have hroot : entry a₂.mem root (Sv39Va.vpn2 (Sv39Va.setVpn0 0 va))
          = entry a₁.mem root (Sv39Va.vpn2 (Sv39Va.setVpn0 0 va)) :=
        entry_congr (field_lt 30 9 _) fun x h1 h2 =>
          hx.same (hw₁.kept root table_mem_tables) hw.page (Set.notMem_empty _) ⟨h1, h2⟩
      have hens' := ensurePage2m_of_pointer a₂ root hoff hvpn (by rw [hroot, hp₁])
      simp only [if_true, hexp, Res.ok_bind, hne, if_false, setPage2m,
        off_PA (hx.new_usable hs) (hx.new_page hs), not_leaf_pteValid, ne_eq, not_true_eq_false,
        Bool.false_eq_true, and_false, or_self, hens']
      exact ⟨_, _, rfl⟩
  obtain ⟨r₂, a₂, hsub⟩ := hsub
  rw [hsub, Res.ok_bind]
  cases r₂ with
  | none => exact ⟨_, _, rfl⟩
  | some s => exact ⟨_, _, rfl⟩

end Mm.Room

end FakeKernel
