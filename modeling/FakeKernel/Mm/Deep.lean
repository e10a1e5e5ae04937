import FakeKernel.Mm.Release

/-!
# Walks that end too deep

* `Deep`                an entry of level 0 on the way to an address is a pointer;
* `flat_iff`            a tree in which no walk does is `Flat`;
* `doDestroyPageTable_flat`   do_destroy_page_table does not return for any other tree;
* `ensurePage2m_deep`, `ensureSubtable_deep`   splitting superpages makes no such entry and removes none.
-/

namespace FakeKernel
open Bytes Bitfield Mm

variable {a a' a₀ a₁ : Mm} {m m' : Mem} {root table level n i s x y va pte : Nat} {D N : List Nat} {W : Set Nat}

/-- the walk for `x` meets pointers only, in a table of level 0 as well -/
def Deep (m : Mem) : Nat → Nat → Nat → Prop
  | 0, table, x => pteInvalidOrLeaf (entry m table (vpnAt 0 x)) = false
  | level + 1, table, x => pteInvalidOrLeaf (entry m table (vpnAt (level + 1) x)) = false ∧
    Deep m level (subtableFromPte (entry m table (vpnAt (level + 1) x))) x

theorem deep_succ : Deep m (level + 1) table x ↔ pteInvalidOrLeaf (entry m table (vpnAt (level + 1) x)) = false ∧
    Deep m level (subtableFromPte (entry m table (vpnAt (level + 1) x))) x := Iff.rfl

theorem not_deep_of_leaf (h : pteInvalidOrLeaf (entry m table (vpnAt level x)) = true) : ¬ Deep m level table x := by
  intro hd
  cases level with
  | zero =>
    have hd : pteInvalidOrLeaf (entry m table (vpnAt 0 x)) = false := hd
    rw [h] at hd
    exact nomatch hd
  | succ level =>
    have hd := hd.1
    rw [h] at hd
    exact nomatch hd

theorem deep_congr (h : ∀ s ∈ tables m level table, SameTable m m' s) :
    Deep m' level table x ↔ Deep m level table x := by
  induction level generalizing table with
  | zero =>
    show pteInvalidOrLeaf (entry m' table _) = false ↔ pteInvalidOrLeaf (entry m table _) = false
    rw [h table table_mem_tables _ (vpnAt_lt 0 x)]
  | succ level ih =>
    rw [deep_succ, deep_succ, h table table_mem_tables _ (vpnAt_lt _ x)]
    refine and_congr_right fun hp => ih fun s hs => h s ?_
    refine mem_tables_succ.mpr (.inr ⟨vpnAt (level + 1) x, vpnAt_lt _ x, ?_⟩)
    rw [below_of_pointer hp]
    exact hs

/-- only the entries that the walk selects matter -/
theorem deep_of_vpns (h : ∀ k ≤ level, vpnAt k x = vpnAt k y) : Deep m level table x ↔ Deep m level table y := by
  induction level generalizing table with
  | zero =>
    show pteInvalidOrLeaf (entry m table (vpnAt 0 x)) = false ↔ _
    rw [h 0 (Nat.le_refl 0)]
    rfl
  | succ level ih =>
    rw [deep_succ, deep_succ, h (level + 1) (Nat.le_refl _)]
    exact and_congr_right fun _ => ih fun k hk => h k (Nat.le_succ_of_le hk)

/-- the address whose walk goes through the entry `i` -/
theorem exists_vpnAt (level i x : Nat) (hi : i < entryCount) :
    ∃ y, vpnAt (level + 1) y = i ∧ ∀ k ≤ level, vpnAt k y = vpnAt k x := by
  refine ⟨setField (12 + 9 * (level + 1)) 9 i x, ?_, fun k hk => ?_⟩
  · exact (field_setField_self _ _ _ _).trans (Nat.mod_eq_of_lt hi)
  · exact field_setField_below (by omega)

theorem flat_iff : Flat m level table ↔ ∀ x, ¬ Deep m level table x := by
  induction level generalizing table with
  | zero =>
    refine ⟨fun hf x => not_deep_of_leaf (hf _ (vpnAt_lt 0 x)), fun h i hi => ?_⟩
    by_contra hp
    have hvpn : vpnAt 0 (i * 2 ^ 12) = i := by
      show i * 2 ^ 12 / 2 ^ 12 % 2 ^ 9 = i
      rw [Nat.mul_div_cancel _ (Nat.two_pow_pos 12)]
      exact Nat.mod_eq_of_lt hi
    refine h (i * 2 ^ 12) ?_
    show pteInvalidOrLeaf (entry m table (vpnAt 0 (i * 2 ^ 12))) = false
    rw [hvpn]
    exact Bool.eq_false_iff.mpr hp
  | succ level ih =>
    constructor
    · intro hf x hd
      exact ih.mp (hf _ (vpnAt_lt _ x) hd.1) x hd.2
    · intro h i hi hp
      refine ih.mpr fun x hd => ?_
      obtain ⟨y, hy, hlow⟩ := exists_vpnAt level i x hi
      refine h y (deep_succ.mpr ⟨?_, ?_⟩)
      · rw [hy]
        exact hp
      · rw [hy]
        exact (deep_of_vpns hlow).mpr hd

/-! ## a tree that is not flat -/

theorem checkEntries_flat (hn : i + n = entryCount)
    (hrun : forEntries (fun i a => if pteInvalidOrLeaf (entry a.mem table i) then .ok a
      else panic "invalid page table - too deep") n i a = .ok a') :
    ∀ j, i ≤ j → j < entryCount → pteInvalidOrLeaf (entry a.mem table j) = true := by
  induction n generalizing i with
  | zero => omega
  | succ n ih =>
    unfold forEntries at hrun
    obtain ⟨a₁, hone, hrun⟩ := Res.bind_eq_ok.mp hrun
    intro j hij hj
    cases hp : pteInvalidOrLeaf (entry a.mem table i) with
    | false =>
      rw [hp] at hone
      exact absurd hone Res.panic_ne_ok
    | true =>
      rw [hp] at hone
      have ha : a = a₁ := Except.ok.inj hone
      rw [← ha] at hrun
      cases Nat.eq_or_lt_of_le hij with
      | inl he =>
        rw [← he]
        exact hp
      | inr hlt => exact ih (by omega) hrun j hlt hj

theorem destroyEntries_flat (hok : a₀.Ok) (ht : Tree a₀.mem (level + 1) table)
    (hout : ∀ s ∈ tables a₀.mem (level + 1) table, pageAt s ∈ a₀.out)
    (ih : ∀ {a a' : Mm} {sub : Nat}, a.Ok → Tree a.mem level sub → (∀ s ∈ tables a.mem level sub, pageAt s ∈ a.out) →
      doDestroyPageTable level sub a = .ok a' → Flat a.mem level sub)
    (hn : i + n = entryCount) (hs : Shrinks a₀ a ∅ D) (hD : ∀ s, s ∈ D ↔ s ∈ belowUpTo a₀.mem level table i)
    (hrun : forEntries (fun i a =>
      let pte := entry a.mem table i
      if pteInvalidOrLeaf pte then .ok a
      else doDestroyPageTable level (subtableFromPte pte) a) n i a = .ok a') :
    ∀ j, i ≤ j → j < entryCount → pteInvalidOrLeaf (entry a₀.mem table j) = false →
      Flat a₀.mem level (subtableFromPte (entry a₀.mem table j)) := by
  induction n generalizing i a D with
  | zero => omega
  | succ n ihn =>
    have hi : i < entryCount := by omega
    obtain ⟨hroot, _⟩ := rest_sameTable hok ht hout hs (Set.empty_subset _) hD hi
    have hentry : entry a.mem table i = entry a₀.mem table i :=
      hs.sameTable hok (hout table table_mem_tables) hroot (Set.notMem_empty _) i hi
    unfold forEntries at hrun
    simp only [hentry] at hrun
    intro j hij hj hpj
    cases hp : pteInvalidOrLeaf (entry a₀.mem table i) with
    | true =>
      simp only [hp, if_true, Res.ok_bind] at hrun
      cases Nat.eq_or_lt_of_le hij with
      | inl he =>
        rw [← he, hp] at hpj
        cases hpj
      | inr hlt =>
        refine ihn (by omega) hs (fun s => ?_) hrun j hlt hj hpj
        rw [belowUpTo_succ, below_of_leaf hp, List.append_nil]
        exact hD s
    | false =>
      simp only [hp, Bool.false_eq_true, if_false] at hrun
      obtain ⟨sub, hsub⟩ : ∃ sub, sub = subtableFromPte (entry a₀.mem table i) := ⟨_, rfl⟩
      obtain ⟨htree, hout', _, hsame⟩ := rest_destroy hok ht hout hs (Set.empty_subset _) hD hi hp hsub
      rw [← hsub] at hrun
      obtain ⟨a₁, hrun₁, hrun⟩ := Res.bind_eq_ok.mp hrun
      cases Nat.eq_or_lt_of_le hij with
      | inl he =>
        rw [← he, ← hsub]
        exact (ih hs.ok htree hout' hrun₁).congr fun s hs' i hi => (hsame s (tables_congr hsame ▸ hs') i hi).symm
      | inr hlt =>
        obtain ⟨D₁, hs₁, hD₁⟩ := (doDestroyPageTable_spec hs.ok htree hout').shrinks a₁ hrun₁
        refine ihn (by omega) (hs.trans hs₁ (Set.empty_subset _)) (fun s => ?_) hrun j hlt hj hpj
        rw [List.mem_append, hD₁, tables_congr hsame, hD, belowUpTo_succ, List.mem_append, below_of_pointer hp, ← hsub]
        exact or_comm

/-- do_destroy_page_table returns for flat trees only -/
theorem doDestroyPageTable_flat (hok : a.Ok) (ht : Tree a.mem level table)
    (hout : ∀ s ∈ tables a.mem level table, pageAt s ∈ a.out) (hrun : doDestroyPageTable level table a = .ok a') :
    Flat a.mem level table := by
  induction level generalizing a a' table with
  | zero =>
    unfold doDestroyPageTable at hrun
    obtain ⟨a₁, hloop, _⟩ := Res.bind_eq_ok.mp hrun
    exact fun i hi => checkEntries_flat (Nat.zero_add _) hloop i (Nat.zero_le i) hi
  | succ level ih =>
    unfold doDestroyPageTable at hrun
    obtain ⟨a₁, hloop, _⟩ := Res.bind_eq_ok.mp hrun
    have hD : ∀ s, s ∈ ([] : List Nat) ↔ s ∈ belowUpTo a.mem level table 0 := fun s => by simp [belowUpTo]
    exact fun i hi hp => destroyEntries_flat hok ht hout ih (Nat.zero_add _) (.refl hok) hD hloop i (Nat.zero_le i) hi hp

/-! ## splitting superpages -/

/-- only what the entry `i` leads to changes -/
theorem deep_lift (ht : Tree m (level + 1) table) (hi : i < entryCount) (hp : pteInvalidOrLeaf (entry m table i) = false)
    (hsame : ∀ s ∈ tables m (level + 1) table, s ∉ tables m level (subtableFromPte (entry m table i)) →
      SameTable m m' s) :
    Deep m' (level + 1) table x ↔ if vpnAt (level + 1) x = i then Deep m' level (subtableFromPte (entry m table i)) x
      else Deep m (level + 1) table x := by
  obtain ⟨heach, hdis⟩ := tree_succ.mp ht
  have hroot : table ∉ tables m level (subtableFromPte (entry m table i)) := by
    have hnot := (heach i hi).2
    rwa [below_of_pointer hp] at hnot
  have hj : vpnAt (level + 1) x < entryCount := vpnAt_lt _ x
  rw [deep_succ, hsame table table_mem_tables hroot _ hj]
  by_cases hji : vpnAt (level + 1) x = i
  · rw [if_pos hji, hji]
    exact and_iff_right hp
  · rw [if_neg hji, deep_succ]
    refine and_congr_right fun hpj => deep_congr fun s hs => ?_
    rw [← below_of_pointer hpj] at hs
    refine hsame s (mem_tables_succ.mpr (.inr ⟨_, hj, hs⟩)) fun hs' => ?_
    rw [← below_of_pointer hp] at hs'
    exact hdis _ hj i hi hji hs hs'

/-- the entry `i` becomes a pointer to the table `s` that expand_superpage filled -/
theorem deep_expand (hl : level ≤ 1) (ht : Tree a.mem (level + 1) table)
    (hkept : ∀ u ∈ tables a.mem (level + 1) table, a.KeptPage u) (hpage : pageSize ∣ table) (hi : i < entryCount)
    (hleaf : pteInvalidOrLeaf (entry a.mem table i) = true) (hx : Extends a a₁ ∅ [s])
    (hfill : ∀ j < entryCount, entry a₁.mem s j = expandPte (entry a.mem table i) level j)
    (hpte : pte = updatePte (PA s) pteValid (entry a₁.mem table i)) :
    Deep (a₁.setEntry table i pte).mem (level + 1) table x ↔ Deep a.mem (level + 1) table x := by
  obtain ⟨_, _, _, _, hptr, hsub⟩ := expand_step hl ht hkept hpage hi hleaf hx hfill hpte
  have hsame : ∀ u ∈ tables a.mem (level + 1) table, ∀ j < entryCount, u ≠ table ∨ j ≠ i →
      entry (a₁.setEntry table i pte).mem u j = entry a.mem u j :=
    same_entries hx hpage hkept (fun _ _ => Set.notMem_empty _) hi
  have hsin : s ∈ [s] := List.mem_singleton_self s
  have hnew : s ≠ table := fun e => hx.not_new (hkept table table_mem_tables) (e ▸ hsin)
  have hleaves : ∀ j < entryCount, pteInvalidOrLeaf (entry (a₁.setEntry table i pte).mem s j) = true := by
    intro j hj
    have hsj : entry (a₁.setEntry table i pte).mem s j = entry a₁.mem s j :=
      entry_setEntry_of_ne hpage (hx.new_page hsin) hi hj (.inl hnew)
    rw [hsj, hfill j hj]
    exact invalidOrLeaf_expandPte hleaf
  have hj : vpnAt (level + 1) x < entryCount := vpnAt_lt _ x
  by_cases hji : vpnAt (level + 1) x = i
  · refine iff_of_false (fun hd => ?_) (not_deep_of_leaf (hji ▸ hleaf))
    have hd := hd.2
    rw [hji, hsub] at hd
    exact not_deep_of_leaf (hleaves _ (vpnAt_lt level x)) hd
  · rw [deep_succ, deep_succ, hsame table table_mem_tables _ hj (.inr hji)]
    refine and_congr_right fun hp => deep_congr fun u hu k hk => hsame u ?_ k hk (.inl fun e => ?_)
    · refine mem_tables_succ.mpr (.inr ⟨_, hj, ?_⟩)
      rwa [below_of_pointer hp]
    · have htable := ((tree_succ.mp ht).1 _ hj).2
      rw [below_of_pointer hp] at htable
      rw [e] at hu
      exact htable hu

/-- a change below the entry `i` of the root -/
theorem deep_liftRoot (hw : WellFormed a root) (hi : i < entryCount) (hp : pteInvalidOrLeaf (entry a.mem root i) = false)
    (hx : Extends a a' W N) (hW : ∀ w ∈ W, w ∈ tables a.mem 1 (subtableFromPte (entry a.mem root i))) :
    Deep a'.mem 2 root x ↔ if vpnAt 2 x = i then Deep a'.mem 1 (subtableFromPte (entry a.mem root i)) x
      else Deep a.mem 2 root x := by
  refine deep_lift hw.tree hi hp fun u hu hout k hk => entry_congr hk fun y h1 h2 => ?_
  exact hx.same (hw.kept u hu) (tables_page hw.page u hu) (fun h => hout (hW u h)) ⟨h1, h2⟩

theorem ensurePage2m_deep {r : Option (Nat × Nat)} (hw : WellFormed a root)
    (hrun : ensurePage2m root va a = .ok (r, a')) : Deep a'.mem 2 root x ↔ Deep a.mem 2 root x := by
  unfold ensurePage2m at hrun
  obtain ⟨u, hcheck, hrun⟩ := Res.bind_eq_ok.mp hrun
  obtain ⟨hoff, hvpn⟩ := checkVa2m_eq_ok.mp hcheck
  cases hleaf : pteInvalidOrLeaf (entry a.mem root (Sv39Va.vpn2 va)) with
  | false =>
    simp only [hleaf, Bool.false_eq_true, if_false] at hrun
    cases hrun
    exact Iff.rfl
  | true =>
    simp only [hleaf, if_true] at hrun
    obtain ⟨⟨s, a₁⟩, hexp, hrun⟩ := Res.bind_eq_ok.mp hrun
    obtain ⟨hne, hx, hfill⟩ := expandSuperpage_spec hw.ok (entry_lt _ _ _) hexp
    have hsin : s ∈ [s] := List.mem_singleton_self s
    simp only [hne, if_false,
      setPage1g_pointer (hx.new_usable hsin) (hx.new_page hsin) hoff hvpn, Res.ok_bind] at hrun
    cases hrun
    exact deep_expand (Nat.le_refl 1) hw.tree hw.kept hw.page (field_lt 30 9 va) hleaf hx hfill rfl

theorem ensureSubtable_deep {r : Option Nat} (hw : WellFormed a root)
    (hoff : Sv39Va.off va = 0) (hvpn : Sv39Va.vpn0 va = 0)
    (hp : pteInvalidOrLeaf (entry a.mem root (Sv39Va.vpn2 va)) = false)
    (ht : table = subtableFromPte (entry a.mem root (Sv39Va.vpn2 va)))
    (hrun : ensureSubtable root va (entry a.mem table (Sv39Va.vpn1 va)) a = .ok (r, a')) :
    Deep a'.mem 2 root x ↔ Deep a.mem 2 root x := by
  have hi2 : Sv39Va.vpn2 va < entryCount := field_lt 30 9 va
  have hi1 : Sv39Va.vpn1 va < entryCount := field_lt 21 9 va
  unfold ensureSubtable at hrun
  cases hleaf : pteInvalidOrLeaf (entry a.mem table (Sv39Va.vpn1 va)) with
  | false =>
    simp only [hleaf, Bool.false_eq_true, if_false] at hrun
    cases hrun
    exact Iff.rfl
  | true =>
    simp only [hleaf, if_true] at hrun
    obtain ⟨⟨s, a₁⟩, hexp, hrun⟩ := Res.bind_eq_ok.mp hrun
    obtain ⟨hne, hx, hfill⟩ := expandSuperpage_spec hw.ok (entry_lt _ _ _) hexp
    have hsin : s ∈ [s] := List.mem_singleton_self s
    have hroot₁ : entry a₁.mem root (Sv39Va.vpn2 va) = entry a.mem root (Sv39Va.vpn2 va) :=
      entry_congr hi2 fun x h1 h2 =>
        hx.same (hw.kept root table_mem_tables) hw.page (Set.notMem_empty _) ⟨h1, h2⟩
    have hens := ensurePage2m_of_pointer a₁ root hoff hvpn (by rw [hroot₁, hp])
    rw [hroot₁, ← ht] at hens
    have hset : setPage2m root va (PA s) pteValid a₁ = .ok (0, a₁.setEntry table (Sv39Va.vpn1 va)
        (updatePte (PA s) pteValid (entry a₁.mem table (Sv39Va.vpn1 va)))) := by
      unfold setPage2m
      simp only [off_PA (hx.new_usable hsin) (hx.new_page hsin), not_leaf_pteValid, ne_eq,
        not_true_eq_false, Bool.false_eq_true, and_false, or_self, if_false, hens, Res.ok_bind]
    simp only [hne, if_false, hset, Res.ok_bind] at hrun
    cases hrun
    obtain ⟨htree, hkept⟩ := hw.sub hi2 hp
    have hpage : pageSize ∣ table := ht ▸ subtable_page _
    rw [← ht] at htree hkept
    have hkept' : ∀ u ∈ tables a.mem 1 table, a.KeptPage u := fun u hu => (hkept u hu).1
    obtain ⟨hx', _⟩ := expand_step (Nat.zero_le 1) htree hkept' hpage hi1 hleaf hx hfill rfl
    have htwo : vpnAt 2 va = Sv39Va.vpn2 va := rfl
    rw [deep_liftRoot hw hi2 hp hx' fun w h => by
      rw [Set.mem_singleton_iff.mp h, ← ht]
      exact table_mem_tables, ← ht]
    by_cases hv : vpnAt 2 x = Sv39Va.vpn2 va
    · rw [if_pos hv, deep_expand (Nat.zero_le 1) htree hkept' hpage hi1 hleaf hx hfill rfl]
      have hroot : Deep a.mem (1 + 1) root x ↔ _ := deep_succ
      rw [hv, ← ht] at hroot
      exact (hroot.trans (and_iff_right hp)).symm
    · rw [if_neg hv]

end FakeKernel
