import FakeKernel.Mm.Slot
import FakeKernel.Mm.Refine

/-!
# Unmapping a page (unset_page, unset_page_2m, unset_page_1g)

* `SetsSlot`, `setPage_slot`, `setPage2m_slot`, `setPage1g_slot`   set_page splits superpages and then
  writes one entry;
* `unsetPage_cases`, `unsetPage2m_cases`, `unsetPage1g_cases`      what the three functions write;
* `unset_page_exact`                                               which page is gone afterwards.
-/

namespace FakeKernel
open Bytes Bitfield Mm

variable {a a' : Mm} {root s level va pa flags pte x : Nat} {r : Int}

/-! ## entries -/

theorem flags_clearValid (pte : Nat) : Sv39Pte.flags (clearValid pte) &&& pteValid = 0 := by
  have hf : Sv39Pte.flags (clearValid pte) = (Sv39Pte.flags pte &&& (2 ^ 32 - 1 - pteValid)) % 2 ^ 8 :=
    field_setField_self _ _ _ _
  have hand : (Sv39Pte.flags pte &&& (2 ^ 32 - 1 - pteValid)) &&& pteValid = 0 := by
    rw [Nat.and_assoc]
    exact Nat.and_zero _
  unfold pteValid at *
  rw [hf, Nat.and_one_is_mod, Nat.mod_mod_of_dvd _ (by decide), ← Nat.and_one_is_mod]
  exact hand

theorem clearValid_lt (hpte : pte < 2 ^ 64) : clearValid pte < 2 ^ 64 := setField_lt (by decide) hpte

theorem invalidOrLeaf_clearValid (pte : Nat) : pteInvalidOrLeaf (clearValid pte) = true := by
  unfold pteInvalidOrLeaf
  rw [flags_clearValid]
  rfl

theorem leafAt_clearValid : leafAt level (clearValid pte) x = none := by
  unfold leafAt
  rw [flags_clearValid]
  rfl

/-- an entry has 8 bits of flags -/
theorem updatePte_mod : updatePte pa (flags % 2 ^ 8) pte = updatePte pa flags pte := by
  unfold updatePte Sv39Pte.setFlags setField
  rw [Nat.mod_mod]

theorem and_mod_of_lt {f : Nat} (hf : f < 2 ^ 8) : flags % 2 ^ 8 &&& f = flags &&& f := by
  rw [← Nat.and_two_pow_sub_one_eq_mod, Nat.and_assoc, Nat.and_comm (2 ^ 8 - 1), Nat.and_two_pow_sub_one_eq_mod,
    Nat.mod_eq_of_lt hf]

theorem pteIsLeaf_mod : pteIsLeaf (flags % 2 ^ 8) = pteIsLeaf flags := by
  unfold pteIsLeaf
  rw [and_mod_of_lt (by decide)]

/-! ## what set_page writes -/

/-- superpages are split, and then the entry for `va` in a table of `level` is written; `spare` says that
no table was below that entry -/
structure SetsSlot (a a' : Mm) (root va level pa flags : Nat) (spare : Prop) (N : List Nat) (a₁ : Mm) (s : Nat) : Prop where
  split : Splitting a a₁ root N
  walk : ∀ x, walk a₁.mem 2 root x = walk a.mem 2 root x
  deep : ∀ x, Deep a₁.mem 2 root x ↔ Deep a.mem 2 root x
  path : Path a₁.mem va level s 2 root
  write : a' = a₁.setEntry s (vpnAt level va) (updatePte pa flags (entry a₁.mem s (vpnAt level va)))
  spare : spare → level = 0 ∨ pteInvalidOrLeaf (entry a₁.mem s (vpnAt level va)) = true
  pa : pteIsLeaf flags = true → 2 ^ (12 + 9 * level) ∣ pa
  le : level ≤ 2

theorem SetsSlot.wellFormed {spare : Prop} {N : List Nat} {a₁ : Mm} (h : SetsSlot a a' root va level pa flags spare N a₁ s)
    (hw : WellFormed a root) : WellFormed a₁ root := h.split.wellFormed hw

/-- what set_page writes is a leaf, or is not valid -/
theorem SetsSlot.written {spare : Prop} {N : List Nat} {a₁ : Mm} (h : SetsSlot a a' root va level pa flags spare N a₁ s)
    (hw : WellFormed a root) (hl : pteIsLeaf flags = true ∨ flags &&& pteValid = 0) : Edit a₁ a' root [] ∧
      SlotWrite a₁ a' va level s (updatePte pa flags (entry a₁.mem s (vpnAt level va))) 2 root := by
  have hl' : pteIsLeaf (flags % 2 ^ 8) = true ∨ flags % 2 ^ 8 &&& pteValid = 0 := by
    rw [pteIsLeaf_mod, and_mod_of_lt (by decide)]
    exact hl
  have hlt : flags % 2 ^ 8 < 2 ^ 8 := Nat.mod_lt _ (by decide)
  rw [h.write]
  refine (h.wellFormed hw).write h.path (updatePte_lt (entry_lt _ _ _)) ?_ fun hv => ?_
  · rw [← updatePte_mod]
    exact invalidOrLeaf_updatePte hlt hl'
  · rw [flags_updatePte, and_mod_of_lt (by decide)] at hv
    rw [ppn_updatePte]
    exact (ppn_pa (h.pa (leaf_of_valid hl hv)) h.le).2

theorem SetsSlot.translates {spare : Prop} {N : List Nat} {a₁ : Mm}
    (h : SetsSlot a a' root va level pa flags spare N a₁ s) (hw : WellFormed a root)
    (hl : pteIsLeaf flags = true ∨ flags &&& pteValid = 0) (x : Nat) : FakeKernel.walk a'.mem 2 root x
      = if SamePage level x va then setLeaf level pa (flags % 2 ^ 8) x else FakeKernel.walk a.mem 2 root x := by
  obtain ⟨hsame, hother⟩ := (h.written hw hl).2.walk x
  rw [sameWay_samePage h.le] at hsame hother
  by_cases hx : SamePage level x va
  · rw [if_pos hx, hsame hx, ← updatePte_mod]
    exact leafAt_updatePte (Nat.mod_lt _ (by decide)) (fun hleaf => h.pa (pteIsLeaf_mod ▸ hleaf)) h.le
  · rw [if_neg hx, hother hx, h.walk]

/-- which walks end too deep afterwards -/
theorem SetsSlot.deep_iff {spare : Prop} {N : List Nat} {a₁ : Mm}
    (h : SetsSlot a a' root va level pa flags spare N a₁ s) (hw : WellFormed a root)
    (hl : level = 0 ∨ pteIsLeaf flags = true ∨ flags &&& pteValid = 0) (x : Nat) : Deep a'.mem 2 root x ↔
      if SamePage level x va then pteIsLeaf flags = false ∧ flags &&& pteValid ≠ 0 else Deep a.mem 2 root x := by
  have hbits : ∀ old, pteInvalidOrLeaf (updatePte pa flags old) = false ↔
      pteIsLeaf flags = false ∧ flags &&& pteValid ≠ 0 := by
    intro old
    unfold pteInvalidOrLeaf
    rw [flags_updatePte, pteIsLeaf_mod, and_mod_of_lt (by decide)]
    simp [and_comm]
  rw [h.write, (h.wellFormed hw).write_deep h.path (updatePte_lt (entry_lt _ _ _)) ?_, hbits, h.deep]
  refine hl.imp_right fun hl => ?_
  rw [← updatePte_mod]
  refine invalidOrLeaf_updatePte (Nat.mod_lt _ (by decide)) ?_
  rw [pteIsLeaf_mod, and_mod_of_lt (by decide)]
  exact hl

theorem SetsSlot.flat {spare : Prop} {N : List Nat} {a₁ : Mm}
    (h : SetsSlot a a' root va level pa flags spare N a₁ s) (hw : WellFormed a root)
    (hl : pteIsLeaf flags = true ∨ flags &&& pteValid = 0) (hf : Flat a.mem 2 root) : Flat a'.mem 2 root := by
  refine flat_iff.mpr fun x hd => ?_
  rw [h.deep_iff hw (.inr hl)] at hd
  by_cases hx : SamePage level x va
  · rw [if_pos hx] at hd
    rw [hd.1] at hl
    exact hl.elim nofun hd.2
  · rw [if_neg hx] at hd
    exact flat_iff.mp hf x hd

/-- the way to the entry is there afterwards, and the entry is what was written -/
theorem SetsSlot.path_after {spare : Prop} {N : List Nat} {a₁ : Mm}
    (h : SetsSlot a a' root va level pa flags spare N a₁ s) (hw : WellFormed a root) :
    Path a'.mem va level s 2 root ∧
      entry a'.mem s (vpnAt level va) = updatePte pa flags (entry a₁.mem s (vpnAt level va)) := by
  have hw₁ := h.wellFormed hw
  rw [h.write]
  exact ⟨h.path.setEntry hw₁.tree hw₁.page _, entry_setEntry_self (updatePte_lt (entry_lt _ _ _))⟩

/-- no table is below the entry of level 1 for `va` -/
def Spare (m : Mem) (root va : Nat) : Prop :=
  pteInvalidOrLeaf (entry m root (Sv39Va.vpn2 va)) = true ∨
    pteInvalidOrLeaf (entry m (subtableFromPte (entry m root (Sv39Va.vpn2 va))) (Sv39Va.vpn1 va)) = true

/-- no table is below the entry of level 1 that ensure_page_2m leads to, if none was before -/
theorem ensurePage2m_spare {q : Option (Nat × Nat)} (hw : WellFormed a root) (hspare : Spare a.mem root va)
    (hrun : ensurePage2m root va a = .ok (q, a')) :
    pteInvalidOrLeaf (entry a'.mem (subtableFromPte (entry a'.mem root (Sv39Va.vpn2 va))) (Sv39Va.vpn1 va)) = true := by
  obtain ⟨hoff, hvpn, _⟩ := ensurePage2m_spec hw hrun
  have hi : Sv39Va.vpn2 va < entryCount := field_lt 30 9 va
  have hi1 : Sv39Va.vpn1 va < entryCount := field_lt 21 9 va
  cases hleaf : pteInvalidOrLeaf (entry a.mem root (Sv39Va.vpn2 va)) with
  | false =>
    rw [ensurePage2m_of_pointer a root hoff hvpn hleaf] at hrun
    have ha : a = a' := (Prod.mk.inj (Except.ok.inj hrun)).2
    rw [← ha]
    refine hspare.resolve_left ?_
    rw [hleaf]
    exact Bool.false_ne_true
  | true =>
    have hcheck : checkVa2m va = .ok () := checkVa2m_eq_ok.mpr ⟨hoff, hvpn⟩
    unfold ensurePage2m at hrun
    rw [hcheck, Res.ok_bind] at hrun
    simp only [hleaf, if_true] at hrun
    obtain ⟨⟨t, a₁⟩, hexp, hrun⟩ := Res.bind_eq_ok.mp hrun
    obtain ⟨hne, hx, hfill⟩ := expandSuperpage_spec hw.ok (entry_lt _ _ _) hexp
    have htin : t ∈ [t] := List.mem_singleton_self t
    simp only [hne, if_false, setPage1g_pointer (hx.new_usable htin) (hx.new_page htin) hoff hvpn, Res.ok_bind] at hrun
    obtain ⟨_, _, _, _, _, hsub⟩ := expand_step (Nat.le_refl 1) hw.tree hw.kept hw.page hi hleaf hx hfill rfl
    rw [← (Prod.mk.inj (Except.ok.inj hrun)).2, hsub]
    have hroot : t ≠ root := by
      intro e
      rw [e] at htin hx
      exact hx.not_new (hw.kept root table_mem_tables) htin
    have hsame : entry (a₁.setEntry root (Sv39Va.vpn2 va)
        (updatePte (PA t) pteValid (entry a₁.mem root (Sv39Va.vpn2 va)))).mem t (Sv39Va.vpn1 va)
        = entry a₁.mem t (Sv39Va.vpn1 va) :=
      entry_setEntry_of_ne hw.page (hx.new_page htin) hi hi1 (.inl hroot)
    rw [hsame, hfill _ hi1]
    exact invalidOrLeaf_expandPte hleaf

theorem ensurePage2m_slot {q : Option (Nat × Nat)} (hw : WellFormed a root)
    (hrun : ensurePage2m root va a = .ok (q, a')) : ∃ N t, q = some (t, Sv39Va.vpn1 va) ∧ Splitting a a' root N ∧
      (∀ x, walk a'.mem 2 root x = walk a.mem 2 root x) ∧ Path a'.mem va 1 t 2 root ∧
      (Spare a.mem root va → pteInvalidOrLeaf (entry a'.mem t (Sv39Va.vpn1 va)) = true) := by
  obtain ⟨hoff, hvpn, N, hq, hs, hwalk, hp, _⟩ := ensurePage2m_spec hw hrun
  exact ⟨N, _, hq, hs, hwalk, Path.level1_iff.mpr ⟨hp, rfl⟩, fun hspare => ensurePage2m_spare hw hspare hrun⟩

theorem setPage1g_slot (hw : WellFormed a root) (hrun : setPage1g root va pa flags a = .ok (r, a')) : r = 0 ∧
    SetsSlot a a' root va 2 pa flags (pteInvalidOrLeaf (entry a.mem root (Sv39Va.vpn2 va)) = true) [] a root := by
  have htwo : vpnAt 2 va = Sv39Va.vpn2 va := rfl
  unfold setPage1g at hrun
  obtain ⟨_, _, hrun⟩ := Res.bind_eq_ok.mp hrun
  by_cases hmis : Sv39Pa.off pa ≠ 0 ∨ (Sv39Pa.ppn0 pa ≠ 0 ∨ Sv39Pa.ppn1 pa ≠ 0) ∧ pteIsLeaf flags = true
  · rw [if_pos hmis] at hrun
    exact absurd hrun Res.panic_ne_ok
  rw [if_neg hmis] at hrun
  obtain ⟨hr, ha⟩ := Prod.mk.inj (Except.ok.inj hrun)
  refine ⟨hr.symm, .refl hw, fun _ => rfl, fun _ => Iff.rfl, .here, ?_, fun h => .inr ?_, fun hleaf => ?_, Nat.le_refl 2⟩
  · rw [htwo]
    exact ha.symm
  · rw [htwo]
    exact h
  · have h0 : field 0 12 pa = 0 := by
      by_contra h
      exact hmis (.inl h)
    have h1 : field 12 9 pa = 0 := by
      by_contra h
      exact hmis (.inr ⟨.inl h, hleaf⟩)
    have h2 : field 21 9 pa = 0 := by
      by_contra h
      exact hmis (.inr ⟨.inr h, hleaf⟩)
    unfold field at h0 h1 h2
    omega

theorem setPage2m_slot (hw : WellFormed a root) (hrun : setPage2m root va pa flags a = .ok (r, a')) :
    r = 0 ∧ ∃ N a₁ s, SetsSlot a a' root va 1 pa flags (Spare a.mem root va) N a₁ s := by
  have hone : vpnAt 1 va = Sv39Va.vpn1 va := rfl
  unfold setPage2m at hrun
  by_cases hmis : Sv39Pa.off pa ≠ 0 ∨ Sv39Pa.ppn0 pa ≠ 0 ∧ pteIsLeaf flags = true
  · rw [if_pos hmis] at hrun
    exact absurd hrun Res.panic_ne_ok
  rw [if_neg hmis] at hrun
  obtain ⟨⟨q, a₁⟩, hens, hrun⟩ := Res.bind_eq_ok.mp hrun
  obtain ⟨N, t, hq, hs, hwalk, hpath, hspare⟩ := ensurePage2m_slot hw hens
  simp only [hq] at hrun
  obtain ⟨hr, ha⟩ := Prod.mk.inj (Except.ok.inj hrun)
  refine ⟨hr.symm, N, a₁, t, hs, hwalk, fun _ => ensurePage2m_deep hw hens, hpath, ?_, fun h => .inr ?_,
    fun hleaf => ?_, by decide⟩
  · rw [hone]
    exact ha.symm
  · rw [hone]
    exact hspare h
  · have h0 : field 0 12 pa = 0 := by
      by_contra h
      exact hmis (.inl h)
    have h1 : field 12 9 pa = 0 := by
      by_contra h
      exact hmis (.inr ⟨h, hleaf⟩)
    unfold field at h0 h1
    omega

theorem setPage_slot (hw : WellFormed a root) (hrun : setPage root va pa flags a = .ok (r, a')) :
    r = 0 ∧ ∃ N a₁ s, SetsSlot a a' root va 0 pa flags True N a₁ s := by
  have hzero : vpnAt 0 va = Sv39Va.vpn0 va := rfl
  unfold setPage at hrun
  by_cases hmis : Sv39Va.off va ≠ 0 ∨ Sv39Pa.off pa ≠ 0
  · rw [if_pos hmis] at hrun
    exact absurd hrun Res.panic_ne_ok
  rw [if_neg hmis] at hrun
  have hv2 : Sv39Va.vpn2 (Sv39Va.setVpn0 0 va) = Sv39Va.vpn2 va := field_setField_above (by decide)
  have hv1 : Sv39Va.vpn1 (Sv39Va.setVpn0 0 va) = Sv39Va.vpn1 va := field_setField_above (by decide)
  obtain ⟨⟨q₁, a₁⟩, hens, hrun⟩ := Res.bind_eq_ok.mp hrun
  obtain ⟨hoff, hvpn, N₁, hq₁, hs₁, hwalk₁, hp₁, _⟩ := ensurePage2m_spec hw hens
  have hw₁ := hs₁.wellFormed hw
  simp only [hq₁] at hrun
  obtain ⟨⟨q₂, a₂⟩, hsub, hrun⟩ := Res.bind_eq_ok.mp hrun
  obtain ⟨N₂, hq₂, hs₂, hwalk₂, hroot, hp₂, _⟩ := ensureSubtable_spec hw₁ hoff hvpn hp₁ rfl hsub
  simp only [hq₂] at hrun
  have hdeep : ∀ x, Deep a₂.mem 2 root x ↔ Deep a.mem 2 root x := fun x =>
    (ensureSubtable_deep hw₁ hoff hvpn hp₁ rfl hsub).trans (ensurePage2m_deep hw hens)
  rw [hv2] at hp₁ hroot
  rw [hv2, hv1] at hp₂ hrun
  obtain ⟨t, ht⟩ : ∃ t, t = subtableFromPte (entry a₁.mem root (Sv39Va.vpn2 va)) := ⟨_, rfl⟩
  rw [← ht] at hp₂ hrun
  have hpath : Path a₂.mem va 1 t 2 root := by
    refine Path.level1_iff.mpr ⟨?_, ?_⟩
    · rw [hroot]
      exact hp₁
    · rw [hroot]
      exact ht
  obtain ⟨hr, ha⟩ := Prod.mk.inj (Except.ok.inj hrun)
  refine ⟨hr.symm, N₂ ++ N₁, a₂, _, hs₁.trans hs₂, fun x => (hwalk₂ x).trans (hwalk₁ x), hdeep,
    Path.level0_iff.mpr ⟨t, hpath, hp₂, rfl⟩, ?_, fun _ => .inl rfl, fun _ => ?_, by decide⟩
  · rw [hzero]
    exact ha.symm
  · have h0 : field 0 12 pa = 0 := by
      by_contra h
      exact hmis (.inr h)
    unfold field at h0
    omega

theorem setPage_flat (hw : WellFormed a root) (hf : Flat a.mem 2 root) (hl : pteIsLeaf flags = true)
    (hrun : setPage root va pa flags a = .ok (r, a')) : Flat a'.mem 2 root := by
  obtain ⟨_, N, a₁, s, h⟩ := setPage_slot hw hrun
  exact h.flat hw (.inl hl) hf

/-! ## what unset_page writes -/

theorem checkVa_eq_ok {u : Unit} : checkVa va = .ok u ↔ Sv39Va.off va = 0 := by
  unfold checkVa
  split
  · rename_i h
    exact iff_of_false Res.panic_ne_ok h
  · rename_i h
    exact iff_of_true rfl (Decidable.not_not.mp h)

/-- the entry for `va` in a table of `level`, which no table is below, is no longer valid -/
def Clears (a a' : Mm) (root va level : Nat) : Prop :=
  ∃ s, Path a.mem va level s 2 root ∧ (level = 0 ∨ pteInvalidOrLeaf (entry a.mem s (vpnAt level va)) = true) ∧
    a' = a.setEntry s (vpnAt level va) (clearValid (entry a.mem s (vpnAt level va)))

theorem unsetPage_of_path (hoff : Sv39Va.off va = 0) (h : Path a.mem va 0 s 2 root) : unsetPage root va a
    = .ok (0, a.setEntry s (vpnAt 0 va) (clearValid (entry a.mem s (vpnAt 0 va)))) := by
  obtain ⟨t, ht, hp, hs⟩ := Path.level0_iff.mp h
  obtain ⟨hp₂, ht⟩ := Path.level1_iff.mp ht
  have hcheck : checkVa va = .ok () := checkVa_eq_ok.mpr hoff
  have hzero : vpnAt 0 va = Sv39Va.vpn0 va := rfl
  unfold unsetPage
  rw [hcheck, Res.ok_bind]
  simp only [hp₂, ← ht, hp, ← hs, hzero, Bool.false_eq_true, if_false]

theorem unsetPage_cases (hrun : unsetPage root va a = .ok (r, a')) :
    (r = 0 ∧ Clears a a' root va 0) ∨ (r ≠ 0 ∧ a' = a) := by
  unfold unsetPage at hrun
  obtain ⟨_, _, hrun⟩ := Res.bind_eq_ok.mp hrun
  have herr : ∀ {x : Res (Int × Mm)}, x = .ok (-ENOENT, a) → x = .ok (r, a') → r ≠ 0 ∧ a' = a := by
    intro x hx hx'
    rw [hx] at hx'
    obtain ⟨hr, ha⟩ := Prod.mk.inj (Except.ok.inj hx')
    rw [← hr, ← ha]
    exact ⟨by decide, rfl⟩
  cases hp₂ : pteInvalidOrLeaf (entry a.mem root (Sv39Va.vpn2 va)) with
  | true => exact .inr (herr (if_pos hp₂) hrun)
  | false =>
    obtain ⟨t, ht⟩ : ∃ t, t = subtableFromPte (entry a.mem root (Sv39Va.vpn2 va)) := ⟨_, rfl⟩
    simp only [hp₂, ← ht, Bool.false_eq_true, if_false] at hrun
    cases hp₁ : pteInvalidOrLeaf (entry a.mem t (Sv39Va.vpn1 va)) with
    | true => exact .inr (herr (if_pos hp₁) hrun)
    | false =>
      simp only [hp₁, Bool.false_eq_true, if_false] at hrun
      obtain ⟨hr, ha⟩ := Prod.mk.inj (Except.ok.inj hrun)
      exact .inl ⟨hr.symm, _, Path.level0_iff.mpr ⟨t, Path.level1_iff.mpr ⟨hp₂, ht⟩, hp₁, rfl⟩, .inl rfl, ha.symm⟩

theorem unsetPage2m_of_path (hoff : Sv39Va.off va = 0) (hvpn : Sv39Va.vpn0 va = 0) (h : Path a.mem va 1 s 2 root)
    (hleaf : pteInvalidOrLeaf (entry a.mem s (vpnAt 1 va)) = true) : unsetPage2m root va a
      = .ok (0, a.setEntry s (vpnAt 1 va) (clearValid (entry a.mem s (vpnAt 1 va)))) := by
  obtain ⟨hp, hs⟩ := Path.level1_iff.mp h
  have hcheck : checkVa2m va = .ok () := checkVa2m_eq_ok.mpr ⟨hoff, hvpn⟩
  have hone : vpnAt 1 va = Sv39Va.vpn1 va := rfl
  rw [hone] at hleaf
  unfold unsetPage2m
  rw [hcheck, Res.ok_bind]
  simp only [hp, ← hs, hleaf, hone, Bool.false_eq_true, if_false, if_true]

theorem unsetPage2m_cases (hrun : unsetPage2m root va a = .ok (r, a')) :
    (r = 0 ∧ Clears a a' root va 1) ∨ (r ≠ 0 ∧ a' = a) := by
  unfold unsetPage2m at hrun
  obtain ⟨_, _, hrun⟩ := Res.bind_eq_ok.mp hrun
  cases hp : pteInvalidOrLeaf (entry a.mem root (Sv39Va.vpn2 va)) with
  | true =>
    simp only [hp, if_true] at hrun
    obtain ⟨hr, ha⟩ := Prod.mk.inj (Except.ok.inj hrun)
    rw [← hr, ← ha]
    exact .inr ⟨by decide, rfl⟩
  | false =>
    obtain ⟨t, ht⟩ : ∃ t, t = subtableFromPte (entry a.mem root (Sv39Va.vpn2 va)) := ⟨_, rfl⟩
    simp only [hp, ← ht, Bool.false_eq_true, if_false] at hrun
    cases hleaf : pteInvalidOrLeaf (entry a.mem t (Sv39Va.vpn1 va)) with
    | true =>
      simp only [hleaf, if_true] at hrun
      obtain ⟨hr, ha⟩ := Prod.mk.inj (Except.ok.inj hrun)
      exact .inl ⟨hr.symm, t, Path.level1_iff.mpr ⟨hp, ht⟩, .inr hleaf, ha.symm⟩
    | false =>
      simp only [hleaf, Bool.false_eq_true, if_false] at hrun
      obtain ⟨hr, ha⟩ := Prod.mk.inj (Except.ok.inj hrun)
      rw [← hr, ← ha]
      exact .inr ⟨by decide, rfl⟩

/-- the entry that is tested and cleared is the first one, whatever `va` is -/
theorem unsetPage1g_cases (hrun : unsetPage1g root va a = .ok (r, a')) :
    (r = 0 ∧ Clears a a' root 0 2) ∨ (r ≠ 0 ∧ a' = a) := by
  unfold unsetPage1g at hrun
  obtain ⟨u, hcheck, hrun⟩ := Res.bind_eq_ok.mp hrun
  obtain ⟨_, _, hvpn⟩ := checkVa1g_eq_ok.mp hcheck
  have hzero : vpnAt 2 0 = 0 := by decide
  simp only [hvpn] at hrun
  cases hleaf : pteInvalidOrLeaf (entry a.mem root 0) with
  | true =>
    simp only [hleaf, if_true] at hrun
    obtain ⟨hr, ha⟩ := Prod.mk.inj (Except.ok.inj hrun)
    refine .inl ⟨hr.symm, root, .here, .inr ?_, ?_⟩
    · rw [hzero]
      exact hleaf
    · rw [hzero]
      exact ha.symm
  | false =>
    simp only [hleaf, Bool.false_eq_true, if_false] at hrun
    obtain ⟨hr, ha⟩ := Prod.mk.inj (Except.ok.inj hrun)
    rw [← hr, ← ha]
    exact .inr ⟨by decide, rfl⟩

theorem unsetPage1g_of_leaf (hal : Sv39Va.off va = 0 ∧ Sv39Va.vpn0 va = 0 ∧ Sv39Va.vpn1 va = 0)
    (hleaf : pteInvalidOrLeaf (entry a.mem root 0) = true) :
    unsetPage1g root va a = .ok (0, a.setEntry root 0 (clearValid (entry a.mem root 0))) := by
  have hcheck : checkVa1g va = .ok () := checkVa1g_eq_ok.mpr hal
  unfold unsetPage1g
  rw [hcheck, Res.ok_bind]
  simp only [hal.2.2, hleaf, if_true]

/-! ## which page is gone -/

/-- no address of the page of `level` at `va` translates, and every other address translates as in `a` -/
def Unmapped (level : Nat) (a a' : Mm) (root va : Nat) : Prop :=
  WellFormed a' root ∧ ∀ x, walk a'.mem 2 root x = if SamePage level x va then none else walk a.mem 2 root x

theorem Clears.write (h : Clears a a' root va level) (hw : WellFormed a root) :
    ∃ s, (level = 0 ∨ pteInvalidOrLeaf (entry a.mem s (vpnAt level va)) = true) ∧ Edit a a' root [] ∧
      SlotWrite a a' va level s (clearValid (entry a.mem s (vpnAt level va))) 2 root := by
  obtain ⟨s, hpath, hold, ha⟩ := h
  rw [ha]
  exact ⟨s, hold, hw.write hpath (clearValid_lt (entry_lt _ _ _)) (invalidOrLeaf_clearValid _) fun hv =>
    absurd (flags_clearValid _) hv⟩

theorem Clears.flat (h : Clears a a' root va level) (hw : WellFormed a root) (hf : Flat a.mem 2 root) :
    Flat a'.mem 2 root := by
  obtain ⟨s, hpath, hold, ha⟩ := h
  refine flat_iff.mpr fun x hd => ?_
  rw [ha, hw.write_deep hpath (clearValid_lt (entry_lt _ _ _)) (.inr (invalidOrLeaf_clearValid _)),
    invalidOrLeaf_clearValid] at hd
  by_cases hx : SamePage level x va
  · rw [if_pos hx] at hd
    exact nomatch hd
  · rw [if_neg hx] at hd
    exact flat_iff.mp hf x hd

theorem Clears.unmapped (h : Clears a a' root va level) (hw : WellFormed a root) (hl : level ≤ 2) :
    Unmapped level a a' root va := by
  obtain ⟨s, _, hedit, hslot⟩ := h.write hw
  refine ⟨hedit.wellFormed hw, fun x => ?_⟩
  obtain ⟨hsame, hother⟩ := hslot.walk x
  rw [sameWay_samePage hl] at hsame hother
  by_cases hx : SamePage level x va
  · rw [if_pos hx, hsame hx]
    exact leafAt_clearValid
  · rw [if_neg hx, hother hx]

/-- `unset` removes the page of `level` at `va`, and undoes what `set` did -/
structure Removes (unset : Nat → Nat → Mm → Res (Int × Mm)) (set : Nat → Nat → Nat → Nat → Mm → Res (Int × Mm))
    (level : Nat) (a : Mm) (root va : Nat) : Prop where
  removes : ∀ r a', unset root va a = .ok (r, a') → if r = 0 then Unmapped level a a' root va else a' = a
  undoes : ∀ pa flags r a₁, pteIsLeaf flags = true → set root va pa flags a = .ok (r, a₁) →
    ∃ a', unset root va a₁ = .ok (0, a') ∧ Unmapped level a a' root va

theorem removes_of_cases (hw : WellFormed a root) (hl : level ≤ 2)
    (h : (r = 0 ∧ Clears a a' root va level) ∨ (r ≠ 0 ∧ a' = a)) :
    if r = 0 then Unmapped level a a' root va else a' = a := by
  cases h with
  | inl h =>
    rw [if_pos h.1]
    exact h.2.unmapped hw hl
  | inr h =>
    rw [if_neg h.1]
    exact h.2

/-- the entry that was written is cleared -/
theorem SetsSlot.undone {spare : Prop} {N : List Nat} {a₁ a₂ : Mm}
    (h : SetsSlot a a₁ root va level pa flags spare N a₂ s) (hw : WellFormed a root) (hleaf : pteIsLeaf flags = true)
    (hc : Clears a₁ a' root va level) : Unmapped level a a' root va := by
  have hw₁ := (h.written hw (.inl hleaf)).1.wellFormed (h.wellFormed hw)
  obtain ⟨hw', hwalk⟩ := hc.unmapped hw₁ h.le
  refine ⟨hw', fun x => ?_⟩
  rw [hwalk x, h.translates hw (.inl hleaf)]
  by_cases hx : SamePage level x va
  · rw [if_pos hx, if_pos hx]
  · rw [if_neg hx, if_neg hx, if_neg hx]

theorem unsetPage_removes (hw : WellFormed a root) : Removes unsetPage setPage 0 a root va := by
  refine ⟨fun r a' hrun => removes_of_cases hw (by decide) (unsetPage_cases hrun), fun pa flags r a₁ hleaf hset => ?_⟩
  obtain ⟨_, N, a₂, s, hslot⟩ := setPage_slot hw hset
  obtain ⟨hpath, _⟩ := hslot.path_after hw
  have hoff : Sv39Va.off va = 0 := by
    by_contra hne
    unfold setPage at hset
    rw [if_pos (.inl hne)] at hset
    exact Res.panic_ne_ok hset
  exact ⟨_, unsetPage_of_path hoff hpath, hslot.undone hw hleaf ⟨s, hpath, .inl rfl, rfl⟩⟩

theorem unsetPage2m_removes (hw : WellFormed a root) : Removes unsetPage2m setPage2m 1 a root va := by
  refine ⟨fun r a' hrun => removes_of_cases hw (by decide) (unsetPage2m_cases hrun), fun pa flags r a₁ hleaf hset => ?_⟩
  obtain ⟨_, N, a₂, s, hslot⟩ := setPage2m_slot hw hset
  obtain ⟨hpath, hentry⟩ := hslot.path_after hw
  have hal : Sv39Va.off va = 0 ∧ Sv39Va.vpn0 va = 0 := by
    unfold setPage2m at hset
    split at hset
    · exact absurd hset Res.panic_ne_ok
    · obtain ⟨⟨q, a₃⟩, hens, _⟩ := Res.bind_eq_ok.mp hset
      obtain ⟨hoff, hvpn, _⟩ := ensurePage2m_spec hw hens
      exact ⟨hoff, hvpn⟩
  have hleaf' : pteInvalidOrLeaf (entry a₁.mem s (vpnAt 1 va)) = true := by
    rw [hentry, ← updatePte_mod]
    exact invalidOrLeaf_updatePte (Nat.mod_lt _ (by decide)) (.inl (by rw [pteIsLeaf_mod]; exact hleaf))
  exact ⟨_, unsetPage2m_of_path hal.1 hal.2 hpath hleaf', hslot.undone hw hleaf ⟨s, hpath, .inr hleaf', rfl⟩⟩

/-- the root of a tree of one table has no pointers -/
theorem WellFormed.leaf_of_single {i : Nat} (hw : WellFormed a root) (h : ∀ t ∈ tables a.mem 2 root, t = root)
    (hi : i < entryCount) : pteInvalidOrLeaf (entry a.mem root i) = true := by
  by_contra hp
  have hp : pteInvalidOrLeaf (entry a.mem root i) = false := Bool.eq_false_iff.mpr hp
  have hmem : subtableFromPte (entry a.mem root i) ∈ below a.mem 1 (entry a.mem root i) := by
    rw [below_of_pointer hp]
    exact table_mem_tables
  have hsub := h _ (mem_tables_succ.mpr (.inr ⟨i, hi, hmem⟩))
  rw [hsub] at hmem
  exact ((tree_succ.mp hw.tree).1 i hi).2 hmem

/-- the addresses that check_va_1g accepts -/
def Aligned1g (va : Nat) : Prop := Sv39Va.off va = 0 ∧ Sv39Va.vpn0 va = 0 ∧ Sv39Va.vpn1 va = 0

theorem aligned1g_of_unset (hrun : unsetPage1g root va a = .ok (r, a')) : Aligned1g va := by
  unfold unsetPage1g at hrun
  obtain ⟨u, hcheck, _⟩ := Res.bind_eq_ok.mp hrun
  exact checkVa1g_eq_ok.mp hcheck

theorem aligned1g_of_set (hrun : setPage1g root va pa flags a = .ok (r, a')) : Aligned1g va := by
  unfold setPage1g at hrun
  obtain ⟨u, hcheck, _⟩ := Res.bind_eq_ok.mp hrun
  exact checkVa1g_eq_ok.mp hcheck

/-- any 1G page can be mapped to the physical address 0 -/
theorem setPage1g_zero (root : Nat) (a : Mm) (hal : Aligned1g va) :
    ∃ a', setPage1g root va 0 (pteValid ||| pteRead) a = .ok (0, a') := by
  have hcheck : checkVa1g va = .ok () := checkVa1g_eq_ok.mpr hal
  have hpa : ¬ (Sv39Pa.off 0 ≠ 0 ∨ (Sv39Pa.ppn0 0 ≠ 0 ∨ Sv39Pa.ppn1 0 ≠ 0) ∧ pteIsLeaf (pteValid ||| pteRead) = true) := by
    decide
  unfold setPage1g
  rw [hcheck, Res.ok_bind, if_neg hpa]
  exact ⟨_, rfl⟩

theorem clears_first (hz : Sv39Va.vpn2 va = 0) (h : Clears a a' root 0 2) : Clears a a' root va 2 := by
  have htwo : vpnAt 2 va = Sv39Va.vpn2 va := rfl
  have hzero : vpnAt 2 0 = 0 := by decide
  obtain ⟨s, hpath, hold, ha⟩ := h
  rw [hpath.same, hzero] at hold ha
  refine ⟨root, .here, ?_, ?_⟩
  · rw [htwo, hz]
    exact hold
  · rw [htwo, hz]
    exact ha

/-- the first entry of the root is that of `va` only in the first gigabyte -/
theorem unsetPage1g_removes_iff (hw : WellFormed a root) :
    Removes unsetPage1g setPage1g 2 a root va ↔ (Aligned1g va → Sv39Va.vpn2 va = 0) := by
  have htwo : vpnAt 2 va = Sv39Va.vpn2 va := rfl
  have hzero : vpnAt 2 0 = 0 := by decide
  constructor
  · intro ⟨_, hundoes⟩ hal
    by_contra hne
    obtain ⟨a₁, hset⟩ := setPage1g_zero root a hal
    obtain ⟨a', hunset, _, hwalk⟩ := hundoes 0 (pteValid ||| pteRead) 0 a₁ rfl hset
    obtain ⟨_, hslot⟩ := setPage1g_slot hw hset
    have hw₁ := (hslot.written hw (.inl rfl)).1.wellFormed (hslot.wellFormed hw)
    have hclear : Clears a₁ a' root 0 2 := (unsetPage1g_cases hunset).elim And.right fun h => absurd rfl h.1
    -- the page is still mapped after the first entry was cleared
    have hother : ¬ SamePage 2 va 0 := by
      intro h
      rw [samePage_two, hzero, htwo] at h
      exact hne h
    have hsame : SamePage 2 va va := rfl
    have hnone := hwalk va
    rw [if_pos hsame, (hclear.unmapped hw₁ (Nat.le_refl 2)).2, if_neg hother, hslot.translates hw (.inl rfl),
      if_pos hsame] at hnone
    cases hnone
  · intro hfirst
    refine ⟨fun r a' hrun => removes_of_cases hw (Nat.le_refl 2) ?_, fun pa flags r a₁ hleaf hset => ?_⟩
    · cases unsetPage1g_cases hrun with
      | inl h => exact .inl ⟨h.1, clears_first (hfirst (aligned1g_of_unset hrun)) h.2⟩
      | inr h => exact .inr h
    · have hal := aligned1g_of_set hset
      have hz := hfirst hal
      obtain ⟨_, hslot⟩ := setPage1g_slot hw hset
      obtain ⟨hpath, hentry⟩ := hslot.path_after hw
      rw [htwo, hz] at hentry
      have hleaf' : pteInvalidOrLeaf (entry a₁.mem root 0) = true := by
        rw [hentry, ← updatePte_mod]
        exact invalidOrLeaf_updatePte (Nat.mod_lt _ (by decide)) (.inl (by rw [pteIsLeaf_mod]; exact hleaf))
      refine ⟨_, unsetPage1g_of_leaf hal hleaf', hslot.undone hw hleaf ⟨root, hpath, .inr ?_, ?_⟩⟩
      · rw [htwo, hz]
        exact hleaf'
      · rw [htwo, hz]

/-- **Unmapping.** unset_page and unset_page_2m remove the page at `va` and no other, and undo set_page;
unset_page_1g does so only below 1G. -/
theorem unset_page_exact (hw : WellFormed a root) : Removes unsetPage setPage 0 a root va ∧
    Removes unsetPage2m setPage2m 1 a root va ∧
    (Removes unsetPage1g setPage1g 2 a root va ↔ (Aligned1g va → Sv39Va.vpn2 va = 0)) :=
  ⟨unsetPage_removes hw, unsetPage2m_removes hw, unsetPage1g_removes_iff hw⟩

/-- the three functions on a new table, at an address of the kernel's half -/
theorem unset_page_exact_new_table : ∃ root a, createPageTable (Mm.init fun _ => 0) = .ok (root, a) ∧
    Removes unsetPage setPage 0 a root kernBase ∧ Removes unsetPage2m setPage2m 1 a root kernBase ∧
    ¬ Removes unsetPage1g setPage1g 2 a root kernBase := by
  obtain ⟨root, a, hrun⟩ := createPageTable_succeeds (init_ok fun _ => 0) nofun (by decide)
  obtain ⟨_, hw, _, _⟩ := createPageTable_spec (init_ok fun _ => 0) hrun
  obtain ⟨hpage, hpage2m, hpage1g⟩ := @unset_page_exact a root kernBase hw
  exact ⟨root, a, hrun, hpage, hpage2m, fun h => absurd (hpage1g.mp h ⟨by decide, by decide, by decide⟩) (by decide)⟩

/-- a 1G page is mapped at 1G in a new table; unset_page_1g returns 0 and the page is still mapped -/
theorem unset_page_1g_keeps_page : ∃ root a a₁ a₂, createPageTable (Mm.init fun _ => 0) = .ok (root, a) ∧
    WellFormed a root ∧ setPage1g root 0x40000000 0x80000000 (pteValid ||| pteRead) a = .ok (0, a₁) ∧
    unsetPage1g root 0x40000000 a₁ = .ok (0, a₂) ∧
    walk a₂.mem 2 root 0x40000123 = some ⟨0x80000123, pteValid ||| pteRead⟩ := by
  obtain ⟨root, a, hrun⟩ := createPageTable_succeeds (init_ok fun _ => 0) nofun (by decide)
  obtain ⟨_, hw, htab, _⟩ := createPageTable_spec (init_ok fun _ => 0) hrun
  have hal : Aligned1g 0x40000000 := ⟨by decide, by decide, by decide⟩
  obtain ⟨a₁, hset⟩ : ∃ a₁, setPage1g root 0x40000000 0x80000000 (pteValid ||| pteRead) a = .ok (0, a₁) := ⟨_, rfl⟩
  obtain ⟨_, hslot⟩ := setPage1g_slot hw hset
  have hw₁ := (hslot.written hw (.inl rfl)).1.wellFormed hw
  have hleaf : pteInvalidOrLeaf (entry a₁.mem root 0) = true := by
    rw [hslot.write]
    have hsame : entry (a.setEntry root (vpnAt 2 0x40000000)
        (updatePte 0x80000000 (pteValid ||| pteRead) (entry a.mem root (vpnAt 2 0x40000000)))).mem root 0
        = entry a.mem root 0 :=
      entry_setEntry_of_ne hw.page hw.page (vpnAt_lt 2 _) (by decide) (.inr (by decide))
    rw [hsame]
    exact hw.leaf_of_single htab (by decide)
  have hunset := unsetPage1g_of_leaf hal hleaf
  have hclear : Clears a₁ _ root 0 2 := (unsetPage1g_cases hunset).elim And.right fun h => absurd rfl h.1
  refine ⟨root, a, a₁, _, hrun, hw, hset, hunset, ?_⟩
  rw [(hclear.unmapped hw₁ (Nat.le_refl 2)).2, if_neg (by decide), hslot.translates hw (.inl rfl), if_pos (by decide)]
  rfl

end FakeKernel
