import FakeKernel.Mm.Frees

/-!
# Who owns a page of a table

* `Call`           set_page, set_page_2m, set_page_1g and the three functions that unset a page;
* `TableRun`       a table, the calls made on it, and the pages these calls allocated for it;
* `Call.Spares`    the call overwrites no entry that leads to a table;
* `tables_owned`   then the root leads to each of these pages once, and destroy_page_table frees them.
-/

namespace FakeKernel
open Bytes Mm

variable {a a' : Mm} {root s va pa flags : Nat} {N new : List Nat} {r : Int} {c : Call} {C : Mm → Call → Prop}

inductive Call
  | setPage (va pa flags : Nat)
  | setPage2m (va pa flags : Nat)
  | setPage1g (va pa flags : Nat)
  | unsetPage (va : Nat)
  | unsetPage2m (va : Nat)
  | unsetPage1g (va : Nat)

namespace Call

def run (root : Nat) : Call → Mm → Res (Int × Mm)
  | setPage va pa flags, a => FakeKernel.setPage root va pa flags a
  | setPage2m va pa flags, a => FakeKernel.setPage2m root va pa flags a
  | setPage1g va pa flags, a => FakeKernel.setPage1g root va pa flags a
  | unsetPage va, a => FakeKernel.unsetPage root va a
  | unsetPage2m va, a => FakeKernel.unsetPage2m root va a
  | unsetPage1g va, a => FakeKernel.unsetPage1g root va a

/-- the flags are those of a leaf, or the entry is not valid -/
def LeafOrInvalid : Call → Prop
  | setPage _ _ flags | setPage2m _ _ flags | setPage1g _ _ flags => pteIsLeaf flags = true ∨ flags &&& pteValid = 0
  | _ => True

/-- the entry that set_page_2m or set_page_1g overwrites leads to no table -/
def Spares (root : Nat) (a : Mm) : Call → Prop
  | setPage2m va _ _ => Spare a.mem root va
  | setPage1g va _ _ => pteInvalidOrLeaf (entry a.mem root (Sv39Va.vpn2 va)) = true
  | _ => True

end Call

/-- calls that meet `C` were made on the table at `root`, and `N` are the pages they allocated -/
inductive TableRun (C : Mm → Call → Prop) (root : Nat) : List Nat → Mm → Prop
  | create {a a' : Mm} (hok : a.Ok) (hrun : createPageTable a = .ok (root, a')) : TableRun C root [] a'
  | call {a a' : Mm} {N new : List Nat} {c : Call} {r : Int} (h : TableRun C root N a) (hl : c.LeafOrInvalid)
      (hc : C a c) (hrun : c.run root a = .ok (r, a'))
      (hnew : a'.out = new.map (fun s => { address := s, order := 0 }) ++ a.out) : TableRun C root (new ++ N) a'
  | other {a a' : Mm} {N : List Nat} (h : TableRun C root N a) (he : Elsewhere a a' root) : TableRun C root N a'

/-! ## one call -/

theorem SetsSlot.keeps {spare : Prop} {level : Nat} {a₁ : Mm} (h : SetsSlot a a' root va level pa flags spare N a₁ s)
    (hw : WellFormed a root) (hl : pteIsLeaf flags = true ∨ flags &&& pteValid = 0) (hs : spare) :
    Splitting a a' root N ∧ (Flat a.mem 2 root → Flat a'.mem 2 root) := by
  obtain ⟨hedit, hslot⟩ := h.written hw hl
  refine ⟨?_, h.flat hw hl⟩
  have hkeeps : Splitting a₁ a' root [] := ⟨hedit, hslot.keeps (h.spare hs)⟩
  exact h.split.trans hkeeps

theorem Clears.keeps {level : Nat} (h : Clears a a' root va level) (hw : WellFormed a root) :
    Splitting a a' root [] ∧ (Flat a.mem 2 root → Flat a'.mem 2 root) := by
  obtain ⟨s, hold, hedit, hslot⟩ := h.write hw
  exact ⟨⟨hedit, hslot.keeps hold⟩, h.flat hw⟩

theorem unset_keeps {level : Nat} (h : (r = 0 ∧ Clears a a' root va level) ∨ (r ≠ 0 ∧ a' = a)) (hw : WellFormed a root) :
    ∃ N, Splitting a a' root N ∧ (Flat a.mem 2 root → Flat a'.mem 2 root) := by
  cases h with
  | inl h => exact ⟨[], h.2.keeps hw⟩
  | inr h =>
    rw [h.2]
    exact ⟨[], .refl hw, id⟩

/-- no table is dropped, and the tables that were allocated are in use -/
theorem Call.keeps (hw : WellFormed a root) (hl : c.LeafOrInvalid) (hs : c.Spares root a)
    (hrun : c.run root a = .ok (r, a')) :
    ∃ N, Splitting a a' root N ∧ (Flat a.mem 2 root → Flat a'.mem 2 root) := by
  cases c with
  | setPage va pa flags =>
    obtain ⟨_, N, a₁, s, h⟩ := setPage_slot hw hrun
    exact ⟨N, h.keeps hw hl trivial⟩
  | setPage2m va pa flags =>
    obtain ⟨_, N, a₁, s, h⟩ := setPage2m_slot hw hrun
    exact ⟨N, h.keeps hw hl hs⟩
  | setPage1g va pa flags =>
    obtain ⟨_, h⟩ := setPage1g_slot hw hrun
    exact ⟨[], h.keeps hw hl hs⟩
  | unsetPage va => exact unset_keeps (unsetPage_cases hrun) hw
  | unsetPage2m va => exact unset_keeps (unsetPage2m_cases hrun) hw
  | unsetPage1g va => exact unset_keeps (unsetPage1g_cases hrun) hw

/-! ## every run -/

/-- the tables of the tree are the root and the pages `N` -/
structure Owns (a : Mm) (root : Nat) (N : List Nat) : Prop extends Whole a root where
  nodup : (root :: N).Nodup
  mem : ∀ s, s ∈ tables a.mem 2 root ↔ s ∈ root :: N

theorem new_unique {out : List Page} (h : new.map pageAt ++ out = N.map pageAt ++ out) : new = N :=
  List.map_injective_iff.mpr pageAt_injective (List.append_cancel_right h)

theorem Owns.split {new : List Nat} (h : Owns a root N) (hs : Splitting a a' root new) (hf : Flat a'.mem 2 root) :
    Owns a' root (new ++ N) := by
  have hok := hs.grow.ok.nodup
  rw [hs.grow.out, List.nodup_append] at hok
  obtain ⟨hnew, _, hdis⟩ := hok
  refine ⟨h.toWhole.edit hs.toEdit hf, ?_, fun s => ?_⟩
  · have hperm : (root :: (new ++ N)).Perm (new ++ (root :: N)) := List.perm_middle.symm
    rw [hperm.nodup_iff, List.nodup_append]
    refine ⟨hnew.of_map, h.nodup, fun s hsn t ht e => ?_⟩
    -- what was allocated was not outstanding before
    rw [← e, ← h.mem] at ht
    exact hdis (pageAt s) (List.mem_map_of_mem hsn) (pageAt s) (h.out s ht) rfl
  · rw [List.mem_cons, List.mem_append]
    constructor
    · intro hin
      cases hs.upd.mem_tables s hin with
      | inl hold => exact (List.mem_cons.mp ((h.mem s).mp hold)).imp_right .inr
      | inr hin => exact .inr (.inl hin)
    · intro hin
      refine hs.keeps s ?_
      rw [h.mem, List.mem_cons]
      exact hin.elim (fun e => .inl (.inl e)) fun hin => hin.elim .inr fun hin => .inl (.inr hin)

theorem Owns.elsewhere (h : Owns a root N) (he : Elsewhere a a' root) : Owns a' root N := by
  refine ⟨h.toWhole.elsewhere he, h.nodup, fun s => ?_⟩
  rw [tables_congr fun s hs => (he.kept s hs).2]
  exact h.mem s

theorem TableRun.owns (hC : ∀ a c, C a c → c.Spares root a) (h : TableRun C root N a) : Owns a root N := by
  induction h with
  | create hok hrun =>
    have hh := Whole.create hok hrun
    obtain ⟨_, _, htab, _⟩ := createPageTable_spec hok hrun
    refine ⟨hh, List.nodup_singleton root, fun s => ?_⟩
    rw [List.mem_singleton]
    refine ⟨htab s, fun e => ?_⟩
    rw [e]
    exact table_mem_tables
  | call h hl hc hrun hnew ih =>
    obtain ⟨N', hs, hf⟩ := Call.keeps ih.wf hl (hC _ _ hc) hrun
    rw [hs.grow.out] at hnew
    rw [← new_unique hnew]
    exact ih.split hs (hf ih.flat)
  | other _ he ih => exact ih.elsewhere he

/-- **Ownership of page-table pages.** In a run whose calls overwrite no entry that leads to a table, the
root leads to each page that was allocated once, and destroy_page_table frees the root and these pages. -/
theorem tables_owned (h : TableRun (fun a c => c.Spares root a) root N a) :
    (tables a.mem 2 root).Perm (root :: N) ∧ ∃ (a' : Mm) (l : List Nat), destroyPageTable root a = .ok a' ∧
      destroyPageTable root a = runActs (l.map fun s => .free { address := s, order := 0 }) a ∧ l.Perm (root :: N) := by
  have ho := h.owns fun _ _ hc => hc
  have hperm : (tables a.mem 2 root).Perm (root :: N) :=
    (List.perm_ext_iff_of_nodup ho.wf.tree.nodup ho.nodup).mpr ho.mem
  obtain ⟨a', hrun⟩ := (doDestroyPageTable_spec ho.wf.ok ho.wf.tree ho.out).returns ho.flat
  exact ⟨hperm, a', _, hrun, doDestroyPageTable_frees ho.wf.ok ho.wf.tree ho.out ho.flat,
    (postorder_perm a.mem 2 root).trans hperm⟩

/-! ## a page and a superpage -/

/-- the pages that a call allocated -/
theorem Splitting.out_eq {new : List Nat} (hs : Splitting a a' root new) :
    a'.out = new.map (fun s => { address := s, order := 0 }) ++ a.out := hs.grow.out

/-- set_page makes a table of level 1 in a tree of one table -/
theorem setPage_makes_table (hw : WellFormed a root) (hsingle : ∀ t ∈ tables a.mem 2 root, t = root)
    (hl : pteIsLeaf flags = true) (hrun : setPage root va pa flags a = .ok (r, a')) :
    ∃ N t, Splitting a a' root N ∧ t ∈ N ∧ Path a'.mem va 1 t 2 root := by
  obtain ⟨_, N, a₁, s, hslot⟩ := setPage_slot hw hrun
  obtain ⟨hs, _⟩ := hslot.keeps hw (.inl hl) trivial
  obtain ⟨t, hpath, _⟩ := Path.level0_iff.mp (hslot.path_after hw).1
  obtain ⟨hp, ht⟩ := Path.level1_iff.mp hpath
  refine ⟨N, t, hs, ?_, hpath⟩
  refine (hs.upd.mem_tables t hpath.mem_tables).resolve_left fun hold => ?_
  have hsub := ((hs.wellFormed hw).sub (Bitfield.field_lt 30 9 va) hp).2 t
  rw [ht] at hsub hold
  exact (hsub table_mem_tables).2 (hsingle _ hold)

/-- what set_page_1g overwrites is lost -/
theorem setPage1g_drops {t : Nat} (hw : WellFormed a root) (hl : pteIsLeaf flags = true) (hpath : Path a.mem va 1 t 2 root)
    (hrun : setPage1g root va pa flags a = .ok (r, a')) : t ∉ tables a'.mem 2 root := by
  have htwo : vpnAt 2 va = Sv39Va.vpn2 va := rfl
  have hi : vpnAt 2 va < entryCount := vpnAt_lt 2 va
  obtain ⟨hp, ht⟩ := Path.level1_iff.mp hpath
  obtain ⟨_, hslot⟩ := setPage1g_slot hw hrun
  obtain ⟨heach, hdis⟩ := tree_succ.mp hw.tree
  have hmem : t ∈ below a.mem 1 (entry a.mem root (vpnAt 2 va)) := by
    rw [htwo, below_of_pointer hp, ← ht]
    exact table_mem_tables
  have hother : ∀ u j, j < entryCount → u ≠ root ∨ j ≠ vpnAt 2 va → pageSize ∣ u →
      entry a'.mem u j = entry a.mem u j := by
    intro u j hj hne hu
    rw [hslot.write]
    exact entry_setEntry_of_ne hw.page hu hi hj hne
  intro hin
  cases mem_tables_succ.mp hin with
  | inl he =>
    rw [he] at hmem
    exact (heach _ hi).2 hmem
  | inr hin =>
    obtain ⟨j, hj, hmem'⟩ := hin
    by_cases he : j = vpnAt 2 va
    · have hleaf : pteInvalidOrLeaf (entry a'.mem root j) = true := by
        rw [he, (hslot.path_after hw).2, ← updatePte_mod]
        exact invalidOrLeaf_updatePte (Nat.mod_lt _ (by decide)) (.inl (by rw [pteIsLeaf_mod]; exact hl))
      rw [below_of_leaf hleaf] at hmem'
      exact absurd hmem' List.not_mem_nil
    · rw [hother root j hj (.inr he) hw.page, below_congr fun u hu k hk => ?_] at hmem'
      · exact hdis j hj _ hi he hmem' hmem
      · have hin : u ∈ tables a.mem 2 root := mem_tables_succ.mpr (.inr ⟨j, hj, hu⟩)
        refine hother u k hk (.inl fun e => ?_) (tables_page hw.page u hin)
        rw [e] at hu
        exact (heach j hj).2 hu

theorem newTable_room : (Mm.init fun _ => 0).Room (2 + 1) := ⟨Mm.init_ok _, nofun, by decide⟩

/-- a page is mapped in a new table and unmapped again -/
theorem tables_owned_page : ∃ root a a₁ a₂ r N, createPageTable (Mm.init fun _ => 0) = .ok (root, a) ∧
    setPage root 0x1000 0x80000000 (pteValid ||| pteRead) a = .ok (r, a₁) ∧ unsetPage root 0x1000 a₁ = .ok (0, a₂) ∧
    N ≠ [] ∧ (tables a₂.mem 2 root).Perm (root :: N) := by
  obtain ⟨root, a, hcreate⟩ := newTable_room.createPageTable
  obtain ⟨hx, hw, hsingle, _⟩ := createPageTable_spec newTable_room.ok hcreate
  have hr₁ : a.Room (0 + 2) := newTable_room.step hx (Nat.le_of_eq rfl)
  obtain ⟨r, a₁, hset⟩ : ∃ r a', setPage root 0x1000 0x80000000 (pteValid ||| pteRead) a = .ok (r, a') :=
    hr₁.setPage hw (by decide) (by decide)
  obtain ⟨N, t, hs, ht, _⟩ := setPage_makes_table hw hsingle rfl hset
  obtain ⟨_, hundoes⟩ : Removes unsetPage setPage 0 a root 0x1000 := unsetPage_removes hw
  obtain ⟨a₂, hunset, _⟩ := hundoes 0x80000000 (pteValid ||| pteRead) r a₁ rfl hset
  obtain ⟨N₂, hs₂, _⟩ := unset_keeps (unsetPage_cases hunset) (hs.wellFormed hw)
  have hrun := TableRun.create (C := fun a c => c.Spares root a) newTable_room.ok hcreate
  have hrun₁ := hrun.call (c := .setPage 0x1000 0x80000000 (pteValid ||| pteRead)) (.inl rfl) trivial hset hs.out_eq
  have hrun₂ := hrun₁.call (c := .unsetPage 0x1000) trivial trivial hunset hs₂.out_eq
  refine ⟨root, a, a₁, a₂, r, _, hcreate, hset, hunset, fun he => ?_, (tables_owned hrun₂).1⟩
  have hnil := (List.append_eq_nil_iff.mp (List.append_eq_nil_iff.mp he).2).1
  rw [hnil] at ht
  exact nomatch ht

/-- set_page_1g over a gigabyte in which a page is mapped: the table of level 1 is lost -/
theorem set_page_1g_orphans_table : ∃ root a a₁ a₂ r N t, createPageTable (Mm.init fun _ => 0) = .ok (root, a) ∧
    setPage root 0 0x80000000 (pteValid ||| pteRead) a = .ok (r, a₁) ∧
    setPage1g root 0 0x80000000 (pteValid ||| pteRead) a₁ = .ok (0, a₂) ∧ TableRun (fun _ _ => True) root N a₂ ∧
    t ∈ N ∧ t ∉ tables a₂.mem 2 root := by
  obtain ⟨root, a, hcreate⟩ := newTable_room.createPageTable
  obtain ⟨hx, hw, hsingle, _⟩ := createPageTable_spec newTable_room.ok hcreate
  have hr₁ : a.Room (0 + 2) := newTable_room.step hx (Nat.le_of_eq rfl)
  obtain ⟨r, a₁, hset⟩ : ∃ r a', setPage root 0 0x80000000 (pteValid ||| pteRead) a = .ok (r, a') :=
    hr₁.setPage hw (by decide) (by decide)
  obtain ⟨N, t, hs, ht, hpath⟩ := setPage_makes_table hw hsingle rfl hset
  obtain ⟨a₂, hset₂⟩ : ∃ a₂, setPage1g root 0 0x80000000 (pteValid ||| pteRead) a₁ = .ok (0, a₂) := ⟨_, rfl⟩
  have hw₁ := hs.wellFormed hw
  have hout : a₂.out = ([] : List Nat).map (fun s => { address := s, order := 0 }) ++ a₁.out := by
    rw [(setPage1g_slot hw₁ hset₂).2.write]
    rfl
  have hrun := TableRun.create (C := fun _ _ => True) newTable_room.ok hcreate
  have hrun₁ := hrun.call (c := .setPage 0 0x80000000 (pteValid ||| pteRead)) (.inl rfl) trivial hset hs.out_eq
  have hrun₂ := hrun₁.call (c := .setPage1g 0 0x80000000 (pteValid ||| pteRead)) (.inl rfl) trivial hset₂ hout
  exact ⟨root, a, a₁, a₂, r, _, t, hcreate, hset, hset₂, hrun₂,
    List.mem_append_right _ (List.mem_append_left _ ht), setPage1g_drops hw₁ rfl hpath hset₂⟩

end FakeKernel
