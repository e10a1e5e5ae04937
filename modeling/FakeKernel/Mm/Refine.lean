import FakeKernel.Mm.Translate

/-!
# The translation map of a table

* `createPageTable_spec`   a new table maps the kernel half of the address space and nothing else;
* `set_page_refines`       set_page, set_page_2m and set_page_1g update one page of the map.
-/

namespace FakeKernel
open Bytes Bitfield Mm

def kernFlags : Nat := pteValid ||| pteRead ||| pteWrite ||| pteExec ||| pteGlobal
def mmioFlags : Nat := pteValid ||| pteRead ||| pteWrite ||| pteGlobal

/-- the map that create_page_table installs -/
def kernelMap (x : Nat) : Option Translation :=
  if SamePage 2 x kernBase then setLeaf 2 kernPhy kernFlags x
  else if SamePage 2 x mmioBase then setLeaf 2 mmioPhy mmioFlags x
  else none

variable {a a' : Mm} {root va pa flags s : Nat}

/-- a table whose entries are all zero -/
theorem zero_table {m : Mem} {table : Nat} (h : ∀ i < entryCount, entry m table i = 0) :
    Tree m 2 table ∧ tables m 2 table = [table] ∧ ∀ x, walk m 2 table x = none := by
  have hzero : pteInvalidOrLeaf 0 = true := rfl
  have hleaves : ∀ i < entryCount, pteInvalidOrLeaf (entry m table i) = true := by
    intro i hi
    rw [h i hi]
    exact hzero
  have htab : tables m 2 table = [table] := tables_of_leaves hleaves
  refine ⟨⟨?_, aligned_succ.mpr fun i hi => ?_⟩, htab, fun x => ?_⟩
  · rw [htab]
    exact List.nodup_singleton table
  · rw [h i hi]
    show Sv39Pte.flags 0 &&& pteValid ≠ 0 → _
    exact fun hne => absurd rfl hne
  · rw [walk_succ, h _ (vpnAt_lt 2 x), walkBelow_of_leaf hzero]
    rfl

theorem mapKernelPages_total (table : Nat) (a : Mm) : ∃ a', mapKernelPages table a = .ok a' :=
  ⟨_, rfl⟩

theorem createPageTable_spec (h : a.Ok) (hrun : createPageTable a = .ok (root, a')) :
    Extends a a' ∅ [root] ∧ WellFormed a' root ∧ (∀ t ∈ tables a'.mem 2 root, t = root) ∧
      ∀ x, walk a'.mem 2 root x = kernelMap x := by
  unfold createPageTable at hrun
  obtain ⟨⟨p, a₁⟩, halloc, hrun⟩ := Res.bind_eq_ok.mp hrun
  obtain ⟨hord, hp⟩ := h.alloc (by decide) halloc
  have hne : p.address ≠ 0 := by
    have hlow := (hp.usable (Tiling.base_mem p)).1
    unfold kernPhyBase kernBase splitAddr at hlow
    omega
  simp only [hne, if_false] at hrun
  obtain ⟨a₄, hmap, hret⟩ := Res.bind_eq_ok.mp hrun
  cases hret
  obtain ⟨a₂, ha₂⟩ : ∃ a₂, a₂ = a₁.setMem (fillTable p.address (fun _ => 0) entryCount a₁.mem) :=
    ⟨_, rfl⟩
  rw [← ha₂] at hmap
  have hfill : ∀ x, x ∉ p.bytes → fillTable p.address (fun _ => 0) entryCount a₁.mem x = a₁.mem x := by
    intro x hx
    refine fillTable_apply_out (Nat.le_refl _) fun hxp => hx ?_
    exact page_bytes_le hxp.1 hxp.2
  have hx₂ : Extends a a₂ ∅ [p.address] := by
    rw [ha₂]
    exact (hp.setMem hfill).extends hord
  have hentries : ∀ i < entryCount, entry a₂.mem p.address i = 0 := by
    rw [ha₂]
    exact fillTable_entry hp.page (fun _ => Nat.two_pow_pos 64) (Nat.le_refl _)
  obtain ⟨htree, htab, hwalk⟩ := zero_table hentries
  have hin : p.address ∈ [p.address] := List.mem_singleton_self _
  have hw₂ : WellFormed a₂ p.address := by
    refine ⟨hx₂.ok, htree, hp.page, fun s hs => ?_⟩
    rw [htab] at hs
    rw [List.mem_singleton.mp hs]
    exact hx₂.new_kept hin
  unfold mapKernelPages at hmap
  obtain ⟨⟨r₃, a₃⟩, hset₃, hmap⟩ := Res.bind_eq_ok.mp hmap
  obtain ⟨⟨r₄, a₅⟩, hset₄, hmap⟩ := Res.bind_eq_ok.mp hmap
  cases hmap
  obtain ⟨_, he₃, hwalk₃⟩ := setPage1g_spec hw₂ (by decide) (.inl rfl) hset₃
  have hw₃ := he₃.wellFormed hw₂
  obtain ⟨_, he₄, hwalk₄⟩ := setPage1g_spec hw₃ (by decide) (.inl rfl) hset₄
  have hall := he₃.trans he₄
  refine ⟨?_, hall.wellFormed hw₂, ?_, fun x => ?_⟩
  · refine hx₂.trans hall.grow fun s hs => .inr ?_
    rw [← htab]
    exact hs
  · intro t ht
    cases hall.upd.mem_tables t ht with
    | inl hold =>
      rw [htab] at hold
      exact List.mem_singleton.mp hold
    | inr hnew => exact absurd hnew List.not_mem_nil
  · rw [hwalk₄ x, hwalk₃ x, hwalk x]
    rfl

theorem createPageTable_of_alloc {p : Page} {a₁ : Mm} (halloc : a.allocPages 0 = .ok (p, a₁)) :
    ∃ root a', createPageTable a = .ok (root, a') := by
  unfold createPageTable
  rw [halloc, Res.ok_bind]
  by_cases h0 : p.address = 0
  · simp only [h0, if_true]
    exact ⟨_, _, rfl⟩
  · simp only [h0, if_false]
    exact ⟨_, _, rfl⟩

theorem createPageTable_succeeds (h : a.Ok) (hord : ∀ p ∈ a.out, p.order = 0)
    (hlen : a.out.length < pageCount) : ∃ root a', createPageTable a = .ok (root, a') := by
  obtain ⟨p, a₁, halloc⟩ := h.alloc_succeeds hord hlen
  exact createPageTable_of_alloc halloc

/-! ## refinement -/

/-- the step from `a` to `a'` maps the page of `level` at `va` to `pa` with `flags`, or unmaps it
if `flags` are not valid, and changes no other translation -/
def SetsPage (level : Nat) (a a' : Mm) (root va pa flags : Nat) : Prop :=
  WellFormed a' root ∧ ∀ x,
    walk a'.mem 2 root x =
      if x % 2 ^ 39 / 2 ^ (12 + 9 * level) = va % 2 ^ 39 / 2 ^ (12 + 9 * level) then
        if flags &&& pteValid = 0 then none
        else some ⟨pa % 2 ^ 56 + x % 2 ^ (12 + 9 * level), flags⟩
      else walk a.mem 2 root x

theorem setLeaf_eq {level x : Nat} (hl : pteIsLeaf flags = true ∨ flags &&& pteValid = 0) :
    setLeaf level pa flags x = if flags &&& pteValid = 0 then none
      else some ⟨pa % 2 ^ 56 + x % 2 ^ (12 + 9 * level), flags⟩ := by
  unfold setLeaf
  by_cases hv : flags &&& pteValid = 0
  · rw [if_pos hv, hv]
    rfl
  · rw [if_neg hv, hl.resolve_right hv]
    simp [hv]

/-- **Refinement of the translation map.** -/
theorem set_page_refines (hw : WellFormed a root) (hf : flags < 2 ^ 8)
    (hl : pteIsLeaf flags = true ∨ flags &&& pteValid = 0) :
    (∀ a', setPage root va pa flags a = .ok (0, a') → SetsPage 0 a a' root va pa flags) ∧
    (∀ a', setPage2m root va pa flags a = .ok (0, a') → SetsPage 1 a a' root va pa flags) ∧
    (∀ a', setPage1g root va pa flags a = .ok (0, a') → SetsPage 2 a a' root va pa flags) := by
  refine ⟨fun a' hrun => ?_, fun a' hrun => ?_, fun a' hrun => ?_⟩
  · obtain ⟨_, N, _, he, hwalk⟩ := setPage_spec hw hf hrun
    refine ⟨he.wellFormed hw, fun x => ?_⟩
    rw [hwalk x, setLeaf_eq hl]
    rfl
  · obtain ⟨_, N, he, hwalk⟩ := setPage2m_spec hw hf hl hrun
    refine ⟨he.wellFormed hw, fun x => ?_⟩
    rw [hwalk x, setLeaf_eq hl]
    rfl
  · obtain ⟨_, he, hwalk⟩ := setPage1g_spec hw hf hl hrun
    refine ⟨he.wellFormed hw, fun x => ?_⟩
    rw [hwalk x, setLeaf_eq hl]
    rfl

/-- a 1G page in a new table, read back and next to an address that stays unmapped -/
theorem set_page_refines_new_table : ∃ root a a',
    createPageTable (Mm.init fun _ => 0) = .ok (root, a) ∧
    setPage1g root 0x40000000 0x80000000 (pteValid ||| pteRead) a = .ok (0, a') ∧
    walk a'.mem 2 root 0x40000123 = some ⟨0x80000123, pteValid ||| pteRead⟩ ∧
    walk a'.mem 2 root 0x80000000 = none := by
  obtain ⟨root, a, hrun⟩ := createPageTable_succeeds (init_ok fun _ => 0) nofun (by decide)
  obtain ⟨_, hw, _, hwalk⟩ := createPageTable_spec (init_ok fun _ => 0) hrun
  obtain ⟨_, hset⟩ := (@set_page_refines a root 0x40000000 0x80000000 (pteValid ||| pteRead) hw (by decide) (.inl rfl)).2.2 _ rfl
  refine ⟨root, a, _, hrun, rfl, ?_, ?_⟩
  · rw [hset]
    rfl
  · rw [hset, hwalk]
    rfl

end FakeKernel
