import FakeKernel.Mm.Pte

/-!
# Page-table updates refine the translation map

`WellFormed a root`: the tables of the tree at `root` are referenced once, hold aligned superpages
and lie in pages that the allocator does not own.  Each of set_page, set_page_2m and set_page_1g
changes the translation of the page it is about and no other.

* `expand_update`      a superpage that is split keeps its translation;
* `ensurePage2m_spec`, `ensureSubtable_spec`   the tables that are missing are made on the way;
* `setPage_spec`, `setPage2m_spec`, `setPage1g_spec`.
-/

namespace FakeKernel
open Bytes Bitfield Mm

structure WellFormed (a : Mm) (root : Nat) : Prop where
  ok : a.Ok
  tree : Tree a.mem 2 root
  page : pageSize ∣ root
  kept : ∀ s ∈ tables a.mem 2 root, a.KeptPage s

/-- a step of the table functions; the tables in `N` were allocated for the tree at `root` -/
structure Edit (a a' : Mm) (root : Nat) (N : List Nat) : Prop where
  grow : Extends a a' {s | s ∈ tables a.mem 2 root} N
  upd : Update a.mem a'.mem {s | s ∈ N} 2 root

/-- superpages are split and no table is dropped -/
structure Splitting (a a' : Mm) (root : Nat) (N : List Nat) : Prop extends Edit a a' root N where
  keeps : Keeps a.mem a'.mem {s | s ∈ N} 2 root

variable {a a' a'' : Mm} {m m' : Mem} {root table s i level va pa pte flags : Nat} {N N' : List Nat}

theorem Edit.refl (hw : WellFormed a root) : Edit a a root [] :=
  ⟨(Extends.refl hw.ok).mono nofun fun s hs => tables_page hw.page s hs,
    hw.tree, fun _ hs => .inl hs⟩

theorem Edit.trans (h : Edit a a' root N) (h' : Edit a' a'' root N') :
    Edit a a'' root (N' ++ N) where
  grow := h.grow.trans h'.grow fun s hs => h.upd.mem_tables s hs
  upd := by
    refine ⟨h'.upd.tree, fun s hs => ?_⟩
    cases h'.upd.mem_tables s hs with
    | inr hin => exact .inr (List.mem_append_left _ hin)
    | inl hin =>
      cases h.upd.mem_tables s hin with
      | inl hold => exact .inl hold
      | inr hnew => exact .inr (List.mem_append_right _ hnew)

theorem Edit.wellFormed (h : Edit a a' root N) (hw : WellFormed a root) : WellFormed a' root where
  ok := h.grow.ok
  tree := h.upd.tree
  page := hw.page
  kept := fun s hs => by
    cases h.upd.mem_tables s hs with
    | inl hin => exact h.grow.keptPage (hw.kept s hin)
    | inr hin => exact h.grow.new_kept hin

theorem Splitting.refl (hw : WellFormed a root) : Splitting a a root [] :=
  ⟨Edit.refl hw, fun _ hs => hs.elim id nofun⟩

theorem Splitting.trans (h : Splitting a a' root N) (h' : Splitting a' a'' root N') :
    Splitting a a'' root (N' ++ N) where
  toEdit := h.toEdit.trans h'.toEdit
  keeps := fun s hs => by
    apply h'.keeps
    cases hs with
    | inl hin => exact .inl (h.keeps s (.inl hin))
    | inr hin =>
      cases List.mem_append.mp hin with
      | inl hin => exact .inr hin
      | inr hin => exact .inl (h.keeps s (.inr hin))

/-! ## filling a new table -/

theorem fillTable_entry {f : Nat → Nat} (ht : pageSize ∣ table) (hf : ∀ i, f i < 2 ^ 64) {n : Nat}
    (hn : n ≤ entryCount) : ∀ i < n, entry (fillTable table f n m) table i = f i := by
  induction n with
  | zero => exact fun i hi => absurd hi (Nat.not_lt_zero i)
  | succ n ih =>
    intro i hi
    show entry (setEntry (fillTable table f n m) table n (f n)) table i = f i
    by_cases hin : i = n
    · subst hin
      exact entry_setEntry_self (hf i)
    · rw [entry_setEntry_of_ne ht ht (by omega) (by omega) (.inr hin)]
      exact ih (by omega) i (by omega)

theorem fillTable_apply_out {f : Nat → Nat} {x n : Nat} (hn : n ≤ entryCount)
    (hx : ¬ onPage table x) : fillTable table f n m x = m x := by
  induction n with
  | zero => rfl
  | succ n ih =>
    show setEntry (fillTable table f n m) table n (f n) x = m x
    rw [setEntry_apply_out (by omega) ?_, ih (by omega)]
    unfold onPage at hx
    omega

theorem expandSuperpage_spec (h : a.Ok) (hpte : pte < 2 ^ 64)
    (hrun : expandSuperpage pte level a = .ok (s, a')) :
    s ≠ 0 ∧ Extends a a' ∅ [s] ∧
      ∀ i < entryCount, entry a'.mem s i = expandPte pte level i := by
  unfold expandSuperpage at hrun
  obtain ⟨⟨p, a₁⟩, halloc, hret⟩ := Res.bind_eq_ok.mp hrun
  obtain ⟨hord, hp⟩ := h.alloc (by decide) halloc
  have hne : p.address ≠ 0 := by
    have hlow := (hp.usable (Tiling.base_mem p)).1
    unfold kernPhyBase kernBase splitAddr at hlow
    omega
  simp only [hne, if_false] at hret
  cases hret
  have hfill : ∀ x, x ∉ p.bytes →
      fillTable p.address (expandPte pte level) entryCount a₁.mem x = a₁.mem x := by
    intro x hx
    refine fillTable_apply_out (Nat.le_refl _) fun hxp => hx ?_
    exact page_bytes_le hxp.1 hxp.2
  refine ⟨hne, (hp.setMem hfill).extends hord, ?_⟩
  exact fillTable_entry hp.page (fun i => expandPte_lt hpte) (Nat.le_refl _)

theorem setEntry_extends (pte : Nat) (h : a.Ok) (hs : a.KeptPage table) (hp : pageSize ∣ table)
    (hi : i < entryCount) : Extends a (a.setEntry table i pte) {table} [] := by
  refine h.write_page hs hp fun x hx => ?_
  apply setEntry_apply_out hi
  unfold onPage at hx
  omega

/-! ## splitting a superpage -/

theorem tables_of_leaves (h : ∀ j < entryCount, pteInvalidOrLeaf (entry m table j) = true) :
    tables m level table = [table] := by
  cases level with
  | zero => rfl
  | succ level =>
    rw [tables_succ, List.cons_inj_right, List.flatMap_eq_nil_iff]
    exact fun j hj => below_of_leaf (h j (List.mem_range.mp hj))

/-- the entry `i` of `table` is replaced by a pointer to a table that translates like it -/
theorem expand_update (hl : level ≤ 1) (ht : Tree m (level + 1) table) (hi : i < entryCount)
    (hleaf : pteInvalidOrLeaf (entry m table i) = true) (hs : s ∉ tables m (level + 1) table)
    (hptr : pteInvalidOrLeaf (entry m' table i) = false)
    (hsub : subtableFromPte (entry m' table i) = s)
    (hfill : ∀ j < entryCount, entry m' s j = expandPte (entry m table i) level j)
    (hsame : ∀ u ∈ tables m (level + 1) table, ∀ j < entryCount, u ≠ table ∨ j ≠ i →
      entry m' u j = entry m u j) :
    Update m m' {t | t ∈ [s]} (level + 1) table ∧ Keeps m m' {t | t ∈ [s]} (level + 1) table ∧
      ∀ va, walk m' (level + 1) table va = walk m (level + 1) table va := by
  obtain ⟨heach, _⟩ := tree_succ.mp ht
  have hleaves : ∀ j < entryCount, pteInvalidOrLeaf (entry m' s j) = true := by
    intro j hj
    rw [hfill j hj]
    exact invalidOrLeaf_expandPte hleaf
  have htab : ∀ l, tables m' l s = [s] := fun l => tables_of_leaves hleaves
  have hin : ∀ j < entryCount, ∀ u ∈ below m level (entry m table j),
      u ∈ tables m (level + 1) table := fun j hj u hu => mem_tables_succ.mpr (.inr ⟨j, hj, hu⟩)
  have hc : SlotChange m m' level table i := by
    refine ⟨hi, fun j hj hji => hsame table table_mem_tables j hj (.inr hji), ?_⟩
    intro j hj _ u hu k hk
    refine hsame u (hin j hj u hu) k hk (.inl ?_)
    intro e
    rw [e] at hu
    exact (heach j hj).2 hu
  have hbelow : below m' level (entry m' table i) = [s] := by
    rw [below_of_pointer hptr, hsub, htab]
  have htree : Tree m' level s := by
    refine ⟨?_, ?_⟩
    · rw [htab]
      exact List.nodup_singleton s
    · have hcases : level = 0 ∨ level = 1 := by omega
      cases hcases with
      | inl h =>
        subst h
        trivial
      | inr h =>
        subst h
        refine aligned_succ.mpr fun j hj => ?_
        have h18 := (treeBelow_of_leaf hleaf).mp (heach i hi).1
        simp only [hleaves j hj, if_true]
        rw [hfill j hj, flags_expandPte]
        exact fun hv => aligned_expandPte (h18 hv)
  refine ⟨⟨hc.tree ht ?_ ?_, ?_⟩, fun u hu => hc.mem_tables.mpr ?_, fun va => ?_⟩
  · rw [treeBelow_of_pointer hptr, hsub]
    exact htree
  · intro u hu
    rw [hbelow] at hu
    obtain rfl := List.mem_singleton.mp hu
    refine ⟨?_, fun j hj _ hu' => hs (hin j hj u hu')⟩
    intro e
    subst e
    exact hs table_mem_tables
  · intro u hu
    rcases hc.mem_tables.mp hu with he | hu | ⟨j, hj, _, hu⟩
    · exact .inl (he ▸ table_mem_tables)
    · exact .inr (hbelow ▸ hu)
    · exact .inl (hin j hj u hu)
  · rw [hbelow]
    cases hu with
    | inr hu => exact .inr (.inl hu)
    | inl hu =>
      cases mem_tables_succ.mp hu with
      | inl he => exact .inl he
      | inr hu =>
        obtain ⟨j, hj, hu⟩ := hu
        refine .inr (.inr ⟨j, hj, fun e => ?_, hu⟩)
        rw [e, below_of_leaf hleaf] at hu
        exact absurd hu List.not_mem_nil
  · rw [hc.walk va]
    by_cases hv : vpnAt (level + 1) va = i
    · rw [if_pos hv, walkBelow_of_pointer hptr, hsub, walk_succ, hv, walkBelow_of_leaf hleaf,
        ← leafAt_expandPte hl, ← hfill _ (vpnAt_lt level va)]
      cases level with
      | zero => rfl
      | succ level =>
        rw [walk_succ, walkBelow_of_leaf (hleaves _ (vpnAt_lt _ va))]
    · rw [if_neg hv]

theorem leaf_update (ht : Tree m (level + 1) table) (hi : i < entryCount)
    (hleaf : pteInvalidOrLeaf (entry m' table i) = true)
    (hal : Sv39Pte.flags (entry m' table i) &&& pteValid ≠ 0 →
      2 ^ (9 * (level + 1)) ∣ Sv39Pte.ppn (entry m' table i))
    (hsame : ∀ u ∈ tables m (level + 1) table, ∀ j < entryCount, u ≠ table ∨ j ≠ i →
      entry m' u j = entry m u j) :
    Update m m' {t | t ∈ ([] : List Nat)} (level + 1) table ∧ ∀ va,
      walk m' (level + 1) table va
        = if vpnAt (level + 1) va = i then leafAt (level + 1) (entry m' table i) va
          else walk m (level + 1) table va := by
  obtain ⟨heach, _⟩ := tree_succ.mp ht
  have hin : ∀ j < entryCount, ∀ u ∈ below m level (entry m table j),
      u ∈ tables m (level + 1) table := fun j hj u hu => mem_tables_succ.mpr (.inr ⟨j, hj, hu⟩)
  have hc : SlotChange m m' level table i := by
    refine ⟨hi, fun j hj hji => hsame table table_mem_tables j hj (.inr hji), ?_⟩
    intro j hj _ u hu k hk
    refine hsame u (hin j hj u hu) k hk (.inl ?_)
    intro e
    rw [e] at hu
    exact (heach j hj).2 hu
  refine ⟨⟨hc.tree ht ((treeBelow_of_leaf hleaf).mpr hal) ?_, ?_⟩, fun va => ?_⟩
  · rw [below_of_leaf hleaf]
    exact nofun
  · intro u hu
    rcases hc.mem_tables.mp hu with he | hu | ⟨j, hj, _, hu⟩
    · exact .inl (he ▸ table_mem_tables)
    · rw [below_of_leaf hleaf] at hu
      exact absurd hu List.not_mem_nil
    · exact .inl (hin j hj u hu)
  · rw [hc.walk va, walkBelow_of_leaf hleaf]

/-! ## the same at the level of the allocator -/

/-- an update below the entry `i` of `table` is an update at `table` -/
theorem lift_update {W : Set Nat} (ht : Tree a.mem (level + 1) table)
    (hkept : ∀ u ∈ tables a.mem (level + 1) table, a.KeptPage u) (hpage : pageSize ∣ table)
    (hi : i < entryCount) (hp : pteInvalidOrLeaf (entry a.mem table i) = false)
    (hx : Extends a a' W N)
    (hW : ∀ w ∈ W, w ∈ tables a.mem level (subtableFromPte (entry a.mem table i)))
    (hu : Update a.mem a'.mem {s | s ∈ N} level (subtableFromPte (entry a.mem table i))) :
    Update a.mem a'.mem {s | s ∈ N} (level + 1) table ∧
      (Keeps a.mem a'.mem {s | s ∈ N} level (subtableFromPte (entry a.mem table i)) →
        Keeps a.mem a'.mem {s | s ∈ N} (level + 1) table) ∧
      ∀ va, walk a'.mem (level + 1) table va
        = if vpnAt (level + 1) va = i then
            walk a'.mem level (subtableFromPte (entry a.mem table i)) va
          else walk a.mem (level + 1) table va := by
  refine Update.lift ht hi hp hu (fun s hs hin => hx.not_new (hkept s hin) hs) ?_
  intro s hs hout j hj
  have hW' : s ∉ W := fun h => hout (hW s h)
  exact entry_congr hj fun x h1 h2 =>
    hx.same (hkept s hs) (tables_page hpage s hs) hW' ⟨h1, h2⟩

theorem Edit.lift {W : Set Nat} (hw : WellFormed a root) (hi : i < entryCount)
    (hp : pteInvalidOrLeaf (entry a.mem root i) = false) (hx : Extends a a' W N)
    (hW : ∀ w ∈ W, w ∈ tables a.mem 1 (subtableFromPte (entry a.mem root i)))
    (hu : Update a.mem a'.mem {s | s ∈ N} 1 (subtableFromPte (entry a.mem root i))) :
    Edit a a' root N ∧
      (Keeps a.mem a'.mem {s | s ∈ N} 1 (subtableFromPte (entry a.mem root i)) →
        Splitting a a' root N) ∧
      ∀ va, walk a'.mem 2 root va
        = if vpnAt 2 va = i then walk a'.mem 1 (subtableFromPte (entry a.mem root i)) va
          else walk a.mem 2 root va := by
  obtain ⟨hup, hkeeps, hwalk⟩ := lift_update hw.tree hw.kept hw.page hi hp hx hW hu
  have hedit : Edit a a' root N := by
    refine ⟨hx.mono ?_ fun s hs => tables_page hw.page s hs, hup⟩
    intro w hw'
    refine mem_tables_succ.mpr (.inr ⟨i, hi, ?_⟩)
    rw [below_of_pointer hp]
    exact hW w hw'
  exact ⟨hedit, fun hk => ⟨hedit, hkeeps hk⟩, hwalk⟩

/-- the entries of the tree other than the one that is written -/
theorem same_entries {W : Set Nat} {a₁ : Mm} (hx : Extends a a₁ W N) (hpage : pageSize ∣ table)
    (hkept : ∀ u ∈ tables a.mem level table, a.KeptPage u)
    (hW : ∀ u ∈ tables a.mem level table, u ∉ W) (hi : i < entryCount) :
    ∀ u ∈ tables a.mem level table, ∀ j < entryCount, u ≠ table ∨ j ≠ i →
      entry (a₁.setEntry table i pte).mem u j = entry a.mem u j := by
  intro u hu j hj hne
  have hup := tables_page hpage u hu
  calc entry (a₁.setEntry table i pte).mem u j
      = entry a₁.mem u j := entry_setEntry_of_ne hpage hup hi hj hne
    _ = entry a.mem u j := entry_congr hj fun x h1 h2 =>
        hx.same (hkept u hu) hup (hW u hu) ⟨h1, h2⟩

/-- expand_superpage, and then a pointer to the new table in the entry that was expanded -/
theorem expand_step {a₁ : Mm} (hl : level ≤ 1) (ht : Tree a.mem (level + 1) table)
    (hkept : ∀ u ∈ tables a.mem (level + 1) table, a.KeptPage u) (hpage : pageSize ∣ table)
    (hi : i < entryCount) (hleaf : pteInvalidOrLeaf (entry a.mem table i) = true)
    (hx : Extends a a₁ ∅ [s])
    (hfill : ∀ j < entryCount, entry a₁.mem s j = expandPte (entry a.mem table i) level j)
    (hpte : pte = updatePte (PA s) pteValid (entry a₁.mem table i)) :
    Extends a (a₁.setEntry table i pte) {table} [s] ∧
      Update a.mem (a₁.setEntry table i pte).mem {t | t ∈ [s]} (level + 1) table ∧
      Keeps a.mem (a₁.setEntry table i pte).mem {t | t ∈ [s]} (level + 1) table ∧
      (∀ va, walk (a₁.setEntry table i pte).mem (level + 1) table va
        = walk a.mem (level + 1) table va) ∧
      pteInvalidOrLeaf (entry (a₁.setEntry table i pte).mem table i) = false ∧
      subtableFromPte (entry (a₁.setEntry table i pte).mem table i) = s := by
  have hsin : s ∈ [s] := List.mem_singleton_self s
  have htk := hkept table table_mem_tables
  have hnew : s ∉ tables a.mem (level + 1) table := fun h => hx.not_new (hkept s h) hsin
  have hspage := hx.new_page hsin
  have hself : entry (a₁.setEntry table i pte).mem table i = pte := by
    refine entry_setEntry_self ?_
    rw [hpte]
    exact updatePte_lt (entry_lt _ _ _)
  have hptr : pteInvalidOrLeaf (entry (a₁.setEntry table i pte).mem table i) = false := by
    rw [hself, hpte]
    exact pointer_updatePte _ _
  have hsub : subtableFromPte (entry (a₁.setEntry table i pte).mem table i) = s := by
    rw [hself, hpte]
    exact subtable_updatePte (hx.new_usable hsin) hspage
  have hfill' : ∀ j < entryCount,
      entry (a₁.setEntry table i pte).mem s j = expandPte (entry a.mem table i) level j := by
    intro j hj
    rw [← hfill j hj]
    refine entry_setEntry_of_ne hpage hspage hi hj (.inl ?_)
    intro e
    subst e
    exact hnew table_mem_tables
  obtain ⟨hup, hkeeps, hwalk⟩ := expand_update hl ht hi hleaf hnew hptr hsub hfill'
    (same_entries hx hpage hkept (fun _ _ => Set.notMem_empty _) hi)
  refine ⟨?_, hup, hkeeps, hwalk, hptr, hsub⟩
  have hx' : Extends a a₁ {table} [s] :=
    hx.mono (Set.empty_subset _) fun t h => by rwa [Set.mem_singleton_iff.mp h]
  exact hx'.trans (setEntry_extends pte hx.ok (hx.keptPage htk) hpage hi) fun t h => .inl h

/-! ## the functions of mm.c -/

theorem checkVa2m_eq_ok {u : Unit} :
    checkVa2m va = .ok u ↔ Sv39Va.off va = 0 ∧ Sv39Va.vpn0 va = 0 := by
  unfold checkVa2m
  split
  · rename_i h
    exact ⟨nofun, fun h' => by omega⟩
  · rename_i h
    exact ⟨fun _ => by omega, fun _ => rfl⟩

theorem checkVa1g_eq_ok {u : Unit} : checkVa1g va = .ok u ↔
    Sv39Va.off va = 0 ∧ Sv39Va.vpn0 va = 0 ∧ Sv39Va.vpn1 va = 0 := by
  unfold checkVa1g
  split
  · rename_i h
    exact ⟨nofun, fun h' => by omega⟩
  · rename_i h
    exact ⟨fun _ => by omega, fun _ => rfl⟩

theorem not_leaf_pteValid : pteIsLeaf pteValid = false := rfl

/-- the call of set_page_1g in ensure_page_2m -/
theorem setPage1g_pointer (hs : s ∈ usable) (hp : pageSize ∣ s) (hoff : Sv39Va.off va = 0)
    (hvpn : Sv39Va.vpn0 va = 0) :
    setPage1g table (Sv39Va.setVpn1 0 va) (PA s) pteValid a
      = .ok (0, a.setEntry table (Sv39Va.vpn2 va)
          (updatePte (PA s) pteValid (entry a.mem table (Sv39Va.vpn2 va)))) := by
  have hvpn2 : Sv39Va.vpn2 (Sv39Va.setVpn1 0 va) = Sv39Va.vpn2 va :=
    field_setField_above (by decide)
  have hcheck : checkVa1g (Sv39Va.setVpn1 0 va) = .ok () := by
    refine checkVa1g_eq_ok.mpr ⟨?_, ?_, ?_⟩
    · rw [← hoff]
      exact field_setField_below (by decide)
    · rw [← hvpn]
      exact field_setField_below (by decide)
    · exact field_setField_self 21 9 0 va
  unfold setPage1g
  rw [hcheck, Res.ok_bind]
  simp only [off_PA hs hp, not_leaf_pteValid, hvpn2, ne_eq, not_true_eq_false, Bool.false_eq_true,
    and_false, or_self, if_false]

theorem ensurePage2m_spec {r : Option (Nat × Nat)} (hw : WellFormed a root)
    (hrun : ensurePage2m root va a = .ok (r, a')) :
    Sv39Va.off va = 0 ∧ Sv39Va.vpn0 va = 0 ∧ ∃ N,
      r = some (subtableFromPte (entry a'.mem root (Sv39Va.vpn2 va)), Sv39Va.vpn1 va) ∧
      Splitting a a' root N ∧ (∀ x, walk a'.mem 2 root x = walk a.mem 2 root x) ∧
      pteInvalidOrLeaf (entry a'.mem root (Sv39Va.vpn2 va)) = false ∧ N.length ≤ 1 := by
  unfold ensurePage2m at hrun
  obtain ⟨u, hcheck, hrun⟩ := Res.bind_eq_ok.mp hrun
  obtain ⟨hoff, hvpn⟩ := checkVa2m_eq_ok.mp hcheck
  refine ⟨hoff, hvpn, ?_⟩
  have hi : Sv39Va.vpn2 va < entryCount := field_lt 30 9 va
  cases hleaf : pteInvalidOrLeaf (entry a.mem root (Sv39Va.vpn2 va)) with
  | false =>
    simp only [hleaf, Bool.false_eq_true, if_false] at hrun
    cases hrun
    exact ⟨[], rfl, Splitting.refl hw, fun _ => rfl, hleaf, Nat.zero_le 1⟩
  | true =>
    simp only [hleaf, if_true] at hrun
    obtain ⟨⟨s, a₁⟩, hexp, hrun⟩ := Res.bind_eq_ok.mp hrun
    obtain ⟨hne, hx, hfill⟩ := expandSuperpage_spec hw.ok (entry_lt _ _ _) hexp
    have hsin : s ∈ [s] := List.mem_singleton_self s
    simp only [hne, if_false,
      setPage1g_pointer (hx.new_usable hsin) (hx.new_page hsin) hoff hvpn, Res.ok_bind] at hrun
    cases hrun
    obtain ⟨hx', hup, hkeeps, hwalk, hptr, hsub⟩ :=
      expand_step (Nat.le_refl 1) hw.tree hw.kept hw.page hi hleaf hx hfill rfl
    refine ⟨[s], ?_, ⟨⟨hx'.mono ?_ fun t h => tables_page hw.page t h, hup⟩, hkeeps⟩, hwalk, hptr,
      Nat.le_refl 1⟩
    · rw [hsub]
    · intro t h
      rw [Set.mem_singleton_iff.mp h]
      exact table_mem_tables

/-- the table of level 1 that the entry `i` of the root points to -/
theorem WellFormed.sub (hw : WellFormed a root) (hi : i < entryCount)
    (hp : pteInvalidOrLeaf (entry a.mem root i) = false) :
    Tree a.mem 1 (subtableFromPte (entry a.mem root i)) ∧
      ∀ u ∈ tables a.mem 1 (subtableFromPte (entry a.mem root i)), a.KeptPage u ∧ u ≠ root := by
  obtain ⟨htree, hroot⟩ := (tree_succ.mp hw.tree).1 i hi
  rw [below_of_pointer hp] at hroot
  refine ⟨(treeBelow_of_pointer hp).mp htree, fun u hu => ⟨hw.kept u ?_, ?_⟩⟩
  · refine mem_tables_succ.mpr (.inr ⟨i, hi, ?_⟩)
    rwa [below_of_pointer hp]
  · intro e
    rw [e] at hu
    exact hroot hu

theorem ensurePage2m_of_pointer (a : Mm) (root : Nat) (hoff : Sv39Va.off va = 0) (hvpn : Sv39Va.vpn0 va = 0)
    (hp : pteInvalidOrLeaf (entry a.mem root (Sv39Va.vpn2 va)) = false) :
    ensurePage2m root va a
      = .ok (some (subtableFromPte (entry a.mem root (Sv39Va.vpn2 va)), Sv39Va.vpn1 va), a) := by
  unfold ensurePage2m
  rw [(checkVa2m_eq_ok (u := ())).mpr ⟨hoff, hvpn⟩, Res.ok_bind]
  simp only [hp, Bool.false_eq_true, if_false]

theorem ensureSubtable_spec {r : Option Nat} (hw : WellFormed a root) (hoff : Sv39Va.off va = 0)
    (hvpn : Sv39Va.vpn0 va = 0)
    (hp : pteInvalidOrLeaf (entry a.mem root (Sv39Va.vpn2 va)) = false)
    (ht : table = subtableFromPte (entry a.mem root (Sv39Va.vpn2 va)))
    (hrun : ensureSubtable root va (entry a.mem table (Sv39Va.vpn1 va)) a = .ok (r, a')) :
    ∃ N, r = some (subtableFromPte (entry a'.mem table (Sv39Va.vpn1 va))) ∧ Splitting a a' root N ∧
      (∀ x, walk a'.mem 2 root x = walk a.mem 2 root x) ∧
      entry a'.mem root (Sv39Va.vpn2 va) = entry a.mem root (Sv39Va.vpn2 va) ∧
      pteInvalidOrLeaf (entry a'.mem table (Sv39Va.vpn1 va)) = false ∧ N.length ≤ 1 := by
  have hi2 : Sv39Va.vpn2 va < entryCount := field_lt 30 9 va
  have hi1 : Sv39Va.vpn1 va < entryCount := field_lt 21 9 va
  unfold ensureSubtable at hrun
  cases hleaf : pteInvalidOrLeaf (entry a.mem table (Sv39Va.vpn1 va)) with
  | false =>
    simp only [hleaf, Bool.false_eq_true, if_false] at hrun
    cases hrun
    exact ⟨[], rfl, Splitting.refl hw, fun _ => rfl, rfl, hleaf, Nat.zero_le 1⟩
  | true =>
    simp only [hleaf, if_true] at hrun
    obtain ⟨⟨s, a₁⟩, hexp, hrun⟩ := Res.bind_eq_ok.mp hrun
    obtain ⟨hne, hx, hfill⟩ := expandSuperpage_spec hw.ok (entry_lt _ _ _) hexp
    have hsin : s ∈ [s] := List.mem_singleton_self s
    have hrootk := hw.kept root table_mem_tables
    have hroot₁ : entry a₁.mem root (Sv39Va.vpn2 va) = entry a.mem root (Sv39Va.vpn2 va) :=
      entry_congr hi2 fun x h1 h2 => hx.same hrootk hw.page (Set.notMem_empty _) ⟨h1, h2⟩
    have hens := ensurePage2m_of_pointer a₁ root hoff hvpn (by rw [hroot₁, hp])
    rw [hroot₁, ← ht] at hens
    have hset : setPage2m root va (PA s) pteValid a₁ = .ok (0, a₁.setEntry table (Sv39Va.vpn1 va)
        (updatePte (PA s) pteValid (entry a₁.mem table (Sv39Va.vpn1 va)))) := by
      unfold setPage2m
      simp only [off_PA (hx.new_usable hsin) (hx.new_page hsin), not_leaf_pteValid, ne_eq,
        not_true_eq_false, Bool.false_eq_true, and_false, or_self, if_false, hens, Res.ok_bind]
    simp only [hne, if_false, hset, Res.ok_bind] at hrun
    cases hrun
    obtain ⟨htree, hsub⟩ := hw.sub hi2 hp
    rw [← ht] at htree hsub
    have hpage : pageSize ∣ table := ht ▸ subtable_page _
    obtain ⟨hx', hup, hkeeps, hwalk, hptr, hst⟩ := expand_step (Nat.zero_le 1) htree
      (fun u hu => (hsub u hu).1) hpage hi1 hleaf hx hfill rfl
    have hnr : table ≠ root := (hsub table table_mem_tables).2
    have hW : ∀ w ∈ ({table} : Set Nat),
        w ∈ tables a.mem 1 (subtableFromPte (entry a.mem root (Sv39Va.vpn2 va))) := by
      intro w h
      rw [Set.mem_singleton_iff.mp h, ← ht]
      exact table_mem_tables
    obtain ⟨_, hsplit, hwalk2⟩ := Edit.lift hw hi2 hp hx' hW (ht ▸ hup)
    refine ⟨[s], by rw [hst], hsplit (ht ▸ hkeeps), fun x => ?_, ?_, hptr, Nat.le_refl 1⟩
    · rw [hwalk2 x]
      split
      · rename_i hv
        rw [← ht, hwalk x, walk_succ a.mem 1 root x, hv, walkBelow_of_pointer hp, ← ht]
      · rfl
    · rw [← hroot₁]
      exact entry_setEntry_of_ne hpage hw.page hi1 hi2 (.inl hnr.symm)

theorem setPage_spec {r : Int} (hw : WellFormed a root) (hf : flags < 2 ^ 8)
    (hrun : setPage root va pa flags a = .ok (r, a')) :
    r = 0 ∧ ∃ N, N.length ≤ 2 ∧ Splitting a a' root N ∧ ∀ x,
      walk a'.mem 2 root x
        = if SamePage 0 x va then setLeaf 0 pa flags x else walk a.mem 2 root x := by
  have hi2 : Sv39Va.vpn2 va < entryCount := field_lt 30 9 va
  have hi1 : Sv39Va.vpn1 va < entryCount := field_lt 21 9 va
  have hi0 : Sv39Va.vpn0 va < entryCount := field_lt 12 9 va
  unfold setPage at hrun
  by_cases hmis : Sv39Va.off va ≠ 0 ∨ Sv39Pa.off pa ≠ 0
  · rw [if_pos hmis] at hrun
    exact absurd hrun Res.panic_ne_ok
  rw [if_neg hmis] at hrun
  obtain ⟨⟨r₁, a₁⟩, hens, hrun⟩ := Res.bind_eq_ok.mp hrun
  obtain ⟨hoff, hvpn, N₁, rfl, he₁, hwalk₁, hp₁, hlen₁⟩ := ensurePage2m_spec hw hens
  have hw₁ := he₁.wellFormed hw
  have hv2 : Sv39Va.vpn2 (Sv39Va.setVpn0 0 va) = Sv39Va.vpn2 va := field_setField_above (by decide)
  have hv1 : Sv39Va.vpn1 (Sv39Va.setVpn0 0 va) = Sv39Va.vpn1 va := field_setField_above (by decide)
  obtain ⟨⟨r₂, a₂⟩, hsub, hrun⟩ := Res.bind_eq_ok.mp hrun
  obtain ⟨N₂, rfl, he₂, hwalk₂, hroot₂, hp₂, hlen₂⟩ := ensureSubtable_spec hw₁ hoff hvpn hp₁ rfl hsub
  have hw₂ := he₂.wellFormed hw₁
  rw [hv2] at hp₁ hroot₂ hp₂
  rw [hv1] at hp₂
  -- the tables of level 1 and 0 on the way to `va`
  obtain ⟨t, ht⟩ : ∃ t, t = subtableFromPte (entry a₂.mem root (Sv39Va.vpn2 va)) := ⟨_, rfl⟩
  obtain ⟨s, hs⟩ : ∃ s, s = subtableFromPte (entry a₂.mem t (Sv39Va.vpn1 va)) := ⟨_, rfl⟩
  have ht₁ : subtableFromPte (entry a₁.mem root (Sv39Va.vpn2 va)) = t := by rw [ht, hroot₂]
  rw [ht₁] at hp₂
  have hp₂' : pteInvalidOrLeaf (entry a₂.mem root (Sv39Va.vpn2 va)) = false := by rw [hroot₂, hp₁]
  simp only [hv2, hv1, ht₁, ← hs] at hrun
  cases hrun
  obtain ⟨pte, hpte⟩ : ∃ pte,
      pte = updatePte pa flags (entry a₂.mem s (Sv39Va.vpn0 va)) := ⟨_, rfl⟩
  rw [← hpte]
  obtain ⟨htree, hkept⟩ := hw₂.sub hi2 hp₂'
  rw [← ht] at htree hkept
  have htpage : pageSize ∣ t := ht ▸ subtable_page _
  have hspage : pageSize ∣ s := hs ▸ subtable_page _
  have hst : s ∈ tables a₂.mem 1 t := by
    refine mem_tables_succ.mpr (.inr ⟨_, hi1, ?_⟩)
    rw [below_of_pointer hp₂, ← hs]
    exact table_mem_tables
  -- the write, seen from the table of level 0, of level 1 and from the root
  have hx := setEntry_extends pte hw₂.ok (hkept s hst).1 hspage hi0
  have hup₀ : Update a₂.mem (a₂.setEntry s (Sv39Va.vpn0 va) pte).mem {u | u ∈ ([] : List Nat)} 0 s :=
    ⟨tree_zero _ _, fun u hu => .inl hu⟩
  have hk₀ : Keeps a₂.mem (a₂.setEntry s (Sv39Va.vpn0 va) pte).mem {u | u ∈ ([] : List Nat)} 0 s :=
    fun u hu => hu.elim id nofun
  obtain ⟨hup₁, hk₁, hwalk₃⟩ := lift_update htree (fun u hu => (hkept u hu).1) htpage hi1 hp₂ hx
    (fun w h => by rw [Set.mem_singleton_iff.mp h, ← hs]; exact table_mem_tables) (hs ▸ hup₀)
  obtain ⟨_, he₃, hwalk₄⟩ := Edit.lift hw₂ hi2 hp₂' hx
    (fun w h => by rw [Set.mem_singleton_iff.mp h, ← ht]; exact hst) (ht ▸ hup₁)
  have hlen : ([] ++ (N₂ ++ N₁)).length ≤ 2 := by
    rw [List.nil_append, List.length_append]
    omega
  refine ⟨rfl, _, hlen, (he₁.trans he₂).trans (he₃ (ht ▸ hk₁ (hs ▸ hk₀))), fun x => ?_⟩
  have hself : entry (a₂.setEntry s (Sv39Va.vpn0 va) pte).mem s (Sv39Va.vpn0 va) = pte := by
    refine entry_setEntry_self ?_
    rw [hpte]
    exact updatePte_lt (entry_lt _ _ _)
  have hpa : 2 ^ (12 + 9 * 0) ∣ pa := by
    have h0 : field 0 12 pa = 0 := by
      by_contra h
      exact hmis (.inr h)
    unfold field at h0
    omega
  have hzero : ∀ v, Sv39Va.vpn0 v = vpnAt 0 v := fun _ => rfl
  have hone : ∀ v, Sv39Va.vpn1 v = vpnAt 1 v := fun _ => rfl
  have htwo : ∀ v, Sv39Va.vpn2 v = vpnAt 2 v := fun _ => rfl
  rw [hwalk₄ x, ← ht, hwalk₃ x, ← hs, ← hwalk₁ x, ← hwalk₂ x]
  by_cases hsame : SamePage 0 x va
  · obtain ⟨e2, e1, e0⟩ := samePage_zero.mp hsame
    rw [if_pos hsame, if_pos (e2.trans (htwo va).symm), if_pos (e1.trans (hone va).symm)]
    show leafAt 0 (entry _ s (vpnAt 0 x)) x = _
    rw [e0, ← hzero va, hself, hpte]
    exact leafAt_updatePte hf (fun _ => hpa) (Nat.zero_le 2)
  · rw [if_neg hsame]
    by_cases e2 : vpnAt 2 x = Sv39Va.vpn2 va
    · rw [if_pos e2]
      have hdown : walk a₂.mem 2 root x = walk a₂.mem 1 t x := by
        rw [walk_succ a₂.mem 1 root x, e2, walkBelow_of_pointer hp₂', ← ht]
      rw [hdown]
      by_cases e1 : vpnAt 1 x = Sv39Va.vpn1 va
      · have e0 : vpnAt 0 x ≠ Sv39Va.vpn0 va := fun e0 => hsame (samePage_zero.mpr ⟨e2, e1, e0⟩)
        rw [if_pos e1, walk_succ a₂.mem 0 t x, e1, walkBelow_of_pointer hp₂, ← hs]
        show leafAt 0 (entry _ s (vpnAt 0 x)) x = leafAt 0 (entry _ s (vpnAt 0 x)) x
        rw [show entry (a₂.setEntry s (Sv39Va.vpn0 va) pte).mem s (vpnAt 0 x)
          = entry a₂.mem s (vpnAt 0 x) from
            entry_setEntry_of_ne hspage hspage hi0 (vpnAt_lt 0 x) (.inr e0)]
      · rw [if_neg e1]
    · rw [if_neg e2]

theorem invalidOrLeaf_updatePte (hf : flags < 2 ^ 8)
    (hl : pteIsLeaf flags = true ∨ flags &&& pteValid = 0) :
    pteInvalidOrLeaf (updatePte pa flags pte) = true := by
  unfold pteInvalidOrLeaf
  rw [flags_updatePte, Nat.mod_eq_of_lt hf]
  cases hl with
  | inl h => rw [h, Bool.or_true]
  | inr h => rw [h]; rfl

theorem leaf_of_valid (hl : pteIsLeaf flags = true ∨ flags &&& pteValid = 0)
    (hv : flags &&& pteValid ≠ 0) : pteIsLeaf flags = true := hl.resolve_right hv

theorem setPage2m_spec {r : Int} (hw : WellFormed a root) (hf : flags < 2 ^ 8)
    (hl : pteIsLeaf flags = true ∨ flags &&& pteValid = 0)
    (hrun : setPage2m root va pa flags a = .ok (r, a')) :
    r = 0 ∧ ∃ N, Edit a a' root N ∧ ∀ x,
      walk a'.mem 2 root x
        = if SamePage 1 x va then setLeaf 1 pa flags x else walk a.mem 2 root x := by
  have hi2 : Sv39Va.vpn2 va < entryCount := field_lt 30 9 va
  have hi1 : Sv39Va.vpn1 va < entryCount := field_lt 21 9 va
  unfold setPage2m at hrun
  by_cases hmis : Sv39Pa.off pa ≠ 0 ∨ Sv39Pa.ppn0 pa ≠ 0 ∧ pteIsLeaf flags = true
  · rw [if_pos hmis] at hrun
    exact absurd hrun Res.panic_ne_ok
  rw [if_neg hmis] at hrun
  have hpa : pteIsLeaf flags = true → 2 ^ (12 + 9 * 1) ∣ pa := by
    intro hleaf
    have h0 : field 0 12 pa = 0 := by
      by_contra h
      exact hmis (.inl h)
    have h1 : field 12 9 pa = 0 := by
      by_contra h
      exact hmis (.inr ⟨h, hleaf⟩)
    unfold field at h0 h1
    omega
  obtain ⟨⟨r₁, a₁⟩, hens, hrun⟩ := Res.bind_eq_ok.mp hrun
  obtain ⟨hoff, hvpn, N₁, rfl, he₁, hwalk₁, hp₁, _⟩ := ensurePage2m_spec hw hens
  have hw₁ := he₁.wellFormed hw
  obtain ⟨t, ht⟩ : ∃ t, t = subtableFromPte (entry a₁.mem root (Sv39Va.vpn2 va)) := ⟨_, rfl⟩
  simp only [← ht] at hrun
  cases hrun
  obtain ⟨pte, hpte⟩ : ∃ pte,
      pte = updatePte pa flags (entry a₁.mem t (Sv39Va.vpn1 va)) := ⟨_, rfl⟩
  rw [← hpte]
  obtain ⟨htree, hkept⟩ := hw₁.sub hi2 hp₁
  rw [← ht] at htree hkept
  have htpage : pageSize ∣ t := ht ▸ subtable_page _
  have hself : entry (a₁.setEntry t (Sv39Va.vpn1 va) pte).mem t (Sv39Va.vpn1 va) = pte := by
    refine entry_setEntry_self ?_
    rw [hpte]
    exact updatePte_lt (entry_lt _ _ _)
  have hx := setEntry_extends pte hw₁.ok (hkept t table_mem_tables).1 htpage hi1
  have hleaf : pteInvalidOrLeaf
      (entry (a₁.setEntry t (Sv39Va.vpn1 va) pte).mem t (Sv39Va.vpn1 va)) = true := by
    rw [hself, hpte]
    exact invalidOrLeaf_updatePte hf hl
  obtain ⟨hup₁, hwalk₂⟩ := leaf_update htree hi1 hleaf
    (by
      rw [hself, hpte, flags_updatePte, ppn_updatePte, Nat.mod_eq_of_lt hf]
      exact fun hv => (ppn_pa (hpa (leaf_of_valid hl hv)) (by decide)).2)
    (same_entries (Extends.refl hw₁.ok) htpage (fun u hu => (hkept u hu).1)
      (fun _ _ => Set.notMem_empty _) hi1)
  obtain ⟨he₂, _, hwalk₃⟩ := Edit.lift hw₁ hi2 hp₁ hx
    (fun w h => by rw [Set.mem_singleton_iff.mp h, ← ht]; exact table_mem_tables) (ht ▸ hup₁)
  refine ⟨rfl, _, he₁.toEdit.trans he₂, fun x => ?_⟩
  have hone : ∀ v, Sv39Va.vpn1 v = vpnAt 1 v := fun _ => rfl
  have htwo : ∀ v, Sv39Va.vpn2 v = vpnAt 2 v := fun _ => rfl
  rw [hwalk₃ x, ← ht, hwalk₂ x, hself, ← hwalk₁ x]
  by_cases hsame : SamePage 1 x va
  · obtain ⟨e2, e1⟩ := samePage_one.mp hsame
    rw [if_pos hsame, if_pos (e2.trans (htwo va).symm), if_pos (e1.trans (hone va).symm), hpte]
    exact leafAt_updatePte hf hpa (by decide)
  · rw [if_neg hsame]
    by_cases e2 : vpnAt 2 x = Sv39Va.vpn2 va
    · have e1 : vpnAt 1 x ≠ Sv39Va.vpn1 va := fun e1 => hsame (samePage_one.mpr ⟨e2, e1⟩)
      rw [if_pos e2, if_neg e1, walk_succ a₁.mem 1 root x, e2, walkBelow_of_pointer hp₁, ← ht]
    · rw [if_neg e2]

theorem setPage1g_spec {r : Int} (hw : WellFormed a root) (hf : flags < 2 ^ 8)
    (hl : pteIsLeaf flags = true ∨ flags &&& pteValid = 0)
    (hrun : setPage1g root va pa flags a = .ok (r, a')) :
    r = 0 ∧ Edit a a' root [] ∧ ∀ x,
      walk a'.mem 2 root x
        = if SamePage 2 x va then setLeaf 2 pa flags x else walk a.mem 2 root x := by
  have hi2 : Sv39Va.vpn2 va < entryCount := field_lt 30 9 va
  unfold setPage1g at hrun
  obtain ⟨_, _, hrun⟩ := Res.bind_eq_ok.mp hrun
  by_cases hmis : Sv39Pa.off pa ≠ 0 ∨ (Sv39Pa.ppn0 pa ≠ 0 ∨ Sv39Pa.ppn1 pa ≠ 0)
      ∧ pteIsLeaf flags = true
  · rw [if_pos hmis] at hrun
    exact absurd hrun Res.panic_ne_ok
  rw [if_neg hmis] at hrun
  cases hrun
  have hpa : pteIsLeaf flags = true → 2 ^ (12 + 9 * 2) ∣ pa := by
    intro hleaf
    have h0 : field 0 12 pa = 0 := by
      by_contra h
      exact hmis (.inl h)
    have h1 : field 12 9 pa = 0 := by
      by_contra h
      exact hmis (.inr ⟨.inl h, hleaf⟩)
    have h2 : field 21 9 pa = 0 := by
      by_contra h
      exact hmis (.inr ⟨.inr h, hleaf⟩)
    unfold field at h0 h1 h2
    omega
  obtain ⟨pte, hpte⟩ : ∃ pte,
      pte = updatePte pa flags (entry a.mem root (Sv39Va.vpn2 va)) := ⟨_, rfl⟩
  rw [← hpte]
  have hself : entry (a.setEntry root (Sv39Va.vpn2 va) pte).mem root (Sv39Va.vpn2 va) = pte := by
    refine entry_setEntry_self ?_
    rw [hpte]
    exact updatePte_lt (entry_lt _ _ _)
  have hleaf : pteInvalidOrLeaf
      (entry (a.setEntry root (Sv39Va.vpn2 va) pte).mem root (Sv39Va.vpn2 va)) = true := by
    rw [hself, hpte]
    exact invalidOrLeaf_updatePte hf hl
  obtain ⟨hup, hwalk⟩ := leaf_update hw.tree hi2 hleaf
    (by
      rw [hself, hpte, flags_updatePte, ppn_updatePte, Nat.mod_eq_of_lt hf]
      exact fun hv => (ppn_pa (hpa (leaf_of_valid hl hv)) (by decide)).2)
    (same_entries (Extends.refl hw.ok) hw.page hw.kept (fun _ _ => Set.notMem_empty _) hi2)
  have hx := setEntry_extends pte hw.ok (hw.kept root table_mem_tables) hw.page hi2
  refine ⟨rfl, ⟨hx.mono ?_ fun t h => tables_page hw.page t h, hup⟩, fun x => ?_⟩
  · intro t h
    rw [Set.mem_singleton_iff.mp h]
    exact table_mem_tables
  · have htwo : Sv39Va.vpn2 va = vpnAt 2 va := rfl
    rw [hwalk x, hself, htwo, hpte, leafAt_updatePte hf hpa (Nat.le_refl 2)]
    by_cases hsame : SamePage 2 x va
    · rw [if_pos hsame, if_pos (samePage_two.mp hsame)]
    · rw [if_neg hsame, if_neg fun h => hsame (samePage_two.mpr h)]

end FakeKernel
