import FakeKernel.Mm.Deep

/-!
# Writing one entry of a tree

* `Path`         the walk for an address leads to a table of a lower level;
* `SlotWrite`    what a write of a leaf, or of an invalid entry, does to the tree, for every level;
* `Path.write`   an entry on the path is written;
* `Path.deep`    what this does to the walks that end too deep.
-/

namespace FakeKernel
open Bytes Mm

variable {a a' : Mm} {m : Mem} {root table top level s va pte : Nat}

/-- the walk for `va` goes from `table`, of level `top`, to the table `s` of `level` -/
inductive Path (m : Mem) (va level s : Nat) : Nat → Nat → Prop
  | here : Path m va level s level s
  | down {top table : Nat} (hp : pteInvalidOrLeaf (entry m table (vpnAt (top + 1) va)) = false)
      (h : Path m va level s top (subtableFromPte (entry m table (vpnAt (top + 1) va)))) :
      Path m va level s (top + 1) table

theorem Path.mem_tables (h : Path m va level s top table) : s ∈ tables m top table := by
  induction h with
  | here => exact table_mem_tables
  | down hp h ih =>
    rename_i top table
    refine mem_tables_succ.mpr (.inr ⟨_, vpnAt_lt (top + 1) va, ?_⟩)
    rw [below_of_pointer hp]
    exact ih

theorem Path.le (h : Path m va level s top table) : level ≤ top := by
  induction h with
  | here => exact Nat.le_refl level
  | down _ _ ih => exact Nat.le_succ_of_le ih

theorem Path.same (h : Path m va level s level table) : s = table := by
  cases h with
  | here => rfl
  | down _ h => exact absurd h.le (Nat.not_succ_le_self _)

/-- the walks for `x` and `va` select the same entries from `top` down to `level` -/
def SameWay (level top x va : Nat) : Prop := ∀ k, level ≤ k → k ≤ top → vpnAt k x = vpnAt k va

theorem sameWay_self {x : Nat} : SameWay level level x va ↔ vpnAt level x = vpnAt level va :=
  ⟨fun h => h level (Nat.le_refl _) (Nat.le_refl _), fun h _ h1 h2 => Nat.le_antisymm h2 h1 ▸ h⟩

theorem sameWay_succ {x : Nat} (hle : level ≤ top) : SameWay level (top + 1) x va ↔
    vpnAt (top + 1) x = vpnAt (top + 1) va ∧ SameWay level top x va := by
  refine ⟨fun h => ⟨h _ (Nat.le_succ_of_le hle) (Nat.le_refl _), fun k h1 h2 => h k h1 (Nat.le_succ_of_le h2)⟩,
    fun ⟨h, h'⟩ k h1 h2 => ?_⟩
  cases Nat.lt_or_eq_of_le h2 with
  | inl hlt => exact h' k h1 (Nat.le_of_lt_succ hlt)
  | inr he => exact he ▸ h

/-- the entry for `va` in the table `s` of `level` becomes `pte`, seen from `table`, of level `top` -/
structure SlotWrite (a a' : Mm) (va level s pte top table : Nat) : Prop where
  update : Update a.mem a'.mem {u | u ∈ ([] : List Nat)} top table
  keeps : level = 0 ∨ pteInvalidOrLeaf (entry a.mem s (vpnAt level va)) = true →
    Keeps a.mem a'.mem {u | u ∈ ([] : List Nat)} top table
  walk : ∀ x, (SameWay level top x va → walk a'.mem top table x = leafAt level pte x) ∧
    (¬ SameWay level top x va → walk a'.mem top table x = walk a.mem top table x)

/-- the table itself is written -/
theorem SlotWrite.here (ht : Tree a.mem level s) (hok : a.Ok) (hkept : ∀ u ∈ tables a.mem level s, a.KeptPage u)
    (hpage : pageSize ∣ s) (hpte : pte < 2 ^ 64) (hleaf : pteInvalidOrLeaf pte = true)
    (hal : Sv39Pte.flags pte &&& pteValid ≠ 0 → 2 ^ (9 * level) ∣ Sv39Pte.ppn pte) :
    SlotWrite a (a.setEntry s (vpnAt level va) pte) va level s pte level s := by
  have hi := vpnAt_lt level va
  have hself : entry (a.setEntry s (vpnAt level va) pte).mem s (vpnAt level va) = pte := entry_setEntry_self hpte
  have hsame : ∀ u ∈ tables a.mem level s, ∀ j < entryCount, u ≠ s ∨ j ≠ vpnAt level va →
      entry (a.setEntry s (vpnAt level va) pte).mem u j = entry a.mem u j :=
    same_entries (Extends.refl hok) hpage hkept (fun _ _ => Set.notMem_empty _) hi
  cases level with
  | zero =>
    refine ⟨⟨tree_zero _ _, fun u hu => .inl hu⟩, fun _ u hu => hu.elim id nofun, fun x => ?_⟩
    rw [sameWay_self]
    refine ⟨fun he => ?_, fun hne => ?_⟩
    · show leafAt 0 (entry _ s (vpnAt 0 x)) x = _
      rw [he, hself]
    · show leafAt 0 (entry _ s (vpnAt 0 x)) x = leafAt 0 (entry a.mem s (vpnAt 0 x)) x
      rw [hsame s table_mem_tables _ (vpnAt_lt 0 x) (.inr hne)]
  | succ level =>
    obtain ⟨hup, hwalk⟩ := leaf_update ht hi (by rw [hself]; exact hleaf) (by rw [hself]; exact hal) hsame
    have hother : ∀ j < entryCount, j ≠ vpnAt (level + 1) va →
        entry (a.setEntry s (vpnAt (level + 1) va) pte).mem s j = entry a.mem s j :=
      fun j hj hne => hsame s table_mem_tables j hj (.inr hne)
    -- the tables below the other entries are not written
    have hbelow : ∀ j < entryCount, ∀ u ∈ below a.mem level (entry a.mem s j),
        SameTable a.mem (a.setEntry s (vpnAt (level + 1) va) pte).mem u := by
      intro j hj u hu k hk
      refine hsame u (mem_tables_succ.mpr (.inr ⟨j, hj, hu⟩)) k hk (.inl fun e => ?_)
      rw [e] at hu
      exact ((tree_succ.mp ht).1 j hj).2 hu
    refine ⟨hup, fun hold u hu => ?_, fun x => ?_⟩
    · have hold := hold.resolve_left (Nat.succ_ne_zero level)
      cases mem_tables_succ.mp (hu.resolve_right List.not_mem_nil) with
      | inl he =>
        rw [he]
        exact table_mem_tables
      | inr hin =>
        obtain ⟨j, hj, hmem⟩ := hin
        have hne : j ≠ vpnAt (level + 1) va := by
          intro e
          rw [e, below_of_leaf hold] at hmem
          exact nomatch hmem
        refine mem_tables_succ.mpr (.inr ⟨j, hj, ?_⟩)
        rw [hother j hj hne, below_congr (hbelow j hj)]
        exact hmem
    · rw [sameWay_self, hwalk x, hself]
      exact ⟨fun he => if_pos he, fun hne => if_neg hne⟩

/-- a table on the path is written -/
theorem Path.write (h : Path a.mem va level s top table) (ht : Tree a.mem top table) (hok : a.Ok)
    (hkept : ∀ u ∈ tables a.mem top table, a.KeptPage u) (hpage : pageSize ∣ table) (hpte : pte < 2 ^ 64)
    (hleaf : pteInvalidOrLeaf pte = true)
    (hal : Sv39Pte.flags pte &&& pteValid ≠ 0 → 2 ^ (9 * level) ∣ Sv39Pte.ppn pte) :
    SlotWrite a (a.setEntry s (vpnAt level va) pte) va level s pte top table := by
  induction h with
  | here => exact .here ht hok hkept hpage hpte hleaf hal
  | down hp h ih =>
    rename_i top table
    have hi := vpnAt_lt (top + 1) va
    have hbelow : FakeKernel.below a.mem top (entry a.mem table (vpnAt (top + 1) va))
        = tables a.mem top (subtableFromPte (entry a.mem table (vpnAt (top + 1) va))) := below_of_pointer hp
    have htree := (treeBelow_of_pointer hp).mp ((tree_succ.mp ht).1 _ hi).1
    have hin : ∀ u ∈ tables a.mem top (subtableFromPte (entry a.mem table (vpnAt (top + 1) va))),
        u ∈ tables a.mem (top + 1) table := by
      intro u hu
      rw [← hbelow] at hu
      exact mem_tables_succ.mpr (.inr ⟨_, hi, hu⟩)
    have hsub := ih htree (fun u hu => hkept u (hin u hu)) (subtable_page _)
    have hspage := tables_page (subtable_page _) s h.mem_tables
    have hx := setEntry_extends pte hok (hkept s (hin s h.mem_tables)) hspage (vpnAt_lt level va)
    have hW : ∀ w ∈ ({s} : Set Nat), w ∈ tables a.mem top (subtableFromPte (entry a.mem table (vpnAt (top + 1) va))) := by
      intro w hw
      rw [Set.mem_singleton_iff.mp hw]
      exact h.mem_tables
    obtain ⟨hup, hkeeps, hwalk⟩ := lift_update ht hkept hpage hi hp hx hW hsub.update
    refine ⟨hup, fun hold => hkeeps (hsub.keeps hold), fun x => ?_⟩
    rw [sameWay_succ h.le, hwalk x]
    refine ⟨fun ⟨he, hway⟩ => ?_, fun hway => ?_⟩
    · rw [if_pos he]
      exact (hsub.walk x).1 hway
    · by_cases he : vpnAt (top + 1) x = vpnAt (top + 1) va
      · rw [if_pos he, (hsub.walk x).2 fun hw => hway ⟨he, hw⟩, walk_succ a.mem top table x, he,
          walkBelow_of_pointer hp]
      · rw [if_neg he]

/-- what is written at the end of the path does not change the path -/
theorem Path.setEntry (h : Path a.mem va level s top table) (ht : Tree a.mem top table) (hpage : pageSize ∣ table)
    (pte : Nat) : Path (a.setEntry s (vpnAt level va) pte).mem va level s top table := by
  induction h with
  | here => exact .here
  | down hp h ih =>
    rename_i top table
    have hi := vpnAt_lt (top + 1) va
    have hbelow : FakeKernel.below a.mem top (entry a.mem table (vpnAt (top + 1) va))
        = tables a.mem top (subtableFromPte (entry a.mem table (vpnAt (top + 1) va))) := below_of_pointer hp
    obtain ⟨htree, hnot⟩ := (tree_succ.mp ht).1 _ hi
    have hsub := ih ((treeBelow_of_pointer hp).mp htree) (subtable_page _)
    have hne : table ≠ s := by
      intro e
      rw [hbelow, e] at hnot
      exact hnot (e ▸ h.mem_tables)
    have hsame : entry (a.setEntry s (vpnAt level va) pte).mem table (vpnAt (top + 1) va)
        = entry a.mem table (vpnAt (top + 1) va) :=
      entry_setEntry_of_ne (tables_page (subtable_page _) s h.mem_tables) hpage (vpnAt_lt level va) hi (.inl hne)
    refine .down ?_ ?_
    · rw [hsame]
      exact hp
    · rw [hsame]
      exact hsub

/-- the write and the walks that end too deep -/
theorem Path.deep (h : Path a.mem va level s top table) (ht : Tree a.mem top table)
    (hkept : ∀ u ∈ tables a.mem top table, a.KeptPage u) (hpage : pageSize ∣ table) (hpte : pte < 2 ^ 64)
    (hl : level = 0 ∨ pteInvalidOrLeaf pte = true) (x : Nat) :
    (SameWay level top x va → (Deep (a.setEntry s (vpnAt level va) pte).mem top table x ↔
      pteInvalidOrLeaf pte = false)) ∧
    (¬ SameWay level top x va → (Deep (a.setEntry s (vpnAt level va) pte).mem top table x ↔ Deep a.mem top table x)) := by
  have hspage := tables_page hpage s h.mem_tables
  have hother : ∀ u j, pageSize ∣ u → j < entryCount → u ≠ s ∨ j ≠ vpnAt level va →
      entry (a.setEntry s (vpnAt level va) pte).mem u j = entry a.mem u j := fun u j hu hj hne =>
    entry_setEntry_of_ne hspage hu (vpnAt_lt level va) hj hne
  induction h with
  | here =>
    have hself : entry (a.setEntry s (vpnAt level va) pte).mem s (vpnAt level va) = pte := entry_setEntry_self hpte
    rw [sameWay_self]
    refine ⟨fun he => ?_, fun hne => ?_⟩
    · cases hleaf : pteInvalidOrLeaf pte with
      | true =>
        refine iff_of_false (not_deep_of_leaf ?_) nofun
        rw [he, hself]
        exact hleaf
      | false =>
        have h0 : level = 0 := hl.resolve_right fun h => by
          rw [h] at hleaf
          exact nomatch hleaf
        subst h0
        refine iff_of_true ?_ rfl
        show pteInvalidOrLeaf (entry _ s (vpnAt 0 x)) = false
        rw [he, hself]
        exact hleaf
    · cases level with
      | zero =>
        show pteInvalidOrLeaf (entry _ s (vpnAt 0 x)) = false ↔ pteInvalidOrLeaf (entry _ s (vpnAt 0 x)) = false
        rw [hother s _ hspage (vpnAt_lt 0 x) (.inr hne)]
      | succ level =>
        rw [deep_succ, deep_succ, hother s _ hspage (vpnAt_lt _ x) (.inr hne)]
        refine and_congr_right fun hp => deep_congr fun u hu k hk => ?_
        refine hother u k (tables_page (subtable_page _) u hu) hk (.inl fun e => ?_)
        rw [e, ← below_of_pointer hp] at hu
        exact ((tree_succ.mp ht).1 _ (vpnAt_lt _ x)).2 hu
  | down hp h ih =>
    rename_i top table
    have hi := vpnAt_lt (top + 1) va
    have htree := (treeBelow_of_pointer hp).mp ((tree_succ.mp ht).1 _ hi).1
    obtain ⟨hsame, hdiff⟩ := ih htree (fun u hu => hkept u (mem_tables_succ.mpr (.inr ⟨_, hi, by
      rw [below_of_pointer hp]
      exact hu⟩))) (subtable_page _)
    have hlift : Deep (a.setEntry s (vpnAt level va) pte).mem (top + 1) table x ↔ _ := deep_lift ht hi hp
      fun u hu hout k hk => hother u k (tables_page hpage u hu) hk (.inl fun e => hout (e ▸ h.mem_tables))
    rw [sameWay_succ h.le]
    refine ⟨fun ⟨he, hway⟩ => ?_, fun hway => ?_⟩
    · rw [hlift, if_pos he]
      exact hsame hway
    · rw [hlift]
      by_cases he : vpnAt (top + 1) x = vpnAt (top + 1) va
      · rw [if_pos he, hdiff fun hw => hway ⟨he, hw⟩, deep_succ, he]
        exact (and_iff_right hp).symm
      · rw [if_neg he]

/-! ## at the root -/

theorem sameWay_samePage {x : Nat} (hl : level ≤ 2) : SameWay level 2 x va ↔ SamePage level x va := by
  match level, hl with
  | 0, _ =>
    rw [samePage_zero, sameWay_succ (by decide), sameWay_succ (by decide), sameWay_self]
  | 1, _ =>
    rw [samePage_one, sameWay_succ (by decide), sameWay_self]
  | 2, _ =>
    rw [samePage_two, sameWay_self]

theorem Path.level1_iff : Path m va 1 s 2 root ↔ pteInvalidOrLeaf (entry m root (Sv39Va.vpn2 va)) = false ∧
    s = subtableFromPte (entry m root (Sv39Va.vpn2 va)) := by
  have htwo : Sv39Va.vpn2 va = vpnAt (1 + 1) va := rfl
  rw [htwo]
  constructor
  · intro h
    cases h with
    | down hp h =>
      cases h with
      | here => exact ⟨hp, rfl⟩
      | down _ h => exact absurd h.le (by decide)
  · intro ⟨hp, hs⟩
    rw [hs]
    exact .down hp .here

theorem Path.level0_iff : Path m va 0 s 2 root ↔ ∃ t, Path m va 1 t 2 root ∧
    pteInvalidOrLeaf (entry m t (Sv39Va.vpn1 va)) = false ∧ s = subtableFromPte (entry m t (Sv39Va.vpn1 va)) := by
  have hone : Sv39Va.vpn1 va = vpnAt (0 + 1) va := rfl
  have htwo : Sv39Va.vpn2 va = vpnAt (1 + 1) va := rfl
  constructor
  · intro h
    cases h with
    | down hp h =>
      cases h with
      | down hp' h =>
        cases h with
        | here => exact ⟨_, .down hp .here, hp', rfl⟩
  · intro ⟨t, ht, hp', hs⟩
    obtain ⟨hp, he⟩ := Path.level1_iff.mp ht
    rw [htwo] at hp he
    rw [hone, he] at hp' hs
    rw [hs]
    exact .down hp (.down hp' .here)

/-- an entry of a tree is written -/
theorem WellFormed.write (hw : WellFormed a root) (h : Path a.mem va level s 2 root) (hpte : pte < 2 ^ 64)
    (hleaf : pteInvalidOrLeaf pte = true)
    (hal : Sv39Pte.flags pte &&& pteValid ≠ 0 → 2 ^ (9 * level) ∣ Sv39Pte.ppn pte) :
    Edit a (a.setEntry s (vpnAt level va) pte) root [] ∧
      SlotWrite a (a.setEntry s (vpnAt level va) pte) va level s pte 2 root := by
  have hs := h.write hw.tree hw.ok hw.kept hw.page hpte hleaf hal
  have hx := setEntry_extends pte hw.ok (hw.kept s h.mem_tables) (tables_page hw.page s h.mem_tables)
    (vpnAt_lt level va)
  refine ⟨⟨hx.mono ?_ fun u hu => tables_page hw.page u hu, hs.update⟩, hs⟩
  intro u hu
  rw [Set.mem_singleton_iff.mp hu]
  exact h.mem_tables

/-- the write and the walks that end too deep -/
theorem WellFormed.write_deep (hw : WellFormed a root) (h : Path a.mem va level s 2 root) (hpte : pte < 2 ^ 64)
    (hl : level = 0 ∨ pteInvalidOrLeaf pte = true) (x : Nat) :
    Deep (a.setEntry s (vpnAt level va) pte).mem 2 root x ↔
      if SamePage level x va then pteInvalidOrLeaf pte = false else Deep a.mem 2 root x := by
  obtain ⟨hsame, hdiff⟩ := h.deep hw.tree hw.kept hw.page hpte hl x
  rw [sameWay_samePage h.le] at hsame hdiff
  by_cases hx : SamePage level x va
  · rw [if_pos hx, hsame hx]
  · rw [if_neg hx, hdiff hx]

end FakeKernel
