import FakeKernel.Mm.Refine
import Mathlib.Data.List.Perm.Basic

/-!
# Giving pages back

* `Shrinks a a' W D`      the pages in `D` were given back, and of what is kept only pages in `W` were
                          written;
* `doDestroyPageTable_spec`   do_destroy_page_table gives back the tables of a tree, each of them once;
* `Flat`                  no entry at the bottom is a pointer: then it returns.
-/

namespace FakeKernel
open Bytes Mm

variable {a a' a'' a₀ : Mm} {W W' : Set Nat} {D D' : List Nat} {p q : Page} {s root table level n i : Nat} {x : Nat}

theorem mem_map_pageAt : pageAt s ∈ D.map pageAt ↔ s ∈ D := by
  rw [List.mem_map]
  constructor
  · intro ⟨u, hu, he⟩
    cases he
    exact hu
  · exact fun hs => ⟨s, hs, rfl⟩

/-- the pages that are still there when those in `D` were given back -/
theorem Mm.Ok.mem_page (hok : a.Ok) (hout : a.out.Perm (D.map pageAt ++ a'.out)) :
    pageAt s ∈ a'.out ↔ pageAt s ∈ a.out ∧ s ∉ D := by
  have hnd := hok.nodup
  rw [hout.nodup_iff, List.nodup_append] at hnd
  rw [hout.mem_iff, List.mem_append, mem_map_pageAt]
  constructor
  · exact fun hp => ⟨.inr hp, fun hD => hnd.2.2 _ (mem_map_pageAt.mpr hD) _ hp rfl⟩
  · exact fun ⟨hp, hD⟩ => hp.resolve_left hD

theorem Mm.Kept.of_perm {l : List Page} (hx : a'.Kept x) (hout : a.out.Perm (l ++ a'.out)) : a.Kept x := by
  cases hx with
  | inl hx => exact .inl hx
  | inr hx =>
    obtain ⟨q, hq, hxq⟩ := hx
    refine .inr ⟨q, ?_, hxq⟩
    rw [hout.mem_iff]
    exact List.mem_append_right _ hq

structure Mm.Shrinks (a a' : Mm) (W : Set Nat) (D : List Nat) : Prop where
  ok : a'.Ok
  out : a.out.Perm (D.map pageAt ++ a'.out)
  pages : ∀ s ∈ W, pageSize ∣ s
  frame : ∀ x, a'.Kept x → (∀ s ∈ W, ¬ onPage s x) → a'.mem x = a.mem x

namespace Mm.Shrinks

theorem refl (h : a.Ok) : Shrinks a a ∅ [] := ⟨h, .refl _, nofun, fun _ _ _ => rfl⟩

theorem mem_page (hs : Shrinks a a' W D) (hok : a.Ok) :
    pageAt s ∈ a'.out ↔ pageAt s ∈ a.out ∧ s ∉ D := hok.mem_page hs.out

theorem dropped (hs : Shrinks a a' W D) (hD : s ∈ D) : pageAt s ∈ a.out := by
  rw [hs.out.mem_iff]
  exact List.mem_append_left _ (List.mem_map_of_mem hD)

theorem trans (hs : Shrinks a a' W D) (hs' : Shrinks a' a'' W' D') (hW : W' ⊆ W) :
    Shrinks a a'' W (D' ++ D) where
  ok := hs'.ok
  out := by
    rw [List.map_append]
    refine hs.out.trans ?_
    refine (List.Perm.append_left _ hs'.out).trans ?_
    rw [← List.append_assoc]
    exact List.Perm.append_right _ List.perm_append_comm
  pages := hs.pages
  frame := fun x hx hout =>
    (hs'.frame x hx fun s hs => hout s (hW hs)).trans (hs.frame x (hx.of_perm hs'.out) hout)

/-- a page that was not given back has the same bytes -/
theorem same (hs : Shrinks a a' W D) (hok : a.Ok) (hp : pageAt s ∈ a.out) (hD : s ∉ D) (hW : s ∉ W)
    (hx : onPage s x) : a'.mem x = a.mem x := by
  refine hs.frame x (Mm.KeptPage.of_mem ((hs.mem_page hok).mpr ⟨hp, hD⟩) x hx) fun t ht htx => hW ?_
  have he : s = t := onPage_inj (hok.page hp) (hs.pages t ht) hx htx
  rwa [he]

theorem sameTable (hs : Shrinks a a' W D) (hok : a.Ok) (hp : pageAt s ∈ a.out) (hD : s ∉ D)
    (hW : s ∉ W) : SameTable a.mem a'.mem s :=
  fun _ hi => entry_congr hi fun _ h1 h2 => hs.same hok hp hD hW ⟨h1, h2⟩

/-- one more page is given back -/
theorem free (hs : Shrinks a a' W D) (hok : a.Ok) (hp : pageAt s ∈ a.out) (hD : s ∉ D) :
    ∃ a'', a'.freePages (pageAt s) = .ok a'' ∧ Shrinks a a'' W (s :: D) := by
  obtain ⟨a'', hrun, hf⟩ := hs.ok.free ((hs.mem_page hok).mpr ⟨hp, hD⟩)
  refine ⟨a'', hrun, ?_⟩
  have hone : Shrinks a' a'' ∅ [s] :=
    ⟨hf.ok, hf.out ▸ List.perm_cons_erase ((hs.mem_page hok).mpr ⟨hp, hD⟩), nofun,
      fun x hx _ => hf.frame x hx⟩
  exact hs.trans hone nofun

/-- an object of one page is given back -/
theorem kfree {buf : Nat} (hs : Shrinks a a' W D) (hok : a.Ok) (hp : pageAt (buf - 4) ∈ a.out) (hD : buf - 4 ∉ D)
    (hW : buf - 4 ∉ W) (hhead : load 4 a.mem (buf - 4) = 0) :
    ∃ a'', a'.kfree buf = .ok a'' ∧ Shrinks a a'' W ((buf - 4) :: D) := by
  obtain ⟨a'', hrun, hs'⟩ := hs.free hok hp hD
  have hhead' : load 4 a'.mem (buf - 4) = 0 := by
    rw [← hhead]
    refine load_congr fun y hy hy' => hs.same hok hp hD hW ⟨hy, ?_⟩
    unfold pageSize
    omega
  refine ⟨a'', ?_, hs'⟩
  show a'.freePages { address := buf - 4, order := load 4 a'.mem (buf - 4) } = .ok a''
  rw [hhead']
  exact hrun

theorem mono (hs : Shrinks a a' W D) (hW : W ⊆ W') (hp : ∀ s ∈ W', pageSize ∣ s) :
    Shrinks a a' W' D :=
  ⟨hs.ok, hs.out, hp, fun x hx hout => hs.frame x hx fun s hsW => hout s (hW hsW)⟩

/-- nothing was given back -/
theorem of_extends (hx : Extends a a' W []) : Shrinks a a' W [] :=
  ⟨hx.ok, hx.out ▸ .refl _, hx.pages, fun x hk hout => hx.frame x (hk.imp_right (by
    rw [hx.out]
    exact id)) hout⟩

end Mm.Shrinks

/-! ## destroying a tree -/

/-- no entry of a table of level 0 is a pointer -/
def Flat (m : Mem) : Nat → Nat → Prop
  | 0, table => ∀ i < entryCount, pteInvalidOrLeaf (entry m table i) = true
  | level + 1, table => ∀ i < entryCount, pteInvalidOrLeaf (entry m table i) = false →
    Flat m level (subtableFromPte (entry m table i))

theorem Flat.congr {m m' : Mem} (hf : Flat m level table)
    (h : ∀ s ∈ tables m level table, SameTable m m' s) : Flat m' level table := by
  induction level generalizing table with
  | zero =>
    intro i hi
    rw [h table table_mem_tables i hi]
    exact hf i hi
  | succ level ih =>
    intro i hi hp
    rw [h table table_mem_tables i hi] at hp ⊢
    refine ih (hf i hi hp) fun s hs => h s (mem_tables_succ.mpr (.inr ⟨i, hi, ?_⟩))
    rw [below_of_pointer hp]
    exact hs

/-- the entries up to `i` of the table at `table` have been dealt with -/
def belowUpTo (m : Mem) (level table i : Nat) : List Nat :=
  (List.range i).flatMap fun j => below m level (entry m table j)

theorem belowUpTo_succ (m : Mem) (level table i : Nat) :
    belowUpTo m level table (i + 1) = belowUpTo m level table i ++ below m level (entry m table i) := by
  unfold belowUpTo
  rw [List.range_succ, List.flatMap_append, List.flatMap_singleton]

theorem mem_belowUpTo {m : Mem} : s ∈ belowUpTo m level table i ↔
    ∃ j < i, s ∈ below m level (entry m table j) := by
  unfold belowUpTo
  rw [List.mem_flatMap]
  simp only [List.mem_range]

/-- the part of a tree that has not been freed when the entries of `table` before `i` have been dealt with -/
theorem rest_sameTable (hok : a₀.Ok) (ht : Tree a₀.mem (level + 1) table)
    (hout : ∀ s ∈ tables a₀.mem (level + 1) table, pageAt s ∈ a₀.out) {W : Set Nat} (hs : Shrinks a₀ a W D)
    (hW : W ⊆ {table}) (hD : ∀ s, s ∈ D ↔ s ∈ belowUpTo a₀.mem level table i) (hi : i < entryCount) :
    table ∉ D ∧ ∀ s ∈ below a₀.mem level (entry a₀.mem table i), pageAt s ∈ a₀.out ∧ s ∉ D ∧ SameTable a₀.mem a.mem s := by
  obtain ⟨heach, hdis⟩ := tree_succ.mp ht
  refine ⟨fun hin => ?_, fun s hsub => ?_⟩
  · obtain ⟨j, hj, hmem⟩ := mem_belowUpTo.mp ((hD table).mp hin)
    exact (heach j (Nat.lt_trans hj hi)).2 hmem
  · have hpage := hout s (mem_tables_succ.mpr (.inr ⟨i, hi, hsub⟩))
    have hnot : s ∉ D := fun hmem => by
      obtain ⟨j, hj, hj'⟩ := mem_belowUpTo.mp ((hD s).mp hmem)
      exact hdis j (Nat.lt_trans hj hi) i hi (Nat.ne_of_lt hj) hj' hsub
    refine ⟨hpage, hnot, hs.sameTable hok hpage hnot fun hw => ?_⟩
    rw [Set.mem_singleton_iff.mp (hW hw)] at hsub
    exact (heach i hi).2 hsub

/-- the table below the entry `i` is freed as it was at the start -/
theorem rest_destroy (hok : a₀.Ok) (ht : Tree a₀.mem (level + 1) table)
    (hout : ∀ s ∈ tables a₀.mem (level + 1) table, pageAt s ∈ a₀.out) {W : Set Nat} (hs : Shrinks a₀ a W D)
    (hW : W ⊆ {table}) (hD : ∀ s, s ∈ D ↔ s ∈ belowUpTo a₀.mem level table i) (hi : i < entryCount)
    (hp : pteInvalidOrLeaf (entry a₀.mem table i) = false) {sub : Nat} (hsub : sub = subtableFromPte (entry a₀.mem table i)) :
    Tree a.mem level sub ∧ (∀ s ∈ tables a.mem level sub, pageAt s ∈ a.out) ∧
      (Flat a₀.mem (level + 1) table → Flat a.mem level sub) ∧
      ∀ s ∈ tables a₀.mem level sub, SameTable a₀.mem a.mem s := by
  obtain ⟨heach, _⟩ := tree_succ.mp ht
  obtain ⟨_, hrest⟩ := rest_sameTable hok ht hout hs hW hD hi
  have hbelow : below a₀.mem level (entry a₀.mem table i) = tables a₀.mem level sub := by
    rw [hsub]
    exact below_of_pointer hp
  rw [hbelow] at hrest
  have hsame : ∀ s ∈ tables a₀.mem level sub, SameTable a₀.mem a.mem s := fun s h => (hrest s h).2.2
  refine ⟨?_, fun s h => ?_, fun hf => ?_, hsame⟩
  · refine Tree.congr ?_ hsame
    rw [hsub]
    exact (treeBelow_of_pointer hp).mp (heach i hi).1
  · rw [tables_congr hsame] at h
    exact (hs.mem_page hok).mpr ⟨(hrest s h).1, (hrest s h).2.1⟩
  · refine Flat.congr ?_ hsame
    rw [hsub]
    exact hf i hi hp

/-- what a call gives back, and when it returns -/
structure GivesBack (a : Mm) (run : Res Mm) (total : Prop) (S : Nat → Prop) : Prop where
  returns : total → ∃ a', run = .ok a'
  shrinks : ∀ a', run = .ok a' → ∃ D, Shrinks a a' ∅ D ∧ ∀ s, s ∈ D ↔ S s

/-- the loop over the entries of `table` from entry `i` on, when those before it have been dealt with -/
theorem destroyEntries_spec {a₀ : Mm} (hok : a₀.Ok) (ht : Tree a₀.mem (level + 1) table)
    (hout : ∀ s ∈ tables a₀.mem (level + 1) table, pageAt s ∈ a₀.out)
    (ih : ∀ {a : Mm} {sub : Nat}, a.Ok → Tree a.mem level sub →
      (∀ s ∈ tables a.mem level sub, pageAt s ∈ a.out) →
      GivesBack a (doDestroyPageTable level sub a) (Flat a.mem level sub) (· ∈ tables a.mem level sub))
    (hn : i + n = entryCount) (hs : Shrinks a₀ a ∅ D) (hD : ∀ s, s ∈ D ↔ s ∈ belowUpTo a₀.mem level table i) :
    (Flat a₀.mem (level + 1) table → ∃ a', forEntries (fun i a =>
      let pte := entry a.mem table i
      if pteInvalidOrLeaf pte then .ok a
      else doDestroyPageTable level (subtableFromPte pte) a) n i a = .ok a') ∧
    ∀ a', forEntries (fun i a =>
      let pte := entry a.mem table i
      if pteInvalidOrLeaf pte then .ok a
      else doDestroyPageTable level (subtableFromPte pte) a) n i a = .ok a' →
      ∃ D, Shrinks a₀ a' ∅ D ∧ ∀ s, s ∈ D ↔ s ∈ belowUpTo a₀.mem level table entryCount := by
  obtain ⟨heach, hdis⟩ := tree_succ.mp ht
  induction n generalizing i a D with
  | zero =>
    have hi : i = entryCount := by omega
    refine ⟨fun _ => ⟨a, rfl⟩, fun a' hrun => ?_⟩
    cases hrun
    exact ⟨D, hs, hi ▸ hD⟩
  | succ n ihn =>
    have hi : i < entryCount := by omega
    obtain ⟨hroot, _⟩ := rest_sameTable hok ht hout hs (Set.empty_subset _) hD hi
    have hentry : entry a.mem table i = entry a₀.mem table i :=
      hs.sameTable hok (hout table table_mem_tables) hroot nofun i hi
    unfold forEntries
    simp only [hentry]
    cases hp : pteInvalidOrLeaf (entry a₀.mem table i) with
    | true =>
      simp only [if_true, Res.ok_bind]
      refine ihn (by omega) hs fun s => ?_
      rw [belowUpTo_succ, below_of_leaf hp, List.append_nil]
      exact hD s
    | false =>
      simp only [Bool.false_eq_true, if_false]
      obtain ⟨sub, hsub⟩ : ∃ sub, sub = subtableFromPte (entry a₀.mem table i) := ⟨_, rfl⟩
      obtain ⟨htree, hout', hflat, hsame⟩ := rest_destroy hok ht hout hs (Set.empty_subset _) hD hi hp hsub
      have hback := ih hs.ok htree hout'
      rw [← hsub]
      have hnext : ∀ a₁, doDestroyPageTable level sub a = .ok a₁ →
          ∃ D', Shrinks a₀ a₁ ∅ D' ∧ ∀ s, s ∈ D' ↔ s ∈ belowUpTo a₀.mem level table (i + 1) := by
        intro a₁ hrun
        obtain ⟨D₁, hs₁, hD₁⟩ := hback.shrinks a₁ hrun
        refine ⟨D₁ ++ D, hs.trans hs₁ nofun, fun s => ?_⟩
        rw [List.mem_append, hD₁, tables_congr hsame, hD, belowUpTo_succ, List.mem_append, below_of_pointer hp, ← hsub]
        exact or_comm
      refine ⟨fun hf => ?_, fun a' hrun => ?_⟩
      · obtain ⟨a₁, hrun₁⟩ := hback.returns (hflat hf)
        obtain ⟨D', hs', hD'⟩ := hnext a₁ hrun₁
        rw [hrun₁, Res.ok_bind]
        exact (ihn (by omega) hs' hD').1 hf
      · obtain ⟨a₁, hrun₁, hrun⟩ := Res.bind_eq_ok.mp hrun
        obtain ⟨D', hs', hD'⟩ := hnext a₁ hrun₁
        exact (ihn (by omega) hs' hD').2 a' hrun

/-- the loop at the bottom only looks at the entries -/
theorem checkEntries_spec (hn : i + n = entryCount) :
    ((∀ j < entryCount, pteInvalidOrLeaf (entry a.mem table j) = true) →
      forEntries (fun i a => if pteInvalidOrLeaf (entry a.mem table i) then .ok a
        else panic "invalid page table - too deep") n i a = .ok a) ∧
    ∀ a', forEntries (fun i a => if pteInvalidOrLeaf (entry a.mem table i) then .ok a
      else panic "invalid page table - too deep") n i a = .ok a' → a' = a := by
  induction n generalizing i with
  | zero => exact ⟨fun _ => rfl, fun a' hrun => by cases hrun; rfl⟩
  | succ n ih =>
    unfold forEntries
    cases hp : pteInvalidOrLeaf (entry a.mem table i) with
    | true =>
      simp only [if_true, Res.ok_bind]
      exact ih (by omega)
    | false =>
      refine ⟨fun hall => ?_, fun a' hrun => ?_⟩
      · rw [hall i (by omega)] at hp
        exact nomatch hp
      · simp only [Bool.false_eq_true, if_false] at hrun
        obtain ⟨_, hpanic, _⟩ := Res.bind_eq_ok.mp hrun
        exact absurd hpanic Res.panic_ne_ok

/-- the table itself comes last -/
theorem GivesBack.last {a₀ : Mm} {run : Res Mm} {total : Prop} {S : Nat → Prop} (hok : a₀.Ok)
    (hb : GivesBack a₀ run total S) (hout : pageAt table ∈ a₀.out) (hS : ¬ S table) :
    GivesBack a₀ (run >>= fun a => a.freePages { address := table, order := 0 }) total
      fun s => s = table ∨ S s := by
  have hfree : ∀ {a D}, Shrinks a₀ a ∅ D → (∀ s, s ∈ D ↔ S s) →
      ∃ a', a.freePages (pageAt table) = .ok a' ∧ Shrinks a₀ a' ∅ (table :: D) :=
    fun hs hD => hs.free hok hout fun hin => hS ((hD table).mp hin)
  refine ⟨fun htotal => ?_, fun a' hrun => ?_⟩
  · obtain ⟨a, hrun⟩ := hb.returns htotal
    obtain ⟨D, hs, hD⟩ := hb.shrinks a hrun
    obtain ⟨a', hrun', _⟩ := hfree hs hD
    rw [hrun, Res.ok_bind]
    exact ⟨a', hrun'⟩
  · obtain ⟨a, hrun₁, hrun⟩ := Res.bind_eq_ok.mp hrun
    obtain ⟨D, hs, hD⟩ := hb.shrinks a hrun₁
    obtain ⟨a'', hrun', hs'⟩ := hfree hs hD
    rw [show a.freePages { address := table, order := 0 } = .ok a'' from hrun'] at hrun
    cases hrun
    refine ⟨_, hs', fun s => ?_⟩
    rw [List.mem_cons, hD]

theorem doDestroyPageTable_spec (hok : a.Ok) (ht : Tree a.mem level table)
    (hout : ∀ s ∈ tables a.mem level table, pageAt s ∈ a.out) :
    GivesBack a (doDestroyPageTable level table a) (Flat a.mem level table) (· ∈ tables a.mem level table) := by
  induction level generalizing a table with
  | zero =>
    obtain ⟨hall, hsame⟩ := checkEntries_spec (a := a) (i := 0) (n := entryCount) (by omega)
    have hb : GivesBack a (forEntries (fun i a => if pteInvalidOrLeaf (entry a.mem table i) then .ok a
        else panic "invalid page table - too deep") entryCount 0 a) (Flat a.mem 0 table) fun _ => False :=
      ⟨fun hflat => ⟨a, hall hflat⟩, fun a' hrun => by
        rw [hsame a' hrun]
        exact ⟨[], .refl hok, fun s => iff_of_false List.not_mem_nil id⟩⟩
    have hlast := hb.last hok (hout table table_mem_tables) id
    refine ⟨hlast.returns, fun a' hrun => ?_⟩
    obtain ⟨D, hs, hD⟩ := hlast.shrinks a' hrun
    refine ⟨D, hs, fun s => (hD s).trans ?_⟩
    show _ ↔ s ∈ [table]
    rw [List.mem_singleton, or_false]
  | succ level ih =>
    obtain ⟨htotal, hpart⟩ := destroyEntries_spec (i := 0) (n := entryCount) (D := []) hok ht hout ih (by omega)
      (.refl hok) fun s => by simp [belowUpTo]
    have hnot : table ∉ belowUpTo a.mem level table entryCount := fun hin => by
      obtain ⟨j, hj, hmem⟩ := mem_belowUpTo.mp hin
      exact ((tree_succ.mp ht).1 j hj).2 hmem
    have hlast := GivesBack.last hok ⟨htotal, hpart⟩ (hout table table_mem_tables) hnot
    refine ⟨hlast.returns, fun a' hrun => ?_⟩
    obtain ⟨D, hs, hD⟩ := hlast.shrinks a' hrun
    refine ⟨D, hs, fun s => (hD s).trans ?_⟩
    show _ ↔ s ∈ tables a.mem (level + 1) table
    rw [mem_belowUpTo, mem_tables_succ]

/-! ## the user half of a tree -/

/-- the number of entries of a root that lie below `SPLIT` -/
def userEntries : Nat := splitAddr / 2 ^ 30

theorem setVpn2_step {va : Nat} (hi : i < 2 ^ 9) (hva : va < 2 ^ 39) (hlow : va % 2 ^ 30 = 0) :
    Sv39Va.setVpn2 i va = 2 ^ 30 * i := by
  unfold Sv39Va.setVpn2 Bitfield.setField
  omega

/-- the entries of `root` before `i` have been cleared, and what was below them is given back -/
structure Unset (a₀ : Mm) (root i : Nat) (a : Mm) (D : List Nat) : Prop where
  shrinks : Shrinks a₀ a {root} D
  dropped : ∀ s, s ∈ D ↔ s ∈ belowUpTo a₀.mem 1 root i
  entries : ∀ j < entryCount, entry a.mem root j = if j < i then 0 else entry a₀.mem root j

/-- the entry `i` is cleared when what it leads to has been given back -/
theorem Unset.clear {a₁ : Mm} {D₁ : List Nat} (hu : Unset a₀ root i a D) (hok : a₀.Ok) (hout : pageAt root ∈ a₀.out)
    (hpage : pageSize ∣ root) (hi : i < entryCount) (hs : Shrinks a₀ a₁ {root} D₁) (hroot : root ∉ D₁)
    (hD : ∀ s, s ∈ D₁ ↔ s ∈ belowUpTo a₀.mem 1 root (i + 1))
    (hsame : ∀ j < entryCount, entry a₁.mem root j = entry a.mem root j) :
    Unset a₀ root (i + 1) (a₁.setEntry root i 0) D₁ := by
  have hkept : a₁.KeptPage root := .of_mem ((hs.mem_page hok).mpr ⟨hout, hroot⟩)
  have hx := setEntry_extends 0 hs.ok hkept hpage hi
  refine ⟨hs.trans (.of_extends hx) (Set.Subset.refl _), hD, fun j hj => ?_⟩
  by_cases hji : j = i
  · subst hji
    rw [if_pos (Nat.lt_succ_self j)]
    exact entry_setEntry_self (Nat.two_pow_pos 64)
  · have hlt : j < i + 1 ↔ j < i := by omega
    simp only [hlt]
    rw [← hu.entries j hj, ← hsame j hj]
    exact entry_setEntry_of_ne hpage hpage hi hj (.inr hji)

/-- an entry that leads nowhere -/
theorem Unset.step_leaf (hu : Unset a₀ root i a D) (hok : a₀.Ok) (ht : Tree a₀.mem 2 root)
    (hout : ∀ s ∈ tables a₀.mem 2 root, pageAt s ∈ a₀.out) (hpage : pageSize ∣ root) (hi : i < entryCount)
    (hp : pteInvalidOrLeaf (entry a₀.mem root i) = true) : Unset a₀ root (i + 1) (a.setEntry root i 0) D := by
  obtain ⟨hroot, _⟩ := rest_sameTable hok ht hout hu.shrinks (Set.Subset.refl _) hu.dropped hi
  refine hu.clear hok (hout root table_mem_tables) hpage hi hu.shrinks hroot (fun s => ?_) fun _ _ => rfl
  rw [belowUpTo_succ, below_of_leaf hp, List.append_nil]
  exact hu.dropped s

/-- an entry that leads to a table -/
theorem Unset.step_pointer {a₁ : Mm} {sub : Nat} (hu : Unset a₀ root i a D) (hok : a₀.Ok) (ht : Tree a₀.mem 2 root)
    (hout : ∀ s ∈ tables a₀.mem 2 root, pageAt s ∈ a₀.out) (hpage : pageSize ∣ root) (hi : i < entryCount)
    (hp : pteInvalidOrLeaf (entry a₀.mem root i) = false) (hsub : sub = subtableFromPte (entry a₀.mem root i))
    (hrun : doDestroyPageTable 1 sub a = .ok a₁) : ∃ D', Unset a₀ root (i + 1) (a₁.setEntry root i 0) D' := by
  have hself : ({root} : Set Nat) ⊆ {root} := Set.Subset.refl _
  obtain ⟨hroot, hrest⟩ := rest_sameTable hok ht hout hu.shrinks hself hu.dropped hi
  obtain ⟨htree, hout', _, hsame⟩ := rest_destroy hok ht hout hu.shrinks hself hu.dropped hi hp hsub
  have hbelow : FakeKernel.below a₀.mem 1 (entry a₀.mem root i) = tables a₀.mem 1 sub := by
    rw [hsub]
    exact below_of_pointer hp
  obtain ⟨D₁, hs₁, hD₁⟩ := (doDestroyPageTable_spec hu.shrinks.ok htree hout').shrinks a₁ hrun
  have hroot₁ : root ∉ D₁ := by
    intro hmem
    rw [hD₁, tables_congr hsame, ← hbelow] at hmem
    exact ((tree_succ.mp ht).1 i hi).2 hmem
  have hout₁ : pageAt root ∈ a.out := (hu.shrinks.mem_page hok).mpr ⟨hout root table_mem_tables, hroot⟩
  refine ⟨D₁ ++ D, hu.clear hok (hout root table_mem_tables) hpage hi (hu.shrinks.trans hs₁ (Set.empty_subset _)) ?_
    (fun s => ?_) (hs₁.sameTable hu.shrinks.ok hout₁ hroot₁ nofun)⟩
  · rw [List.mem_append]
    exact fun h => h.elim hroot₁ hroot
  · rw [List.mem_append, hD₁, tables_congr hsame, hu.dropped, belowUpTo_succ, List.mem_append, hbelow]
    exact or_comm

/-- the loop is at the entry `i`, and stops at the first one of the kernel's half -/
theorem unsetUserPagesFrom_step (root n : Nat) (a : Mm) {va : Nat} (hi : i ≤ userEntries) (hva : va < 2 ^ 39)
    (hlow : va % 2 ^ 30 = 0) : (2 ^ 30 * i < 2 ^ 39 ∧ 2 ^ 30 * i % 2 ^ 30 = 0) ∧ unsetUserPagesFrom root (n + 1) i va a
      = if i = userEntries then .ok a
        else if pteInvalidOrLeaf (entry a.mem root i) then
          unsetUserPagesFrom root n (i + 1) (2 ^ 30 * i) (a.setEntry root i 0)
        else doDestroyPageTable 1 (subtableFromPte (entry a.mem root i)) a >>= fun a₁ =>
          unsetUserPagesFrom root n (i + 1) (2 ^ 30 * i) (a₁.setEntry root i 0) := by
  have huser : userEntries = 252 := by decide
  have hnext : Sv39Va.setVpn2 i va = 2 ^ 30 * i := setVpn2_step (by omega) hva hlow
  have hsplit : splitAddr ≤ 2 ^ 30 * i ↔ i = userEntries := by
    unfold splitAddr
    omega
  refine ⟨⟨by omega, Nat.mul_mod_right _ _⟩, ?_⟩
  show (if splitAddr ≤ Sv39Va.setVpn2 i va then _ else _) = _
  simp only [hnext, hsplit, Res.ok_bind]

theorem unsetUserPagesFrom_spec {va : Nat} (hok : a₀.Ok) (ht : Tree a₀.mem 2 root)
    (hout : ∀ s ∈ tables a₀.mem 2 root, pageAt s ∈ a₀.out) (hpage : pageSize ∣ root)
    (hi : i ≤ userEntries) (hn : userEntries < i + n) (hva : va < 2 ^ 39) (hlow : va % 2 ^ 30 = 0)
    (hu : Unset a₀ root i a D) :
    (Flat a₀.mem 2 root → ∃ a', unsetUserPagesFrom root n i va a = .ok a') ∧
    ∀ a', unsetUserPagesFrom root n i va a = .ok a' → ∃ D, Unset a₀ root userEntries a' D := by
  have huser : userEntries < entryCount := by decide
  induction n generalizing i va a D with
  | zero => omega
  | succ n ih =>
    obtain ⟨⟨hva', hlow'⟩, hstep⟩ := unsetUserPagesFrom_step root n a hi hva hlow
    rw [hstep]
    by_cases he : i = userEntries
    · rw [if_pos he]
      refine ⟨fun _ => ⟨a, rfl⟩, fun a' hrun => ?_⟩
      cases hrun
      exact ⟨D, he ▸ hu⟩
    · rw [if_neg he]
      have hic : i < entryCount := by omega
      have hentry : entry a.mem root i = entry a₀.mem root i := by
        rw [hu.entries i hic, if_neg (Nat.lt_irrefl i)]
      simp only [hentry]
      cases hp : pteInvalidOrLeaf (entry a₀.mem root i) with
      | true =>
        simp only [if_true]
        exact ih (by omega) (by omega) hva' hlow' (hu.step_leaf hok ht hout hpage hic hp)
      | false =>
        simp only [Bool.false_eq_true, if_false]
        obtain ⟨sub, hsub⟩ : ∃ sub, sub = subtableFromPte (entry a₀.mem root i) := ⟨_, rfl⟩
        obtain ⟨htree, hout', hflat, _⟩ := rest_destroy hok ht hout hu.shrinks (Set.Subset.refl _) hu.dropped hic hp hsub
        rw [← hsub]
        refine ⟨fun hf => ?_, fun a' hrun => ?_⟩
        · obtain ⟨a₁, hrun₁⟩ := (doDestroyPageTable_spec hu.shrinks.ok htree hout').returns (hflat hf)
          obtain ⟨D', hu'⟩ := hu.step_pointer hok ht hout hpage hic hp hsub hrun₁
          rw [hrun₁, Res.ok_bind]
          exact (ih (by omega) (by omega) hva' hlow' hu').1 hf
        · obtain ⟨a₁, hrun₁, hrun⟩ := Res.bind_eq_ok.mp hrun
          obtain ⟨D', hu'⟩ := hu.step_pointer hok ht hout hpage hic hp hsub hrun₁
          exact (ih (by omega) (by omega) hva' hlow' hu').2 a' hrun

theorem Unset.below (hu : Unset a root userEntries a' D) (hok : a.Ok) (ht : Tree a.mem 2 root)
    (hout : ∀ s ∈ tables a.mem 2 root, pageAt s ∈ a.out) (hi : i < entryCount) :
    (i < userEntries → below a'.mem 1 (entry a'.mem root i) = []) ∧
    (¬ i < userEntries → entry a'.mem root i = entry a.mem root i ∧
      ∀ s ∈ FakeKernel.below a.mem 1 (entry a.mem root i), SameTable a.mem a'.mem s ∧ s ∉ D) := by
  obtain ⟨heach, hdis⟩ := tree_succ.mp ht
  have huser : userEntries < entryCount := by decide
  rw [hu.entries i hi]
  refine ⟨fun hlt => ?_, fun hge => ?_⟩
  · rw [if_pos hlt]
    exact below_of_leaf rfl
  · rw [if_neg hge]
    refine ⟨rfl, fun s hs => ?_⟩
    have hnot : s ∉ D := fun hin => by
      obtain ⟨j, hj, hj'⟩ := mem_belowUpTo.mp ((hu.dropped s).mp hin)
      exact hdis j (by omega) i hi (by omega) hj' hs
    have hne : s ≠ root := fun e => by
      rw [e] at hs
      exact (heach i hi).2 hs
    exact ⟨hu.shrinks.sameTable hok (hout s (mem_tables_succ.mpr (.inr ⟨i, hi, hs⟩))) hnot
      fun h => hne (Set.mem_singleton_iff.mp h), hnot⟩

/-- what unset_user_pages leaves of an address space: the kernel's half -/
structure Emptied (a a' : Mm) (root : Nat) (D : List Nat) : Prop where
  shrinks : Shrinks a a' {root} D
  dropped : ∀ s ∈ D, s ∈ tables a.mem 2 root ∧ s ≠ root
  wf : WellFormed a' root
  tables : ∀ s, s ∈ tables a'.mem 2 root ↔ s ∈ tables a.mem 2 root ∧ s ∉ D
  walk : ∀ x, walk a'.mem 2 root x = if x % 2 ^ 39 < splitAddr then none else walk a.mem 2 root x

theorem Unset.emptied (hu : Unset a root userEntries a' D) (hw : WellFormed a root)
    (hout : ∀ s ∈ tables a.mem 2 root, pageAt s ∈ a.out) : Emptied a a' root D := by
  obtain ⟨heach, hdis⟩ := tree_succ.mp hw.tree
  have huser : userEntries < entryCount := by decide
  have hbelow := fun {i} => hu.below (i := i) hw.ok hw.tree hout
  have hsame : ∀ i < entryCount, ¬ i < userEntries → FakeKernel.below a'.mem 1 (entry a'.mem root i)
      = FakeKernel.below a.mem 1 (entry a.mem root i) := by
    intro i hi hge
    obtain ⟨he, hs⟩ := (hbelow hi).2 hge
    rw [he]
    exact below_congr fun s hsb => (hs s hsb).1
  have hroot : root ∉ D := fun hin => by
    obtain ⟨j, hj, hmem⟩ := mem_belowUpTo.mp ((hu.dropped root).mp hin)
    exact (heach j (by omega)).2 hmem
  have htab : ∀ s, s ∈ tables a'.mem 2 root ↔ s ∈ tables a.mem 2 root ∧ s ∉ D := by
    intro s
    rw [mem_tables_succ, mem_tables_succ]
    constructor
    · intro hs
      cases hs with
      | inl he =>
        subst he
        exact ⟨.inl rfl, hroot⟩
      | inr hs =>
        obtain ⟨i, hi, hs⟩ := hs
        by_cases hlt : i < userEntries
        · rw [(hbelow hi).1 hlt] at hs
          exact absurd hs List.not_mem_nil
        · rw [hsame i hi hlt] at hs
          exact ⟨.inr ⟨i, hi, hs⟩, ((hbelow hi).2 hlt).2 s hs |>.2⟩
    · intro ⟨hs, hnot⟩
      cases hs with
      | inl he => exact .inl he
      | inr hs =>
        obtain ⟨i, hi, hs⟩ := hs
        by_cases hlt : i < userEntries
        · exact absurd ((hu.dropped s).mpr (mem_belowUpTo.mpr ⟨i, hlt, hs⟩)) hnot
        · refine .inr ⟨i, hi, ?_⟩
          rw [hsame i hi hlt]
          exact hs
  have hpage : ∀ s ∈ tables a'.mem 2 root, a'.KeptPage s := fun s hs => by
    obtain ⟨hold, hnot⟩ := (htab s).mp hs
    exact .of_mem ((hu.shrinks.mem_page hw.ok).mpr ⟨hout s hold, hnot⟩)
  have htree : Tree a'.mem 2 root := by
    refine tree_succ.mpr ⟨fun i hi => ?_, fun i hi j hj hij => ?_⟩
    · by_cases hlt : i < userEntries
      · rw [(hbelow hi).1 hlt, hu.entries i hi, if_pos hlt]
        refine ⟨(treeBelow_of_leaf rfl).mpr ?_, List.not_mem_nil⟩
        exact fun hv => absurd rfl hv
      · obtain ⟨he, hs⟩ := (hbelow hi).2 hlt
        rw [hsame i hi hlt, he]
        exact ⟨(heach i hi).1.congr fun s hsb => (hs s hsb).1, (heach i hi).2⟩
    · by_cases hlt : i < userEntries
      · rw [(hbelow hi).1 hlt]
        exact fun s hs => absurd hs List.not_mem_nil
      · by_cases hlt' : j < userEntries
        · rw [(hbelow hj).1 hlt']
          exact fun s _ hs => absurd hs List.not_mem_nil
        · rw [hsame i hi hlt, hsame j hj hlt']
          exact hdis i hi j hj hij
  refine ⟨hu.shrinks, fun s hs => ?_, ⟨hu.shrinks.ok, htree, hw.page, hpage⟩, htab, fun x => ?_⟩
  · obtain ⟨j, hj, hmem⟩ := mem_belowUpTo.mp ((hu.dropped s).mp hs)
    refine ⟨mem_tables_succ.mpr (.inr ⟨j, by omega, hmem⟩), fun e => ?_⟩
    rw [e] at hmem
    exact (heach j (by omega)).2 hmem
  · have hvpn := vpnAt_lt 2 x
    have hsplit : x % 2 ^ 39 < splitAddr ↔ vpnAt 2 x < userEntries := by
      have h252 : userEntries = 252 := by decide
      rw [h252]
      unfold vpnAt Bitfield.field splitAddr
      omega
    simp only [hsplit]
    by_cases hlt : vpnAt 2 x < userEntries
    · rw [if_pos hlt, walk_succ, hu.entries _ hvpn, if_pos hlt]
      rfl
    · obtain ⟨he, hs⟩ := (hbelow hvpn).2 hlt
      rw [if_neg hlt, walk_succ, walk_succ, he]
      cases hp : pteInvalidOrLeaf (entry a.mem root (vpnAt 2 x)) with
      | true => rw [walkBelow_of_leaf hp, walkBelow_of_leaf hp]
      | false =>
        rw [below_of_pointer hp] at hs
        rw [walkBelow_of_pointer hp, walkBelow_of_pointer hp]
        exact walk_congr fun s hsb => (hs s hsb).1

/-- what lies below the other entries is not touched -/
theorem Unset.flat (hu : Unset a root userEntries a' D) (hok : a.Ok) (ht : Tree a.mem 2 root)
    (hout : ∀ s ∈ tables a.mem 2 root, pageAt s ∈ a.out) (hf : Flat a.mem 2 root) : Flat a'.mem 2 root := by
  intro i hi hp
  by_cases hlt : i < userEntries
  · rw [hu.entries i hi, if_pos hlt] at hp
    exact nomatch hp
  · obtain ⟨he, hsame⟩ := (hu.below hok ht hout hi).2 hlt
    rw [he] at hp ⊢
    rw [below_of_pointer hp] at hsame
    exact (hf i hi hp).congr fun s hs => (hsame s hs).1

theorem unsetUserPages_unset (hw : WellFormed a root) (hout : ∀ s ∈ tables a.mem 2 root, pageAt s ∈ a.out) :
    (Flat a.mem 2 root → ∃ a', unsetUserPages root a = .ok a') ∧
    ∀ a', unsetUserPages root a = .ok a' → ∃ D, Unset a root userEntries a' D := by
  have hstart : Unset a root 0 a [] := by
    refine ⟨(Shrinks.refl hw.ok).mono (Set.empty_subset _) fun s hs => ?_, fun s => ?_, fun j _ => ?_⟩
    · rw [Set.mem_singleton_iff.mp hs]
      exact hw.page
    · exact iff_of_false List.not_mem_nil List.not_mem_nil
    · rw [if_neg (Nat.not_lt_zero j)]
  exact unsetUserPagesFrom_spec (n := entryCount) hw.ok hw.tree hout hw.page (Nat.zero_le _) (by decide)
    (show (0 : Nat) < 2 ^ 39 by decide) rfl hstart

theorem unsetUserPages_spec (hw : WellFormed a root) (hout : ∀ s ∈ tables a.mem 2 root, pageAt s ∈ a.out) :
    (Flat a.mem 2 root → ∃ a', unsetUserPages root a = .ok a') ∧
    ∀ a', unsetUserPages root a = .ok a' → ∃ D, Emptied a a' root D := by
  obtain ⟨htotal, hpart⟩ := unsetUserPages_unset hw hout
  refine ⟨htotal, fun a' hrun => ?_⟩
  obtain ⟨D, hu⟩ := hpart a' hrun
  exact ⟨D, hu.emptied hw hout⟩

end FakeKernel
