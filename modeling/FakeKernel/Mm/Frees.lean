import FakeKernel.Mm.Unset
import FakeKernel.Mm.Progress

/-!
# The pages that a teardown frees, in order

* `Act`, `runActs`            calls of free_pages and stores of 0 to an entry, one after the other;
* `postorder`                 the order in which do_destroy_page_table frees the tables of a tree;
* `doDestroyPageTable_frees`  it makes these calls and no others;
* `unsetUserPages_acts`       so does unset_user_pages, which clears the entries of the user half as well;
* `unset_user_pages_exact`    what is left of the translations.
-/

namespace FakeKernel
open Bytes Mm

variable {a a' a₀ : Mm} {m m' : Mem} {root table level n i s va pa flags : Nat} {D : List Nat} {r : Int}

/-- what a teardown does to memory and to the allocator -/
inductive Act
  | free (page : Page)
  | clear (table i : Nat)

def Act.run : Act → Mm → Res Mm
  | .free page, a => a.freePages page
  | .clear table i, a => .ok (a.setEntry table i 0)

def runActs : List Act → Mm → Res Mm
  | [], a => .ok a
  | x :: l, a => do
    let a ← x.run a
    runActs l a

/-- the pages that are passed to free_pages -/
def freed (l : List Act) : List Page :=
  l.filterMap fun x => match x with
    | .free page => some page
    | .clear _ _ => none

theorem runActs_append (l l' : List Act) (a : Mm) : runActs (l ++ l') a = (runActs l a >>= fun a => runActs l' a) := by
  induction l generalizing a with
  | nil => rfl
  | cons x l ih =>
    show (x.run a >>= fun a => runActs (l ++ l') a) = _
    simp only [ih, runActs, bind_assoc]

theorem freed_append (l l' : List Act) : freed (l ++ l') = freed l ++ freed l' := List.filterMap_append

/-- the tables `l` are freed -/
def freeTables (l : List Nat) : List Act := l.map fun s => .free (pageAt s)

theorem freeTables_append (l l' : List Nat) : freeTables (l ++ l') = freeTables l ++ freeTables l' := List.map_append

theorem freed_freeTables (l : List Nat) : freed (freeTables l) = l.map pageAt := by
  induction l with
  | nil => rfl
  | cons s l ih =>
    show pageAt s :: freed (freeTables l) = _
    rw [ih, List.map_cons]

/-! ## the order of do_destroy_page_table -/

def postorder (m : Mem) : Nat → Nat → List Nat
  | 0, table => [table]
  | level + 1, table => ((List.range entryCount).flatMap fun i =>
      if pteInvalidOrLeaf (entry m table i) then [] else postorder m level (subtableFromPte (entry m table i))) ++ [table]

/-- the tables below an entry, in that order -/
def postorderBelow (m : Mem) (level pte : Nat) : List Nat :=
  if pteInvalidOrLeaf pte then [] else postorder m level (subtableFromPte pte)

theorem postorder_succ (m : Mem) (level table : Nat) : postorder m (level + 1) table
    = ((List.range entryCount).flatMap fun i => postorderBelow m level (entry m table i)) ++ [table] := rfl

theorem postorderBelow_of_leaf {pte : Nat} (h : pteInvalidOrLeaf pte = true) : postorderBelow m level pte = [] :=
  if_pos h

theorem postorderBelow_of_pointer {pte : Nat} (h : pteInvalidOrLeaf pte = false) :
    postorderBelow m level pte = postorder m level (subtableFromPte pte) := by
  unfold postorderBelow
  rw [h]
  rfl

theorem postorder_perm (m : Mem) (level table : Nat) : (postorder m level table).Perm (tables m level table) := by
  induction level generalizing table with
  | zero => exact .refl _
  | succ level ih =>
    rw [postorder_succ, tables_succ]
    refine (List.perm_append_singleton _ _).trans (List.Perm.cons _ (List.Perm.flatMap_left _ fun i _ => ?_))
    cases hp : pteInvalidOrLeaf (entry m table i) with
    | true =>
      rw [postorderBelow_of_leaf hp, below_of_leaf hp]
    | false =>
      rw [postorderBelow_of_pointer hp, below_of_pointer hp]
      exact ih _

theorem postorderBelow_perm (m : Mem) (level pte : Nat) : (postorderBelow m level pte).Perm (below m level pte) := by
  cases hp : pteInvalidOrLeaf pte with
  | true =>
    rw [postorderBelow_of_leaf hp, below_of_leaf hp]
  | false =>
    rw [postorderBelow_of_pointer hp, below_of_pointer hp]
    exact postorder_perm m level _

theorem postorder_congr (h : ∀ s ∈ tables m level table, SameTable m m' s) :
    postorder m' level table = postorder m level table := by
  induction level generalizing table with
  | zero => rfl
  | succ level ih =>
    rw [postorder_succ, postorder_succ]
    refine congrArg (· ++ [table]) (List.flatMap_congr fun i hi => ?_)
    have hi := List.mem_range.mp hi
    rw [h table table_mem_tables i hi]
    cases hp : pteInvalidOrLeaf (entry m table i) with
    | true => rw [postorderBelow_of_leaf hp, postorderBelow_of_leaf hp]
    | false =>
      rw [postorderBelow_of_pointer hp, postorderBelow_of_pointer hp]
      refine ih fun s hs => h s (mem_tables_succ.mpr (.inr ⟨i, hi, ?_⟩))
      rw [below_of_pointer hp]
      exact hs

/-! ## destroying a tree -/

/-- the tables below the entries from `i` on, `n` of them, of a table of `level + 1` -/
def postorderFrom (m : Mem) (level table n i : Nat) : List Nat :=
  (List.range' i n).flatMap fun j => postorderBelow m level (entry m table j)

theorem postorderFrom_succ (m : Mem) (level table n i : Nat) : postorderFrom m level table (n + 1) i
    = postorderBelow m level (entry m table i) ++ postorderFrom m level table n (i + 1) := by
  unfold postorderFrom
  rw [List.range'_succ, List.flatMap_cons]

theorem destroyEntries_frees (hok : a₀.Ok) (ht : Tree a₀.mem (level + 1) table)
    (hout : ∀ s ∈ tables a₀.mem (level + 1) table, pageAt s ∈ a₀.out) (hf : Flat a₀.mem (level + 1) table)
    (ih : ∀ {a : Mm} {sub : Nat}, a.Ok → Tree a.mem level sub → (∀ s ∈ tables a.mem level sub, pageAt s ∈ a.out) →
      Flat a.mem level sub → doDestroyPageTable level sub a = runActs (freeTables (postorder a.mem level sub)) a)
    (hn : i + n = entryCount) (hs : Shrinks a₀ a ∅ D) (hD : ∀ s, s ∈ D ↔ s ∈ belowUpTo a₀.mem level table i) :
    forEntries (fun i a =>
      let pte := entry a.mem table i
      if pteInvalidOrLeaf pte then .ok a
      else doDestroyPageTable level (subtableFromPte pte) a) n i a
      = runActs (freeTables (postorderFrom a₀.mem level table n i)) a := by
  induction n generalizing i a D with
  | zero => rfl
  | succ n ihn =>
    have hi : i < entryCount := by omega
    obtain ⟨hroot, _⟩ := rest_sameTable hok ht hout hs (Set.empty_subset _) hD hi
    have hentry : entry a.mem table i = entry a₀.mem table i :=
      hs.sameTable hok (hout table table_mem_tables) hroot (Set.notMem_empty _) i hi
    rw [postorderFrom_succ, freeTables_append, runActs_append]
    unfold forEntries
    simp only [hentry]
    cases hp : pteInvalidOrLeaf (entry a₀.mem table i) with
    | true =>
      simp only [if_true, Res.ok_bind]
      rw [postorderBelow_of_leaf hp]
      refine ihn (by omega) hs fun s => ?_
      rw [belowUpTo_succ, below_of_leaf hp, List.append_nil]
      exact hD s
    | false =>
      simp only [Bool.false_eq_true, if_false]
      obtain ⟨sub, hsub⟩ : ∃ sub, sub = subtableFromPte (entry a₀.mem table i) := ⟨_, rfl⟩
      obtain ⟨htree, hout', hflat, hsame⟩ := rest_destroy hok ht hout hs (Set.empty_subset _) hD hi hp hsub
      have hback := doDestroyPageTable_spec hs.ok htree hout'
      obtain ⟨a₁, hrun⟩ := hback.returns (hflat hf)
      obtain ⟨D₁, hs₁, hD₁⟩ := hback.shrinks a₁ hrun
      have hcalls := ih hs.ok htree hout' (hflat hf)
      rw [postorder_congr hsame, hrun] at hcalls
      rw [← hsub, postorderBelow_of_pointer hp, ← hsub, hrun, ← hcalls, Res.ok_bind, Res.ok_bind]
      refine ihn (by omega) (hs.trans hs₁ (Set.empty_subset _)) fun s => ?_
      rw [List.mem_append, hD₁, tables_congr hsame, hD, belowUpTo_succ, List.mem_append, below_of_pointer hp, ← hsub]
      exact or_comm

/-- do_destroy_page_table frees the tables of a tree in postorder and does nothing else -/
theorem doDestroyPageTable_frees (hok : a.Ok) (ht : Tree a.mem level table)
    (hout : ∀ s ∈ tables a.mem level table, pageAt s ∈ a.out) (hf : Flat a.mem level table) :
    doDestroyPageTable level table a = runActs (freeTables (postorder a.mem level table)) a := by
  induction level generalizing a table with
  | zero =>
    obtain ⟨hall, _⟩ := checkEntries_spec (a := a) (i := 0) (n := entryCount) (Nat.zero_add _)
    unfold doDestroyPageTable
    rw [hall hf]
    show a.freePages (pageAt table) = (a.freePages (pageAt table) >>= fun a => .ok a)
    cases a.freePages (pageAt table) <;> rfl
  | succ level ih =>
    unfold doDestroyPageTable
    rw [destroyEntries_frees (D := []) hok ht hout hf ih (Nat.zero_add _) (.refl hok) fun s => by simp [belowUpTo],
      postorder_succ, freeTables_append, runActs_append]
    have hrange : postorderFrom a.mem level table entryCount 0
        = (List.range entryCount).flatMap fun i => postorderBelow a.mem level (entry a.mem table i) := by
      rw [List.range_eq_range']
      rfl
    rw [hrange]
    congr 1
    funext a₁
    show a₁.freePages (pageAt table) = (a₁.freePages (pageAt table) >>= fun a => .ok a)
    cases a₁.freePages (pageAt table) <;> rfl

/-! ## the user half of a tree -/

/-- what unset_user_pages does for the entries from `i` on, `n` of them -/
def unsetActs (m : Mem) (root n i : Nat) : List Act :=
  (List.range' i n).flatMap fun j => freeTables (postorderBelow m 1 (entry m root j)) ++ [.clear root j]

theorem unsetActs_succ (m : Mem) (root n i : Nat) : unsetActs m root (n + 1) i
    = freeTables (postorderBelow m 1 (entry m root i)) ++ .clear root i :: unsetActs m root n (i + 1) := by
  unfold unsetActs
  rw [List.range'_succ, List.flatMap_cons, List.append_assoc]
  rfl

theorem freed_unsetActs (m : Mem) (root n i : Nat) :
    freed (unsetActs m root n i) = (postorderFrom m 1 root n i).map pageAt := by
  induction n generalizing i with
  | zero => rfl
  | succ n ih =>
    rw [unsetActs_succ, postorderFrom_succ, freed_append, List.map_append, freed_freeTables]
    exact congrArg _ (ih (i + 1))

theorem unsetUserPagesFrom_acts {va : Nat} (hok : a₀.Ok) (ht : Tree a₀.mem 2 root)
    (hout : ∀ s ∈ tables a₀.mem 2 root, pageAt s ∈ a₀.out) (hpage : pageSize ∣ root) (hf : Flat a₀.mem 2 root)
    (hi : i + n = userEntries) (hva : va < 2 ^ 39) (hlow : va % 2 ^ 30 = 0) (hu : Unset a₀ root i a D) {k : Nat} :
    unsetUserPagesFrom root (n + k + 1) i va a = runActs (unsetActs a₀.mem root n i) a := by
  have huser : userEntries < entryCount := by decide
  induction n generalizing i va a D with
  | zero =>
    have he : i = userEntries := hi
    obtain ⟨_, hstep⟩ := unsetUserPagesFrom_step root (0 + k) a (Nat.le_of_eq he) hva hlow
    rw [hstep, if_pos he]
    rfl
  | succ n ih =>
    have hle : i ≤ userEntries := by omega
    obtain ⟨⟨hva', hlow'⟩, hstep⟩ := unsetUserPagesFrom_step root (n + 1 + k) a hle hva hlow
    have hic : i < entryCount := by omega
    have hentry : entry a.mem root i = entry a₀.mem root i := by
      rw [hu.entries i hic, if_neg (Nat.lt_irrefl i)]
    rw [hstep, if_neg (by omega), hentry, unsetActs_succ, runActs_append, Nat.add_right_comm n 1 k]
    cases hp : pteInvalidOrLeaf (entry a₀.mem root i) with
    | true =>
      rw [if_pos rfl, postorderBelow_of_leaf hp]
      exact ih (by omega) hva' hlow' (hu.step_leaf hok ht hout hpage hic hp)
    | false =>
      obtain ⟨sub, hsub⟩ : ∃ sub, sub = subtableFromPte (entry a₀.mem root i) := ⟨_, rfl⟩
      obtain ⟨htree, hout', hflat, hsame⟩ := rest_destroy hok ht hout hu.shrinks (Set.Subset.refl _) hu.dropped hic hp
        hsub
      obtain ⟨a₁, hrun⟩ := (doDestroyPageTable_spec hu.shrinks.ok htree hout').returns (hflat hf)
      obtain ⟨D', hu'⟩ := hu.step_pointer hok ht hout hpage hic hp hsub hrun
      have hcalls := doDestroyPageTable_frees hu.shrinks.ok htree hout' (hflat hf)
      rw [postorder_congr hsame, hrun] at hcalls
      rw [if_neg Bool.false_ne_true, postorderBelow_of_pointer hp, ← hsub, hrun, ← hcalls, Res.ok_bind, Res.ok_bind]
      exact ih (by omega) hva' hlow' hu'

/-- unset_user_pages frees what is below the entries of the user half and clears these entries -/
theorem unsetUserPages_acts (hw : WellFormed a root) (hout : ∀ s ∈ tables a.mem 2 root, pageAt s ∈ a.out)
    (hf : Flat a.mem 2 root) : unsetUserPages root a = runActs (unsetActs a.mem root userEntries 0) a := by
  have hcount : entryCount = userEntries + 259 + 1 := by decide
  have hu : Unset a root 0 a [] := by
    refine ⟨(Shrinks.refl hw.ok).mono (Set.empty_subset _) fun s hs => ?_, fun s => ?_, fun j _ => ?_⟩
    · rw [Set.mem_singleton_iff.mp hs]
      exact hw.page
    · simp [belowUpTo]
    · rw [if_neg (Nat.not_lt_zero j)]
  unfold unsetUserPages
  rw [hcount]
  exact unsetUserPagesFrom_acts hw.ok hw.tree hout hw.page hf (Nat.zero_add _) (by decide) (by decide) hu

/-! ## tables of user programs -/

/-- a tree that can be torn down -/
structure Whole (a : Mm) (root : Nat) : Prop where
  wf : WellFormed a root
  out : ∀ s ∈ tables a.mem 2 root, pageAt s ∈ a.out
  flat : Flat a.mem 2 root

/-- a step that does not concern the tree at `root` -/
structure Elsewhere (a a' : Mm) (root : Nat) : Prop where
  ok : a'.Ok
  kept : ∀ s ∈ tables a.mem 2 root, pageAt s ∈ a'.out ∧ SameTable a.mem a'.mem s

theorem Whole.elsewhere (h : Whole a root) (he : Elsewhere a a' root) : Whole a' root := by
  have hsame : ∀ s ∈ tables a.mem 2 root, SameTable a.mem a'.mem s := fun s hs => (he.kept s hs).2
  have htab := tables_congr hsame
  refine ⟨⟨he.ok, h.wf.tree.congr hsame, h.wf.page, fun s hs => ?_⟩, fun s hs => ?_, h.flat.congr hsame⟩
  · rw [htab] at hs
    exact .of_mem (he.kept s hs).1
  · rw [htab] at hs
    exact (he.kept s hs).1

theorem Whole.edit {N : List Nat} (h : Whole a root) (he : Edit a a' root N) (hf : Flat a'.mem 2 root) : Whole a' root := by
  refine ⟨he.wellFormed h.wf, fun s hs => ?_, hf⟩
  rw [he.grow.out, List.mem_append]
  cases he.upd.mem_tables s hs with
  | inl hold => exact .inr (h.out s hold)
  | inr hnew => exact .inl (List.mem_map_of_mem hnew)

theorem Whole.set {spare : Prop} {N : List Nat} {a₁ : Mm} (h : Whole a root)
    (hs : SetsSlot a a' root va level pa flags spare N a₁ s) (hl : pteIsLeaf flags = true ∨ flags &&& pteValid = 0) :
    Whole a' root := by
  obtain ⟨hedit, _⟩ := hs.written h.wf hl
  exact h.edit (hs.split.toEdit.trans hedit) (hs.flat h.wf hl h.flat)

theorem Whole.create (hok : a.Ok) (hrun : createPageTable a = .ok (root, a')) : Whole a' root := by
  obtain ⟨hx, hw, htab, _⟩ := createPageTable_spec hok hrun
  refine ⟨hw, fun s hs => ?_, fun i hi hp => ?_⟩
  · rw [htab s hs, hx.out]
    exact List.mem_append_left _ (List.mem_singleton_self _)
  · rw [hw.leaf_of_single htab hi] at hp
    exact nomatch hp

theorem pteIsLeaf_user (h : pteIsLeaf flags = true) : pteIsLeaf (flags ||| pteUser) = true := by
  unfold pteIsLeaf at *
  rw [Nat.and_or_distrib_right]
  have hzero : pteUser &&& (pteRead ||| pteWrite ||| pteExec) = 0 := by decide
  rw [hzero, Nat.or_zero]
  exact h

/-- set_page and set_page_user -/
theorem Whole.setUser (h : Whole a root) (hleaf : pteIsLeaf flags = true)
    (hrun : setPage root va pa flags a = .ok (r, a') ∨ setPageUser root va pa flags a = .ok (r, a')) : Whole a' root := by
  cases hrun with
  | inl hrun =>
    obtain ⟨_, N, a₁, s, hs⟩ := setPage_slot h.wf hrun
    exact h.set hs (.inl hleaf)
  | inr hrun =>
    obtain ⟨_, N, a₁, s, hs⟩ := setPage_slot h.wf hrun
    exact h.set hs (.inl (pteIsLeaf_user hleaf))

/-- unset_user_pages -/
theorem Whole.unset (h : Whole a root) (hrun : unsetUserPages root a = .ok a') : Whole a' root := by
  obtain ⟨_, hpart⟩ := unsetUserPages_unset h.wf h.out
  obtain ⟨D, hu⟩ := hpart a' hrun
  have he := hu.emptied h.wf h.out
  refine ⟨he.wf, fun s hs => ?_, hu.flat h.wf.ok h.wf.tree h.out h.flat⟩
  obtain ⟨hold, hnot⟩ := (he.tables s).mp hs
  exact (he.shrinks.mem_page h.wf.ok).mpr ⟨h.out s hold, hnot⟩

/-- the tables that create_page_table and set_page, set_page_user make, whatever is done between the calls -/
inductive UserTable (root : Nat) : Mm → Prop
  | create {a a' : Mm} (hok : a.Ok) (hrun : createPageTable a = .ok (root, a')) : UserTable root a'
  | set {a a' : Mm} {va pa flags : Nat} {r : Int} (h : UserTable root a) (hva : va < splitAddr)
      (hleaf : pteIsLeaf flags = true)
      (hrun : setPage root va pa flags a = .ok (r, a') ∨ setPageUser root va pa flags a = .ok (r, a')) : UserTable root a'
  | other {a a' : Mm} (h : UserTable root a) (he : Elsewhere a a' root) : UserTable root a'

theorem UserTable.whole (h : UserTable root a) : Whole a root := by
  induction h with
  | create hok hrun => exact .create hok hrun
  | set h hva hleaf hrun ih => exact ih.setUser hleaf hrun
  | other _ he ih => exact ih.elsewhere he

/-- the tables under the user entries of the root -/
theorem mem_postorderFrom {m : Mem} : s ∈ postorderFrom m 1 root n 0 ↔ ∃ i < n, s ∈ below m 1 (entry m root i) := by
  unfold postorderFrom
  rw [← List.range_eq_range', List.mem_flatMap]
  simp only [List.mem_range, (postorderBelow_perm m 1 _).mem_iff]

theorem postorderFrom_nodup (ht : Tree m 2 root) (hn : n ≤ entryCount) : (postorderFrom m 1 root n 0).Nodup := by
  obtain ⟨heach, hdis⟩ := tree_succ.mp ht
  unfold postorderFrom
  rw [← List.range_eq_range', List.nodup_flatMap]
  refine ⟨fun i hi => ?_, List.Pairwise.imp_of_mem (fun {i j} hi hj hne => ?_) List.nodup_range⟩
  · have hi := List.mem_range.mp hi
    rw [(postorderBelow_perm m 1 _).nodup_iff]
    cases hp : pteInvalidOrLeaf (entry m root i) with
    | true =>
      rw [below_of_leaf hp]
      exact List.nodup_nil
    | false =>
      rw [below_of_pointer hp]
      exact ((treeBelow_of_pointer hp).mp (heach i (Nat.lt_of_lt_of_le hi hn)).1).nodup
  · have hi := Nat.lt_of_lt_of_le (List.mem_range.mp hi) hn
    have hj := Nat.lt_of_lt_of_le (List.mem_range.mp hj) hn
    intro s hsi hsj
    rw [(postorderBelow_perm m 1 _).mem_iff] at hsi hsj
    exact hdis i hi j hj hne hsi hsj

/-- **unset_user_pages clears user space and frees its tables.** -/
theorem unset_user_pages_exact (h : UserTable root a) : ∃ (a' : Mm) (l : List Nat), unsetUserPages root a = .ok a' ∧
    (∀ x, walk a'.mem 2 root x = if x % 2 ^ 39 < splitAddr then none else walk a.mem 2 root x) ∧
    unsetUserPages root a = runActs (unsetActs a.mem root userEntries 0) a ∧
    freed (unsetActs a.mem root userEntries 0) = l.map (fun s => { address := s, order := 0 }) ∧ l.Nodup ∧
    ∀ s, s ∈ l ↔ ∃ i < userEntries, s ∈ below a.mem 1 (entry a.mem root i) := by
  have hh := h.whole
  obtain ⟨htotal, hall⟩ := unsetUserPages_spec hh.wf hh.out
  obtain ⟨a', hrun⟩ := htotal hh.flat
  obtain ⟨D, hempty⟩ := hall a' hrun
  exact ⟨a', _, hrun, hempty.walk, unsetUserPages_acts hh.wf hh.out hh.flat, freed_unsetActs a.mem root userEntries 0,
    postorderFrom_nodup hh.wf.tree (by decide), fun s => mem_postorderFrom⟩

/-- a page is mapped in a new table, and taken away with the rest of user space -/
theorem unset_user_pages_exact_one : ∃ root a a' r, createPageTable (Mm.init fun _ => 0) = .ok (root, a) ∧
    setPageUser root 0x1000 0x80000000 (pteValid ||| pteRead) a = .ok (r, a') ∧
    walk a'.mem 2 root 0x1234 = some ⟨0x80000234, pteValid ||| pteRead ||| pteUser⟩ ∧
    ∃ a'', unsetUserPages root a' = .ok a'' ∧ walk a''.mem 2 root 0x1234 = none := by
  have hr : (Mm.init fun _ => 0).Room (2 + 1) := ⟨Mm.init_ok _, nofun, by decide⟩
  obtain ⟨root, a, hcreate⟩ := hr.createPageTable
  obtain ⟨hx, hw, _, _⟩ := createPageTable_spec hr.ok hcreate
  have hr₁ : a.Room (0 + 2) := hr.step hx (Nat.le_of_eq rfl)
  obtain ⟨r, a', hset⟩ : ∃ r a', setPageUser root 0x1000 0x80000000 (pteValid ||| pteRead) a = .ok (r, a') :=
    hr₁.setPage hw (by decide) (by decide)
  obtain ⟨_, N, a₁, s, hslot⟩ := setPage_slot hw hset
  have hlow : 0x1000 < splitAddr := by decide
  obtain ⟨a'', l, hrun, hwalk, _⟩ :=
    unset_user_pages_exact ((UserTable.create hr.ok hcreate).set hlow (by decide) (.inr hset))
  refine ⟨root, a, a', r, hcreate, hset, ?_, a'', hrun, ?_⟩
  · rw [hslot.translates hw (.inl (by decide)), if_pos (by decide)]
    rfl
  · rw [hwalk, if_pos (by decide)]

end FakeKernel
