import FakeKernel.Kernel.Mapped

/-!
# Looking up an area (vm_find, vm_find_stack)

* `AreaList`          a list of areas that is in order, with no address in two of them;
* `FindsArea`         what vm_find is for: the area that holds the address;
* `FindsStack`        what vm_find_stack is for: the stack area that follows the address;
* `vmFind_eq`, `vmFindStack_eq`   the loops are a search for the first area that passes a test;
* `area_lookup`       the test takes the end of an area for a part of it, and when that matters.
-/

namespace FakeKernel
open Heap

variable {h : Heap} {r : ListRef} {ns l₁ l₂ : List Nat} {n m x a node fuel : Nat}

/-- `vm_area_end_va` -/
def vmAreaEndVa (x : VmArea) : Nat := (x.va + (x.nPages <<< pageIndexBits) % wordCount) % wordCount

/-- the addresses of an area -/
def VmArea.Holds (x : VmArea) (va : Nat) : Prop := x.va ≤ va ∧ va < vmAreaEndVa x

/-- the address is the first one behind the area -/
def VmArea.EndsAt (x : VmArea) (va : Nat) : Prop := x.va ≤ va ∧ va = vmAreaEndVa x

theorem vmAreaIn_iff {x : VmArea} {va : Nat} : vmAreaIn x va = true ↔ x.Holds va ∨ x.EndsAt va := by
  unfold vmAreaIn VmArea.Holds VmArea.EndsAt vmAreaEndVa
  rw [Bool.and_eq_true, decide_eq_true_iff, decide_eq_true_iff]
  omega

theorem VmArea.EndsAt.not_holds {x : VmArea} {va : Nat} (he : x.EndsAt va) : ¬ x.Holds va :=
  fun hh => absurd he.2 (Nat.ne_of_lt hh.2)

/-- the nodes of a list of areas, in the order of their addresses -/
structure AreaList (h : Heap) (r : ListRef) (ns : List Nat) : Prop where
  chain : Chain (fun n => (h.node n).next) 0 (h.lists.list r).first ns
  word : ∀ n ∈ ns, n < wordCount
  area : ∀ n ∈ ns, (h.node n).value ≠ 0
  sorted : ns.Pairwise fun n m => (h.areaOf n).va ≤ (h.areaOf m).va
  disjoint : ns.Pairwise fun n m => ∀ x, ¬ ((h.areaOf n).Holds x ∧ (h.areaOf m).Holds x)

/-- `a` is the only area that holds `x`, or there is none and `a` is NULL -/
def FindsArea (h : Heap) (ns : List Nat) (x a : Nat) : Prop :=
  (∃ n ∈ ns, (h.areaOf n).Holds x ∧ a = (h.node n).value ∧ ∀ m ∈ ns, (h.areaOf m).Holds x → m = n) ∨
    (∀ n ∈ ns, ¬ (h.areaOf n).Holds x) ∧ a = 0

/-- no area holds `x`, and the first one above `x` is a stack -/
def GrowsTo (h : Heap) (ns : List Nat) (x n : Nat) : Prop :=
  (∀ m ∈ ns, ¬ (h.areaOf m).Holds x) ∧ ∃ l₁ l₂, ns = l₁ ++ n :: l₂ ∧ (∀ m ∈ l₁, ¬ x < (h.areaOf m).va) ∧
    x < (h.areaOf n).va ∧ (h.areaOf n).flags &&& vmStack ≠ 0

def FindsStack (h : Heap) (ns : List Nat) (x a : Nat) : Prop :=
  (∃ n, GrowsTo h ns x n ∧ a = (h.node n).value) ∨ (∀ n, ¬ GrowsTo h ns x n) ∧ a = 0

/-! ## the loops -/

theorem vmFindFrom_eq (hc : Chain (fun n => (h.node n).next) 0 node ns) (hfuel : ns.length < fuel) :
    h.vmFindFrom x fuel node = .ok (match ns.find? fun n => vmAreaIn (h.areaOf n) x with
      | some n => (h.node n).value
      | none => 0) := by
  induction ns generalizing node fuel with
  | nil =>
    cases fuel with
    | zero => exact absurd hfuel (Nat.not_lt_zero _)
    | succ fuel =>
      have hz : node = 0 := hc
      unfold Heap.vmFindFrom
      exact if_pos hz
  | cons n ns ih =>
    obtain ⟨rfl, hne, hc⟩ := hc
    cases fuel with
    | zero => exact absurd hfuel (Nat.not_lt_zero _)
    | succ fuel =>
      unfold Heap.vmFindFrom
      rw [if_neg hne, List.find?_cons]
      show (if vmAreaIn (h.areaOf node) x = true then _ else _) = _
      by_cases hin : vmAreaIn (h.areaOf node) x = true
      · rw [if_pos hin, hin]
      · rw [if_neg hin, Bool.eq_false_of_not_eq_true hin]
        exact ih hc (Nat.lt_of_succ_lt_succ hfuel)

theorem vmFindStackFrom_eq (hc : Chain (fun n => (h.node n).next) 0 node ns) (hfuel : ns.length < fuel) :
    h.vmFindStackFrom x fuel node = .ok
      (match ns.find? fun n => vmAreaIn (h.areaOf n) x || decide (x < (h.areaOf n).va) with
      | some n => if vmAreaIn (h.areaOf n) x then 0
        else if (h.areaOf n).flags &&& vmStack ≠ 0 then (h.node n).value else 0
      | none => 0) := by
  induction ns generalizing node fuel with
  | nil =>
    cases fuel with
    | zero => exact absurd hfuel (Nat.not_lt_zero _)
    | succ fuel =>
      have hz : node = 0 := hc
      unfold Heap.vmFindStackFrom
      exact if_pos hz
  | cons n ns ih =>
    obtain ⟨rfl, hne, hc⟩ := hc
    cases fuel with
    | zero => exact absurd hfuel (Nat.not_lt_zero _)
    | succ fuel =>
      unfold Heap.vmFindStackFrom
      rw [if_neg hne, List.find?_cons]
      show (if vmAreaIn (h.areaOf node) x = true then _ else if x < (h.areaOf node).va then _ else _) = _
      by_cases hin : vmAreaIn (h.areaOf node) x = true
      · rw [if_pos hin, hin]
        exact (congrArg _ (if_pos hin)).symm
      · rw [if_neg hin, Bool.eq_false_of_not_eq_true hin, Bool.false_or]
        by_cases hlt : x < (h.areaOf node).va
        · rw [if_pos hlt, decide_eq_true hlt]
          exact (congrArg _ (if_neg hin)).symm
        · rw [if_neg hlt, decide_eq_false hlt]
          exact ih hc (Nat.lt_of_succ_lt_succ hfuel)

namespace AreaList

theorem length_lt (hl : AreaList h r ns) : ns.length < wordCount :=
  hl.chain.length_lt (by decide) hl.word

theorem vmFind_eq (hl : AreaList h r ns) :
    h.vmFind r x = .ok (match ns.find? fun n => vmAreaIn (h.areaOf n) x with
      | some n => (h.node n).value
      | none => 0) :=
  vmFindFrom_eq hl.chain hl.length_lt

theorem vmFindStack_eq (hl : AreaList h r ns) :
    h.vmFindStack r x = .ok (match ns.find? fun n => vmAreaIn (h.areaOf n) x || decide (x < (h.areaOf n).va) with
      | some n => if vmAreaIn (h.areaOf n) x then 0
        else if (h.areaOf n).flags &&& vmStack ≠ 0 then (h.node n).value else 0
      | none => 0) :=
  vmFindStackFrom_eq hl.chain hl.length_lt

/-- no address is in two areas -/
theorem unique (hl : AreaList h r ns) (hn : n ∈ ns) (hm : m ∈ ns) (hx : (h.areaOf n).Holds x)
    (hx' : (h.areaOf m).Holds x) : m = n := by
  have hsymm : Std.Symm fun n m => ∀ x, ¬ ((h.areaOf n).Holds x ∧ (h.areaOf m).Holds x) :=
    ⟨fun _ _ hab x hx => hab x hx.symm⟩
  by_contra hne
  exact hl.disjoint.forall hm hn hne x ⟨hx', hx⟩

end AreaList

/-! ## what the loops find -/

/-- every area that ends at the address stands behind one that holds it; where no area holds it, none ends there -/
def EndsBehind (h : Heap) (ns : List Nat) (x : Nat) : Prop :=
  ∀ l₁ n l₂, ns = l₁ ++ n :: l₂ → (h.areaOf n).EndsAt x → ∃ m ∈ l₁, (h.areaOf m).Holds x

/-- the first area that passes the test holds the address -/
theorem EndsBehind.holds (hb : EndsBehind h ns x) (hns : ns = l₁ ++ n :: l₂)
    (hin : vmAreaIn (h.areaOf n) x = true) (hfirst : ∀ m ∈ l₁, ¬ vmAreaIn (h.areaOf m) x = true) :
    (h.areaOf n).Holds x := by
  cases vmAreaIn_iff.mp hin with
  | inl hx => exact hx
  | inr he =>
    obtain ⟨m, hm, hx⟩ := hb l₁ n l₂ hns he
    exact absurd (vmAreaIn_iff.mpr (.inl hx)) (hfirst m hm)

namespace AreaList

theorem findsArea (hl : AreaList h r ns) (hb : EndsBehind h ns x) :
    ∃ a, h.vmFind r x = .ok a ∧ FindsArea h ns x a := by
  refine ⟨_, hl.vmFind_eq, ?_⟩
  cases hf : ns.find? fun n => vmAreaIn (h.areaOf n) x with
  | none =>
    have hnone := List.find?_eq_none.mp hf
    exact .inr ⟨fun n hn hx => hnone n hn (vmAreaIn_iff.mpr (.inl hx)), rfl⟩
  | some n =>
    obtain ⟨hin, l₁, l₂, hns, hfirst⟩ := List.find?_eq_some_iff_append.mp hf
    have hn : n ∈ ns := hns ▸ List.mem_append_right _ List.mem_cons_self
    have hx := hb.holds hns hin fun m hm => by
      have hm := hfirst m hm
      rw [Bool.not_eq_true'] at hm
      exact Bool.not_eq_true _ ▸ hm
    exact .inl ⟨n, hn, hx, rfl, fun m hm hx' => hl.unique hn hm hx hx'⟩

/-- an area that ends at the address is found in the place of what holds it -/
theorem not_findsArea (hl : AreaList h r ns) (hb : ¬ EndsBehind h ns x) :
    ∃ a, h.vmFind r x = .ok a ∧ ¬ FindsArea h ns x a := by
  unfold EndsBehind at hb
  push Not at hb
  obtain ⟨l₁, n, l₂, hns, hend, hnot⟩ := hb
  refine ⟨_, hl.vmFind_eq, ?_⟩
  cases hf : ns.find? fun n => vmAreaIn (h.areaOf n) x with
  | none =>
    have hn : n ∈ ns := hns ▸ List.mem_append_right _ List.mem_cons_self
    exact absurd (vmAreaIn_iff.mpr (.inr hend)) (List.find?_eq_none.mp hf n hn)
  | some k =>
    obtain ⟨hin, k₁, k₂, hks, hfirst⟩ := List.find?_eq_some_iff_append.mp hf
    have hk : k ∈ ns := hks ▸ List.mem_append_right _ List.mem_cons_self
    -- the area that is found stands at or before `n`, so it does not hold the address
    have hnothold : ¬ (h.areaOf k).Holds x := by
      intro hx
      rw [hns, List.find?_append, List.find?_cons, vmAreaIn_iff.mpr (.inr hend)] at hf
      cases hl₁ : l₁.find? fun n => vmAreaIn (h.areaOf n) x with
      | none =>
        rw [hl₁, Option.none_or] at hf
        exact hend.not_holds (Option.some.inj hf ▸ hx)
      | some j =>
        rw [hl₁, Option.some_or] at hf
        exact hnot k (Option.some.inj hf ▸ List.mem_of_find?_eq_some hl₁) hx
    intro hfound
    cases hfound with
    | inl hsome =>
      obtain ⟨m, hm, hx, hv, _⟩ := hsome
      have hsame : h.areaOf k = h.areaOf m := by
        unfold Heap.areaOf
        exact congrArg h.area hv
      exact hnothold (hsame ▸ hx)
    | inr hnone => exact hl.area k hk hnone.2

theorem findsStack (hl : AreaList h r ns) (hb : EndsBehind h ns x) :
    ∃ a, h.vmFindStack r x = .ok a ∧ FindsStack h ns x a := by
  refine ⟨_, hl.vmFindStack_eq, ?_⟩
  cases hf : ns.find? fun n => vmAreaIn (h.areaOf n) x || decide (x < (h.areaOf n).va) with
  | none =>
    refine .inr ⟨fun n hg => ?_, rfl⟩
    obtain ⟨_, l₁, l₂, hns, _, hlt, _⟩ := hg
    have hn : n ∈ ns := hns ▸ List.mem_append_right _ List.mem_cons_self
    refine List.find?_eq_none.mp hf n hn ?_
    rw [decide_eq_true hlt, Bool.or_true]
  | some n =>
    obtain ⟨hp, l₁, l₂, hns, hfirst⟩ := List.find?_eq_some_iff_append.mp hf
    have hn : n ∈ ns := hns ▸ List.mem_append_right _ List.mem_cons_self
    have hbefore : ∀ m ∈ l₁, vmAreaIn (h.areaOf m) x = false ∧ ¬ x < (h.areaOf m).va := by
      intro m hm
      have hm := hfirst m hm
      rw [Bool.not_eq_true', Bool.or_eq_false_iff, decide_eq_false_iff_not] at hm
      exact hm
    show FindsStack h ns x (if vmAreaIn (h.areaOf n) x = true then 0 else _)
    by_cases hin : vmAreaIn (h.areaOf n) x = true
    · rw [if_pos hin]
      have hx := hb.holds hns hin fun m hm => by
        rw [(hbefore m hm).1]
        exact Bool.false_ne_true
      exact .inr ⟨fun k hg => hg.1 n hn hx, rfl⟩
    · rw [if_neg hin]
      rw [Bool.eq_false_of_not_eq_true hin, Bool.false_or, decide_eq_true_iff] at hp
      -- what stands behind begins above the address as well
      have hsorted := hl.sorted
      rw [hns, List.pairwise_append] at hsorted
      have hnone : ∀ m ∈ ns, ¬ (h.areaOf m).Holds x := by
        intro m hm hx
        rw [hns, List.mem_append] at hm
        cases hm with
        | inl hm =>
          have hnot := (hbefore m hm).1
          rw [vmAreaIn_iff.mpr (.inl hx)] at hnot
          exact nomatch hnot
        | inr hm =>
          cases List.mem_cons.mp hm with
          | inl he => exact absurd hp (Nat.not_lt.mpr (he ▸ hx.1))
          | inr hm =>
            have hle := (List.pairwise_cons.mp hsorted.2.1).1 m hm
            exact absurd (Nat.lt_of_lt_of_le hp hle) (Nat.not_lt.mpr hx.1)
      by_cases hs : (h.areaOf n).flags &&& vmStack ≠ 0
      · rw [if_pos hs]
        exact .inl ⟨n, ⟨hnone, l₁, l₂, hns, fun m hm => (hbefore m hm).2, hp, hs⟩, rfl⟩
      · rw [if_neg hs]
        refine .inr ⟨fun k hg => ?_, rfl⟩
        obtain ⟨_, k₁, k₂, hks, hk₁, hk, hflag⟩ := hg
        -- the first area above the address is `n`
        have hsome : ns.find? (fun n => decide (x < (h.areaOf n).va)) = some k := by
          refine List.find?_eq_some_iff_append.mpr ⟨decide_eq_true hk, k₁, k₂, hks, fun m hm => ?_⟩
          rw [decide_eq_false (hk₁ m hm)]
          rfl
        have hsome' : ns.find? (fun n => decide (x < (h.areaOf n).va)) = some n := by
          refine List.find?_eq_some_iff_append.mpr ⟨decide_eq_true hp, l₁, l₂, hns, fun m hm => ?_⟩
          rw [decide_eq_false (hbefore m hm).2]
          rfl
        rw [hsome] at hsome'
        exact hs (Option.some.inj hsome' ▸ hflag)

end AreaList

/-- vm_find and vm_find_stack find what they are for -/
structure LookupExact (h : Heap) (r : ListRef) (ns : List Nat) (x : Nat) : Prop where
  area : ∃ a, h.vmFind r x = .ok a ∧ FindsArea h ns x a
  stack : ∃ a, h.vmFindStack r x = .ok a ∧ FindsStack h ns x a

/-- **Looking up an area.**  Both lookups are exact at `x` exactly if every area that ends at `x` stands behind one
that holds `x`. -/
theorem area_lookup (hl : AreaList h r ns) : LookupExact h r ns x ↔ EndsBehind h ns x := by
  constructor
  · intro he
    by_contra hb
    obtain ⟨a, hrun, hnot⟩ := hl.not_findsArea hb
    obtain ⟨b, hrun', hfound⟩ := he.area
    rw [hrun] at hrun'
    exact hnot (Except.ok.inj hrun' ▸ hfound)
  · intro hb
    exact ⟨hl.findsArea hb, hl.findsStack hb⟩

/-! ## two areas that touch -/

/-- a page at 0x1000, and behind it a stack of one page -/
def adjacentHeap : Heap where
  mm := Mm.init fun _ => 0
  lists := { node := fun n => if n = 8 then { value := 16, list := some (.vmAreas 0), prev := 0, next := 24 }
               else { value := 32, list := some (.vmAreas 0), prev := 8, next := 0 }
             list := fun _ => { first := 8, last := 24 } }
  area := fun a => if a = 16 then { va := 0x1000, nPages := 1, refcount := 1, flags := vmRead }
    else { va := 0x2000, nPages := 1, refcount := 1, flags := vmRead ||| vmWrite ||| vmStack }
  task := fun _ => { pid := 1, parent := 0, sched := 0, kernelStack := 0, pageTable := 0, mode := .supervisor,
                     kernelFrame := .taskEntry, userFrame := { registers := fun _ => 0, pc := 0 } }
  nextTaskId := 2
  live := []
  blocks := []

theorem adjacentHeap_list : AreaList adjacentHeap (.vmAreas 0) [8, 24] where
  chain := ⟨rfl, by decide, rfl, by decide, rfl⟩
  word := by decide
  area := by decide
  sorted := by decide
  disjoint := by
    refine List.pairwise_pair.mpr fun x hx => ?_
    have hlt : x < 0x2000 := hx.1.2
    have hle : 0x2000 ≤ x := hx.2.1
    omega

/-- the second area is not found at its first address -/
theorem lookup_misses_adjacent : AreaList adjacentHeap (.vmAreas 0) [8, 24] ∧
    ¬ LookupExact adjacentHeap (.vmAreas 0) [8, 24] 0x2000 := by
  refine ⟨adjacentHeap_list, fun he => ?_⟩
  obtain ⟨a, hrun, hfound⟩ := he.area
  rw [adjacentHeap_list.vmFind_eq] at hrun
  have ha : 16 = a := Except.ok.inj hrun
  cases hfound with
  | inl hsome =>
    obtain ⟨n, hn, hx, hv, _⟩ := hsome
    have h8 : n = 8 := by
      by_contra hne
      have hval : (adjacentHeap.node n).value = 32 := congrArg ListNode.value (if_neg hne)
      omega
    rw [h8] at hx
    exact absurd hx.2 (by decide)
  | inr hnone => exact absurd (ha.trans hnone.2) (by decide)

theorem area_lookup_adjacent : LookupExact adjacentHeap (.vmAreas 0) [8, 24] 0x2000 ↔
    EndsBehind adjacentHeap [8, 24] 0x2000 :=
  area_lookup adjacentHeap_list

end FakeKernel
