import FakeKernel.Kernel.List

/-!
# Lists as sequences (kernel/list.h)

What the operations of list.h are for: a list is a sequence, which can be walked from both ends.

* `Mirrored`           a list that is linked both ways;
* `Mirrored.insertBefore`, `Mirrored.remove`   list_insert_before and list_remove keep the links;
* `Sequences`          the sequences, and the nodes that belong to none;
* `Implements`         the walks from `first` and from `last` agree with them;
* `ListOp.Clean`       where list_push and list_shift leave no stale link behind;
* `list_sequence`      the lists implement the sequences exactly as long as they do not.
-/

namespace FakeKernel

variable {L L' : Lists} {r r' : ListRef} {l l' l₁ l₂ : List Nat} {n m pos : Nat}

/-! ## lists that are linked both ways -/

structure Lists.Mirrored (L : Lists) (r : ListRef) (l : List Nat) : Prop where
  queue : L.Queue r l
  prev : Chain (fun n => (L.node n).prev) 0 (L.list r).last l.reverse

theorem Lists.Mirrored.push (hm : L.Mirrored r l) (h0 : n ≠ 0) (hnot : n ∉ l) (hnext : (L.node n).next = 0) :
    (L.listPush r n).Mirrored r (l ++ [n]) where
  queue := hm.queue.push h0 hnot hnext
  prev := by
    have hlast : ((L.listPush r n).list r).last = n := by
      rw [Lists.list_listPush, if_pos rfl]
    have hself : ((L.listPush r n).node n).prev = (L.list r).last := by
      rw [Lists.prev_listPush h0, if_pos rfl]
    rw [hlast, List.reverse_append, List.reverse_singleton, List.singleton_append]
    refine ⟨rfl, h0, ?_⟩
    show Chain _ 0 ((L.listPush r n).node n).prev _
    rw [hself]
    refine hm.prev.congr fun m hin => ?_
    have hmn : m ≠ n := fun e => hnot (e ▸ List.mem_reverse.mp hin)
    rw [Lists.prev_listPush h0, if_neg hmn]

theorem Lists.Mirrored.closed (hm : L.Mirrored r l) : L.Closed (fun m => m ∈ l) r where
  first := by
    have hc := hm.queue.chain
    cases l with
    | nil => exact .inl hc
    | cons m l => exact .inr (hc.1 ▸ List.mem_cons_self)
  last := by
    by_cases h0 : (L.list r).last = 0
    · exact .inl h0
    · exact .inr (hm.queue.last_mem h0)
  next := fun m hin => (hm.queue.chain.next_mem hin).symm.imp_left And.left
  prev := by
    intro m hin
    cases hm.prev.next_mem (List.mem_reverse.mpr hin) with
    | inl hp => exact .inr (List.mem_reverse.mp hp)
    | inr h0 => exact .inl h0.1

namespace Lists

/-! ## list_remove -/

/-- `node->list == NULL` means that the node is in no list -/
theorem listRemove_of_owner (ho : (L.node n).list = some r) : L.listRemove n =
    let L := L.setPrev (L.node n).next (L.node n).prev
    let L := L.setNext (L.node n).prev (L.node n).next
    let L := L.moveFirst r n (L.node n).next
    L.moveLast r n (L.node n).prev := by
  unfold listRemove
  rw [ho]

theorem next_listRemove (ho : (L.node n).list = some r) (hn : (L.node n).next ≠ n) :
    ((L.listRemove n).node m).next = if m = (L.node n).prev ∧ m ≠ 0 then (L.node n).next else (L.node m).next := by
  rw [listRemove_of_owner ho]
  simp [Ne.symm hn]

theorem prev_listRemove (ho : (L.node n).list = some r) :
    ((L.listRemove n).node m).prev = if m = (L.node n).next ∧ m ≠ 0 then (L.node n).prev else (L.node m).prev := by
  rw [listRemove_of_owner ho]
  simp

theorem owner_listRemove (ho : (L.node n).list = some r) : ((L.listRemove n).node m).list = (L.node m).list := by
  rw [listRemove_of_owner ho]
  simp

theorem value_listRemove (ho : (L.node n).list = some r) : ((L.listRemove n).node m).value = (L.node m).value := by
  rw [listRemove_of_owner ho]
  simp

theorem list_listRemove (ho : (L.node n).list = some r) (hn : (L.node n).next ≠ n) (hp : (L.node n).prev ≠ n) :
    (L.listRemove n).list r' = if r' = r then
      { first := if (L.list r).first = n then (L.node n).next else (L.list r).first
        last := if (L.list r).last = n then (L.node n).prev else (L.list r).last }
    else L.list r' := by
  rw [listRemove_of_owner ho]
  by_cases hf : (L.list r).first = n <;> by_cases hl : (L.list r).last = n <;> by_cases hr : r' = r <;>
    simp [hf, hl, hr, Ne.symm hn, Ne.symm hp]

/-! ## the links of a list that is linked both ways -/

namespace Mirrored

theorem congr (hm : L.Mirrored r l) (hr : L'.list r = L.list r) (hn : ∀ n ∈ l, L'.node n = L.node n) : L'.Mirrored r l where
  queue := hm.queue.congr hr fun n hl => by
    rw [hn n hl]
    exact ⟨rfl, rfl⟩
  prev := by
    rw [hr]
    refine hm.prev.congr fun n hl => ?_
    rw [hn n (List.mem_reverse.mp hl)]

theorem ne_zero (hm : L.Mirrored r l) (hn : n ∈ l) : n ≠ 0 := hm.queue.chain.ne_null hn

/-- what lies behind a member -/
theorem after (hm : L.Mirrored r (l₁ ++ n :: l₂)) : Chain (fun n => (L.node n).next) 0 (L.node n).next l₂ :=
  hm.queue.chain.after

/-- what lies before a member -/
theorem before (hm : L.Mirrored r (l₁ ++ n :: l₂)) : Chain (fun n => (L.node n).prev) 0 (L.node n).prev l₁.reverse := by
  have hp := hm.prev
  rw [List.reverse_append, List.reverse_cons, List.append_assoc] at hp
  exact hp.after

/-- a member that is not the last one -/
theorem last_ne (hm : L.Mirrored r (l₁ ++ n :: l₂)) (hl : l₂ ≠ []) : (L.list r).last ≠ n := by
  have hp := hm.prev
  rw [List.reverse_append, List.reverse_cons, List.append_assoc] at hp
  exact hp.start_ne (List.reverse_ne_nil_iff.mpr hl)

theorem not_mem (hm : L.Mirrored r (l₁ ++ n :: l₂)) : n ∉ l₁ ∧ n ∉ l₂ := by
  have hnd := hm.queue.chain.nodup
  rw [List.nodup_middle, List.nodup_cons, List.mem_append, not_or] at hnd
  exact hnd.1

theorem next_ne (hm : L.Mirrored r (l₁ ++ n :: l₂)) : (L.node n).next ≠ n := by
  intro e
  have hc := hm.after
  rw [e] at hc
  cases l₂ with
  | nil => exact hm.ne_zero (List.mem_append_right l₁ List.mem_cons_self) hc
  | cons d t => exact hm.not_mem.2 (hc.1 ▸ List.mem_cons_self)

theorem prev_mem (hm : L.Mirrored r (l₁ ++ n :: l₂)) : (L.node n).prev = 0 ∨ (L.node n).prev ∈ l₁ := by
  have hc := hm.before
  cases hl : l₁.reverse with
  | nil =>
    rw [hl] at hc
    exact .inl hc
  | cons c t =>
    rw [hl] at hc
    refine .inr ?_
    rw [hc.1, ← List.mem_reverse, hl]
    exact List.mem_cons_self

theorem prev_ne (hm : L.Mirrored r (l₁ ++ n :: l₂)) : (L.node n).prev ≠ n := by
  intro e
  cases hm.prev_mem with
  | inl h0 => exact hm.ne_zero (List.mem_append_right l₁ List.mem_cons_self) (e.symm.trans h0)
  | inr hin => exact hm.not_mem.1 (e ▸ hin)

theorem insertBefore (hm : L.Mirrored r (l₁ ++ pos :: l₂)) (h0 : n ≠ 0) (hnot : n ∉ l₁ ++ pos :: l₂) :
    (L.listInsertBefore r n pos).Mirrored r (l₁ ++ n :: pos :: l₂) := by
  have hposin : pos ∈ l₁ ++ pos :: l₂ := List.mem_append_right l₁ List.mem_cons_self
  have hpos0 : pos ≠ 0 := hm.ne_zero hposin
  have hne : n ≠ pos := fun e => hnot (e ▸ hposin)
  have hnext : ∀ m, m ≠ n → ¬ (m = (L.node pos).prev ∧ m ≠ 0) →
      ((L.listInsertBefore r n pos).node m).next = (L.node m).next := by
    intro m hmn hmp
    rw [next_listInsertBefore h0 hne, if_neg hmp, if_neg hmn]
  have hself : n ≠ (L.node pos).prev := by
    intro e
    cases hm.prev_mem with
    | inl hz => exact h0 (e.trans hz)
    | inr hin => exact hnot (List.mem_append_left _ (e ▸ hin))
  have hnew : ((L.listInsertBefore r n pos).node n).next = pos := by
    rw [next_listInsertBefore h0 hne, if_neg fun e => hself e.1, if_pos rfl]
  have hmem : ∀ m ∈ l₁ ++ pos :: l₂, m ≠ n := fun m hin e => hnot (e ▸ hin)
  refine ⟨⟨?_, ?_, fun m hin => ?_⟩, ?_⟩
  · have hc := hm.queue.chain
    have hb := hm.before
    rw [list_listInsertBefore, if_pos rfl]
    rcases List.eq_nil_or_concat' l₁ with rfl | ⟨s, c, rfl⟩
    · have hfirst : (L.list r).first = pos := hc.1
      have hprev : (L.node pos).prev = 0 := hb
      simp only [hfirst, if_true]
      rw [hfirst] at hc
      refine hc.push h0 hnew fun m hin => hnext m (hmem m hin) fun e => e.2 (e.1.trans hprev)
    · have hprev : (L.node pos).prev = c := by
        rw [List.reverse_concat] at hb
        exact hb.1
      have hfirst : (L.list r).first ≠ pos := hc.start_ne (List.concat_ne_nil c s)
      simp only [hfirst, if_false]
      rw [List.append_assoc, List.singleton_append] at hc hm hmem ⊢
      have hc0 : c ≠ 0 := hm.ne_zero (List.mem_append_right s List.mem_cons_self)
      refine hc.insertAfter h0 ?_ ?_ fun m hin hmc => hnext m (hmem m hin) fun e => hmc (e.1.trans hprev)
      · show ((L.listInsertBefore r n pos).node c).next = n
        rw [next_listInsertBefore h0 hne, if_pos ⟨hprev.symm, hc0⟩]
      · exact hnew.trans hm.after.1.symm
  · rw [list_listInsertBefore, if_pos rfl]
    refine hm.queue.last.trans ?_
    simp
  · rw [owner_listInsertBefore]
    by_cases hmn : m = n
    · rw [if_pos hmn]
    · rw [if_neg hmn]
      refine hm.queue.owner m ?_
      cases List.mem_append.mp hin with
      | inl h1 => exact List.mem_append_left _ h1
      | inr h2 => exact List.mem_append_right l₁ ((List.mem_cons.mp h2).resolve_left hmn)
  · have hp := hm.prev
    rw [list_listInsertBefore, if_pos rfl]
    rw [List.reverse_append, List.reverse_cons, List.append_assoc, List.singleton_append] at hp
    rw [List.reverse_append, List.reverse_cons, List.reverse_cons, List.append_assoc, List.append_assoc,
      List.singleton_append, List.singleton_append]
    refine hp.insertAfter h0 ?_ ?_ fun m hin hmp => ?_
    · show ((L.listInsertBefore r n pos).node pos).prev = n
      rw [prev_listInsertBefore h0 hpos0, if_pos rfl]
    · show ((L.listInsertBefore r n pos).node n).prev = (L.node pos).prev
      rw [prev_listInsertBefore h0 hpos0, if_neg hne, if_pos rfl]
    · have hmn : m ≠ n := by
        refine hmem m ?_
        rw [List.mem_append, List.mem_reverse, List.mem_cons, List.mem_reverse] at hin
        rw [List.mem_append, List.mem_cons]
        tauto
      show ((L.listInsertBefore r n pos).node m).prev = (L.node m).prev
      rw [prev_listInsertBefore h0 hpos0, if_neg hmp, if_neg hmn]

theorem remove (hm : L.Mirrored r (l₁ ++ n :: l₂)) : (L.listRemove n).Mirrored r (l₁ ++ l₂) := by
  have hin : n ∈ l₁ ++ n :: l₂ := List.mem_append_right l₁ List.mem_cons_self
  have ho : (L.node n).list = some r := hm.queue.owner n hin
  have hc := hm.queue.chain
  have hp := hm.prev
  have hb := hm.before
  have ha := hm.after
  have hne := hm.next_ne
  have hnext : ∀ m, m ≠ (L.node n).prev → ((L.listRemove n).node m).next = (L.node m).next := by
    intro m hmp
    rw [next_listRemove ho hm.next_ne, if_neg fun e => hmp e.1]
  have hprev : ∀ m, m ≠ (L.node n).next → ((L.listRemove n).node m).prev = (L.node m).prev := by
    intro m hmp
    rw [prev_listRemove ho, if_neg fun e => hmp e.1]
  have hlist : (L.listRemove n).list r = _ := list_listRemove ho hm.next_ne hm.prev_ne
  rw [if_pos rfl] at hlist
  have hmem : ∀ m, m ∈ l₁ ++ l₂ → m ∈ l₁ ++ n :: l₂ := fun m hin => by
    rw [List.mem_append] at hin ⊢
    exact hin.imp_right (List.mem_cons_of_mem n)
  refine ⟨⟨?_, ?_, fun m hin => ?_⟩, ?_⟩
  · rcases List.eq_nil_or_concat' l₁ with rfl | ⟨s, c, rfl⟩
    · have hfirst : (L.list r).first = n := hc.1
      have hzero : (L.node n).prev = 0 := hb
      rw [hlist, if_pos hfirst]
      refine ha.congr fun m hin => hnext m fun e => ?_
      exact hm.ne_zero (hmem m hin) (e.trans hzero)
    · have hpc : (L.node n).prev = c := by
        rw [List.reverse_concat] at hb
        exact hb.1
      have hfirst : (L.list r).first ≠ n := hc.start_ne (List.concat_ne_nil c s)
      rw [hlist, if_neg hfirst]
      rw [List.append_assoc, List.singleton_append] at hc hm ⊢
      have hc0 : c ≠ 0 := hm.ne_zero (List.mem_append_right s List.mem_cons_self)
      refine hc.skip ?_ fun m _ hmc => hnext m fun e => hmc (e.trans hpc)
      show ((L.listRemove n).node c).next = (L.node n).next
      rw [next_listRemove ho hne, if_pos ⟨hpc.symm, hc0⟩]
  · cases l₂ with
    | nil =>
      have hlast : (L.list r).last = n := hp.head_eq.trans (by simp)
      rw [hlist, if_pos hlast, List.append_nil]
      exact hb.head_eq.trans (by rw [List.head?_reverse])
    | cons d t =>
      rw [hlist, if_neg (hm.last_ne (List.cons_ne_nil d t))]
      exact hm.queue.last.trans (by simp)
  · rw [owner_listRemove ho]
    exact hm.queue.owner m (hmem m hin)
  · cases l₂ with
    | nil =>
      have hlast : (L.list r).last = n := hp.head_eq.trans (by simp)
      have hzero : (L.node n).next = 0 := ha
      rw [hlist, if_pos hlast, List.append_nil]
      refine hb.congr fun m hin => hprev m fun e => ?_
      exact hm.ne_zero (List.mem_append_left _ (List.mem_reverse.mp hin)) (e.trans hzero)
    | cons d t =>
      have hnd : (L.node n).next = d := ha.1
      have hd0 : d ≠ 0 := ha.2.1
      rw [List.reverse_append, List.reverse_cons, List.reverse_cons, List.append_assoc, List.append_assoc,
        List.singleton_append, List.singleton_append] at hp
      rw [List.reverse_append, List.reverse_cons, List.append_assoc, List.singleton_append]
      rw [hlist, if_neg (hm.last_ne (List.cons_ne_nil d t))]
      refine hp.skip ?_ fun m _ hmd => hprev m fun e => hmd (e.trans hnd)
      show ((L.listRemove n).node d).prev = (L.node n).prev
      rw [prev_listRemove ho, if_pos ⟨hnd.symm, hd0⟩]

/-- taking the only node -/
theorem shift (hm : L.Mirrored r [n]) : (L.listShift r).2.Mirrored r [] where
  queue := hm.queue.shift
  prev := by
    have hq := hm.queue.shift.last
    exact hq

end Mirrored

/-! ## what the operations leave alone -/

theorem node_listPush (h0 : n ≠ 0) (hmn : m ≠ n) (hlast : ¬ (m = (L.list r).last ∧ m ≠ 0)) :
    (L.listPush r n).node m = L.node m := by
  rw [ListNode.ext_iff, value_listPush, owner_listPush, prev_listPush h0, next_listPush, if_neg hmn, if_neg hmn,
    if_neg hlast]
  exact ⟨rfl, rfl, rfl, rfl⟩

theorem node_listInsertBefore (h0 : n ≠ 0) (hpos : pos ≠ 0) (hne : n ≠ pos) (hmn : m ≠ n) (hmp : m ≠ pos)
    (hprev : ¬ (m = (L.node pos).prev ∧ m ≠ 0)) : (L.listInsertBefore r n pos).node m = L.node m := by
  rw [ListNode.ext_iff, value_listInsertBefore, owner_listInsertBefore, prev_listInsertBefore h0 hpos,
    next_listInsertBefore h0 hne, if_neg hmn, if_neg hmp, if_neg hmn, if_neg hprev, if_neg hmn]
  exact ⟨rfl, rfl, rfl, rfl⟩

theorem prev_listShift : ((L.listShift r).2.node m).prev = (L.node m).prev := by
  unfold listShift
  by_cases h : (L.list r).first = 0 <;> simp [h]

theorem node_listShift (hm : m ≠ (L.list r).first) : (L.listShift r).2.node m = L.node m := by
  by_cases hn : (L.list r).first = 0
  · rw [listShift_of_empty hn]
  · rw [ListNode.ext_iff, value_listShift, owner_listShift hn, prev_listShift, next_listShift hn, if_neg hm, if_neg hm]
    exact ⟨rfl, rfl, rfl, rfl⟩

theorem node_listRemove (ho : (L.node n).list = some r) (hne : (L.node n).next ≠ n)
    (hnext : ¬ (m = (L.node n).next ∧ m ≠ 0)) (hprev : ¬ (m = (L.node n).prev ∧ m ≠ 0)) :
    (L.listRemove n).node m = L.node m := by
  rw [ListNode.ext_iff, value_listRemove ho, owner_listRemove ho, prev_listRemove ho, next_listRemove ho hne,
    if_neg hnext, if_neg hprev]
  exact ⟨rfl, rfl, rfl, rfl⟩

/-- `list_empty` -/
def listEmpty (r : ListRef) (L : Lists) : Bool := (L.list r).first == 0

end Lists

/-! ## sequences -/

/-- the sequences, and the nodes that are in none of them -/
structure Sequences where
  seq : ListRef → List Nat
  detached : Set Nat

def Sequences.set (r : ListRef) (l : List Nat) (D : Set Nat) (S : Sequences) : Sequences :=
  { seq := Function.update S.seq r l, detached := D }

/-- the walks over the lists agree with the sequences -/
structure Implements (L : Lists) (S : Sequences) : Prop where
  forward : ∀ r, Chain (fun n => (L.node n).next) 0 (L.list r).first (S.seq r)
  backward : ∀ r, Chain (fun n => (L.node n).prev) 0 (L.list r).last (S.seq r).reverse
  empty : ∀ r, L.listEmpty r = true ↔ S.seq r = []

/-- list_node_create leaves `list` as it finds it in memory -/
inductive ListOp where
  | create (n value : Nat) (list : Option ListRef)
  | push (r : ListRef) (n : Nat)
  | insertBefore (r : ListRef) (n pos : Nat)
  | shift (r : ListRef)
  | remove (r : ListRef) (n : Nat)

/-- `n` in front of `pos` -/
def insertBefore (n pos : Nat) : List Nat → List Nat
  | [] => []
  | m :: l => if m = pos then n :: m :: l else m :: insertBefore n pos l

namespace ListOp

def run : ListOp → Lists → Lists
  | .create n value list, L => L.setNode n { value := value, list := list, prev := 0, next := 0 }
  | .push r n, L => L.listPush r n
  | .insertBefore r n pos, L => L.listInsertBefore r n pos
  | .shift r, L => (L.listShift r).2
  | .remove _ n, L => L.listRemove n

def apply : ListOp → Sequences → Sequences
  | .create n _ _, S => { S with detached := insert n S.detached }
  | .push r n, S => S.set r (S.seq r ++ [n]) (S.detached \ {n})
  | .insertBefore r n pos, S => S.set r (FakeKernel.insertBefore n pos (S.seq r)) (S.detached \ {n})
  | .shift r, S => S.set r (S.seq r).tail (S.detached ∪ {n | (S.seq r).head? = some n})
  | .remove r n, S => S.set r ((S.seq r).erase n) (insert n S.detached)

/-- new nodes lie in memory that no list uses; only detached nodes are added, only linked ones removed -/
def Legal : ListOp → Sequences → Prop
  | .create n _ _, S => n ≠ 0 ∧ ∀ r, n ∉ S.seq r
  | .push _ n, S => n ∈ S.detached
  | .insertBefore r n pos, S => n ∈ S.detached ∧ pos ∈ S.seq r
  | .shift _, _ => True
  | .remove r n, S => n ∈ S.seq r

/-- the nodes that are in the list before or after, or the new node -/
def members : ListOp → Sequences → Set Nat
  | .create n _ _, _ => {n}
  | .push r n, S => {m | m ∈ S.seq r ∨ m = n}
  | .insertBefore r n _, S => {m | m ∈ S.seq r ∨ m = n}
  | .shift r, S => {m | m ∈ S.seq r}
  | .remove r _, S => {m | m ∈ S.seq r}

/-- the appended node leads nowhere; the list that is shifted has one node at most -/
def Clean : ListOp → Lists → Prop
  | .push _ n, L => (L.node n).next = 0
  | .shift r, L => (L.list r).first = (L.list r).last
  | _, _ => True

end ListOp

/-! ## steps -/

/-- every list is linked both ways, and no node is in two lists -/
structure Sequenced (L : Lists) (S : Sequences) : Prop where
  mirrored : ∀ r, L.Mirrored r (S.seq r)
  apart : ∀ r r', r ≠ r' → (S.seq r).Disjoint (S.seq r')
  detached : ∀ n ∈ S.detached, n ≠ 0 ∧ ∀ r, n ∉ S.seq r

namespace Sequenced
variable {S : Sequences} {D : Set Nat} {op : ListOp}

theorem implements (h : Sequenced L S) : Implements L S where
  forward := fun r => (h.mirrored r).queue.chain
  backward := fun r => (h.mirrored r).prev
  empty := fun r => by
    have hc := (h.mirrored r).queue.chain
    unfold Lists.listEmpty
    rw [beq_iff_eq]
    constructor
    · intro h0
      rw [h0] at hc
      exact hc.of_null
    · intro hl
      rw [hl] at hc
      exact hc

/-- one list becomes another one -/
theorem set (h : Sequenced L S) (hm : L'.Mirrored r l) (hlist : ∀ r', r' ≠ r → L'.list r' = L.list r')
    (hnode : ∀ m, m ∉ S.seq r → m ∉ l → L'.node m = L.node m) (hl : ∀ m ∈ l, m ∈ S.seq r ∨ m ∈ S.detached)
    (hD : ∀ m ∈ D, m ∉ l ∧ (m ∈ S.seq r ∨ m ∈ S.detached)) : Sequenced L' (S.set r l D) := by
  have hother : ∀ r', r' ≠ r → ∀ m ∈ S.seq r', m ∉ S.seq r ∧ m ∉ l := by
    intro r' hr m hin
    have hm1 : m ∉ S.seq r := fun hin' => h.apart r' r hr hin hin'
    exact ⟨hm1, fun hml => (hl m hml).elim hm1 fun hd => (h.detached m hd).2 r' hin⟩
  have hself : (S.set r l D).seq r = l := Function.update_self _ _ _
  have hrest : ∀ r', r' ≠ r → (S.set r l D).seq r' = S.seq r' := fun r' hr => Function.update_of_ne hr _ _
  refine ⟨fun r' => ?_, fun r₁ r₂ hr => ?_, fun m hin => ?_⟩
  · by_cases hr : r' = r
    · rw [hr, hself]
      exact hm
    · rw [hrest r' hr]
      exact (h.mirrored r').congr (hlist r' hr) fun m hin => hnode m (hother r' hr m hin).1 (hother r' hr m hin).2
  · by_cases h1 : r₁ = r
    · have h2 : r₂ ≠ r := fun e => hr (h1.trans e.symm)
      rw [h1, hself, hrest r₂ h2]
      exact fun m hin hin' => (hother r₂ h2 m hin').2 hin
    · rw [hrest r₁ h1]
      by_cases h2 : r₂ = r
      · rw [h2, hself]
        exact fun m hin hin' => (hother r₁ h1 m hin).2 hin'
      · rw [hrest r₂ h2]
        exact h.apart r₁ r₂ hr
  · obtain ⟨hnot, hold⟩ := hD m hin
    refine ⟨hold.elim (h.mirrored r).ne_zero fun hd => (h.detached m hd).1, fun r' => ?_⟩
    by_cases hr : r' = r
    · rw [hr, hself]
      exact hnot
    · rw [hrest r' hr]
      exact fun hin' => hold.elim (fun ho => h.apart r' r hr hin' ho) fun hd => (h.detached m hd).2 r' hin'

end Sequenced

/-- list_insert_before puts the node in front of `pos` -/
theorem insertBefore_split (hpos : pos ∉ l₁) : insertBefore n pos (l₁ ++ pos :: l₂) = l₁ ++ n :: pos :: l₂ := by
  induction l₁ with
  | nil => exact if_pos rfl
  | cons m l₁ ih =>
    have hm : m ≠ pos := fun e => hpos (e ▸ List.mem_cons_self)
    show (if m = pos then _ else m :: insertBefore n pos (l₁ ++ pos :: l₂)) = _
    rw [if_neg hm, ih fun hin => hpos (List.mem_cons_of_mem m hin)]
    rfl

theorem mem_split (hm : L.Mirrored r l) (hin : n ∈ l) : ∃ l₁ l₂, l = l₁ ++ n :: l₂ ∧ n ∉ l₁ := by
  obtain ⟨l₁, l₂, rfl⟩ := List.mem_iff_append.mp hin
  exact ⟨l₁, l₂, rfl, hm.not_mem.1⟩

namespace Sequenced
variable {S : Sequences} {op : ListOp}

/-- no operation writes to a node that is not in the list -/
theorem frame (op : ListOp) (h : Sequenced L S) (hl : op.Legal S) (hm : m ∉ op.members S) : (op.run L).node m = L.node m := by
  cases op with
  | create n value list =>
    show (L.setNode n _).node m = L.node m
    exact Function.update_of_ne (show m ≠ n from hm) _ _
  | push r n =>
    have hm : ¬ (m ∈ S.seq r ∨ m = n) := hm
    have hlast : ¬ (m = (L.list r).last ∧ m ≠ 0) := fun ⟨e, h0⟩ =>
      hm (.inl (e ▸ (h.mirrored r).queue.last_mem (e ▸ h0)))
    exact Lists.node_listPush (h.detached n hl).1 (fun e => hm (.inr e)) hlast
  | insertBefore r n pos =>
    have hm : ¬ (m ∈ S.seq r ∨ m = n) := hm
    obtain ⟨hn, hpos⟩ := hl
    obtain ⟨h0, hnot⟩ := h.detached n hn
    have hmir := h.mirrored r
    obtain ⟨l₁, l₂, hseq, _⟩ := mem_split hmir hpos
    refine Lists.node_listInsertBefore h0 (hmir.ne_zero hpos) (fun e => hnot r (e ▸ hpos)) (fun e => hm (.inr e))
      (fun e => hm (.inl (e ▸ hpos))) fun ⟨e, hm0⟩ => hm (.inl ?_)
    rw [hseq] at hmir ⊢
    exact List.mem_append_left _ (e ▸ hmir.prev_mem.resolve_left (e ▸ hm0))
  | shift r =>
    have hm : m ∉ S.seq r := hm
    cases hs : S.seq r with
    | nil =>
      have hq := (h.mirrored r).queue
      rw [hs] at hq
      show (L.listShift r).2.node m = L.node m
      rw [hq.shift_nil]
    | cons n l =>
      have hq := (h.mirrored r).queue
      rw [hs] at hq hm
      exact Lists.node_listShift fun e => hm (e.trans hq.first_eq ▸ List.mem_cons_self)
  | remove r n =>
    have hm : m ∉ S.seq r := hm
    have hmir := h.mirrored r
    obtain ⟨l₁, l₂, hseq, _⟩ := mem_split hmir hl
    have ho := hmir.queue.owner n hl
    rw [hseq] at hmir hm
    refine Lists.node_listRemove ho hmir.next_ne (fun ⟨e, hm0⟩ => hm ?_) fun ⟨e, hm0⟩ => hm ?_
    · rw [e] at hm0 ⊢
      have ha := hmir.after
      cases l₂ with
      | nil => exact absurd ha hm0
      | cons d t =>
        rw [ha.1]
        exact List.mem_append_right l₁ (List.mem_cons_of_mem n List.mem_cons_self)
    · exact List.mem_append_left _ (e ▸ hmir.prev_mem.resolve_left (e ▸ hm0))

/-- a clean step does to the lists what it does to the sequences -/
theorem step (op : ListOp) (h : Sequenced L S) (hl : op.Legal S) (hc : op.Clean L) : Sequenced (op.run L) (op.apply S) := by
  cases op with
  | create n value list =>
    obtain ⟨h0, hnot⟩ := hl
    refine ⟨fun r => (h.mirrored r).congr rfl fun m hm => ?_, h.apart, fun m hm => ?_⟩
    · have hmn : m ≠ n := fun e => hnot r (e ▸ hm)
      exact Function.update_of_ne hmn _ _
    · cases Set.mem_insert_iff.mp hm with
      | inl he =>
        rw [he]
        exact ⟨h0, hnot⟩
      | inr hd => exact h.detached m hd
  | push r n =>
    obtain ⟨h0, hnot⟩ := h.detached n hl
    refine h.set ((h.mirrored r).push h0 (hnot r) hc) (fun r' hr => ?_) (fun m hm hm' => ?_) (fun m hm => ?_) fun m hm => ?_
    · show (L.listPush r n).list r' = L.list r'
      rw [Lists.list_listPush, if_neg hr]
    · refine h.frame (.push r n) hl fun e => ?_
      cases (show m ∈ S.seq r ∨ m = n from e) with
      | inl hin => exact hm hin
      | inr he => exact hm' (he ▸ List.mem_append_right _ List.mem_cons_self)
    · cases List.mem_append.mp hm with
      | inl hin => exact .inl hin
      | inr hin =>
        rw [List.mem_singleton.mp hin]
        exact .inr hl
    · refine ⟨fun hin => ?_, .inr hm.1⟩
      exact (List.mem_append.mp hin).elim ((h.detached m hm.1).2 r) fun e => hm.2 (List.mem_singleton.mp e)
  | insertBefore r n pos =>
    obtain ⟨hn, hpos⟩ := hl
    obtain ⟨h0, hnot⟩ := h.detached n hn
    have hmir := h.mirrored r
    obtain ⟨l₁, l₂, hseq, hl₁⟩ := mem_split hmir hpos
    have hnot' := hnot r
    rw [hseq] at hmir hnot'
    have hins : insertBefore n pos (S.seq r) = l₁ ++ n :: pos :: l₂ := hseq ▸ insertBefore_split hl₁
    have hmem : ∀ m, m ∈ l₁ ++ n :: pos :: l₂ ↔ m ∈ S.seq r ∨ m = n := by
      intro m
      rw [hseq, List.mem_append, List.mem_append, List.mem_cons]
      tauto
    show Sequenced _ (S.set r (insertBefore n pos (S.seq r)) _)
    rw [hins]
    refine h.set (hmir.insertBefore h0 hnot') (fun r' hr => ?_) (fun m hm hm' => ?_) (fun m hm => ?_) fun m hm => ?_
    · show (L.listInsertBefore r n pos).list r' = L.list r'
      rw [Lists.list_listInsertBefore, if_neg hr]
    · exact h.frame (.insertBefore r n pos) ⟨hn, hpos⟩ fun e => hm' ((hmem m).mpr e)
    · cases (hmem m).mp hm with
      | inl hin => exact .inl hin
      | inr he => exact .inr (he ▸ hn)
    · exact ⟨fun hin => ((hmem m).mp hin).elim ((h.detached m hm.1).2 r) hm.2, .inr hm.1⟩
  | shift r =>
    have hmir := h.mirrored r
    have hc : (L.list r).first = (L.list r).last := hc
    show Sequenced (L.listShift r).2 (S.set r (S.seq r).tail (S.detached ∪ {n | (S.seq r).head? = some n}))
    cases hs : S.seq r with
    | nil =>
      rw [hs] at hmir
      refine h.set ?_ (fun r' _ => ?_) (fun m _ _ => ?_) (fun m hm => absurd hm List.not_mem_nil) fun m hm => ?_
      · rw [hmir.queue.shift_nil]
        exact hmir
      · rw [hmir.queue.shift_nil]
      · rw [hmir.queue.shift_nil]
      · exact ⟨List.not_mem_nil, hm.symm.imp nofun id⟩
    | cons n l =>
      obtain rfl : l = [] := by
        rw [hs] at hmir
        by_contra hne
        have hmir' : L.Mirrored r ([] ++ n :: l) := hmir
        exact hmir'.last_ne hne (hc ▸ hmir.queue.first_eq)
      rw [hs] at hmir
      refine h.set hmir.shift (fun r' hr => hmir.queue.shift_list hr) (fun m hm _ => ?_)
        (fun m hm => absurd hm List.not_mem_nil) fun m hm => ⟨List.not_mem_nil, hm.symm.imp_left fun e => ?_⟩
      · exact h.frame (.shift r) trivial hm
      · have he : some n = some m := e
        rw [hs, Option.some.inj he]
        exact List.mem_cons_self
  | remove r n =>
    have hmir := h.mirrored r
    obtain ⟨l₁, l₂, hseq, hl₁⟩ := mem_split hmir hl
    have ho := hmir.queue.owner n hl
    have hers : (S.seq r).erase n = l₁ ++ l₂ := by
      rw [hseq, List.erase_append_right _ hl₁, List.erase_cons_head]
    rw [hseq] at hmir
    have hmem : ∀ m, m ∈ S.seq r ↔ m ∈ l₁ ++ l₂ ∨ m = n := by
      intro m
      rw [hseq, List.mem_append, List.mem_append, List.mem_cons]
      tauto
    show Sequenced _ (S.set r ((S.seq r).erase n) _)
    rw [hers]
    refine h.set hmir.remove (fun r' hr => ?_) (fun m hm _ => ?_) (fun m hm => ?_) fun m hm => ?_
    · show (L.listRemove n).list r' = L.list r'
      rw [Lists.list_listRemove ho hmir.next_ne hmir.prev_ne, if_neg hr]
    · exact h.frame (.remove r n) hl hm
    · exact .inl ((hmem m).mpr (.inl hm))
    · cases Set.mem_insert_iff.mp hm with
      | inl he =>
        refine ⟨fun hin => ?_, .inl (he ▸ hl)⟩
        rw [he] at hin
        exact (List.mem_append.mp hin).elim hmir.not_mem.1 hmir.not_mem.2
      | inr hd => exact ⟨fun hin => (h.detached m hd).2 r ((hmem m).mpr (.inl hin)), .inr hd⟩

/-- a step that is not clean leaves a link too many -/
theorem clean (op : ListOp) (h : Sequenced L S) (hl : op.Legal S) (hi : Implements (op.run L) (op.apply S)) : op.Clean L := by
  cases op with
  | create n value list => trivial
  | push r n =>
    obtain ⟨h0, hnot⟩ := h.detached n hl
    have hc := hi.forward r
    have hseq : (S.set r (S.seq r ++ [n]) (S.detached \ {n})).seq r = S.seq r ++ [n] := Function.update_self _ _ _
    have hzero : ((L.listPush r n).node n).next = 0 := by
      change Chain _ 0 _ ((S.set r (S.seq r ++ [n]) (S.detached \ {n})).seq r) at hc
      rw [hseq] at hc
      exact hc.after
    have hlast : ¬ (n = (L.list r).last ∧ n ≠ 0) := fun ⟨e, hn⟩ =>
      hnot r (e ▸ (h.mirrored r).queue.last_mem (e ▸ hn))
    rw [Lists.next_listPush, if_neg hlast] at hzero
    exact hzero
  | insertBefore r n pos => trivial
  | shift r =>
    have hmir := h.mirrored r
    show (L.list r).first = (L.list r).last
    cases hs : S.seq r with
    | nil =>
      rw [hs] at hmir
      exact hmir.queue.chain.trans hmir.prev.symm
    | cons n l =>
      rw [hs] at hmir
      cases l with
      | nil => exact hmir.queue.first_eq.trans hmir.prev.1.symm
      | cons b l =>
        exfalso
        -- `prev` of the second node still leads to the first one
        have hback := hi.backward r
        have hseq : (S.set r (S.seq r).tail (S.detached ∪ {n | (S.seq r).head? = some n})).seq r = b :: l := by
          rw [hs]
          exact Function.update_self _ _ _
        change Chain _ 0 _ ((S.set r (S.seq r).tail (S.detached ∪ {n | (S.seq r).head? = some n})).seq r).reverse at hback
        rw [hseq, List.reverse_cons] at hback
        have hzero : ((L.listShift r).2.node b).prev = 0 := hback.after
        rw [Lists.prev_listShift] at hzero
        have hmir' : L.Mirrored r ([n] ++ b :: l) := hmir
        have hbefore := hmir'.before
        rw [hzero] at hbefore
        exact hmir.ne_zero List.mem_cons_self hbefore.1.symm
  | remove r n => trivial

end Sequenced

/-! ## runs -/

/-- runs from empty lists whose steps all meet `ok` -/
inductive ListRun (ok : ListOp → Lists → Prop) : Lists → Sequences → Prop
  | start {L : Lists} (h : ∀ r, L.list r = { first := 0, last := 0 }) : ListRun ok L { seq := fun _ => [], detached := ∅ }
  | step {L : Lists} {S : Sequences} {op : ListOp} (h : ListRun ok L S) (hl : op.Legal S) (hok : ok op L) :
      ListRun ok (op.run L) (op.apply S)

theorem ListRun.sequenced {S : Sequences} (h : ListRun ListOp.Clean L S) : Sequenced L S := by
  induction h with
  | start hinit =>
    refine ⟨fun r => ⟨⟨?_, ?_, nofun⟩, ?_⟩, fun _ _ _ => List.disjoint_nil_left _, nofun⟩
    · rw [hinit]
      rfl
    · rw [hinit]
      rfl
    · rw [hinit]
      rfl
  | step _ hl hok ih => exact ih.step _ hl hok

/-- **Lists are sequences as long as every step is clean.**  In every run of clean steps the lists
implement the sequences; from there no step writes to a node outside its list, and the lists still
implement the sequences after it exactly if it is clean. -/
theorem list_sequence {S : Sequences} (h : ListRun ListOp.Clean L S) : Implements L S ∧
    ∀ op : ListOp, op.Legal S → (∀ m, m ∉ op.members S → (op.run L).node m = L.node m) ∧
      (Implements (op.run L) (op.apply S) ↔ op.Clean L) := by
  have hs := h.sequenced
  exact ⟨hs.implements, fun op hl => ⟨fun m hm => hs.frame _ hl hm, hs.clean _ hl, fun hc => (hs.step _ hl hc).implements⟩⟩

def emptyLists : Lists where
  node := fun _ => { value := 0, list := none, prev := 0, next := 0 }
  list := fun _ => { first := 0, last := 0 }

theorem ListRun.mono {ok ok' : ListOp → Lists → Prop} {S : Sequences} (h : ListRun ok L S)
    (himp : ∀ op L, ok op L → ok' op L) : ListRun ok' L S := by
  induction h with
  | start hinit => exact .start hinit
  | step _ hl hok ih => exact ih.step hl (himp _ _ hok)

/-- two nodes are made and pushed -/
def twoPushed : List ListOp :=
  [.create 8 0 none, .create 16 0 none, .push (.queue .tasks) 8, .push (.queue .tasks) 16]

theorem twoPushed_clean : ListRun ListOp.Clean (twoPushed.foldl (fun L op => op.run L) emptyLists)
    (twoPushed.foldl (fun S op => op.apply S) { seq := fun _ => [], detached := ∅ }) := by
  have h0 : ListRun ListOp.Clean emptyLists { seq := fun _ => [], detached := ∅ } := .start fun _ => rfl
  have h1 := h0.step (show (ListOp.create 8 0 none).Legal _ from ⟨by decide, fun _ => List.not_mem_nil⟩) trivial
  have h2 := h1.step (show (ListOp.create 16 0 none).Legal _ from ⟨by decide, fun _ => List.not_mem_nil⟩) trivial
  have h3 := h2.step (show (ListOp.push (.queue .tasks) 8).Legal _ from .inr (.inl rfl)) rfl
  exact h3.step (show (ListOp.push (.queue .tasks) 16).Legal _ from ⟨.inl rfl, (by decide : ¬ 16 = 8)⟩) rfl

/-- a third node is put between them and the first one is removed: the list is the sequence of the other two, also when the first of
these is removed in turn, but not when it is shifted -/
theorem list_sequence_removed : ∃ L S, ListRun ListOp.Clean L S ∧ S.seq (.queue .tasks) = [24, 16] ∧ Implements L S ∧
    Implements (L.listRemove 24) ((ListOp.remove (.queue .tasks) 24).apply S) ∧
    ¬ Implements (L.listShift (.queue .tasks)).2 ((ListOp.shift (.queue .tasks)).apply S) := by
  have hnot : ∀ r, 24 ∉ (twoPushed.foldl (fun (S : Sequences) (op : ListOp) => op.apply S)
      ({ seq := fun _ => [], detached := ∅ } : Sequences)).seq r := by
    intro r hin
    by_cases hr : r = .queue .tasks
    · rw [hr] at hin
      exact absurd hin (by decide)
    · have hseq : (twoPushed.foldl (fun (S : Sequences) (op : ListOp) => op.apply S)
          ({ seq := fun _ => [], detached := ∅ } : Sequences)).seq r = [] :=
        (Function.update_of_ne hr _ _).trans (Function.update_of_ne hr _ _)
      rw [hseq] at hin
      exact List.not_mem_nil hin
  have h1 := twoPushed_clean.step (show (ListOp.create 24 0 none).Legal _ from ⟨by decide, hnot⟩) trivial
  have h2 := h1.step (show (ListOp.insertBefore (.queue .tasks) 24 16).Legal _ from ⟨.inl rfl, by decide⟩) trivial
  have h3 := h2.step (show (ListOp.remove (.queue .tasks) 8).Legal _ from (by decide : 8 ∈ [8, 24, 16])) trivial
  obtain ⟨himp, hnext⟩ := list_sequence h3
  refine ⟨_, _, h3, by decide, himp, ?_, fun hi => ?_⟩
  · exact ((hnext (.remove (.queue .tasks) 24) (by decide : 24 ∈ [24, 16])).2).mpr trivial
  · have hclean := ((hnext (.shift (.queue .tasks)) trivial).2).mp hi
    exact absurd (show (24 : Nat) = 16 from hclean) (by decide)

/-- when list_shift takes the first of two pushed nodes, the second one still has a predecessor -/
theorem list_shift_keeps_prev : ∃ L S, ListRun (fun _ _ => True) L S ∧ ¬ Implements L S := by
  refine ⟨_, _, (twoPushed_clean.mono fun _ _ _ => trivial).step
    (show (ListOp.shift (.queue .tasks)).Legal _ from trivial) trivial, fun hi => ?_⟩
  have hclean := twoPushed_clean.sequenced.clean (.shift (.queue .tasks)) trivial hi
  exact absurd (show (8 : Nat) = 16 from hclean) (by decide)

end FakeKernel
