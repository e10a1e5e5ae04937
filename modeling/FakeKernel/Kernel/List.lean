import FakeKernel.Lib.Chain
import FakeKernel.Memlayout

/-!
# Intrusive lists (kernel/list.h)

`Lists` holds every list node by its address and the two ends of every list.  A node that was freed
keeps its links: kfree writes to the first bytes of the block only, which lie before `prev` and
`next`.

* `Queue L r l`      the list `r` is the queue `l`: the forward links lead through `l`, `last` is its
                     last member.  Nothing is said about `prev`, nor about `next` of other nodes;
* `Queue.push`, `Queue.shift`   list_push and list_shift are enqueue and dequeue;
* `Closed L P r`     the links of the nodes in `P` and the ends of `r` lead to nodes in `P`.
-/

namespace FakeKernel

/-- the ready list of sched.c and the wait groups of uart.c -/
inductive TaskList where
  | tasks
  | waitIn
  | waitOut
deriving DecidableEq, Repr

/-- the lists of the kernel: those of sched nodes, `vm_areas` of a task and `pages` of an area -/
inductive ListRef where
  | queue (group : TaskList)
  | vmAreas (task : Nat)
  | pages (area : Nat)
deriving DecidableEq, Repr

@[ext] structure ListNode where
  value : Nat
  list : Option ListRef
  prev : Nat
  next : Nat
deriving DecidableEq, Repr

structure KList where
  first : Nat
  last : Nat
deriving DecidableEq

structure Lists where
  node : Nat → ListNode
  list : ListRef → KList

namespace Lists

def setNode (p : Nat) (n : ListNode) (L : Lists) : Lists :=
  { L with node := Function.update L.node p n }

def setList (r : ListRef) (l : KList) (L : Lists) : Lists :=
  { L with list := Function.update L.list r l }

def setOwner (p : Nat) (r : Option ListRef) (L : Lists) : Lists :=
  L.setNode p { L.node p with list := r }

/-- `if (p != NULL) p->next = v` -/
def setNext (p v : Nat) (L : Lists) : Lists :=
  if p = 0 then L else L.setNode p { L.node p with next := v }

/-- `if (p != NULL) p->prev = v` -/
def setPrev (p v : Nat) (L : Lists) : Lists :=
  if p = 0 then L else L.setNode p { L.node p with prev := v }

/-- `if (list->first == p) list->first = v` -/
def moveFirst (r : ListRef) (p v : Nat) (L : Lists) : Lists :=
  if (L.list r).first = p then L.setList r { L.list r with first := v } else L

/-- `if (list->last == p) list->last = v` -/
def moveLast (r : ListRef) (p v : Nat) (L : Lists) : Lists :=
  if (L.list r).last = p then L.setList r { L.list r with last := v } else L

def listInit (r : ListRef) (L : Lists) : Lists := L.setList r { first := 0, last := 0 }

def listPush (r : ListRef) (n : Nat) (L : Lists) : Lists :=
  let L := L.setOwner n (some r)
  let L := L.setPrev n (L.list r).last
  let L := L.setNext (L.list r).last n
  let L := L.setList r { L.list r with last := n }
  L.moveFirst r 0 n

def listInsertBefore (r : ListRef) (n pos : Nat) (L : Lists) : Lists :=
  let L := L.setOwner n (some r)
  let L := L.setPrev n (L.node pos).prev
  let L := L.setNext n pos
  let L := L.setPrev pos n
  let L := L.setNext (L.node n).prev n
  L.moveFirst r pos n

/-- the node that was taken, 0 if there was none -/
def listShift (r : ListRef) (L : Lists) : Nat × Lists :=
  let n := (L.list r).first
  if n = 0 then (0, L)
  else
    let L := L.setOwner n none
    let L := L.setList r { L.list r with first := (L.node n).next }
    let L := L.moveLast r n (L.node n).next
    (n, L.setNext n 0)

def listRemove (n : Nat) (L : Lists) : Lists :=
  match (L.node n).list with
  | none => L
  | some r =>
    let L := L.setPrev (L.node n).next (L.node n).prev
    let L := L.setNext (L.node n).prev (L.node n).next
    let L := L.moveFirst r n (L.node n).next
    L.moveLast r n (L.node n).prev

/-! ## reading back -/

variable {L L' : Lists} {p q v n pos : Nat} {r r' : ListRef} {o : Option ListRef} {l l' : List Nat}

@[simp] theorem node_setNode {x : ListNode} :
    (L.setNode p x).node q = if q = p then x else L.node q := Function.update_apply _ _ _ _

@[simp] theorem list_setNode {x : ListNode} : (L.setNode p x).list = L.list := rfl

@[simp] theorem node_setList {l : KList} : (L.setList r l).node = L.node := rfl

@[simp] theorem list_setList {l : KList} :
    (L.setList r l).list r' = if r' = r then l else L.list r' := Function.update_apply _ _ _ _

@[simp] theorem list_setOwner : (L.setOwner p o).list = L.list := rfl

@[simp] theorem list_setNext : (L.setNext p v).list = L.list := by
  unfold setNext
  split <;> rfl

@[simp] theorem list_setPrev : (L.setPrev p v).list = L.list := by
  unfold setPrev
  split <;> rfl

@[simp] theorem owner_setOwner :
    ((L.setOwner p o).node q).list = if q = p then o else (L.node q).list := by
  unfold setOwner
  by_cases h : q = p <;> simp [h]

@[simp] theorem next_setNext :
    ((L.setNext p v).node q).next = if q = p ∧ q ≠ 0 then v else (L.node q).next := by
  unfold setNext
  by_cases h : q = p <;> by_cases h0 : p = 0 <;> simp [h, h0]

@[simp] theorem prev_setPrev :
    ((L.setPrev p v).node q).prev = if q = p ∧ q ≠ 0 then v else (L.node q).prev := by
  unfold setPrev
  by_cases h : q = p <;> by_cases h0 : p = 0 <;> simp [h, h0]

@[simp] theorem value_setOwner : ((L.setOwner p o).node q).value = (L.node q).value := by
  unfold setOwner
  by_cases h : q = p <;> simp [h]

@[simp] theorem prev_setOwner : ((L.setOwner p o).node q).prev = (L.node q).prev := by
  unfold setOwner
  by_cases h : q = p <;> simp [h]

@[simp] theorem next_setOwner : ((L.setOwner p o).node q).next = (L.node q).next := by
  unfold setOwner
  by_cases h : q = p <;> simp [h]

@[simp] theorem value_setNext : ((L.setNext p v).node q).value = (L.node q).value := by
  unfold setNext
  by_cases h : q = p <;> by_cases h0 : p = 0 <;> simp [h, h0]

@[simp] theorem owner_setNext : ((L.setNext p v).node q).list = (L.node q).list := by
  unfold setNext
  by_cases h : q = p <;> by_cases h0 : p = 0 <;> simp [h, h0]

@[simp] theorem prev_setNext : ((L.setNext p v).node q).prev = (L.node q).prev := by
  unfold setNext
  by_cases h : q = p <;> by_cases h0 : p = 0 <;> simp [h, h0]

@[simp] theorem value_setPrev : ((L.setPrev p v).node q).value = (L.node q).value := by
  unfold setPrev
  by_cases h : q = p <;> by_cases h0 : p = 0 <;> simp [h, h0]

@[simp] theorem owner_setPrev : ((L.setPrev p v).node q).list = (L.node q).list := by
  unfold setPrev
  by_cases h : q = p <;> by_cases h0 : p = 0 <;> simp [h, h0]

@[simp] theorem next_setPrev : ((L.setPrev p v).node q).next = (L.node q).next := by
  unfold setPrev
  by_cases h : q = p <;> by_cases h0 : p = 0 <;> simp [h, h0]

@[simp] theorem node_moveFirst : (L.moveFirst r p v).node = L.node := by
  unfold moveFirst
  split <;> rfl

@[simp] theorem node_moveLast : (L.moveLast r p v).node = L.node := by
  unfold moveLast
  split <;> rfl

@[simp] theorem list_moveFirst : (L.moveFirst r p v).list r' =
    if r' = r ∧ (L.list r).first = p then { L.list r with first := v } else L.list r' := by
  unfold moveFirst
  by_cases h : (L.list r).first = p <;> simp [h]

@[simp] theorem list_moveLast : (L.moveLast r p v).list r' =
    if r' = r ∧ (L.list r).last = p then { L.list r with last := v } else L.list r' := by
  unfold moveLast
  by_cases h : (L.list r).last = p <;> simp [h]

/-! ## what list_push, list_insert_before and list_shift write -/

@[simp] theorem value_listPush : ((L.listPush r n).node q).value = (L.node q).value := by
  unfold listPush
  simp

@[simp] theorem owner_listPush :
    ((L.listPush r n).node q).list = if q = n then some r else (L.node q).list := by
  unfold listPush
  simp

theorem prev_listPush (hn : n ≠ 0) :
    ((L.listPush r n).node q).prev = if q = n then (L.list r).last else (L.node q).prev := by
  unfold listPush
  simp only [node_moveFirst, node_setList, prev_setNext, prev_setPrev, prev_setOwner, list_setOwner]
  by_cases h : q = n
  · rw [if_pos ⟨h, h ▸ hn⟩, if_pos h]
  · rw [if_neg fun h' => h h'.1, if_neg h]

theorem next_listPush : ((L.listPush r n).node q).next
    = if q = (L.list r).last ∧ q ≠ 0 then n else (L.node q).next := by
  unfold listPush
  simp

theorem list_listPush : (L.listPush r n).list r' = if r' = r then
    { first := if (L.list r).first = 0 then n else (L.list r).first, last := n } else L.list r' := by
  unfold listPush
  by_cases hf : (L.list r).first = 0 <;> by_cases hr : r' = r <;> simp [hf, hr]

@[simp] theorem value_listInsertBefore :
    ((L.listInsertBefore r n pos).node q).value = (L.node q).value := by
  unfold listInsertBefore
  simp

@[simp] theorem owner_listInsertBefore :
    ((L.listInsertBefore r n pos).node q).list = if q = n then some r else (L.node q).list := by
  unfold listInsertBefore
  simp

theorem prev_listInsertBefore (hn : n ≠ 0) (hpos : pos ≠ 0) :
    ((L.listInsertBefore r n pos).node q).prev
      = if q = pos then n else if q = n then (L.node pos).prev else (L.node q).prev := by
  unfold listInsertBefore
  by_cases h : q = pos <;> by_cases h' : q = n <;> simp_all

theorem next_listInsertBefore (hn : n ≠ 0) (hne : n ≠ pos) :
    ((L.listInsertBefore r n pos).node q).next
      = if q = (L.node pos).prev ∧ q ≠ 0 then n else if q = n then pos else (L.node q).next := by
  unfold listInsertBefore
  by_cases h : q = n <;> simp_all

theorem list_listInsertBefore : (L.listInsertBefore r n pos).list r' =
    if r' = r then { L.list r with first := if (L.list r).first = pos then n else (L.list r).first }
    else L.list r' := by
  unfold listInsertBefore
  by_cases hf : (L.list r).first = pos <;> by_cases hr : r' = r <;> simp [hf, hr]

theorem listShift_of_empty (h : (L.list r).first = 0) : L.listShift r = (0, L) := by
  unfold listShift
  simp [h]

theorem listShift_fst : (L.listShift r).1 = (L.list r).first := by
  unfold listShift
  by_cases h : (L.list r).first = 0 <;> simp [h]

@[simp] theorem value_listShift : ((L.listShift r).2.node q).value = (L.node q).value := by
  unfold listShift
  by_cases h : (L.list r).first = 0 <;> simp [h]

theorem owner_listShift (hn : (L.list r).first ≠ 0) : ((L.listShift r).2.node q).list
    = if q = (L.list r).first then none else (L.node q).list := by
  unfold listShift
  simp [hn]

theorem next_listShift (hn : (L.list r).first ≠ 0) : ((L.listShift r).2.node q).next
    = if q = (L.list r).first then 0 else (L.node q).next := by
  unfold listShift
  by_cases h : q = (L.list r).first <;> simp_all

theorem list_listShift (hn : (L.list r).first ≠ 0) : (L.listShift r).2.list r' =
    if r' = r then
      { first := (L.node (L.list r).first).next
        last := if (L.list r).last = (L.list r).first then (L.node (L.list r).first).next
          else (L.list r).last }
    else L.list r' := by
  unfold listShift
  by_cases hl : (L.list r).last = (L.list r).first <;> by_cases hr : r' = r <;> simp_all

/-! ## queues -/

structure Queue (L : Lists) (r : ListRef) (l : List Nat) : Prop where
  chain : Chain (fun n => (L.node n).next) 0 (L.list r).first l
  last : (L.list r).last = l.getLast?.getD 0
  owner : ∀ n ∈ l, (L.node n).list = some r

namespace Queue

theorem congr (h : Queue L r l) (hr : L'.list r = L.list r)
    (hn : ∀ n ∈ l, (L'.node n).next = (L.node n).next ∧ (L'.node n).list = (L.node n).list) :
    Queue L' r l where
  chain := by
    rw [hr]
    exact h.chain.congr fun n hl => (hn n hl).1
  last := by rw [hr, h.last]
  owner := fun n hl => by rw [(hn n hl).2, h.owner n hl]

theorem unique (h : Queue L r l) (h' : Queue L r l') : l = l' := h.chain.unique h'.chain

theorem last_mem (h : Queue L r l) (h0 : (L.list r).last ≠ 0) : (L.list r).last ∈ l := by
  have hlast := h.last
  cases hl : l.getLast? with
  | none =>
    rw [hl] at hlast
    exact absurd hlast h0
  | some n =>
    rw [hl] at hlast
    rw [hlast]
    exact List.mem_of_getLast? hl

theorem init (L : Lists) (r : ListRef) : Queue (L.listInit r) r [] := by
  have hr : (L.listInit r).list r = { first := 0, last := 0 } := by
    unfold listInit
    simp
  refine ⟨?_, ?_, nofun⟩
  · rw [hr]
    rfl
  · rw [hr]
    rfl

theorem push (h : Queue L r l) (hn : n ≠ 0) (hnot : n ∉ l) (hnext : (L.node n).next = 0) :
    Queue (L.listPush r n) r (l ++ [n]) := by
  have hfirst : ((L.listPush r n).list r).first = Chain.start (L.list r).first n l := by
    rw [list_listPush, if_pos rfl]
    cases l with
    | nil => exact if_pos h.chain
    | cons a l =>
      have ha : (L.list r).first = a := h.chain.1
      refine if_neg ?_
      rw [ha]
      exact h.chain.2.1
  have hlast : ∀ b, l.getLast? = some b ↔ b = (L.list r).last ∧ b ≠ 0 := by
    intro b
    have hl := h.last
    cases hg : l.getLast? with
    | none =>
      rw [hg] at hl
      exact ⟨nofun, fun ⟨hb, h0⟩ => absurd (hb.trans hl) h0⟩
    | some c =>
      rw [hg] at hl
      have hc : c ≠ 0 := h.chain.ne_null (List.mem_of_getLast? hg)
      rw [hl]
      exact ⟨fun e => by cases e; exact ⟨rfl, hc⟩, fun ⟨e, _⟩ => congrArg some e.symm⟩
  refine ⟨?_, ?_, fun m hm => ?_⟩
  · rw [hfirst]
    refine h.chain.concat hn ?_ (fun b hb => ?_) fun b _ hb => ?_
    · rw [next_listPush, if_neg, hnext]
      exact fun ⟨e, _⟩ => hnot (e ▸ h.last_mem (e ▸ hn))
    · rw [next_listPush, if_pos ((hlast b).mp hb)]
    · rw [next_listPush, if_neg fun hb' => hb ((hlast b).mpr hb')]
  · rw [list_listPush, if_pos rfl, List.getLast?_concat]
    rfl
  · rw [owner_listPush]
    split
    · rfl
    · rename_i hne
      cases List.mem_append.mp hm with
      | inl hml => exact h.owner m hml
      | inr hmn => exact absurd (List.mem_singleton.mp hmn) hne

/-- list_push touches the node that it appends and the last one before it -/
theorem push_other {m : Nat} (h : Queue L r l) (hm : m ∉ l) (hmn : m ≠ n) :
    ((L.listPush r n).node m).next = (L.node m).next ∧
      ((L.listPush r n).node m).list = (L.node m).list := by
  rw [next_listPush, owner_listPush, if_neg hmn, if_neg]
  · exact ⟨rfl, rfl⟩
  · exact fun ⟨e, h0⟩ => hm (e ▸ h.last_mem (e ▸ h0))

theorem push_frame (h : Queue L r l) (h' : Queue L r' l') (hr : r' ≠ r) (hd : l.Disjoint l')
    (hn : n ∉ l') : Queue (L.listPush r n) r' l' := by
  refine h'.congr ?_ fun m hm => h.push_other (fun hml => hd hml hm) fun e => hn (e ▸ hm)
  rw [list_listPush, if_neg hr]

theorem shift_nil (h : Queue L r []) : L.listShift r = (0, L) := listShift_of_empty h.chain

theorem first_eq (h : Queue L r (n :: l)) : (L.list r).first = n := h.chain.1

theorem shift_fst (h : Queue L r (n :: l)) : (L.listShift r).1 = n := by
  rw [listShift_fst, h.first_eq]

theorem shift (h : Queue L r (n :: l)) : Queue (L.listShift r).2 r l := by
  obtain ⟨hfirst, hn, htail⟩ := h.chain
  have hnd := List.nodup_cons.mp h.chain.nodup
  have h0 : (L.list r).first ≠ 0 := by rwa [hfirst]
  have hne : ∀ m ∈ l, m ≠ n := fun m hm e => hnd.1 (e ▸ hm)
  refine ⟨?_, ?_, fun m hm => ?_⟩
  · rw [list_listShift h0, if_pos rfl, hfirst]
    refine htail.congr fun m hm => ?_
    rw [next_listShift h0, hfirst, if_neg (hne m hm)]
  · rw [list_listShift h0, if_pos rfl, hfirst]
    have hlast := h.last
    cases l with
    | nil =>
      have he : (L.list r).last = n := hlast
      simp only [he, if_true]
      exact htail
    | cons b l =>
      rw [List.getLast?_cons_cons] at hlast
      have hmem : (L.list r).last ∈ b :: l := by
        cases hg : (b :: l).getLast? with
        | none => exact absurd (List.getLast?_eq_none_iff.mp hg) nofun
        | some c =>
          rw [hg] at hlast
          rw [hlast]
          exact List.mem_of_getLast? hg
      simp only [hne _ hmem, if_false]
      exact hlast
  · rw [owner_listShift h0, hfirst, if_neg (hne m hm)]
    exact h.owner m (List.mem_cons_of_mem n hm)

/-- the node that list_shift takes is in no list and leads nowhere -/
theorem shift_node (h : Queue L r (n :: l)) :
    ((L.listShift r).2.node n).next = 0 ∧ ((L.listShift r).2.node n).list = none := by
  obtain ⟨hfirst, hn, _⟩ := h.chain
  have h0 : (L.list r).first ≠ 0 := by rwa [hfirst]
  rw [next_listShift h0, owner_listShift h0, hfirst, if_pos rfl, if_pos rfl]
  exact ⟨rfl, rfl⟩

theorem shift_other {m : Nat} (h : Queue L r (n :: l)) (hm : m ≠ n) :
    ((L.listShift r).2.node m).next = (L.node m).next ∧
      ((L.listShift r).2.node m).list = (L.node m).list := by
  obtain ⟨hfirst, hn, _⟩ := h.chain
  have h0 : (L.list r).first ≠ 0 := by rwa [hfirst]
  rw [next_listShift h0, owner_listShift h0, hfirst, if_neg hm, if_neg hm]
  exact ⟨rfl, rfl⟩

theorem shift_list (h : Queue L r (n :: l)) (hr : r' ≠ r) :
    (L.listShift r).2.list r' = L.list r' := by
  obtain ⟨hfirst, hn, _⟩ := h.chain
  have h0 : (L.list r).first ≠ 0 := by rwa [hfirst]
  rw [list_listShift h0, if_neg hr]

theorem shift_frame (h : Queue L r (n :: l)) (h' : Queue L r' l') (hr : r' ≠ r) (hn : n ∉ l') :
    Queue (L.listShift r).2 r' l' :=
  h'.congr (h.shift_list hr) fun _ hm => h.shift_other fun e => hn (e ▸ hm)

end Queue

/-! ## closed lists -/

/-- the nodes in `P` and the ends of `r` lead to nodes in `P` or nowhere -/
structure Closed (L : Lists) (P : Nat → Prop) (r : ListRef) : Prop where
  first : (L.list r).first = 0 ∨ P (L.list r).first
  last : (L.list r).last = 0 ∨ P (L.list r).last
  next : ∀ n, P n → (L.node n).next = 0 ∨ P (L.node n).next
  prev : ∀ n, P n → (L.node n).prev = 0 ∨ P (L.node n).prev

/-- `L'` differs from `L` in the links of nodes in `P` and in the ends of `r` only -/
structure Frame (L L' : Lists) (P : Nat → Prop) (r : ListRef) : Prop where
  node : ∀ n, ¬ P n → L'.node n = L.node n
  value : ∀ n, (L'.node n).value = (L.node n).value
  list : ∀ r', r' ≠ r → L'.list r' = L.list r'

variable {P : Nat → Prop}

theorem Frame.refl (L : Lists) (P : Nat → Prop) (r : ListRef) : Frame L L P r :=
  ⟨fun _ _ => rfl, fun _ => rfl, fun _ _ => rfl⟩

theorem Frame.trans {L'' : Lists} (h : Frame L L' P r) (h' : Frame L' L'' P r) :
    Frame L L'' P r where
  node := fun n hn => (h'.node n hn).trans (h.node n hn)
  value := fun n => (h'.value n).trans (h.value n)
  list := fun r' hr => (h'.list r' hr).trans (h.list r' hr)

namespace Closed

theorem push (h : Closed L P r) (hn : P n) (h0 : n ≠ 0) : Closed (L.listPush r n) P r := by
  refine ⟨?_, ?_, fun m hm => ?_, fun m hm => ?_⟩
  · rw [list_listPush, if_pos rfl]
    simp only
    split
    · exact .inr hn
    · exact h.first
  · rw [list_listPush, if_pos rfl]
    exact .inr hn
  · rw [next_listPush]
    split
    · exact .inr hn
    · exact h.next m hm
  · rw [prev_listPush h0]
    split
    · exact h.last
    · exact h.prev m hm

theorem push_frame (h : Closed L P r) (hn : P n) (h0 : n ≠ 0) :
    Frame L (L.listPush r n) P r := by
  refine ⟨fun m hm => ?_, fun m => value_listPush, fun r' hr => ?_⟩
  · have hmn : m ≠ n := fun e => hm (e ▸ hn)
    have hlast : ¬ (m = (L.list r).last ∧ m ≠ 0) := by
      intro ⟨e, hm0⟩
      cases h.last with
      | inl hz => exact hm0 (e.trans hz)
      | inr hP => exact hm (e ▸ hP)
    rw [ListNode.ext_iff, value_listPush, owner_listPush, prev_listPush h0, next_listPush,
      if_neg hmn, if_neg hmn, if_neg hlast]
    exact ⟨rfl, rfl, rfl, rfl⟩
  · rw [list_listPush, if_neg hr]

theorem insertBefore (h : Closed L P r) (hn : P n) (h0 : n ≠ 0) (hpos : P pos) (hpos0 : pos ≠ 0)
    (hne : n ≠ pos) : Closed (L.listInsertBefore r n pos) P r := by
  refine ⟨?_, ?_, fun m hm => ?_, fun m hm => ?_⟩
  · rw [list_listInsertBefore, if_pos rfl]
    simp only
    split
    · exact .inr hn
    · exact h.first
  · rw [list_listInsertBefore, if_pos rfl]
    exact h.last
  · rw [next_listInsertBefore h0 hne]
    split
    · exact .inr hn
    · split
      · exact .inr hpos
      · exact h.next m hm
  · rw [prev_listInsertBefore h0 hpos0]
    split
    · exact .inr hn
    · split
      · exact h.prev pos hpos
      · exact h.prev m hm

theorem insertBefore_frame (h : Closed L P r) (hn : P n) (h0 : n ≠ 0) (hpos : P pos)
    (hpos0 : pos ≠ 0) (hne : n ≠ pos) : Frame L (L.listInsertBefore r n pos) P r := by
  refine ⟨fun m hm => ?_, fun m => value_listInsertBefore, fun r' hr => ?_⟩
  · have hmn : m ≠ n := fun e => hm (e ▸ hn)
    have hmp : m ≠ pos := fun e => hm (e ▸ hpos)
    have hprev : ¬ (m = (L.node pos).prev ∧ m ≠ 0) := by
      intro ⟨e, hm0⟩
      cases h.prev pos hpos with
      | inl hz => exact hm0 (e.trans hz)
      | inr hP => exact hm (e ▸ hP)
    rw [ListNode.ext_iff, value_listInsertBefore, owner_listInsertBefore,
      prev_listInsertBefore h0 hpos0, next_listInsertBefore h0 hne, if_neg hmn, if_neg hmp,
      if_neg hmn, if_neg hprev, if_neg hmn]
    exact ⟨rfl, rfl, rfl, rfl⟩
  · rw [list_listInsertBefore, if_neg hr]

end Closed

end Lists

end FakeKernel
