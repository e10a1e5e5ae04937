import FakeKernel.Kernel.Mapped
import FakeKernel.Kernel.Serial

/-!
# Moving sched nodes between the ready list and the wait groups

* `Quiet`                  a step in which no block changes hands;
* `World.push`, `World.shift`, `World.wakeup`   the lists of sched nodes act as queues;
* `World.wakeupLoop_returns`   wakeup comes to an end;
* `Queues.unique`          a sched node is in one place only.
-/

namespace FakeKernel
open Bytes Mm

variable {h h' h'' : Heap} {own : Owners} {q : TaskList → List Nat} {L L' : Lists} {g group : TaskList}
  {t n m p : Nat} {r : Role} {l : List Nat}

/-! ## steps in which no block changes hands -/

structure Quiet (h h' : Heap) (own : Owners) : Prop where
  live : h'.live = h.live
  out : h'.mm.out = h.mm.out
  outside : ∀ x ∉ usable, h'.mm.mem x = h.mm.mem x
  untouched : ∀ t ∈ h.live, Untouched h h' own own t

namespace Quiet

theorem refl (h : Heap) (own : Owners) : Quiet h h own := ⟨rfl, rfl, fun _ _ => rfl, fun t _ => .refl h own t⟩

theorem trans (hq : Quiet h h' own) (hq' : Quiet h' h'' own) : Quiet h h'' own where
  live := hq'.live.trans hq.live
  out := hq'.out.trans hq.out
  outside := fun x hx => (hq'.outside x hx).trans (hq.outside x hx)
  untouched := fun t ht => (hq.untouched t ht).trans (hq'.untouched t (hq.live ▸ ht))

end Quiet

/-- the fields of a task that say nothing of its blocks -/
theorem World.assign (hw : World h own q) {x : Task} (hx : SameBlocks (h.task t) x) :
    World (h.setTask t x) own q ∧ Quiet h (h.setTask t x) own := by
  refine ⟨(hw.setTask t hx).world, rfl, rfl, fun _ _ => rfl, fun s _ => ⟨.refl own s, fun _ _ _ _ => rfl, ?_,
    fun _ _ _ _ => rfl, rfl, fun _ _ _ => rfl, fun _ _ _ => rfl⟩⟩
  show SameBlocks (h.task s) (Function.update h.task t x s)
  by_cases he : s = t
  · subst he
    rw [Function.update_self]
    exact hx
  · rw [Function.update_of_ne he]
    exact ⟨rfl, rfl, rfl, rfl⟩

theorem World.assignFrame (hw : World h own q) (t : Nat) (frame : Cpu) :
    World (h.setFrame t frame) own q ∧ Quiet h (h.setFrame t frame) own :=
  hw.assign ⟨rfl, rfl, rfl, rfl⟩

/-- a store to a user page -/
theorem World.store (hw : World h own q) {v : Nat} (hp : own.Page p t (.user n v)) {mem : Mem}
    (hmem : ∀ x, ¬ onPage p x → mem x = h.mm.mem x) :
    World { h with mm := h.mm.setMem mem } own q ∧ Quiet h { h with mm := h.mm.setMem mem } own := by
  refine ⟨(hw.write hp rfl nofun hmem).world, rfl, rfl, fun x hx => ?_, fun s _ => ⟨.refl own s, fun p' hp' x hx => ?_,
    ⟨rfl, rfl, rfl, rfl⟩, fun _ _ _ _ => rfl, rfl, fun _ _ _ => rfl, fun _ _ _ => rfl⟩⟩
  · exact hmem x fun hon => hx (hw.held.ok.usable (hw.held.out _ _ _ hp) (mem_pageAt.mpr hon))
  refine hmem x fun hx' => ?_
  have he : p = p' := onPage_inj (hw.held.page hp) (hw.held.page hp') hx' hx
  subst he
  exact nomatch (hp.unique hp').2

/-! ## the lists of sched nodes -/

namespace Queues

/-- no node is in two lists -/
theorem unique (hQ : Queues h q) {g' : TaskList} (hn : n ∈ q g) (hn' : n ∈ q g') : g = g' := by
  have he := ((hQ.queue g).owner n hn).symm.trans ((hQ.queue g').owner n hn')
  cases he
  rfl

theorem nodup (hQ : Queues h q) (g : TaskList) : (q g).Nodup := (hQ.queue g).chain.nodup

end Queues

/-- a node of a task's own lists is not a sched node -/
theorem World.link_not_queued (hw : World h own q) (hm : own.Obj m t r) (hr : r.isLink = true)
    (g : TaskList) : m ∉ q g := by
  intro hin
  obtain ⟨t', ht', rfl⟩ := hw.queues.sched g m hin
  rw [(hm.unique (hw.static t' ht').sched).2] at hr
  exact nomatch hr

theorem World.sched_ne_zero (hw : World h own q) (hn : n ∈ q g) : n ≠ 0 := by
  obtain ⟨t, ht, rfl⟩ := hw.queues.sched g n hn
  exact (hw.static t ht).sched.ne_zero

/-- a change of the lists of sched nodes is none of a task's business -/
theorem World.relist (hw : World h own q) {q' : TaskList → List Nat}
    (hnode : ∀ m ≠ 0, (∀ g, m ∉ q g) → (∀ t ∈ h.live, m ≠ (h.task t).sched) → L'.node m = h.lists.node m)
    (hlist : ∀ r, (∀ g, r ≠ .queue g) → L'.list r = h.lists.list r)
    (hQ : Queues { h with lists := L' } q') :
    World { h with lists := L' } own q' ∧ Quiet h { h with lists := L' } own := by
  have hlink : ∀ m t r, own.Obj m t r → r.isLink = true → L'.node m = h.lists.node m := by
    intro m t r hm hr
    refine hnode m hm.ne_zero (hw.link_not_queued hm hr) fun t' ht' e => ?_
    subst e
    rw [(hm.unique (hw.static t' ht').sched).2] at hr
    exact nomatch hr
  exact ⟨hw.requeue hlink (fun t => hlist _ nofun) (fun a => hlist _ nofun) hQ, rfl, rfl, fun _ _ => rfl, fun t _ =>
    ⟨.refl own t, fun _ _ _ _ => rfl, ⟨rfl, rfl, rfl, rfl⟩, fun m r hm hr => hlink m t r hm hr,
      hlist _ nofun, fun _ _ _ => hlist _ nofun, fun _ _ _ => rfl⟩⟩

theorem mem_pushed {g' : TaskList} : m ∈ pushed q g n g' ↔ m ∈ q g' ∨ (g' = g ∧ m = n) := by
  unfold pushed
  by_cases he : g' = g
  · subst he
    rw [Function.update_self, List.mem_append, List.mem_singleton]
    exact or_congr_right ⟨fun e => ⟨rfl, e⟩, fun e => e.2⟩
  · rw [Function.update_of_ne he]
    exact ⟨.inl, fun hm => hm.resolve_right fun e => he e.1⟩

/-- list_push enqueues -/
theorem World.push (hw : World h own q) (ht : t ∈ h.live) (hnot : ∀ g, (h.task t).sched ∉ q g)
    (g : TaskList) : World (h.listPush (.queue g) (h.task t).sched) own (pushed q g (h.task t).sched) ∧
      Quiet h (h.listPush (.queue g) (h.task t).sched) own := by
  have hQ := hw.queues
  have hne : (h.task t).sched ≠ 0 := (hw.static t ht).sched.ne_zero
  obtain ⟨hnext, hlist⟩ := hQ.detached t ht hnot
  have hmem : ∀ g' m, m ∈ pushed q g (h.task t).sched g' ↔ m ∈ q g' ∨ (g' = g ∧ m = (h.task t).sched) :=
    fun _ _ => mem_pushed
  refine hw.relist (fun m h0 hm hs => ?_) (fun r hr => ?_) ⟨queues_push hQ hne hnot hnext g, fun g' m hm => ?_,
    fun t' ht' => ?_, fun t' ht' hout => ?_⟩
  · refine Lists.node_listPush_of_ne hne (hs t ht) fun e => hm g ?_
    rw [e]
    exact (hQ.queue g).last_mem (e ▸ h0)
  · rw [Lists.list_listPush, if_neg (hr g)]
  · cases (hmem g' m).mp hm with
    | inl hold => exact hQ.sched g' m hold
    | inr hnew => exact ⟨t, ht, hnew.2⟩
  · show ((h.lists.listPush (.queue g) (h.task t).sched).node (h.task t').sched).value = t'
    rw [Lists.value_listPush]
    exact hQ.value t' ht'
  · have hout' : ∀ g', (h.task t').sched ∉ q g' := fun g' hm => hout g' ((hmem g' _).mpr (.inl hm))
    have hne' : (h.task t').sched ≠ (h.task t).sched := fun e => hout g ((hmem g _).mpr (.inr ⟨rfl, e⟩))
    obtain ⟨h1, h2⟩ := (hQ.queue g).push_other (hout' g) hne'
    obtain ⟨h3, h4⟩ := hQ.detached t' ht' hout'
    exact ⟨h1.trans h3, h2.trans h4⟩

theorem Lists.node_listShift_of_ne {r : ListRef} (hq : L.Queue r (n :: l)) (hm : m ≠ n) :
    (L.listShift r).2.node m = L.node m := by
  have hfirst := hq.first_eq
  have h0 : (L.list r).first ≠ 0 := by
    rw [hfirst]
    exact hq.chain.2.1
  obtain ⟨hnext, hlist⟩ := hq.shift_other hm
  refine ListNode.ext Lists.value_listShift hlist ?_ hnext
  unfold Lists.listShift
  simp [h0]

/-- list_shift dequeues -/
theorem World.shift (hw : World h own q) (hg : q g = n :: l) :
    World { h with lists := (h.lists.listShift (.queue g)).2 } own (Function.update q g l) ∧
      Quiet h { h with lists := (h.lists.listShift (.queue g)).2 } own := by
  have hQ := hw.queues
  have hq : h.lists.Queue (.queue g) (n :: l) := hg ▸ hQ.queue g
  have hn : n ∈ q g := hg ▸ List.mem_cons_self
  have hother : ∀ {g'}, g' ≠ g → n ∉ q g' := fun hne hin => hne (hQ.unique hin hn)
  have hmem : ∀ g' m, m ∈ Function.update q g l g' ↔ m ∈ q g' ∧ m ≠ n := by
    intro g' m
    by_cases he : g' = g
    · subst he
      have hnd := List.nodup_cons.mp hq.chain.nodup
      rw [Function.update_self, hg, List.mem_cons]
      exact ⟨fun hm => ⟨.inr hm, fun e => hnd.1 (e ▸ hm)⟩, fun hm => hm.1.resolve_left hm.2⟩
    · rw [Function.update_of_ne he]
      exact ⟨fun hm => ⟨hm, fun e => hother he (e ▸ hm)⟩, fun hm => hm.1⟩
  refine hw.relist (fun m h0 hm hs => ?_) (fun r hr => ?_) ⟨fun g' => ?_, fun g' m hm => ?_, fun t ht => ?_,
    fun t ht hout => ?_⟩
  · exact Lists.node_listShift_of_ne hq fun e => hm g (e ▸ hn)
  · exact Lists.list_listShift_of_ne (hr g)
  · by_cases he : g' = g
    · subst he
      rw [Function.update_self]
      exact hq.shift
    · rw [Function.update_of_ne he]
      exact hq.shift_frame (hQ.queue g') (fun e => he (ListRef.queue.inj e)) (hother he)
  · exact hQ.sched g' m ((hmem g' m).mp hm).1
  · show ((h.lists.listShift (.queue g)).2.node (h.task t).sched).value = t
    rw [Lists.value_listShift]
    exact hQ.value t ht
  · by_cases he : (h.task t).sched = n
    · show ((h.lists.listShift (.queue g)).2.node (h.task t).sched).next = 0 ∧
        ((h.lists.listShift (.queue g)).2.node (h.task t).sched).list = none
      rw [he]
      exact hq.shift_node
    · have hnode : (h.lists.listShift (.queue g)).2.node (h.task t).sched = h.lists.node (h.task t).sched :=
        Lists.node_listShift_of_ne hq he
      show ((h.lists.listShift (.queue g)).2.node (h.task t).sched).next = 0 ∧
        ((h.lists.listShift (.queue g)).2.node (h.task t).sched).list = none
      rw [hnode]
      exact hQ.detached t ht fun g' hin => hout g' ((hmem g' _).mpr ⟨hin, he⟩)

/-- the queues when everybody in `group` was woken up -/
def woken (q : TaskList → List Nat) (group : TaskList) : TaskList → List Nat :=
  Function.update (Function.update q .tasks (q .tasks ++ q group)) group []

/-- wakeup appends the group to the ready list, in order -/
theorem World.wakeup {fuel : Nat} (hw : World h own q) (hne : group ≠ .tasks)
    (hrun : Lists.wakeupLoop group fuel h.lists = .ok L') :
    World { h with lists := L' } own (woken q group) ∧ Quiet h { h with lists := L' } own := by
  induction fuel generalizing h q with
  | zero => exact nomatch hrun
  | succ fuel ih =>
    unfold Lists.wakeupLoop at hrun
    simp only at hrun
    cases hg : q group with
    | nil =>
      have hq : h.lists.Queue (.queue group) [] := hg ▸ hw.queues.queue group
      rw [hq.shift_nil] at hrun
      cases hrun
      have hsame : woken q group = q := by
        unfold woken
        rw [hg, List.append_nil, Function.update_eq_self, ← hg, Function.update_eq_self]
      rw [hsame]
      exact ⟨hw, .refl h own⟩
    | cons n l =>
      have hq : h.lists.Queue (.queue group) (n :: l) := hg ▸ hw.queues.queue group
      have hn : n ∈ q group := hg ▸ List.mem_cons_self
      rw [hq.shift_fst, if_neg (hw.sched_ne_zero hn)] at hrun
      obtain ⟨hw₁, hq₁⟩ := hw.shift hg
      obtain ⟨t, ht, rfl⟩ := hw.queues.sched group n hn
      have hnot : ∀ g, (h.task t).sched ∉ Function.update q group l g := by
        intro g hin
        by_cases he : g = group
        · subst he
          rw [Function.update_self] at hin
          exact (List.nodup_cons.mp hq.chain.nodup).1 hin
        · rw [Function.update_of_ne he] at hin
          exact he (hw.queues.unique hin hn)
      obtain ⟨hw₂, hq₂⟩ := hw₁.push (t := t) ht hnot .tasks
      obtain ⟨hw₃, hq₃⟩ := ih hw₂ hrun
      have hwoken : woken (pushed (Function.update q group l) .tasks (h.task t).sched) group = woken q group := by
        unfold woken pushed
        funext g
        by_cases he : g = group
        · rw [he, Function.update_self, Function.update_self]
        · rw [Function.update_of_ne he, Function.update_of_ne he]
          by_cases htasks : g = .tasks
          · subst htasks
            rw [Function.update_self, Function.update_self, Function.update_self,
              Function.update_of_ne he, Function.update_of_ne hne, Function.update_self, hg,
              List.append_assoc, List.singleton_append]
          · rw [Function.update_of_ne htasks, Function.update_of_ne htasks, Function.update_of_ne htasks,
              Function.update_of_ne he]
      have hw₃ : World _ own (woken (pushed (Function.update q group l) .tasks (h.task t).sched) group) := hw₃
      rw [hwoken] at hw₃
      exact ⟨hw₃, (hq₁.trans hq₂).trans hq₃⟩

/-- there are fewer tasks than addresses -/
theorem World.group_length (hw : World h own q) (g : TaskList) : (q g).length < wordCount :=
  (hw.queues.queue g).chain.length_lt (by decide) fun n hn => by
    obtain ⟨t, ht, rfl⟩ := hw.queues.sched g n hn
    exact hw.held.obj_lt (hw.static t ht).sched

/-- wakeup comes to an end -/
theorem World.wakeupLoop_returns {fuel : Nat} (hw : World h own q) (hne : g ≠ .tasks) (hlen : (q g).length < fuel) :
    ∃ L', Lists.wakeupLoop g fuel h.lists = .ok L' := by
  induction fuel generalizing h q with
  | zero => exact absurd hlen (Nat.not_lt_zero _)
  | succ fuel ih =>
    unfold Lists.wakeupLoop
    simp only
    cases hg : q g with
    | nil =>
      have hq : h.lists.Queue (.queue g) [] := hg ▸ hw.queues.queue g
      rw [hq.shift_nil]
      exact ⟨_, rfl⟩
    | cons n l =>
      have hq : h.lists.Queue (.queue g) (n :: l) := hg ▸ hw.queues.queue g
      have hn : n ∈ q g := hg ▸ List.mem_cons_self
      rw [hq.shift_fst, if_neg (hw.sched_ne_zero hn)]
      obtain ⟨hw₁, _⟩ := hw.shift hg
      obtain ⟨t, ht, rfl⟩ := hw.queues.sched g n hn
      have hnot : ∀ g', (h.task t).sched ∉ Function.update q g l g' := by
        intro g' hin
        by_cases he : g' = g
        · subst he
          rw [Function.update_self] at hin
          exact (List.nodup_cons.mp hq.chain.nodup).1 hin
        · rw [Function.update_of_ne he] at hin
          exact he (hw.queues.unique hin hn)
      obtain ⟨hw₂, _⟩ := hw₁.push (t := t) ht hnot .tasks
      refine ih hw₂ ?_
      have hsame : pushed (Function.update q g l) .tasks (h.task t).sched g = l := by
        unfold pushed
        rw [Function.update_of_ne hne, Function.update_self]
      rw [hsame]
      rw [hg] at hlen
      exact Nat.lt_of_succ_lt_succ hlen

end FakeKernel
