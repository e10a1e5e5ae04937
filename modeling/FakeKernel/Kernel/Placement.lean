import FakeKernel.Kernel.Run

/-!
# What holds in every state of a run

* `UserPage`, `user_pages_isolated`   a page that user code reaches is its own and nothing else;
* `Placed`, `Reachable.placed`        a live task runs or waits in one list, once;
* `Queued`, `dispatch_order`          the lists of sched nodes are queues, first in, first out.
-/

namespace FakeKernel
open Bytes Mm Kernel

variable {k k' : Kernel} {own own' : Owners} {q q' : TaskList → List Nat} {h : Heap} {t x : Nat}
  {tr : Translation}

theorem Consistent.world (hc : Consistent k own q) : World k.heap own q := by
  cases hctl : k.ctl with
  | user => exact (hc.active (.inl hctl)).world
  | thread => exact (hc.active (.inr hctl)).world
  | schedule => exact (hc.inactive (.inl hctl)).world
  | idle => exact (hc.inactive (.inr hctl)).world

/-! ## physical isolation -/

/-- user code of the live task `t` reaches the physical address `tr.pa` through `x` -/
structure UserMapped (h : Heap) (t x : Nat) (tr : Translation) : Prop where
  live : t ∈ h.live
  lt : x < 2 ^ 39
  map : mapOf h (h.task t).pageTable x = some tr
  user : tr.flags &&& pteUser ≠ 0

/-- the page at `p` is handed out as one page, user code of `t` reaches it at the page of `x` only and
nobody else does, and it is none of the pages that the kernel keeps for itself -/
structure UserPage (h : Heap) (t x p : Nat) : Prop where
  out : pageAt p ∈ h.mm.out
  alone : ∀ t' x' tr', UserMapped h t' x' tr' → tr'.pa / pageSize = PA p / pageSize →
    t' = t ∧ x' / pageSize = x / pageSize
  tables : ∀ t' ∈ h.live, p ∉ FakeKernel.tables h.mm.mem 2 (h.task t').pageTable
  stack : ∀ t' ∈ h.live, p ≠ (h.task t').kernelStack
  blocks : ∀ b ∈ h.blocks, p ≠ b - 4

theorem PA_page (hw : World h own q) {p r v m : Nat} (hp : own.Page p t (.user m v)) (hr : r < pageSize) :
    (PA p + r) / pageSize = PA p / pageSize ∧ PA p + kernBase = p + kernPhy := by
  have hin := hw.held.ok.usable (hw.held.out _ _ _ hp) (Tiling.base_mem (pageAt p))
  have h1 : PA p + kernBase = p + kernPhy := (PA_usable hin).1
  refine ⟨?_, h1⟩
  obtain ⟨n, hn⟩ := hw.held.page hp
  unfold pageSize kernBase splitAddr kernPhy phyBase at *
  omega

theorem World.userMapped (hw : World h own q) (hm : UserMapped h t x tr) : ∃ p m,
    own.Page p t (.user m (x / pageSize)) ∧ tr.pa = PA p + x % pageSize ∧ tr.pa / pageSize = PA p / pageSize := by
  obtain ⟨p, m, hp, hpa⟩ := (hw.maps t hm.live).user x hm.lt tr hm.map hm.user
  refine ⟨p, m, hp, hpa, ?_⟩
  rw [hpa]
  exact (PA_page hw hp (Nat.mod_lt _ (by decide))).1

theorem World.userPage (hw : World h own q) (hm : UserMapped h t x tr) :
    ∃ p, tr.pa = PA p + x % pageSize ∧ UserPage h t x p := by
  obtain ⟨p, m, hp, hpa, _⟩ := hw.userMapped hm
  refine ⟨p, hpa, hw.held.out _ _ _ hp, fun t' x' tr' hm' heq => ?_, fun t' ht' hin => ?_, fun t' ht' e => ?_,
    fun b hb e => ?_⟩
  · obtain ⟨p', m', hp', _, heq'⟩ := hw.userMapped hm'
    have h1 := (PA_page hw hp (r := 0) (by decide)).2
    have h2 := (PA_page hw hp' (r := 0) (by decide)).2
    have hpage := hw.held.page hp
    have hpage' := hw.held.page hp'
    have he : p' = p := by
      rw [heq] at heq'
      obtain ⟨a, ha⟩ := hpage
      obtain ⟨b, hb⟩ := hpage'
      unfold pageSize kernBase splitAddr kernPhy phyBase at *
      omega
    subst he
    obtain ⟨ht, hr⟩ := hp'.unique hp
    simp only [Role.user.injEq] at hr
    exact ⟨ht, hr.2⟩
  · exact nomatch (((hw.maps t' ht').tables p hin).unique hp).2
  · subst e
    exact nomatch ((hw.static t' ht').stack.unique hp).2
  · subst e
    exact nomatch (hw.held.blocks b hb).2.2 t _ hp

/-- in every state of a run from boot, whatever the first image was, the pages that user code reaches
are isolated -/
theorem user_pages_isolated (hr : k.Reachable) (hm : UserMapped k.heap t x tr) :
    ∃ p, tr.pa = PA p + x % pageSize ∧ UserPage k.heap t x p := by
  obtain ⟨own, q, hc⟩ := hr.consistent
  exact hc.world.userPage hm

/-! ## placement -/

/-- every live task runs or waits in one list, once, and only nodes of live tasks are referred to -/
structure Placed (k : Kernel) (q : TaskList → List Nat) : Prop where
  queue : ∀ g, k.heap.lists.Queue (.queue g) (q g)
  current : k.currentTaskNode = 0 ∨ k.currentTask ∈ k.heap.live ∧ k.currentTaskNode = (k.task k.currentTask).sched
  once : ∀ t ∈ k.heap.live, (k.task t).sched = k.currentTaskNode ∧ (∀ g, (k.task t).sched ∉ q g) ∨
    (k.task t).sched ≠ k.currentTaskNode ∧ ∃ g, (q g).count (k.task t).sched = 1 ∧
      ∀ g' ≠ g, (k.task t).sched ∉ q g'
  alive : ∀ g, ∀ n ∈ q g, ∃ t ∈ k.heap.live, n = (k.task t).sched ∧ (k.heap.node n).value = t
  held : ∀ t ∈ k.heap.live, pageAt ((k.task t).sched - 4) ∈ k.heap.mm.out

theorem World.once (hw : World h own q) {n : Nat} {g : TaskList} (hn : n ∈ q g) :
    (q g).count n = 1 ∧ ∀ g' ≠ g, n ∉ q g' :=
  ⟨List.count_eq_one_of_mem (hw.queues.nodup g) hn, fun _ hne hn' => hne (hw.queues.unique hn' hn)⟩

theorem World.alive (hw : World h own q) : ∀ g, ∀ n ∈ q g, ∃ t ∈ h.live, n = (h.task t).sched ∧
    (h.node n).value = t := by
  intro g n hn
  obtain ⟨t, ht, rfl⟩ := hw.queues.sched g n hn
  exact ⟨t, ht, rfl, hw.queues.value t ht⟩

theorem Active.placed (ha : Active k own q) : Placed k q := by
  have hw := ha.world
  refine ⟨hw.queues.queue, .inr ⟨ha.live, ha.node⟩, fun t ht => ?_, hw.alive,
    fun t ht => hw.held.out _ _ _ (hw.static t ht).sched.page⟩
  by_cases hc : t = k.currentTask
  · subst hc
    exact .inl ⟨ha.node.symm, ha.node ▸ ha.detached⟩
  · obtain ⟨g, hg⟩ := ha.queued t ht hc
    exact .inr ⟨fun e => ha.detached g (e ▸ hg), g, hw.once hg⟩

theorem Inactive.placed (ha : Inactive k own q) : Placed k q := by
  have hw := ha.world
  refine ⟨hw.queues.queue, .inl ha.nobody.2, fun t ht => ?_, hw.alive,
    fun t ht => hw.held.out _ _ _ (hw.static t ht).sched.page⟩
  obtain ⟨g, hg⟩ := ha.queued t ht
  refine .inr ⟨fun e => (hw.static t ht).sched.ne_zero (e.trans ha.nobody.2), g, hw.once hg⟩

theorem Consistent.placed (hc : Consistent k own q) : Placed k q := by
  cases hctl : k.ctl with
  | user => exact (hc.active (.inl hctl)).placed
  | thread => exact (hc.active (.inr hctl)).placed
  | schedule => exact (hc.inactive (.inl hctl)).placed
  | idle => exact (hc.inactive (.inr hctl)).placed

theorem Kernel.Reachable.placed (hr : k.Reachable) : ∃ q, Placed k q := by
  obtain ⟨own, q, hc⟩ := hr.consistent
  exact ⟨q, hc.placed⟩

/-! ## the order of dispatching -/

/-- the lists of sched nodes represent the queues `q`, and list_push, list_shift and wakeup act on them
as on queues -/
structure Queued (h : Heap) (q : TaskList → List Nat) : Prop where
  queue : ∀ g, h.lists.Queue (.queue g) (q g)
  push : ∀ t ∈ h.live, (∀ g, (h.task t).sched ∉ q g) → ∀ g g',
    (h.lists.listPush (.queue g) (h.task t).sched).Queue (.queue g') (Fifo.enqueue q g (h.task t).sched g')
  shift : ∀ g n l, q g = n :: l → (h.lists.listShift (.queue g)).1 = n ∧
    ∀ g', (h.lists.listShift (.queue g)).2.Queue (.queue g') (Function.update q g l g')
  wakeup : ∀ g ≠ .tasks, ∃ L', h.lists.wakeup g = .ok L' ∧
    ∀ g', L'.Queue (.queue g') (Fifo.release .tasks q g g')

theorem World.queued (hw : World h own q) : Queued h q where
  queue := hw.queues.queue
  push := fun t ht hnot g => (hw.push ht hnot g).1.queues.queue
  shift := fun g n l hg => by
    have hq : h.lists.Queue (.queue g) (n :: l) := hg ▸ hw.queues.queue g
    exact ⟨hq.shift_fst, (hw.shift hg).1.queues.queue⟩
  wakeup := fun g hne => by
    obtain ⟨L', hrun⟩ := hw.wakeupLoop_returns hne (hw.group_length g)
    exact ⟨L', hrun, (hw.wakeup hne hrun).1.queues.queue⟩

/-- between two states of a run, the nodes that were dispatched are those that a queue serves -/
theorem dispatch_order (hr : k.Reachable) (hs : Steps k k') : ∃ q q' evs, Queued k.heap q ∧ Queued k'.heap q' ∧
    k'.trace = k.trace ++ evs ∧ Fifo.Run .tasks q (dispatched evs) q' ∧
    ∀ pre n post, q .tasks = pre ++ n :: post →
      (∃ rest, pre = dispatched evs ++ rest ∧ ∃ added, q' .tasks = rest ++ n :: (post ++ added)) ∨
        ∃ later, dispatched evs = pre ++ n :: later := by
  obtain ⟨own, q, hc⟩ := hr.consistent
  obtain ⟨own', q', evs, hc', htr, hrun⟩ := hs.consistent hc
  exact ⟨q, q', evs, hc.world.queued, hc'.world.queued, htr, hrun, fun pre n post hq => hrun.served hq⟩

end FakeKernel
