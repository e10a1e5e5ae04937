import FakeKernel.Kernel.Loading

/-!
# task_create keeps the invariant

* `Untouched`          nothing that a task owns has changed, but for the contents of its user pages;
* `TaskAdded`          what task_create does;
* `TaskAdded.world`    the new task is live, its sched node is the last of the ready list.
-/

namespace FakeKernel
open Bytes Mm

variable {h h' h'' : Heap} {own own' own'' : Owners} {q : TaskList → List Nat} {L : Lists} {mm : Mm}
  {t t' n stack root p m : Nat} {N : List Nat} {r : Role}

/-! ## what a task owns -/

structure Untouched (h h' : Heap) (own own' : Owners) (t : Nat) : Prop where
  agree : own.Agree own' t
  mem : ∀ p, own.Page p t .table → ∀ x, onPage p x → h'.mm.mem x = h.mm.mem x
  task : SameBlocks (h.task t) (h'.task t)
  node : ∀ n r, own.Obj n t r → r.isLink = true → h'.node n = h.node n
  vm : h'.lists.list (.vmAreas t) = h.lists.list (.vmAreas t)
  pages : ∀ a n, own.Obj a t (.area n) → h'.lists.list (.pages a) = h.lists.list (.pages a)
  area : ∀ a n, own.Obj a t (.area n) → h'.area a = h.area a

theorem Role.isLink_not_loose {r : Role} (hr : r.isLink = true) : r.isLoose = false := by
  cases r with
  | loose b => exact nomatch hr
  | _ => rfl

namespace Untouched

theorem refl (h : Heap) (own : Owners) (t : Nat) : Untouched h h own own t :=
  ⟨.refl own t, fun _ _ _ _ => rfl, ⟨rfl, rfl, rfl, rfl⟩, fun _ _ _ _ => rfl, rfl, fun _ _ _ => rfl,
    fun _ _ _ => rfl⟩

theorem obj (hu : Untouched h h' own own' t) {r : Role} (hr : r.isLoose = false) :
    own'.Obj n t r ↔ own.Obj n t r :=
  and_congr_right fun _ => hu.agree _ _ hr

theorem trans (hu : Untouched h h' own own' t) (hu' : Untouched h' h'' own' own'' t) :
    Untouched h h'' own own'' t where
  agree := fun p r hr => (hu'.agree p r hr).trans (hu.agree p r hr)
  mem := fun p hp x hx => (hu'.mem p ((hu.agree p _ rfl).mpr hp) x hx).trans (hu.mem p hp x hx)
  task := by
    obtain ⟨h1, h2, h3, h4⟩ := hu.task
    obtain ⟨h1', h2', h3', h4'⟩ := hu'.task
    exact ⟨h1'.trans h1, h2'.trans h2, h3'.trans h3, h4'.trans h4⟩
  node := fun n r hn hr =>
    (hu'.node n r ((hu.obj (Role.isLink_not_loose hr)).mpr hn) hr).trans (hu.node n r hn hr)
  vm := hu'.vm.trans hu.vm
  pages := fun a n ha => (hu'.pages a n ((hu.obj rfl).mpr ha)).trans (hu.pages a n ha)
  area := fun a n ha => (hu'.area a n ((hu.obj rfl).mpr ha)).trans (hu.area a n ha)

end Untouched

/-- a step for one task leaves the others alone -/
theorem StepFor.untouched (hs : StepFor h h' own own' t N) (hh : Held h own) (ht : t' ∈ h.live)
    (hne : t' ≠ t) : Untouched h h' own own' t' where
  agree := hs.agree hne
  mem := fun _ hp _ hx => hs.same hh hp (.inl hne) hx
  task := hs.task t' ht
  node := fun n r hn hr => hs.node n t' r hn (.inl ⟨hne, hr⟩)
  vm := hs.vm t' hne
  pages := fun a n ha => hs.pages a t' n hne ha
  area := fun a n ha => hs.area a t' n hne ha

theorem Grown.untouched (g : Grown q t h own h' own') (hh : Held h own) (ht : t' ∈ h.live)
    (hne : t' ≠ t) : Untouched h h' own own' t' := by
  obtain ⟨N, hs⟩ := g.step
  exact hs.untouched hh ht hne

/-! ## a task that is not live yet -/

theorem World.not_live (hw : World h own q) (hx : Extends h.mm mm ∅ [t - 4]) : t ∉ h.live :=
  fun ht => hx.not_new (hw.held.kept (hw.static t ht).task.page) (List.mem_singleton_self _)

/-- its fields are written -/
theorem World.setNew (hw : World h own q) (ht : t ∉ h.live) (x : Task) {id : Nat}
    (hid : h.nextTaskId ≤ id) :
    Grown q t h own { h with task := Function.update h.task t x, nextTaskId := id } own := by
  refine hw.fields t rfl rfl rfl rfl hid (fun s hs => ?_) fun _ _ _ _ => .inl rfl
  have hne : s ≠ t := fun e => ht (e ▸ hs)
  show SameBlocks (h.task s) (Function.update h.task t x s)
  rw [Function.update_of_ne hne]
  exact ⟨rfl, rfl, rfl, rfl⟩

theorem World.initVm (hw : World h own q) (ht : t ∉ h.live) :
    Grown q t h own { h with lists := h.lists.listInit (.vmAreas t) } own := by
  have hlist : ∀ r, r ≠ .vmAreas t → (h.lists.listInit (.vmAreas t)).list r = h.lists.list r := by
    intro r hr
    rw [Lists.list_listInit, if_neg hr]
  have hs : StepFor h { h with lists := h.lists.listInit (.vmAreas t) } own own t [] := by
    refine ⟨Extends.for (.refl hw.held.ok) own t, .refl own, fun _ _ _ hp => .inl hp, nofun,
      ⟨[], rfl, List.nodup_nil, nofun⟩, rfl, Nat.le_refl _, fun _ _ => ⟨rfl, rfl, rfl, rfl⟩,
      fun _ _ _ _ _ => rfl, fun t' hne => ?_, fun _ _ _ _ _ => hlist _ nofun, fun _ _ _ _ _ => rfl,
      fun _ => hlist _ nofun⟩
    apply hlist
    intro e
    cases e
    exact hne rfl
  exact ⟨⟨[], hs⟩, hw.step hs fun hlive => absurd hlive ht⟩

/-! ## the new task comes to life -/

theorem Lists.node_listPush_of_ne {r : ListRef} (h0 : n ≠ 0) (hn : m ≠ n) (hl : m ≠ (L.list r).last) :
    (L.listPush r n).node m = L.node m := by
  apply ListNode.ext
  · exact Lists.value_listPush
  · rw [Lists.owner_listPush, if_neg hn]
  · rw [Lists.prev_listPush h0, if_neg hn]
  · rw [Lists.next_listPush, if_neg fun e => hl e.1]

/-- the loose blocks that become a task -/
structure Newborn (h : Heap) (own : Owners) (t n stack root : Nat) : Prop where
  dead : t ∉ h.live
  ofTask : own.Obj t t (.loose true)
  ofNode : own.Obj n t (.loose true)
  ofStack : own.Page stack t (.loose false)
  ofRoot : own.Page root t (.loose false)
  apart : t ≠ n ∧ stack ≠ root
  fields : (h.task t).sched = n ∧ (h.task t).kernelStack = stack ∧ (h.task t).pageTable = root ∧
    0 < (h.task t).pid ∧ (h.task t).pid < h.nextTaskId
  wf : WellFormed h.mm root
  single : ∀ s ∈ tables h.mm.mem 2 root, s = root
  map : ∀ x, walk h.mm.mem 2 root x = kernelMap x
  vm : h.lists.list (.vmAreas t) = { first := 0, last := 0 }
  link : (h.node n).value = t ∧ (h.node n).next = 0

def Owners.addTask (own : Owners) (t n stack root : Nat) : Owners :=
  (((own.set (t - 4) t .task).set (n - 4) t .sched).set stack t .stack).set root t .table

/-- the queues when `n` was appended to the list `g` -/
def pushed (q : TaskList → List Nat) (g : TaskList) (n : Nat) : TaskList → List Nat :=
  Function.update q g (q g ++ [n])

namespace Newborn

theorem page (hb : Newborn h own t n stack root) :
    (own.addTask t n stack root).Page p t' r ↔ (t' = t ∧ ((p = root ∧ r = .table) ∨ (p = stack ∧ r = .stack) ∨
      (p = n - 4 ∧ r = .sched) ∨ (p = t - 4 ∧ r = .task))) ∨
      (p ≠ root ∧ p ≠ stack ∧ p ≠ n - 4 ∧ p ≠ t - 4 ∧ own.Page p t' r) := by
  have h1 : root ≠ stack := hb.apart.2.symm
  have h2 : root ≠ n - 4 := hb.ofRoot.ne hb.ofNode.page nofun
  have h3 : root ≠ t - 4 := hb.ofRoot.ne hb.ofTask.page nofun
  have h4 : stack ≠ n - 4 := hb.ofStack.ne hb.ofNode.page nofun
  have h5 : stack ≠ t - 4 := hb.ofStack.ne hb.ofTask.page nofun
  have h6 : n - 4 ≠ t - 4 := by
    have := hb.apart.1
    have := hb.ofTask.1
    have := hb.ofNode.1
    omega
  unfold Owners.addTask
  rw [Owners.page_set, Owners.page_set, Owners.page_set, Owners.page_set]
  grind

theorem mono (hb : Newborn h own t n stack root) : own.Mono (own.addTask t n stack root) := by
  intro p t' r hp hr
  have hne : ∀ {p' b}, own.Page p' t (.loose b) → p ≠ p' := fun hp' e => by
    subst e
    rw [(hp.unique hp').2] at hr
    exact nomatch hr
  exact hb.page.mpr (.inr ⟨hne hb.ofRoot, hne hb.ofStack, hne hb.ofNode.page, hne hb.ofTask.page, hp⟩)

/-- nothing else changes hands -/
theorem old (hb : Newborn h own t n stack root) (hp : (own.addTask t n stack root).Page p t' r)
    (hne : t' ≠ t) : own.Page p t' r := by
  cases hb.page.mp hp with
  | inl hnew => exact absurd hnew.1 hne
  | inr hold => exact hold.2.2.2.2

theorem agree (hb : Newborn h own t n stack root) (hne : t' ≠ t) :
    own.Agree (own.addTask t n stack root) t' :=
  fun p r hr => ⟨fun hp => hb.old hp hne, fun hp => hb.mono p t' r hp hr⟩

/-- the new task has no areas -/
theorem not_listed (hb : Newborn h own t n stack root) (hw : World h own q) (hr : r.isListed = true) :
    ¬ (own.addTask t n stack root).Page p t r := by
  intro hp
  have hl : r.isLoose = false := by
    cases r with
    | loose b => exact nomatch hr
    | _ => rfl
  cases hb.page.mp hp with
  | inl hnew =>
    obtain ⟨_, ⟨_, rfl⟩ | ⟨_, rfl⟩ | ⟨_, rfl⟩ | ⟨_, rfl⟩⟩ := hnew <;> exact nomatch hr
  | inr hold => exact hb.dead (hw.held.live p t r hold.2.2.2.2 hl)

theorem not_queued (hb : Newborn h own t n stack root) (hw : World h own q) (g : TaskList) : n ∉ q g := by
  intro hn
  obtain ⟨t', ht', rfl⟩ := hw.queues.sched g n hn
  exact nomatch ((hw.static t' ht').sched.unique hb.ofNode).2

/-- the last node of the ready list is not one of a task's own lists -/
theorem ready_last (hw : World h own q) {x : Nat} (hx : own.Obj x t r) (hr : r.isLink = true) :
    x ≠ (h.lists.list (.queue .tasks)).last := by
  intro e
  have hin := (hw.queues.queue .tasks).last_mem (e ▸ hx.ne_zero)
  obtain ⟨t', ht', he⟩ := hw.queues.sched .tasks _ hin
  have hs := (hw.static t' ht').sched
  rw [← he, ← e] at hs
  rw [(hx.unique hs).2] at hr
  exact nomatch hr

end Newborn

theorem queues_push (hQ : Queues h q) (hn : n ≠ 0) (hnot : ∀ g, n ∉ q g) (hnext : (h.node n).next = 0)
    (g : TaskList) : ∀ g', (h.lists.listPush (.queue g) n).Queue (.queue g') (pushed q g n g') := by
  intro g'
  unfold pushed
  by_cases he : g' = g
  · subst he
    rw [Function.update_self]
    exact (hQ.queue g').push hn (hnot g') hnext
  · rw [Function.update_of_ne he]
    have hr : ListRef.queue g' ≠ .queue g := fun e => he (by cases e; rfl)
    refine (hQ.queue g).push_frame (hQ.queue g') hr (fun m hm hm' => ?_) (hnot g')
    have h1 := (hQ.queue g).owner m hm
    rw [(hQ.queue g').owner m hm'] at h1
    exact hr (Option.some.inj h1)

/-- the heap with a new task -/
def Heap.bear (t n : Nat) (h : Heap) : Heap :=
  { h with lists := h.lists.listPush (.queue .tasks) n, live := t :: h.live }

namespace Newborn

theorem node_bear (hb : Newborn h own t n stack root) (hw : World h own q) {x : Nat}
    (hx : own.Obj x t' r) (hr : r.isLink = true) : (h.bear t n).node x = h.node x := by
  have hne : x ≠ n := hx.ne hb.ofNode fun e => by
    rw [e] at hr
    exact nomatch hr
  exact Lists.node_listPush_of_ne hb.ofNode.ne_zero hne (ready_last hw hx hr)

theorem list_bear {r : ListRef} (hr : r ≠ .queue .tasks) : (h.bear t n).lists.list r = h.lists.list r := by
  show (h.lists.listPush (.queue .tasks) n).list r = _
  rw [Lists.list_listPush, if_neg hr]

theorem untouched (hb : Newborn h own t n stack root) (hw : World h own q) (ht : t' ∈ h.live) :
    Untouched h (h.bear t n) own (own.addTask t n stack root) t' where
  agree := hb.agree fun e => hb.dead (e ▸ ht)
  mem := fun _ _ _ _ => rfl
  task := ⟨rfl, rfl, rfl, rfl⟩
  node := fun _ _ hn hr => hb.node_bear hw hn hr
  vm := list_bear nofun
  pages := fun _ _ _ => list_bear nofun
  area := fun _ _ _ => rfl

theorem held (hb : Newborn h own t n stack root) (hw : World h own q) :
    Held (h.bear t n) (own.addTask t n stack root) := by
  have hloose : ∀ p t' r, (own.addTask t n stack root).Page p t' r →
      ∃ r', own.Page p t' r' ∧ r'.object = r.object := by
    intro p t' r hp
    cases hb.page.mp hp with
    | inl hnew =>
      obtain ⟨rfl, ⟨rfl, rfl⟩ | ⟨rfl, rfl⟩ | ⟨rfl, rfl⟩ | ⟨rfl, rfl⟩⟩ := hnew
      · exact ⟨_, hb.ofRoot, rfl⟩
      · exact ⟨_, hb.ofStack, rfl⟩
      · exact ⟨_, hb.ofNode.page, rfl⟩
      · exact ⟨_, hb.ofTask.page, rfl⟩
    | inr hold => exact ⟨r, hold.2.2.2.2, rfl⟩
  refine ⟨hw.held.ok, fun p t' r hp => ?_, fun p t' r hp hobj => ?_, fun p t' r hp hl => ?_,
    fun b hmem => ?_, hw.held.nodup.1, List.nodup_cons.mpr ⟨hb.dead, hw.held.nodup.2⟩⟩
  · obtain ⟨r', hp', _⟩ := hloose p t' r hp
    exact hw.held.out p t' r' hp'
  · obtain ⟨r', hp', he⟩ := hloose p t' r hp
    exact hw.held.head p t' r' hp' (he.trans hobj)
  · by_cases he : t' = t
    · exact he ▸ List.mem_cons_self
    · exact List.mem_cons_of_mem _ (hw.held.live p t' r (hb.old hp he) hl)
  · obtain ⟨h4, hout, hobj⟩ := hw.held.blocks b hmem
    refine ⟨h4, hout, fun t' r hp => ?_⟩
    obtain ⟨r', hp', he⟩ := hloose _ t' r hp
    exact he.symm.trans (hobj t' r' hp')

/-- a task without areas -/
theorem areas (hb : Newborn h own t n stack root) (hw : World h own q) :
    Areas (h.bear t n).lists (own.addTask t n stack root) t := by
  have hno : ∀ {x r}, r.isListed = true → ¬ (own.addTask t n stack root).Obj x t r :=
    fun hr hx => hb.not_listed hw hr hx.page
  have hvm : (h.bear t n).lists.list (.vmAreas t) = { first := 0, last := 0 } := by
    rw [list_bear (r := .vmAreas t) nofun]
    exact hb.vm
  refine ⟨⟨?_, ?_, fun x hx => absurd hx (hno rfl), fun x hx => absurd hx (hno rfl)⟩,
    fun x a => ⟨fun ha => absurd ha (hno rfl), fun ⟨hx, _⟩ => absurd hx (hno rfl)⟩,
    fun a x ha => absurd ha (hno rfl), fun m p => ⟨fun ⟨v, hp⟩ => absurd hp (hb.not_listed hw rfl),
      fun ⟨⟨a, hm⟩, _⟩ => absurd hm (hno rfl)⟩, fun a m hm => absurd hm (hno rfl)⟩
  · rw [hvm]
    exact .inl rfl
  · rw [hvm]
    exact .inl rfl

theorem maps (hb : Newborn h own t n stack root) : Maps h.mm (own.addTask t n stack root) t root := by
  have hroot : (own.addTask t n stack root).Page root t .table := Owners.set_self
  refine ⟨hb.wf, fun s hs => ?_, fun x hx tr htr hu => ?_, fun x hx tr htr _ => ?_⟩
  · rw [hb.single s hs]
    exact hroot
  · rw [hb.map] at htr
    exact absurd (kernelMap_user htr) hu
  · rw [← hb.map]
    exact htr

theorem queues (hb : Newborn h own t n stack root) (hw : World h own q) :
    Queues (h.bear t n) (pushed q .tasks n) := by
  have hnot := hb.not_queued hw
  have hQ := hw.queues
  have hmem : ∀ g m, m ∈ pushed q .tasks n g ↔ m ∈ q g ∨ (g = .tasks ∧ m = n) := by
    intro g m
    unfold pushed
    by_cases he : g = .tasks
    · subst he
      rw [Function.update_self, List.mem_append, List.mem_singleton]
      exact or_congr_right ⟨fun e => ⟨rfl, e⟩, fun e => e.2⟩
    · rw [Function.update_of_ne he]
      exact ⟨.inl, fun hm => hm.resolve_right fun e => he e.1⟩
  have hn : (h.task t).sched = n := hb.fields.1
  refine ⟨queues_push hQ hb.ofNode.ne_zero hnot hb.link.2 .tasks, fun g m hm => ?_, fun t' ht' => ?_,
    fun t' ht' hout => ?_⟩
  · cases (hmem g m).mp hm with
    | inl hold =>
      obtain ⟨t', ht', he⟩ := hQ.sched g m hold
      exact ⟨t', List.mem_cons_of_mem _ ht', he⟩
    | inr hnew => exact ⟨t, List.mem_cons_self, hnew.2.trans hn.symm⟩
  · show ((h.lists.listPush (.queue .tasks) n).node (h.task t').sched).value = t'
    rw [Lists.value_listPush]
    cases List.mem_cons.mp ht' with
    | inl he =>
      subst he
      rw [hn]
      exact hb.link.1
    | inr hold => exact hQ.value t' hold
  · have hout' : ∀ g, (h.task t').sched ∉ q g := fun g hm => hout g ((hmem g _).mpr (.inl hm))
    cases List.mem_cons.mp ht' with
    | inl he =>
      subst he
      exact absurd ((hmem .tasks _).mpr (.inr ⟨rfl, hn⟩)) (hout .tasks)
    | inr hold =>
      have hne : (h.task t').sched ≠ n := fun e =>
        hout .tasks ((hmem .tasks _).mpr (.inr ⟨rfl, e⟩))
      obtain ⟨h1, h2⟩ := (hQ.queue .tasks).push_other (hout' .tasks) hne
      obtain ⟨h3, h4⟩ := hQ.detached t' hold hout'
      exact ⟨h1.trans h3, h2.trans h4⟩

theorem world (hb : Newborn h own t n stack root) (hw : World h own q) :
    World (h.bear t n) (own.addTask t n stack root) (pushed q .tasks n) := by
  have hpage : ∀ {p r}, (own.addTask t n stack root).Page p t r ↔ _ := hb.page
  refine ⟨hb.held hw, fun t' ht' => ?_, fun t' a m ha => ?_, fun t' ht' => ?_, fun t' ht' => ?_,
    fun t' ht' => ?_, hb.queues hw⟩
  · cases List.mem_cons.mp ht' with
    | inl he =>
      subst he
      exact ⟨hb.fields.2.2.2.1, hb.fields.2.2.2.2⟩
    | inr hold => exact hw.pids t' hold
  · by_cases he : t' = t
    · subst he
      exact absurd ha.page (hb.not_listed hw rfl)
    · exact hw.aligned t' a m ⟨ha.1, hb.old ha.page he⟩
  · cases List.mem_cons.mp ht' with
    | inl he =>
      subst he
      obtain ⟨hsched, hstack, _⟩ := hb.fields
      refine ⟨⟨hb.ofTask.1, hpage.mpr (.inl ⟨rfl, .inr (.inr (.inr ⟨rfl, rfl⟩))⟩)⟩, ?_, ?_⟩
      · show (own.addTask t' n stack root).Obj (h.task t').sched t' .sched
        rw [hsched]
        exact ⟨hb.ofNode.1, hpage.mpr (.inl ⟨rfl, .inr (.inr (.inl ⟨rfl, rfl⟩))⟩)⟩
      · show (own.addTask t' n stack root).Page (h.task t').kernelStack t' .stack
        rw [hstack]
        exact hpage.mpr (.inl ⟨rfl, .inr (.inl ⟨rfl, rfl⟩)⟩)
    | inr hold => exact (hw.static t' hold).congr hb.mono ⟨rfl, rfl, rfl, rfl⟩
  · cases List.mem_cons.mp ht' with
    | inl he =>
      subst he
      show Maps h.mm _ t' (h.task t').pageTable
      rw [hb.fields.2.2.1]
      exact hb.maps
    | inr hold =>
      exact (hw.maps t' hold).congr (hb.agree fun e => hb.dead (e ▸ hold)) (.refl hw.held.ok) nofun
  · cases List.mem_cons.mp ht' with
    | inl he => exact he ▸ hb.areas hw
    | inr hold =>
      have hu := hb.untouched hw hold
      exact (hw.areas t' hold).congr hu.agree.listed ⟨hu.node, hu.vm, hu.pages⟩

end Newborn

/-! ## task_create -/

theorem Heap.createPageTable_heap (hrun : h.createPageTable = .ok (root, h')) :
    ∃ mm, h' = { h with mm := mm } ∧ FakeKernel.createPageTable h.mm = .ok (root, mm) := by
  unfold Heap.createPageTable at hrun
  obtain ⟨⟨table, mm⟩, hcreate, hret⟩ := Res.bind_eq_ok.mp hrun
  cases hret
  exact ⟨mm, rfl, hcreate⟩

/-- the fields of a task that task_create returns; its registers are what was there before -/
def newTask (h : Heap) (parent t n stack root : Nat) : Task :=
  { h.task t with
    pid := h.nextTaskId
    parent := parent
    sched := n
    kernelStack := stack
    pageTable := root
    mode := .supervisor
    kernelFrame := .taskEntry }

/-- the pages of a new task, the last one first -/
def newPages (t n stack root : Nat) : List Nat := [n - 4] ++ ([root] ++ ([stack] ++ [t - 4]))

/-- task_create made the task `t` -/
structure TaskAdded (q : TaskList → List Nat) (parent : Nat) (h : Heap) (own : Owners) (h' : Heap)
    (own' : Owners) (t n stack root : Nat) : Prop where
  fresh : t ∉ h.live
  mm : Extends h.mm h'.mm ∅ (newPages t n stack root)
  task : h'.task = Function.update h.task t (newTask h parent t n stack root)
  live : h'.live = t :: h.live
  pids : h'.nextTaskId = h.nextTaskId + 1
  area : h'.area = h.area
  owners : own' = own.addTask t n stack root
  single : ∀ s ∈ tables h'.mm.mem 2 root, s = root
  map : ∀ x, mapOf h' root x = kernelMap x
  vm : h'.lists.list (.vmAreas t) = { first := 0, last := 0 }
  world : World h' own' (pushed q .tasks n)
  untouched : ∀ t' ∈ h.live, Untouched h h' own own' t'

theorem Owners.addTask_loose (own : Owners) {a b c d : Nat} {x y z w : Role} (ha : a = t - 4) (hd : d = n - 4) :
    ((((own.set a t x).set b t y).set c t z).set d t w).addTask t n b c = own.addTask t n b c := by
  subst ha hd
  funext p
  unfold Owners.addTask Owners.set
  grind

theorem taskInitSched_spec {ret : Int} (hok : h.mm.Ok) (hrun : h.taskInitSched t = .ok (ret, h')) :
    ret = 0 ∧ ∃ mm n, Extends h.mm mm ∅ [n - 4] ∧ load 4 mm.mem (n - 4) = 0 ∧ 4 ≤ n ∧
      h' = { h with
        mm := mm
        lists := ((h.lists.listInit (.vmAreas t)).setNode n (h.newNode n t)).listPush (.queue .tasks) n
        task := Function.update h.task t
          { h.task t with mode := .supervisor, kernelFrame := .taskEntry, sched := n }
        blocks := n :: h.blocks } := by
  unfold Heap.taskInitSched at hrun
  obtain ⟨⟨n, h₁⟩, hnode, hrun⟩ := Res.bind_eq_ok.mp hrun
  obtain ⟨mm, rfl, h4, hx, hhead⟩ := Heap.listNodeCreate_spec (by exact hok) hnode
  have hn : n ≠ 0 := by omega
  simp only [hn, if_false] at hrun
  cases hrun
  refine ⟨rfl, mm, n, hx, hhead, h4, ?_⟩
  simp only [Heap.setTask, Heap.listInit, Heap.listPush, Function.update_self, Function.update_idem]
  rfl

/-- the heap of a new task before it comes to life -/
def Heap.unborn (parent t n stack root : Nat) (mm : Mm) (h : Heap) : Heap :=
  { h with
    mm := mm
    lists := (h.lists.listInit (.vmAreas t)).setNode n (h.newNode n t)
    task := Function.update h.task t (newTask h parent t n stack root)
    nextTaskId := h.nextTaskId + 1
    blocks := n :: t :: h.blocks }

/-- the steps of task_create, without what they are for -/
theorem taskCreate_steps {parent : Nat} (hok : h.mm.Ok) (hrun : h.taskCreate parent = .ok (t, h')) :
    ∃ n stack root mm₁ mm₂ mm₃ mm₄, 4 ≤ t ∧ Extends h.mm mm₁ ∅ [t - 4] ∧ load 4 mm₁.mem (t - 4) = 0 ∧
      Extends mm₁ mm₂ ∅ [stack] ∧ FakeKernel.createPageTable mm₂ = .ok (root, mm₃) ∧ 4 ≤ n ∧
      Extends mm₃ mm₄ ∅ [n - 4] ∧ load 4 mm₄.mem (n - 4) = 0 ∧
      h' = (h.unborn parent t n stack root mm₄).bear t n := by
  unfold Heap.taskCreate at hrun
  obtain ⟨⟨t', h₁⟩, hk, hrun⟩ := Res.bind_eq_ok.mp hrun
  obtain ⟨mm₁, rfl, ht4, hx₁, hhead₁⟩ := Heap.kmalloc_spec hok (by decide) hk
  have ht0 : t' ≠ 0 := by omega
  simp only [ht0, if_false] at hrun
  obtain ⟨⟨stack, h₂⟩, hstack, hrun⟩ := Res.bind_eq_ok.mp hrun
  obtain ⟨mm₂, rfl, hs0, hx₂⟩ := Heap.allocPage_spec (by exact hx₁.ok) hstack
  simp only [hs0, if_false] at hrun
  obtain ⟨⟨root, h₃⟩, hroot, hrun⟩ := Res.bind_eq_ok.mp hrun
  obtain ⟨mm₃, rfl, hcreate⟩ := Heap.createPageTable_heap hroot
  obtain ⟨hx₃, _⟩ := createPageTable_spec hx₂.ok hcreate
  have hr0 : root ≠ 0 := hx₃.new_ne_zero (List.mem_singleton_self root)
  simp only [hr0, if_false] at hrun
  obtain ⟨⟨ret, h₄⟩, hinit, hrun⟩ := Res.bind_eq_ok.mp hrun
  obtain ⟨rfl, mm₄, n, hx₄, hhead₄, hn4, rfl⟩ := taskInitSched_spec (by exact hx₃.ok) hinit
  simp only [ne_eq, not_true_eq_false, if_false] at hrun
  cases hrun
  refine ⟨n, stack, root, mm₁, mm₂, mm₃, mm₄, ht4, hx₁, hhead₁, hx₂, hcreate, hn4, hx₄, hhead₄, ?_⟩
  simp only [Heap.setTask, Function.update_self, Function.update_idem]
  rfl

theorem taskCreate_added {parent : Nat} (hw : World h own q) (hid : 0 < h.nextTaskId)
    (hrun : h.taskCreate parent = .ok (t, h')) :
    ∃ own' n stack root, TaskAdded q parent h own h' own' t n stack root := by
  obtain ⟨n, stack, root, mm₁, mm₂, mm₃, mm₄, ht4, hx₁, hhead₁, hx₂, hcreate, hn4, hx₄, hhead₄, rfl⟩ :=
    taskCreate_steps hw.held.ok hrun
  obtain ⟨hx₃, hwf₃, htab₃, hmap₃⟩ := createPageTable_spec hx₂.ok hcreate
  have hdead := hw.not_live hx₁
  have g₁ := hw.takeObject hx₁ ht4 hhead₁ t
  have g₂ := g₁.world.takePage hx₂ t
  have g₃ := g₂.world.takePage hx₃ t
  have g₄ := g₃.world.takeObject hx₄ hn4 hhead₄ t
  have g₅ := g₄.world.setNew hdead (newTask h parent t n stack root) (Nat.le_succ h.nextTaskId)
  have g₆ := g₅.world.initVm hdead
  have hT₁ : (own.set (t - 4) t (.loose true)).Page (t - 4) t (.loose true) := Owners.set_self
  have hS₂ : ((own.set (t - 4) t (.loose true)).set stack t (.loose false)).Page stack t (.loose false) :=
    Owners.set_self
  have hR₃ : (((own.set (t - 4) t (.loose true)).set stack t (.loose false)).set root t (.loose false)).Page root t
      (.loose false) := Owners.set_self
  have hN₄ : ((((own.set (t - 4) t (.loose true)).set stack t (.loose false)).set root t (.loose false)).set (n - 4) t
      (.loose true)).Page (n - 4) t (.loose true) := Owners.set_self
  -- each of the four pages is new when it is taken
  have hne₂ : t - 4 ≠ stack := fun e =>
    hx₂.not_new (g₁.world.held.kept hT₁) (e ▸ List.mem_singleton_self _)
  have hT₂ := (Owners.set_of_ne (t := t) (r := .loose false) hne₂).mpr hT₁
  have hneS : stack ≠ root := fun e =>
    hx₃.not_new (g₂.world.held.kept hS₂) (e ▸ List.mem_singleton_self _)
  have hneT : t - 4 ≠ root := fun e =>
    hx₃.not_new (g₂.world.held.kept hT₂) (e ▸ List.mem_singleton_self _)
  have hT₃ := (Owners.set_of_ne (t := t) (r := .loose false) hneT).mpr hT₂
  have hS₃ := (Owners.set_of_ne (t := t) (r := .loose false) hneS).mpr hS₂
  have hnew₄ : ∀ {p r}, (((own.set (t - 4) t (.loose true)).set stack t (.loose false)).set root t
      (.loose false)).Page p t r → p ≠ n - 4 := fun hp e =>
    hx₄.not_new (g₃.world.held.kept hp) (e ▸ List.mem_singleton_self _)
  have hT₄ := (Owners.set_of_ne (t := t) (r := .loose true) (hnew₄ hT₃)).mpr hT₃
  have hS₄ := (Owners.set_of_ne (t := t) (r := .loose true) (hnew₄ hS₃)).mpr hS₃
  have hR₄ := (Owners.set_of_ne (t := t) (r := .loose true) (hnew₄ hR₃)).mpr hR₃
  have g₇ := g₆.world.setNode t hN₄ (h.newNode n t)
  have g := (((((g₁.trans g₂).trans g₃).trans g₄).trans g₅).trans g₆).trans g₇
  obtain ⟨hwf₄, hwalk₄, htab₄⟩ := hwf₃.extends hx₄ fun _ _ => nofun
  have hmap₄ : ∀ x, walk mm₄.mem 2 root x = kernelMap x := fun x => (hwalk₄ x).trans (hmap₃ x)
  have hfields : (h.unborn parent t n stack root mm₄).task t = newTask h parent t n stack root :=
    Function.update_self _ _ _
  have hnode : (h.unborn parent t n stack root mm₄).node n = h.newNode n t := by
    show ((h.lists.listInit (.vmAreas t)).setNode n (h.newNode n t)).node n = _
    rw [Lists.node_setNode, if_pos rfl]
  have hvm : (h.unborn parent t n stack root mm₄).lists.list (.vmAreas t) = { first := 0, last := 0 } := by
    show ((h.lists.listInit (.vmAreas t)).setNode n (h.newNode n t)).list (.vmAreas t) = _
    rw [Lists.list_setNode, Lists.list_listInit, if_pos rfl]
  have hb : Newborn (h.unborn parent t n stack root mm₄) ((((own.set (t - 4) t (.loose true)).set stack t
      (.loose false)).set root t (.loose false)).set (n - 4) t (.loose true)) t n stack root := by
    refine ⟨hdead, ⟨ht4, hT₄⟩, ⟨hn4, hN₄⟩, hS₄, hR₄, ⟨fun e => hnew₄ hT₃ (by rw [e]), hneS⟩, ?_, hwf₄,
      fun s hs => ?_, hmap₄, hvm, ?_⟩
    · rw [hfields]
      exact ⟨rfl, rfl, rfl, hid, Nat.lt_succ_self _⟩
    · have hs : s ∈ tables mm₄.mem 2 root := hs
      rw [htab₄] at hs
      exact htab₃ s hs
    · rw [hnode]
      exact ⟨rfl, rfl⟩
  have hw' := hb.world g₇.world
  refine ⟨_, n, stack, root, hdead, ?_, rfl, rfl, rfl, rfl, ?_, fun s hs => hb.single s hs, hmap₄, ?_, hw',
    fun t' ht' => ?_⟩
  · exact ((hx₁.trans hx₂ nofun).trans hx₃ nofun).trans hx₄ nofun
  · exact Owners.addTask_loose own rfl rfl
  · rw [Newborn.list_bear (r := .vmAreas t) nofun]
    exact hvm
  · have hne : t' ≠ t := fun e => hdead (e ▸ ht')
    exact (g.untouched hw.held ht' hne).trans (hb.untouched g₇.world (g.live ▸ ht'))

/-! ## task_clone -/

theorem TaskAdded.obj {parent : Nat} (ha : TaskAdded q parent h own h' own' t n stack root) :
    own'.Obj t t .task ∧ own'.Obj n t .sched := by
  have hlive : t ∈ h'.live := ha.live ▸ List.mem_cons_self
  have hstatic := ha.world.static t hlive
  have hsched : (h'.task t).sched = n := by
    rw [ha.task, Function.update_self]
    rfl
  exact ⟨hstatic.task, hsched ▸ hstatic.sched⟩

theorem isErr_of_usable {x : Nat} (hx : x - 4 ∈ usable) : isErr x = false := by
  have hlt : x - 4 < kernPhyBase + 2 ^ 22 := hx.2
  unfold isErr
  simp only [decide_eq_false_iff_not]
  unfold kernPhyBase kernBase splitAddr at hlt
  unfold wordCount
  omega

/-- objects lie far below the error codes -/
theorem Held.not_err (hh : Held h own) {x : Nat} (hx : own.Obj x t r) : isErr x = false :=
  isErr_of_usable (hh.ok.usable (hh.out _ _ _ hx.page) (Tiling.base_mem (pageAt (x - 4))))

/-- a child `t` was made and the areas of `parent` were cloned -/
structure TaskCloned (q : TaskList → List Nat) (regs : Cpu) (parent : Nat) (k : Kernel) (own : Owners)
    (k' : Kernel) (own' : Owners) (t n : Nat) : Prop where
  steps : ∃ h₁ own₁ stack root k₁, TaskAdded q parent k.heap own h₁ own₁ t n stack root ∧
    (k.setHeap h₁).vmClone regs (.vmAreas parent) t = .ok k₁ ∧
    Grown (pushed q .tasks n) t h₁ own₁ k₁.heap own' ∧ SameControl (k.setHeap h₁) k₁ ∧
    k' = k₁.setHeap (k₁.heap.setFrame t (k₁.task parent).userFrame)
  world : World k'.heap own' (pushed q .tasks n)

theorem taskClone_added {k k' : Kernel} {regs : Cpu} {parent : Nat} (hw : World k.heap own q)
    (hparent : parent ∈ k.heap.live) (hrun : k.taskClone regs parent = .ok (t, k')) :
    isErr t = false ∧ ∃ h₁ own₁ n stack root k₁, TaskAdded q parent k.heap own h₁ own₁ t n stack root ∧
      (k.setHeap h₁).vmClone regs (.vmAreas parent) t = .ok k₁ ∧
      k' = k₁.setHeap (k₁.heap.setFrame t (k₁.task parent).userFrame) := by
  unfold Kernel.taskClone at hrun
  obtain ⟨⟨t', h₁⟩, hcreate, hrun⟩ := Res.bind_eq_ok.mp hrun
  have hid : 0 < k.heap.nextTaskId := by
    have := hw.pids parent hparent
    omega
  obtain ⟨own₁, n, stack, root, ha⟩ := taskCreate_added hw hid hcreate
  have hgood := ha.world.held.not_err ha.obj.1
  simp only [hgood, Bool.false_eq_true, if_false] at hrun
  obtain ⟨k₁, hclone, hret⟩ := Res.bind_eq_ok.mp hrun
  cases hret
  exact ⟨hgood, h₁, own₁, n, stack, root, k₁, ha, hclone, rfl⟩

theorem TaskAdded.cloned {k k₁ : Kernel} {regs : Cpu} {parent : Nat} {h₁ : Heap} {own₁ : Owners}
    (ha : TaskAdded q parent k.heap own h₁ own₁ t n stack root)
    (hclone : (k.setHeap h₁).vmClone regs (.vmAreas parent) t = .ok k₁)
    (hg : Grown (pushed q .tasks n) t h₁ own₁ k₁.heap own') (hc : SameControl (k.setHeap h₁) k₁) :
    TaskCloned q regs parent k own (k₁.setHeap (k₁.heap.setFrame t (k₁.task parent).userFrame)) own' t n :=
  ⟨⟨h₁, own₁, stack, root, k₁, ha, hclone, hg, hc, rfl⟩,
    (hg.world.setFrame t t (k₁.task parent).userFrame).world⟩

theorem taskClone_cloned {k k' : Kernel} {regs : Cpu} {parent : Nat} (hw : World k.heap own q)
    (hparent : parent ∈ k.heap.live) (hrun : k.taskClone regs parent = .ok (t, k')) :
    isErr t = false ∧ ∃ own' n, TaskCloned q regs parent k own k' own' t n := by
  obtain ⟨hgood, h₁, own₁, n, stack, root, k₁, ha, hclone, rfl⟩ := taskClone_added hw hparent hrun
  have hlive : t ∈ h₁.live := ha.live ▸ List.mem_cons_self
  have hplive : parent ∈ h₁.live := ha.live ▸ List.mem_cons_of_mem _ hparent
  obtain ⟨own', hg, hc⟩ := vmClone_world (k := k.setHeap h₁) ha.world hlive hplive hclone
  exact ⟨hgood, own', n, ha.cloned hclone hg hc⟩

namespace TaskCloned
variable {k k' : Kernel} {regs : Cpu} {parent : Nat}

/-- nothing of the kernel has changed besides memory and frames -/
theorem control (hc : TaskCloned q regs parent k own k' own' t n) :
    ∃ frame b c, k' = { k with heap := k'.heap, trapframe := frame, mayPageFault := b, sum := c } := by
  obtain ⟨h₁, _, _, _, k₁, _, _, _, hcon, rfl⟩ := hc.steps
  obtain ⟨frame, b, c, hk₁⟩ := hcon.rest
  refine ⟨frame, b, c, ?_⟩
  rw [hk₁]
  rfl

theorem live (hc : TaskCloned q regs parent k own k' own' t n) :
    t ∉ k.heap.live ∧ k'.heap.live = t :: k.heap.live := by
  obtain ⟨h₁, _, _, _, k₁, ha, _, hg, _, rfl⟩ := hc.steps
  refine ⟨ha.fresh, ?_⟩
  show k₁.heap.live = _
  rw [hg.live, ha.live]

theorem sched (hc : TaskCloned q regs parent k own k' own' t n) : (k'.heap.task t).sched = n := by
  obtain ⟨h₁, _, _, _, k₁, ha, _, hg, _, rfl⟩ := hc.steps
  obtain ⟨_, hs⟩ := hg.step
  have hsame := hs.task t (ha.live ▸ List.mem_cons_self)
  show (Function.update k₁.heap.task t _ t).sched = n
  rw [Function.update_self, hsame.1, ha.task, Function.update_self]
  rfl

/-- the tasks that there were before have not changed -/
theorem untouched (hc : TaskCloned q regs parent k own k' own' t n) (ht : t' ∈ k.heap.live) :
    Untouched k.heap k'.heap own own' t' := by
  obtain ⟨h₁, own₁, _, _, k₁, ha, _, hg, _, rfl⟩ := hc.steps
  have hne : t' ≠ t := fun e => ha.fresh (e ▸ ht)
  have ht₁ : t' ∈ h₁.live := ha.live ▸ List.mem_cons_of_mem _ ht
  have hg' := hg.world.setFrame t t (k₁.task parent).userFrame
  exact (ha.untouched t' ht).trans ((hg.trans hg').untouched ha.world.held ht₁ hne)

end TaskCloned

end FakeKernel
