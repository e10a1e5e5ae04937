import FakeKernel.Kernel.Exit

/-!
# What a task has in use, and nothing else

`World` says that what is in the lists and in the page table of a task is its own.  Here it is the
other way round: nothing that it owns is forgotten.

* `Complete`       the lists of a task hold all its nodes, and its page table all its tables;
* `Complete.taskBlocks`   then task_destroy gives everything back;
* `Complete.addArea`, `Complete.addPage`   what vm_clone, load_elf and task_entry do to it.
-/

namespace FakeKernel
open Bytes Mm

variable {h h' h₀ : Heap} {own own' : Owners} {q : TaskList → List Nat} {L L' : Lists}
  {t t' n a m p va flags s : Nat} {ns ms : List Nat} {r : Role} {x : VmArea}

/-! ## which pages a turn takes -/

/-- the pages that come into use when an area is added -/
theorem AreaTurn.page_iff (hat : AreaTurn q t x h own h' own' n a) (hh : Held h own) :
    own'.Page s t' r ↔ (s = a - 4 ∧ t' = t ∧ r = .area n) ∨ (s = n - 4 ∧ t' = t ∧ r = .vnode) ∨
      own.Page s t' r := by
  have hx := hat.added.extends
  have hnew : ∀ {s t' r}, own.Page s t' r → s ≠ a - 4 ∧ s ≠ n - 4 := by
    intro s t' r hp
    have hnot := hx.not_new (hh.kept hp)
    exact ⟨fun e => hnot (e ▸ List.mem_append_right _ (List.mem_singleton_self _)),
      fun e => hnot (e ▸ List.mem_append_left _ (List.mem_singleton_self _))⟩
  have hne := hat.added.ne
  rw [hat.owners]
  show ((own.set (n - 4) t .vnode).set (a - 4) t (.area n)).Page s t' r ↔ _
  rw [Owners.page_set, Owners.page_set]
  constructor
  · intro hp
    rcases hp with hp | ⟨_, hp | ⟨_, hp⟩⟩
    · exact .inl hp
    · exact .inr (.inl hp)
    · exact .inr (.inr hp)
  · intro hp
    rcases hp with hp | ⟨rfl, ht, hr⟩ | hp
    · exact .inl hp
    · exact .inr ⟨hne, .inl ⟨rfl, ht, hr⟩⟩
    · exact .inr ⟨(hnew hp).1, .inr ⟨(hnew hp).2, hp⟩⟩

theorem AreaTurn.obj_iff (hat : AreaTurn q t x h own h' own' n a) (hh : Held h own) {y : Nat} :
    own'.Obj y t' r ↔ (y = a ∧ t' = t ∧ r = .area n) ∨ (y = n ∧ t' = t ∧ r = .vnode) ∨ own.Obj y t' r := by
  have ha4 := hat.added.area4
  have hn4 := hat.added.node4
  constructor
  · intro hy
    have h4 := hy.1
    rcases (hat.page_iff hh).mp hy.page with ⟨he, hr⟩ | ⟨he, hr⟩ | hp
    · exact .inl ⟨by omega, hr⟩
    · exact .inr (.inl ⟨by omega, hr⟩)
    · exact .inr (.inr ⟨h4, hp⟩)
  · intro hy
    rcases hy with ⟨rfl, hr⟩ | ⟨rfl, hr⟩ | hy
    · exact ⟨ha4, (hat.page_iff hh).mpr (.inl ⟨rfl, hr⟩)⟩
    · exact ⟨hn4, (hat.page_iff hh).mpr (.inr (.inl ⟨rfl, hr⟩))⟩
    · exact ⟨hy.1, (hat.page_iff hh).mpr (.inr (.inr hy.page))⟩

/-- the pages that come into use when a page is added: the page, its node and tables -/
structure PageTaken (t a m p v : Nat) (h : Heap) (own : Owners) (h' : Heap) (own' : Owners)
    (N M : List Nat) : Prop where
  taken : Taken h h' own t p m N M
  page : ∀ s t' r, r.isLoose = false → (own'.Page s t' r ↔ (s ∈ N ∧ t' = t ∧ r = .table) ∨
    (s = p ∧ t' = t ∧ r = .user m v) ∨ (s = m - 4 ∧ t' = t ∧ r = .pnode a) ∨ own.Page s t' r)
  loose : ∀ s t' b, own'.Page s t' (.loose b) → own.Page s t' (.loose b)

theorem PageTurn.takes (hpt : PageTurn q t a va flags h own h' own' p m) (hh : Held h own) :
    ∃ N M, PageTaken t a m p (vpnOf va) h own h' own' N M := by
  obtain ⟨N, M, hown, htk⟩ := hpt.owners
  have hfresh : ∀ {s t' r}, own.Page s t' r → s ∉ M := fun hp => htk.mm.not_new (hh.kept hp)
  have hiff : ∀ {s t' r}, own'.Page s t' r ↔ (s ∈ N ∧ t' = t ∧ r = .table) ∨ (s ∉ N ∧
      ((s = p ∧ t' = t ∧ r = .user m (vpnOf va)) ∨ (s ≠ p ∧
        ((s = m - 4 ∧ t' = t ∧ r = .pnode a) ∨ (s ≠ m - 4 ∧ own.Page s t' r))))) := by
    intro s t' r
    rw [hown, Owners.page_setTables]
    show _ ∨ (_ ∧ ((own.set (m - 4) t (.pnode a)).set p t (.user m (vpnOf va))).Page s t' r) ↔ _
    rw [Owners.page_set, Owners.page_set]
  refine ⟨N, M, htk, fun s t' r hr => ?_, fun s t' b hp => ?_⟩
  · rw [hiff]
    constructor
    · intro hp
      rcases hp with hp | ⟨_, hp | ⟨_, hp | ⟨_, hp⟩⟩⟩
      · exact .inl hp
      · exact .inr (.inl hp)
      · exact .inr (.inr (.inl hp))
      · exact .inr (.inr (.inr hp))
    · intro hp
      rcases hp with hp | ⟨rfl, hp⟩ | ⟨rfl, hp⟩ | hp
      · exact .inl hp
      · exact .inr ⟨htk.page.2.1, .inl ⟨rfl, hp⟩⟩
      · exact .inr ⟨htk.node.2, .inr ⟨htk.page.2.2.symm, .inl ⟨rfl, hp⟩⟩⟩
      · have hM := hfresh hp
        have hne : s ≠ p := fun e => by
          subst e
          refine htk.page.1.elim hM fun hl => ?_
          rw [(hp.unique hl).2] at hr
          exact nomatch hr
        exact .inr ⟨fun hN => hM (htk.tables s hN), .inr ⟨hne, .inr ⟨fun e => hM (e ▸ htk.node.1), hp⟩⟩⟩
  · rcases hiff.mp hp with ⟨_, _, he⟩ | ⟨_, ⟨_, _, he⟩ | ⟨_, ⟨_, _, he⟩ | ⟨_, hp⟩⟩⟩
    · exact nomatch he
    · exact nomatch he
    · exact nomatch he
    · exact hp

namespace PageTaken
variable {v : Nat} {N M : List Nat}

/-- what is no table, user page or page node is what it was before -/
theorem old (hk : PageTaken t a m p v h own h' own' N M) (hr : r.isLoose = false) (h1 : r ≠ .table)
    (h2 : ∀ m v, r ≠ .user m v) (h3 : ∀ a, r ≠ .pnode a) : own'.Page s t' r ↔ own.Page s t' r := by
  rw [hk.page s t' r hr]
  constructor
  · intro hp
    rcases hp with ⟨_, _, he⟩ | ⟨_, _, he⟩ | ⟨_, _, he⟩ | hp
    · exact absurd he h1
    · exact absurd he (h2 _ _)
    · exact absurd he (h3 _)
    · exact hp
  · exact fun hp => .inr (.inr (.inr hp))

theorem obj_old (hk : PageTaken t a m p v h own h' own' N M) (hr : r.isLoose = false) (h1 : r ≠ .table)
    (h2 : ∀ m v, r ≠ .user m v) (h3 : ∀ a, r ≠ .pnode a) {y : Nat} : own'.Obj y t' r ↔ own.Obj y t' r :=
  and_congr_right fun _ => hk.old hr h1 h2 h3

/-- the page nodes of an area -/
theorem pnode (hk : PageTaken t a m p v h own h' own' N M) (hm : 4 ≤ m) {y b : Nat} :
    own'.Obj y t (.pnode b) ↔ (y = m ∧ b = a) ∨ own.Obj y t (.pnode b) := by
  constructor
  · intro ⟨h4, hy⟩
    rcases (hk.page _ _ _ rfl).mp hy with ⟨_, _, he⟩ | ⟨_, _, he⟩ | ⟨hs, _, he⟩ | hp
    · exact nomatch he
    · exact nomatch he
    · exact .inl ⟨by omega, Role.pnode.inj he⟩
    · exact .inr ⟨h4, hp⟩
  · intro hy
    cases hy with
    | inl he =>
      obtain ⟨rfl, rfl⟩ := he
      exact ⟨hm, (hk.page _ _ _ rfl).mpr (.inr (.inr (.inl ⟨rfl, rfl, rfl⟩)))⟩
    | inr hy => exact ⟨hy.1, (hk.page _ _ _ rfl).mpr (.inr (.inr (.inr hy.2)))⟩

/-- the node is new -/
theorem new (hk : PageTaken t a m p v h own h' own' N M) (hh : Held h own) {y : Nat} (hy : own.Obj y t' r) :
    y ≠ m := by
  intro e
  subst e
  exact hk.taken.mm.not_new (hh.kept hy.page) hk.taken.node.1

end PageTaken

/-! ## complete lists -/

/-- the list `l` is a queue of the nodes that `t` has in use as `r` -/
structure Lists.Exactly (L : Lists) (own : Owners) (t : Nat) (r : Role) (l : ListRef) (ns : List Nat) :
    Prop where
  queue : L.Queue l ns
  mem : ∀ n, n ∈ ns ↔ own.Obj n t r

theorem Lists.Queue.setNode {l : ListRef} {x : ListNode} (hq : L.Queue l ns) (hm : m ∉ ns) :
    (L.setNode m x).Queue l ns :=
  hq.congr rfl fun n hn => by
    have hne : n ≠ m := fun e => hm (e ▸ hn)
    rw [Lists.node_setNode, if_neg hne]
    exact ⟨rfl, rfl⟩

structure Complete (h : Heap) (own : Owners) (t : Nat) : Prop where
  vm : ∃ ns, h.lists.Exactly own t .vnode (.vmAreas t) ns
  pages : ∀ a n, own.Obj a t (.area n) → ∃ ms, h.lists.Exactly own t (.pnode a) (.pages a) ms
  refcount : ∀ a n, own.Obj a t (.area n) → (h.area a).refcount = 1
  tables : ∀ s, own.Page s t .table → s ∈ tables h.mm.mem 2 (h.task t).pageTable
  flat : Flat h.mm.mem 2 (h.task t).pageTable
  task : ∀ p, own.Page p t .task → p = t - 4
  sched : ∀ p, own.Page p t .sched → p = (h.task t).sched - 4
  stack : ∀ p, own.Page p t .stack → p = (h.task t).kernelStack

theorem Lists.Exactly.untouched {l : ListRef} (he : h.lists.Exactly own t r l ns) (hu : Untouched h h' own own' t)
    (hr : r.isLink = true) (hl : h'.lists.list l = h.lists.list l) : h'.lists.Exactly own' t r l ns := by
  refine ⟨he.queue.congr hl fun n hn => ?_, fun n => ?_⟩
  · have hnode : h'.lists.node n = h.lists.node n := hu.node n r ((he.mem n).mp hn) hr
    rw [hnode]
    exact ⟨rfl, rfl⟩
  · rw [hu.obj (Role.isLink_not_loose hr)]
    exact he.mem n

/-- nobody else changes that -/
theorem Complete.untouched (hc : Complete h own t) (hM : Maps h.mm own t (h.task t).pageTable)
    (hu : Untouched h h' own own' t) : Complete h' own' t := by
  have hsame : ∀ s ∈ FakeKernel.tables h.mm.mem 2 (h.task t).pageTable, SameTable h.mm.mem h'.mm.mem s :=
    fun s hs i hi => entry_congr hi fun x h1 h2 => hu.mem s (hM.tables s hs) x ⟨h1, h2⟩
  obtain ⟨hsched, hstack, hroot, _⟩ := hu.task
  refine ⟨?_, fun a n ha => ?_, fun a n ha => ?_, fun s hs => ?_, ?_, fun p hp => ?_, fun p hp => ?_, fun p hp => ?_⟩
  · obtain ⟨ns, he⟩ := hc.vm
    exact ⟨ns, he.untouched hu rfl hu.vm⟩
  · have ha := (hu.obj rfl).mp ha
    obtain ⟨ms, he⟩ := hc.pages a n ha
    exact ⟨ms, he.untouched hu rfl (hu.pages a n ha)⟩
  · have ha := (hu.obj rfl).mp ha
    rw [hu.area a n ha]
    exact hc.refcount a n ha
  · rw [hroot, tables_congr hsame]
    exact hc.tables s ((hu.agree s _ rfl).mp hs)
  · rw [hroot]
    exact hc.flat.congr hsame
  · exact hc.task p ((hu.agree p _ rfl).mp hp)
  · rw [hsched]
    exact hc.sched p ((hu.agree p _ rfl).mp hp)
  · rw [hstack]
    exact hc.stack p ((hu.agree p _ rfl).mp hp)

/-- the list of areas of a task is `ns`, and its lists of pages hold its nodes -/
structure Chained (h : Heap) (own : Owners) (t : Nat) (ns : List Nat) : Prop where
  vm : h.lists.Exactly own t .vnode (.vmAreas t) ns
  pages : ∀ a n, own.Obj a t (.area n) → ∃ ms, h.lists.Exactly own t (.pnode a) (.pages a) ms

/-- the blocks of a new area are nobody's yet -/
theorem AreaTurn.ne (hat : AreaTurn q t x h own h' own' n a) (hh : Held h own) {y : Nat} (hy : own.Obj y t' r) :
    y ≠ a ∧ y ≠ n := by
  have hnot := hat.added.extends.not_new (hh.kept hy.page)
  exact ⟨fun e => hnot (e ▸ List.mem_append_right _ (List.mem_singleton_self _)),
    fun e => hnot (e ▸ List.mem_append_left _ (List.mem_singleton_self _))⟩

/-- what vm_add_area leaves alone: the nodes that are not linked to the list of areas, and what they stand for -/
theorem AreaTurn.frame (hat : AreaTurn q t x h own h' own' n a) (hw : World h own q) (ht : t ∈ h.live) :
    (h.areaLinks n a).Frame h'.lists (fun k => k = n ∨ own.Obj k t .vnode) (.vmAreas t) := by
  have hnew : ∀ {y t' r}, own.Obj y t' r → y ≠ a ∧ y ≠ n := hat.ne hw.held
  have hA := (hw.areas t ht).vm
  have hlist : (h.areaLinks n a).list (.vmAreas t) = h.lists.list (.vmAreas t) := by
    show ((h.lists.setNode n (h.newNode n a)).listInit (.pages a)).list (.vmAreas t) = _
    rw [Lists.list_listInit, if_neg nofun, Lists.list_setNode]
  have hnode : ∀ k, k ≠ n → (h.areaLinks n a).node k = h.lists.node k := fun k hk => by
    show (h.lists.setNode n (h.newNode n a)).node k = _
    rw [Lists.node_setNode, if_neg hk]
  have hclosed : (h.areaLinks n a).Closed (fun k => k = n ∨ own.Obj k t .vnode) (.vmAreas t) := by
    refine ⟨?_, ?_, fun k hk => ?_, fun k hk => ?_⟩
    · rw [hlist]
      exact hA.first.imp_right .inr
    · rw [hlist]
      exact hA.last.imp_right .inr
    · cases hk with
      | inl he =>
        rw [he, h.areaLinks_node]
        exact .inl rfl
      | inr hk =>
        rw [hnode k (hnew hk).2]
        exact (hA.next k hk).imp_right .inr
    · cases hk with
      | inl he =>
        rw [he, h.areaLinks_node]
        exact .inl rfl
      | inr hk =>
        rw [hnode k (hnew hk).2]
        exact (hA.prev k hk).imp_right .inr
  exact (hat.added.links (fun k => k = n ∨ own.Obj k t .vnode) (.inl rfl) hclosed).2

theorem Heap.areaLinks_queue {l : ListRef} (hl : l ≠ .pages a) (hn : n ∉ ns) (hq : h.lists.Queue l ns) :
    (h.areaLinks n a).Queue l ns := by
  refine (hq.setNode (x := h.newNode n a) hn).congr ?_ fun _ _ => ⟨rfl, rfl⟩
  show ((h.lists.setNode n (h.newNode n a)).listInit (.pages a)).list l = _
  rw [Lists.list_listInit, if_neg hl]

/-- page nodes do not change hands when an area is added -/
theorem AreaTurn.pnode (hat : AreaTurn q t x h own h' own' n a) (hh : Held h own) {b : Nat} :
    own'.Obj m t (.pnode b) ↔ own.Obj m t (.pnode b) := by
  rw [hat.obj_iff hh]
  constructor
  · intro hm
    rcases hm with ⟨_, _, he⟩ | ⟨_, _, he⟩ | hm
    · exact nomatch he
    · exact nomatch he
    · exact hm
  · exact fun hm => .inr (.inr hm)

theorem AreaTurn.queue_pages {b : Nat} (hat : AreaTurn q t x h own h' own' n a) (hw : World h own q) (ht : t ∈ h.live)
    (hms : ∀ m ∈ ms, own.Obj m t (.pnode b)) (hq : (h.areaLinks n a).Queue (.pages b) ms) :
    h'.lists.Queue (.pages b) ms := by
  have hframe := hat.frame hw ht
  refine hq.congr (hframe.list _ nofun) fun m hm => ?_
  have hnot : ¬ (m = n ∨ own.Obj m t .vnode) := fun he => he.elim (hat.ne hw.held (hms m hm)).2
    fun hv => nomatch ((hms m hm).unique hv).2
  rw [hframe.node m hnot]
  exact ⟨rfl, rfl⟩

/-- the lists of pages that there are stay as they are -/
theorem AreaTurn.exactly_pages {b k : Nat} (hat : AreaTurn q t x h own h' own' n a) (hw : World h own q) (ht : t ∈ h.live)
    (hb : own.Obj b t (.area k)) (hms : h.lists.Exactly own t (.pnode b) (.pages b) ms) :
    h'.lists.Exactly own' t (.pnode b) (.pages b) ms := by
  have hne : ListRef.pages b ≠ .pages a := fun e => (hat.ne hw.held hb).1 (ListRef.pages.inj e)
  have hn : n ∉ ms := fun hin => (hat.ne hw.held ((hms.mem n).mp hin)).2 rfl
  refine ⟨hat.queue_pages hw ht (fun m hm => (hms.mem m).mp hm) (Heap.areaLinks_queue hne hn hms.queue), fun m => ?_⟩
  rw [hat.pnode hw.held]
  exact hms.mem m

/-- the new area has no pages -/
theorem AreaTurn.exactly_new (hat : AreaTurn q t x h own h' own' n a) (hw : World h own q) (ht : t ∈ h.live) :
    h'.lists.Exactly own' t (.pnode a) (.pages a) [] := by
  refine ⟨hat.queue_pages hw ht nofun (Lists.Queue.init _ _), fun m => iff_of_false List.not_mem_nil fun hm => ?_⟩
  obtain ⟨k, hk⟩ := (hw.areas t ht).parent a m ((hat.pnode hw.held).mp hm)
  exact (hat.ne hw.held hk).1 rfl

/-- the node for the new area comes last -/
theorem Chained.addArea (hc : Chained h own t ns) (hw : World h own q) (ht : t ∈ h.live)
    (hat : AreaTurn q t x h own h' own' n a)
    (hlast : (h.areaLinks n a).Queue (.vmAreas t) ns → n ∉ ns → h'.lists.Queue (.vmAreas t) (ns ++ [n])) :
    Chained h' own' t (ns ++ [n]) := by
  have hh := hw.held
  have hiff : ∀ {y r}, own'.Obj y t r ↔ _ := hat.obj_iff hh
  have hvm := hc.vm
  have hn : n ∉ ns := fun hin => (hat.ne hh ((hvm.mem n).mp hin)).2 rfl
  refine ⟨⟨hlast (Heap.areaLinks_queue nofun hn hvm.queue) hn, fun k => ?_⟩, fun b k hb => ?_⟩
  · rw [List.mem_append, List.mem_singleton, hvm.mem, hiff]
    constructor
    · exact fun hk => hk.elim (fun hk => .inr (.inr hk)) fun he => .inr (.inl ⟨he, rfl, rfl⟩)
    · intro hk
      rcases hk with ⟨_, _, he⟩ | ⟨he, _⟩ | hk
      · exact nomatch he
      · exact .inr he
      · exact .inl hk
  · rcases hiff.mp hb with ⟨rfl, _, he⟩ | ⟨_, _, he⟩ | hold
    · exact ⟨[], hat.exactly_new hw ht⟩
    · exact nomatch he
    · obtain ⟨ms, hms⟩ := hc.pages b k hold
      exact ⟨ms, hat.exactly_pages hw ht hold hms⟩

/-- an area is added -/
theorem Complete.addArea (hc : Complete h own t) (hw : World h own q) (ht : t ∈ h.live)
    (hat : AreaTurn q t x h own h' own' n a) (hx : x.refcount = 1)
    (hlast : ∀ ns, h.lists.Exactly own t .vnode (.vmAreas t) ns → (h.areaLinks n a).Queue (.vmAreas t) ns →
      n ∉ ns → h'.lists.Queue (.vmAreas t) (ns ++ [n])) : Complete h' own' t := by
  have hh := hw.held
  have hiff : ∀ {y r}, own'.Obj y t r ↔ _ := hat.obj_iff hh
  have hxt := hat.added.extends
  obtain ⟨ns, hvm⟩ := hc.vm
  have hchained := Chained.addArea ⟨hvm, hc.pages⟩ hw ht hat (hlast ns hvm)
  have hM := hw.maps t ht
  obtain ⟨_, _, htab⟩ := hM.wf.extends hxt fun _ _ => nofun
  have htask := hat.added.task
  refine ⟨⟨ns ++ [n], hchained.vm⟩, hchained.pages, fun b k hb => ?_, fun s hs => ?_, ?_, fun p hp => ?_,
    fun p hp => ?_, fun p hp => ?_⟩
  · rcases hiff.mp hb with ⟨rfl, _⟩ | ⟨_, _, he⟩ | hold
    · rw [hat.area]
      exact hx
    · exact nomatch he
    · rw [hat.added.area b (hat.ne hh hold).1]
      exact hc.refcount b k hold
  · rw [htask, htab]
    rcases (hat.page_iff hh).mp hs with ⟨_, _, he⟩ | ⟨_, _, he⟩ | hold
    · exact nomatch he
    · exact nomatch he
    · exact hc.tables s hold
  · rw [htask]
    exact hc.flat.extends hM.wf hxt fun _ _ => nofun
  · rcases (hat.page_iff hh).mp hp with ⟨_, _, he⟩ | ⟨_, _, he⟩ | hold
    · exact nomatch he
    · exact nomatch he
    · exact hc.task p hold
  · rw [htask]
    rcases (hat.page_iff hh).mp hp with ⟨_, _, he⟩ | ⟨_, _, he⟩ | hold
    · exact nomatch he
    · exact nomatch he
    · exact hc.sched p hold
  · rw [htask]
    rcases (hat.page_iff hh).mp hp with ⟨_, _, he⟩ | ⟨_, _, he⟩ | hold
    · exact nomatch he
    · exact nomatch he
    · exact hc.stack p hold

/-- a page is added to the area `a` through the node `m`: the lists of other nodes stay as they are -/
theorem PageTurn.exactly_other {l : ListRef} (hpt : PageTurn q t a va flags h own h' own' p m) (hh : Held h own)
    (hms : h.lists.Exactly own t (.pnode a) (.pages a) ms) (hr : r ≠ .pnode a) (hl : l ≠ .pages a)
    (he : h.lists.Exactly own t r l ns) : h'.lists.Queue l ns := by
  obtain ⟨N, M, hk⟩ := hpt.takes hh
  have hset : ∀ {r l ns}, h.lists.Exactly own t r l ns →
      (h.lists.setNode m (h.newNode m p)).Queue l ns ∧ m ∉ ns := by
    intro r l ns he
    have hnot : m ∉ ns := fun hin => hk.new hh ((he.mem m).mp hin) rfl
    exact ⟨he.queue.setNode hnot, hnot⟩
  rw [hpt.lists]
  refine (hset hms).1.push_frame (hset he).1 hl (fun k hk hk' => hr ?_) (hset he).2
  exact (((he.mem k).mp hk').unique ((hms.mem k).mp hk)).2

/-- the node for a page comes last in the list of its area -/
theorem PageTurn.exactly_self (hpt : PageTurn q t a va flags h own h' own' p m) (hh : Held h own)
    (hms : h.lists.Exactly own t (.pnode a) (.pages a) ms) : h'.lists.Exactly own' t (.pnode a) (.pages a) (ms ++ [m]) := by
  obtain ⟨N, M, hk⟩ := hpt.takes hh
  have hm4 := hpt.node4
  have hm0 : m ≠ 0 := by omega
  have hmnot : m ∉ ms := fun hin => hk.new hh ((hms.mem m).mp hin) rfl
  refine ⟨?_, fun k => ?_⟩
  · rw [hpt.lists]
    refine (hms.queue.setNode hmnot).push hm0 hmnot ?_
    rw [Lists.node_setNode, if_pos rfl]
    rfl
  · rw [List.mem_append, List.mem_singleton, hms.mem, hk.pnode hm4]
    exact ⟨fun hk => hk.elim .inr fun e => .inl ⟨e, rfl⟩, fun hk => hk.elim (fun e => .inr e.1) .inl⟩

theorem PageTurn.exactly_pages {b : Nat} {ms' : List Nat} (hpt : PageTurn q t a va flags h own h' own' p m) (hh : Held h own)
    (hms : h.lists.Exactly own t (.pnode a) (.pages a) ms) (hne : b ≠ a)
    (hms' : h.lists.Exactly own t (.pnode b) (.pages b) ms') : h'.lists.Exactly own' t (.pnode b) (.pages b) ms' := by
  obtain ⟨N, M, hk⟩ := hpt.takes hh
  refine ⟨hpt.exactly_other hh hms (fun e => hne (Role.pnode.inj e)) (fun e => hne (ListRef.pages.inj e)) hms', fun k => ?_⟩
  rw [hk.pnode hpt.node4, hms'.mem]
  exact ⟨.inr, fun hk => hk.resolve_left fun e => hne e.2⟩

theorem Chained.addPage (hc : Chained h own t ns) (hw : World h own q)
    (hpt : PageTurn q t a va flags h own h' own' p m) (ha : own.Obj a t (.area n)) : Chained h' own' t ns := by
  have hh := hw.held
  obtain ⟨N, M, hk⟩ := hpt.takes hh
  obtain ⟨ms, hms⟩ := hc.pages a n ha
  refine ⟨⟨hpt.exactly_other hh hms (r := .vnode) nofun nofun hc.vm, fun k => ?_⟩, fun b k hb => ?_⟩
  · rw [hk.obj_old (r := .vnode) rfl nofun nofun nofun]
    exact hc.vm.mem k
  · have hb := (hk.obj_old (r := .area k) rfl nofun nofun nofun).mp hb
    by_cases he : b = a
    · subst he
      exact ⟨ms ++ [m], hpt.exactly_self hh hms⟩
    · obtain ⟨ms', hms'⟩ := hc.pages b k hb
      exact ⟨ms', hpt.exactly_pages hh hms he hms'⟩

/-- a page is added to the area `a` -/
theorem Complete.addPage (hc : Complete h own t) (hw : World h own q) (ht : t ∈ h.live)
    (hpt : PageTurn q t a va flags h own h' own' p m) (ha : own.Obj a t (.area n))
    (hl : pteIsLeaf flags = true) (hrc : (h'.area a).refcount = (h.area a).refcount) :
    Complete h' own' t := by
  have hh := hw.held
  obtain ⟨N, M, hk⟩ := hpt.takes hh
  obtain ⟨_, hstep⟩ := hpt.grown.step
  obtain ⟨hsched, hstack, hroot, _⟩ := hstep.task t ht
  obtain ⟨ns, hvm⟩ := hc.vm
  have hchained := Chained.addPage ⟨hvm, hc.pages⟩ hw hpt ha
  refine ⟨⟨ns, hchained.vm⟩, hchained.pages, fun b k hb => ?_, fun s hs => ?_, ?_, fun y hy => ?_, fun y hy => ?_,
    fun y hy => ?_⟩
  · have hb := (hk.obj_old (r := .area k) rfl nofun nofun nofun).mp hb
    by_cases he : b = a
    · rw [he] at hb ⊢
      rw [hrc]
      exact hc.refcount a k hb
    · rw [hpt.area b he]
      exact hc.refcount b k hb
  · rw [hroot]
    apply hk.taken.keeps
    rcases (hk.page s t _ rfl).mp hs with ⟨hN, _⟩ | ⟨_, _, he⟩ | ⟨_, _, he⟩ | hold
    · exact .inr hN
    · exact nomatch he
    · exact nomatch he
    · exact .inl (hc.tables s hold)
  · rw [hroot]
    exact hpt.flat hl hc.flat
  · exact hc.task y ((hk.old (r := .task) rfl nofun nofun nofun).mp hy)
  · rw [hsched]
    exact hc.sched y ((hk.old (r := .sched) rfl nofun nofun nofun).mp hy)
  · rw [hstack]
    exact hc.stack y ((hk.old (r := .stack) rfl nofun nofun nofun).mp hy)

/-! ## what task_destroy gives back -/

theorem Held.obj_lt (hh : Held h own) {x : Nat} (hx : own.Obj x t r) : x < wordCount := by
  have hin := hh.ok.usable (hh.out _ _ _ hx.page) (Tiling.base_mem (pageAt (x - 4)))
  have hlt : x - 4 < kernPhyBase + 2 ^ 22 := hin.2
  unfold kernPhyBase kernBase splitAddr at hlt
  unfold wordCount
  omega

/-- there are fewer nodes than addresses -/
theorem Lists.Exactly.length_lt {l : ListRef} (hh : Held h own) (he : h.lists.Exactly own t r l ns) :
    ns.length < wordCount :=
  he.queue.chain.length_lt (by decide) fun n hn => hh.obj_lt ((he.mem n).mp hn)

theorem Lists.Exactly.listed {l : ListRef} (he : h.lists.Exactly own t r l ns) : listed h l = ns :=
  listed_eq he.queue.chain

theorem Complete.ends (hc : Complete h own t) (hw : World h own q) (ht : t ∈ h.live) : Ends h t := by
  obtain ⟨ns, hvm⟩ := hc.vm
  refine ⟨⟨ns, hvm.queue.chain, hvm.length_lt hw.held⟩, fun n hn _ => ?_⟩
  rw [hvm.listed] at hn
  have ha := ((hw.areas t ht).area n _).mpr ⟨(hvm.mem n).mp hn, rfl⟩
  obtain ⟨ms, hms⟩ := hc.pages _ n ha
  exact ⟨ms, hms.queue.chain, hms.length_lt hw.held⟩

/-- every page of the task is given back -/
theorem Complete.taskBlocks (hc : Complete h own t) (hw : World h own q) (ht : t ∈ h.live) :
    TaskBlocks h t p ↔ ∃ r, own.Page p t r ∧ r.isLoose = false := by
  have hA := hw.areas t ht
  have hS := hw.static t ht
  obtain ⟨ns, hvm⟩ := hc.vm
  have hareas : ∀ {n a}, own.Obj a t (.area n) → n ∈ ns ∧ (h.node n).value = a ∧
      (h.area (h.node n).value).lastRef ∧ ∃ ms, listed h (.pages a) = ms ∧
        h.lists.Exactly own t (.pnode a) (.pages a) ms := by
    intro n a ha
    obtain ⟨hn, hv⟩ := (hA.area n a).mp ha
    have hv : (h.node n).value = a := hv
    obtain ⟨ms, hms⟩ := hc.pages a n ha
    refine ⟨(hvm.mem n).mpr hn, hv, ?_, ms, hms.listed, hms⟩
    unfold VmArea.lastRef
    rw [hv, hc.refcount a n ha]
    decide
  have hfreed : ∀ {n a p}, own.Obj a t (.area n) → p ∈ areaBlocks h a (listed h (.pages a)) →
      TaskBlocks h t p := by
    intro n a p ha hp
    obtain ⟨hn, hv, hlast, _⟩ := hareas ha
    refine .inl (.inl ⟨n, ?_, hlast, ?_⟩)
    · rw [hvm.listed]
      exact hn
    · rw [hv]
      exact hp
  constructor
  · intro hp
    rcases hp with hp | hp | rfl | rfl
    · obtain ⟨r, hr, hrole⟩ := SchedBlocks.role hA hS hp
      refine ⟨r, hr, ?_⟩
      cases hrole with
      | inl hl =>
        cases r with
        | loose b => exact nomatch hl
        | _ => rfl
      | inr he =>
        rw [he]
        rfl
    · exact ⟨_, (hw.maps t ht).tables p hp, rfl⟩
    · exact ⟨_, hS.stack, rfl⟩
    · exact ⟨_, hS.task.page, rfl⟩
  · intro ⟨r, hp, hr⟩
    have hobj : own.Obj (p + 4) t r := ⟨Nat.le_add_left 4 p, hp⟩
    have hpage : p = p + 4 - 4 := (Nat.add_sub_cancel p 4).symm
    cases r with
    | task => exact .inr (.inr (.inr (hc.task p hp)))
    | sched => exact .inl (.inr (.inr (hc.sched p hp)))
    | stack => exact .inr (.inr (.inl (hc.stack p hp)))
    | table => exact .inr (.inl (hc.tables p hp))
    | vnode =>
      refine .inl (.inr (.inl ?_))
      rw [hvm.listed]
      exact List.mem_map.mpr ⟨p + 4, (hvm.mem _).mpr hobj, hpage.symm⟩
    | area n =>
      refine hfreed hobj ?_
      rw [hpage]
      exact List.mem_cons_self
    | pnode a =>
      obtain ⟨n, ha⟩ := hA.parent a (p + 4) hobj
      obtain ⟨_, _, _, ms, hl, hms⟩ := hareas ha
      refine hfreed ha (List.mem_cons_of_mem _ (List.mem_append_right _ ?_))
      rw [hl]
      exact List.mem_map.mpr ⟨p + 4, (hms.mem _).mpr hobj, hpage.symm⟩
    | user m v =>
      obtain ⟨⟨a, hm⟩, hv⟩ := (hA.page m p).mp ⟨v, hp⟩
      obtain ⟨n, ha⟩ := hA.parent a m hm
      obtain ⟨_, _, _, ms, hl, hms⟩ := hareas ha
      refine hfreed ha (List.mem_cons_of_mem _ (List.mem_append_left _ ?_))
      rw [hl]
      exact List.mem_map.mpr ⟨m, (hms.mem _).mpr hm, hv⟩
    | loose b => exact nomatch hr

/-! ## the bill of a task -/

/-- what was handed out since `h₀` is what `t` owns -/
structure Owes (h₀ h : Heap) (own : Owners) (t : Nat) : Prop where
  out : ∃ N : List Nat, h.mm.out.Perm (N.map pageAt ++ h₀.mm.out) ∧ ∀ p, p ∈ N ↔ ∃ r, own.Page p t r
  used : ∀ p r, own.Page p t r → r.isLoose = false

/-- nothing was handed out and nothing changed hands -/
theorem Owes.congr (ho : Owes h₀ h own t) (hout : h'.mm.out = h.mm.out)
    (hp : ∀ p r, own'.Page p t r ↔ own.Page p t r) : Owes h₀ h' own' t := by
  obtain ⟨N, hperm, hN⟩ := ho.out
  refine ⟨⟨N, hout ▸ hperm, fun p => (hN p).trans (exists_congr fun r => (hp p r).symm)⟩, fun p r hr => ?_⟩
  exact ho.used p r ((hp p r).mp hr)

theorem Owes.addArea (ho : Owes h₀ h own t) (hh : Held h own) (hat : AreaTurn q t x h own h' own' n a) :
    Owes h₀ h' own' t := by
  obtain ⟨N, hperm, hN⟩ := ho.out
  have hiff : ∀ {s r}, own'.Page s t r ↔ _ := hat.page_iff hh
  refine ⟨⟨[n - 4] ++ [a - 4] ++ N, ?_, fun p => ?_⟩, fun p r hp => ?_⟩
  · have hmap : ([n - 4] ++ [a - 4] ++ N).map pageAt = ([n - 4] ++ [a - 4]).map pageAt ++ N.map pageAt :=
      List.map_append
    rw [hat.added.extends.out, hmap, List.append_assoc]
    exact List.Perm.append_left _ hperm
  · rw [List.mem_append, List.mem_append, List.mem_singleton, List.mem_singleton, hN]
    constructor
    · intro hp
      rcases hp with (he | he) | ⟨r, hr⟩
      · exact ⟨_, hiff.mpr (.inr (.inl ⟨he, rfl, rfl⟩))⟩
      · exact ⟨_, hiff.mpr (.inl ⟨he, rfl, rfl⟩)⟩
      · exact ⟨r, hiff.mpr (.inr (.inr hr))⟩
    · intro ⟨r, hr⟩
      rcases hiff.mp hr with ⟨he, _⟩ | ⟨he, _⟩ | hold
      · exact .inl (.inr he)
      · exact .inl (.inl he)
      · exact .inr ⟨r, hold⟩
  · rcases hiff.mp hp with ⟨_, _, rfl⟩ | ⟨_, _, rfl⟩ | hold
    · rfl
    · rfl
    · exact ho.used p r hold

theorem Owes.addPage (ho : Owes h₀ h own t) (hh : Held h own)
    (hpt : PageTurn q t a va flags h own h' own' p m) : Owes h₀ h' own' t := by
  obtain ⟨N₀, hperm, hN₀⟩ := ho.out
  obtain ⟨N, M, hk⟩ := hpt.takes hh
  have htk := hk.taken
  have hloose : ∀ s r, own'.Page s t r → r.isLoose = false := by
    intro s r hp
    cases r with
    | loose b => exact nomatch ho.used s _ (hk.loose s t b hp)
    | _ => rfl
  have hpM : p ∈ M := htk.page.1.resolve_right fun hl => nomatch ho.used p _ hl
  refine ⟨⟨M ++ N₀, ?_, fun s => ?_⟩, hloose⟩
  · rw [htk.mm.out, List.map_append, List.append_assoc]
    exact List.Perm.append_left _ hperm
  · rw [List.mem_append, hN₀]
    constructor
    · intro hs
      cases hs with
      | inl hM =>
        rcases htk.all s hM with hN | he | he
        · exact ⟨_, (hk.page s t .table rfl).mpr (.inl ⟨hN, rfl, rfl⟩)⟩
        · exact ⟨_, (hk.page s t (.pnode a) rfl).mpr (.inr (.inr (.inl ⟨he, rfl, rfl⟩)))⟩
        · exact ⟨_, (hk.page s t (.user m (vpnOf va)) rfl).mpr (.inr (.inl ⟨he, rfl, rfl⟩))⟩
      | inr hold =>
        obtain ⟨r, hr⟩ := hold
        exact ⟨r, (hk.page s t r (ho.used s r hr)).mpr (.inr (.inr (.inr hr)))⟩
    · intro ⟨r, hr⟩
      rcases (hk.page s t r (hloose s r hr)).mp hr with ⟨hN, _⟩ | ⟨he, _⟩ | ⟨he, _⟩ | hold
      · exact .inl (htk.tables s hN)
      · exact .inl (he ▸ hpM)
      · exact .inl (he ▸ htk.node.1)
      · exact .inr ⟨r, hold⟩

/-- when `t` is destroyed, everything that was handed out since `h₀` has been given back -/
theorem Owes.destroyed {D : List Nat} (ho : Owes h₀ h own t) (hc : Complete h own t) (hw : World h own q)
    (ht : t ∈ h.live) (hd : Destroyed h h' own t D) : h'.mm.out.Perm h₀.mm.out := by
  obtain ⟨N, hperm, hN⟩ := ho.out
  have hmem : ∀ p, p ∈ D ↔ p ∈ N := by
    intro p
    rw [hd.dropped, hc.taskBlocks hw ht, hN]
    exact exists_congr fun r => and_iff_left_of_imp (ho.used p r)
  have hs := hd.shrinks
  have hnd := hw.held.ok.nodup
  have hndD := hnd
  rw [hs.out.nodup_iff, List.nodup_append] at hndD
  have hndN := hnd
  rw [hperm.nodup_iff, List.nodup_append] at hndN
  have hDN : (D.map pageAt).Perm (N.map pageAt) := by
    refine (List.perm_ext_iff_of_nodup hndD.1 hndN.1).mpr fun x => ?_
    simp only [List.mem_map, hmem]
  exact (List.perm_append_left_iff _).mp ((hs.out.symm.trans hperm).trans (hDN.symm.append_right _))

end FakeKernel
