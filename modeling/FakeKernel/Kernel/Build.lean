import FakeKernel.Kernel.LoadMap
import FakeKernel.Kernel.Steps
import FakeKernel.Mm.Unset

/-!
# Address spaces under construction

What load_elf, vm_clone and task_entry do over and over, whatever the order of their calls.

* `AreaAdded`   an area was created and a node for it was added to the list of a task;
* `PageAdded`   a page was allocated, added to an area and mapped;
* `AreaAdded.world`, `PageAdded.world`   both keep the invariant.
-/

namespace FakeKernel
open Bytes Mm

variable {h h' : Heap} {own own' : Owners} {q : TaskList → List Nat} {L L' : Lists}
  {t n a m p va flags root : Nat} {N : List Nat}

/-! ## loose objects -/

/-- the links of what is not in use yet -/
theorem World.looseLinks (hw : World h own q) (t : Nat)
    (hnode : ∀ n t r, own.Obj n t r → r.isLoose = false → L'.node n = h.lists.node n)
    (hvm : ∀ t, L'.list (.vmAreas t) = h.lists.list (.vmAreas t))
    (hpages : ∀ a t n, own.Obj a t (.area n) → L'.list (.pages a) = h.lists.list (.pages a))
    (hqueue : ∀ g, L'.list (.queue g) = h.lists.list (.queue g)) :
    Grown q t h own { h with lists := L' } own := by
  have hlink : ∀ n t r, own.Obj n t r → r.isLink = true → L'.node n = h.lists.node n := by
    intro n t r hn hr
    apply hnode n t r hn
    cases r with
    | loose b => exact nomatch hr
    | _ => rfl
  have hs : StepFor h { h with lists := L' } own own t [] := by
    refine ⟨Extends.for (.refl hw.held.ok) own t, .refl own, fun _ _ _ hp => .inl hp, nofun,
      ⟨[], rfl, List.nodup_nil, nofun⟩, rfl, Nat.le_refl _, fun _ _ => ⟨rfl, rfl, rfl, rfl⟩,
      fun n t' r hn hr => ?_, fun t' _ => hvm t', fun a t' n _ ha => hpages a t' n ha,
      fun _ _ _ _ _ => rfl, hqueue⟩
    cases hr with
    | inl hl => exact hlink n t' r hn hl.2
    | inr hs =>
      subst hs
      exact hnode n t' _ hn rfl
  exact ⟨⟨[], hs⟩, hw.step hs fun ht => ⟨hw.maps t ht, (hw.areas t ht).congr
    (Owners.Agree.refl own t).listed ⟨fun n r hn hr => hlink n t r hn hr, hvm t,
      fun a n ha => hpages a t n ha⟩, hw.aligned t⟩⟩

theorem World.setNode (hw : World h own q) (t : Nat) {b : Bool} {t' : Nat}
    (hn : own.Page (n - 4) t' (.loose b)) (x : ListNode) :
    Grown q t h own { h with lists := h.lists.setNode n x } own := by
  refine hw.looseLinks t (fun n' t' r hn' hr => ?_) (fun _ => rfl) (fun _ _ _ _ => rfl) fun _ => rfl
  rw [Lists.node_setNode, if_neg]
  intro e
  rw [e] at hn'
  rw [(hn'.page.unique hn).2] at hr
  exact nomatch hr

theorem World.initPages (hw : World h own q) (t : Nat) {b : Bool} {t' : Nat}
    (ha : own.Page (a - 4) t' (.loose b)) :
    Grown q t h own { h with lists := h.lists.listInit (.pages a) } own := by
  have hlist : ∀ r, r ≠ .pages a → (h.lists.listInit (.pages a)).list r = h.lists.list r := by
    intro r hr
    unfold Lists.listInit
    rw [Lists.list_setList, if_neg hr]
  refine hw.looseLinks t (fun _ _ _ _ _ => rfl) (fun t => hlist _ nofun) (fun a' t' n ha' => ?_)
    fun g => hlist _ nofun
  apply hlist
  intro e
  cases e
  exact nomatch (ha'.page.unique ha).2

/-! ## adding an area -/

theorem Lists.list_listInit {r r' : ListRef} :
    (L.listInit r).list r' = if r' = r then { first := 0, last := 0 } else L.list r' := by
  unfold Lists.listInit
  rw [Lists.list_setList]

/-- two loose objects become an area and the node that leads to it -/
theorem Areas.addArea (hA : Areas L own t) (hn : own.Obj n t (.loose true))
    (ha : own.Obj a t (.loose true)) (hne : n ≠ a) (hvalue : (L.node n).value = a)
    (hnext : (L.node n).next = 0) (hprev : (L.node n).prev = 0)
    (hempty : L.list (.pages a) = { first := 0, last := 0 }) :
    Areas L ((own.set (n - 4) t .vnode).set (a - 4) t (.area n)) t := by
  have hobj : ∀ x r, ((own.set (n - 4) t .vnode).set (a - 4) t (.area n)).Obj x t r ↔
      (x = a ∧ r = .area n) ∨ (x = n ∧ r = .vnode) ∨ (x ≠ a ∧ x ≠ n ∧ own.Obj x t r) := by
    intro x r
    rw [Owners.obj_set ha.1, Owners.obj_set hn.1]
    constructor
    · intro hx
      rcases hx with ⟨h1, _, h2⟩ | ⟨h1, ⟨h2, _, h3⟩ | ⟨h2, h3⟩⟩
      · exact .inl ⟨h1, h2⟩
      · exact .inr (.inl ⟨h2, h3⟩)
      · exact .inr (.inr ⟨h1, h2, h3⟩)
    · intro hx
      rcases hx with ⟨h1, h2⟩ | ⟨h1, h2⟩ | ⟨h1, h2, h3⟩
      · exact .inl ⟨h1, rfl, h2⟩
      · exact .inr ⟨fun e => hne (h1.symm.trans e), .inl ⟨h1, rfl, h2⟩⟩
      · exact .inr ⟨h1, .inr ⟨h2, h3⟩⟩
  have hold : ∀ x r, r.isLoose = false → own.Obj x t r → x ≠ a ∧ x ≠ n := by
    intro x r hr hx
    refine ⟨fun e => ?_, fun e => ?_⟩
    · rw [(hx.unique (e ▸ ha)).2] at hr
      exact nomatch hr
    · rw [(hx.unique (e ▸ hn)).2] at hr
      exact nomatch hr
  have hvnode : ∀ x, ((own.set (n - 4) t .vnode).set (a - 4) t (.area n)).Obj x t .vnode ↔
      x = n ∨ own.Obj x t .vnode := by
    intro x
    rw [hobj]
    constructor
    · intro hx
      rcases hx with ⟨_, he⟩ | ⟨rfl, _⟩ | ⟨_, _, hx⟩
      · exact nomatch he
      · exact .inl rfl
      · exact .inr hx
    · intro hx
      rcases hx with rfl | hx
      · exact .inr (.inl ⟨rfl, rfl⟩)
      · obtain ⟨h1, h2⟩ := hold x .vnode rfl hx
        exact .inr (.inr ⟨h1, h2, hx⟩)
  have hpnode : ∀ x b, ((own.set (n - 4) t .vnode).set (a - 4) t (.area n)).Obj x t (.pnode b) ↔
      own.Obj x t (.pnode b) := by
    intro x b
    rw [hobj]
    constructor
    · intro hx
      rcases hx with ⟨_, he⟩ | ⟨_, he⟩ | ⟨_, _, hx⟩
      · exact nomatch he
      · exact nomatch he
      · exact hx
    · intro hx
      obtain ⟨h1, h2⟩ := hold x (.pnode b) rfl hx
      exact .inr (.inr ⟨h1, h2, hx⟩)
  have harea : ∀ x n', ((own.set (n - 4) t .vnode).set (a - 4) t (.area n)).Obj x t (.area n') ↔
      (x = a ∧ n' = n) ∨ own.Obj x t (.area n') := by
    intro x n'
    rw [hobj]
    constructor
    · intro hx
      rcases hx with ⟨rfl, he⟩ | ⟨_, he⟩ | ⟨_, _, hx⟩
      · cases he
        exact .inl ⟨rfl, rfl⟩
      · exact nomatch he
      · exact .inr hx
    · intro hx
      rcases hx with ⟨rfl, rfl⟩ | hx
      · exact .inl ⟨rfl, rfl⟩
      · obtain ⟨h1, h2⟩ := hold x (.area n') rfl hx
        exact .inr (.inr ⟨h1, h2, hx⟩)
  have huser : ∀ x m v, ((own.set (n - 4) t .vnode).set (a - 4) t (.area n)).Page x t (.user m v) ↔
      own.Page x t (.user m v) := by
    intro x m v
    have ha' : (own.set (n - 4) t .vnode).Page (a - 4) t (.loose true) := by
      have h1 := hn.1
      have h2 := ha.1
      exact (Owners.set_of_ne (by omega)).mpr ha.page
    have h1 : Role.user m v ≠ .area n := nofun
    have h2 : Role.user m v ≠ .vnode := nofun
    exact (Owners.page_set_of_loose ha' rfl h1).trans (Owners.page_set_of_loose hn.page rfl h2)
  have hnoarea : ∀ n', ¬ own.Obj a t (.area n') := fun n' hx => absurd rfl (hold a _ rfl hx).1
  refine ⟨⟨?_, ?_, fun x hx => ?_, fun x hx => ?_⟩, fun n' a' => ?_, fun a' n' ha' => ?_,
    fun m p => ?_, fun b m hm => ?_⟩
  · rw [hvnode]
    exact hA.vm.first.imp_right .inr
  · rw [hvnode]
    exact hA.vm.last.imp_right .inr
  · rw [hvnode]
    cases (hvnode x).mp hx with
    | inl he =>
      rw [he, hnext]
      exact .inl rfl
    | inr hx => exact (hA.vm.next x hx).imp_right .inr
  · rw [hvnode]
    cases (hvnode x).mp hx with
    | inl he =>
      rw [he, hprev]
      exact .inl rfl
    | inr hx => exact (hA.vm.prev x hx).imp_right .inr
  · rw [harea, hvnode, hA.area n' a']
    constructor
    · intro hx
      rcases hx with ⟨rfl, rfl⟩ | ⟨hv, he⟩
      · exact ⟨.inl rfl, hvalue⟩
      · exact ⟨.inr hv, he⟩
    · intro ⟨hv, he⟩
      rcases hv with rfl | hv
      · exact .inl ⟨he.symm.trans hvalue, rfl⟩
      · exact .inr ⟨hv, he⟩
  · cases (harea a' n').mp ha' with
    | inl he =>
      obtain ⟨rfl, rfl⟩ := he
      have hnone : ∀ x, ¬ ((own.set (n' - 4) t .vnode).set (a' - 4) t (.area n')).Obj x t (.pnode a') := by
        intro x hx
        obtain ⟨n'', hn''⟩ := hA.parent a' x ((hpnode x a').mp hx)
        exact hnoarea n'' hn''
      refine ⟨.inl ?_, .inl ?_, fun x hx => absurd hx (hnone x), fun x hx => absurd hx (hnone x)⟩
      · rw [hempty]
      · rw [hempty]
    | inr hx => exact (hA.pages a' n' hx).congr (fun m => hpnode m a') rfl fun _ _ => ⟨rfl, rfl⟩
  · have h1 : (∃ v, ((own.set (n - 4) t .vnode).set (a - 4) t (.area n)).Page p t (.user m v)) ↔
        ∃ v, own.Page p t (.user m v) := exists_congr fun v => huser p m v
    have h2 : (∃ b, ((own.set (n - 4) t .vnode).set (a - 4) t (.area n)).Obj m t (.pnode b)) ↔
        ∃ b, own.Obj m t (.pnode b) := exists_congr fun b => hpnode m b
    rw [h1, h2]
    exact hA.page m p
  · obtain ⟨n', hn'⟩ := hA.parent b m ((hpnode m b).mp hm)
    exact ⟨n', (harea b n').mpr (.inr hn')⟩

/-- a loose node and a loose page become a page of the area `a` -/
theorem Areas.addPage (hA : Areas L own t) {v : Nat} (hm : own.Obj m t (.loose true))
    (hp : own.Page p t (.loose false)) (ha : own.Obj a t (.area n)) (hvalue : (L.node m).value = p)
    (hnext : (L.node m).next = 0) (hprev : (L.node m).prev = 0) :
    Areas L ((own.set (m - 4) t (.pnode a)).set p t (.user m v)) t := by
  have hpm : p ≠ m - 4 := hp.ne hm.page (by decide)
  have hp' : (own.set (m - 4) t (.pnode a)).Page p t (.loose false) := (Owners.set_of_ne hpm).mpr hp
  have hobj : ∀ x r, r.isLoose = false → (∀ m v, r ≠ .user m v) →
      (((own.set (m - 4) t (.pnode a)).set p t (.user m v)).Obj x t r ↔
        (x = m ∧ r = .pnode a) ∨ own.Obj x t r) := by
    intro x r hr hru
    have hset : ((own.set (m - 4) t (.pnode a)).set p t (.user m v)).Obj x t r ↔
        (own.set (m - 4) t (.pnode a)).Obj x t r :=
      and_congr_right fun _ => Owners.page_set_of_loose hp' hr (hru m v)
    rw [hset, Owners.obj_set hm.1]
    constructor
    · intro hx
      exact hx.imp (fun he => ⟨he.1, he.2.2⟩) fun hx => hx.2
    · intro hx
      refine hx.imp (fun he => ⟨he.1, rfl, he.2⟩) fun hx => ⟨fun e => ?_, hx⟩
      rw [((e ▸ hx : own.Obj m t r).unique hm).2] at hr
      exact nomatch hr
  have hvnode : ∀ x, ((own.set (m - 4) t (.pnode a)).set p t (.user m v)).Obj x t .vnode ↔
      own.Obj x t .vnode := fun x => (hobj x .vnode rfl nofun).trans
    ⟨fun hx => hx.resolve_left (fun he => nomatch he.2), .inr⟩
  have harea : ∀ x n, ((own.set (m - 4) t (.pnode a)).set p t (.user m v)).Obj x t (.area n) ↔
      own.Obj x t (.area n) := fun x n => (hobj x (.area n) rfl nofun).trans
    ⟨fun hx => hx.resolve_left (fun he => nomatch he.2), .inr⟩
  have hpnode : ∀ x b, ((own.set (m - 4) t (.pnode a)).set p t (.user m v)).Obj x t (.pnode b) ↔
      (x = m ∧ b = a) ∨ own.Obj x t (.pnode b) := by
    intro x b
    rw [hobj x (.pnode b) rfl nofun]
    exact or_congr_left (and_congr_right fun _ => ⟨fun he => by cases he; rfl, fun he => by rw [he]⟩)
  have huser : ∀ x m' v', ((own.set (m - 4) t (.pnode a)).set p t (.user m v)).Page x t (.user m' v') ↔
      (x = p ∧ m' = m ∧ v' = v) ∨ own.Page x t (.user m' v') := by
    intro x m' v'
    have hold : (own.set (m - 4) t (.pnode a)).Page x t (.user m' v') ↔ own.Page x t (.user m' v') := by
      have hne : Role.user m' v' ≠ .pnode a := nofun
      exact Owners.page_set_of_loose hm.page rfl hne
    rw [Owners.page_set, hold]
    constructor
    · intro hx
      rcases hx with ⟨rfl, _, he⟩ | ⟨_, hx⟩
      · cases he
        exact .inl ⟨rfl, rfl, rfl⟩
      · exact .inr hx
    · intro hx
      rcases hx with ⟨rfl, rfl, rfl⟩ | hx
      · exact .inl ⟨rfl, rfl, rfl⟩
      · exact .inr ⟨hx.ne hp nofun, hx⟩
  have hnom : ∀ b, ¬ own.Obj m t (.pnode b) := fun b hb => nomatch (hb.unique hm).2
  refine ⟨hA.vm.congr hvnode rfl fun _ _ => ⟨rfl, rfl⟩, fun n' a' => ?_, fun a' n' ha' => ?_,
    fun m' p' => ?_, fun b m' hm' => ?_⟩
  · rw [harea, hvnode]
    exact hA.area n' a'
  · have hc := hA.pages a' n' ((harea a' n').mp ha')
    refine ⟨?_, ?_, fun x hx => ?_, fun x hx => ?_⟩
    · rw [hpnode]
      exact hc.first.imp_right .inr
    · rw [hpnode]
      exact hc.last.imp_right .inr
    · rw [hpnode]
      cases (hpnode x a').mp hx with
      | inl he =>
        rw [he.1, hnext]
        exact .inl rfl
      | inr hx => exact (hc.next x hx).imp_right .inr
    · rw [hpnode]
      cases (hpnode x a').mp hx with
      | inl he =>
        rw [he.1, hprev]
        exact .inl rfl
      | inr hx => exact (hc.prev x hx).imp_right .inr
  · constructor
    · intro ⟨v', hv'⟩
      rcases (huser p' m' v').mp hv' with ⟨rfl, rfl, _⟩ | hold
      · exact ⟨⟨a, (hpnode m' a).mpr (.inl ⟨rfl, rfl⟩)⟩, hvalue⟩
      · obtain ⟨⟨b, hb⟩, he⟩ := (hA.page m' p').mp ⟨v', hold⟩
        exact ⟨⟨b, (hpnode m' b).mpr (.inr hb)⟩, he⟩
    · intro ⟨⟨b, hb⟩, he⟩
      rcases (hpnode m' b).mp hb with ⟨rfl, rfl⟩ | hold
      · exact ⟨v, (huser p' m' v).mpr (.inl ⟨he.symm.trans hvalue, rfl, rfl⟩)⟩
      · obtain ⟨v', hv'⟩ := (hA.page m' p').mpr ⟨⟨b, hold⟩, he⟩
        exact ⟨v', (huser p' m' v').mpr (.inr hv')⟩
  · rcases (hpnode m' b).mp hm' with ⟨rfl, rfl⟩ | hold
    · exact ⟨n, (harea b n).mpr ha⟩
    · obtain ⟨n', hn'⟩ := hA.parent b m' hold
      exact ⟨n', (harea b n').mpr hn'⟩

/-! ## links -/

/-- links among the nodes of the area list of a task -/
theorem Areas.vmLinks (hA : Areas L own t)
    (hc : L'.Closed (fun n => own.Obj n t .vnode) (.vmAreas t))
    (hf : L.Frame L' (fun n => own.Obj n t .vnode) (.vmAreas t)) :
    Areas L' own t ∧ OwnLinks L L' own t := by
  have hnode : ∀ n t' r, own.Obj n t' r → r ≠ .vnode → L'.node n = L.node n :=
    fun n t' r hn hr => hf.node n fun hv => hr (hn.unique hv).2
  refine ⟨⟨hc, fun n a => ?_, fun a n ha => ?_, fun m p => ?_, hA.parent⟩,
    ⟨fun n t' r hn hr => ?_, fun t' ht => hf.list _ fun e => ht (ListRef.vmAreas.inj e),
      fun a t' n _ _ => hf.list _ nofun, fun g => hf.list _ nofun⟩⟩
  · rw [hA.area n a, hf.value]
  · refine (hA.pages a n ha).congr (fun _ => Iff.rfl) (hf.list _ nofun) fun m hm => ?_
    rw [hnode m t _ hm nofun]
    exact ⟨rfl, rfl⟩
  · rw [hA.page m p, hf.value]
  · rcases hr with ⟨ht, hr⟩ | rfl
    · refine hf.node n fun hv => ht (hn.unique hv).1
    · exact hnode n t' _ hn nofun

/-- links among the nodes of the page list of an area -/
theorem Areas.pageLinks (hA : Areas L own t) (ha : own.Obj a t (.area n))
    (hc : L'.Closed (fun m => own.Obj m t (.pnode a)) (.pages a))
    (hf : L.Frame L' (fun m => own.Obj m t (.pnode a)) (.pages a)) :
    Areas L' own t ∧ OwnLinks L L' own t := by
  have hnode : ∀ m t' r, own.Obj m t' r → r ≠ .pnode a → L'.node m = L.node m :=
    fun m t' r hm hr => hf.node m fun hv => hr (hm.unique hv).2
  refine ⟨⟨?_, fun n a => ?_, fun a' n' ha' => ?_, fun m p => ?_, hA.parent⟩,
    ⟨fun m t' r hm hr => ?_, fun t' _ => hf.list _ nofun, fun a' t' n' ht ha' => hf.list _ ?_,
      fun g => hf.list _ nofun⟩⟩
  · refine hA.vm.congr (fun _ => Iff.rfl) (hf.list _ nofun) fun m hm => ?_
    rw [hnode m t _ hm nofun]
    exact ⟨rfl, rfl⟩
  · rw [hA.area n a, hf.value]
  · by_cases he : a' = a
    · subst he
      exact hc
    · refine (hA.pages a' n' ha').congr (fun _ => Iff.rfl)
        (hf.list _ fun e => he (ListRef.pages.inj e)) fun m hm => ?_
      rw [hnode m t _ hm fun e => he (Role.pnode.inj e)]
      exact ⟨rfl, rfl⟩
  · rw [hA.page m p, hf.value]
  · rcases hr with ⟨ht, hr⟩ | rfl
    · refine hf.node m fun hv => ht (hm.unique hv).1
    · exact hnode m t' _ hm nofun
  · intro e
    cases e
    exact ht (ha'.unique ha).1

/-! ## the two kinds of steps -/

/-- the lists when the area `a` and the node `n` for it were created -/
def Heap.areaLinks (h : Heap) (n a : Nat) : Lists :=
  (h.lists.setNode n (h.newNode n a)).listInit (.pages a)

/-- an area `a` was created for `t`, and the node `n` for it was added to the list of `t` -/
structure AreaAdded (h h' : Heap) (t n a : Nat) : Prop where
  mm : ∃ mm, Extends h.mm mm ∅ [a - 4] ∧ load 4 mm.mem (a - 4) = 0 ∧
    Extends mm h'.mm ∅ [n - 4] ∧ load 4 h'.mm.mem (n - 4) = 0
  area4 : 4 ≤ a
  node4 : 4 ≤ n
  links : ∀ P : Nat → Prop, P n → (h.areaLinks n a).Closed P (.vmAreas t) →
    h'.lists.Closed P (.vmAreas t) ∧ (h.areaLinks n a).Frame h'.lists P (.vmAreas t)
  /-- the node is the last one if no area lies above the new one -/
  queue : ∀ ns, (h.areaLinks n a).Queue (.vmAreas t) ns → n ∉ ns →
    (∀ k ∈ ns, (h'.area ((h.areaLinks n a).node k).value).va ≤ (h'.area a).va) →
    h'.lists.Queue (.vmAreas t) (ns ++ [n])
  last : (h'.lists.list (.vmAreas t)).last = n
  blocks : h'.blocks = n :: a :: h.blocks
  task : h'.task = h.task
  live : h'.live = h.live
  pids : h'.nextTaskId = h.nextTaskId
  area : ∀ b ≠ a, h'.area b = h.area b
  aligned : pageSize ∣ (h'.area a).va

/-- the node `n` for the new area `a` comes last in the list of `t` -/
def AreaLast (h h' : Heap) (t n a : Nat) : Prop :=
  ∀ ns, (h.areaLinks n a).Queue (.vmAreas t) ns → n ∉ ns → h'.lists.Queue (.vmAreas t) (ns ++ [n])

/-- the page `p`, which was allocated before, was added to the area `a` through the node `m` and
mapped at `va` -/
structure PageAdded (h h' : Heap) (root a p m va flags : Nat) (N : List Nat) : Prop where
  mm : ∃ mm, Extends h.mm mm ∅ [m - 4] ∧ load 4 mm.mem (m - 4) = 0 ∧ Splitting mm h'.mm root N ∧
    ∀ x, walk h'.mm.mem 2 root x
      = if SamePage 0 x va then setLeaf 0 (PA p) flags x else walk mm.mem 2 root x
  node4 : 4 ≤ m
  lists : h'.lists = (h.lists.setNode m (h.newNode m p)).listPush (.pages a) m
  blocks : h'.blocks = m :: h.blocks
  task : ∀ t, SameBlocks (h.task t) (h'.task t)
  live : h'.live = h.live
  pids : h'.nextTaskId = h.nextTaskId
  area : ∀ b ≠ a, h'.area b = h.area b
  aligned : pageSize ∣ (h.area a).va → pageSize ∣ (h'.area a).va
  flat : pteIsLeaf flags = true → Flat h.mm.mem 2 root → Flat h'.mm.mem 2 root

def Owners.addArea (own : Owners) (t n a : Nat) : Owners :=
  (own.set (n - 4) t .vnode).set (a - 4) t (.area n)

def Owners.addPage (own : Owners) (t a m p v : Nat) : Owners :=
  (own.set (m - 4) t (.pnode a)).set p t (.user m v)

namespace Owners

/-- what a task takes into use while it stays loose in between -/
theorem addArea_loose (own : Owners) (t n a : Nat) :
    ((own.set (a - 4) t (.loose true)).set (n - 4) t (.loose true)).addArea t n a
      = own.addArea t n a := by
  funext x
  show (if x = a - 4 then _ else if x = n - 4 then _ else if x = n - 4 then _ else
    if x = a - 4 then _ else own x) = if x = a - 4 then _ else if x = n - 4 then _ else own x
  by_cases h1 : x = a - 4
  · rw [if_pos h1, if_pos h1]
  · by_cases h2 : x = n - 4
    · rw [if_neg h1, if_pos h2, if_neg h1, if_pos h2]
    · rw [if_neg h1, if_neg h2, if_neg h2, if_neg h1, if_neg h1, if_neg h2]

theorem addPage_loose (own : Owners) (t a m p v : Nat) :
    (own.set (m - 4) t (.loose true)).addPage t a m p v = own.addPage t a m p v := by
  funext x
  show (if x = p then _ else if x = m - 4 then _ else if x = m - 4 then _ else own x)
    = if x = p then _ else if x = m - 4 then _ else own x
  by_cases h1 : x = m - 4
  · rw [if_pos h1, if_pos h1]
  · rw [if_neg h1, if_neg h1, if_neg h1]

/-- two loose pages of `t` get roles of their own kind -/
theorem give_two {x y : Nat} {r r' : Role} {b b' : Bool} (hx : own.Page x t (.loose b))
    (hy : own.Page y t (.loose b')) (hr : r.object = b) (hr' : r'.object = b') {p t' : Nat}
    {r'' : Role} (hp : ((own.set x t r).set y t r').Page p t' r'') : own.Page p t' r'' ∨
      t' = t ∧ ∃ b, own.Page p t (.loose b) ∧ r''.object = b := by
  rcases page_set.mp hp with ⟨rfl, rfl, rfl⟩ | ⟨_, hp⟩
  · exact .inr ⟨rfl, b', hy, hr'⟩
  · rcases page_set.mp hp with ⟨rfl, rfl, rfl⟩ | ⟨_, hp⟩
    · exact .inr ⟨rfl, b, hx, hr⟩
    · exact .inl hp

theorem mono_two {x y : Nat} {r r' : Role} {b b' : Bool} (hx : own.Page x t (.loose b))
    (hy : own.Page y t (.loose b')) (hne : x ≠ y) : own.Mono ((own.set x t r).set y t r') := by
  refine (mono_set fun t' r' hp => ?_).trans (mono_set fun t' r' hp => ?_)
  · rw [(hp.unique hx).2]
    rfl
  · rw [((set_of_ne hne.symm).mp hp).unique hy |>.2]
    rfl

end Owners

theorem AreaAdded.world (ha : AreaAdded h h' t n a) (hw : World h own q) (ht : t ∈ h.live) :
    Grown q t h own h' (own.addArea t n a) := by
  obtain ⟨mm, hx, hhead, hx', hhead'⟩ := ha.mm
  have g₁ := hw.takeObject hx ha.area4 hhead t
  have g₂ := g₁.world.takeObject hx' ha.node4 hhead' t
  have hnew : n - 4 ≠ a - 4 := by
    intro e
    exact hx'.not_new (g₁.world.held.kept Owners.set_self) (e ▸ List.mem_singleton_self _)
  have hA : ((own.set (a - 4) t (.loose true)).set (n - 4) t (.loose true)).Obj a t (.loose true) :=
    ⟨ha.area4, (Owners.set_of_ne hnew.symm).mpr Owners.set_self⟩
  have hN : ((own.set (a - 4) t (.loose true)).set (n - 4) t (.loose true)).Obj n t (.loose true) :=
    ⟨ha.node4, Owners.set_self⟩
  have g₃ := g₂.world.setNode t hN.page (h.newNode n a)
  have g₄ := g₃.world.initPages t hA.page
  -- the fields of the new area are written before it comes into use
  have g₄' := g₄.world.setArea (t := t) (a := a) (x := h'.area a) fun t' n' hb =>
    nomatch (hb.unique hA).2
  have hnode : (h.areaLinks n a).node n = h.newNode n a := by
    show (h.lists.setNode n _).node n = _
    rw [Lists.node_setNode, if_pos rfl]
  have hvalue : ((h.areaLinks n a).node n).value = a := by rw [hnode]; rfl
  have hnext : ((h.areaLinks n a).node n).next = 0 := by rw [hnode]; rfl
  have hprev : ((h.areaLinks n a).node n).prev = 0 := by rw [hnode]; rfl
  have hempty : (h.areaLinks n a).list (.pages a) = { first := 0, last := 0 } := by
    unfold Heap.areaLinks
    rw [Lists.list_listInit, if_pos rfl]
  have hne : n ≠ a := fun e => hnew (by rw [e])
  have hbase : Areas (h.areaLinks n a)
      ((own.set (a - 4) t (.loose true)).set (n - 4) t (.loose true)) t := g₄.world.areas t ht
  have hareas := hbase.addArea hN hA hne hvalue hnext hprev hempty
  have hal : ∀ b n', (((own.set (a - 4) t (.loose true)).set (n - 4) t (.loose true)).set (n - 4) t
      .vnode |>.set (a - 4) t (.area n)).Obj b t (.area n') →
      pageSize ∣ (Function.update h.area a (h'.area a) b).va := by
    intro b n' hb
    by_cases he : b = a
    · subst he
      rw [Function.update_self]
      exact ha.aligned
    · have hb₁ := (Owners.obj_set ha.area4).mp hb |>.resolve_left fun e => he e.1
      have hb₂ := (Owners.obj_set ha.node4).mp hb₁.2 |>.resolve_left fun e => nomatch e.2.2
      exact g₄'.world.aligned t b n' hb₂.2
  have g₅ := g₄'.world.relink ht (Owners.mono_two hN.page hA.page hnew)
    (fun p t' r hp => Owners.give_two hN.page hA.page rfl rfl hp)
    (OwnLinks.refl (h.areaLinks n a) _ _) hareas hal
  have hown : (((own.set (a - 4) t (.loose true)).set (n - 4) t (.loose true)).set (n - 4) t
      .vnode).set (a - 4) t (.area n) = own.addArea t n a := Owners.addArea_loose own t n a
  rw [hown] at g₅ hareas
  have hPn : (own.addArea t n a).Obj n t .vnode :=
    ⟨ha.node4, (Owners.set_of_ne hnew).mpr Owners.set_self⟩
  obtain ⟨hc, hf⟩ := ha.links _ hPn hareas.vm
  obtain ⟨hA', hL'⟩ := hareas.vmLinks hc hf
  have g₆ := g₅.world.relink ht (.refl _) (fun _ _ _ hp => .inl hp) hL' hA' (g₅.world.aligned t)
  have g := (((((g₁.trans g₂).trans g₃).trans g₄).trans g₄').trans g₅).trans g₆
  refine g.trans (g.world.fields t rfl rfl ha.live ha.blocks (Nat.le_of_eq ha.pids.symm)
    (fun t' _ => ?_) fun b t' n' hb => .inl ?_)
  · rw [ha.task]
    exact ⟨rfl, rfl, rfl, rfl⟩
  · show h'.area b = Function.update h.area a (h'.area a) b
    by_cases he : b = a
    · rw [he, Function.update_self]
    · rw [Function.update_of_ne he, ha.area b he]

theorem PageAdded.world (ha : PageAdded h h' root a p m va flags N) (hw : World h own q)
    (ht : t ∈ h.live) (hroot : (h.task t).pageTable = root) (hp : own.Page p t (.loose false))
    (harea : own.Obj a t (.area n)) (hu : flags &&& pteUser ≠ 0) :
    Grown q t h own h' ((own.addPage t a m p (vpnOf va)).setTables N t) := by
  obtain ⟨mm, hx, hhead, hedit, hwalk⟩ := ha.mm
  have g₁ := hw.takeObject hx ha.node4 hhead t
  have hmp : p ≠ m - 4 := fun e =>
    hx.not_new (hw.held.kept hp) (e ▸ List.mem_singleton_self _)
  have hM : (own.set (m - 4) t (.loose true)).Obj m t (.loose true) := ⟨ha.node4, Owners.set_self⟩
  have hP : (own.set (m - 4) t (.loose true)).Page p t (.loose false) :=
    (Owners.set_of_ne hmp).mpr hp
  have hma : a - 4 ≠ m - 4 := fun e =>
    hx.not_new (hw.held.kept harea.page) (e ▸ List.mem_singleton_self _)
  have hA : (own.set (m - 4) t (.loose true)).Obj a t (.area n) :=
    ⟨harea.1, (Owners.set_of_ne hma).mpr harea.page⟩
  have g₂ := g₁.world.setNode t hM.page (h.newNode m p)
  obtain ⟨L, hL⟩ : ∃ L, L = h.lists.setNode m (h.newNode m p) := ⟨_, rfl⟩
  have hnode : L.node m = h.newNode m p := by
    rw [hL, Lists.node_setNode, if_pos rfl]
  have hvalue : (L.node m).value = p := by rw [hnode]; rfl
  have hnext : (L.node m).next = 0 := by rw [hnode]; rfl
  have hprev : (L.node m).prev = 0 := by rw [hnode]; rfl
  have hbase : Areas L (own.set (m - 4) t (.loose true)) t := by
    rw [hL]
    exact g₂.world.areas t ht
  have hareas := hbase.addPage (v := vpnOf va) hM hP hA hvalue hnext hprev
  have hlinks : OwnLinks (h.lists.setNode m (h.newNode m p)) L (own.set (m - 4) t (.loose true)) t := by
    rw [hL]
    exact OwnLinks.refl _ _ _
  have hal : PageAligned h (((own.set (m - 4) t (.loose true)).set (m - 4) t (.pnode a)).set p t (.user m (vpnOf va))) t := by
    intro b n' hb
    have hP' : ((own.set (m - 4) t (.loose true)).set (m - 4) t (.pnode a)).Page p t (.loose false) :=
      (Owners.set_of_ne hmp).mpr hP
    have h1 : Role.area n' ≠ .user m (vpnOf va) := nofun
    have h2 : Role.area n' ≠ .pnode a := nofun
    have hb₁ := (Owners.page_set_of_loose hP' rfl h1).mp hb.2
    exact g₂.world.aligned t b n' ⟨hb.1, (Owners.page_set_of_loose hM.page rfl h2).mp hb₁⟩
  have g₃ := g₂.world.relink ht (Owners.mono_two hM.page hP hmp.symm)
    (fun p t' r hp => Owners.give_two hM.page hP rfl rfl hp) hlinks hareas hal
  have hown : ((own.set (m - 4) t (.loose true)).set (m - 4) t (.pnode a)).set p t
      (.user m (vpnOf va)) = own.addPage t a m p (vpnOf va) := Owners.addPage_loose own t a m p _
  rw [hown] at g₃ hareas
  have hPm : (own.addPage t a m p (vpnOf va)).Obj m t (.pnode a) :=
    ⟨ha.node4, (Owners.set_of_ne hmp.symm).mpr Owners.set_self⟩
  have hA' : (own.addPage t a m p (vpnOf va)).Obj a t (.area n) := by
    refine ⟨harea.1, (Owners.set_of_ne ?_).mpr ((Owners.set_of_ne hma).mpr harea.page)⟩
    exact harea.page.ne hp nofun
  have hm0 : m ≠ 0 := hPm.ne_zero
  have hclosed := hareas.pages a n hA'
  obtain ⟨hA₄, hL₄⟩ := hareas.pageLinks hA' (hclosed.push hPm hm0) (hclosed.push_frame hPm hm0)
  have g₄ := g₃.world.relink ht (.refl _) (fun _ _ _ hp => .inl hp) hL₄ hA₄ (g₃.world.aligned t)
  have hP' : (own.addPage t a m p (vpnOf va)).Page p t (.user m (vpnOf va)) := Owners.set_self
  rw [← hroot] at hedit hwalk
  have g₅ := g₄.world.mapPage ht hedit.toEdit hwalk hP' hu
  have hA₅ : ((own.addPage t a m p (vpnOf va)).setTables N t).Obj a t (.area n) :=
    g₅.mono.obj hA' rfl
  have g := (((g₁.trans g₂).trans g₃).trans g₄).trans g₅
  refine g.trans (g.world.fields t rfl ?_ ha.live ha.blocks (Nat.le_of_eq ha.pids.symm)
    (fun t' _ => ha.task t') fun b t' n' hb => ?_)
  · rw [ha.lists, hL]
  · by_cases he : b = a
    · subst he
      exact .inr ⟨(hb.unique hA₅).1, ha.aligned (hw.aligned t b n harea)⟩
    · exact .inl (ha.area b he)

/-! ## the functions that add an area -/

variable {r : ListRef} {P : Nat → Prop} {err : Int} {nPages : Nat}

/-- the loop of vm_add_area; it never inserts the new node before itself -/
theorem vmInsertFrom_links {fuel node : Nat} (hc : h.lists.Closed P r) (hn : P n) (h0 : n ≠ 0)
    (hvalue : (h.lists.node n).value = a) (hnode : node = 0 ∨ P node)
    (hrun : Heap.vmInsertFrom r a n fuel node h = .ok h') :
    h'.lists.Closed P r ∧ h.lists.Frame h'.lists P r := by
  induction fuel generalizing node h with
  | zero => exact nomatch hrun
  | succ fuel ih =>
    unfold Heap.vmInsertFrom at hrun
    by_cases hz : node = 0
    · simp only [hz, if_true] at hrun
      cases hrun
      exact ⟨hc, .refl _ _ _⟩
    · simp only [hz, if_false] at hrun
      have hP : P node := hnode.resolve_left hz
      by_cases hlt : (h.area a).va < (h.area (h.node node).value).va
      · simp only [hlt, if_true] at hrun
        have hne : n ≠ node := by
          intro e
          subst e
          have hv : (h.node n).value = a := hvalue
          rw [hv] at hlt
          exact absurd hlt (Nat.lt_irrefl _)
        have hc₁ := hc.insertBefore hn h0 hP hz hne
        have hf₁ := hc.insertBefore_frame hn h0 hP hz hne
        obtain ⟨hc₂, hf₂⟩ := ih (h := { h with lists := h.lists.listInsertBefore r n node }) hc₁
          ((hf₁.value n).trans hvalue) (hc₁.next node hP) hrun
        exact ⟨hc₂, hf₁.trans hf₂⟩
      · simp only [hlt, if_false] at hrun
        exact ih hc hvalue (hc.next node hP) hrun

/-- where no area lies above the new one, the loop changes nothing -/
theorem vmInsertFrom_last {fuel node : Nat} {ns : List Nat}
    (hc : Chain (fun k => (h.lists.node k).next) 0 node ns)
    (hva : ∀ k ∈ ns, (h.area (h.node k).value).va ≤ (h.area a).va)
    (hrun : Heap.vmInsertFrom r a n fuel node h = .ok h') : h' = h := by
  induction fuel generalizing node ns with
  | zero => exact nomatch hrun
  | succ fuel ih =>
    unfold Heap.vmInsertFrom at hrun
    by_cases hz : node = 0
    · simp only [hz, if_true] at hrun
      cases hrun
      rfl
    · simp only [hz, if_false] at hrun
      obtain ⟨ns', rfl, hc'⟩ := hc.cons_of_ne hz
      have hle := hva node List.mem_cons_self
      simp only [Nat.not_lt.mpr hle, if_false] at hrun
      exact ih hc' (fun k hk => hva k (List.mem_cons_of_mem _ hk)) hrun

theorem Lists.node_listInit : (L.listInit r).node = L.node := rfl

/-- the node that was just created leads nowhere -/
theorem Heap.areaLinks_node (h : Heap) (n a : Nat) : (h.areaLinks n a).node n = h.newNode n a := by
  show (h.lists.setNode n _).node n = _
  rw [Lists.node_setNode, if_pos rfl]

/-- vm_area_create and vm_add_area -/
theorem areaAdded_of_create {h₁ : Heap} (hok : h.mm.Ok)
    (hcreate : h.vmAreaCreate va nPages flags = .ok (a, h₁))
    (hadd : h₁.vmAddArea (.vmAreas t) a = .ok (err, h')) : err = 0 ∧ ∃ n, AreaAdded h h' t n a ∧
      h'.area a = { va := va, nPages := nPages, flags := flags, refcount := 1 } := by
  obtain ⟨mm₁, rfl, ha4, hx₁, hhead₁, hva⟩ := Heap.vmAreaCreate_spec hok hcreate
  unfold Heap.vmAddArea at hadd
  obtain ⟨⟨n, h₂⟩, hnode, hadd⟩ := Res.bind_eq_ok.mp hadd
  obtain ⟨mm₂, rfl, hn4, hx₂, hhead₂⟩ := Heap.listNodeCreate_spec hx₁.ok hnode
  have hn0 : n ≠ 0 := by omega
  simp only [hn0, if_false] at hadd
  obtain ⟨h₃, hinc, hadd⟩ := Res.bind_eq_ok.mp hadd
  have hinc := Heap.vmAreaIncref_spec hinc
  have hx : Function.update h.area a { va := va, nPages := nPages, flags := flags, refcount := 0 } a
      = { va := va, nPages := nPages, flags := flags, refcount := 0 } := Function.update_self _ _ _
  have hlists : h₃.lists = h.areaLinks n a := by rw [hinc]; rfl
  have harea : h₃.area a = { va := va, nPages := nPages, flags := flags, refcount := 1 } := by
    rw [hinc]
    show Function.update (Function.update h.area a _) a { Function.update h.area a _ a with
      refcount := ((Function.update h.area a _ a).refcount + 1) % Heap.refcountMod } a = _
    rw [Function.update_self, hx]
    rfl
  have hother : ∀ b ≠ a, h₃.area b = h.area b := by
    intro b hb
    rw [hinc]
    show Function.update (Function.update h.area a _) a _ b = h.area b
    rw [Function.update_of_ne hb, Function.update_of_ne hb]
  have hmm : h₃.mm = mm₂ := by rw [hinc]; rfl
  have hrest : h₃.blocks = n :: a :: h.blocks ∧ h₃.task = h.task ∧ h₃.live = h.live ∧
      h₃.nextTaskId = h.nextTaskId := by
    rw [hinc]
    exact ⟨rfl, rfl, rfl, rfl⟩
  obtain ⟨h₄, hins, hret⟩ := Res.bind_eq_ok.mp hadd
  have hnode : h₃.lists.node n = h.newNode n a := by rw [hlists, h.areaLinks_node]
  obtain ⟨L, rfl⟩ := Heap.vmInsertFrom_rest hins
  cases hret
  refine ⟨rfl, n, ⟨⟨mm₁, hx₁, hhead₁, ?_, ?_⟩, ha4, hn4, fun P hP hc => ?_,
    fun ns hq hnot hva' => ?_, ?_, hrest.1, hrest.2.1, hrest.2.2.1, hrest.2.2.2, hother, ?_⟩, harea⟩
  · show Extends mm₁ h₃.mm ∅ [n - 4]
    rw [hmm]
    exact hx₂
  · show load 4 h₃.mm.mem (n - 4) = 0
    rw [hmm]
    exact hhead₂
  · rw [← hlists] at hc ⊢
    obtain ⟨hc', hf'⟩ := vmInsertFrom_links hc hP hn0 (by rw [hnode]; rfl) hc.first hins
    exact ⟨hc'.push hP hn0, hf'.trans (hc'.push_frame hP hn0)⟩
  · rw [← hlists] at hq hva'
    have hsame : ({ h₃ with lists := L } : Heap) = h₃ := vmInsertFrom_last hq.chain hva' hins
    have hL : L = h₃.lists := congrArg Heap.lists hsame
    show (Lists.listPush _ n L).Queue _ _
    rw [hL]
    refine hq.push hn0 hnot ?_
    rw [hnode]
    rfl
  · show ((Lists.listPush _ n L).list _).last = n
    rw [Lists.list_listPush, if_pos rfl]
  · show pageSize ∣ (h₃.area a).va
    rw [harea]
    exact hva

theorem Lists.eq_of (hn : ∀ p, L.node p = L'.node p) (hl : ∀ r, L.list r = L'.list r) : L = L' := by
  cases L
  cases L'
  congr
  · exact funext hn
  · exact funext hl

/-- the ends of one list and the links of another are independent -/
theorem Lists.listInit_listPush {r' : ListRef} (hr : r' ≠ r) (h0 : n ≠ 0) :
    (L.listPush r n).listInit r' = (L.listInit r').listPush r n := by
  have hlist : (L.listInit r').list r = L.list r := by rw [list_listInit, if_neg hr.symm]
  apply eq_of
  · intro p
    rw [node_listInit, ListNode.ext_iff, value_listPush, value_listPush, owner_listPush, owner_listPush,
      prev_listPush h0, prev_listPush h0, next_listPush, next_listPush, hlist]
    exact ⟨rfl, rfl, rfl, rfl⟩
  · intro r''
    rw [list_listInit, list_listPush, list_listPush, hlist, list_listInit]
    by_cases h1 : r'' = r'
    · rw [if_pos h1, if_pos h1, if_neg fun e => hr (h1.symm.trans e)]
    · rw [if_neg h1, if_neg h1]

/-- the area that a turn of vm_clone makes -/
theorem areaAdded_of_clone {h₁ h₂ : Heap} (hok : h.mm.Ok)
    (hk : h.kmalloc sizeofVmArea = .ok (a, h₁)) (hn : h₁.listNodeCreate a = .ok (n, h₂)) {x : VmArea}
    (hva : pageSize ∣ x.va) :
    AreaAdded h (((h₂.listPush (.vmAreas t) n).setArea a x).listInit (.pages a)) t n a ∧
      AreaLast h (((h₂.listPush (.vmAreas t) n).setArea a x).listInit (.pages a)) t n a := by
  obtain ⟨mm₁, rfl, ha4, hx₁, hhead₁⟩ := Heap.kmalloc_spec hok (by decide) hk
  obtain ⟨mm₂, rfl, hn4, hx₂, hhead₂⟩ := Heap.listNodeCreate_spec hx₁.ok hn
  have hn0 : n ≠ 0 := by omega
  have hlast : AreaLast h (((({ ({ h with mm := mm₁, blocks := a :: h.blocks } : Heap) with
      mm := mm₂, lists := h.lists.setNode n (h.newNode n a), blocks := n :: a :: h.blocks } : Heap).listPush
      (.vmAreas t) n).setArea a x).listInit (.pages a)) t n a := by
    intro ns hq hnot
    have hlists : ((h.lists.setNode n (h.newNode n a)).listPush (.vmAreas t) n).listInit (.pages a)
        = (h.areaLinks n a).listPush (.vmAreas t) n := Lists.listInit_listPush nofun hn0
    show (Lists.listInit _ (Lists.listPush _ n (h.lists.setNode n (h.newNode n a)))).Queue _ _
    rw [hlists]
    refine hq.push hn0 hnot ?_
    rw [h.areaLinks_node]
    rfl
  refine ⟨⟨⟨mm₁, hx₁, hhead₁, hx₂, hhead₂⟩, ha4, hn4, fun P hP hc => ?_,
    fun ns hq hnot _ => hlast ns hq hnot, ?_, rfl, rfl, rfl, rfl, fun b hb => ?_, ?_⟩, hlast⟩
  · have hlists : ((h.lists.setNode n (h.newNode n a)).listPush (.vmAreas t) n).listInit (.pages a)
        = (h.areaLinks n a).listPush (.vmAreas t) n := Lists.listInit_listPush nofun hn0
    show (Lists.listInit _ (Lists.listPush _ n (h.lists.setNode n (h.newNode n a)))).Closed P _ ∧
      Lists.Frame _ (Lists.listInit _ (Lists.listPush _ n (h.lists.setNode n (h.newNode n a)))) P _
    rw [hlists]
    exact ⟨hc.push hP hn0, hc.push_frame hP hn0⟩
  · have hlist : ∀ L : Lists, ((L.listPush (.vmAreas t) n).listInit (.pages a)).list (.vmAreas t)
        = (L.listPush (.vmAreas t) n).list (.vmAreas t) := fun L => by
      rw [Lists.list_listInit, if_neg nofun]
    show ((Lists.listInit _ (Lists.listPush _ n (h.lists.setNode n _))).list _).last = n
    rw [hlist, Lists.list_listPush, if_pos rfl]
  · show Function.update h.area a x b = h.area b
    rw [Function.update_of_ne hb]
  · show pageSize ∣ (Function.update h.area a x a).va
    rwa [Function.update_self]

/-! ## the functions that add a page -/

theorem Flat.extends {a a' : Mm} {W : Set Nat} (hf : Flat a.mem 2 root) (hw : WellFormed a root)
    (hx : Extends a a' W N) (hW : ∀ s ∈ tables a.mem 2 root, s ∉ W) : Flat a'.mem 2 root := by
  refine hf.congr fun s hs i hi => entry_congr hi fun x h1 h2 => ?_
  exact hx.same (hw.kept s hs) (tables_page hw.page s hs) (hW s hs) ⟨h1, h2⟩

/-- vm_area_add_page and set_page; other areas stay as they are -/
theorem pageAdded_of_add {h₁ : Heap} (hwf : WellFormed h.mm root) (hf : flags < 2 ^ 8)
    (hadd : h.vmAreaAddPage a p = .ok (err, h₁)) {x : Nat → VmArea}
    (hx : ∀ b ≠ a, x b = h.area b) (hva : pageSize ∣ (h.area a).va → pageSize ∣ (x a).va) {err' : Int}
    (hset : Heap.setPage root va (PA p) flags { h₁ with area := x } = .ok (err', h')) :
    err = 0 ∧ err' = 0 ∧ ∃ m N, PageAdded h h' root a p m va flags N := by
  obtain ⟨rfl, mm₁, m, rfl, hm4, hx₁, hhead₁⟩ := Heap.vmAreaAddPage_spec hwf.ok hadd
  obtain ⟨mm₂, rfl, hset'⟩ := setPage_heap hset
  obtain ⟨hwf₁, _, _⟩ := hwf.extends hx₁ fun _ _ => nofun
  obtain ⟨rfl, N, _, hedit, hwalk⟩ := setPage_spec hwf₁ hf hset'
  exact ⟨rfl, rfl, m, N, ⟨mm₁, hx₁, hhead₁, hedit, hwalk⟩, hm4, rfl, rfl,
    fun _ => ⟨rfl, rfl, rfl, rfl⟩, rfl, rfl, hx, hva, fun hl hflat =>
      setPage_flat hwf₁ (hflat.extends hwf hx₁ fun _ _ => nofun) hl hset'⟩

end FakeKernel
