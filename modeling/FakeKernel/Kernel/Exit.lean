import FakeKernel.Kernel.Teardown

/-!
# task_destroy keeps the invariant

* `taskDestroy_spec`   which pages it gives back, and when it returns;
* `Destroyed.world`    the task is gone and the others are as they were.
-/

namespace FakeKernel
open Bytes Mm

variable {h h' h₁ : Heap} {own own' : Owners} {q : TaskList → List Nat} {W : Set Nat} {D : List Nat}
  {t t' n a p root : Nat} {r : Role}

/-! ## what the others keep -/

/-- a page table whose pages nobody touched -/
theorem Maps.untouched (hm : Maps h.mm own t root) (hu : Untouched h h' own own' t) (hok : h'.mm.Ok)
    (hout : ∀ s, own'.Page s t .table → pageAt s ∈ h'.mm.out) : Maps h'.mm own' t root := by
  have hsame : ∀ s ∈ FakeKernel.tables h.mm.mem 2 root, SameTable h.mm.mem h'.mm.mem s := fun s hs i hi =>
    entry_congr hi fun x h1 h2 => hu.mem s (hm.tables s hs) x ⟨h1, h2⟩
  have htab := tables_congr hsame
  have hwalk : ∀ x, walk h'.mm.mem 2 root x = walk h.mm.mem 2 root x := fun x => walk_congr hsame
  have htables : ∀ s ∈ FakeKernel.tables h'.mm.mem 2 root, own'.Page s t .table := by
    intro s hs
    rw [htab] at hs
    exact (hu.agree s .table rfl).mpr (hm.tables s hs)
  refine ⟨⟨hok, hm.wf.tree.congr hsame, hm.wf.page, fun s hs => .of_mem (hout s (htables s hs))⟩, htables,
    fun x hx tr htr huser => ?_, fun x hx tr htr hk => ?_⟩
  · rw [hwalk] at htr
    obtain ⟨p, m, hp, hpa⟩ := hm.user x hx tr htr huser
    exact ⟨p, m, (hu.agree p _ rfl).mpr hp, hpa⟩
  · rw [hwalk] at htr
    exact hm.kern x hx tr htr hk

theorem Areas.untouched (hA : Areas h.lists own t) (hu : Untouched h h' own own' t) :
    Areas h'.lists own' t := hA.congr hu.agree.listed ⟨hu.node, hu.vm, hu.pages⟩

theorem Static.untouched (hs : Static h own t) (hu : Untouched h h' own own' t) : Static h' own' t where
  task := (hu.obj rfl).mpr hs.task
  sched := by
    rw [hu.task.1]
    exact (hu.obj rfl).mpr hs.sched
  stack := by
    rw [hu.task.2.1]
    exact (hu.agree _ _ rfl).mpr hs.stack

/-- the blocks of one task are given back: the other tasks do not notice -/
theorem Releases.untouched (hr : Releases h h' own W t D) (hh : Held h own)
    (hW : ∀ s ∈ W, ∃ r, own.Page s t r) (ha : own.Agree own' t') (hne : t' ≠ t) :
    Untouched h h' own own' t' := by
  have hnot : ∀ {p r r'}, own.Page p t' r → ¬ own.Page p t r' := fun hp hp' => hne (hp.unique hp').1
  refine ⟨ha, fun p hp x hx => ?_, ?_, fun n r _ _ => ?_, ?_, fun a n hn => ?_, fun a n hn => ?_⟩
  · refine hr.mm.same hh.ok (hh.out p t' _ hp) (fun hin => ?_) (fun hin => ?_) hx
    · obtain ⟨r', hp'⟩ := hr.owned p hin
      exact hnot hp hp'
    · obtain ⟨r', hp'⟩ := hW p hin
      exact hnot hp hp'
  · rw [hr.task]
    exact ⟨rfl, rfl, rfl, rfl⟩
  · exact congrFun hr.node n
  · exact hr.list _ (fun e => hne (ListRef.vmAreas.inj e)) fun _ _ _ => nofun
  · exact hr.list _ nofun fun b m hb e => hnot hn.page (ListRef.pages.inj e ▸ hb.page)
  · exact hr.area a fun m hm => hnot hn.page hm.page

/-! ## the blocks of a task -/

theorem Areas.listed_pnode (hA : Areas h.lists own t) (ha : own.Obj a t (.area n)) :
    ∀ m ∈ listed h (.pages a), own.Obj m t (.pnode a) := by
  intro m hm
  unfold listed at hm
  split at hm
  · rename_i hx
    have hclosed := hA.pages a n ha
    exact hclosed.chain hclosed.first hx.choose_spec m hm
  · exact absurd hm List.not_mem_nil

theorem Areas.listed_vnode (hA : Areas h.lists own t) : ∀ n ∈ listed h (.vmAreas t), own.Obj n t .vnode := by
  intro n hn
  unfold listed at hn
  split at hn
  · rename_i hx
    exact hA.vm.chain hA.vm.first hx.choose_spec n hn
  · exact absurd hn List.not_mem_nil

/-- task_destroy_sched gives back nodes, areas and user pages -/
theorem SchedBlocks.role (hA : Areas h.lists own t) (hs : Static h own t) (hp : SchedBlocks h t p) :
    ∃ r, own.Page p t r ∧ (r.isListed = true ∨ r = .sched) := by
  rcases hp with ⟨n, hn, _, hin⟩ | hn | he
  · have hv := hA.listed_vnode n hn
    have ha := (hA.area n _).mpr ⟨hv, rfl⟩
    rcases areaBlocks_role hA ha (hA.listed_pnode ha) hin with ⟨hr, _⟩ | ⟨m, v, hr, _⟩ | hr
    · exact ⟨_, hr, .inl rfl⟩
    · exact ⟨_, hr, .inl rfl⟩
    · exact ⟨_, hr, .inl rfl⟩
  · obtain ⟨n, hin, rfl⟩ := List.mem_map.mp hn
    exact ⟨_, (hA.listed_vnode n hin).page, .inl rfl⟩
  · exact ⟨_, he ▸ hs.sched.page, .inr rfl⟩

/-- the pages that task_destroy gives back -/
def TaskBlocks (h : Heap) (t p : Nat) : Prop :=
  SchedBlocks h t p ∨ p ∈ tables h.mm.mem 2 (h.task t).pageTable ∨ p = (h.task t).kernelStack ∨ p = t - 4

/-- page tables are given back -/
theorem Releases.tables {mm : Mm} {D' : List Nat} (hr : Releases h h₁ own ∅ t D) (hh : Held h own)
    (hs : Shrinks h₁.mm mm ∅ D') (hD : ∀ s ∈ D', own.Page s t .table) :
    Releases h { h₁ with mm := mm } own ∅ t (D' ++ D) where
  mm := hr.mm.trans hs (Set.empty_subset _)
  owned := fun s hs => (List.mem_append.mp hs).elim (fun hin => ⟨_, hD s hin⟩) (hr.owned s)
  node := hr.node
  list := hr.list
  area := hr.area
  task := hr.task
  live := hr.live
  pids := hr.pids
  blocks := ⟨hr.blocks.1, fun b hb => by
    rw [List.mem_append]
    intro hin
    cases hin with
    | inl hin => exact nomatch (hh.blocks b (hr.blocks.1.subset hb)).2.2 t .table (hD _ hin)
    | inr hin => exact hr.blocks.2 b hb hin⟩

/-- the task `t` was destroyed -/
structure Destroyed (h h' : Heap) (own : Owners) (t : Nat) (D : List Nat) : Prop where
  releases : ∃ h₁, Releases h h₁ own ∅ t D ∧ h' = { h₁ with live := h₁.live.erase t }
  dropped : ∀ p, p ∈ D ↔ TaskBlocks h t p

/-- task_destroy_sched leaves the tables alone -/
theorem keepsTables (hr : Releases h h₁ own ∅ t D) (hw : World h own q) (ht : t ∈ h.live)
    (hD : ∀ p, p ∈ D ↔ SchedBlocks h t p) : ∀ s ∈ tables h.mm.mem 2 (h.task t).pageTable,
      (pageAt s ∈ h.mm.out ∧ s ∉ D) ∧ SameTable h.mm.mem h₁.mm.mem s := by
  intro s hs
  have hp := (hw.maps t ht).tables s hs
  have hout := hw.held.out s t _ hp
  have hnot : s ∉ D := by
    intro hmem
    obtain ⟨r, hr', hrole⟩ := SchedBlocks.role (hw.areas t ht) (hw.static t ht) ((hD s).mp hmem)
    rw [(hr'.unique hp).2] at hrole
    exact hrole.elim nofun nofun
  exact ⟨⟨hout, hnot⟩, hr.mm.sameTable hw.held.ok hout hnot nofun⟩

/-- task_destroy from destroy_page_table on -/
theorem destroyRest_spec (hw : World h own q) (ht : t ∈ h.live) (hr : Releases h h₁ own ∅ t D)
    (hD : ∀ p, p ∈ D ↔ SchedBlocks h t p) :
    GivesBack h₁.mm (FakeKernel.destroyPageTable (h.task t).pageTable h₁.mm)
      (Flat h.mm.mem 2 (h.task t).pageTable) (· ∈ tables h.mm.mem 2 (h.task t).pageTable) := by
  have hM := hw.maps t ht
  have hkeep := keepsTables hr hw ht hD
  have hsame : ∀ s ∈ tables h.mm.mem 2 (h.task t).pageTable, SameTable h.mm.mem h₁.mm.mem s := fun s hs => (hkeep s hs).2
  have htab := tables_congr hsame
  have hback := doDestroyPageTable_spec hr.mm.ok (hM.wf.tree.congr hsame) fun s hs => by
    rw [htab] at hs
    exact (hr.mm.mem_page hw.held.ok).mpr (hkeep s hs).1
  rw [htab] at hback
  exact ⟨fun hflat => hback.returns (hflat.congr hsame), hback.shrinks⟩

/-- `task_destroy` gives back every block of the task that its lists and its page table lead to -/
theorem taskDestroy_spec (hw : World h own q) (ht : t ∈ h.live) (hends : Ends h t)
    (hnot : ∀ g, (h.task t).sched ∉ q g) (hpid : (h.task t).pid ≠ 1) :
    (Flat h.mm.mem 2 (h.task t).pageTable → ∃ h', h.taskDestroy t = .ok h') ∧
    ∀ h', h.taskDestroy t = .ok h' → ∃ D, Destroyed h h' own t D := by
  have hh := hw.held
  have hA := hw.areas t ht
  have hS := hw.static t ht
  have hM := hw.maps t ht
  obtain ⟨h₁, D₁, hrun₁, hr₁, hD₁⟩ := taskDestroySched_spec hw ht hends (hw.queues.detached t ht hnot).2
  have hback := destroyRest_spec hw ht hr₁ hD₁
  have htask : h₁.task = h.task := hr₁.task
  have hrole₁ : ∀ {p r}, own.Page p t r → r.isListed = false → r ≠ .sched → p ∉ D₁ := by
    intro p r hp hl hne hin
    obtain ⟨r', hr', hrole⟩ := SchedBlocks.role hA hS ((hD₁ p).mp hin)
    rw [(hr'.unique hp).2] at hrole
    cases hrole with
    | inl he =>
      rw [hl] at he
      exact nomatch he
    | inr he => exact hne he
  -- what follows when the tables have been given back
  have hrest : ∀ mm, FakeKernel.destroyPageTable (h.task t).pageTable h₁.mm = .ok mm →
      ∃ h' D, h.taskDestroy t = .ok h' ∧ Destroyed h h' own t D := by
    intro mm hmm
    obtain ⟨D₂, hs₂, hD₂⟩ := hback.shrinks mm hmm
    have hr₂ := hr₁.tables hh hs₂ fun s hs => hM.tables s ((hD₂ s).mp hs)
    have hnot₂ : ∀ {p r}, own.Page p t r → r.isListed = false → r ≠ .sched → r ≠ .table → p ∉ D₂ ++ D₁ := by
      intro p r hp hl hne hne' hin
      cases List.mem_append.mp hin with
      | inl hin => exact hne' ((hM.tables p ((hD₂ p).mp hin)).unique hp).2.symm
      | inr hin => exact hrole₁ hp hl hne hin
    obtain ⟨mm₃, hrun₃, hr₃⟩ := hr₂.freePage hh hS.stack rfl (hnot₂ hS.stack rfl nofun nofun)
    have hne : t - 4 ∉ (h.task t).kernelStack :: (D₂ ++ D₁) := by
      rw [List.mem_cons]
      intro hin
      cases hin with
      | inl he => exact hS.task.page.ne hS.stack nofun he
      | inr hin => exact hnot₂ hS.task.page rfl nofun nofun hin
    obtain ⟨mm₄, hrun₄, hr₄⟩ := hr₃.kfree hh hS.task rfl hne nofun
    refine ⟨_, _, ?_, ⟨_, hr₄, rfl⟩, fun p => ?_⟩
    · have hdestroy : h₁.destroyPageTable (h₁.task t).pageTable = .ok { h₁ with mm := mm } := by
        unfold Heap.destroyPageTable
        rw [htask, hmm, Res.ok_bind]
      have hstack : (({ h₁ with mm := mm } : Heap).task t).kernelStack = (h.task t).kernelStack := by
        show (h₁.task t).kernelStack = _
        rw [htask]
      unfold Heap.taskDestroy
      rw [if_neg hpid, hrun₁, Res.ok_bind, hdestroy, Res.ok_bind, hstack, hrun₃, Res.ok_bind, hrun₄, Res.ok_bind]
    · rw [List.mem_cons, List.mem_cons, List.mem_append, hD₂, hD₁]
      unfold TaskBlocks
      grind
  refine ⟨fun hflat => ?_, fun h' hrun => ?_⟩
  · obtain ⟨mm, hmm⟩ := hback.returns hflat
    obtain ⟨h', _, hrun, _⟩ := hrest mm hmm
    exact ⟨h', hrun⟩
  · have hrun' := hrun
    unfold Heap.taskDestroy at hrun'
    rw [if_neg hpid, hrun₁, Res.ok_bind, htask] at hrun'
    obtain ⟨h₂, hdestroy, _⟩ := Res.bind_eq_ok.mp hrun'
    unfold Heap.destroyPageTable at hdestroy
    obtain ⟨mm, hmm, _⟩ := Res.bind_eq_ok.mp hdestroy
    obtain ⟨h'', D, hrun'', hd⟩ := hrest mm hmm
    rw [hrun] at hrun''
    cases hrun''
    exact ⟨D, hd⟩

/-- a call that returns has followed the lists to their ends -/
theorem taskDestroy_ends (hA : Areas h.lists own t) (hrun : h.taskDestroy t = .ok h') :
    Ends h t ∧ (h.task t).pid ≠ 1 := by
  unfold Heap.taskDestroy at hrun
  by_cases hpid : (h.task t).pid = 1
  · rw [if_pos hpid] at hrun
    exact absurd hrun Res.panic_ne_ok
  · rw [if_neg hpid] at hrun
    obtain ⟨h₁, hsched, _⟩ := Res.bind_eq_ok.mp hrun
    unfold Heap.taskDestroySched at hsched
    obtain ⟨h₂, hdecref, _⟩ := Res.bind_eq_ok.mp hsched
    exact ⟨vmDecrefAll_ends hA hdecref, hpid⟩

/-! ## the world without the task -/

/-- nothing of `t` is in use any more -/
def Owners.without (own : Owners) (t : Nat) : Owners :=
  fun p => (own p).filter fun o => o.task != t

theorem Owners.page_without : (own.without t).Page p t' r ↔ own.Page p t' r ∧ t' ≠ t := by
  show (own p).filter _ = some ⟨t', r⟩ ↔ own p = some ⟨t', r⟩ ∧ t' ≠ t
  rw [Option.filter_eq_some_iff, bne_iff_ne]

theorem Owners.agree_without (hne : t' ≠ t) : own.Agree (own.without t) t' := fun _ _ _ =>
  page_without.trans (and_iff_left hne)

namespace Destroyed

theorem untouched (hd : Destroyed h h' own t D) (hh : Held h own) (hne : t' ≠ t) :
    Untouched h h' own (own.without t) t' := by
  obtain ⟨h₁, hr, rfl⟩ := hd.releases
  have hu := hr.untouched hh nofun (Owners.agree_without hne) hne
  exact ⟨hu.agree, hu.mem, hu.task, hu.node, hu.vm, hu.pages, hu.area⟩

theorem live (hd : Destroyed h h' own t D) : h'.live = h.live.erase t := by
  obtain ⟨h₁, hr, rfl⟩ := hd.releases
  show h₁.live.erase t = _
  rw [hr.live]

theorem task (hd : Destroyed h h' own t D) : h'.task = h.task := by
  obtain ⟨h₁, hr, rfl⟩ := hd.releases
  exact hr.task

theorem shrinks (hd : Destroyed h h' own t D) : Shrinks h.mm h'.mm ∅ D := by
  obtain ⟨h₁, hr, rfl⟩ := hd.releases
  exact hr.mm

theorem held (hd : Destroyed h h' own t D) (hh : Held h own) : Held h' (own.without t) := by
  have hlive := hd.live
  obtain ⟨h₁, hr, rfl⟩ := hd.releases
  have hkeep : ∀ {p t' r}, (own.without t).Page p t' r → own.Page p t' r ∧ t' ≠ t ∧ p ∉ D := by
    intro p t' r hp
    obtain ⟨hp, hne⟩ := Owners.page_without.mp hp
    refine ⟨hp, hne, fun hin => ?_⟩
    obtain ⟨r', hp'⟩ := hr.owned p hin
    exact hne (hp.unique hp').1
  refine ⟨hr.mm.ok, fun p t' r hp => ?_, fun p t' r hp hobj => ?_, fun p t' r hp hl => ?_,
    fun b hb => ?_, hr.blocks.1.nodup hh.nodup.1, ?_⟩
  · obtain ⟨hp, _, hD⟩ := hkeep hp
    exact (hr.mm.mem_page hh.ok).mpr ⟨hh.out p t' r hp, hD⟩
  · obtain ⟨hp, _, hD⟩ := hkeep hp
    rw [← hh.head p t' r hp hobj]
    refine load_congr fun x h1 h2 => hr.mm.same hh.ok (hh.out p t' _ hp) hD nofun ⟨h1, ?_⟩
    unfold pageSize
    omega
  · obtain ⟨hp, hne, _⟩ := hkeep hp
    rw [hlive]
    exact (List.mem_erase_of_ne hne).mpr (hh.live p t' r hp hl)
  · obtain ⟨h4, hout, hobj⟩ := hh.blocks b (hr.blocks.1.subset hb)
    exact ⟨h4, (hr.mm.mem_page hh.ok).mpr ⟨hout, hr.blocks.2 b hb⟩, fun t' r hp => hobj t' r (hkeep hp).1⟩
  · rw [hlive]
    exact hh.nodup.2.erase t

theorem world (hd : Destroyed h h' own t D) (hw : World h own q)
    (hnot : ∀ g, (h.task t).sched ∉ q g) : World h' (own.without t) q := by
  have hh := hd.held hw.held
  have hlive : ∀ {t'}, t' ∈ h'.live → t' ∈ h.live ∧ t' ≠ t := by
    intro t' ht'
    rw [hd.live] at ht'
    obtain ⟨hne, hin⟩ := (List.Nodup.mem_erase_iff hw.held.nodup.2).mp ht'
    exact ⟨hin, hne⟩
  have hu : ∀ {t'}, t' ≠ t → Untouched h h' own (own.without t) t' := fun hne => hd.untouched hw.held hne
  obtain ⟨h₁, hr, hh'⟩ := hd.releases
  have hnode : h'.lists.node = h.lists.node := by
    rw [hh']
    exact hr.node
  have htask := hd.task
  have hpids : h'.nextTaskId = h.nextTaskId := by
    rw [hh']
    exact hr.pids
  refine ⟨hh, fun t' ht' => ?_, fun t' a n ha => ?_, fun t' ht' => ?_, fun t' ht' => ?_, fun t' ht' => ?_,
    ⟨fun g => ?_, fun g n hn => ?_, fun t' ht' => ?_, fun t' ht' hout => ?_⟩⟩
  · rw [htask, hpids]
    exact hw.pids t' (hlive ht').1
  · obtain ⟨hp, hne⟩ := Owners.page_without.mp ha.page
    rw [(hu hne).area a n ⟨ha.1, hp⟩]
    exact hw.aligned t' a n ⟨ha.1, hp⟩
  · obtain ⟨hin, hne⟩ := hlive ht'
    exact (hw.static t' hin).untouched (hu hne)
  · obtain ⟨hin, hne⟩ := hlive ht'
    rw [(hu hne).task.2.2.1]
    exact (hw.maps t' hin).untouched (hu hne) hh.ok fun s hs => hh.out s t' _ hs
  · obtain ⟨hin, hne⟩ := hlive ht'
    exact (hw.areas t' hin).untouched (hu hne)
  · refine (hw.queues.queue g).congr ?_ fun n _ => by rw [hnode]; exact ⟨rfl, rfl⟩
    rw [hh']
    exact hr.list _ nofun fun _ _ _ => nofun
  · obtain ⟨t', ht', rfl⟩ := hw.queues.sched g n hn
    have hne : t' ≠ t := fun e => hnot g (e ▸ hn)
    refine ⟨t', ?_, by rw [htask]⟩
    rw [hd.live]
    exact (List.mem_erase_of_ne hne).mpr ht'
  · show (h'.lists.node (h'.task t').sched).value = t'
    rw [hnode, htask]
    exact hw.queues.value t' (hlive ht').1
  · show (h'.lists.node (h'.task t').sched).next = 0 ∧ (h'.lists.node (h'.task t').sched).list = none
    rw [hnode, htask]
    rw [htask] at hout
    exact hw.queues.detached t' (hlive ht').1 hout

end Destroyed

/-- a task whose sched node is in no list is destroyed -/
theorem taskDestroy_destroyed (hw : World h own q) (ht : t ∈ h.live) (hnot : ∀ g, (h.task t).sched ∉ q g)
    (hrun : h.taskDestroy t = .ok h') : ∃ D, Destroyed h h' own t D := by
  obtain ⟨hends, hpid⟩ := taskDestroy_ends (hw.areas t ht) hrun
  exact (taskDestroy_spec hw ht hends hnot hpid).2 h' hrun

end FakeKernel
