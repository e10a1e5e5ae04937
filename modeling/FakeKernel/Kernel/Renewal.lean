import FakeKernel.Kernel.Layout
import FakeKernel.Kernel.Reinit
import FakeKernel.Kernel.Requeue

/-!
# A task after task_reinit

* `Owners.renew`     the blocks of the old image are nobody's, and there is a new sched node;
* `Reinit.world`     the invariant holds again if the old image was below `SPLIT`;
* `Reinit.booked`    the task has no areas, and nothing is mapped below `SPLIT`.
-/

namespace FakeKernel
open Bytes Mm

variable {h h' h₁ : Heap} {own : Owners} {q : TaskList → List Nat} {mm : Mm} {D D₁ D₂ : List Nat}
  {t t' n p x : Nat} {r : Role} {ns : List Nat}

def Owners.renew (own : Owners) (t n : Nat) (D : List Nat) : Owners :=
  fun p => if p = n - 4 then some ⟨t, .sched⟩ else if p ∈ D then none else own p

theorem Owners.page_renew : (own.renew t n D).Page p t' r ↔
    (p = n - 4 ∧ t' = t ∧ r = .sched) ∨ (p ≠ n - 4 ∧ p ∉ D ∧ own.Page p t' r) := by
  unfold Owners.renew Owners.Page
  by_cases hn : p = n - 4
  · simp only [hn, if_true, Option.some.injEq, Owner.mk.injEq, ne_eq, not_true_eq_false, false_and, or_false, true_and]
    exact ⟨fun ⟨h1, h2⟩ => ⟨h1.symm, h2.symm⟩, fun ⟨h1, h2⟩ => ⟨h1.symm, h2.symm⟩⟩
  · by_cases hD : p ∈ D
    · simp only [hn, hD, if_true, if_false, reduceCtorEq, false_and, not_true_eq_false, and_false, or_self]
    · simp only [hn, hD, if_false, false_and, not_false_eq_true, true_and, false_or, ne_eq]

/-- no area is in use by a task that has no such pages -/
theorem Owners.renew_mono (hD : ∀ p ∈ D, ∃ r, own.Page p t r) (hn : ∀ t' r, ¬ own.Page (n - 4) t' r ∨ n - 4 ∈ D)
    (hne : t' ≠ t) : own.Agree (own.renew t n D) t' := by
  intro p r _
  refine ⟨fun hp => ?_, fun hp => ?_⟩
  · rcases Owners.page_renew.mp hp with ⟨_, he, _⟩ | ⟨_, _, hold⟩
    · exact absurd he hne
    · exact hold
  · have hnot : p ∉ D := fun hin => by
      obtain ⟨r', hp'⟩ := hD p hin
      exact hne (hp.unique hp').1
    refine Owners.page_renew.mpr (.inr ⟨fun he => ?_, hnot, hp⟩)
    subst he
    exact (hn t' r).elim (fun h => h hp) hnot

namespace Reinit

/-- the node is new -/
theorem node_new (hi : Reinit h h' own t n h₁ mm D₁ D₂) (hh : Held h own) (t' : Nat) (r : Role) :
    ¬ own.Page (n - 4) t' r ∨ n - 4 ∈ D₂ ++ D₁ := by
  by_cases hD : n - 4 ∈ D₂ ++ D₁
  · exact .inr hD
  · exact .inl fun hp => (hi.rest hh.ok (hh.out _ _ _ hp) hD).2.1 rfl

theorem agree (hi : Reinit h h' own t n h₁ mm D₁ D₂) (hw : World h own q) (ht : t ∈ h.live) (hne : t' ≠ t) :
    own.Agree (own.renew t n (D₂ ++ D₁)) t' := by
  refine Owners.renew_mono (fun p hp => ?_) (hi.node_new hw.held) hne
  obtain ⟨r, hr, _⟩ := hi.role hw ht hp
  exact ⟨r, hr⟩

theorem keepsPage (hi : Reinit h h' own t n h₁ mm D₁ D₂) (hh : Held h own) (hp : own.Page p t' r) (hD : p ∉ D₂ ++ D₁) :
    (own.renew t n (D₂ ++ D₁)).Page p t' r :=
  Owners.page_renew.mpr (.inr ⟨(hi.rest hh.ok (hh.out _ _ _ hp) hD).2.1, hD, hp⟩)

/-- the heap in front of the list_push of task_init_sched, where `t` has no sched node -/
def staged (h₁ h' : Heap) (t n : Nat) : Heap :=
  { h' with
    lists := (h₁.lists.listInit (.vmAreas t)).setNode n (h₁.newNode n t)
    live := h'.live.erase t }

theorem pushes (hi : Reinit h h' own t n h₁ mm D₁ D₂) : h'.lists = (staged h₁ h' t n).lists.listPush (.queue .tasks) n := by
  have hh := hi.heap
  unfold staged
  rw [hh]

theorem fields (hi : Reinit h h' own t n h₁ mm D₁ D₂) : h'.live = h.live ∧ h'.nextTaskId = h.nextTaskId ∧
    h'.blocks = n :: h₁.blocks ∧ h'.area = h₁.area ∧ (∀ t' ≠ t, h'.task t' = h.task t') ∧
    h'.task t = { h.task t with mode := .supervisor, kernelFrame := .taskEntry, sched := n } := by
  have hr := hi.releases
  rw [hi.heap]
  refine ⟨hr.live, hr.pids, rfl, rfl, fun t' hne => ?_, ?_⟩
  · show Function.update h₁.task t _ t' = _
    rw [Function.update_of_ne hne, hr.task]
  · show Function.update h₁.task t _ t = _
    rw [Function.update_self, hr.task]

/-- what another task owns is not given back -/
theorem not_dropped (hi : Reinit h h' own t n h₁ mm D₁ D₂) (hw : World h own q) (ht : t ∈ h.live) (hne : t' ≠ t)
    (hp : own.Page p t' r) : p ∉ D₂ ++ D₁ := by
  intro hD
  obtain ⟨r', hp', _⟩ := hi.role hw ht hD
  exact hne (hp.unique hp').1

theorem sched_ne (hi : Reinit h h' own t n h₁ mm D₁ D₂) (hw : World h own q) (ht : t ∈ h.live) (ht' : t' ∈ h.live)
    (hne : t' ≠ t) : (h.task t').sched ≠ n := by
  intro he
  have hp := (hw.static t' ht').sched.page
  exact (hi.rest hw.held.ok (hw.held.out _ _ _ hp) (hi.not_dropped hw ht hne hp)).2.1 (congrArg (· - 4) he)

/-- the nodes and lists that do not belong to the task -/
theorem links (hi : Reinit h h' own t n h₁ mm D₁ D₂) : (∀ m ≠ n, (staged h₁ h' t n).node m = h.node m) ∧
    (∀ r, r ≠ .vmAreas t → (∀ a m, own.Obj a t (.area m) → r ≠ .pages a) →
      (staged h₁ h' t n).lists.list r = h.lists.list r) ∧
    (staged h₁ h' t n).node n = h₁.newNode n t := by
  have hr := hi.releases
  refine ⟨fun m hm => ?_, fun r hr₁ hr₂ => ?_, ?_⟩
  · show (Lists.setNode n _ _).node m = _
    rw [Lists.node_setNode, if_neg hm]
    exact congrFun hr.node m
  · show (Lists.setNode n _ (Lists.listInit (.vmAreas t) h₁.lists)).list r = _
    rw [Lists.list_setNode, Lists.list_listInit, if_neg hr₁]
    exact hr.list r hr₁ hr₂
  · show (Lists.setNode n _ _).node n = _
    rw [Lists.node_setNode, if_pos rfl]

theorem queues (hi : Reinit h h' own t n h₁ mm D₁ D₂) (hw : World h own q) (ht : t ∈ h.live)
    (hnot : ∀ g, (h.task t).sched ∉ q g) : Queues h' (pushed q .tasks n) := by
  obtain ⟨hlive, _, _, _, hother, hself⟩ := hi.fields
  obtain ⟨hnode, hlist, hnew⟩ := hi.links
  have hQ := hw.queues
  have hn : n ≠ 0 := by
    have := hi.node4
    omega
  have hin : ∀ {g m}, m ∈ q g → ∃ t' ∈ h.live, t' ≠ t ∧ m = (h.task t').sched := fun {g m} hm => by
    obtain ⟨t', ht', he⟩ := hQ.sched g m hm
    exact ⟨t', ht', fun e => hnot g (e ▸ he ▸ hm), he⟩
  have hne : ∀ {g m}, m ∈ q g → m ≠ n := fun hm => by
    obtain ⟨t', ht', hne, he⟩ := hin hm
    exact he ▸ hi.sched_ne hw ht ht' hne
  have herase : ∀ {t'}, t' ∈ h'.live.erase t ↔ t' ≠ t ∧ t' ∈ h.live := fun {t'} => by
    rw [hlive]
    exact List.Nodup.mem_erase_iff hw.held.nodup.2
  have hQ₀ : Queues (staged h₁ h' t n) q := by
    refine ⟨fun g => ?_, fun g m hm => ?_, fun t' ht' => ?_, fun t' ht' hout => ?_⟩
    · refine (hQ.queue g).congr (hlist _ nofun fun _ _ _ => nofun) fun m hm => ?_
      have he : (staged h₁ h' t n).lists.node m = h.lists.node m := hnode m (hne hm)
      rw [he]
      exact ⟨rfl, rfl⟩
    · obtain ⟨t', ht', hne, he⟩ := hin hm
      refine ⟨t', herase.mpr ⟨hne, ht'⟩, ?_⟩
      show m = (h'.task t').sched
      rw [hother t' hne]
      exact he
    · obtain ⟨hne, hl⟩ := herase.mp ht'
      show ((staged h₁ h' t n).node (h'.task t').sched).value = t'
      rw [hother t' hne, hnode _ (hi.sched_ne hw ht hl hne)]
      exact hQ.value t' hl
    · obtain ⟨hne, hl⟩ := herase.mp ht'
      have he : (staged h₁ h' t n).task t' = h.task t' := hother t' hne
      rw [he] at hout ⊢
      rw [hnode _ (hi.sched_ne hw ht hl hne)]
      exact hQ.detached t' hl hout
  have hnext : ((staged h₁ h' t n).node n).next = 0 := by
    rw [hnew]
    rfl
  have hpush := hi.pushes
  have hvalue : ∀ m, (h'.node m).value = ((staged h₁ h' t n).node m).value := fun m => by
    show (h'.lists.node m).value = _
    rw [hpush, Lists.value_listPush]
    rfl
  have hsched : (h'.task t).sched = n := by rw [hself]
  refine ⟨fun g => ?_, fun g m hm => ?_, fun t' ht' => ?_, fun t' ht' hout => ?_⟩
  · rw [hpush]
    exact queues_push hQ₀ hn (fun g hm => hne hm rfl) hnext .tasks g
  · cases mem_pushed.mp hm with
    | inl hold =>
      obtain ⟨t', ht', hne, he⟩ := hin hold
      exact ⟨t', hlive ▸ ht', by rw [hother t' hne]; exact he⟩
    | inr hlast => exact ⟨t, hlive ▸ ht, hlast.2.trans hsched.symm⟩
  · rw [hvalue]
    by_cases he : t' = t
    · rw [he, hsched, hnew]
      rfl
    · exact hQ₀.value t' (herase.mpr ⟨he, hlive ▸ ht'⟩)
  · have hne : t' ≠ t := fun e => hout .tasks (mem_pushed.mpr (.inr ⟨rfl, by rw [e]; exact hsched⟩))
    have hnot' : ∀ g, ((staged h₁ h' t n).task t').sched ∉ q g := fun g hm => hout g (mem_pushed.mpr (.inl hm))
    have hl := hlive ▸ ht'
    have hsn : (h'.task t').sched ≠ n := by
      rw [hother t' hne]
      exact hi.sched_ne hw ht hl hne
    obtain ⟨h1, h2⟩ := (hQ₀.queue .tasks).push_other (hnot' .tasks) hsn
    obtain ⟨h3, h4⟩ := hQ₀.detached t' (herase.mpr ⟨hne, hl⟩) hnot'
    show (h'.lists.node (h'.task t').sched).next = 0 ∧ (h'.lists.node (h'.task t').sched).list = none
    rw [hpush]
    exact ⟨h1.trans h3, h2.trans h4⟩

/-- the other tasks do not notice -/
theorem untouched (hi : Reinit h h' own t n h₁ mm D₁ D₂) (hw : World h own q) (ht : t ∈ h.live) (hne : t' ≠ t) :
    Untouched h h' own (own.renew t n (D₂ ++ D₁)) t' := by
  obtain ⟨_, _, _, harea, hother, _⟩ := hi.fields
  obtain ⟨hnode, hlist, _⟩ := hi.links
  have hpush := hi.pushes
  have hroot := (hw.maps t ht).tables _ table_mem_tables
  have hnot : ∀ {a m m'}, own.Obj a t' (.area m) → ¬ own.Obj a t (.area m') := fun ha ha' => hne (ha.unique ha').1
  have hlists : ∀ r, r ≠ .queue .tasks → h'.lists.list r = (staged h₁ h' t n).lists.list r := fun r hr => by
    rw [hpush, Lists.list_listPush, if_neg hr]
  refine ⟨hi.agree hw ht hne, fun p hp x hx => ?_, ?_, fun m r hm hr => ?_, ?_, fun a m ha => ?_, fun a m ha => ?_⟩
  · have hroot' : p ≠ (h.task t).pageTable := fun he => hne (hp.unique (he ▸ hroot)).1
    exact (hi.rest hw.held.ok (hw.held.out _ _ _ hp) (hi.not_dropped hw ht hne hp)).2.2 hroot' x hx
  · rw [hother t' hne]
    exact ⟨rfl, rfl, rfl, rfl⟩
  · have hmn : m ≠ n := fun he =>
      (hi.rest hw.held.ok (hw.held.out _ _ _ hm.page) (hi.not_dropped hw ht hne hm.page)).2.1 (congrArg (· - 4) he)
    have hlast : m ≠ ((staged h₁ h' t n).lists.list (.queue .tasks)).last := by
      rw [hlist (.queue .tasks) nofun fun _ _ _ => nofun]
      exact Newborn.ready_last hw hm hr
    have hn : n ≠ 0 := by
      have := hi.node4
      omega
    show h'.lists.node m = _
    rw [hpush, Lists.node_listPush_of_ne hn hmn hlast]
    exact hnode m hmn
  · rw [hlists (.vmAreas t') nofun]
    exact hlist _ (fun he => hne (ListRef.vmAreas.inj he)) fun _ _ _ => nofun
  · rw [hlists (.pages a) nofun]
    refine hlist _ nofun fun a' m' ha' he => ?_
    cases he
    exact hnot ha ha'
  · rw [harea]
    exact hi.releases.area a fun m' ha' => hnot ha ha'

theorem held (hi : Reinit h h' own t n h₁ mm D₁ D₂) (hw : World h own q) (ht : t ∈ h.live) :
    Held h' (own.renew t n (D₂ ++ D₁)) := by
  obtain ⟨hlive, _, hblocks, _⟩ := hi.fields
  have hh := hw.held
  have hroot := (hw.maps t ht).tables _ table_mem_tables
  have hnew : pageAt (n - 4) ∈ h'.mm.out := hi.grow.new_mem (List.mem_singleton_self _)
  have hblock : ∀ b ∈ h₁.blocks, b ∈ h.blocks ∧ pageAt (b - 4) ∈ h.mm.out ∧ b - 4 ∉ D₂ ++ D₁ := by
    intro b hb
    have hb' := hi.releases.blocks.1.subset hb
    obtain ⟨_, hout, hobj⟩ := hh.blocks b hb'
    refine ⟨hb', hout, fun hD => ?_⟩
    obtain ⟨r, hr, hkind⟩ := hi.role hw ht hD
    have hD₂ : b - 4 ∈ D₂ := (List.mem_append.mp hD).resolve_right (hi.releases.blocks.2 b hb)
    obtain ⟨hin, _⟩ := hi.emptied.dropped _ hD₂
    rw [tables_congr fun s hs => (keepsTables hi.releases hw ht hi.dropped s hs).2] at hin
    exact nomatch hobj t .table ((hw.maps t ht).tables _ hin)
  refine ⟨hi.wf.ok, fun p t' r hp => ?_, fun p t' r hp hobj => ?_, fun p t' r hp hl => ?_, fun b hb => ?_, ?_, ?_⟩
  · rcases Owners.page_renew.mp hp with ⟨rfl, _⟩ | ⟨_, hD, hold⟩
    · exact hnew
    · exact (hi.rest hh.ok (hh.out _ _ _ hold) hD).1
  · rcases Owners.page_renew.mp hp with ⟨rfl, _⟩ | ⟨_, hD, hold⟩
    · exact hi.head
    · have hne : p ≠ (h.task t).pageTable := fun he => by
        rw [he] at hold
        rw [(hold.unique hroot).2] at hobj
        exact nomatch hobj
      rw [← hh.head p t' r hold hobj]
      refine load_congr fun x h1 h2 => (hi.rest hh.ok (hh.out _ _ _ hold) hD).2.2 hne x ⟨h1, ?_⟩
      unfold pageSize
      omega
  · rw [hlive]
    rcases Owners.page_renew.mp hp with ⟨_, rfl, _⟩ | ⟨_, _, hold⟩
    · exact ht
    · exact hh.live p t' r hold hl
  · rw [hblocks] at hb
    cases List.mem_cons.mp hb with
    | inl he =>
      subst he
      refine ⟨hi.node4, hnew, fun t' r hp => ?_⟩
      rcases Owners.page_renew.mp hp with ⟨_, _, rfl⟩ | ⟨hne, _, _⟩
      · rfl
      · exact absurd rfl hne
    | inr hb =>
      obtain ⟨hb', hout, hD⟩ := hblock b hb
      obtain ⟨h4, _, hobj⟩ := hh.blocks b hb'
      refine ⟨h4, (hi.rest hh.ok hout hD).1, fun t' r hp => ?_⟩
      rcases Owners.page_renew.mp hp with ⟨_, _, rfl⟩ | ⟨_, _, hold⟩
      · rfl
      · exact hobj t' r hold
  · rw [hblocks]
    refine List.nodup_cons.mpr ⟨fun hb => ?_, hi.releases.blocks.1.nodup hh.nodup.1⟩
    obtain ⟨_, hout, hD⟩ := hblock n hb
    exact (hi.rest hh.ok hout hD).2.1 rfl
  · rw [hlive]
    exact hh.nodup.2

end Reinit

/-! ## a booked task -/

/-- user code of a booked task reaches nothing above `SPLIT` -/
theorem Booked.low (hb : Booked h own t ns) (hw : World h own q) (ht : t ∈ h.live) {tr : Translation}
    (hx : x < 2 ^ 39) (hmap : mapOf h (h.task t).pageTable x = some tr) (hu : tr.flags &&& pteUser ≠ 0) : x < splitAddr := by
  have hA := hw.areas t ht
  obtain ⟨p, m, hp, _⟩ := (hw.maps t ht).user x hx tr hmap hu
  obtain ⟨a, k, hm, ha⟩ := Covered.area hA hp
  obtain ⟨hk, hv⟩ := hA.node_of_area hb.vm ha
  have hin := hb.covered.inside a m p _ hm hp
  have hstop := hb.below k hk
  unfold Heap.areaOf at hstop
  rw [hv] at hstop
  have hva := hw.aligned t a k ha
  have hlt := ((VmArea.mem_vpns hva).mp hin).2
  have hdvd : pageSize ∣ (h.area a).stop := Nat.dvd_add hva (Nat.dvd_mul_left _ _)
  obtain ⟨c, hc⟩ := hdvd
  rw [hc] at hlt hstop
  have hle : x / pageSize < c := Nat.lt_of_mul_lt_mul_left (a := pageSize) (by rwa [Nat.mul_comm])
  have hxc : x < pageSize * c := by
    have := Nat.lt_mul_of_div_lt hle (by decide : 0 < pageSize)
    rwa [Nat.mul_comm]
  omega

namespace Reinit

/-- of the task nothing is left but its struct, its kernel stack, tables and the node -/
theorem roles (hi : Reinit h h' own t n h₁ mm D₁ D₂) (hw : World h own q) (ht : t ∈ h.live) (hb : Booked h own t ns)
    (hp : (own.renew t n (D₂ ++ D₁)).Page p t r) (hl : r.isLoose = false) : (p = n - 4 ∧ r = .sched) ∨
      (p ∉ D₂ ++ D₁ ∧ own.Page p t r ∧ (r = .task ∨ r = .stack ∨ r = .table)) := by
  rcases Owners.page_renew.mp hp with ⟨h1, _, h2⟩ | ⟨_, hD, hold⟩
  · exact .inl ⟨h1, h2⟩
  have hs := hw.static t ht
  have hdrop : ¬ SchedBlocks h t p := fun hs => hD (List.mem_append_right _ ((hi.dropped p).mpr hs))
  rcases (hb.complete.taskBlocks hw ht).mpr ⟨r, hold, hl⟩ with hp | hp | hp | hp
  · exact absurd hp hdrop
  · exact .inr ⟨hD, hold, .inr (.inr (hold.unique ((hw.maps t ht).tables p hp)).2)⟩
  · subst hp
    exact .inr ⟨hD, hold, .inr (.inl (hold.unique hs.stack).2)⟩
  · subst hp
    exact .inr ⟨hD, hold, .inl (hold.unique hs.task.page).2⟩

theorem not_listed (hi : Reinit h h' own t n h₁ mm D₁ D₂) (hw : World h own q) (ht : t ∈ h.live) (hb : Booked h own t ns)
    (hr : r.isListed = true) : ¬ (own.renew t n (D₂ ++ D₁)).Page p t r := by
  intro hp
  have hl : r.isLoose = false := by
    cases r with
    | loose b => exact nomatch hr
    | _ => rfl
  obtain ⟨_, rfl⟩ | ⟨_, _, rfl | rfl | rfl⟩ := hi.roles hw ht hb hp hl <;> exact nomatch hr

/-- the blocks of the task that are kept -/
theorem kept (hi : Reinit h h' own t n h₁ mm D₁ D₂) (hw : World h own q) (ht : t ∈ h.live) (hp : own.Page p t r)
    (hr : r.isListed = false ∧ r ≠ .sched ∧ (r = .table → p ∉ D₂)) : (own.renew t n (D₂ ++ D₁)).Page p t r := by
  refine hi.keepsPage hw.held hp fun hD => ?_
  obtain ⟨r', hp', hkind⟩ := hi.role hw ht hD
  obtain ⟨h1, h2, h3⟩ := hr
  rw [(hp'.unique hp).2] at hkind
  rcases hkind with hl | he | ⟨he, hD₂⟩
  · exact nomatch h1.symm.trans hl
  · exact h2 he
  · exact h3 he hD₂

theorem tables_iff (hi : Reinit h h' own t n h₁ mm D₁ D₂) (hw : World h own q) (ht : t ∈ h.live) :
    p ∈ tables h'.mm.mem 2 (h.task t).pageTable ↔ p ∈ tables h.mm.mem 2 (h.task t).pageTable ∧ p ∉ D₂ := by
  obtain ⟨_, _, htab⟩ := hi.emptied.wf.extends hi.grow fun _ _ => nofun
  rw [htab, hi.emptied.tables, tables_congr fun s hs => (keepsTables hi.releases hw ht hi.dropped s hs).2]

/-- nothing is mapped below `SPLIT`, and the rest as before -/
theorem mapOf (hi : Reinit h h' own t n h₁ mm D₁ D₂) (hw : World h own q) (ht : t ∈ h.live) (x : Nat) :
    mapOf h' (h.task t).pageTable x = if x % 2 ^ 39 < splitAddr then none else FakeKernel.mapOf h (h.task t).pageTable x := by
  obtain ⟨_, hwalk, _⟩ := hi.emptied.wf.extends hi.grow fun _ _ => nofun
  show walk h'.mm.mem 2 _ x = _
  rw [hwalk, hi.emptied.walk]
  have hsame : walk h₁.mm.mem 2 (h.task t).pageTable x = walk h.mm.mem 2 (h.task t).pageTable x :=
    walk_congr fun s hs => (keepsTables hi.releases hw ht hi.dropped s hs).2
  rw [hsame]
  rfl

theorem maps (hi : Reinit h h' own t n h₁ mm D₁ D₂) (hw : World h own q) (ht : t ∈ h.live) (hb : Booked h own t ns) :
    Maps h'.mm (own.renew t n (D₂ ++ D₁)) t (h.task t).pageTable := by
  have hM := hw.maps t ht
  have hmap : ∀ {x tr}, x < 2 ^ 39 → walk h'.mm.mem 2 (h.task t).pageTable x = some tr →
      splitAddr ≤ x ∧ walk h.mm.mem 2 (h.task t).pageTable x = some tr := by
    intro x tr hx htr
    have he := (hi.mapOf hw ht x).symm.trans htr
    rw [Nat.mod_eq_of_lt hx] at he
    by_cases hlow : x < splitAddr
    · rw [if_pos hlow] at he
      exact nomatch he
    · rw [if_neg hlow] at he
      exact ⟨Nat.le_of_not_lt hlow, he⟩
  refine ⟨hi.wf, fun s hs => ?_, fun x hx tr htr hu => ?_, fun x hx tr htr hk => ?_⟩
  · obtain ⟨hold, hD⟩ := (hi.tables_iff hw ht).mp hs
    exact hi.kept hw ht (hM.tables s hold) ⟨rfl, nofun, fun _ => hD⟩
  · obtain ⟨hge, hold⟩ := hmap hx htr
    exact absurd (hb.low hw ht hx hold hu) (Nat.not_lt.mpr hge)
  · exact hM.kern x hx tr (hmap hx htr).2 hk

theorem areas (hi : Reinit h h' own t n h₁ mm D₁ D₂) (hw : World h own q) (ht : t ∈ h.live) (hb : Booked h own t ns) :
    Areas h'.lists (own.renew t n (D₂ ++ D₁)) t ∧ h'.lists.list (.vmAreas t) = { first := 0, last := 0 } := by
  have hno : ∀ {x r}, r.isListed = true → ¬ (own.renew t n (D₂ ++ D₁)).Obj x t r :=
    fun hr hx => hi.not_listed hw ht hb hr hx.page
  have hvm : h'.lists.list (.vmAreas t) = { first := 0, last := 0 } := by
    rw [hi.pushes, Lists.list_listPush, if_neg nofun]
    show (Lists.setNode n _ (Lists.listInit (.vmAreas t) h₁.lists)).list _ = _
    rw [Lists.list_setNode, Lists.list_listInit, if_pos rfl]
  refine ⟨⟨⟨?_, ?_, fun x hx => absurd hx (hno rfl), fun x hx => absurd hx (hno rfl)⟩,
    fun x a => ⟨fun ha => absurd ha (hno rfl), fun ⟨hx, _⟩ => absurd hx (hno rfl)⟩,
    fun a x ha => absurd ha (hno rfl), fun m p => ⟨fun ⟨v, hp⟩ => absurd hp (hi.not_listed hw ht hb rfl),
      fun ⟨⟨a, hm⟩, _⟩ => absurd hm (hno rfl)⟩, fun a m hm => absurd hm (hno rfl)⟩, hvm⟩
  · rw [hvm]
    exact .inl rfl
  · rw [hvm]
    exact .inl rfl

/-- the invariant holds after task_reinit -/
theorem world (hi : Reinit h h' own t n h₁ mm D₁ D₂) (hw : World h own q) (ht : t ∈ h.live) (hb : Booked h own t ns)
    (hnot : ∀ g, (h.task t).sched ∉ q g) : World h' (own.renew t n (D₂ ++ D₁)) (pushed q .tasks n) := by
  obtain ⟨hlive, hpids, _, _, hother, hself⟩ := hi.fields
  have hh := hi.held hw ht
  have hs := hw.static t ht
  have hu : ∀ {t'}, t' ≠ t → Untouched h h' own (own.renew t n (D₂ ++ D₁)) t' := fun hne => hi.untouched hw ht hne
  have hsched : (h'.task t).sched = n := by rw [hself]
  have hstack : (h'.task t).kernelStack = (h.task t).kernelStack := by rw [hself]
  refine ⟨hh, fun t' ht' => ?_, fun t' a k ha => ?_, fun t' ht' => ?_, fun t' ht' => ?_, fun t' ht' => ?_,
    hi.queues hw ht hnot⟩
  · rw [hpids]
    by_cases he : t' = t
    · rw [he, hself]
      exact hw.pids t ht
    · rw [hother t' he]
      exact hw.pids t' (hlive ▸ ht')
  · by_cases he : t' = t
    · subst he
      exact absurd ha.page (hi.not_listed hw ht hb rfl)
    · have ha' := ((hu he).obj rfl).mp ha
      rw [(hu he).area a k ha']
      exact hw.aligned t' a k ha'
  · by_cases he : t' = t
    · rw [he]
      refine ⟨⟨hs.task.1, hi.kept hw ht hs.task.page ⟨rfl, nofun, nofun⟩⟩, ⟨?_, ?_⟩, ?_⟩
      · rw [hsched]
        exact hi.node4
      · rw [hsched]
        exact Owners.page_renew.mpr (.inl ⟨rfl, rfl, rfl⟩)
      · rw [hstack]
        exact hi.kept hw ht hs.stack ⟨rfl, nofun, nofun⟩
    · exact (hw.static t' (hlive ▸ ht')).untouched (hu he)
  · by_cases he : t' = t
    · rw [he, hi.pageTable]
      exact hi.maps hw ht hb
    · rw [(hu he).task.2.2.1]
      exact (hw.maps t' (hlive ▸ ht')).untouched (hu he) hh.ok fun s hs => hh.out s t' _ hs
  · by_cases he : t' = t
    · rw [he]
      exact (hi.areas hw ht hb).1
    · exact (hw.areas t' (hlive ▸ ht')).untouched (hu he)

/-- the task has no areas -/
theorem booked (hi : Reinit h h' own t n h₁ mm D₁ D₂) (hw : World h own q) (ht : t ∈ h.live) (hb : Booked h own t ns)
    (hflat : Flat h'.mm.mem 2 (h.task t).pageTable) : Booked h' (own.renew t n (D₂ ++ D₁)) t [] := by
  obtain ⟨_, hvm⟩ := hi.areas hw ht hb
  have hno : ∀ {p r}, r.isListed = true → ¬ (own.renew t n (D₂ ++ D₁)).Page p t r := fun hr => hi.not_listed hw ht hb hr
  have hex : h'.lists.Exactly (own.renew t n (D₂ ++ D₁)) t .vnode (.vmAreas t) [] := by
    refine ⟨⟨?_, ?_, nofun⟩, fun k => ⟨nofun, fun hk => absurd hk.page (hno rfl)⟩⟩
    · rw [hvm]
      exact rfl
    · rw [hvm]
      rfl
  refine ⟨⟨⟨[], hex⟩, fun a k hk => absurd hk.page (hno rfl), fun a k hk => absurd hk.page (hno rfl), fun s hs => ?_,
    ?_, fun p hp => ?_, fun p hp => ?_, fun p hp => ?_⟩, ⟨fun a m p v hm => absurd hm.page (hno rfl),
    fun a k hk => absurd hk.page (hno rfl), fun p m v hp => absurd hp (hno rfl), fun a k hk => absurd hk.page (hno rfl),
    fun a k b k' hk => absurd hk.page (hno rfl)⟩, hex, List.Pairwise.nil, nofun⟩
  · rw [hi.pageTable]
    obtain ⟨_, he⟩ | ⟨hD, hold, _⟩ := hi.roles hw ht hb hs rfl
    · exact nomatch he
    · exact (hi.tables_iff hw ht).mpr ⟨hb.complete.tables s hold, fun hin => hD (List.mem_append_left _ hin)⟩
  · rw [hi.pageTable]
    exact hflat
  · obtain ⟨_, he⟩ | ⟨_, hold, _⟩ := hi.roles hw ht hb hp rfl
    · exact nomatch he
    · exact hb.complete.task p hold
  · obtain ⟨rfl, _⟩ | ⟨_, _, he⟩ := hi.roles hw ht hb hp rfl
    · have hsched : (h'.task t).sched = n := by rw [hi.fields.2.2.2.2.2]
      rw [hsched]
    · exact he.elim nofun fun he => he.elim nofun nofun
  · have hstack : (h'.task t).kernelStack = (h.task t).kernelStack := by rw [hi.fields.2.2.2.2.2]
    obtain ⟨_, he⟩ | ⟨_, hold, _⟩ := hi.roles hw ht hb hp rfl
    · exact nomatch he
    · rw [hstack]
      exact hb.complete.stack p hold

end Reinit

end FakeKernel
