import FakeKernel.Kernel.Owned

/-!
# Steps for one task

* `StepFor h h' own own' t N`   a step that allocates the pages in `N` for `t`, writes to pages of `t`
                       only and leaves what the others own alone;
* `World.step`         what such a step has to show for `t` itself;
* `Grown`              a step that keeps the invariant;
* `World.takePage`, `World.write`, `World.setArea`, `World.relink`, `World.mapPage`, ...   the steps
                       that the functions of the kernel are made of.
-/

namespace FakeKernel
open Bytes Mm

/-- the pages of `t` that hold no header of kmalloc -/
def Owners.writable (own : Owners) (t : Nat) : Set Nat :=
  {s | pageSize ∣ s ∧ ∃ r, own.Page s t r ∧ r.object = false}

structure StepFor (h h' : Heap) (own own' : Owners) (t : Nat) (N : List Nat) : Prop where
  mm : Extends h.mm h'.mm (own.writable t) N
  mono : own.Mono own'
  taken : ∀ p t' r, own'.Page p t' r → own.Page p t' r ∨ t' = t ∧ (r.isLoose = true ∨ t ∈ h.live) ∧
    ((∃ b, own.Page p t (.loose b) ∧ r.object = b) ∨ p ∈ N)
  head : ∀ p ∈ N, ∀ t' r, own'.Page p t' r → r.object = true → load 4 h'.mm.mem p = 0
  blocks : ∃ bs : List Nat, h'.blocks = bs ++ h.blocks ∧ bs.Nodup ∧ ∀ b ∈ bs, 4 ≤ b ∧ b - 4 ∈ N ∧
    ∀ t' r, own'.Page (b - 4) t' r → r.object = true
  live : h'.live = h.live
  pids : h.nextTaskId ≤ h'.nextTaskId
  task : ∀ t' ∈ h.live, SameBlocks (h.task t') (h'.task t')
  node : ∀ n t' r, own.Obj n t' r → (t' ≠ t ∧ r.isLink = true) ∨ r = .sched →
    h'.node n = h.node n
  vm : ∀ t' ≠ t, h'.lists.list (.vmAreas t') = h.lists.list (.vmAreas t')
  pages : ∀ a t' n, t' ≠ t → own.Obj a t' (.area n) → h'.lists.list (.pages a) = h.lists.list (.pages a)
  area : ∀ a t' n, t' ≠ t → own.Obj a t' (.area n) → h'.area a = h.area a
  queue : ∀ g, h'.lists.list (.queue g) = h.lists.list (.queue g)

variable {h h' h'' : Heap} {own own' own'' : Owners} {q : TaskList → List Nat} {W : Set Nat}
  {N N' : List Nat} {t p x : Nat} {r : Role} {L' : Lists} {mm : Mm}

/-! ## what a step leaves alone -/

namespace StepFor

theorem agree (hs : StepFor h h' own own' t N) {t' : Nat} (ht : t' ≠ t) : own.Agree own' t' := by
  intro p r hr
  refine ⟨fun hp => ?_, fun hp => hs.mono p t' r hp hr⟩
  cases hs.taken p t' r hp with
  | inl hold => exact hold
  | inr hnew => exact absurd hnew.1 ht

/-- bytes of a page that is not one of the pages of `t` that are written -/
theorem same (hs : StepFor h h' own own' t N) (hh : Held h own) {t' : Nat} (hp : own.Page p t' r)
    (hr : t' ≠ t ∨ r.object = true) (hx : onPage p x) : h'.mm.mem x = h.mm.mem x := by
  refine hs.mm.same (hh.kept hp) (hh.page hp) (fun ⟨_, r', hp', hr'⟩ => ?_) hx
  obtain ⟨rfl, rfl⟩ := hp.unique hp'
  cases hr with
  | inl hne => exact hne rfl
  | inr hobj =>
    rw [hr'] at hobj
    exact nomatch hobj

theorem load_head (hs : StepFor h h' own own' t N) (hh : Held h own) {t' : Nat}
    (hp : own.Page p t' r) (hr : r.object = true) : load 4 h'.mm.mem p = load 4 h.mm.mem p := by
  refine load_congr fun x hx hx' => hs.same hh hp (.inr hr) ⟨hx, ?_⟩
  unfold pageSize
  omega

end StepFor

theorem World.step (hw : World h own q) (hs : StepFor h h' own own' t N)
    (ht : t ∈ h.live → Maps h'.mm own' t (h.task t).pageTable ∧ Areas h'.lists own' t ∧
      PageAligned h' own' t) : World h' own' q where
  held := by
    refine ⟨hs.mm.ok, fun p t' r hp => ?_, fun p t' r hp hobj => ?_, fun p t' r hp hl => ?_,
      fun b hb => ?_, ?_, ?_⟩
    · cases hs.taken p t' r hp with
      | inl hold => exact hs.mm.old_mem (hw.held.out p t' r hold)
      | inr hnew =>
        cases hnew.2.2 with
        | inl hloose =>
          obtain ⟨b, hb, _⟩ := hloose
          exact hs.mm.old_mem (hw.held.out p t _ hb)
        | inr hin => exact hs.mm.new_mem hin
    · cases hs.taken p t' r hp with
      | inl hold => exact (hs.load_head hw.held hold hobj).trans (hw.held.head p t' r hold hobj)
      | inr hnew =>
        cases hnew.2.2 with
        | inl hloose =>
          obtain ⟨b, hb, he⟩ := hloose
          have hbo : (Role.loose b).object = true := he.symm.trans hobj
          exact (hs.load_head hw.held hb hbo).trans (hw.held.head p t _ hb hbo)
        | inr hin => exact hs.head p hin t' r hp hobj
    · rw [hs.live]
      cases hs.taken p t' r hp with
      | inl hold => exact hw.held.live p t' r hold hl
      | inr hnew =>
        cases hnew.2.1 with
        | inl hloose =>
          rw [hl] at hloose
          exact nomatch hloose
        | inr hlive => exact hnew.1 ▸ hlive
    · obtain ⟨bs, hbs, _, hnew⟩ := hs.blocks
      rw [hbs] at hb
      cases List.mem_append.mp hb with
      | inl hin =>
        obtain ⟨h4, hN, hobj⟩ := hnew b hin
        exact ⟨h4, hs.mm.new_mem hN, hobj⟩
      | inr hold =>
        obtain ⟨h4, hout, hobj⟩ := hw.held.blocks b hold
        refine ⟨h4, hs.mm.old_mem hout, fun t' r hp => ?_⟩
        cases hs.taken _ t' r hp with
        | inl hp => exact hobj t' r hp
        | inr hnew =>
          cases hnew.2.2 with
          | inl hloose =>
            obtain ⟨c, hc, he⟩ := hloose
            exact he.trans (hobj t _ hc)
          | inr hin => exact absurd hin (hs.mm.not_new (.of_mem hout))
    · obtain ⟨bs, hbs, hnd, hnew⟩ := hs.blocks
      rw [hbs]
      refine List.nodup_append.mpr ⟨hnd, hw.held.nodup.1, fun b hb c hc e => ?_⟩
      subst e
      exact hs.mm.not_new (.of_mem (hw.held.blocks b hc).2.1) (hnew b hb).2.1
    · rw [hs.live]
      exact hw.held.nodup.2
  pids := fun t' ht' => by
    rw [hs.live] at ht'
    rw [(hs.task t' ht').2.2.2]
    exact ⟨(hw.pids t' ht').1, Nat.lt_of_lt_of_le (hw.pids t' ht').2 hs.pids⟩
  aligned := fun t' a n ha => by
    by_cases he : t' = t
    · subst he
      have hlive : t' ∈ h.live := by
        cases hs.taken _ t' _ ha.page with
        | inl hold => exact hw.held.live _ t' _ hold rfl
        | inr hnew => exact hnew.2.1.resolve_left nofun
      exact (ht hlive).2.2 a n ha
    · have hold : own.Obj a t' (.area n) := ((hs.agree he).listed.obj rfl).mp ha
      rw [hs.area a t' n he hold]
      exact hw.aligned t' a n hold
  static := fun t' ht' => by
    rw [hs.live] at ht'
    exact (hw.static t' ht').congr hs.mono (hs.task t' ht')
  maps := fun t' ht' => by
    rw [hs.live] at ht'
    rw [(hs.task t' ht').2.2.1]
    by_cases he : t' = t
    · subst he
      exact (ht ht').1
    · refine (hw.maps t' ht').congr (hs.agree he) hs.mm fun s hsW hsT => ?_
      obtain ⟨_, r, hr, _⟩ := hsW
      exact he (hsT.unique hr).1
  areas := fun t' ht' => by
    rw [hs.live] at ht'
    by_cases he : t' = t
    · subst he
      exact (ht ht').2.1
    · refine (hw.areas t' ht').congr (hs.agree he).listed ⟨fun n r hn hr => ?_, hs.vm t' he, fun a n ha => ?_⟩
      · exact hs.node n t' r hn (.inl ⟨he, hr⟩)
      · exact hs.pages a t' n he ha
  queues := hw.queues.congr hs.live hs.task
    (fun t' ht' => hs.node _ t' .sched (hw.static t' ht').sched (.inr rfl)) hs.queue

theorem StepFor.trans (hs : StepFor h h' own own' t N) (hs' : StepFor h' h'' own' own'' t N')
    (hh' : Held h' own') : StepFor h h'' own own'' t (N' ++ N) where
  mm := hs.mm.trans hs'.mm fun s ⟨hpage, r, hp, hr⟩ => by
    cases hs.taken s t r hp with
    | inl hold => exact .inl ⟨hpage, r, hold, hr⟩
    | inr hnew =>
      cases hnew.2.2 with
      | inl hloose =>
        obtain ⟨b, hb, he⟩ := hloose
        exact .inl ⟨hpage, .loose b, hb, he.symm.trans hr⟩
      | inr hin => exact .inr hin
  mono := hs.mono.trans hs'.mono
  taken := fun p t' r hp => by
    cases hs'.taken p t' r hp with
    | inl hold =>
      cases hs.taken p t' r hold with
      | inl hold => exact .inl hold
      | inr hnew => exact .inr ⟨hnew.1, hnew.2.1, hnew.2.2.imp_right (List.mem_append_right _)⟩
    | inr hnew =>
      obtain ⟨rfl, hlive, hnew⟩ := hnew
      rw [hs.live] at hlive
      cases hnew with
      | inl hloose =>
        obtain ⟨b, hb, he⟩ := hloose
        cases hs.taken p _ _ hb with
        | inl hold => exact .inr ⟨rfl, hlive, .inl ⟨b, hold, he⟩⟩
        | inr hmid =>
          cases hmid.2.2 with
          | inl hloose =>
            obtain ⟨c, hc, he'⟩ := hloose
            exact .inr ⟨rfl, hlive, .inl ⟨c, hc, he.trans he'⟩⟩
          | inr hin => exact .inr ⟨rfl, hlive, .inr (List.mem_append_right _ hin)⟩
      | inr hin => exact .inr ⟨rfl, hlive, .inr (List.mem_append_left _ hin)⟩
  head := fun p hp t' r hr hobj => by
    cases List.mem_append.mp hp with
    | inl hin => exact hs'.head p hin t' r hr hobj
    | inr hin =>
      cases hs'.taken p t' r hr with
      | inl hold => exact (hs'.load_head hh' hold hobj).trans (hs.head p hin t' r hold hobj)
      | inr hnew =>
        cases hnew.2.2 with
        | inl hloose =>
          obtain ⟨b, hb, he⟩ := hloose
          have hbo : (Role.loose b).object = true := he.symm.trans hobj
          exact (hs'.load_head hh' hb hbo).trans (hs.head p hin t _ hb hbo)
        | inr hin' => exact absurd hin' (hs'.mm.not_new (hs.mm.new_kept hin))
  blocks := by
    obtain ⟨bs, hbs, hnd, hnew⟩ := hs.blocks
    obtain ⟨bs', hbs', hnd', hnew'⟩ := hs'.blocks
    refine ⟨bs' ++ bs, ?_, ?_, fun b hb => ?_⟩
    · rw [hbs', hbs, List.append_assoc]
    · refine List.nodup_append.mpr ⟨hnd', hnd, fun b hb c hc e => ?_⟩
      subst e
      exact hs'.mm.not_new (hs.mm.new_kept (hnew b hc).2.1) (hnew' b hb).2.1
    · cases List.mem_append.mp hb with
      | inl hin =>
        obtain ⟨h4, hN, hobj⟩ := hnew' b hin
        exact ⟨h4, List.mem_append_left _ hN, hobj⟩
      | inr hin =>
        obtain ⟨h4, hN, hobj⟩ := hnew b hin
        refine ⟨h4, List.mem_append_right _ hN, fun t' r hp => ?_⟩
        cases hs'.taken _ t' r hp with
        | inl hold => exact hobj t' r hold
        | inr hnew =>
          cases hnew.2.2 with
          | inl hloose =>
            obtain ⟨c, hc, he⟩ := hloose
            exact he.trans (hobj t _ hc)
          | inr hin' => exact absurd hin' (hs'.mm.not_new (hs.mm.new_kept hN))
  live := hs'.live.trans hs.live
  pids := Nat.le_trans hs.pids hs'.pids
  task := fun t' ht' => by
    obtain ⟨h1, h2, h3, h4⟩ := hs.task t' ht'
    obtain ⟨h1', h2', h3', h4'⟩ := hs'.task t' (hs.live ▸ ht')
    exact ⟨h1'.trans h1, h2'.trans h2, h3'.trans h3, h4'.trans h4⟩
  node := fun n t' r hn hr => by
    have hl : r.isLoose = false := by
      cases r with
      | loose b => exact hr.elim (fun hr => nomatch hr.2) fun hr => nomatch hr
      | _ => rfl
    exact (hs'.node n t' r (hs.mono.obj hn hl) hr).trans (hs.node n t' r hn hr)
  vm := fun t' ht => (hs'.vm t' ht).trans (hs.vm t' ht)
  pages := fun a t' n ht ha => (hs'.pages a t' n ht (hs.mono.obj ha rfl)).trans (hs.pages a t' n ht ha)
  area := fun a t' n ht ha => (hs'.area a t' n ht (hs.mono.obj ha rfl)).trans (hs.area a t' n ht ha)
  queue := fun g => (hs'.queue g).trans (hs.queue g)

/-- a step for `t` that keeps the invariant -/
structure Grown (q : TaskList → List Nat) (t : Nat) (h : Heap) (own : Owners) (h' : Heap)
    (own' : Owners) : Prop where
  step : ∃ N, StepFor h h' own own' t N
  world : World h' own' q

theorem Grown.trans (g : Grown q t h own h' own') (g' : Grown q t h' own' h'' own'') :
    Grown q t h own h'' own'' := by
  obtain ⟨N, hs⟩ := g.step
  obtain ⟨N', hs'⟩ := g'.step
  exact ⟨⟨_, hs.trans hs' g.world.held⟩, g'.world⟩

theorem Grown.mono (g : Grown q t h own h' own') : own.Mono own' := by
  obtain ⟨N, hs⟩ := g.step
  exact hs.mono

theorem Grown.live (g : Grown q t h own h' own') : h'.live = h.live := by
  obtain ⟨N, hs⟩ := g.step
  exact hs.live

theorem Grown.pageTable (g : Grown q t h own h' own') {t' : Nat} (ht : t' ∈ h.live) :
    (h'.task t').pageTable = (h.task t').pageTable := by
  obtain ⟨N, hs⟩ := g.step
  exact (hs.task t' ht).2.2.1

/-! ## the steps that functions are made of -/

theorem Held.writable_page (own : Owners) (t : Nat) : ∀ s ∈ own.writable t, pageSize ∣ s :=
  fun _ hs => hs.1

/-- pages are allocated and nothing is written -/
theorem Mm.Extends.for (hx : Extends h.mm mm ∅ N) (own : Owners) (t : Nat) :
    Extends h.mm mm (own.writable t) N := hx.mono nofun (Held.writable_page own t)

/-- a step that changes no memory and no owner -/
theorem World.fields (hw : World h own q) (t : Nat) (hmm : h'.mm = h.mm) (hL : h'.lists = h.lists)
    (hlive : h'.live = h.live) (hb : h'.blocks = h.blocks) (hid : h.nextTaskId ≤ h'.nextTaskId)
    (htask : ∀ t' ∈ h.live, SameBlocks (h.task t') (h'.task t'))
    (harea : ∀ a t' n, own.Obj a t' (.area n) → h'.area a = h.area a ∨
      t' = t ∧ pageSize ∣ (h'.area a).va) : Grown q t h own h' own := by
  have hs : StepFor h h' own own t [] := by
    refine ⟨?_, .refl own, fun _ _ _ hp => .inl hp, nofun, ⟨[], hb, List.nodup_nil, nofun⟩, hlive, hid,
      htask, fun n _ _ _ _ => ?_, fun _ _ => by rw [hL], fun _ _ _ _ _ => by rw [hL],
      fun a t' n ht ha => (harea a t' n ha).resolve_right fun he => ht he.1, fun _ => by rw [hL]⟩
    · rw [hmm]
      exact Extends.for (.refl hw.held.ok) own t
    · show h'.lists.node n = h.lists.node n
      rw [hL]
  refine ⟨⟨[], hs⟩, hw.step hs fun ht => ?_⟩
  rw [hmm, hL]
  refine ⟨hw.maps t ht, hw.areas t ht, fun a n ha => ?_⟩
  cases harea a t n ha with
  | inl he =>
    rw [he]
    exact hw.aligned t a n ha
  | inr he => exact he.2

theorem Grown.refl (hw : World h own q) (t : Nat) : Grown q t h own h own :=
  hw.fields t rfl rfl rfl rfl (Nat.le_refl _) (fun _ _ => ⟨rfl, rfl, rfl, rfl⟩) fun _ _ _ _ => .inl rfl

/-- an area of `t`, or what is not in use yet -/
theorem World.setArea (hw : World h own q) {a : Nat} {x : VmArea}
    (ha : ∀ t' n, own.Obj a t' (.area n) → t' = t ∧ pageSize ∣ x.va) :
    Grown q t h own (h.setArea a x) own := by
  refine hw.fields t rfl rfl rfl rfl (Nat.le_refl _) (fun _ _ => ⟨rfl, rfl, rfl, rfl⟩)
    fun b t' n hb => ?_
  by_cases he : b = a
  · subst he
    refine .inr ⟨(ha t' n hb).1, ?_⟩
    show pageSize ∣ (Function.update h.area b x b).va
    rw [Function.update_self]
    exact (ha t' n hb).2
  · exact .inl (Function.update_of_ne he _ _)

theorem World.setTask (hw : World h own q) (t : Nat) {t' : Nat} {x : Task}
    (hx : SameBlocks (h.task t') x) : Grown q t h own (h.setTask t' x) own := by
  refine hw.fields t rfl rfl rfl rfl (Nat.le_refl _) (fun s _ => ?_) fun _ _ _ _ => .inl rfl
  show SameBlocks (h.task s) (Function.update h.task t' x s)
  by_cases he : s = t'
  · subst he
    rw [Function.update_self]
    exact hx
  · rw [Function.update_of_ne he]
    exact ⟨rfl, rfl, rfl, rfl⟩

theorem World.setFrame (hw : World h own q) (t t' : Nat) (frame : Cpu) :
    Grown q t h own (h.setFrame t' frame) own := hw.setTask t ⟨rfl, rfl, rfl, rfl⟩

/-- a page is allocated for `t` -/
theorem World.take (hw : World h own q) (hx : Extends h.mm mm ∅ [p]) (t : Nat) {b : Bool}
    {l : List Nat} (hhead : b = true → load 4 mm.mem p = 0) (hnd : l.Nodup)
    (hbs : ∀ y ∈ l, 4 ≤ y ∧ y - 4 = p ∧ b = true) :
    Grown q t h own { h with mm := mm, blocks := l ++ h.blocks } (own.set p t (.loose b)) := by
  have hpin : p ∈ [p] := List.mem_singleton_self p
  have hfree : ∀ t r, ¬ own.Page p t r := fun t r hp => hx.not_new (hw.held.kept hp) hpin
  have hag : ∀ t', own.Agree (own.set p t (.loose b)) t' := fun t' =>
    Owners.agree_set_loose fun t r hp => absurd hp (hfree t r)
  have hs : StepFor h { h with mm := mm, blocks := l ++ h.blocks } own (own.set p t (.loose b)) t [p] := by
    refine ⟨hx.for own t, ?_, fun p' t' r hp => ?_, fun p' hp' t' r hp hobj => ?_,
      ⟨l, rfl, hnd, fun y hy => ?_⟩, rfl, Nat.le_refl _, fun _ _ => ⟨rfl, rfl, rfl, rfl⟩,
      fun _ _ _ _ _ => rfl, fun _ _ => rfl, fun _ _ _ _ _ => rfl, fun _ _ _ _ _ => rfl, fun _ => rfl⟩
    · exact Owners.mono_set fun t r hp => absurd hp (hfree t r)
    · cases Owners.page_set.mp hp with
      | inl he =>
        obtain ⟨rfl, rfl, rfl⟩ := he
        exact .inr ⟨rfl, .inl rfl, .inr hpin⟩
      | inr hold => exact .inl hold.2
    · rw [List.mem_singleton] at hp'
      subst hp'
      rw [(hp.unique Owners.set_self).2] at hobj
      exact hhead hobj
    · obtain ⟨h4, rfl, rfl⟩ := hbs y hy
      refine ⟨h4, hpin, fun t' r hp => ?_⟩
      rw [(hp.unique Owners.set_self).2]
      rfl
  exact ⟨⟨_, hs⟩, hw.step hs fun ht => ⟨(hw.maps t ht).congr (hag t) hx nofun,
    (hw.areas t ht).congr (hag t).listed (SameLinks.refl _ _ _),
    fun a n ha => hw.aligned t a n (((hag t).listed.obj rfl).mp ha)⟩⟩

theorem World.takePage (hw : World h own q) (hx : Extends h.mm mm ∅ [p]) (t : Nat) :
    Grown q t h own { h with mm := mm } (own.set p t (.loose false)) :=
  hw.take (b := false) (l := []) hx t nofun List.nodup_nil nofun

theorem World.takeObject (hw : World h own q) (hx : Extends h.mm mm ∅ [x - 4]) (h4 : 4 ≤ x)
    (hhead : load 4 mm.mem (x - 4) = 0) (t : Nat) :
    Grown q t h own { h with mm := mm, blocks := x :: h.blocks } (own.set (x - 4) t (.loose true)) := by
  refine hw.take (l := [x]) hx t (fun _ => hhead) (List.nodup_singleton x) fun y hy => ?_
  rw [List.mem_singleton] at hy
  subst hy
  exact ⟨h4, rfl, rfl⟩

/-- a write to a page that holds neither a header nor a table -/
theorem World.write (hw : World h own q) (hp : own.Page p t r) (hobj : r.object = false)
    (hr : r ≠ .table) {m : Mem} (hm : ∀ x, ¬ onPage p x → m x = h.mm.mem x) :
    Grown q t h own { h with mm := h.mm.setMem m } own := by
  have hx : Extends h.mm (h.mm.setMem m) {p} [] :=
    hw.held.ok.write_page (hw.held.kept hp) (hw.held.page hp) hm
  have hsub : ({p} : Set Nat) ⊆ own.writable t := by
    intro s hs
    rw [Set.mem_singleton_iff.mp hs]
    exact ⟨hw.held.page hp, r, hp, hobj⟩
  have hs : StepFor h { h with mm := h.mm.setMem m } own own t [] :=
    ⟨hx.mono hsub (Held.writable_page own t), .refl own, fun _ _ _ hp => .inl hp, nofun,
      ⟨[], rfl, List.nodup_nil, nofun⟩, rfl, Nat.le_refl _, fun _ _ => ⟨rfl, rfl, rfl, rfl⟩,
      fun _ _ _ _ _ => rfl, fun _ _ => rfl, fun _ _ _ _ _ => rfl, fun _ _ _ _ _ => rfl, fun _ => rfl⟩
  refine ⟨⟨[], hs⟩, hw.step hs fun ht => ⟨?_, hw.areas t ht, hw.aligned t⟩⟩
  refine (hw.maps t ht).congr (.refl own t) hx fun s hs hT => ?_
  rw [Set.mem_singleton_iff.mp hs] at hT
  exact hr (hp.unique hT).2

theorem Maps.mono {a : Mm} {root : Nat} (hm : Maps a own t root) (ho : own.Mono own') :
    Maps a own' t root where
  wf := hm.wf
  tables := fun s hs => ho _ _ _ (hm.tables s hs) rfl
  user := fun x hx tr htr hu => by
    obtain ⟨p, m, hp, hpa⟩ := hm.user x hx tr htr hu
    exact ⟨p, m, ho _ _ _ hp rfl, hpa⟩
  kern := hm.kern

/-- what a change of the lists of `t` leaves alone -/
structure OwnLinks (L L' : Lists) (own : Owners) (t : Nat) : Prop where
  node : ∀ n t' r, own.Obj n t' r → (t' ≠ t ∧ r.isLink = true) ∨ r = .sched → L'.node n = L.node n
  vm : ∀ t' ≠ t, L'.list (.vmAreas t') = L.list (.vmAreas t')
  pages : ∀ a t' n, t' ≠ t → own.Obj a t' (.area n) → L'.list (.pages a) = L.list (.pages a)
  queue : ∀ g, L'.list (.queue g) = L.list (.queue g)

theorem OwnLinks.refl (L : Lists) (own : Owners) (t : Nat) : OwnLinks L L own t :=
  ⟨fun _ _ _ _ _ => rfl, fun _ _ => rfl, fun _ _ _ _ _ => rfl, fun _ => rfl⟩

/-- loose pages of `t` come into use and its lists change -/
theorem World.relink (hw : World h own q) (ht : t ∈ h.live) (hm : own.Mono own')
    (hgive : ∀ p t' r, own'.Page p t' r → own.Page p t' r ∨
      t' = t ∧ ∃ b, own.Page p t (.loose b) ∧ r.object = b)
    (hL : OwnLinks h.lists L' own t) (hA : Areas L' own' t) (hal : PageAligned h own' t) :
    Grown q t h own { h with lists := L' } own' := by
  have hs : StepFor h { h with lists := L' } own own' t [] := by
    refine ⟨Extends.for (.refl hw.held.ok) own t, hm, fun p t' r hp => ?_, nofun,
      ⟨[], rfl, List.nodup_nil, nofun⟩, rfl, Nat.le_refl _, fun _ _ => ⟨rfl, rfl, rfl, rfl⟩,
      hL.node, hL.vm, hL.pages, fun _ _ _ _ _ => rfl, hL.queue⟩
    exact (hgive p t' r hp).imp_right fun he => ⟨he.1, .inr ht, .inl he.2⟩
  exact ⟨⟨[], hs⟩, hw.step hs fun _ => ⟨(hw.maps t ht).mono hm, hA, hal⟩⟩

/-- a step on nodes and lists of the scheduler only -/
theorem World.requeue (hw : World h own q) {q' : TaskList → List Nat}
    (hnode : ∀ n t r, own.Obj n t r → r.isLink = true → L'.node n = h.lists.node n)
    (hvm : ∀ t, L'.list (.vmAreas t) = h.lists.list (.vmAreas t))
    (hpages : ∀ a, L'.list (.pages a) = h.lists.list (.pages a))
    (hQ : Queues { h with lists := L' } q') : World { h with lists := L' } own q' where
  held := ⟨hw.held.ok, hw.held.out, hw.held.head, hw.held.live, hw.held.blocks, hw.held.nodup⟩
  pids := hw.pids
  aligned := hw.aligned
  static := fun t ht => ⟨(hw.static t ht).task, (hw.static t ht).sched, (hw.static t ht).stack⟩
  maps := hw.maps
  areas := fun t ht => (hw.areas t ht).congr (Owners.Agree.refl own t).listed
    ⟨fun n r hn hr => hnode n t r hn hr, hvm t, fun a _ _ => hpages a⟩
  queues := hQ

/-! ## mapping a page -/

namespace Owners

/-- the pages in `N` become tables of `t` -/
def setTables (own : Owners) (N : List Nat) (t : Nat) : Owners :=
  fun p => if p ∈ N then some ⟨t, .table⟩ else own p

theorem page_setTables {t' : Nat} : (own.setTables N t).Page p t' r ↔
    (p ∈ N ∧ t' = t ∧ r = .table) ∨ (p ∉ N ∧ own.Page p t' r) := by
  show (if p ∈ N then some ⟨t, .table⟩ else own p) = some ⟨t', r⟩ ↔ _
  by_cases hp : p ∈ N
  · rw [if_pos hp]
    constructor
    · intro he
      cases he
      exact .inl ⟨hp, rfl, rfl⟩
    · intro h
      obtain ⟨_, rfl, rfl⟩ := h.resolve_right fun h => h.1 hp
      rfl
  · rw [if_neg hp]
    exact ⟨fun h => .inr ⟨hp, h⟩, fun h => (h.resolve_left fun h => hp h.1).2⟩

end Owners

/-- the number of the page at a 39-bit address -/
def vpnOf (va : Nat) : Nat := va / pageSize % 2 ^ 27

theorem samePage_iff_vpn {va : Nat} (hx : x < 2 ^ 39) :
    SamePage 0 x va ↔ x / pageSize = vpnOf va := by
  unfold SamePage vpnOf pageSize
  omega

/-- a page of `t` is mapped where it may be mapped -/
theorem World.mapPage (hw : World h own q) (ht : t ∈ h.live) {m va flags : Nat}
    (hedit : Edit h.mm mm (h.task t).pageTable N)
    (hwalk : ∀ x, walk mm.mem 2 (h.task t).pageTable x = if SamePage 0 x va then
      setLeaf 0 (PA p) flags x else walk h.mm.mem 2 (h.task t).pageTable x)
    (hp : own.Page p t (.user m (vpnOf va))) (hu : flags &&& pteUser ≠ 0) :
    Grown q t h own { h with mm := mm } (own.setTables N t) := by
  have hM := hw.maps t ht
  have hnew : ∀ p t' r, own.Page p t' r → p ∉ N := fun p t' r hp =>
    hedit.grow.not_new (hw.held.kept hp)
  have hmono : own.Mono (own.setTables N t) := fun p t' r hp _ =>
    Owners.page_setTables.mpr (.inr ⟨hnew p t' r hp, hp⟩)
  have hsub : {s | s ∈ tables h.mm.mem 2 (h.task t).pageTable} ⊆ own.writable t := fun s hs =>
    ⟨tables_page hM.wf.page s hs, .table, hM.tables s hs, rfl⟩
  have hs : StepFor h { h with mm := mm } own (own.setTables N t) t N := by
    refine ⟨hedit.grow.mono hsub (Held.writable_page own t), hmono, fun p' t' r hr => ?_,
      fun p' hp' t' r hr hobj => ?_, ⟨[], rfl, List.nodup_nil, nofun⟩, rfl, Nat.le_refl _,
      fun _ _ => ⟨rfl, rfl, rfl, rfl⟩, fun _ _ _ _ _ => rfl, fun _ _ => rfl, fun _ _ _ _ _ => rfl,
      fun _ _ _ _ _ => rfl, fun _ => rfl⟩
    · cases Owners.page_setTables.mp hr with
      | inl he => exact .inr ⟨he.2.1, .inr ht, .inr he.1⟩
      | inr hold => exact .inl hold.2
    · cases Owners.page_setTables.mp hr with
      | inl he =>
        rw [he.2.2] at hobj
        exact nomatch hobj
      | inr hold => exact absurd hp' hold.1
  have hlisted : own.AgreeListed (own.setTables N t) t := by
    refine fun p' r hr => ⟨fun hp' => ?_, fun hp' => ?_⟩
    · cases Owners.page_setTables.mp hp' with
      | inl he =>
        rw [he.2.2] at hr
        exact nomatch hr
      | inr hold => exact hold.2
    · exact Owners.page_setTables.mpr (.inr ⟨hnew p' t r hp', hp'⟩)
  refine ⟨⟨N, hs⟩, hw.step hs fun _ => ⟨⟨hedit.wellFormed hM.wf, ?_, ?_, ?_⟩,
    (hw.areas t ht).congr hlisted (SameLinks.refl _ _ _),
    fun a n ha => hw.aligned t a n ((hlisted.obj rfl).mp ha)⟩⟩
  · intro s hs
    cases hedit.upd.mem_tables s hs with
    | inl hold => exact hmono _ _ _ (hM.tables s hold) rfl
    | inr hin => exact Owners.page_setTables.mpr (.inl ⟨hin, rfl, rfl⟩)
  · intro x hx tr htr huser
    rw [hwalk x] at htr
    by_cases hs : SamePage 0 x va
    · rw [if_pos hs] at htr
      have hin : p ∈ usable := hw.held.ok.usable (hw.held.out _ _ _ hp) (Tiling.base_mem (pageAt p))
      have hpa := (PA_usable hin).2
      unfold setLeaf at htr
      split at htr
      · cases htr
        refine ⟨p, m, hmono _ _ _ ?_ rfl, ?_⟩
        · rw [(samePage_iff_vpn hx).mp hs]
          exact hp
        · show PA p % 2 ^ 56 + x % 2 ^ 12 = _
          rw [Nat.mod_eq_of_lt hpa]
          rfl
      · exact nomatch htr
    · rw [if_neg hs] at htr
      obtain ⟨p', m', hp', hpa⟩ := hM.user x hx tr htr huser
      exact ⟨p', m', hmono _ _ _ hp' rfl, hpa⟩
  · intro x hx tr htr hkern
    rw [hwalk x] at htr
    by_cases hs : SamePage 0 x va
    · rw [if_pos hs] at htr
      unfold setLeaf at htr
      split at htr
      · cases htr
        exact absurd hkern hu
      · exact nomatch htr
    · rw [if_neg hs] at htr
      exact hM.kern x hx tr htr hkern

end FakeKernel
