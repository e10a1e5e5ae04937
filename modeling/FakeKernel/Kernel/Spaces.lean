import FakeKernel.Kernel.Build
import FakeKernel.Kernel.UserCopy

/-!
# The loops that fill an address space

Each of the loops of load_elf, vm_clone and task_entry adds pages or areas one at a time.  For every
loop there is a rule: what every turn keeps is kept by the loop.

* `PageTurn`, `AreaTurn`   one turn;
* `loadPages_rule`, `clonePages_rule`, `expandStack_rule`   the loops over pages;
* `vmCloneFrom_rule`   the loop over areas.
-/

namespace FakeKernel
open Bytes Mm

variable {h h' : Heap} {own own' : Owners} {q : TaskList → List Nat} {t n a m p va flags : Nat}
  {N : List Nat}

/-- the pages in `M` were handed out to `t`: one for the node `m`, those in `N` for tables and one for
the page `p`, unless it was there before -/
structure Taken (h h' : Heap) (own : Owners) (t p m : Nat) (N M : List Nat) : Prop where
  mm : Extends h.mm h'.mm {s | s ∈ tables h.mm.mem 2 (h.task t).pageTable} M
  tables : ∀ s ∈ N, s ∈ M
  keeps : Keeps h.mm.mem h'.mm.mem {s | s ∈ N} 2 (h.task t).pageTable
  node : m - 4 ∈ M ∧ m - 4 ∉ N
  page : (p ∈ M ∨ own.Page p t (.loose false)) ∧ p ∉ N ∧ p ≠ m - 4
  all : ∀ s ∈ M, s ∈ N ∨ s = m - 4 ∨ s = p

/-- a page `p` was allocated and filled, added to the area `a` of `t` through the node `m` and mapped
at `va` -/
structure PageTurn (q : TaskList → List Nat) (t a va flags : Nat) (h : Heap) (own : Owners)
    (h' : Heap) (own' : Owners) (p m : Nat) : Prop where
  grown : Grown q t h own h' own'
  node4 : 4 ≤ m
  owners : ∃ N M, own' = (own.addPage t a m p (vpnOf va)).setTables N t ∧ Taken h h' own t p m N M
  map : ∀ x, mapOf h' (h.task t).pageTable x = if SamePage 0 x va then setLeaf 0 (PA p) flags x
    else mapOf h (h.task t).pageTable x
  lists : h'.lists = (h.lists.setNode m (h.newNode m p)).listPush (.pages a) m
  area : ∀ b ≠ a, h'.area b = h.area b
  flat : pteIsLeaf flags = true → Flat h.mm.mem 2 (h.task t).pageTable →
    Flat h'.mm.mem 2 (h.task t).pageTable

/-- `h'` is `h` with other bytes on the page `p` -/
def Heap.Filled (h h' : Heap) (p : Nat) : Prop :=
  ∃ m : Mem, h' = { h with mm := h.mm.setMem m } ∧ ∀ x, ¬ onPage p x → m x = h.mm.mem x

theorem Heap.Filled.refl (h : Heap) (p : Nat) : h.Filled h p := ⟨h.mm.mem, rfl, fun _ _ => rfl⟩

theorem Owners.addPage_set (own : Owners) (t a m p v : Nat) (r : Role) :
    (own.set p t r).addPage t a m p v = own.addPage t a m p v := by
  funext x
  show (if x = p then _ else if x = m - 4 then _ else if x = p then _ else own x)
    = if x = p then _ else if x = m - 4 then _ else own x
  by_cases h1 : x = p
  · rw [if_pos h1, if_pos h1]
  · rw [if_neg h1, if_neg h1, if_neg h1]

/-- a page that holds no table is filled -/
theorem World.fill (hw : World h own q) {r : Role} (hp : own.Page p t r) (hobj : r.object = false)
    (hr : r ≠ .table) (hf : h.Filled h' p) (ht : t ∈ h.live) :
    Grown q t h own h' own ∧ Extends h.mm h'.mm {p} [] ∧
      (∀ x, mapOf h' (h.task t).pageTable x = mapOf h (h.task t).pageTable x) ∧
      tables h'.mm.mem 2 (h.task t).pageTable = tables h.mm.mem 2 (h.task t).pageTable ∧
      (Flat h.mm.mem 2 (h.task t).pageTable → Flat h'.mm.mem 2 (h.task t).pageTable) := by
  obtain ⟨mem, rfl, hmem⟩ := hf
  have hx : Extends h.mm (h.mm.setMem mem) {p} [] :=
    hw.held.ok.write_page (hw.held.kept hp) (hw.held.page hp) hmem
  have hM := hw.maps t ht
  have hnot : ∀ s ∈ tables h.mm.mem 2 (h.task t).pageTable, s ∉ ({p} : Set Nat) := fun s hs hsp => by
    rw [Set.mem_singleton_iff.mp hsp] at hs
    exact hr (hp.unique (hM.tables p hs)).2
  obtain ⟨_, hwalk, htab⟩ := hM.wf.extends hx hnot
  exact ⟨hw.write hp hobj hr hmem, hx, hwalk, htab, fun hflat => hflat.extends hM.wf hx hnot⟩

theorem PageAdded.taken (hadd : PageAdded h h' (h.task t).pageTable a p m va flags N)
    (hw : World h own q) (ht : t ∈ h.live) (hp : own.Page p t (.loose false)) :
    Taken h h' own t p m N (N ++ [m - 4]) ∧ ∀ x, mapOf h' (h.task t).pageTable x
      = if SamePage 0 x va then setLeaf 0 (PA p) flags x else mapOf h (h.task t).pageTable x := by
  obtain ⟨mm, hxm, _, hsplit, hwalk⟩ := hadd.mm
  obtain ⟨_, hwalkm, htabm⟩ := (hw.maps t ht).wf.extends hxm fun _ _ => nofun
  have hpage : ∀ s ∈ {s | s ∈ tables h.mm.mem 2 (h.task t).pageTable}, pageSize ∣ s :=
    fun s hs => tables_page (hw.maps t ht).wf.page s hs
  have hmm : m - 4 ∈ [m - 4] := List.mem_singleton_self _
  refine ⟨⟨?_, fun s hs => List.mem_append_left _ hs, fun s hs => ?_,
    ⟨List.mem_append_right _ hmm, hsplit.grow.not_new (hxm.new_kept hmm)⟩, ⟨.inr hp,
    hsplit.grow.not_new (hxm.keptPage (hw.held.kept hp)), fun e => ?_⟩, fun s hs => ?_⟩, fun x => ?_⟩
  · refine (hxm.mono (Set.empty_subset _) hpage).trans hsplit.grow fun s hs => .inl ?_
    have hs : s ∈ tables mm.mem 2 (h.task t).pageTable := hs
    rw [htabm] at hs
    exact hs
  · apply hsplit.keeps
    rw [htabm]
    exact hs
  · exact hxm.not_new (hw.held.kept hp) (e ▸ hmm)
  · exact (List.mem_append.mp hs).imp_right fun hin => .inl (List.mem_singleton.mp hin)
  · show walk h'.mm.mem 2 _ x = _
    rw [hwalk x]
    split
    · rfl
    · exact hwalkm x

/-- a page that was allocated before is added to an area and mapped -/
theorem pageTurn_loose (hw : World h own q) (ht : t ∈ h.live) (harea : own.Obj a t (.area n))
    (hu : flags &&& pteUser ≠ 0) (hp : own.Page p t (.loose false))
    (hadd : PageAdded h h' (h.task t).pageTable a p m va flags N) :
    PageTurn q t a va flags h own h' ((own.addPage t a m p (vpnOf va)).setTables N t) p m := by
  obtain ⟨htaken, hmap⟩ := hadd.taken hw ht hp
  exact ⟨hadd.world hw ht rfl hp harea hu, hadd.node4, ⟨N, _, rfl, htaken⟩, hmap, hadd.lists, hadd.area,
    hadd.flat⟩

theorem pageTurn {h₁ h₂ h₃ : Heap} (hw : World h own q) (ht : t ∈ h.live)
    (harea : own.Obj a t (.area n)) (hu : flags &&& pteUser ≠ 0) (halloc : h.allocPage = .ok (p, h₁))
    (hfill : h₁.Filled h₂ p) (hadd : PageAdded h₂ h₃ (h.task t).pageTable a p m va flags N)
    (hfill' : h₃.Filled h' p) : ∃ own', PageTurn q t a va flags h own h' own' p m := by
  obtain ⟨mm₁, rfl, _, hx₁⟩ := Heap.allocPage_spec hw.held.ok halloc
  have hpin : p ∈ [p] := List.mem_singleton_self p
  have g₁ := hw.takePage hx₁ t
  have hp₁ : (own.set p t (.loose false)).Page p t (.loose false) := Owners.set_self
  have hlive₁ : t ∈ ({ h with mm := mm₁ } : Heap).live := ht
  obtain ⟨g₂, _, hmap₂, htab₂, hflat₂⟩ := g₁.world.fill hp₁ rfl nofun hfill hlive₁
  have hlists₂ : h₂.lists = h.lists := by obtain ⟨_, rfl, _⟩ := hfill; rfl
  have hfields₂ : h₂.task = h.task ∧ h₂.live = h.live ∧ h₂.area = h.area := by
    obtain ⟨_, rfl, _⟩ := hfill
    exact ⟨rfl, rfl, rfl⟩
  have hnew₂ : h₂.newNode m p = h.newNode m p := by
    unfold Heap.newNode Heap.node
    rw [hlists₂]
  have hroot₂ : (h₂.task t).pageTable = (h.task t).pageTable := by rw [hfields₂.1]
  have hlive₂ : t ∈ h₂.live := by rw [hfields₂.2.1]; exact ht
  have harea₂ : (own.set p t (.loose false)).Obj a t (.area n) := g₁.mono.obj harea rfl
  have hadd' : PageAdded h₂ h₃ (h₂.task t).pageTable a p m va flags N := by rwa [hroot₂]
  obtain ⟨htaken, hmap₃⟩ := hadd'.taken g₂.world hlive₂ hp₁
  have g₃ := hadd'.world g₂.world hlive₂ rfl hp₁ harea₂ hu
  rw [Owners.addPage_set] at g₃
  have hlive₃ : t ∈ h₃.live := by rw [hadd.live]; exact hlive₂
  have hroot₃ : (h₃.task t).pageTable = (h.task t).pageTable := (hadd.task t).2.2.1.trans hroot₂
  have hp₃ : ((own.addPage t a m p (vpnOf va)).setTables N t).Page p t (.user m (vpnOf va)) :=
    Owners.page_setTables.mpr (.inr ⟨htaken.page.2.1, Owners.set_self⟩)
  obtain ⟨g₄, _, hmap₄, htab₄, hflat₄⟩ := g₃.world.fill hp₃ rfl nofun hfill' hlive₃
  obtain ⟨_, hwalk₁, htab₁⟩ := (hw.maps t ht).wf.extends hx₁ fun _ _ => nofun
  rw [hroot₃] at hmap₄ htab₄
  rw [hroot₂] at hmap₃
  have htabs : tables h₂.mm.mem 2 (h.task t).pageTable = tables h.mm.mem 2 (h.task t).pageTable :=
    htab₂.trans htab₁
  have hpage : ∀ s ∈ {s | s ∈ tables h.mm.mem 2 (h.task t).pageTable}, pageSize ∣ s :=
    fun s hs => tables_page (hw.maps t ht).wf.page s hs
  -- everything that was written, and everything that was handed out
  have hx₂ : Extends h.mm h₂.mm ∅ [p] := by
    obtain ⟨mem, rfl, hmem⟩ := hfill
    exact hx₁.write_new hpin hmem
  have hx₃ : Extends h.mm h₃.mm {s | s ∈ tables h.mm.mem 2 (h.task t).pageTable} (N ++ [m - 4] ++ [p]) := by
    have hmm := htaken.mm
    rw [hroot₂, htabs] at hmm
    exact (hx₂.mono (Set.empty_subset _) hpage).trans hmm fun s hs => .inl hs
  have hpin' : p ∈ N ++ [m - 4] ++ [p] := List.mem_append_right _ hpin
  refine ⟨_, ((g₁.trans g₂).trans g₃).trans g₄, hadd.node4, ⟨N, N ++ [m - 4] ++ [p], rfl, ?_,
    fun s hs => ?_, fun s hs => ?_, ⟨?_, htaken.node.2⟩, ⟨.inl hpin', htaken.page.2⟩, fun s hs => ?_⟩,
    fun x => ?_, ?_, fun b hb => ?_, fun hl hflat => ?_⟩
  · obtain ⟨mem, rfl, hmem⟩ := hfill'
    exact hx₃.write_new hpin' hmem
  · exact List.mem_append_left _ (List.mem_append_left _ hs)
  · rw [htab₄]
    have hkeeps := htaken.keeps
    rw [hroot₂] at hkeeps
    apply hkeeps
    rw [htabs]
    exact hs
  · exact List.mem_append_left _ htaken.node.1
  · cases List.mem_append.mp hs with
    | inl hin => exact htaken.all s hin
    | inr hin => exact .inr (.inr (List.mem_singleton.mp hin))
  · rw [hmap₄, hmap₃ x]
    split
    · rfl
    · exact (hmap₂ x).trans (hwalk₁ x)
  · obtain ⟨_, rfl, _⟩ := hfill'
    show h₃.lists = _
    rw [hadd.lists, hlists₂, hnew₂]
  · obtain ⟨_, rfl, _⟩ := hfill'
    show h₃.area b = _
    rw [hadd.area b hb, hfields₂.2.2]
  · have hflat₁ := hflat.extends (hw.maps t ht).wf hx₁ fun _ _ => nofun
    rw [hroot₃] at hflat₄
    exact hflat₄ (hadd.flat hl (hflat₂ hflat₁))

/-! ## load_elf -/

theorem pteUser_of_or {f : Nat} : (f ||| pteUser) &&& pteUser ≠ 0 := by
  intro h
  have hbit : ((f ||| pteUser) &&& pteUser).testBit 4 = false := by
    rw [h]
    exact Nat.zero_testBit 4
  rw [Nat.testBit_and, Nat.testBit_or, show pteUser.testBit 4 = true from rfl] at hbit
  simp at hbit

theorem loadPages_rule {I : Nat → Heap → Owners → Prop}
    {toAddr table endAddr fuel addr off src : Nat} (hf : flags < 2 ^ 8) (hu : flags &&& pteUser ≠ 0)
    (hturn : ∀ {addr h own h' own' p m}, I addr h own → addr < endAddr →
      PageTurn q t a addr flags h own h' own' p m → h'.area a = h.area a →
      I ((addr + pageSize) % wordCount) h' own')
    (hI : I addr h own) (hw : World h own q) (ht : t ∈ h.live) (hroot : (h.task t).pageTable = table)
    (harea : own.Obj a t (.area n))
    (hrun : Heap.loadPages toAddr table flags a endAddr fuel addr off src h = .ok h') :
    ∃ own' addr', Grown q t h own h' own' ∧ I addr' h' own' ∧ endAddr ≤ addr' := by
  induction fuel generalizing h own addr off src with
  | zero => cases hrun
  | succ fuel ih =>
    unfold Heap.loadPages at hrun
    by_cases hend : addr < endAddr
    · simp only [hend, if_true] at hrun
      obtain ⟨⟨p, h₁⟩, halloc, hrun⟩ := Res.bind_eq_ok.mp hrun
      obtain ⟨mm₁, rfl, hp0, hx₁⟩ := Heap.allocPage_spec hw.held.ok halloc
      simp only [hp0, if_false] at hrun
      obtain ⟨⟨err₂, h₂⟩, hadd, hrun⟩ := Res.bind_eq_ok.mp hrun
      have g₁ := hw.takePage hx₁ t
      obtain ⟨hwf₁, _, _⟩ := (hw.maps t ht).wf.extends hx₁ fun s _ => Set.notMem_empty s
      obtain ⟨rfl, _⟩ := Heap.vmAreaAddPage_spec hwf₁.ok hadd
      simp only [ne_eq, not_true_eq_false, if_false] at hrun
      obtain ⟨⟨err₃, h₃⟩, hset, hrun⟩ := Res.bind_eq_ok.mp hrun
      rw [hroot] at hwf₁
      have harea₂ : h₂.area = h.area := by
        obtain ⟨_, _, _, rfl, _⟩ := Heap.vmAreaAddPage_spec hwf₁.ok hadd
        rfl
      obtain ⟨_, rfl, m, N, hpage⟩ := pageAdded_of_add (x := h₂.area) hwf₁ hf hadd
        (fun b _ => by rw [harea₂]) (fun h => by rwa [harea₂]) hset
      simp only [not_true_eq_false, if_false] at hrun
      rw [← hroot] at hpage
      obtain ⟨r, hr⟩ : ∃ r, r = Heap.fillPage toAddr p pageSize 0 off src h₃.mm.mem := ⟨_, rfl⟩
      rw [← hr] at hrun
      have hfilled : h₃.Filled { h₃ with mm := h₃.mm.setMem r.2.2 } p := by
        refine ⟨r.2.2, rfl, fun x hx => ?_⟩
        rw [hr]
        exact Heap.fillPage_out (Nat.le_refl _) hx
      obtain ⟨own', hpt⟩ := pageTurn hw ht harea hu halloc (.refl _ _) hpage hfilled
      have hsame : h₃.area a = h.area a := by
        obtain ⟨_, rfl, _⟩ := setPage_heap hset
        show h₂.area a = h.area a
        rw [harea₂]
      have hg := hpt.grown
      have ht' : t ∈ h₃.live := by
        have : h₃.live = h.live := hg.live
        rw [this]
        exact ht
      obtain ⟨own'', addr', hg', hI', hge⟩ := ih (hturn hI hend hpt hsame) hg.world ht'
        ((hg.pageTable ht).trans hroot) (hg.mono.obj harea rfl) hrun
      exact ⟨own'', addr', hg.trans hg', hI', hge⟩
    · simp only [hend, if_false] at hrun
      cases hrun
      exact ⟨own, addr, .refl hw t, hI, Nat.not_lt.mp hend⟩

/-! ## the stack -/

/-- the address below an area that grows down -/
def lowerPage (va : Nat) : Nat := (va + wordCount - pageSize) % wordCount

theorem lowerPage_dvd {va : Nat} (hva : pageSize ∣ va) : pageSize ∣ lowerPage va := by
  obtain ⟨k, rfl⟩ := hva
  unfold lowerPage pageSize wordCount
  omega

theorem pteFlags_user_lt {f : Nat} : pteFlagsFromVmFlags f ||| pteUser < 2 ^ 8 := by
  unfold pteFlagsFromVmFlags
  simp only
  split <;> split <;> split <;> decide

/-- what task_entry does to an area when it grows by a page -/
def VmArea.grown (x : VmArea) : VmArea :=
  { x with va := lowerPage x.va, nPages := (x.nPages + 1) % wordCount }

theorem growStack_turn (hw : World h own q) (ht : t ∈ h.live) (harea : own.Obj a t (.area n))
    (hrun : h.growStack t a = .ok h') : ∃ own' p m, PageTurn q t a (lowerPage (h.area a).va)
      (pteFlagsFromVmFlags (h.area a).flags ||| pteUser) h own h' own' p m ∧
      h'.area a = (h.area a).grown := by
  unfold Heap.growStack at hrun
  obtain ⟨⟨p, h₁⟩, halloc, hrun⟩ := Res.bind_eq_ok.mp hrun
  obtain ⟨mm₁, rfl, hp0, hx₁⟩ := Heap.allocPage_spec hw.held.ok halloc
  simp only [hp0, if_false] at hrun
  obtain ⟨h₂, hh₂⟩ : ∃ h₂, h₂ = Heap.clearPage p { h with mm := mm₁ } := ⟨_, rfl⟩
  rw [← hh₂] at hrun
  have hclear : ({ h with mm := mm₁ } : Heap).Filled h₂ p :=
    ⟨_, hh₂, fun x hx => Heap.clearWords_out (Nat.le_refl _) hx⟩
  have g₁ := hw.takePage hx₁ t
  obtain ⟨g₂, _⟩ := g₁.world.fill Owners.set_self rfl nofun hclear ht
  have hfields : h₂.task = h.task ∧ h₂.live = h.live ∧ h₂.area = h.area := by
    rw [hh₂]
    exact ⟨rfl, rfl, rfl⟩
  have hwf₂ := (g₂.world.maps t (by rw [hfields.2.1]; exact ht)).wf
  rw [hfields.1] at hwf₂
  obtain ⟨⟨err₃, h₃⟩, hadd, hrun⟩ := Res.bind_eq_ok.mp hrun
  obtain ⟨rfl, mm₃, m, hh₃, _⟩ := Heap.vmAreaAddPage_spec hwf₂.ok hadd
  simp only [ne_eq, not_true_eq_false, if_false] at hrun
  obtain ⟨⟨err₄, h₄⟩, hset, hrun⟩ := Res.bind_eq_ok.mp hrun
  have harea₃ : h₃.area = h.area := by
    rw [hh₃]
    exact hfields.2.2
  have htask₃ : h₃.task = h.task := by
    rw [hh₃]
    exact hfields.1
  have hset' : Heap.setPage (h.task t).pageTable (lowerPage (h.area a).va) (PA p)
      (pteFlagsFromVmFlags (h.area a).flags ||| pteUser)
      { h₃ with area := Function.update h.area a (h.area a).grown } = .ok (err₄, h₄) := by
    rw [← hset]
    show _ = Heap.setPage ((h₃.task t).pageTable) _ _ _ { h₃ with area := Function.update h₃.area a _ }
    rw [harea₃, htask₃]
    rfl
  obtain ⟨_, rfl, m', N, hpage⟩ := pageAdded_of_add hwf₂ pteFlags_user_lt hadd
    (fun b hb => by rw [Function.update_of_ne hb, hfields.2.2])
    (fun h => by rw [Function.update_self]; rw [hfields.2.2] at h; exact lowerPage_dvd h) hset'
  simp only [not_true_eq_false, if_false] at hrun
  cases hrun
  obtain ⟨own', hpt⟩ := pageTurn hw ht harea pteUser_of_or halloc hclear hpage (.refl _ _)
  refine ⟨own', p, m', hpt, ?_⟩
  obtain ⟨_, rfl, _⟩ := setPage_heap hset'
  exact Function.update_self _ _ _

theorem expandStack_rule {I : Heap → Owners → Prop} {vaStart fuel : Nat}
    (hturn : ∀ {h own h' own' p m}, I h own → vaStart < (h.area a).va →
      PageTurn q t a (lowerPage (h.area a).va) (pteFlagsFromVmFlags (h.area a).flags ||| pteUser)
        h own h' own' p m → h'.area a = (h.area a).grown → I h' own')
    (hI : I h own) (hw : World h own q) (ht : t ∈ h.live) (harea : own.Obj a t (.area n))
    (hrun : h.expandStack t a vaStart fuel = .ok h') :
    ∃ own', Grown q t h own h' own' ∧ I h' own' ∧ (h'.area a).va ≤ vaStart := by
  induction fuel generalizing h own with
  | zero => exact nomatch hrun
  | succ fuel ih =>
    unfold Heap.expandStack at hrun
    by_cases hlt : vaStart < (h.area a).va
    · simp only [hlt, if_true] at hrun
      obtain ⟨h₁, hgrow, hrun⟩ := Res.bind_eq_ok.mp hrun
      obtain ⟨own₁, p, m, hpt, hx⟩ := growStack_turn hw ht harea hgrow
      have hg := hpt.grown
      obtain ⟨own', hg', hI', hge⟩ := ih (hturn hI hlt hpt hx) hg.world (hg.live ▸ ht)
        (hg.mono.obj harea rfl) hrun
      exact ⟨own', hg.trans hg', hI', hge⟩
    · simp only [hlt, if_false] at hrun
      cases hrun
      exact ⟨own, .refl hw t, hI, Nat.not_lt.mp hlt⟩

/-! ## vm_clone -/

open Kernel (SameFrame Accessed)

theorem Kernel.SameFrame.blocks {x y : Task} (h : SameFrame x y) : SameBlocks x y := by
  obtain ⟨f, rfl⟩ := h
  exact ⟨rfl, rfl, rfl, rfl⟩

theorem Kernel.SameFrame.trans {x y z : Task} (h : SameFrame x y) (h' : SameFrame y z) : SameFrame x z := by
  obtain ⟨f, rfl⟩ := h
  obtain ⟨f', rfl⟩ := h'
  exact ⟨f', rfl⟩

/-- kernel frames are none of a page's business -/
theorem PageTurn.frames (hp : PageTurn q t a va flags h own h' own' p m) {task : Nat → Task}
    (htask : ∀ t, SameFrame (h'.task t) (task t)) :
    PageTurn q t a va flags h own { h' with task := task } own' p m := by
  obtain ⟨N, M, hown, htaken⟩ := hp.owners
  exact ⟨hp.grown.trans (hp.grown.world.fields t rfl rfl rfl rfl (Nat.le_refl _)
    (fun t' _ => (htask t').blocks) fun _ _ _ _ => .inl rfl), hp.node4,
    ⟨N, M, hown, htaken.mm, htaken.tables, htaken.keeps, htaken.node, htaken.page, htaken.all⟩, hp.map, hp.lists,
    hp.area, hp.flat⟩

/-- what a copy from user memory may change of the kernel, besides memory -/
structure SameControl (k k' : Kernel) : Prop where
  rest : ∃ frame b c, k' = { k with
    heap := k'.heap, trapframe := frame, mayPageFault := b, sum := c }
  task : ∀ t, SameFrame (k.heap.task t) (k'.heap.task t)
  other : ∀ t, t ≠ k.currentTask → k'.heap.task t = k.heap.task t

theorem SameControl.trans {k k' k'' : Kernel} (h : SameControl k k') (h' : SameControl k' k'') :
    SameControl k k'' := by
  obtain ⟨f, b, c, hk⟩ := h.rest
  obtain ⟨f', b', c', hk'⟩ := h'.rest
  have hcur : k'.currentTask = k.currentTask := by rw [hk]
  refine ⟨⟨f', b', c', ?_⟩, fun t => (h.task t).trans (h'.task t), fun t ht => ?_⟩
  · rw [hk', hk]
  · rw [h'.other t (hcur ▸ ht), h.other t ht]

theorem SameControl.of_heap (k : Kernel) {h' : Heap} (ht : h'.task = k.heap.task) :
    SameControl k (k.setHeap h') :=
  ⟨⟨k.trapframe, k.mayPageFault, k.sum, rfl⟩, fun t => by
    show SameFrame (k.heap.task t) (h'.task t)
    rw [ht]
    exact .refl _, fun t _ => by
    show h'.task t = k.heap.task t
    rw [ht]⟩

theorem Kernel.Accessed.control {k k' : Kernel} {dest n : Nat} (h : Accessed k k' dest n) :
    SameControl k k' := by
  obtain ⟨mem, task, hheap, _, hsame, hother⟩ := h.heap
  refine ⟨h.rest, fun t => ?_, fun t ht => ?_⟩
  · rw [hheap]
    exact hsame t
  · rw [hheap]
    exact hother t ht

/-- one page of an area is copied -/
structure CloneTurn (q : TaskList → List Nat) (regs : Cpu) (t a va flags : Nat) (k : Kernel)
    (own : Owners) (k' : Kernel) (own' : Owners) (p m : Nat) : Prop where
  page : PageTurn q t a va (flags ||| pteUser) k.heap own k'.heap own' p m
  areas : k'.heap.area = k.heap.area
  control : SameControl k k'
  /-- the bytes are copied when the page has been mapped -/
  copy : ∃ h₁ M r, Extends k.heap.mm h₁.mm {s | s ∈ tables k.heap.mm.mem 2 (k.heap.task t).pageTable} M ∧
    p ∈ M ∧ Kernel.copyFromUser regs p va pageSize (k.setHeap h₁) = .ok (r, k')

theorem clonePages_rule {I : Nat → Nat → Kernel → Owners → Prop} {regs : Cpu} {i : Nat}
    {k k' : Kernel} (hf : flags ||| pteUser < 2 ^ 8)
    (hturn : ∀ {i va k own k' own' p m}, I (i + 1) va k own →
      CloneTurn q regs t a va flags k own k' own' p m → I i ((va + pageSize) % wordCount) k' own')
    (hI : I i va k own) (hw : World k.heap own q) (ht : t ∈ k.heap.live)
    (harea : own.Obj a t (.area n)) (hrun : k.clonePages regs t a flags i va = .ok k') :
    ∃ own' va', Grown q t k.heap own k'.heap own' ∧ SameControl k k' ∧ I 0 va' k' own' := by
  induction i generalizing k own va with
  | zero =>
    cases hrun
    exact ⟨own, va, .refl hw t, .of_heap _ rfl, hI⟩
  | succ i ih =>
    unfold Kernel.clonePages at hrun
    obtain ⟨⟨p, h₁⟩, halloc, hrun⟩ := Res.bind_eq_ok.mp hrun
    obtain ⟨mm₁, hh₁, hp0, hx₁⟩ := Heap.allocPage_spec hw.held.ok halloc
    simp only [hp0, if_false] at hrun
    obtain ⟨⟨node, h₂⟩, hnode, hrun⟩ := Res.bind_eq_ok.mp hrun
    have hok₁ : h₁.mm.Ok := by
      rw [hh₁]
      exact hx₁.ok
    obtain ⟨mm₂, hh₂, hn4, _⟩ := Heap.listNodeCreate_spec hok₁ hnode
    have hn0 : node ≠ 0 := by omega
    simp only [hn0, if_false] at hrun
    have hadd : h₁.vmAreaAddPage a p = .ok (0, h₂.listPush (.pages a) node) := by
      unfold Heap.vmAreaAddPage
      rw [hnode, Res.ok_bind]
      exact if_neg hn0
    obtain ⟨⟨err₃, h₃⟩, hset, hrun⟩ := Res.bind_eq_ok.mp hrun
    have htask₂ : h₂.task = k.heap.task := by rw [hh₂, hh₁]
    have harea₂ : h₂.area = h₁.area := by rw [hh₂]
    have hwf₁ : WellFormed h₁.mm (k.heap.task t).pageTable := by
      rw [hh₁]
      exact ((hw.maps t ht).wf.extends hx₁ fun _ _ => nofun).1
    have hroot : ((h₂.listPush (.pages a) node).task t).pageTable = (k.heap.task t).pageTable := by
      show (h₂.task t).pageTable = _
      rw [htask₂]
    rw [hroot] at hset
    obtain ⟨_, rfl, m, N, hpage⟩ := pageAdded_of_add (x := (h₂.listPush (.pages a) node).area) hwf₁ hf
      hadd (fun b _ => by show h₂.area b = _; rw [harea₂])
      (fun h => by show pageSize ∣ (h₂.area a).va; rwa [harea₂]) hset
    simp only [ne_eq, not_true_eq_false, if_false] at hrun
    obtain ⟨⟨r, k₁⟩, hcopy, hrun⟩ := Res.bind_eq_ok.mp hrun
    obtain ⟨r', k₁', hcopy', hacc, _⟩ := Kernel.copyFromUser_spec (k.setHeap h₃) regs p va pageSize
    rw [hcopy] at hcopy'
    cases hcopy'
    obtain ⟨mem, task, hheap, hmem, hsame, hother⟩ := hacc.heap
    have hfilled : h₃.Filled { h₃ with mm := h₃.mm.setMem mem } p := ⟨mem, rfl, hmem⟩
    obtain ⟨own', hpt⟩ := pageTurn hw ht harea pteUser_of_or halloc (.refl _ _) hpage hfilled
    have hpt' : PageTurn q t a va (flags ||| pteUser) k.heap own k₁.heap own' p m := by
      rw [hheap]
      exact hpt.frames hsame
    have harea₃ : h₃.area = k.heap.area := by
      obtain ⟨_, rfl, _⟩ := setPage_heap hset
      show h₂.area = _
      rw [harea₂, hh₁]
    have htask₃ : h₃.task = k.heap.task := by
      obtain ⟨_, rfl, _⟩ := setPage_heap hset
      exact htask₂
    have hcontrol : SameControl k k₁ := (SameControl.of_heap k htask₃).trans hacc.control
    have hturn₁ : CloneTurn q regs t a va flags k own k₁ own' p m := by
      obtain ⟨_, hpt₃⟩ := pageTurn hw ht harea pteUser_of_or halloc (.refl _ _) hpage (.refl _ _)
      obtain ⟨_, M, _, htaken⟩ := hpt₃.owners
      have hfree : ¬ own.Page p t (.loose false) := fun hp =>
        hx₁.not_new (hw.held.kept hp) (List.mem_singleton_self p)
      refine ⟨hpt', ?_, hcontrol, h₃, M, r, htaken.mm, htaken.page.1.resolve_right hfree, hcopy⟩
      rw [hheap]
      exact harea₃
    have hg := hpt'.grown
    obtain ⟨own'', va', hg', hc', hI'⟩ := ih (hturn hI hturn₁) hg.world (hg.live ▸ ht)
      (hg.mono.obj harea rfl) hrun
    exact ⟨own'', va', hg.trans hg', hcontrol.trans hc', hI'⟩

/-! ## areas -/

/-- an area `a` with the fields `x` was added to the list of `t` through the node `n` -/
structure AreaTurn (q : TaskList → List Nat) (t : Nat) (x : VmArea) (h : Heap) (own : Owners)
    (h' : Heap) (own' : Owners) (n a : Nat) : Prop where
  added : AreaAdded h h' t n a
  grown : Grown q t h own h' own'
  owners : own' = own.addArea t n a
  area : h'.area a = x

theorem AreaAdded.extends (ha : AreaAdded h h' t n a) : Extends h.mm h'.mm ∅ ([n - 4] ++ [a - 4]) := by
  obtain ⟨mm, hx, _, hx', _⟩ := ha.mm
  exact hx.trans hx' nofun

theorem AreaAdded.ne (ha : AreaAdded h h' t n a) : n - 4 ≠ a - 4 := by
  obtain ⟨mm, hx, _, hx', _⟩ := ha.mm
  intro e
  exact hx'.not_new (hx.new_kept (List.mem_singleton_self (a - 4))) (e ▸ List.mem_singleton_self _)

namespace AreaTurn
variable {x : VmArea}

theorem obj (ht : AreaTurn q t x h own h' own' n a) : own'.Obj a t (.area n) ∧ own'.Obj n t .vnode := by
  rw [ht.owners]
  exact ⟨⟨ht.added.area4, Owners.set_self⟩,
    ⟨ht.added.node4, (Owners.set_of_ne ht.added.ne).mpr Owners.set_self⟩⟩

/-- nothing that was handed out before changes hands -/
theorem page (ht : AreaTurn q t x h own h' own' n a) (hh : Held h own) {t' : Nat} {r : Role}
    (hp : own.Page p t' r) : own'.Page p t' r := by
  have hnot := ht.added.extends.not_new (hh.kept hp)
  rw [ht.owners]
  refine (Owners.set_of_ne fun e => hnot ?_).mpr ((Owners.set_of_ne fun e => hnot ?_).mpr hp)
  · rw [e]
    exact List.mem_append_right _ (List.mem_singleton_self _)
  · rw [e]
    exact List.mem_append_left _ (List.mem_singleton_self _)

end AreaTurn

/-- what one turn of vm_clone does before it copies the pages -/
theorem cloneArea_turn {k k' : Kernel} {regs : Cpu} {area : Nat} (hw : World k.heap own q)
    (ht : t ∈ k.heap.live) (hva : pageSize ∣ (k.heap.area area).va)
    (hrun : k.cloneArea regs t area = .ok k') : ∃ own₁ n a h₁,
      AreaTurn q t { k.heap.area area with refcount := 1 } k.heap own h₁ own₁ n a ∧
      AreaLast k.heap h₁ t n a ∧
      (k.setHeap h₁).clonePages regs t a (pteFlagsFromVmFlags (k.heap.area area).flags)
        (k.heap.area area).nPages (k.heap.area area).va = .ok k' := by
  unfold Kernel.cloneArea at hrun
  obtain ⟨⟨a, h₁⟩, hk, hrun⟩ := Res.bind_eq_ok.mp hrun
  obtain ⟨mm₁, hh₁, ha4, hx₁, _⟩ := Heap.kmalloc_spec hw.held.ok (by decide) hk
  have ha0 : a ≠ 0 := by omega
  simp only [ha0, if_false] at hrun
  obtain ⟨⟨n, h₂⟩, hn, hrun⟩ := Res.bind_eq_ok.mp hrun
  have hok₁ : h₁.mm.Ok := by
    rw [hh₁]
    exact hx₁.ok
  obtain ⟨mm₂, hh₂, hn4, _⟩ := Heap.listNodeCreate_spec hok₁ hn
  have hn0 : n ≠ 0 := by omega
  have harea₂ : h₂.area = k.heap.area := by rw [hh₂, hh₁]
  simp only [hn0, if_false] at hrun
  have hx : (h₂.listPush (.vmAreas t) n).area area = k.heap.area area := by
    show h₂.area area = _
    rw [harea₂]
  rw [hx] at hrun
  obtain ⟨hadded, hlast⟩ := areaAdded_of_clone (t := t) (x := { k.heap.area area with refcount := 1 })
    hw.held.ok hk hn hva
  exact ⟨_, n, a, _, ⟨hadded, hadded.world hw ht, rfl, Function.update_self _ _ _⟩, hlast, hrun⟩

theorem vmCloneFrom_rule {I : Nat → Kernel → Owners → Prop} {regs : Cpu} {fuel node : Nat}
    {k k' : Kernel} (hturn : ∀ {node k own k'}, node ≠ 0 → I node k own → World k.heap own q →
      t ∈ k.heap.live → k.cloneArea regs t (k.heap.node node).value = .ok k' →
      ∃ own', Grown q t k.heap own k'.heap own' ∧ SameControl k k' ∧ I (k'.heap.node node).next k' own')
    (hI : I node k own) (hw : World k.heap own q) (ht : t ∈ k.heap.live)
    (hrun : k.vmCloneFrom regs t fuel node = .ok k') :
    ∃ own', Grown q t k.heap own k'.heap own' ∧ SameControl k k' ∧ I 0 k' own' := by
  induction fuel generalizing k own node with
  | zero => exact nomatch hrun
  | succ fuel ih =>
    unfold Kernel.vmCloneFrom at hrun
    by_cases hz : node = 0
    · simp only [hz, if_true] at hrun
      cases hrun
      exact ⟨own, .refl hw t, .of_heap _ rfl, hz ▸ hI⟩
    · simp only [hz, if_false] at hrun
      obtain ⟨k₁, harea, hrun⟩ := Res.bind_eq_ok.mp hrun
      obtain ⟨own₁, hg, hc, hI₁⟩ := hturn hz hI hw ht harea
      obtain ⟨own', hg', hc', hI'⟩ := ih hI₁ hg.world (hg.live ▸ ht) hrun
      exact ⟨own', hg.trans hg', hc.trans hc', hI'⟩

theorem cloneArea_world {k k' : Kernel} {regs : Cpu} {area : Nat} (hw : World k.heap own q) (ht : t ∈ k.heap.live)
    (hva : pageSize ∣ (k.heap.area area).va) (hrun : k.cloneArea regs t area = .ok k') :
    ∃ own', Grown q t k.heap own k'.heap own' ∧ SameControl k k' := by
  obtain ⟨own₁, n, a, h₁, hat, _, hpages⟩ := cloneArea_turn hw ht hva hrun
  have hlive₁ : t ∈ h₁.live := by
    rw [hat.grown.live]
    exact ht
  obtain ⟨own₂, _, hg₂, hc₂, _⟩ := clonePages_rule (I := fun _ _ _ _ => True) pteFlags_user_lt
    (fun _ _ => trivial) trivial hat.grown.world hlive₁ hat.obj.1 hpages
  exact ⟨own₂, hat.grown.trans hg₂, (SameControl.of_heap k hat.added.task).trans hc₂⟩

/-- the areas of another task are cloned -/
theorem vmClone_world {k k' : Kernel} {regs : Cpu} {parent : Nat} (hw : World k.heap own q)
    (ht : t ∈ k.heap.live) (hparent : parent ∈ k.heap.live)
    (hrun : k.vmClone regs (.vmAreas parent) t = .ok k') :
    ∃ own', Grown q t k.heap own k'.heap own' ∧ SameControl k k' := by
  have hfirst := (hw.areas parent hparent).vm.first
  obtain ⟨own', hg, hc, _⟩ := vmCloneFrom_rule
    (I := fun node k own => (node = 0 ∨ own.Obj node parent .vnode) ∧ parent ∈ k.heap.live)
    (fun {node k own k'} hz hI hw ht harea => by
      have hnode := hI.1.resolve_left hz
      have hva := hw.aligned parent _ node (((hw.areas parent hI.2).area node _).mpr ⟨hnode, rfl⟩)
      obtain ⟨own₂, hg, hc⟩ := cloneArea_world hw ht hva harea
      have hparent' : parent ∈ k'.heap.live := by
        rw [hg.live]
        exact hI.2
      exact ⟨own₂, hg, hc, (hg.world.areas parent hparent').vm.next node (hg.mono.obj hnode rfl), hparent'⟩)
    ⟨hfirst, hparent⟩ hw ht hrun
  exact ⟨own', hg, hc⟩

end FakeKernel
