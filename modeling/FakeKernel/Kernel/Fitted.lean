import FakeKernel.Kernel.GrowthDemand
import FakeKernel.Kernel.Inherit
import FakeKernel.Kernel.Segment

/-!
# Page tables that fit the areas

* `Heap.areasOf`      the areas of a task;
* `Fitted`            the page table of the task has tables for the pages of its areas, and no others;
* `loadElf_fitted`, `taskClone_fitted`, `expandStack_fitted`, `Untouched.fitted`   what makes or keeps such a table.
-/

namespace FakeKernel
open Bytes Bitfield Mm Heap

variable {h h' : Heap} {own own' : Owners} {q : TaskList → List Nat} {t n a va flags root x y : Nat} {ns : List Nat}
  {l l' : List (Nat × Nat)} {k k' : Kernel} {e : Elf} {ph : Phdr} {cs : List PageCall} {mm mm' : Mm} {areas : List VmArea}

/-! ## the entries for a list of areas -/

/-- the entries for the pages of these areas -/
def slotsOf (areas : List VmArea) : List (Nat × Nat) := areas.flatMap fun x => pageSlots x.va x.nPages

/-- the blocks for these areas and their pages -/
def blocksOf (areas : List VmArea) : Nat := (areas.map fun x => 2 + 2 * x.nPages).sum

/-- the blocks of a task with these areas -/
def demandOf (areas : List VmArea) : Nat := 4 + blocksOf areas + tablesFor (slotsOf areas)

theorem Heap.areaSlots_eq (h : Heap) (ns : List Nat) : h.areaSlots ns = slotsOf (ns.map h.areaOf) := by
  unfold Heap.areaSlots slotsOf
  rw [List.flatMap_map]

theorem Heap.forkDemand_eq (h : Heap) (ns : List Nat) : h.forkDemand ns = demandOf (ns.map h.areaOf) := by
  unfold Heap.forkDemand demandOf Heap.areaBlocks blocksOf
  rw [Heap.areaSlots_eq, List.map_map]
  rfl

theorem slotsOf_append (areas areas' : List VmArea) : slotsOf (areas ++ areas') = slotsOf areas ++ slotsOf areas' :=
  List.flatMap_append

/-- the addresses of a page have the same entries -/
theorem slotOf_congr (hs : SamePage 0 x y) : slotOf x = slotOf y := by
  obtain ⟨h2, h1, _⟩ := samePage_zero.mp hs
  exact Prod.ext h2 h1

theorem mem_rootSlots {i : Nat} : i ∈ rootSlots l ↔ ∃ s ∈ l, s.1 = i := by
  unfold rootSlots
  rw [List.mem_toFinset, List.mem_map]

theorem rootSlots_congr (hl : ∀ s, s ∈ l' ↔ s ∈ l) : rootSlots l' = rootSlots l ∧ l'.toFinset = l.toFinset := by
  refine ⟨Finset.ext fun i => ?_, Finset.ext fun s => ?_⟩
  · rw [mem_rootSlots, mem_rootSlots]
    simp [hl]
  · rw [List.mem_toFinset, List.mem_toFinset]
    exact hl s

theorem Rooted.congr (hr : Rooted mm root l) (hl : ∀ s, s ∈ l' ↔ s ∈ l) : Rooted mm root l' := by
  obtain ⟨h1, h2⟩ := rootSlots_congr hl
  refine ⟨hr.wf, ?_⟩
  rw [h1, h2]
  exact hr.tabled

/-! ## the areas of a task -/

/-- the areas in the list of the task -/
noncomputable def Heap.areasOf (h : Heap) (t : Nat) : List VmArea := (listed h (.vmAreas t)).map h.areaOf

theorem Booked.areasOf (hb : Booked h own t ns) : h.areasOf t = ns.map h.areaOf := by
  unfold Heap.areasOf
  rw [hb.vm.listed]

theorem Untouched.areasOf (hu : Untouched h h' own own' t) (hb : Booked h own t ns) (hw : World h own q) (ht : t ∈ h.live) :
    h'.areasOf t = h.areasOf t := by
  rw [hb.areasOf, (hb.untouched hw ht hu).areasOf]
  exact List.map_congr_left fun n hn => hb.areaOf_untouched hw ht hu hn

/-- the page table of `t` has the tables for the pages of its areas -/
def Fitted (h : Heap) (t : Nat) : Prop := Rooted h.mm (h.task t).pageTable (slotsOf (h.areasOf t))

theorem Untouched.fitted (hu : Untouched h h' own own' t) (hb : Booked h own t ns) (hw : World h own q) (ht : t ∈ h.live)
    (hwf : WellFormed h'.mm (h'.task t).pageTable) (hf : Fitted h t) : Fitted h' t := by
  have hM := hw.maps t ht
  have hsame : ∀ s ∈ tables h.mm.mem 2 (h.task t).pageTable, SameTable h.mm.mem h'.mm.mem s := fun s hs i hi =>
    entry_congr hi fun y h1 h2 => hu.mem s (hM.tables s hs) y ⟨h1, h2⟩
  unfold Fitted
  rw [hu.task.2.2.1] at hwf
  rw [hu.areasOf hb hw ht, hu.task.2.2.1]
  refine ⟨hwf, hf.tabled.congr (hsame _ table_mem_tables) fun i hi hS => hsame _ ?_⟩
  exact subtable_mem_tables hi ((hf.tabled.one i hi).mpr hS)

/-! ## fork -/

/-- the child has the areas of its parent, and the tables for them -/
theorem taskClone_fitted {regs : Cpu} {parent : Nat} (hw : World k.heap own q) (hp : parent ∈ k.heap.live)
    (hb : Booked k.heap own parent ns) (hrun : k.taskClone regs parent = .ok (t, k')) :
    k'.heap.areasOf t = k.heap.areasOf parent ∧ Fitted k'.heap t ∧
      k.heap.mm.spare = demandOf (k'.heap.areasOf t) + k'.heap.mm.spare := by
  obtain ⟨own', n, ns', _, hb', hmap⟩ := taskClone_booked hw hp hb hrun
  obtain ⟨hr, hspare⟩ := (taskClone_costs hw hp hb.vm.queue.chain).spec _ hrun
  have hareas : k'.heap.areasOf t = k.heap.areasOf parent := by rw [hb'.areasOf, hb.areasOf, hmap]
  rw [Heap.forkDemand_eq] at hspare
  refine ⟨hareas, ?_, ?_⟩
  · unfold Fitted
    rw [hareas, hb.areasOf, ← Heap.areaSlots_eq]
    exact hr.congr fun s => List.mem_reverse.symm
  · rw [hareas, hb.areasOf]
    exact hspare

/-! ## the growth of a stack -/

theorem pageSlots_append (va i n : Nat) : pageSlots va (i + n) = pageSlots va i ++ pageSlots (va + pageSize * i) n := by
  induction n with
  | zero => exact (List.append_nil _).symm
  | succ n ih =>
    rw [← Nat.add_assoc, pageSlots_concat, ih, List.append_assoc, pageSlots_concat, Nat.mul_add, Nat.add_assoc]

/-- the new pages are at the front of the area -/
theorem GrownTo.nPages {x x' : VmArea} {start i : Nat} (hg : GrownTo x x' start) (hva : x.va = start + pageSize * i)
    (hx : x.stop ≤ splitAddr) (hx' : x'.stop ≤ splitAddr) : x'.nPages = i + x.nPages := by
  have hstop := hg.stop
  rw [endVa_of_stop hx, endVa_of_stop hx'] at hstop
  unfold VmArea.stop at hstop
  rw [hg.va, hva] at hstop
  unfold pageSize at hstop
  omega

/-- `i` more pages in one of the areas, from `start` on -/
theorem demandOf_grown {x x' : VmArea} {pre post : List VmArea} {start i : Nat} (hslots : pageSlots x'.va x'.nPages
      = pageSlots start i ++ pageSlots x.va x.nPages) (hn : x'.nPages = i + x.nPages) :
    (∀ s, s ∈ slotsOf (pre ++ x' :: post) ↔ s ∈ pageSlots start i ∨ s ∈ slotsOf (pre ++ x :: post)) ∧
      blocksOf (pre ++ x' :: post) = 2 * i + blocksOf (pre ++ x :: post) := by
  constructor
  · intro s
    unfold slotsOf
    rw [List.flatMap_append, List.flatMap_append, List.flatMap_cons, List.flatMap_cons, hslots]
    simp only [List.mem_append]
    tauto
  · unfold blocksOf
    rw [List.map_append, List.map_append, List.map_cons, List.map_cons, List.sum_append, List.sum_append, List.sum_cons,
      List.sum_cons, hn]
    omega

/-- what the growth of a stack does to the areas of the task -/
theorem expandStack_areas {fuel : Nat} (hb : Booked h own t ns) (hw : World h own q) (ht : t ∈ h.live) (hst : userStackMin ≤ va)
    (hstack : va < userStack) (hfind : h.vmFindStack (.vmAreas t) va = .ok a) (h0 : a ≠ 0)
    (hrun : h.expandStack t a (va / pageSize * pageSize) fuel = .ok h') : ∃ i pre post x', va / pageSize * pageSize + pageSize * i = (h.area a).va ∧
      h.areasOf t = pre ++ h.area a :: post ∧ h'.areasOf t = pre ++ x' :: post ∧ (h.area a).stop ≤ splitAddr ∧
      x'.va = va / pageSize * pageSize ∧ x'.nPages = i + (h.area a).nPages := by
  have hA := hw.areas t ht
  obtain ⟨pre, n, post, rfl, hv, hlt, _⟩ := vmFindStackFrom_spec hb.vm.queue.chain hb.below hfind h0
  have hn : n ∈ pre ++ n :: post := List.mem_append_right _ List.mem_cons_self
  have ha : own.Obj a t (.area n) := (hA.area n a).mpr ⟨(hb.vm.mem n).mp hn, hv⟩
  have hof : h.areaOf n = h.area a := congrArg h.area hv
  have hstop := hb.area_stop hA ha
  have hva := hw.aligned t a n ha
  have hlt : va < (h.area a).va := hof ▸ hlt
  have hround : va / pageSize * pageSize ≤ va := Nat.div_mul_le_self _ _
  have hword : (h.area a).va < wordCount := by
    unfold VmArea.stop splitAddr at hstop
    unfold wordCount
    omega
  obtain ⟨_, _, _, hother, hgrown⟩ := expandStack_pages (hw.maps t ht).wf rfl hva hword (Nat.dvd_mul_left _ _)
    (Nat.lt_of_le_of_lt hround hstack) (by omega) hrun
  obtain ⟨hnode, _⟩ := expandStack_nodes hw ht ha (fun x hx => (hb.vm.mem x).mp hx) hrun
  obtain ⟨own', hg, hb'⟩ := expandStack_booked hb hw ht hst hfind h0 hrun
  have hv' : (h'.node n).value = a := by rw [hnode n hn, hv]
  -- no other node leads to the area
  have hnd := hb.vm.queue.chain.nodup
  have hsame : ∀ m ∈ pre ++ n :: post, m ≠ n → h'.areaOf m = h.areaOf m := by
    intro m hm hne
    unfold Heap.areaOf
    rw [hnode m hm]
    refine hother _ fun he => hne ?_
    have hm' := (hA.area m a).mpr ⟨(hb.vm.mem m).mp hm, he⟩
    exact Role.area.inj (hm'.unique ha).2
  have hpre : n ∉ pre ∧ n ∉ post := by
    rw [List.nodup_middle, List.nodup_cons, List.mem_append] at hnd
    exact ⟨fun h => hnd.1 (.inl h), fun h => hnd.1 (.inr h)⟩
  obtain ⟨i, hi⟩ := Nat.exists_eq_add_of_le (show va / pageSize * pageSize / pageSize ≤ (h.area a).va / pageSize from
    Nat.div_le_div_right (by omega))
  have hstart : va / pageSize * pageSize + pageSize * i = (h.area a).va := by
    obtain ⟨c, hc⟩ := hva
    rw [hc, Nat.mul_div_cancel_left c (by decide), Nat.mul_div_cancel _ (by decide)] at hi
    rw [hc, hi, Nat.mul_add, Nat.mul_comm pageSize (va / pageSize)]
  refine ⟨i, pre.map h.areaOf, post.map h.areaOf, h'.area a, hstart, ?_, ?_, hstop, hgrown.va, ?_⟩
  · rw [hb.areasOf, List.map_append, List.map_cons, hof]
  · rw [hb'.areasOf, List.map_append, List.map_cons]
    refine congrArg₂ _ (List.map_congr_left fun m hm => ?_) (congrArg₂ _ (congrArg h'.area hv') (List.map_congr_left fun m hm => ?_))
    · exact hsame m (List.mem_append_left _ hm) fun he => hpre.1 (he ▸ hm)
    · exact hsame m (List.mem_append_right _ (List.mem_cons_of_mem _ hm)) fun he => hpre.2 (he ▸ hm)
  · refine hgrown.nPages hstart.symm hstop ?_
    have hbelow := hb'.below n hn
    unfold Heap.areaOf at hbelow
    rw [hv'] at hbelow
    exact hbelow

/-- the tables for the new pages come with them -/
theorem expandStack_fitted (hb : Booked h own t ns) (hw : World h own q) (ht : t ∈ h.live) (hst : userStackMin ≤ va)
    (hstack : va < userStack) (hfind : h.vmFindStack (.vmAreas t) va = .ok a) (h0 : a ≠ 0)
    (hrun : h.expandStack t a (va / pageSize * pageSize) wordCount = .ok h') (hf : Fitted h t) :
    Fitted h' t ∧ h.mm.spare + demandOf (h.areasOf t) = demandOf (h'.areasOf t) + h'.mm.spare := by
  obtain ⟨i, pre, post, x', hva, hold, hnew, hstop, hva', hpages⟩ := expandStack_areas hb hw ht hst hstack hfind h0 hrun
  have hword : (h.area a).va < wordCount := by
    unfold VmArea.stop splitAddr at hstop
    unfold wordCount
    omega
  have hfuel : i < wordCount := by
    unfold pageSize at hva
    omega
  have htt : TabledTask h t (h.task t).pageTable _ _ := ⟨hf.wf, hf.tabled, rfl⟩
  obtain ⟨htt', hspare⟩ := (expandStack_costs htt (Nat.dvd_mul_left _ _) hva.symm hword hfuel).spec h' hrun
  have hslots : pageSlots x'.va x'.nPages = pageSlots (va / pageSize * pageSize) i ++ pageSlots (h.area a).va (h.area a).nPages := by
    rw [hva', hpages, pageSlots_append, hva]
  have hmem : ∀ s, s ∈ slotsOf (h'.areasOf t) ↔ s ∈ pageSlots (va / pageSize * pageSize) i ∨ s ∈ slotsOf (h.areasOf t) := by
    rw [hold, hnew]
    exact (demandOf_grown hslots hpages).1
  have hblocks : blocksOf (h'.areasOf t) = 2 * i + blocksOf (h.areasOf t) := by
    rw [hold, hnew]
    exact (demandOf_grown hslots hpages).2
  have hroots : rootSlots (slotsOf (h'.areasOf t)) = rootSlots (slotsOf (h.areasOf t)) ∪ rootSlots (pageSlots (va / pageSize * pageSize) i) := by
    apply Finset.ext
    intro j
    rw [Finset.mem_union, mem_rootSlots, mem_rootSlots, mem_rootSlots]
    constructor
    · rintro ⟨s, hs, rfl⟩
      exact ((hmem s).mp hs).symm.imp (fun h => ⟨s, h, rfl⟩) fun h => ⟨s, h, rfl⟩
    · rintro (⟨s, hs, rfl⟩ | ⟨s, hs, rfl⟩)
      · exact ⟨s, (hmem s).mpr (.inr hs), rfl⟩
      · exact ⟨s, (hmem s).mpr (.inl hs), rfl⟩
  have hsubs : (slotsOf (h'.areasOf t)).toFinset = (slotsOf (h.areasOf t)).toFinset ∪ (pageSlots (va / pageSize * pageSize) i).toFinset := by
    apply Finset.ext
    intro s
    rw [Finset.mem_union, List.mem_toFinset, List.mem_toFinset, List.mem_toFinset, hmem s, or_comm]
  refine ⟨⟨?_, ?_⟩, ?_⟩
  · rw [htt'.root]
    exact htt'.wf
  · rw [htt'.root, hroots, hsubs]
    exact htt'.tabled
  · have h1 := Finset.card_sdiff_add_card (rootSlots (pageSlots (va / pageSize * pageSize) i)) (rootSlots (slotsOf (h.areasOf t)))
    have h2 := Finset.card_sdiff_add_card (pageSlots (va / pageSize * pageSize) i).toFinset (slotsOf (h.areasOf t)).toFinset
    rw [Finset.union_comm] at h1 h2
    unfold demandOf tablesFor
    rw [hroots, hsubs, hblocks]
    omega

/-! ## the first image -/

/-- the tables after pages have been mapped -/
theorem LoadRun.rooted (h : LoadRun root cs mm mm') (hr : Rooted mm root l) : Rooted mm' root (cs.map (fun c => slotOf c.va) ++ l) := by
  induction h with
  | refl mm => exact hr
  | @page cs mm mm₁ mm₂ m c r h hlt hp hother hset hm hc ih =>
    have hr₁ := ih hr
    obtain ⟨hT, _⟩ := setPage_demand hr₁.wf hlt hr₁.tabled hset
    obtain ⟨_, _, hwf, _, _, _, hsame⟩ := mapPage_extends hr₁.wf hlt hp hset hm
    refine ⟨hwf, ?_⟩
    show Tabled m root (rootSlots (slotOf c.va :: _)) (slotOf c.va :: _).toFinset
    rw [rootSlots_cons, List.toFinset_cons]
    refine Tabled.congr hT (hsame _ table_mem_tables) fun i hi hS => hsame _ ?_
    exact subtable_mem_tables hi ((hT.one i hi).mpr hS)
  | grow h hx ih => exact (ih hr).extends hx fun _ _ => Set.notMem_empty _

/-- the calls for a segment go to the pages of its area -/
theorem Elf.Segment.slots (hs : e.Segment ph cs) (hf : ph.Fits) (s : Nat × Nat) :
    s ∈ cs.map (fun c => slotOf c.va) ↔ s ∈ pageSlots ph.area.va ph.area.nPages := by
  have hend : ph.endAddr = ph.addr + pageSize * ph.nPages := by
    have hb := hf.below
    rw [hf.endAddr, hf.nPages, Phdr.Fits.addr]
    unfold pageSize
    omega
  show _ ↔ s ∈ pageSlots ph.addr ph.nPages
  unfold pageSlots
  rw [List.mem_map, List.mem_map]
  constructor
  · rintro ⟨c, hc, rfl⟩
    obtain ⟨hdvd, h1, h2⟩ := hs.va c hc
    obtain ⟨i, hi⟩ := (Nat.dvd_sub hdvd (dvd_addr ph) : pageSize ∣ c.va - ph.addr)
    have hva : ph.addr + pageSize * i = c.va := by omega
    refine ⟨i, List.mem_range.mpr ?_, by rw [hva]⟩
    rw [hend, ← hva] at h2
    exact Nat.lt_of_mul_lt_mul_left (Nat.lt_of_add_lt_add_left h2)
  · rintro ⟨i, hi, rfl⟩
    have hlt := Nat.mul_lt_mul_of_pos_left (List.mem_range.mp hi) (show 0 < pageSize by decide)
    have hin : InRange ph.addr ph.endAddr (ph.addr + pageSize * i) := ⟨_, Nat.le_add_right _ _, by omega, rfl⟩
    obtain ⟨c, hc, hsame⟩ := (hs.covers _).mp hin
    exact ⟨c, hc, (slotOf_congr hsame).symm⟩

theorem Elf.Segments.slots {phs : List Phdr} (hs : e.Segments phs cs) (hf : ∀ ph ∈ phs, ph.Fits) (s : Nat × Nat) :
    s ∈ cs.map (fun c => slotOf c.va) ↔ s ∈ slotsOf (phs.map Phdr.area) := by
  induction phs generalizing cs with
  | nil =>
    have hnil : cs = [] := hs
    rw [hnil]
    exact Iff.rfl
  | cons ph phs ih =>
    obtain ⟨cs₁, cs₂, rfl, h1, h2⟩ := hs
    have hseg := h1.slots (hf ph List.mem_cons_self) s
    have hrest := ih h2 fun p hp => hf p (List.mem_cons_of_mem _ hp)
    unfold slotsOf at hrest ⊢
    rw [List.map_append, List.mem_append, List.map_cons, List.flatMap_cons, List.mem_append, hseg, hrest, or_comm]

/-- the table of a new image has the tables for its segments and its stack -/
theorem loadElf_fitted (ho : e.Ordered) (hin : e.LiesIn h.mm.mem) (hb : Booked h own t []) (hw : World h own q) (ht : t ∈ h.live)
    (hr : Rooted h.mm (h.task t).pageTable []) (hrun : h.loadElf t e.program = .ok (0, h')) : Fitted h' t := by
  obtain ⟨own', ns, b, hg, hb', hareas⟩ := loadElf_booked ho hin hb hw ht hrun
  obtain ⟨c, cs, hload, hsegs, hva, _, _, htask⟩ := loadElf_run hin hr.wf (fun s hs => hw.held.out _ _ _ ((hw.maps t ht).tables s hs)) rfl hrun
  have hroot : (h'.task t).pageTable = (h.task t).pageTable := by
    rw [htask]
    show (Function.update h.task t _ t).pageTable = _
    rw [Function.update_self]
  unfold Fitted
  rw [hroot]
  refine (hload.rooted hr).congr fun s => ?_
  rw [hb'.areasOf, hareas, List.append_nil, slotsOf_append, List.mem_append, List.map_cons, List.mem_cons, hva,
    hsegs.slots ho.fits s, or_comm]
  have hstack : slotsOf [stackArea b] = [slotOf (userStack - pageSize)] := by cases b <;> rfl
  rw [hstack, List.mem_singleton]

/-- what task_init_elf does after load_elf, it does to a page of the stack and to the frame of the task -/
theorem taskInitElf_loaded {argv envp : Nat} (ho : e.Ordered) (hin : e.LiesIn h.mm.mem) (hb : Booked h own t []) (hw : World h own q)
    (ht : t ∈ h.live) (hrun : h.taskInitElf t e.program argv envp = .ok (0, h')) : ∃ h₁ own₁ ns, h.loadElf t e.program = .ok (0, h₁) ∧ World h₁ own₁ q ∧ t ∈ h₁.live ∧
      Booked h₁ own₁ t ns ∧ Untouched h₁ h' own₁ own₁ t ∧ WellFormed h'.mm (h'.task t).pageTable := by
  unfold Heap.taskInitElf at hrun
  obtain ⟨_, _, hrun⟩ := Res.bind_eq_ok.mp hrun
  obtain ⟨_, _, hrun⟩ := Res.bind_eq_ok.mp hrun
  obtain ⟨⟨ret, h₁⟩, hload, hrun⟩ := Res.bind_eq_ok.mp hrun
  simp only at hrun
  by_cases h0 : ret = 0
  · rw [if_neg (not_not.mpr h0)] at hrun
    subst h0
    obtain ⟨own₁, ns, b, hg, hb₁, hareas⟩ := loadElf_booked ho hin hb hw ht hload
    have ht₁ : t ∈ h₁.live := hg.live ▸ ht
    -- the node of the stack is the last one
    obtain ⟨ns₁, l, rfl, _, hl⟩ := List.map_eq_append_iff.mp hareas
    obtain ⟨n, rfl, hstack⟩ := List.map_eq_singleton_iff.mp hl
    obtain ⟨hlast, hobj, _⟩ := hb₁.lastStack hg.world ht₁ hstack
    obtain ⟨_, p, m, v, mem, frame, hp, hmem, rfl⟩ := initArgs_spec hg.world ht₁ (hlast ▸ hobj) hrun
    obtain ⟨hw₁, hq₁⟩ := hg.world.store hp hmem
    obtain ⟨hw₂, hq₂⟩ := hw₁.assignFrame t frame
    have hq := hq₁.trans hq₂
    exact ⟨h₁, own₁, _, hload, hg.world, ht₁, hb₁, hq.untouched t ht₁, (hw₂.maps t (hq.live ▸ ht₁)).wf⟩
  · rw [if_pos h0] at hrun
    cases hrun
    exact absurd rfl h0

theorem taskInitElf_fitted {argv envp : Nat} (ho : e.Ordered) (hin : e.LiesIn h.mm.mem) (hb : Booked h own t []) (hw : World h own q)
    (ht : t ∈ h.live) (hr : Rooted h.mm (h.task t).pageTable []) (hrun : h.taskInitElf t e.program argv envp = .ok (0, h')) : Fitted h' t := by
  obtain ⟨h₁, own₁, ns, hload, hw₁, ht₁, hb₁, hu, hwf⟩ := taskInitElf_loaded ho hin hb hw ht hrun
  exact hu.fitted hb₁ hw₁ ht₁ hwf (loadElf_fitted ho hin hb hw ht hr hload)

end FakeKernel
