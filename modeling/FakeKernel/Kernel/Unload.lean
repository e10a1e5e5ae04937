import FakeKernel.Kernel.First
import FakeKernel.Mm.Frees

/-!
# Taking a loaded program away

* `TearsDown`               unset_user_pages and destroy_page_table return and free tables only;
* `Later`                   what is done with the table of a task between load_elf and the teardown;
* `Elf.Accessible`          the segment that maps a page last gives it some permission;
* `loadElf_flat_iff`        then, and only then, no entry of level 0 looks like a pointer;
* `darkImage`               an image whose only segment gives no permission.
-/

namespace FakeKernel
open Bytes Mm Kernel

variable {h h' : Heap} {own own' : Owners} {q : TaskList → List Nat} {a a' : Mm} {e : Elf} {ph : Phdr} {l : List PageCall}
  {root t n k x : Nat} {c : PageCall} {b : Bool}

/-! ## teardown -/

/-- the run is a list of acts, of which those that free a page free a table of the tree, each table once -/
def FreesTables (a : Mm) (root : Nat) (run : Res Mm) : Prop :=
  ∃ (acts : List Act) (l : List Nat), run = runActs acts a ∧ freed acts = l.map pageAt ∧ l.Nodup ∧ ∀ s ∈ l, s ∈ tables a.mem 2 root

structure TearsDown (a : Mm) (root : Nat) : Prop where
  unset : ∃ a', unsetUserPages root a = .ok a'
  destroy : ∃ a', destroyPageTable root a = .ok a'
  unsetFrees : FreesTables a root (unsetUserPages root a)
  destroyFrees : FreesTables a root (destroyPageTable root a)

theorem Whole.tearsDown (h : Whole a root) : TearsDown a root := by
  obtain ⟨htotal, _⟩ := unsetUserPages_spec h.wf h.out
  have hfrees : FreesTables a root (unsetUserPages root a) := by
    refine ⟨_, _, unsetUserPages_acts h.wf h.out h.flat, freed_unsetActs a.mem root userEntries 0,
      postorderFrom_nodup h.wf.tree (by decide), fun s hs => ?_⟩
    obtain ⟨i, hi, hs⟩ := mem_postorderFrom.mp hs
    exact mem_tables_succ.mpr (.inr ⟨i, Nat.lt_of_lt_of_le hi (by decide), hs⟩)
  have hperm := postorder_perm a.mem 2 root
  have hdestroy : FreesTables a root (destroyPageTable root a) :=
    ⟨_, _, doDestroyPageTable_frees h.wf.ok h.wf.tree h.out h.flat, freed_freeTables _, hperm.nodup_iff.mpr h.wf.tree.nodup,
      fun s hs => hperm.mem_iff.mp hs⟩
  obtain ⟨htotal', _⟩ := doDestroyPageTable_spec h.wf.ok h.wf.tree h.out
  exact ⟨htotal h.flat, htotal' h.flat, hfrees, hdestroy⟩

/-- destroy_page_table returns for flat trees only -/
theorem TearsDown.flat (h : TearsDown a root) (hw : WellFormed a root) (hout : ∀ s ∈ tables a.mem 2 root, pageAt s ∈ a.out) :
    Flat a.mem 2 root := by
  obtain ⟨a', hrun⟩ := h.destroy
  exact doDestroyPageTable_flat hw.ok hw.tree hout hrun

/-- set_page and set_page_user with a permission, unset_user_pages, and what does not concern the tree -/
inductive Later (root : Nat) (a₀ : Mm) : Mm → Prop
  | refl : Later root a₀ a₀
  | set {a a' : Mm} {va pa flags : Nat} {r : Int} (h : Later root a₀ a) (hleaf : pteIsLeaf flags = true)
      (hrun : setPage root va pa flags a = .ok (r, a') ∨ setPageUser root va pa flags a = .ok (r, a')) : Later root a₀ a'
  | unset {a a' : Mm} (h : Later root a₀ a) (hrun : unsetUserPages root a = .ok a') : Later root a₀ a'
  | other {a a' : Mm} (h : Later root a₀ a) (he : Elsewhere a a' root) : Later root a₀ a'

theorem Later.whole {a₀ : Mm} (h : Later root a₀ a) (hwhole : Whole a₀ root) : Whole a root := by
  induction h with
  | refl => exact hwhole
  | set _ hleaf hrun ih => exact ih.setUser hleaf hrun
  | unset _ hrun ih => exact ih.unset hrun
  | other _ he ih => exact ih.elsewhere he

/-- the table of a task whose lists are complete -/
theorem Complete.whole (hc : Complete h own t) (hw : World h own q) (ht : t ∈ h.live) :
    Whole h.mm (h.task t).pageTable := by
  have hM := hw.maps t ht
  exact ⟨hM.wf, fun s hs => hw.held.out _ _ _ (hM.tables s hs), hc.flat⟩

/-! ## the entries that load_elf writes -/

/-- the segment that maps a page last gives it some permission, if it is not the page of the stack -/
def Elf.Accessible (e : Elf) : Prop :=
  ∀ l ph l' x, e.loaded = l ++ ph :: l' → ph.Covers x → (∀ q ∈ l', ¬ q.Covers x) →
    ¬ SamePage 0 x (userStack - pageSize) → ¬ ph.NoAccess

/-- a page of a segment without permissions looks like a pointer -/
theorem Elf.Segment.deep_iff (hs : e.Segment ph l) (hc : c ∈ l) :
    pteIsLeaf c.flags = false ∧ c.flags &&& pteValid ≠ 0 ↔ ph.NoAccess := by
  rw [hs.flags c hc, noAccess_iff]
  exact ⟨And.left, fun hleaf => ⟨hleaf, ph.pteFlags_valid⟩⟩

theorem loadElf_deep (hin : e.LiesIn h.mm.mem) (hh : Whole h.mm root) (ht : (h.task t).pageTable = root)
    (hrun : h.loadElf t e.program = .ok (0, h')) (x : Nat) :
    Deep h'.mm.mem 2 root x ↔ ¬ SamePage 0 x (userStack - pageSize) ∧ ∃ l ph l', e.loaded = l ++ ph :: l' ∧
      ph.Covers x ∧ (∀ q ∈ l', ¬ q.Covers x) ∧ ph.NoAccess := by
  obtain ⟨c, l, hr, hl, hva, _, hleaf, _⟩ := loadElf_run hin hh.wf hh.out ht hrun
  rw [hr.deep hh.wf x, lastCall_cons, hva]
  by_cases hx : SamePage 0 x (userStack - pageSize)
  · rw [if_pos hx]
    show pteIsLeaf c.flags = false ∧ c.flags &&& pteValid ≠ 0 ↔ _
    rw [hleaf]
    exact iff_of_false (fun hd => nomatch hd.1) fun hd => hd.1 hx
  · rw [if_neg hx]
    by_cases hcov : ∃ ph ∈ e.loaded, ph.Covers x
    · obtain ⟨l₁, ph, l₂, hload, hph, hlast⟩ := exists_last_cover hcov
      have hl' := hl
      rw [hload] at hl'
      obtain ⟨c', lc, hcall, hseg, hc'⟩ := hl'.lastCall_of hph hlast
      rw [hcall]
      show pteIsLeaf c'.flags = false ∧ c'.flags &&& pteValid ≠ 0 ↔ _
      rw [hseg.deep_iff hc']
      refine ⟨fun hno => ⟨hx, l₁, ph, l₂, hload, hph, hlast, hno⟩, fun ⟨_, l₃, ph', l₄, hload', hph', hlast', hno⟩ => ?_⟩
      have hl'' := hl
      rw [hload'] at hl''
      obtain ⟨c'', lc', hcall', hseg', hc''⟩ := hl''.lastCall_of hph' hlast'
      have hsame : c'' = c' := Option.some.inj (hcall'.symm.trans hcall)
      rw [hsame] at hc''
      rwa [← hseg.deep_iff hc', hseg'.deep_iff hc'']
    · have hnone : lastCall l x = none := hl.lastCall_none.mpr fun q hq hqx => hcov ⟨q, hq, hqx⟩
      rw [hnone]
      refine iff_of_false (flat_iff.mp hh.flat x) fun ⟨_, l₁, ph, l₂, hload, hph, _⟩ => ?_
      refine hcov ⟨ph, ?_, hph⟩
      rw [hload]
      exact List.mem_append_right _ List.mem_cons_self

theorem loadElf_flat_iff (hin : e.LiesIn h.mm.mem) (hh : Whole h.mm root) (ht : (h.task t).pageTable = root)
    (hrun : h.loadElf t e.program = .ok (0, h')) : Flat h'.mm.mem 2 root ↔ e.Accessible := by
  rw [flat_iff]
  constructor
  · intro hflat l ph l' x hload hph hlast hx hno
    exact hflat x ((loadElf_deep hin hh ht hrun x).mpr ⟨hx, l, ph, l', hload, hph, hlast, hno⟩)
  · intro hacc x hdeep
    obtain ⟨hx, l, ph, l', hload, hph, hlast, hno⟩ := (loadElf_deep hin hh ht hrun x).mp hdeep
    exact hacc l ph l' x hload hph hlast hx hno

theorem loadElf_whole (hin : e.LiesIn h.mm.mem) (hh : Whole h.mm root) (ht : (h.task t).pageTable = root)
    (hrun : h.loadElf t e.program = .ok (0, h')) :
    WellFormed h'.mm root ∧ ∀ s ∈ tables h'.mm.mem 2 root, pageAt s ∈ h'.mm.out := by
  obtain ⟨c, l, hr, _⟩ := loadElf_run hin hh.wf hh.out ht hrun
  exact ⟨(hr.inv hh.wf).1, hr.out hh.wf hh.out⟩

/-- **Loading and taking away.**  After load_elf has returned 0 for an image that lies outside of the allocator's pages,
every later teardown of the table goes through, and frees tables of the tree only, exactly if each page that a segment
maps has a permission. -/
theorem load_elf_torn_down (hin : e.LiesIn h.mm.mem) (hh : Whole h.mm root) (ht : (h.task t).pageTable = root)
    (hrun : h.loadElf t e.program = .ok (0, h')) : (∀ a, Later root h'.mm a → TearsDown a root) ↔ e.Accessible := by
  obtain ⟨hw, hout⟩ := loadElf_whole hin hh ht hrun
  rw [← loadElf_flat_iff hin hh ht hrun]
  exact ⟨fun hall => (hall h'.mm .refl).flat hw hout, fun hflat a hl => (hl.whole ⟨hw, hout, hflat⟩).tearsDown⟩

/-! ## a segment without permissions -/

/-- the first area of a task, and its pages -/
theorem loadSegment_chained {program : Nat} (hc : Chained h own t []) (hw : World h own q) (ht : t ∈ h.live)
    (hrun : h.loadSegment t program ph = .ok h') : ∃ own' n, Grown q t h own h' own' ∧ Chained h' own' t [n] ∧
      h'.areaOf n = ph.area := by
  obtain ⟨own₁, n, a, h₁, hat, hpages⟩ := loadSegment_turn hw ht hrun
  have hc₁ : Chained h₁ own₁ t ([] ++ [n]) := hc.addArea hw ht hat fun hq hn => hat.added.queue [] hq hn nofun
  have ht₁ : t ∈ h₁.live := hat.grown.live ▸ ht
  obtain ⟨own', _, hg, ⟨hw', hc', hobj, harea⟩, _⟩ := loadPages_rule
    (I := fun _ h own => World h own q ∧ Chained h own t [n] ∧ own.Obj a t (.area n) ∧ h.area a = ph.area)
    (pteFlags_lt ph) ph.pteFlags_user
    (fun {addr h own h' own' p m} hI _ hpt hsame => by
      obtain ⟨hw, hc, ha, harea⟩ := hI
      exact ⟨hpt.grown.world, hc.addPage hw hpt ha, hpt.grown.mono.obj ha rfl, hsame.trans harea⟩)
    ⟨hat.grown.world, hc₁, hat.obj.1, hat.area⟩ hat.grown.world ht₁ rfl hat.obj.1 hpages
  have hvalue : (h'.node n).value = a := (((hw'.areas t (hg.live ▸ ht₁)).area n a).mp hobj).2
  refine ⟨own', n, hat.grown.trans hg, hc', ?_⟩
  unfold Heap.areaOf
  rw [hvalue, harea]

/-- one segment of one page, whatever its permissions -/
theorem loadElf_single (ho : e.OneSegment b) (hin : e.LiesIn h.mm.mem) (hva : (e.phdr 0).addr ≤ stackBegin)
    (hsize : (e.phdr 0).endAddr ≤ (e.phdr 0).addr + pageSize) (hc : Chained h own t []) (hw : World h own q) (ht : t ∈ h.live)
    (hr : h.mm.Room (k + 12)) : ∃ h', h.loadElf t e.program = .ok (0, h') := by
  have hlt : (e.phdr 0).addr + pageSize < wordCount := by
    have h1 : stackBegin + pageSize < wordCount := by decide
    omega
  obtain ⟨h₁, hseg, hr₁⟩ : ∃ h₁, h.loadSegment t e.program (e.phdr 0) = .ok h₁ ∧ h₁.mm.Room (k + 6) :=
    loadSegment_room hr (hw.maps t ht).wf (hc.vm.walkable hw ht).1 nofun (by decide) nofun hlt hsize
  obtain ⟨own₁, n, hg, hc₁, hn⟩ := loadSegment_chained hc hw ht hseg
  obtain ⟨h₂, hstack, _⟩ := loadStack_room (b := b) hc₁.vm hg.world (hg.live ▸ ht) hr₁ fun x hx => by
    rw [List.mem_singleton.mp hx, hn]
    exact hva
  exact ⟨h₂, loadElf_of_one ho hin (hin.step hw hg) hseg hstack⟩

/-- a task is created at boot with the image in memory, and load_elf returns 0 -/
theorem boot_loads (ho : e.OneSegment b) (hp : e.Placed) (hva : (e.phdr 0).addr ≤ stackBegin)
    (hsize : (e.phdr 0).endAddr ≤ (e.phdr 0).addr + pageSize) :
    ∃ t h h' root, (bootKernel e).heap.taskCreate 0 = .ok (t, h) ∧ e.LiesIn h.mm.mem ∧ Whole h.mm root ∧
      (h.task t).pageTable = root ∧ h.loadElf t program = .ok (0, h') := by
  have hroom : (bootKernel e).heap.mm.Room (762 + 4) := (bootMm_start e).room
  have hblank := bootKernel_blank e
  obtain ⟨⟨t, h⟩, hcreate, _⟩ := taskCreate_room hroom.free 0
  obtain ⟨own, n, stack, root, ha⟩ := taskCreate_added hblank.world Nat.one_pos hcreate
  have hr : h.mm.Room (750 + 12) := hroom.step ha.mm (Nat.le_of_eq rfl)
  have hb := ha.booked hblank.world.held
  have hlive : h.live = [t] := ha.live
  have ht : t ∈ h.live := by
    rw [hlive]
    exact List.mem_singleton_self t
  have hlow : LowAsBooted e h.mm.mem := (boot_lowAsBooted e).extends ha.mm nofun
  obtain ⟨h', hload⟩ := loadElf_single ho (hlow.image hp) hva hsize ⟨hb.vm, hb.complete.pages⟩ ha.world ht hr
  rw [hp.place] at hload
  exact ⟨t, h, h', _, hcreate, hlow.image hp, hb.complete.whole ha.world ht, rfl, hload⟩

/-- one PT_LOAD segment at 0x10000, of eight bytes, without permissions -/
def darkImage : Elf where
  program := program
  mem := fun x => if x = program + 68 then 0 else initImage.mem x

def darkPhdr : Phdr := { initPhdr with pFlags := 0 }

theorem darkImage_phdr : darkImage.phdr 0 = darkPhdr := by decide

theorem darkImage_oneSegment : darkImage.OneSegment false :=
  ⟨by decide, by decide, .inl ⟨by decide, rfl⟩⟩

theorem darkImage_loaded : darkImage.loaded = [darkPhdr] := by
  rw [darkImage_oneSegment.loaded, darkImage_phdr]

theorem darkImage_placed : darkImage.Placed :=
  ⟨rfl, darkImage_oneSegment.bytes_within (by decide) (by decide) (by decide) (by decide) (by decide)⟩

theorem darkImage_loads : ∃ t h h' root, (bootKernel darkImage).heap.taskCreate 0 = .ok (t, h) ∧ darkImage.LiesIn h.mm.mem ∧
    Whole h.mm root ∧ (h.task t).pageTable = root ∧ h.loadElf t darkImage.program = .ok (0, h') :=
  boot_loads darkImage_oneSegment darkImage_placed (by rw [darkImage_phdr]; decide) (by rw [darkImage_phdr]; decide)

/-- the page at 0x10000 has no permission -/
theorem darkImage_not_accessible : ¬ darkImage.Accessible := by
  have hcov : darkPhdr.Covers 0x10000 := ⟨0x10000, by decide, by decide, rfl⟩
  have hnot : ¬ SamePage 0 0x10000 (userStack - pageSize) := by
    unfold SamePage
    decide
  exact fun hacc => hacc [] darkPhdr [] 0x10000 darkImage_loaded hcov nofun hnot (by unfold Phdr.NoAccess; decide)

/-- exit of a task that was loaded from that image panics -/
theorem darkImage_not_torn_down : ∃ t h h' root, (bootKernel darkImage).heap.taskCreate 0 = .ok (t, h) ∧
    darkImage.LiesIn h.mm.mem ∧ (h.task t).pageTable = root ∧ h.loadElf t darkImage.program = .ok (0, h') ∧
    (∀ ph ∈ darkImage.loaded, ph.endAddr ≤ splitAddr) ∧
    (∀ a', destroyPageTable root h'.mm ≠ .ok a') ∧ ¬ ∀ a, Later root h'.mm a → TearsDown a root := by
  obtain ⟨t, h, h', root, hcreate, hin, hh, ht, hrun⟩ := darkImage_loads
  obtain ⟨hw, hout⟩ := loadElf_whole hin hh ht hrun
  have hflat : ¬ Flat h'.mm.mem 2 root := fun hf => darkImage_not_accessible ((loadElf_flat_iff hin hh ht hrun).mp hf)
  have hlow : ∀ ph ∈ darkImage.loaded, ph.endAddr ≤ splitAddr := by
    rw [darkImage_loaded, List.forall_mem_singleton]
    decide
  refine ⟨t, h, h', root, hcreate, hin, ht, hrun, hlow, fun a' hdestroy => ?_, fun hall => ?_⟩
  · exact hflat (doDestroyPageTable_flat hw.ok hw.tree hout hdestroy)
  · exact hflat ((hall h'.mm .refl).flat hw hout)

/-- the theorem at that image: both sides are false -/
theorem load_elf_torn_down_dark : ∃ t h h' root, (bootKernel darkImage).heap.taskCreate 0 = .ok (t, h) ∧
    h.loadElf t darkImage.program = .ok (0, h') ∧ ((∀ a, Later root h'.mm a → TearsDown a root) ↔ darkImage.Accessible) := by
  obtain ⟨t, h, h', root, hcreate, hin, hh, ht, hrun⟩ := darkImage_loads
  exact ⟨t, h, h', root, hcreate, hrun, load_elf_torn_down hin hh ht hrun⟩

end FakeKernel
