import FakeKernel.Kernel.Layout

/-!
# Kernel functions that return

While there is room for the blocks that a function takes, and the areas of the task are in order, the
functions that create tasks and areas return.

* `taskCreate_room`, `loadStack_room`, `StackReady.initArgs`   a task is created and its image loaded;
* `growStack_room`                                     the stack grows by a page.
-/

namespace FakeKernel
open Bytes Mm Heap

variable {h h' : Heap} {own own' : Owners} {q : TaskList → List Nat} {t n a m p va flags k program : Nat}
  {ns : List Nat} {e : Elf}

/-- a sequence of steps returns if the first does and the rest does with what the first returned -/
theorem Res.bind_returns {α β γ : Type} {x : Res (α × β)} {f : α × β → Res γ} {P : γ → Prop}
    (hx : ∃ a b, x = .ok (a, b)) (hf : ∀ a b, x = .ok (a, b) → ∃ c, f (a, b) = .ok c ∧ P c) :
    ∃ c, (x >>= f) = .ok c ∧ P c := by
  obtain ⟨a, b, hab⟩ := hx
  obtain ⟨c, hc, hP⟩ := hf a b hab
  exact ⟨c, Res.bind_eq_ok.mpr ⟨(a, b), hab, hc⟩, hP⟩

/-! ## task_create -/

theorem taskInitSched_room (hr : h.mm.Free (k + 1)) : ∃ ret h', h.taskInitSched t = .ok (ret, h') := by
  have hr₁ : ((h.listInit (.vmAreas t)).setTask t
      { (h.listInit (.vmAreas t)).task t with mode := .supervisor, kernelFrame := .taskEntry }).mm.Free (k + 1) := hr
  obtain ⟨n, h₁, hnode⟩ := listNodeCreate_room hr₁ t
  unfold Heap.taskInitSched
  simp only [hnode, Res.ok_bind]
  by_cases h0 : n = 0
  · simp only [h0, if_true]
    exact ⟨_, _, rfl⟩
  · simp only [h0, if_false]
    exact ⟨_, _, rfl⟩

theorem createPageTable_room (hr : h.mm.Free (k + 1)) : ∃ root h', h.createPageTable = .ok (root, h') := by
  obtain ⟨root, mm, hrun⟩ := hr.createPageTable
  refine ⟨root, { h with mm := mm }, ?_⟩
  unfold Heap.createPageTable
  rw [hrun, Res.ok_bind]

/-- a task takes four blocks: its struct, its kernel stack, its root table and its sched node -/
theorem taskCreate_room (hr : h.mm.Free (k + 4)) (parent : Nat) :
    ∃ r, h.taskCreate parent = .ok r ∧ r.2.mm.Free k := by
  unfold Heap.taskCreate
  refine Res.bind_returns (kmalloc_room (k := k + 3) hr (by decide)) fun t h₁ htask => ?_
  obtain ⟨mm₁, hh₁, h4, hx₁, _⟩ := kmalloc_spec hr.ok (by decide) htask
  have hr₁ : h₁.mm.Free (k + 2 + 1) := by
    rw [hh₁]
    exact (hr.mono (Nat.le_of_eq (Nat.add_comm 1 (k + 3)))).step hx₁
  have ht0 : t ≠ 0 := by omega
  simp only [ht0, if_false]
  refine Res.bind_returns (allocPage_room (k := k + 2) hr₁) fun stack h₂ hstack => ?_
  obtain ⟨mm₂, hh₂, hs0, hx₂⟩ := allocPage_spec (by exact hr₁.ok) hstack
  have hr₂ : h₂.mm.Free (k + 1 + 1) := by
    rw [hh₂]
    exact (hr₁.mono (Nat.le_of_eq (Nat.add_comm 1 (k + 2)))).step hx₂
  simp only [hs0, if_false]
  refine Res.bind_returns (createPageTable_room (k := k + 1) hr₂) fun root h₃ htable => ?_
  obtain ⟨mm₃, hh₃, htable⟩ := Heap.createPageTable_heap htable
  obtain ⟨hx₃, _, _, _⟩ := createPageTable_spec (by exact hr₂.ok) htable
  have hr₃ : h₃.mm.Free (k + 1) := by
    rw [hh₃]
    exact (hr₂.mono (Nat.le_of_eq (Nat.add_comm 1 (k + 1)))).step hx₃
  have hroot0 : root ≠ 0 := hx₃.new_ne_zero (List.mem_singleton_self _)
  simp only [hroot0, if_false]
  refine Res.bind_returns (taskInitSched_room (k := k) hr₃) fun ret h₄ hsched => ?_
  obtain ⟨rfl, mm₄, n, hx₄, _, _, hh₄⟩ := taskInitSched_spec (by exact hr₃.ok) hsched
  refine ⟨_, rfl, ?_⟩
  show h₄.mm.Free k
  rw [hh₄]
  exact (hr₃.mono (Nat.le_of_eq (Nat.add_comm 1 k))).step hx₄

/-! ## load_elf -/

/-- what vm_add_area follows -/
theorem Lists.Exactly.walkable (hvm : h.lists.Exactly own t .vnode (.vmAreas t) ns) (hw : World h own q)
    (ht : t ∈ h.live) :
    Chain (fun x => (h.node x).next) 0 (h.lists.list (.vmAreas t)).first ns ∧ ns.length < wordCount ∧
      ∀ x ∈ ns, h.mm.KeptPage (x - 4) ∧ h.mm.KeptPage ((h.node x).value - 4) := by
  refine ⟨hvm.queue.chain, hvm.length_lt hw.held, fun x hx => ?_⟩
  have hobj := (hvm.mem x).mp hx
  have harea := ((hw.areas t ht).area x (h.node x).value).mpr ⟨hobj, rfl⟩
  exact ⟨hw.held.kept hobj.page, hw.held.kept harea.page⟩

/-- the stack takes six blocks: its page, its area, two nodes and two tables -/
theorem newStack_room {b : Bool} (hwf : WellFormed h.mm (h.task t).pageTable) (hr : h.mm.Room (k + 6))
    (hc : Chain (fun x => (h.node x).next) 0 (h.lists.list (.vmAreas t)).first ns) (hlen : ns.length < wordCount)
    (hkept : ∀ x ∈ ns, h.mm.KeptPage (x - 4) ∧ h.mm.KeptPage ((h.node x).value - 4))
    (hlow : ∀ x ∈ ns, (h.areaOf x).va ≤ stackBegin) :
    ∃ h', h.loadStack t program b = .ok h' ∧ h'.mm.Room k ∧
      h'.task = (h.setFrame t (startFrame (h'.image program).eEntry)).task := by
  unfold Heap.loadStack
  refine Res.bind_returns (allocPage_room (k := k + 5) hr.free) fun p h₁ halloc => ?_
  obtain ⟨mm₁, hh₁, hp0, hx₁⟩ := allocPage_spec hr.ok halloc
  have hp : p ∈ [p] := List.mem_singleton_self p
  simp only [hp0, if_false]
  obtain ⟨mm₂, hclear, hx₂⟩ := Heap.clearPage_spec h₁ (by rw [hh₁]; exact hx₁) hp
  obtain ⟨h₂, hh₂⟩ : ∃ h₂ : Heap, h₂ = { h with mm := mm₂ } := ⟨_, rfl⟩
  have hclear : h₁.clearPage p = h₂ := by rw [hclear, hh₂, hh₁]
  have hr₂ : h₂.mm.Room (k + 3 + 2) := by
    rw [hh₂]
    exact hr.step hx₂ (Nat.le_of_eq (Nat.add_comm 1 (k + 5)))
  have hx₂ : Extends h.mm h₂.mm ∅ [p] := by
    rw [hh₂]
    exact hx₂
  rw [hclear]
  obtain ⟨a, h₃, h₄, N, hcreate, hadd, hr₄, hx₄, htask₄⟩ := newArea_room (h := h₂) (k := k + 3) (t := t)
    hr₂ (show pageSize ∣ stackBegin by decide) (by rw [hh₂]; exact hc) (by rw [hh₂]; exact hlow) hlen
    (fun x hx => by
      have hv : (h₂.node x).value = (h.node x).value := by rw [hh₂]; rfl
      rw [hv]
      exact ⟨hx₂.keptPage (hkept x hx).1, hx₂.keptPage (hkept x hx).2⟩)
  have hwf₄ : WellFormed h₄.mm (h.task t).pageTable :=
    ((hwf.extends hx₂ fun _ _ => nofun).1.extends hx₄ fun _ _ => nofun).1
  have hkept₄ : h₄.mm.KeptPage p := hx₄.keptPage (hx₂.new_kept hp)
  have hbegin : userStack - pageSize = stackBegin := rfl
  have hflags : vmRead ||| vmWrite ||| vmStack ||| (if b then vmExec else 0) = stackVmFlags b := rfl
  rw [hbegin, hflags]
  refine Res.bind_returns ⟨_, _, hcreate⟩ fun _ _ hcreate' => ?_
  cases hcreate.symm.trans hcreate'
  refine Res.bind_returns ⟨_, _, hadd⟩ fun _ _ hadd' => ?_
  cases hadd.symm.trans hadd'
  simp only [ne_eq, not_true_eq_false, if_false]
  refine Res.bind_returns (vmAreaAddPage_room (k := k + 2) hr₄.free a p) fun err h₅ hpage => ?_
  obtain ⟨rfl, mm₅, m, hh₅, _, hx₅, _⟩ := vmAreaAddPage_spec hr₄.ok hpage
  have hmm₅ : h₅.mm = mm₅ := by
    rw [hh₅]
    rfl
  have hr₅ : h₅.mm.Room (k + 2) := by
    rw [hmm₅]
    exact hr₄.step hx₅ (Nat.le_of_eq (Nat.add_comm 1 (k + 2)))
  rw [← hmm₅] at hx₅
  have hwf₅ := (hwf₄.extends hx₅ fun _ _ => nofun).1
  have hf : (pteValid ||| pteUser ||| pteRead ||| pteWrite ||| (if b then pteExec else 0)) ||| pteUser < 2 ^ 8 := by
    cases b <;> decide
  simp only [not_true_eq_false, if_false]
  obtain ⟨mm₆, hmap, hr₆, _⟩ := mapPage_room hr₅ hwf₅ hf (show pageSize ∣ stackBegin by decide)
    (off_PA (hx₂.new_usable hp) (hx₂.new_page hp))
  have hset : h₅.setPageUser (h.task t).pageTable stackBegin (PA p)
      (pteValid ||| pteUser ||| pteRead ||| pteWrite ||| (if b then pteExec else 0)) = .ok (0, { h₅ with mm := mm₆ }) := by
    unfold Heap.setPageUser FakeKernel.setPageUser
    rw [hmap, Res.ok_bind]
  refine Res.bind_returns ⟨_, _, hset⟩ fun _ _ hset' => ?_
  cases hset.symm.trans hset'
  have htask₅ : h₅.task = h.task := by
    rw [hh₅]
    show h₄.task = h.task
    rw [htask₄, hh₂]
  refine ⟨_, rfl, hr₆, ?_⟩
  show Function.update h₅.task t { h₅.task t with userFrame := _ } = Function.update h.task t { h.task t with userFrame := _ }
  rw [htask₅]
  rfl

theorem loadStack_room {b : Bool} (hvm : h.lists.Exactly own t .vnode (.vmAreas t) ns) (hw : World h own q) (ht : t ∈ h.live)
    (hr : h.mm.Room (k + 6)) (hlow : ∀ x ∈ ns, (h.areaOf x).va ≤ stackBegin) :
    ∃ h', h.loadStack t program b = .ok h' ∧ h'.mm.Room k ∧
      h'.task = (h.setFrame t (startFrame (h'.image program).eEntry)).task := by
  obtain ⟨hc, hlen, hkept⟩ := hvm.walkable hw ht
  exact newStack_room (hw.maps t ht).wf hr hc hlen hkept hlow

theorem Untouched.mapOf (hu : Untouched h h' own own' t) (hM : Maps h.mm own t (h.task t).pageTable) (x : Nat) :
    mapOf h' (h.task t).pageTable x = mapOf h (h.task t).pageTable x :=
  walk_congr fun s hs _ hi => entry_congr hi fun y h1 h2 => hu.mem s (hM.tables s hs) y ⟨h1, h2⟩

/-- user code can read and write the page below `USERSTACK` -/
def Heap.StackOpen (h : Heap) (t : Nat) : Prop :=
  ∃ p b, ∀ x, SamePage 0 x stackBegin →
    mapOf h (h.task t).pageTable x = some ⟨PA p % 2 ^ 56 + x % 2 ^ 12, stackPteFlags b ||| pteUser⟩

theorem Untouched.stackOpen (hu : Untouched h h' own own' t) (hM : Maps h.mm own t (h.task t).pageTable)
    (ho : h.StackOpen t) : h'.StackOpen t := by
  obtain ⟨p, b, hp⟩ := ho
  refine ⟨p, b, fun x hx => ?_⟩
  rw [hu.task.2.2.1, hu.mapOf hM]
  exact hp x hx

theorem loadStack_open {b : Bool} (hw : WellFormed h.mm (h.task t).pageTable) (hrun : h.loadStack t program b = .ok h')
    (htask : (h'.task t).pageTable = (h.task t).pageTable) : h'.StackOpen t := by
  obtain ⟨c, hr, hva, _, hflags, _⟩ := loadStack_run hw (.refl h.mm) rfl hrun
  refine ⟨c.page, b, fun x hx => ?_⟩
  have hsame : SamePage 0 x c.va := by
    rw [hva]
    exact hx
  rw [htask]
  show walk h'.mm.mem 2 _ x = _
  rw [hr.walk hw, lastCall_cons, if_pos hsame]
  show setLeaf 0 (PA c.page) c.flags x = _
  rw [hflags]
  cases b <;> rfl

/-- an image with one segment; behind its program header there may be that of the stack -/
structure Elf.OneSegment (e : Elf) (execstack : Bool) : Prop where
  machine : e.eMachine = EM_RISCV
  type : (e.phdr 0).pType = PT_LOAD
  rest : e.ePhnum = 1 ∧ execstack = false ∨
    e.ePhnum = 2 ∧ (e.phdr 1).pType = PT_GNU_STACK ∧ execstack = ((e.phdr 1).pFlags &&& PF_X != 0)

/-- the segment has one page -/
structure Elf.OnePage (e : Elf) (execstack : Bool) : Prop extends e.OneSegment execstack where
  fits : (e.phdr 0).Fits
  size : (e.phdr 0).endAddr ≤ (e.phdr 0).addr + pageSize

variable {b : Bool}

theorem Elf.OneSegment.loaded (ho : e.OneSegment b) : e.loaded = [e.phdr 0] := by
  unfold Elf.loaded
  cases ho.rest with
  | inl hone =>
    rw [hone.1]
    unfold Elf.loadedFrom
    simp only [ho.type, if_true]
    rfl
  | inr htwo =>
    obtain ⟨hnum, hstack, _⟩ := htwo
    rw [hnum]
    unfold Elf.loadedFrom
    simp only [ho.type, if_true]
    unfold Elf.loadedFrom
    simp only [hstack]
    rfl

theorem Elf.OnePage.ordered (ho : e.OnePage b) : e.Ordered := by
  refine ⟨fun ph hph => ?_, ?_⟩
  · rw [ho.loaded, List.mem_singleton] at hph
    rw [hph]
    exact ho.fits
  · rw [ho.loaded]
    exact List.pairwise_singleton _ _

/-- such an image lies below `top` if its headers and its file part do -/
theorem Elf.OneSegment.bytes_within {top : Nat} (ho : e.OneSegment b) (htop : top ≤ wordCount) (hheader : e.program + 64 ≤ top)
    (h0 : e.program ≤ e.phdrAddr 0 ∧ e.phdrAddr 0 + 56 ≤ top) (h1 : e.program ≤ e.phdrAddr 1 ∧ e.phdrAddr 1 + 56 ≤ top)
    (hfile : e.program ≤ e.src (e.phdr 0) ∧ e.src (e.phdr 0) + max 1 (e.phdr 0).pFilesz ≤ top) :
    ∀ x ∈ e.bytes, e.program ≤ x ∧ x < top := by
  refine fun x hx => Elf.bytes_within htop hheader (fun i hi => ?_) (fun ph hp => ?_) hx
  · have hrest := ho.rest
    obtain rfl | rfl : i = 0 ∨ i = 1 := by omega
    · exact h0
    · exact h1
  · rw [ho.loaded, List.mem_singleton] at hp
    rw [hp]
    exact hfile

/-- load_elf for an image with one segment -/
theorem loadElf_of_one {h₁ h₂ : Heap} (ho : e.OneSegment b) (hin : e.LiesIn h.mm.mem) (hin' : e.LiesIn h₁.mm.mem)
    (hseg : h.loadSegment t e.program (e.phdr 0) = .ok h₁) (hstack : h₁.loadStack t e.program b = .ok h₂) :
    h.loadElf t e.program = .ok (0, h₂) := by
  have hpos : 0 < e.ePhnum := by
    have hrest := ho.rest
    omega
  have hsegs : h.loadSegments t e.program wordCount 0 false = .ok (.ok b, h₁) := by
    show h.loadSegments t e.program (wordCount - 3 + 1 + 1 + 1) 0 false = _
    rw [hin.loadSegments, if_pos hpos, if_pos ho.type, hseg, Res.ok_bind, hin'.loadSegments]
    cases ho.rest with
    | inl hone =>
      rw [hone.1, hone.2]
      rfl
    | inr htwo =>
      obtain ⟨hnum, htype, hb⟩ := htwo
      rw [hnum, if_pos (by decide), htype, if_neg (by decide), if_neg (by decide), if_pos rfl, hin'.loadSegments, hnum, ← hb]
      rfl
  unfold Heap.loadElf
  rw [hin.eMachine, if_neg (not_not.mpr ho.machine), hsegs, Res.ok_bind]
  exact Res.bind_eq_ok.mpr ⟨h₂, hstack, rfl⟩

theorem loadElf_room (ho : e.OnePage b) (hin : e.LiesIn h.mm.mem) (hb : Booked h own t []) (hw : World h own q) (ht : t ∈ h.live)
    (hr : h.mm.Room (k + 12)) : ∃ h' own' n n', h.loadElf t e.program = .ok (0, h') ∧ h'.mm.Room k ∧
      Grown q t h own h' own' ∧ Booked h' own' t ([n] ++ [n']) ∧ h'.areaOf n = (e.phdr 0).area ∧
      h'.areaOf n' = stackArea b ∧ h'.StackOpen t ∧ h'.task = (h.setFrame t (startFrame e.eEntry)).task := by
  have hstop := ho.fits.stop
  have hva : (e.phdr 0).addr ≤ stackBegin := Nat.le_trans (Nat.le_add_right _ _) hstop
  have hlt : (e.phdr 0).addr + pageSize < wordCount := by
    have h1 : stackBegin + pageSize < wordCount := by decide
    omega
  obtain ⟨h₁, hseg, hr₁⟩ := loadSegment_room (k := k + 6) hr
    (hw.maps t ht).wf (hb.vm.walkable hw ht).1 nofun (by decide) nofun hlt ho.size
  obtain ⟨own₁, n, hg, hb₁, hn, _⟩ := loadSegment_booked hb hw ht ho.fits nofun hseg
  have ht₁ : t ∈ h₁.live := hg.live ▸ ht
  have hin₁ : e.LiesIn h₁.mm.mem := hin.step hw hg
  have harea : ∀ x ∈ [n], h₁.areaOf x = (e.phdr 0).area := by
    intro x hx
    rw [List.mem_singleton.mp hx, hn]
  obtain ⟨h₂, hstack, hr₂, htask₂⟩ := loadStack_room (b := b) hb₁.vm hg.world ht₁ hr₁ fun x hx => by
    rw [harea x hx]
    exact hva
  obtain ⟨own₂, n', hg₂, hb₂, hn', hold⟩ := loadStack_booked hb₁ hg.world ht₁ (fun x hx => by
    rw [harea x hx]
    exact hstop) hstack
  refine ⟨h₂, own₂, n, n', loadElf_of_one ho.toOneSegment hin hin₁ hseg hstack, hr₂, hg.trans hg₂, hb₂, ?_, hn',
    loadStack_open (hg.world.maps t ht₁).wf hstack (hg₂.pageTable ht₁), ?_⟩
  · rw [hold n (List.mem_singleton_self n), hn]
  · have hph : e.phdr 0 ∈ e.loaded := by
      rw [ho.loaded]
      exact List.mem_singleton_self _
    have hM := hw.maps t ht
    have htask₁ : h₁.task = h.task :=
      (loadSegment_run hin hph hM.wf (fun s hs => hw.held.out _ _ _ (hM.tables s hs)) (.refl _) rfl hseg).1
    rw [htask₂, (hin₁.step hg.world hg₂).eEntry]
    show Function.update h₁.task t { h₁.task t with userFrame := startFrame e.eEntry } = Function.update h.task t _
    rw [htask₁]

/-! ## arguments -/

/-- the last area is the stack, and it has one page -/
theorem Booked.lastStack {b : Bool} (hb : Booked h own t (ns ++ [n])) (hw : World h own q) (ht : t ∈ h.live)
    (hx : h.areaOf n = stackArea b) : (h.lists.list (.vmAreas t)).last = n ∧ own.Obj n t .vnode ∧ ∃ m,
      h.lists.list (.pages (h.node n).value) = { first := m, last := m } ∧ m ≠ 0 := by
  have hin : n ∈ ns ++ [n] := List.mem_append_right _ (List.mem_singleton_self n)
  have hobj := (hb.vm.mem n).mp hin
  have harea := ((hw.areas t ht).area n (h.node n).value).mpr ⟨hobj, rfl⟩
  obtain ⟨ms, page, ha⟩ := hb.areaAgrees hw ht harea (hb.below n hin)
  have hlen := ha.length
  have hpages : (h.area (h.node n).value).nPages = 1 := congrArg VmArea.nPages hx
  rw [hpages] at hlen
  obtain ⟨m, rfl⟩ := List.length_eq_one_iff.mp hlen
  refine ⟨?_, hobj, m, ?_, ha.queue.chain.2.1⟩
  · rw [hb.vm.queue.last, List.getLast?_concat]
    rfl
  · have h1 : (h.lists.list (.pages (h.node n).value)).first = m := ha.queue.chain.1
    have h2 : (h.lists.list (.pages (h.node n).value)).last = m := ha.queue.last
    rw [← h1] at h2 ⊢
    exact congrArg₂ KList.mk rfl h2

/-- the page that task_init_elf takes for the one of the stack -/
def Heap.lastPage (h : Heap) (t : Nat) : Nat :=
  (h.node (h.lists.list (.pages (h.node (h.lists.list (.vmAreas t)).last).value)).first).value

/-- what task_init_elf asserts of the last area: it is a stack, and it has one page -/
structure Heap.StackReady (h : Heap) (t : Nat) : Prop where
  flags : ((h.area (h.node (h.lists.list (.vmAreas t)).last).value).flags &&& vmStack != 0) = true
  one : (h.area (h.node (h.lists.list (.vmAreas t)).last).value).nPages = 1
  single : ∃ m, h.lists.list (.pages (h.node (h.lists.list (.vmAreas t)).last).value) = { first := m, last := m } ∧ m ≠ 0

theorem stackVmFlags_stack (b : Bool) : (stackVmFlags b &&& vmStack != 0) = true := by
  cases b <;> decide

theorem Booked.stackReady {b : Bool} (hb : Booked h own t (ns ++ [n])) (hw : World h own q) (ht : t ∈ h.live)
    (hx : h.areaOf n = stackArea b) : h.StackReady t ∧ pageSize ∣ h.lastPage t ∧ h.lastPage t ∈ usable := by
  obtain ⟨hlast, hobj, m, hpages, hm0⟩ := hb.lastStack hw ht hx
  have hA := hw.areas t ht
  have harea := (hA.area n (h.node n).value).mpr ⟨hobj, rfl⟩
  have hpnode : own.Obj m t (.pnode (h.node n).value) := by
    have hfirst := (hA.pages _ n harea).first
    rw [hpages] at hfirst
    exact hfirst.resolve_left hm0
  obtain ⟨v, hp⟩ := (hA.page m (h.node m).value).mpr ⟨⟨_, hpnode⟩, rfl⟩
  have hpage : h.lastPage t = (h.node m).value := by
    unfold Heap.lastPage
    rw [hlast, hpages]
  rw [hpage]
  refine ⟨⟨?_, ?_, ?_⟩, hw.held.page hp, hw.held.ok.usable (hw.held.out _ _ _ hp) (Tiling.base_mem (pageAt _))⟩
  · have hflags : (h.area (h.node n).value).flags = stackVmFlags b := congrArg VmArea.flags hx
    rw [hlast, hflags]
    exact stackVmFlags_stack b
  · rw [hlast]
    exact congrArg VmArea.nPages hx
  · rw [hlast]
    exact ⟨m, hpages, hm0⟩

/-- task_init_elf returns 0 if the arguments fit and are copied -/
theorem Heap.StackReady.initArgs {argv envp argc envc size size' off : Nat} {m₁ m₂ : Mem} (hr : h.StackReady t)
    (hargc : countArgs h.mm.mem argv wordCount 0 0 = .ok (argc, size))
    (henvc : countArgs h.mm.mem envp wordCount 0 size = .ok (envc, size'))
    (hsize : size' + 8 * (argc + envc + 2) ≤ pageSize)
    (hcopy : copyArgs argv (h.lastPage t + pageSize) (h.lastPage t + pageSize - 8 * (argc + envc + 2)) argc 0
      (size' + 8 * (argc + envc + 2)) h.mm.mem = .ok (off, m₁))
    (hcopy' : copyArgs envp (h.lastPage t + pageSize) (h.lastPage t + pageSize - 8 * (envc + 2)) envc 0 off m₁
      = .ok (8 * (argc + envc + 2), m₂)) : ∃ h', h.initArgs t argv envp = .ok (0, h') := by
  obtain ⟨m, hpages, hm0⟩ := hr.single
  have hbig : ¬ pageSize < size' + 8 * (argc + envc + 2) := Nat.not_lt.mpr hsize
  unfold Heap.lastPage at hcopy hcopy'
  rw [hpages] at hcopy hcopy'
  unfold Heap.initArgs
  simp only [hargc, henvc, Res.ok_bind, hbig, if_false, hr.one, hpages, hcopy, hcopy']
  have hk₁ : kassert ((h.area (h.node (h.lists.list (.vmAreas t)).last).value).flags &&& vmStack != 0) "fixme" = .ok () := by
    rw [hr.flags]
    rfl
  have hk₂ : kassert (m == m && m != 0) "fixme" = .ok () := by
    have hm : (m == m && m != 0) = true := by
      rw [Bool.and_eq_true, beq_iff_eq, bne_iff_ne]
      exact ⟨rfl, hm0⟩
    rw [hm]
    rfl
  have hk₃ : kassert (8 * (argc + envc + 2) == 8 * (argc + envc + 2)) "stack size mismatch" = .ok () := by
    rw [beq_self_eq_true]
    rfl
  rw [hk₁, Res.ok_bind, hk₂, hk₃]
  exact ⟨_, rfl⟩

/-! ## the growth of a stack -/

theorem growStack_room (hw : WellFormed h.mm (h.task t).pageTable) (hr : h.mm.Room (k + 4))
    (hva : pageSize ∣ (h.area a).va) : ∃ h', h.growStack t a = .ok h' ∧ h'.mm.Room k := by
  unfold Heap.growStack
  refine Res.bind_returns (allocPage_room (k := k + 3) hr.free) fun p h₁ halloc => ?_
  obtain ⟨mm₁, hh₁, hp0, hx₁⟩ := allocPage_spec hr.ok halloc
  have hp : p ∈ [p] := List.mem_singleton_self p
  simp only [hp0, if_false]
  obtain ⟨mm₂, hclear, hx₂⟩ := Heap.clearPage_spec h₁ (by rw [hh₁]; exact hx₁) hp
  obtain ⟨h₂, hh₂⟩ : ∃ h₂ : Heap, h₂ = { h with mm := mm₂ } := ⟨_, rfl⟩
  have hclear : h₁.clearPage p = h₂ := by rw [hclear, hh₂, hh₁]
  have hr₂ : h₂.mm.Room (k + 2 + 1) := by
    rw [hh₂]
    exact hr.step hx₂ (Nat.le_of_eq (Nat.add_comm 1 (k + 3)))
  rw [hclear]
  refine Res.bind_returns (vmAreaAddPage_room (k := k + 2) hr₂.free a p) fun err h₃ hpage => ?_
  obtain ⟨rfl, mm₃, m, hh₃, _, hx₃, _⟩ := vmAreaAddPage_spec hr₂.ok hpage
  have hmm₂ : h₂.mm = mm₂ := by rw [hh₂]
  have hmm₃ : h₃.mm = mm₃ := by
    rw [hh₃]
    rfl
  have hr₃ : h₃.mm.Room (k + 2) := by
    rw [hmm₃]
    exact hr₂.step hx₃ (Nat.le_of_eq (Nat.add_comm 1 (k + 2)))
  rw [hmm₂, ← hmm₃] at hx₃
  have hw₃ : WellFormed h₃.mm (h.task t).pageTable :=
    ((hw.extends hx₂ fun _ _ => nofun).1.extends hx₃ fun _ _ => nofun).1
  have htask₃ : h₃.task = h.task := by
    rw [hh₃, hh₂]
    rfl
  have harea₃ : h₃.area = h.area := by
    rw [hh₃, hh₂]
    rfl
  simp only [ne_eq, not_true_eq_false, if_false, harea₃]
  obtain ⟨mm₄, hmap, hr₄, _⟩ := mapPage_room hr₃ hw₃ (pteFlags_user_lt (f := (h.area a).flags))
    (lowerPage_dvd hva) (off_PA (hx₂.new_usable hp) (hx₂.new_page hp))
  refine Res.bind_returns ?_ fun err h₄ hset => ?_
  · unfold Heap.setPageUser FakeKernel.setPageUser
    refine ⟨0, _, Res.bind_eq_ok.mpr ⟨(0, mm₄), ?_, rfl⟩⟩
    show setPage (h₃.task t).pageTable _ _ _ _ = _
    rw [htask₃]
    exact hmap
  · obtain ⟨mm, hh₄, hset⟩ := setPageUser_heap hset
    have hset : setPage (h₃.task t).pageTable (lowerPage (h.area a).va) (PA p) _ h₃.mm = .ok (err, mm) := hset
    rw [htask₃, hmap] at hset
    cases hset
    refine ⟨h₄, rfl, ?_⟩
    rw [hh₄]
    exact hr₄

end FakeKernel
