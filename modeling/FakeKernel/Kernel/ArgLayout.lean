import FakeKernel.Kernel.InitStack

/-!
# The layout of the arguments

* `TreeGrown`          what load_elf writes: tables of the tree, and pages that were not in use;
* `loadElf_new`        the page of the stack is such a page;
* `ArgLayout`          where task_init_elf puts the arguments;
* `arg_layout`         vectors that fit on the page are laid out so.

Nothing is asked of the rest of the task: execve loads a program into what task_reinit leaves.
-/

namespace FakeKernel
open Bytes Mm Heap

variable {h h' h₁ : Heap} {program : Nat} {ph : Phdr} {a a' a'' : Mm} {m : Mem} {N N' : List Nat} {W : Set Nat}
  {len len' : Nat → Nat} {t root p x addr va flags argv argc envp envc low off : Nat} {r : Int}

/-! ## what load_elf writes -/

/-- pages were handed out, and only tables of the tree and those pages were written -/
structure TreeGrown (root : Nat) (a a' : Mm) (N : List Nat) : Prop where
  wf : WellFormed a' root
  grow : Extends a a' {s | s ∈ tables a.mem 2 root} N
  table : ∀ s ∈ tables a'.mem 2 root, s ∈ tables a.mem 2 root ∨ s ∈ N

namespace TreeGrown

theorem refl (hw : WellFormed a root) : TreeGrown root a a [] :=
  ⟨hw, (Extends.refl hw.ok).mono (Set.empty_subset _) (tables_page hw.page), fun _ => .inl⟩

theorem trans (h : TreeGrown root a a' N) (h' : TreeGrown root a' a'' N') : TreeGrown root a a'' (N' ++ N) := by
  refine ⟨h'.wf, h.grow.trans h'.grow h.table, fun s hs => ?_⟩
  cases h'.table s hs with
  | inl hold => exact (h.table s hold).imp_right fun hn => List.mem_append_right _ hn
  | inr hnew => exact .inr (List.mem_append_left _ hnew)

/-- an allocation -/
theorem alloc (hw : WellFormed a root) (hx : Extends a a' ∅ N) : TreeGrown root a a' N := by
  obtain ⟨hw', _, htab⟩ := hw.extends hx fun _ _ => nofun
  refine ⟨hw', hx.mono (Set.empty_subset _) (tables_page hw.page), fun s hs => ?_⟩
  rw [htab] at hs
  exact .inl hs

theorem splitting (hw : WellFormed a root) (hs : Splitting a a' root N) : TreeGrown root a a' N :=
  ⟨hs.wellFormed hw, hs.grow, hs.upd.mem_tables⟩

/-- a page is handed out, mapped and written -/
theorem page {N₁ N₂ : List Nat} {a₁ a₂ a₃ : Mm} (hw : WellFormed a root) (hx₁ : Extends a a₁ ∅ N₁) (hp : p ∈ N₁)
    (hx₂ : Extends a₁ a₂ ∅ N₂) (hlt : flags < 2 ^ 8) (hset : setPage root va (PA p) flags a₂ = .ok (r, a₃))
    (hm : ∀ x, ¬ onPage p x → m x = a₃.mem x) : ∃ N, TreeGrown root a (a₃.setMem m) N := by
  have h₁ := TreeGrown.alloc hw hx₁
  have h₂ := TreeGrown.alloc h₁.wf hx₂
  have hp₁ := hw.spendable hx₁ (fun _ _ => nofun) hp
  have hp₂ : Spendable a₂ root p := hp₁.extends hx₂ fun s hs => (h₂.table s hs).imp_right id
  obtain ⟨N₃, hsplit, hw₃, htab, hgrow, _⟩ := mapPage_extends h₂.wf hlt hp₂ hset hm
  have h₁₂ := h₁.trans h₂
  have hp' : p ∈ N₂ ++ N₁ := List.mem_append_right _ hp
  refine ⟨N₃ ++ (N₂ ++ N₁), hw₃, h₁₂.grow.trans hgrow fun s hs => ?_, fun s hs => ?_⟩
  · cases hs with
    | inl hs => exact h₁₂.table s hs
    | inr hs => exact .inr (Set.mem_singleton_iff.mp hs ▸ hp')
  · have hs : s ∈ tables m 2 root := hs
    rw [htab] at hs
    cases hsplit.upd.mem_tables s hs with
    | inl hold => exact (h₁₂.table s hold).imp_right fun hn => List.mem_append_right _ hn
    | inr hnew => exact .inr (List.mem_append_left _ hnew)

end TreeGrown

theorem loadPages_grown {toAddr area endAddr fuel src : Nat} (hw : WellFormed h.mm root) (hf : flags < 2 ^ 8)
    (hrun : Heap.loadPages toAddr root flags area endAddr fuel addr off src h = .ok h') :
    h'.task = h.task ∧ ∃ N, TreeGrown root h.mm h'.mm N := by
  induction fuel generalizing h addr off src with
  | zero => exact nomatch hrun
  | succ fuel ih =>
    unfold Heap.loadPages at hrun
    by_cases hend : addr < endAddr
    · simp only [hend, if_true] at hrun
      obtain ⟨⟨p, h₁⟩, hal, hrun⟩ := Res.bind_eq_ok.mp hrun
      obtain ⟨mm₁, rfl, hp0, hx₁⟩ := Heap.allocPage_spec hw.ok hal
      simp only [hp0, if_false] at hrun
      obtain ⟨⟨err₂, h₂⟩, hadd, hrun⟩ := Res.bind_eq_ok.mp hrun
      obtain ⟨rfl, mm₂, n, rfl, _, hx₂, _⟩ := Heap.vmAreaAddPage_spec hx₁.ok hadd
      simp only [ne_eq, not_true_eq_false, if_false] at hrun
      obtain ⟨⟨err₃, h₃⟩, hset, hrun⟩ := Res.bind_eq_ok.mp hrun
      obtain ⟨mm₃, rfl, hset'⟩ := setPage_heap hset
      split at hrun
      · exact absurd hrun Res.panic_ne_ok
      have hout : ∀ x, ¬ onPage p x → (Heap.fillPage toAddr p pageSize 0 off src mm₃.mem).2.2 x = mm₃.mem x :=
        fun x hx => Heap.fillPage_out (Nat.le_refl _) hx
      obtain ⟨N₁, hg⟩ := TreeGrown.page hw hx₁ (List.mem_singleton_self p) hx₂ hf hset' hout
      obtain ⟨htask, N₂, hg'⟩ := ih hg.wf hrun
      exact ⟨htask, _, hg.trans hg'⟩
    · simp only [hend, if_false] at hrun
      cases hrun
      exact ⟨rfl, _, .refl hw⟩

theorem loadSegment_grown (hw : WellFormed h.mm root) (ht : (h.task t).pageTable = root)
    (hrun : h.loadSegment t program ph = .ok h') : h'.task = h.task ∧ ∃ N, TreeGrown root h.mm h'.mm N := by
  unfold Heap.loadSegment at hrun
  obtain ⟨⟨area, h₁⟩, hcreate, hrun⟩ := Res.bind_eq_ok.mp hrun
  obtain ⟨⟨err, h₂⟩, hadd, hrun⟩ := Res.bind_eq_ok.mp hrun
  obtain ⟨rfl, n, hadded, _⟩ := areaAdded_of_create hw.ok hcreate hadd
  simp only [ne_eq, not_true_eq_false, if_false] at hrun
  obtain ⟨mm, hx₁, _, hx₂, _⟩ := hadded.mm
  have h₁ := TreeGrown.alloc hw hx₁
  have h₂ := h₁.trans (.alloc h₁.wf hx₂)
  rw [hadded.task, ht] at hrun
  obtain ⟨htask, N, h₃⟩ := loadPages_grown h₂.wf (pteFlags_lt ph) hrun
  exact ⟨htask.trans hadded.task, _, h₂.trans h₃⟩

theorem loadSegments_grown {n i : Nat} {b : Bool} {res : Except Int Bool} (hw : WellFormed h.mm root)
    (ht : (h.task t).pageTable = root) (hrun : h.loadSegments t program n i b = .ok (res, h')) :
    h'.task = h.task ∧ ∃ N, TreeGrown root h.mm h'.mm N := by
  induction n generalizing h i b with
  | zero => exact nomatch hrun
  | succ n ih =>
    unfold Heap.loadSegments at hrun
    simp only at hrun
    split at hrun
    · split at hrun
      · obtain ⟨h₁, hseg, hrun⟩ := Res.bind_eq_ok.mp hrun
        obtain ⟨htask, N, hg⟩ := loadSegment_grown hw ht hseg
        obtain ⟨htask', N', hg'⟩ := ih hg.wf (by rw [htask, ht]) hrun
        exact ⟨htask'.trans htask, _, hg.trans hg'⟩
      · split at hrun
        · cases hrun
          exact ⟨rfl, _, .refl hw⟩
        · split at hrun
          · exact ih hw ht hrun
          · exact ih hw ht hrun
    · cases hrun
      exact ⟨rfl, _, .refl hw⟩

/-! ## the page of the stack -/

/-- the last area has one page, which was handed out for it and is mapped at the top of the stack -/
structure StackNew (h h' : Heap) (t root : Nat) (N : List Nat) : Prop where
  grown : TreeGrown root h.mm h'.mm N
  new : h'.lastPage t ∈ N
  table : h'.lastPage t ∉ tables h'.mm.mem 2 root
  ready : h'.StackReady t
  pageTable : (h'.task t).pageTable = root
  map : ∀ x, SamePage 0 x stackBegin →
    ∃ flags, mapOf h' root x = some ⟨PA (h'.lastPage t) % 2 ^ 56 + x % 2 ^ 12, flags⟩

/-- a page was added to the area that was added last -/
theorem stackReady_of_added {n a q : Nat} {b : Bool} {h₂ : Heap} (hat : AreaAdded h₁ h₂ t n a)
    (hpt : PageAdded h₂ h' root a p q va flags N) (hne : n ≠ q) (hx : h'.area a = stackArea b) :
    h'.lastPage t = p ∧ h'.StackReady t := by
  have hq0 : q ≠ 0 := by
    have hq4 := hpt.node4
    omega
  obtain ⟨_, hframe⟩ := hat.links (fun _ => True) trivial ⟨.inr trivial, .inr trivial, fun _ _ => .inr trivial, fun _ _ => .inr trivial⟩
  have hlast : (h'.lists.list (.vmAreas t)).last = n := by
    rw [hpt.lists, Lists.list_listPush, if_neg nofun, Lists.list_setNode, hat.last]
  have hvalue : (h'.node n).value = a := by
    show (h'.lists.node n).value = a
    rw [hpt.lists, Lists.value_listPush, Lists.node_setNode, if_neg hne, hframe.value, h₁.areaLinks_node]
    rfl
  have hempty : (h₂.lists.list (.pages a)).first = 0 := by
    rw [hframe.list (.pages a) nofun]
    show ((h₁.lists.setList (.pages a) { first := 0, last := 0 }).list (.pages a)).first = 0
    rw [Lists.list_setList, if_pos rfl]
  have hsingle : h'.lists.list (.pages a) = { first := q, last := q } := by
    rw [hpt.lists, Lists.list_listPush, if_pos rfl, Lists.list_setNode, if_pos hempty]
  have hpage : (h'.node q).value = p := by
    show (h'.lists.node q).value = p
    rw [hpt.lists, Lists.value_listPush, Lists.node_setNode, if_pos rfl]
    rfl
  refine ⟨?_, ?_, ?_, ?_⟩
  · unfold Heap.lastPage
    rw [hlast, hvalue, hsingle, hpage]
  · rw [hlast, hvalue, hx]
    exact stackVmFlags_stack b
  · rw [hlast, hvalue, hx]
    rfl
  · rw [hlast, hvalue]
    exact ⟨q, hsingle, hq0⟩

theorem loadStack_new {b : Bool} (hw : WellFormed h.mm root) (ht : (h.task t).pageTable = root)
    (hrun : h.loadStack t program b = .ok h') : ∃ N, StackNew h h' t root N := by
  unfold Heap.loadStack at hrun
  simp only [ht] at hrun
  obtain ⟨⟨p, h₁⟩, halloc, hrun⟩ := Res.bind_eq_ok.mp hrun
  obtain ⟨mm₁, rfl, hp0, hx₁⟩ := Heap.allocPage_spec hw.ok halloc
  simp only [hp0, if_false] at hrun
  have hpin : p ∈ [p] := List.mem_singleton_self p
  obtain ⟨mmc, hclear, hxc⟩ := Heap.clearPage_spec { h with mm := mm₁ } hx₁ hpin
  rw [hclear] at hrun
  obtain ⟨⟨a, h₂⟩, hcreate, hrun⟩ := Res.bind_eq_ok.mp hrun
  obtain ⟨⟨err, h₃⟩, hadd, hrun⟩ := Res.bind_eq_ok.mp hrun
  obtain ⟨rfl, n, hat, harea⟩ := areaAdded_of_create hxc.ok hcreate hadd
  simp only [ne_eq, not_true_eq_false, if_false] at hrun
  obtain ⟨mm₂, hx₂, _, hx₃, _⟩ := hat.mm
  have hxa : Extends mmc h₃.mm ∅ ([n - 4] ++ [a - 4]) := hx₂.trans hx₃ nofun
  have hg₁ := TreeGrown.alloc hw hxc
  have hg₂ := TreeGrown.alloc hg₁.wf hxa
  obtain ⟨⟨err, h₄⟩, hpage, hrun⟩ := Res.bind_eq_ok.mp hrun
  obtain ⟨rfl, mm₄, m', hh₄, _⟩ := Heap.vmAreaAddPage_spec hg₂.wf.ok hpage
  simp only [not_true_eq_false, if_false] at hrun
  obtain ⟨⟨err, h₅⟩, hset, hrun⟩ := Res.bind_eq_ok.mp hrun
  have harea₄ : h₄.area = h₃.area := by
    rw [hh₄]
    rfl
  have hflags : stackPteFlags b ||| pteUser < 2 ^ 8 := by
    cases b <;> decide
  obtain ⟨_, rfl, m, N, hpt⟩ := pageAdded_of_add (x := h₄.area)
    hg₂.wf hflags hpage (fun b _ => by rw [harea₄]) (fun h => by rwa [harea₄]) hset
  simp only [not_true_eq_false, if_false] at hrun
  obtain ⟨mm₅, hh₅, hset'⟩ := setPage_heap hset
  have harea₅ : h₅.area a = stackArea b := by
    rw [hh₅]
    show h₄.area a = _
    rw [harea₄, harea]
    rfl
  obtain ⟨mm₃, hx₄, _, hsplit, hwalk⟩ := hpt.mm
  have hne : n ≠ m := by
    intro he
    have hkept := hx₃.new_kept (List.mem_singleton_self _)
    rw [he] at hkept
    exact hx₄.not_new hkept (List.mem_singleton_self _)
  obtain ⟨hlast, hready⟩ := stackReady_of_added hat hpt hne harea₅
  have hg₃ := TreeGrown.alloc hg₂.wf hx₄
  have hg := hg₂.trans (hg₃.trans (.splitting hg₃.wf hsplit))
  have hp := (hw.spendable hxc (fun _ _ => nofun) hpin).extends hg.grow hg.table
  have hh' : h' = h₅.setFrame t (startFrame (h₅.image program).eEntry) := (Except.ok.inj hrun).symm
  have hlast' : h'.lastPage t = p := by
    rw [hh']
    exact hlast
  have hmm : h'.mm = h₅.mm := by
    rw [hh']
    rfl
  have hall := hg₁.trans hg
  rw [← hmm] at hall
  refine ⟨_, hall, ?_, ?_, ?_, ?_, fun x hx => ⟨stackPteFlags b ||| pteUser, ?_⟩⟩
  · rw [hlast']
    exact List.mem_append_right _ hpin
  · rw [hlast', hmm]
    exact hp.table
  · rw [hh']
    exact ⟨hready.flags, hready.one, hready.single⟩
  · rw [hh']
    show (Function.update h₅.task t _ t).pageTable = root
    rw [Function.update_self]
    show (h₅.task t).pageTable = root
    rw [(hpt.task t).2.2.1, hat.task]
    exact ht
  · rw [hlast']
    show walk h'.mm.mem 2 root x = _
    rw [hmm, hwalk]
    refine (if_pos hx).trans ?_
    cases b <;> rfl

/-- load_elf puts the page of the stack where nothing was in use -/
theorem loadElf_new (hw : WellFormed h.mm root) (ht : (h.task t).pageTable = root)
    (hrun : h.loadElf t program = .ok (0, h')) : ∃ N, StackNew h h' t root N := by
  unfold loadElf at hrun
  split at hrun
  · exact absurd (Prod.mk.inj (Except.ok.inj hrun)).1 (by decide)
  obtain ⟨⟨res, h₁⟩, hsegs, hrun⟩ := Res.bind_eq_ok.mp hrun
  obtain ⟨htask, N, hg⟩ := loadSegments_grown hw ht hsegs
  cases res with
  | error err =>
    have herr := loadSegments_error hsegs
    have hzero : err = 0 := (Prod.mk.inj (Except.ok.inj hrun)).1
    exact absurd hzero (by rw [herr]; decide)
  | ok b =>
    obtain ⟨h₂, hstack, hret⟩ := Res.bind_eq_ok.mp hrun
    have hh : h₂ = h' := (Prod.mk.inj (Except.ok.inj hret)).2
    rw [hh] at hstack
    obtain ⟨N', hs⟩ := loadStack_new hg.wf (by rw [htask, ht]) hstack
    exact ⟨N' ++ N, hg.trans hs.grown, List.mem_append_left _ hs.new, hs.table, hs.ready, hs.pageTable, hs.map⟩

/-! ## the layout -/

/-- what the arguments take on the page of the stack: the strings and the two tables -/
def argSize (argc : Nat) (len : Nat → Nat) (envc : Nat) (len' : Nat → Nat) : Nat :=
  ∑ k ∈ Finset.range argc, (len k + 1) + ∑ k ∈ Finset.range envc, (len' k + 1) + 8 * (argc + envc + 2)

theorem argSize_eq (hlow : low = 8 * (argc + envc + 2)) :
    argSize argc len envc len' = argOff len argc (argOff len' envc low 0) 0 := by
  unfold argSize argOff
  rw [Nat.Ico_zero_eq_range, Nat.Ico_zero_eq_range]
  omega

/-- the addresses of the copies of the strings, which end at `USERSTACK - low` -/
def stringRange (len : Nat → Nat) (argc low : Nat) : Set Nat :=
  {x | ∃ i < argc, userStack - argOff len argc low i ≤ x ∧ x ≤ userStack - argOff len argc low i + len i}

/-- the strings lie one behind the other -/
theorem stringRange_eq (hsize : argOff len argc low 0 ≤ userStack) :
    stringRange len argc low = Set.Ico (userStack - argOff len argc low 0) (userStack - low) := by
  have hfrom : ∀ d i, i + d = argc → ∀ x, (∃ j, i ≤ j ∧ j < argc ∧ userStack - argOff len argc low j ≤ x ∧
      x ≤ userStack - argOff len argc low j + len j) ↔ userStack - argOff len argc low i ≤ x ∧ x < userStack - low := by
    intro d
    induction d with
    | zero =>
      intro i hi x
      rw [show i = argc from hi, argOff_self]
      refine iff_of_false (fun ⟨j, h1, h2, _⟩ => ?_) fun ⟨h1, h2⟩ => ?_
      · omega
      · omega
    | succ d ih =>
      intro i hi x
      have hoff : argOff len argc low i = argOff len argc low (i + 1) + (len i + 1) := argOff_succ (by omega)
      have hle : argOff len argc low i ≤ argOff len argc low 0 := argOff_le (Nat.zero_le i) (by omega)
      have hlow : low ≤ argOff len argc low (i + 1) := low_le_argOff
      have hrest := ih (i + 1) (by omega) x
      constructor
      · intro ⟨j, h1, h2, h3, h4⟩
        by_cases hj : j = i
        · subst hj
          omega
        · have := hrest.mp ⟨j, by omega, h2, h3, h4⟩
          omega
      · intro ⟨h1, h2⟩
        by_cases hx : x < userStack - argOff len argc low (i + 1)
        · exact ⟨i, Nat.le_refl i, by omega, h1, by omega⟩
        · obtain ⟨j, h3, h4⟩ := hrest.mpr ⟨by omega, h2⟩
          exact ⟨j, by omega, h4⟩
  ext x
  have := hfrom argc 0 (Nat.zero_add argc) x
  simpa [stringRange] using this

/-- the entries of the table at `USERSTACK - off` are the addresses of the copies, and no copy is cut off -/
structure VectorLayout (h : Heap) (root : Nat) (m : Mem) (off low argv argc : Nat) (len : Nat → Nat) : Prop where
  entry : ∀ i < argc, WordAt h root (userStack - off + 8 * i) (userStack - argOff len argc low i)
  string : ∀ i < argc, ∀ k ≤ len i,
    ByteAt h root (userStack - argOff len argc low i + k) (m (load 8 m (argv + 8 * i) + k))

/-- the table of `n` pointers at `x`, and the NULL behind them -/
def tableRange (x n : Nat) : Set Nat := Set.Ico x (x + 8 * (n + 1))

/-- the arguments of a program on the page of its stack; `h` is the state of before task_init_elf, `h₁` what load_elf
leaves, `low` is `argv_off` and `high` is `arg_size` -/
structure ArgLayout (h h₁ h' : Heap) (t argv argc : Nat) (len : Nat → Nat) (envp envc : Nat) (len' : Nat → Nat)
    (low high : Nat) : Prop where
  stack : ∀ x, SamePage 0 x stackBegin →
    ∃ flags, mapOf h₁ (h₁.task t).pageTable x = some ⟨PA (h₁.lastPage t) % 2 ^ 56 + x % 2 ^ 12, flags⟩
  /-- only the page of the stack and the registers are written -/
  page : ∃ mem frame, h' = ({ h₁ with mm := h₁.mm.setMem mem } : Heap).setFrame t frame ∧
    ∀ x, ¬ onPage (h₁.lastPage t) x → mem x = h₁.mm.mem x
  a0 : (h'.task t).userFrame.registers REG_A0 = argc
  a1 : (h'.task t).userFrame.registers REG_A1 = userStack - low
  a2 : (h'.task t).userFrame.registers REG_A2 = userStack - 8 * (envc + 2)
  argv : VectorLayout h' (h'.task t).pageTable h.mm.mem low (argOff len' envc low 0) argv argc len
  envp : VectorLayout h' (h'.task t).pageTable h.mm.mem (8 * (envc + 2)) low envp envc len'
  strings : stringRange len argc (argOff len' envc low 0) ∪ stringRange len' envc low
    = Set.Ico (userStack - high) (userStack - low)
  apart : Disjoint (Set.Ico (userStack - high) (userStack - low))
    (tableRange ((h'.task t).userFrame.registers REG_A1) argc ∪ tableRange ((h'.task t).userFrame.registers REG_A2) envc)
  aligned : (h'.task t).userFrame.registers REG_SP % 16 = 0
  below : (h'.task t).userFrame.registers REG_SP ≤ userStack - high
  above : userStack - pageSize ≤ (h'.task t).userFrame.registers REG_SP

/-- the bytes of a vector can be read, and are in use but not by the tree at `root` -/
def ArgsKept (h : Heap) (root argv argc : Nat) (len : Nat → Nat) : Prop :=
  ∀ x ∈ argBytes h.mm.mem argv argc len, inDirectMap x = true ∧ h.mm.Kept x ∧ ∀ s ∈ tables h.mm.mem 2 root, ¬ onPage s x

/-- load_elf writes to no such byte, and takes no such page for the stack -/
theorem ArgsKept.loaded (ha : ArgsKept h root argv argc len) (hs : StackNew h h₁ t root N) :
    (∀ x ∈ argBytes h.mm.mem argv argc len, h₁.mm.mem x = h.mm.mem x) ∧
    ∀ x ∈ argBytes h₁.mm.mem argv argc len, inDirectMap x = true ∧ ¬ onPage (h₁.lastPage t) x := by
  have hmem : ∀ x ∈ argBytes h.mm.mem argv argc len, h₁.mm.mem x = h.mm.mem x := fun x hx =>
    hs.grown.grow.frame x (ha x hx).2.1 (ha x hx).2.2
  refine ⟨hmem, fun x hx => ?_⟩
  rw [argBytes_congr hmem] at hx
  exact ⟨(ha x hx).1, fun hon => hs.grown.grow.fresh hs.new hon (ha x hx).2.1⟩

theorem StackNew.spendable (hs : StackNew h h₁ t root N) : Spendable h₁.mm root (h₁.lastPage t) :=
  ⟨hs.grown.grow.new_page hs.new, hs.grown.grow.new_usable hs.new, hs.grown.grow.new_kept hs.new, hs.table⟩

theorem Table.layout {m₀ : Mem} (ht : Table m₀ m (p + pageSize) off low argv argc len) (hb : StackBytes h root p m)
    (hoff : off ≤ pageSize) (htable : 8 * argc ≤ off) (hlow : argOff len argc low 0 ≤ pageSize) :
    VectorLayout h root m₀ off low argv argc len := by
  have haddr : ∀ i < argc, userStackAddr (argOff len argc low i) = userStack - argOff len argc low i := fun i hi =>
    userStackAddr_eq (Nat.le_trans (argOff_le (Nat.zero_le i) (Nat.le_of_lt hi)) hlow)
  refine ⟨fun i hi => ?_, fun i hi k hk => ?_⟩
  · rw [← haddr i hi, ← userStackAddr_eq hoff]
    exact (ht.copyAt hb hoff htable hlow hi).1
  · rw [← haddr i hi]
    exact (ht.copyAt hb hoff htable hlow hi).2 k hk

/-- task_init_elf returns 0 exactly for the vectors that fit -/
theorem ArgsKept.initElf (hw : WellFormed h.mm (h.task t).pageTable) (hs : Strings h.mm.mem argv argc len)
    (hs' : Strings h.mm.mem envp envc len') (hin : ArgsKept h (h.task t).pageTable argv argc len)
    (hin' : ArgsKept h (h.task t).pageTable envp envc len') (hprogram : program ≠ 0) (hload : h.loadElf t program = .ok (0, h₁)) :
    h.taskInitElf t program argv envp = h₁.initArgs t argv envp ∧
    (argSize argc len envc len' ≤ pageSize → ∃ h', h₁.initArgs t argv envp = .ok (0, h')) ∧
    (pageSize < argSize argc len envc len' → h₁.initArgs t argv envp = panic "argv too big") := by
  have hnull : ∀ {v n : Nat} {l : Nat → Nat}, ArgsKept h (h.task t).pageTable v n l → v ≠ 0 := by
    intro v n l hk h0
    have h1 := (hk v (.inl ⟨Nat.le_refl v, by omega⟩)).1
    rw [h0] at h1
    exact absurd h1 (by decide)
  obtain ⟨N, hn⟩ := loadElf_new hw rfl hload
  obtain ⟨hmem, hin₁⟩ := hin.loaded hn
  obtain ⟨hmem', hin₁'⟩ := hin'.loaded hn
  rw [argSize_eq rfl]
  refine ⟨taskInitElf_eq (hnull hin) (hnull hin') hprogram hload, fun hsize => ?_, fun hbig => ?_⟩
  · exact hn.ready.strings (hs.congr hmem) (hs'.congr hmem') hin₁ hin₁' hsize
  · exact initArgs_big (hs.congr hmem) (hs'.congr hmem') (fun x hx => (hin₁ x hx).1) (fun x hx => (hin₁' x hx).1) hbig

/-- **The layout of the arguments.**  Vectors that fit on a page with their strings and tables are copied in full to the
page of the stack, the strings below the tables and the stack pointer below the strings. -/
theorem arg_layout (hw : WellFormed h.mm (h.task t).pageTable) (hs : Strings h.mm.mem argv argc len)
    (hs' : Strings h.mm.mem envp envc len') (hin : ArgsKept h (h.task t).pageTable argv argc len)
    (hin' : ArgsKept h (h.task t).pageTable envp envc len') (hprogram : program ≠ 0)
    (hload : h.loadElf t program = .ok (0, h₁)) (hsize : argSize argc len envc len' ≤ pageSize) :
    ∃ h', h.taskInitElf t program argv envp = .ok (0, h') ∧
      ArgLayout h h₁ h' t argv argc len envp envc len' (8 * (argc + envc + 2)) (argSize argc len envc len') := by
  obtain ⟨low, hlow⟩ : ∃ low, low = 8 * (argc + envc + 2) := ⟨_, rfl⟩
  obtain ⟨helf, hfits, _⟩ := hin.initElf hw hs hs' hin' hprogram hload
  obtain ⟨N, hn⟩ := loadElf_new hw rfl hload
  obtain ⟨hmem, hin₁⟩ := hin.loaded hn
  obtain ⟨hmem', hin₁'⟩ := hin'.loaded hn
  have hs₁ := hs.congr hmem
  have hs₁' := hs'.congr hmem'
  obtain ⟨h', hrun⟩ := hfits hsize
  rw [argSize_eq hlow] at hsize ⊢
  refine ⟨h', helf.trans hrun, ?_⟩
  obtain ⟨mem, frame, hh, ha0, ha1, ha2, hsp, _, htable, htable', _, hout⟩ := initArgs_tables hs₁ hs₁'
    (fun x hx => (hin₁ x hx).2) (fun x hx => (hin₁' x hx).2) hlow hrun
  have htask : h'.task t = { h₁.task t with userFrame := frame } := by
    rw [hh]
    exact Function.update_self _ _ _
  have hframe : (h'.task t).userFrame = frame := congrArg Task.userFrame htask
  have hroot : (h'.task t).pageTable = (h.task t).pageTable := (congrArg Task.pageTable htask).trans hn.pageTable
  have hbytes := hn.spendable.stackBytes hn.grown.wf hn.map hout hh
  have hmid : argOff len' envc low 0 ≤ pageSize := Nat.le_trans low_le_argOff hsize
  have hle : low ≤ argOff len' envc low 0 := low_le_argOff
  have hle' : argOff len' envc low 0 ≤ argOff len argc (argOff len' envc low 0) 0 := low_le_argOff
  have hstack : pageSize < userStack := by decide
  have h16 : userStack % 16 = 0 ∧ pageSize % 16 = 0 := by decide
  have ha1' : frame.registers REG_A1 = userStack - low := ha1.trans (userStackAddr_eq (by omega))
  have ha2' : frame.registers REG_A2 = userStack - 8 * (envc + 2) := ha2.trans (userStackAddr_eq (by omega))
  rw [← hlow]
  refine ⟨?_, ⟨mem, frame, hh, hout⟩, hframe ▸ ha0, hframe ▸ ha1', hframe ▸ ha2', ?_, ?_, ?_, ?_, ?_, ?_, ?_⟩
  · rw [hn.pageTable]
    exact hn.map
  · rw [hroot]
    exact (htable.congr hmem).layout hbytes (by omega) (by omega) hsize
  · rw [hroot]
    exact (htable'.congr hmem').layout hbytes (by omega) (by omega) hmid
  · rw [stringRange_eq (by omega), stringRange_eq (by omega)]
    exact Set.Ico_union_Ico_eq_Ico (by omega) (by omega)
  · rw [hframe, ha1', ha2', Set.disjoint_left]
    intro x hx htab
    have hx2 := hx.2
    rcases htab with htab | htab
    · have h1 := htab.1
      omega
    · have h1 := htab.1
      omega
  · rw [hframe, hsp]
    omega
  · rw [hframe, hsp]
    omega
  · rw [hframe, hsp]
    omega

/-- the theorem at the arguments of main -/
theorem arg_layout_main : ∃ t h h₁ h', (bootKernel initImage).heap.taskCreate 0 = .ok (t, h) ∧ h.loadElf t Kernel.program = .ok (0, h₁) ∧
    h.taskInitElf t Kernel.program initArgv initEnvp = .ok (0, h') ∧
    ArgLayout h h₁ h' t initArgv 1 (fun _ => 4) initEnvp 0 (fun _ => 0) 24 29 := by
  obtain ⟨t, n, stack, root, h₁, own₁, h₂, own, n₁, n₂, hb⟩ := boot_elf initImage_onePage initImage_placed
  have hw : World h₁ own₁ _ := hb.added.world
  have ht : t ∈ h₁.live := by
    rw [hb.added.live]
    exact List.mem_cons_self
  have hlow := hb.low.1
  have hkept : ∀ {v n : Nat} {l : Nat → Nat}, (∀ x ∈ argBytes h₁.mm.mem v n l, inDirectMap x = true ∧ x ∉ usable) →
      ArgsKept h₁ (h₁.task t).pageTable v n l := by
    intro v n l hin x hx
    obtain ⟨hk, hlive⟩ := hw.held.low_live (hin x hx).2 (t := t)
    exact ⟨(hin x hx).1, hk, fun s hs => hlive s _ ((hw.maps t ht).tables s hs)⟩
  obtain ⟨h', hrun, hlay⟩ := arg_layout (hw.maps t ht).wf hlow.argv hlow.envp (hkept hlow.argBytes)
    (hkept envpBytes) (by decide) hb.load (by decide)
  exact ⟨t, h₁, h₂, h', hb.create, hb.load, hrun, hlay⟩

end FakeKernel
