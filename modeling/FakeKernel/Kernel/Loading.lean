import FakeKernel.Kernel.Image
import FakeKernel.Kernel.Spaces

/-!
# load_elf and task_init_elf keep the invariant

* `loadSegment_turn`, `loadStack_turn`   which areas and pages they add;
* `loadSegments_rule`                    the loop over the program headers, whatever it reads;
* `loadSegments_image_rule`              the loop for an image that stays as it is;
* `loadElf_world`, `taskInitElf_world`   any image, whatever its headers say.
-/

namespace FakeKernel
open Bytes Mm Heap

variable {h h' : Heap} {own own' : Owners} {q : TaskList → List Nat} {t program : Nat} {e : Elf} {ph : Phdr}

/-! ## segments -/

theorem Phdr.pteFlags_user (ph : Phdr) : ph.pteFlags &&& pteUser ≠ 0 := by
  unfold Phdr.pteFlags
  simp only
  split <;> split <;> split <;> decide

/-- the area of a segment -/
def Phdr.area (ph : Phdr) : VmArea :=
  { va := ph.addr, nPages := ph.nPages, flags := ph.areaFlags, refcount := 1 }

theorem loadSegment_turn (hw : World h own q) (ht : t ∈ h.live) (hrun : h.loadSegment t program ph = .ok h') :
    ∃ own₁ n a h₁, AreaTurn q t ph.area h own h₁ own₁ n a ∧
      Heap.loadPages (((program + ph.pOffset) % wordCount + ph.pFilesz) % wordCount) (h₁.task t).pageTable ph.pteFlags a
        ph.endAddr wordCount ph.addr ph.off ((program + ph.pOffset) % wordCount) h₁ = .ok h' := by
  unfold Heap.loadSegment at hrun
  obtain ⟨⟨a, h₁⟩, hcreate, hrun⟩ := Res.bind_eq_ok.mp hrun
  obtain ⟨⟨err, h₂⟩, hadd, hrun⟩ := Res.bind_eq_ok.mp hrun
  obtain ⟨rfl, n, hadded, hx⟩ := areaAdded_of_create hw.held.ok hcreate hadd
  simp only [ne_eq, not_true_eq_false, if_false] at hrun
  exact ⟨_, n, a, h₂, ⟨hadded, hadded.world hw ht, rfl, hx⟩, hrun⟩

/-- the loop over the program headers, whatever they turn out to be -/
theorem loadSegments_rule {I : Heap → Owners → Prop} {n i : Nat} {b : Bool} {r : Except Int Bool}
    (hturn : ∀ {ph h own h'}, I h own → World h own q → t ∈ h.live →
      h.loadSegment t program ph = .ok h' → ∃ own', Grown q t h own h' own' ∧ I h' own')
    (hI : I h own) (hw : World h own q) (ht : t ∈ h.live)
    (hrun : h.loadSegments t program n i b = .ok (r, h')) : ∃ own', Grown q t h own h' own' ∧ I h' own' ∧
      ∀ err, r = .error err → err = -EINVAL := by
  induction n generalizing h own i b with
  | zero => cases hrun
  | succ n ih =>
    unfold Heap.loadSegments at hrun
    simp only at hrun
    by_cases hi : i < (h.image program).ePhnum
    · rw [if_pos hi] at hrun
      by_cases hload : ((h.image program).phdr i).pType = PT_LOAD
      · rw [if_pos hload] at hrun
        obtain ⟨h₁, hseg, hrun⟩ := Res.bind_eq_ok.mp hrun
        obtain ⟨own₁, hg, hI₁⟩ := hturn hI hw ht hseg
        obtain ⟨own', hg', hI'⟩ := ih hI₁ hg.world (hg.live ▸ ht) hrun
        exact ⟨own', hg.trans hg', hI'⟩
      · rw [if_neg hload] at hrun
        by_cases hdyn : ((h.image program).phdr i).pType = PT_DYNAMIC ∨ ((h.image program).phdr i).pType = PT_INTERP
        · rw [if_pos hdyn] at hrun
          cases hrun
          exact ⟨own, .refl hw t, hI, fun err he => by cases he; rfl⟩
        · rw [if_neg hdyn] at hrun
          split at hrun
          · exact ih hI hw ht hrun
          · exact ih hI hw ht hrun
    · rw [if_neg hi] at hrun
      cases hrun
      exact ⟨own, .refl hw t, hI, fun err he => by cases he⟩

/-- what a step of `t` writes lies in the allocator's pages -/
theorem Grown.outside (hg : Grown q t h own h' own') (hw : World h own q) {x : Nat} (hx : x ∉ usable) :
    h'.mm.mem x = h.mm.mem x := by
  obtain ⟨N, hs⟩ := hg.step
  refine hs.mm.frame x (.inl hx) fun s hs' hon => hx ?_
  obtain ⟨_, r, hp, _⟩ := hs'
  exact hw.held.ok.usable (hw.held.out _ _ _ hp) (mem_pageAt.mpr hon)

theorem Elf.LiesIn.step (hin : e.LiesIn h.mm.mem) (hw : World h own q) (hg : Grown q t h own h' own') : e.LiesIn h'.mm.mem :=
  hin.mono fun _ hx => hg.outside hw hx

/-- the loop for an image that it does not overwrite; the index is the list of the segments that are still to be loaded -/
theorem loadSegments_image_rule {I : List Phdr → Heap → Owners → Prop} {n i : Nat} {b : Bool} {r : Except Int Bool}
    (hturn : ∀ {ph l h own h'}, I (ph :: l) h own → World h own q → t ∈ h.live →
      h.loadSegment t e.program ph = .ok h' → ∃ own', Grown q t h own h' own' ∧ I l h' own')
    (hin : e.LiesIn h.mm.mem) (hI : I (e.loadedFrom (e.ePhnum - i) i) h own) (hw : World h own q) (ht : t ∈ h.live)
    (hrun : h.loadSegments t e.program n i b = .ok (r, h')) : ∃ own', Grown q t h own h' own' ∧ I [] h' own' := by
  induction n generalizing h own i b with
  | zero => exact nomatch hrun
  | succ n ih =>
    rw [hin.loadSegments] at hrun
    by_cases hi : i < e.ePhnum
    · rw [if_pos hi] at hrun
      rw [e.loadedFrom_of_lt hi] at hI
      by_cases hload : (e.phdr i).pType = PT_LOAD
      · rw [if_pos hload] at hrun hI
        obtain ⟨h₁, hseg, hrun⟩ := Res.bind_eq_ok.mp hrun
        obtain ⟨own₁, hg, hI₁⟩ := hturn hI hw ht hseg
        obtain ⟨own', hg', hI'⟩ := ih (hin.step hw hg) hI₁ hg.world (hg.live ▸ ht) hrun
        exact ⟨own', hg.trans hg', hI'⟩
      · rw [if_neg hload] at hrun hI
        by_cases hdyn : (e.phdr i).pType = PT_DYNAMIC ∨ (e.phdr i).pType = PT_INTERP
        · rw [if_pos hdyn] at hrun hI
          cases hrun
          exact ⟨own, .refl hw t, hI⟩
        · rw [if_neg hdyn] at hrun hI
          split at hrun
          · exact ih hin hI hw ht hrun
          · exact ih hin hI hw ht hrun
    · rw [if_neg hi] at hrun
      rw [e.loadedFrom_of_ge hi] at hI
      cases hrun
      exact ⟨own, .refl hw t, hI⟩

theorem loadSegment_world (hw : World h own q) (ht : t ∈ h.live)
    (hrun : h.loadSegment t program ph = .ok h') : ∃ own', Grown q t h own h' own' := by
  obtain ⟨own₁, n, a, h₁, hat, hpages⟩ := loadSegment_turn hw ht hrun
  obtain ⟨own', _, hg, _⟩ := loadPages_rule (I := fun _ _ _ => True) (pteFlags_lt ph) ph.pteFlags_user
    (fun _ _ _ _ => trivial) trivial hat.grown.world (hat.grown.live ▸ ht) rfl hat.obj.1 hpages
  exact ⟨own', hat.grown.trans hg⟩

/-! ## the stack -/

def stackBegin : Nat := userStack - pageSize

/-- the flags of the stack, in the area and in the page table -/
def stackVmFlags (execstack : Bool) : Nat :=
  vmRead ||| vmWrite ||| vmStack ||| (if execstack then vmExec else 0)

def stackPteFlags (execstack : Bool) : Nat :=
  pteValid ||| pteUser ||| pteRead ||| pteWrite ||| (if execstack then pteExec else 0)

/-- a page that was allocated and filled and has no use yet -/
structure PageLoose (q : TaskList → List Nat) (t : Nat) (h : Heap) (own : Owners) (h' : Heap)
    (p : Nat) : Prop where
  grown : Grown q t h own h' (own.set p t (.loose false))
  rest : ∃ mm, h' = { h with mm := mm } ∧ Extends h.mm mm ∅ [p]

theorem loadStack_turn {b : Bool} (hw : World h own q) (ht : t ∈ h.live)
    (hrun : h.loadStack t program b = .ok h') : ∃ p n a m own₁ own₂ h₁ h₂ h₃, PageLoose q t h own h₁ p ∧
      AreaTurn q t { va := stackBegin, nPages := 1, flags := stackVmFlags b, refcount := 1 } h₁
        (own.set p t (.loose false)) h₂ own₁ n a ∧
      PageTurn q t a stackBegin (stackPteFlags b ||| pteUser) h₂ own₁ h₃ own₂ p m ∧
      h₃.area a = h₂.area a ∧ h' = h₃.setFrame t (startFrame (h₃.image program).eEntry) := by
  unfold Heap.loadStack at hrun
  simp only at hrun
  obtain ⟨⟨p, h₁⟩, halloc, hrun⟩ := Res.bind_eq_ok.mp hrun
  obtain ⟨mm₁, rfl, hp0, hx₁⟩ := Heap.allocPage_spec hw.held.ok halloc
  simp only [hp0, if_false] at hrun
  obtain ⟨mmc, hclear, hxc⟩ := Heap.clearPage_spec { h with mm := mm₁ } hx₁ (List.mem_singleton_self p)
  have hfilled : ({ h with mm := mm₁ } : Heap).Filled { h with mm := mmc } p :=
    ⟨_, hclear.symm, fun x hx => Heap.clearWords_out (Nat.le_refl _) hx⟩
  rw [hclear] at hrun
  have g₁ := hw.takePage hx₁ t
  obtain ⟨g₂, _⟩ := g₁.world.fill Owners.set_self rfl nofun hfilled ht
  have hloose : PageLoose q t h own { h with mm := mmc } p := ⟨g₁.trans g₂, mmc, rfl, hxc⟩
  obtain ⟨⟨a, h₂⟩, hcreate, hrun⟩ := Res.bind_eq_ok.mp hrun
  obtain ⟨⟨err, h₃⟩, hadd, hrun⟩ := Res.bind_eq_ok.mp hrun
  obtain ⟨rfl, n, hadded, hx⟩ := areaAdded_of_create hxc.ok hcreate hadd
  simp only [ne_eq, not_true_eq_false, if_false] at hrun
  have hat : AreaTurn q t { va := stackBegin, nPages := 1, flags := stackVmFlags b, refcount := 1 }
      { h with mm := mmc } (own.set p t (.loose false)) h₃ _ n a :=
    ⟨hadded, hadded.world g₂.world ht, rfl, hx⟩
  obtain ⟨⟨err, h₄⟩, hpage, hrun⟩ := Res.bind_eq_ok.mp hrun
  have ht₃ : t ∈ h₃.live := hat.grown.live ▸ ht
  have hM₃ := hat.grown.world.maps t ht₃
  obtain ⟨rfl, mm₄, m', hh₄, _⟩ := Heap.vmAreaAddPage_spec hM₃.wf.ok hpage
  simp only [not_true_eq_false, if_false] at hrun
  obtain ⟨⟨err, h₅⟩, hset, hrun⟩ := Res.bind_eq_ok.mp hrun
  have hroot : (h.task t).pageTable = (h₃.task t).pageTable := by rw [hadded.task]
  rw [hroot] at hset
  have harea₄ : h₄.area = h₃.area := by
    rw [hh₄]
    rfl
  have hflags : stackPteFlags b ||| pteUser < 2 ^ 8 := by
    cases b <;> decide
  obtain ⟨_, rfl, m, N, hpt⟩ := pageAdded_of_add (x := h₄.area)
    hM₃.wf hflags hpage (fun b _ => by rw [harea₄]) (fun h => by rwa [harea₄]) hset
  simp only [not_true_eq_false, if_false] at hrun
  cases hrun
  have hp₃ : ((own.set p t (.loose false)).addArea t n a).Page p t (.loose false) :=
    hat.page g₂.world.held Owners.set_self
  refine ⟨p, n, a, m, _, _, _, h₃, h₅, hloose, hat,
    pageTurn_loose hat.grown.world ht₃ hat.obj.1 pteUser_of_or hp₃ hpt, ?_, rfl⟩
  obtain ⟨_, rfl, _⟩ := setPage_heap hset
  show h₄.area a = h₃.area a
  rw [harea₄]

/-- the list of areas is none of a page's business -/
theorem PageTurn.vmList {a va flags p m : Nat} (hp : PageTurn q t a va flags h own h' own' p m) (t' : Nat) :
    h'.lists.list (.vmAreas t') = h.lists.list (.vmAreas t') := by
  rw [hp.lists, Lists.list_listPush, if_neg nofun, Lists.list_setNode]

theorem loadStack_world {b : Bool} (hw : World h own q) (ht : t ∈ h.live)
    (hrun : h.loadStack t program b = .ok h') : ∃ own', Grown q t h own h' own' ∧
      own'.Obj (h'.lists.list (.vmAreas t)).last t .vnode := by
  obtain ⟨p, n, a, m, own₁, own₂, h₁, h₂, h₃, hloose, hat, hpt, _, rfl⟩ := loadStack_turn hw ht hrun
  have hframe := hpt.grown.world.setFrame t t (startFrame (h₃.image program).eEntry)
  refine ⟨own₂, ((hloose.grown.trans hat.grown).trans hpt.grown).trans hframe, ?_⟩
  show own₂.Obj (h₃.lists.list (.vmAreas t)).last t .vnode
  rw [hpt.vmList, hat.added.last]
  exact hpt.grown.mono.obj hat.obj.2 rfl

theorem loadElf_world {err : Int} (hw : World h own q) (ht : t ∈ h.live)
    (hrun : h.loadElf t program = .ok (err, h')) : ∃ own', Grown q t h own h' own' ∧
      (err = 0 → own'.Obj (h'.lists.list (.vmAreas t)).last t .vnode) := by
  unfold loadElf at hrun
  by_cases hmachine : (h.image program).eMachine ≠ EM_RISCV
  · rw [if_pos hmachine] at hrun
    cases hrun
    exact ⟨own, .refl hw t, fun h0 => absurd h0 (by decide)⟩
  · rw [if_neg hmachine] at hrun
    obtain ⟨⟨r, h₁⟩, hsegs, hrun⟩ := Res.bind_eq_ok.mp hrun
    obtain ⟨own₁, hg, _, herr⟩ := loadSegments_rule (I := fun _ _ => True)
      (fun _ hw ht hseg => by
        obtain ⟨own', hg⟩ := loadSegment_world hw ht hseg
        exact ⟨own', hg, trivial⟩) trivial hw ht hsegs
    cases r with
    | error err' =>
      cases hrun
      refine ⟨own₁, hg, fun h0 => ?_⟩
      rw [herr _ rfl] at h0
      exact absurd h0 (by decide)
    | ok b =>
      obtain ⟨h₂, hstack, hret⟩ := Res.bind_eq_ok.mp hrun
      cases hret
      obtain ⟨own', hg', hlast⟩ := loadStack_world hg.world (hg.live ▸ ht) hstack
      exact ⟨own', hg.trans hg', fun _ => hlast⟩

/-! ## arguments -/

/-- strlcpy writes to the `n` bytes of its destination only -/
theorem strlcpyFrom_out {dest src n r i x : Nat} {m : Mem} (hn : i + r = n)
    (hx : ¬ (dest ≤ x ∧ x < dest + n)) : (strlcpyFrom dest src n r i m).2 x = m x ∨ n = 0 := by
  induction r generalizing i m with
  | zero =>
    by_cases h0 : n = 0
    · exact .inr h0
    · refine .inl ?_
      show Function.update m (dest + (n - 1)) 0 x = m x
      rw [Function.update_of_ne (by omega)]
  | succ r ih =>
    refine .inl ?_
    have hne : x ≠ dest + i := by omega
    unfold strlcpyFrom
    simp only
    split
    · exact Function.update_of_ne hne _ _
    · rw [(ih (by omega)).resolve_right (by omega), Function.update_of_ne hne]

theorem strlcpyFrom_le {dest src n r i : Nat} {m : Mem} (hn : i + r = n) :
    (strlcpyFrom dest src n r i m).1 ≤ n := by
  induction r generalizing i m with
  | zero => exact Nat.le_refl n
  | succ r ih =>
    unfold strlcpyFrom
    simp only
    split
    · show i ≤ n
      omega
    · exact ih (by omega)

/-- the copies of the arguments and the table of their addresses stay on the last page -/
theorem copyArgs_out {argv p table n i off off' x : Nat} {m m' : Mem}
    (htable : p ≤ table ∧ table + 8 * (i + n) ≤ p + pageSize) (hoff : off ≤ pageSize ∨ wordCount / 2 ≤ off)
    (hx : ¬ onPage p x) (hrun : copyArgs argv (p + pageSize) table n i off m = .ok (off', m')) :
    m' x = m x ∧ (off' ≤ pageSize ∨ wordCount / 2 ≤ off') := by
  induction n generalizing i off m with
  | zero =>
    cases hrun
    exact ⟨rfl, hoff⟩
  | succ n ih =>
    unfold copyArgs at hrun
    simp only at hrun
    obtain ⟨m₁, hm₁⟩ : ∃ m₁, m₁ = store 8 m (table + 8 * i) (userStackAddr off) := ⟨_, rfl⟩
    rw [← hm₁] at hrun
    obtain ⟨⟨length, m₂⟩, hcopy, hrun⟩ := Res.bind_eq_ok.mp hrun
    unfold onPage at hx
    have hstore : m₁ x = m x := by
      rw [hm₁]
      apply store_apply_out
      omega
    unfold strlcpy at hcopy
    by_cases hbound : 0 < off ∧ off < wordCount / 2
    · rw [if_pos hbound] at hcopy
      have hle : off ≤ pageSize := hoff.resolve_right (by omega)
      have hout : (strlcpyFrom (p + pageSize - off) (load 8 m₁ (argv + 8 * i)) off off 0 m₁).2 x = m₁ x := by
        refine (strlcpyFrom_out (Nat.zero_add off) ?_).resolve_right (by omega)
        omega
      have hlen : (strlcpyFrom (p + pageSize - off) (load 8 m₁ (argv + 8 * i)) off off 0 m₁).1 ≤ off :=
        strlcpyFrom_le (Nat.zero_add off)
      rw [Except.ok.inj hcopy] at hout hlen
      have hlen : length ≤ off := hlen
      have hoff' : (off + wordCount - (length + 1)) % wordCount ≤ pageSize ∨
          wordCount / 2 ≤ (off + wordCount - (length + 1)) % wordCount := by
        unfold pageSize wordCount at *
        omega
      obtain ⟨hmem, hfin⟩ := ih ⟨htable.1, by omega⟩ hoff' hrun
      exact ⟨hmem.trans (hout.trans hstore), hfin⟩
    · rw [if_neg hbound] at hcopy
      exact absurd hcopy Res.panic_ne_ok

/-- the arguments are written to the page of the stack -/
theorem initArgs_spec {argv envp : Nat} {err : Int} (hw : World h own q) (ht : t ∈ h.live)
    (hlast : own.Obj (h.lists.list (.vmAreas t)).last t .vnode)
    (hrun : h.initArgs t argv envp = .ok (err, h')) : err = 0 ∧ ∃ p m v mem frame,
      own.Page p t (.user m v) ∧ (∀ x, ¬ onPage p x → mem x = h.mm.mem x) ∧
      h' = ({ h with mm := h.mm.setMem mem } : Heap).setFrame t frame := by
  unfold initArgs at hrun
  obtain ⟨⟨argc, size₁⟩, _, hrun⟩ := Res.bind_eq_ok.mp hrun
  obtain ⟨⟨envc, size₂⟩, _, hrun⟩ := Res.bind_eq_ok.mp hrun
  simp only at hrun
  by_cases hbig : pageSize < size₂ + 8 * (argc + envc + 2)
  · rw [if_pos hbig] at hrun
    exact absurd hrun Res.panic_ne_ok
  rw [if_neg hbig] at hrun
  obtain ⟨_, _, hrun⟩ := Res.bind_eq_ok.mp hrun
  obtain ⟨_, _, hrun⟩ := Res.bind_eq_ok.mp hrun
  obtain ⟨_, hfirst, hrun⟩ := Res.bind_eq_ok.mp hrun
  obtain ⟨a, ha⟩ : ∃ a, a = (h.node (h.lists.list (.vmAreas t)).last).value := ⟨_, rfl⟩
  rw [← ha] at hrun hfirst
  obtain ⟨p, hp⟩ : ∃ p, p = (h.node (h.lists.list (.pages a)).first).value := ⟨_, rfl⟩
  rw [← hp] at hrun
  obtain ⟨⟨off₁, m₁⟩, hcopy₁, hrun⟩ := Res.bind_eq_ok.mp hrun
  obtain ⟨⟨off₂, m₂⟩, hcopy₂, hrun⟩ := Res.bind_eq_ok.mp hrun
  obtain ⟨_, _, hret⟩ := Res.bind_eq_ok.mp hrun
  cases hret
  have hA := hw.areas t ht
  have harea : own.Obj a t (.area (h.lists.list (.vmAreas t)).last) :=
    (hA.area _ _).mpr ⟨hlast, ha.symm⟩
  have hne : (h.lists.list (.pages a)).first ≠ 0 := by
    have hcond := kassert_eq_ok.mp hfirst
    rw [Bool.and_eq_true, bne_iff_ne] at hcond
    exact hcond.2
  have hpnode := (hA.pages a _ harea).first.resolve_left hne
  obtain ⟨v, huser⟩ := (hA.page _ p).mpr ⟨⟨a, hpnode⟩, hp.symm⟩
  have hmem : ∀ x, ¬ onPage p x → m₂ x = h.mm.mem x := by
    intro x hx
    obtain ⟨h₁, hoff₁⟩ := copyArgs_out (by omega) (.inl (by omega)) hx hcopy₁
    obtain ⟨h₂, _⟩ := copyArgs_out (by omega) hoff₁ hx hcopy₂
    exact h₂.trans h₁
  exact ⟨rfl, p, _, v, m₂, _, huser, hmem, rfl⟩

theorem initArgs_world {argv envp : Nat} {err : Int} (hw : World h own q) (ht : t ∈ h.live)
    (hlast : own.Obj (h.lists.list (.vmAreas t)).last t .vnode)
    (hrun : h.initArgs t argv envp = .ok (err, h')) : Grown q t h own h' own := by
  obtain ⟨_, p, m, v, mem, frame, hp, hmem, rfl⟩ := initArgs_spec hw ht hlast hrun
  have g := hw.write hp rfl nofun hmem
  exact g.trans (g.world.setFrame t t frame)

theorem taskInitElf_world {argv envp : Nat} {err : Int} (hw : World h own q) (ht : t ∈ h.live)
    (hrun : h.taskInitElf t program argv envp = .ok (err, h')) : ∃ own', Grown q t h own h' own' := by
  unfold taskInitElf at hrun
  obtain ⟨_, _, hrun⟩ := Res.bind_eq_ok.mp hrun
  obtain ⟨_, _, hrun⟩ := Res.bind_eq_ok.mp hrun
  obtain ⟨⟨retval, h₁⟩, hload, hrun⟩ := Res.bind_eq_ok.mp hrun
  obtain ⟨own₁, hg, hlast⟩ := loadElf_world hw ht hload
  simp only at hrun
  by_cases h0 : retval = 0
  · rw [if_neg (not_not.mpr h0)] at hrun
    have hlive : t ∈ h₁.live := by rw [hg.live]; exact ht
    exact ⟨own₁, hg.trans (initArgs_world hg.world hlive (hlast h0) hrun)⟩
  · rw [if_pos h0] at hrun
    cases hrun
    exact ⟨own₁, hg⟩

theorem expandStack_world {a n vaStart fuel : Nat} (hw : World h own q) (ht : t ∈ h.live)
    (harea : own.Obj a t (.area n)) (hrun : h.expandStack t a vaStart fuel = .ok h') :
    ∃ own', Grown q t h own h' own' := by
  obtain ⟨own', hg, _⟩ := expandStack_rule (I := fun _ _ => True) (fun _ _ _ _ => trivial) trivial hw ht
    harea hrun
  exact ⟨own', hg⟩

end FakeKernel
