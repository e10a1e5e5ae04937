import FakeKernel.Kernel.Image
import FakeKernel.Mm.MmInit

/-!
# What loading a program does to the translation map

* `Phdr.Covers`        the addresses whose page a segment maps;
* `PageCalls`, `Elf.Segment`   the pages that one segment maps, and what they hold;
* `loadPages_run`, `loadSegments_run`, `loadStack_run`   load_elf maps these pages and no others;
* `Loads`              a list of segments, one after the other;
* `kernel_map_intact`  load_elf leaves the kernel's half of the map alone exactly for the images whose
                       segments stay out of it;
* `splitImage`         an image whose only segment lies at `SPLIT`.
-/

namespace FakeKernel
open Bytes Bitfield Mm

/-! ## the pages of a segment -/

/-- some address of the segment's page range, as 64-bit numbers, lies on the page of `x`; page
numbers have 27 bits -/
def InRange (addr endAddr x : Nat) : Prop := ∃ va, addr ≤ va ∧ va < endAddr ∧ SamePage 0 x va

def Phdr.Covers (ph : Phdr) (x : Nat) : Prop := InRange ph.addr ph.endAddr x

/-- the segment gives its pages no permission at all -/
def Phdr.NoAccess (ph : Phdr) : Prop := ph.pFlags &&& (PF_R ||| PF_W ||| PF_X) = 0

/-- wherever a segment reaches into the kernel's addresses, nothing was mapped before and the segment
that maps the page last gives it no permission -/
def Elf.LeavesKernel (e : Elf) : Prop :=
  e.eMachine = EM_RISCV → ∀ l ph l' x, e.loaded = l ++ ph :: l' → splitAddr ≤ x → x < 2 ^ 39 →
    ph.Covers x → (∀ q ∈ l', ¬ q.Covers x) → mmioStop ≤ x ∧ ph.NoAccess

variable {h h' : Heap} {table addr endAddr x task : Nat} {ph : Phdr} {e : Elf}

theorem dvd_of_off {v : Nat} (hv : Sv39Va.off v = 0) : pageSize ∣ v := by
  unfold Sv39Va.off field at hv
  rw [pow_zero, Nat.div_one] at hv
  exact Nat.dvd_of_mod_eq_zero hv

theorem dvd_addr (ph : Phdr) : pageSize ∣ ph.addr := dvd_of_off (field_setField_self 0 12 0 _)

theorem endAddr_spec (ph : Phdr) : pageSize ∣ ph.endAddr ∧ ph.endAddr < 2 ^ 64 := by
  have hlt : (ph.pVaddr + ph.pMemsz) % wordCount < 2 ^ 64 := Nat.mod_lt _ (Nat.two_pow_pos 64)
  unfold Phdr.endAddr
  simp only
  split
  · refine ⟨dvd_of_off ?_, ?_⟩
    · exact (field_setField_below (by decide)).trans (field_setField_self 0 12 0 _)
    · exact setField_lt (by decide) (setField_lt (by decide) hlt)
  · rename_i hoff
    exact ⟨dvd_of_off (not_not.mp hoff), hlt⟩

theorem samePage_of_mem {va : Nat} (ha : pageSize ∣ addr) (h1 : addr ≤ va)
    (h2 : va < addr + pageSize) : SamePage 0 x va ↔ SamePage 0 x addr := by
  obtain ⟨m, rfl⟩ := ha
  unfold SamePage pageSize at *
  omega

/-- the first page of a range, and the rest of it -/
theorem inRange_cons (ha : pageSize ∣ addr) (he : pageSize ∣ endAddr) (hlt : addr < endAddr) :
    InRange addr endAddr x ↔ SamePage 0 x addr ∨ InRange (addr + pageSize) endAddr x := by
  have hle : addr + pageSize ≤ endAddr := by
    obtain ⟨m, rfl⟩ := ha
    obtain ⟨n, rfl⟩ := he
    unfold pageSize at *
    omega
  constructor
  · intro ⟨va, h1, h2, h3⟩
    by_cases hva : va < addr + pageSize
    · exact .inl ((samePage_of_mem ha h1 hva).mp h3)
    · exact .inr ⟨va, by omega, h2, h3⟩
  · intro h
    cases h with
    | inl hfirst => exact ⟨addr, Nat.le_refl _, hlt, hfirst⟩
    | inr hrest =>
      obtain ⟨va, h1, h2, h3⟩ := hrest
      exact ⟨va, by omega, h2, h3⟩

theorem not_inRange (hge : endAddr ≤ addr) : ¬ InRange addr endAddr x := by
  intro ⟨va, h1, h2, _⟩
  omega

/-! ## one segment -/

/-- `g` maps the addresses in `C` to pages with `flags`, and the others as `f` does -/
def Overlay (C : Nat → Prop) (flags : Nat) (f g : Nat → Option Translation) : Prop :=
  ∀ x, (C x → ∃ pa, g x = setLeaf 0 pa flags x) ∧ (¬ C x → g x = f x)

/-- the translation map of the tree at `root` -/
def mapOf (h : Heap) (root : Nat) (x : Nat) : Option Translation := walk h.mm.mem 2 root x

theorem pteFlags_lt (ph : Phdr) : ph.pteFlags < 2 ^ 8 := by
  unfold Phdr.pteFlags
  simp only
  split <;> split <;> split <;> decide

theorem setPage_heap {va pa flags : Nat} {err : Int} (hrun : h.setPage table va pa flags = .ok (err, h')) :
    ∃ mm, h' = { h with mm := mm } ∧ FakeKernel.setPage table va pa flags h.mm = .ok (err, mm) := by
  unfold Heap.setPage at hrun
  obtain ⟨⟨err', mm⟩, hset, hret⟩ := Res.bind_eq_ok.mp hrun
  cases hret
  exact ⟨mm, rfl, hset⟩

/-- the calls that map the pages from `addr` to `endAddr`; `byte` is what they hold from `addr` on -/
structure PageCalls (flags addr endAddr : Nat) (byte : Nat → UInt8) (l : List PageCall) : Prop where
  flags : ∀ c ∈ l, c.flags = flags
  va : ∀ c ∈ l, pageSize ∣ c.va ∧ addr ≤ c.va ∧ c.va < endAddr
  content : ∀ c ∈ l, ∀ k < pageSize, c.content k = byte (c.va - addr + k)
  covers : ∀ x, InRange addr endAddr x ↔ ∃ c ∈ l, SamePage 0 x c.va

variable {a₀ : Mm} {l l₀ : List PageCall}

theorem loadPages_run {toAddr flags area fuel off src : Nat} (hsrc : SrcOutside toAddr src) (hw₀ : WellFormed a₀ table)
    (hout₀ : ∀ s ∈ tables a₀.mem 2 table, pageAt s ∈ a₀.out) (hr : LoadRun table l₀ a₀ h.mm) (hf : flags < 2 ^ 8)
    (ha : pageSize ∣ addr) (he : pageSize ∣ endAddr) (hlt : endAddr < 2 ^ 64)
    (hrun : Heap.loadPages toAddr table flags area endAddr fuel addr off src h = .ok h') :
    h'.task = h.task ∧ ∃ l, LoadRun table (l ++ l₀) a₀ h'.mm ∧
      PageCalls flags addr endAddr (segByte a₀.mem toAddr off src) l := by
  induction fuel generalizing h addr off src l₀ with
  | zero => exact nomatch hrun
  | succ fuel ih =>
    unfold Heap.loadPages at hrun
    by_cases hend : addr < endAddr
    · simp only [hend, if_true] at hrun
      obtain ⟨hw, hholds⟩ := hr.inv hw₀
      obtain ⟨⟨p, h₁⟩, hal, hrun⟩ := Res.bind_eq_ok.mp hrun
      obtain ⟨mm₁, rfl, hp0, hx₁⟩ := Heap.allocPage_spec hw.ok hal
      simp only [hp0, if_false] at hrun
      have hpin : p ∈ [p] := List.mem_singleton_self p
      have hp₁ := hw.spendable hx₁ (fun _ _ => nofun) hpin
      have hother : ∀ c ∈ l₀, c.page ≠ p := by
        intro c hc e
        rw [← e] at hpin
        exact hx₁.not_new (hholds c hc).kept (e ▸ hpin)
      obtain ⟨⟨err₂, h₂⟩, hadd, hrun⟩ := Res.bind_eq_ok.mp hrun
      obtain ⟨rfl, mm₂, n, rfl, _, hx₂, _⟩ := Heap.vmAreaAddPage_spec hx₁.ok hadd
      simp only [ne_eq, not_true_eq_false, if_false] at hrun
      have hr₂ : LoadRun table l₀ a₀ mm₂ := (hr.extends hx₁).extends hx₂
      obtain ⟨hw₁, _⟩ := (hr.extends hx₁).inv hw₀
      obtain ⟨_, _, htab₂⟩ := hw₁.extends hx₂ fun _ _ => nofun
      have hp₂ : Spendable mm₂ table p := hp₁.extends hx₂ fun s hs => by
        rw [htab₂] at hs
        exact .inl hs
      obtain ⟨hw₂, _⟩ := hr₂.inv hw₀
      obtain ⟨⟨err₃, h₃⟩, hset, hrun⟩ := Res.bind_eq_ok.mp hrun
      obtain ⟨mm₃, rfl, hset'⟩ := setPage_heap hset
      obtain ⟨herr, _, _, hsplit, _⟩ := setPage_spec hw₂ hf hset'
      subst herr
      simp only [not_true_eq_false, if_false] at hrun
      have hm₃ : ∀ x, x ∉ usable → mm₃.mem x = a₀.mem x := by
        intro x hx
        rw [← hr₂.outside hw₀ hout₀ hx]
        exact hsplit.grow.frame x (.inl hx) fun s hs hin => hx (hw₂.ok.usable (hr₂.out hw₀ hout₀ s hs) (mem_pageAt.mpr hin))
      have hp₃ : ∀ j < pageSize, p + (0 + j) ∈ usable := by
        intro j hj
        rw [Nat.zero_add]
        exact hp₂.byte_usable ⟨Nat.le_add_right _ _, Nat.add_lt_add_left hj _⟩
      obtain ⟨hoff', hsrc', hbyte, _⟩ := fillPage_spec (k := 0) off hsrc hm₃ hp₃
      have hout : ∀ x, ¬ onPage p x → (Heap.fillPage toAddr p pageSize 0 off src mm₃.mem).2.2 x = mm₃.mem x :=
        fun x hx => Heap.fillPage_out (Nat.le_refl _) hx
      obtain ⟨r, hr'⟩ : ∃ r, r = Heap.fillPage toAddr p pageSize 0 off src mm₃.mem := ⟨_, rfl⟩
      rw [← hr'] at hrun hoff' hsrc' hbyte hout
      obtain ⟨c₁, hc₁⟩ : ∃ c, c = PageCall.mk addr flags p (segByte a₀.mem toAddr off src) := ⟨_, rfl⟩
      have hr₃ : LoadRun table (c₁ :: l₀) a₀ (mm₃.setMem r.2.2) := by
        rw [hc₁]
        refine hr₂.page hf hp₂ hother hset' hout fun k hk => ?_
        show r.2.2 (p + k) = segByte a₀.mem toAddr off src k
        rw [← hbyte k hk, Nat.zero_add]
      have hnext : addr + pageSize < 2 ^ 64 := by
        obtain ⟨a, rfl⟩ := ha
        obtain ⟨b, rfl⟩ := he
        unfold pageSize at *
        omega
      have hmod : (addr + pageSize) % wordCount = addr + pageSize := Nat.mod_eq_of_lt hnext
      simp only [hmod, hoff', hsrc'] at hrun
      have hdvd : pageSize ∣ addr + pageSize := Nat.dvd_add ha (Nat.dvd_refl _)
      obtain ⟨htask, l, hrun', hl⟩ := ih hsrc.iterate hr₃ hdvd hrun
      refine ⟨htask, l ++ [c₁], ?_, ?_⟩
      · rw [List.append_assoc]
        exact hrun'
      · have hin : ∀ {c : PageCall}, c ∈ l ++ [c₁] → c ∈ l ∨ c = .mk addr flags p (segByte a₀.mem toAddr off src) := by
          intro c hc
          rw [hc₁] at hc
          exact (List.mem_append.mp hc).imp_right List.mem_singleton.mp
        refine ⟨fun c hc => ?_, fun c hc => ?_, fun c hc k hk => ?_, fun x => ?_⟩
        · cases hin hc with
          | inl hc => exact hl.flags c hc
          | inr hc => rw [hc]
        · cases hin hc with
          | inl hc =>
            obtain ⟨h1, h2, h3⟩ := hl.va c hc
            exact ⟨h1, by omega, h3⟩
          | inr hc =>
            rw [hc]
            exact ⟨ha, Nat.le_refl _, hend⟩
        · cases hin hc with
          | inl hc =>
            have hva := (hl.va c hc).2.1
            have he : c.va - addr + k = pageSize + (c.va - (addr + pageSize) + k) := by omega
            rw [hl.content c hc k hk, segByte_shift, he]
          | inr hc =>
            rw [hc, Nat.sub_self, Nat.zero_add]
        · rw [inRange_cons ha he hend, hl.covers x]
          constructor
          · intro hx
            cases hx with
            | inl hx =>
              refine ⟨c₁, List.mem_append_right _ (List.mem_singleton_self _), ?_⟩
              rw [hc₁]
              exact hx
            | inr hx =>
              obtain ⟨c, hc, hx⟩ := hx
              exact ⟨c, List.mem_append_left _ hc, hx⟩
          · intro ⟨c, hc, hx⟩
            cases hin hc with
            | inl hc => exact .inr ⟨c, hc, hx⟩
            | inr hc =>
              rw [hc] at hx
              exact .inl hx
    · simp only [hend, if_false] at hrun
      cases hrun
      refine ⟨rfl, [], hr, ⟨nofun, nofun, nofun, fun x => iff_of_false ?_ nofun⟩⟩
      exact not_inRange (Nat.not_lt.mp hend)

/-- what the pages of a segment are filled with -/
def Elf.fileByte (e : Elf) (ph : Phdr) : Nat → UInt8 :=
  segByte e.mem ((e.src ph + ph.pFilesz) % wordCount) ph.off (e.src ph)

/-- the calls for the pages of one segment -/
def Elf.Segment (e : Elf) (ph : Phdr) (l : List PageCall) : Prop :=
  PageCalls ph.pteFlags ph.addr ph.endAddr (e.fileByte ph) l

theorem loadSegment_run (hin : e.LiesIn a₀.mem) (hph : ph ∈ e.loaded) (hw₀ : WellFormed a₀ table)
    (hout₀ : ∀ s ∈ tables a₀.mem 2 table, pageAt s ∈ a₀.out) (hr : LoadRun table l₀ a₀ h.mm)
    (ht : (h.task task).pageTable = table) (hrun : h.loadSegment task e.program ph = .ok h') :
    h'.task = h.task ∧ ∃ l, LoadRun table (l ++ l₀) a₀ h'.mm ∧ e.Segment ph l := by
  obtain ⟨hw, _⟩ := hr.inv hw₀
  unfold Heap.loadSegment at hrun
  obtain ⟨⟨area, h₁⟩, hcreate, hrun⟩ := Res.bind_eq_ok.mp hrun
  obtain ⟨mm₁, rfl, _, hx₁, _⟩ := Heap.vmAreaCreate_spec hw.ok hcreate
  obtain ⟨⟨err, h₂⟩, hadd, hrun⟩ := Res.bind_eq_ok.mp hrun
  obtain ⟨rfl, mm₂, n, L, A, rfl, _, hx₂⟩ := Heap.vmAddArea_rest hx₁.ok hadd
  simp only [ne_eq, not_true_eq_false, if_false] at hrun
  obtain ⟨hend, hlt⟩ := endAddr_spec ph
  obtain ⟨k, hk⟩ : ∃ k, k = { h with mm := mm₂, lists := L, area := A, blocks := n :: area :: h.blocks } := ⟨_, rfl⟩
  have hrun' := hrun
  simp only [Heap.setArea, Heap.listInit] at hrun'
  rw [← hk] at hrun'
  have htask : k.task = h.task := by rw [hk]
  have hr₂ : LoadRun table l₀ a₀ k.mm := by
    rw [hk]
    exact (hr.extends hx₁).extends hx₂
  rw [ht] at hrun'
  rw [← htask]
  obtain ⟨htask', l, hrun₂, hl⟩ := loadPages_run (hin.srcOutside hph) hw₀ hout₀ hr₂ (pteFlags_lt ph) (dvd_addr ph) hend hlt hrun'
  have hbyte : segByte a₀.mem ((e.src ph + ph.pFilesz) % wordCount) ph.off (e.src ph) = e.fileByte ph :=
    funext fun i => hin.segByte hph ph.off i
  refine ⟨htask', l, hrun₂, ?_⟩
  unfold Elf.Segment
  rw [← hbyte]
  exact hl

/-- the calls for a list of segments, one after the other -/
def Elf.Segments (e : Elf) : List Phdr → List PageCall → Prop
  | [], l => l = []
  | ph :: phs, l => ∃ l₁ l₂, l = l₂ ++ l₁ ∧ e.Segment ph l₁ ∧ e.Segments phs l₂

theorem loadSegments_run {n i : Nat} {b : Bool} {r : Except Int Bool} (hin : e.LiesIn a₀.mem) (hw₀ : WellFormed a₀ table)
    (hout₀ : ∀ s ∈ tables a₀.mem 2 table, pageAt s ∈ a₀.out) (hsub : e.loadedFrom (e.ePhnum - i) i ⊆ e.loaded)
    (hr : LoadRun table l₀ a₀ h.mm) (ht : (h.task task).pageTable = table)
    (hrun : h.loadSegments task e.program n i b = .ok (r, h')) :
    h'.task = h.task ∧ ∃ l, LoadRun table (l ++ l₀) a₀ h'.mm ∧ e.Segments (e.loadedFrom (e.ePhnum - i) i) l := by
  induction n generalizing h i b l₀ with
  | zero => exact nomatch hrun
  | succ n ih =>
    have hin' : e.LiesIn h.mm.mem := hin.mono fun x hx => hr.outside hw₀ hout₀ hx
    rw [hin'.loadSegments] at hrun
    by_cases hi : i < e.ePhnum
    · rw [if_pos hi] at hrun
      rw [e.loadedFrom_of_lt hi] at hsub ⊢
      by_cases hload : (e.phdr i).pType = PT_LOAD
      · rw [if_pos hload] at hrun hsub ⊢
        obtain ⟨h₁, hseg, hrun⟩ := Res.bind_eq_ok.mp hrun
        obtain ⟨htask₁, l₁, hr₁, hl₁⟩ := loadSegment_run hin (hsub List.mem_cons_self) hw₀ hout₀ hr ht hseg
        obtain ⟨htask, l₂, hr₂, hl₂⟩ := ih (fun q hq => hsub (List.mem_cons_of_mem _ hq)) hr₁ (by rw [htask₁, ht]) hrun
        refine ⟨htask.trans htask₁, l₂ ++ l₁, ?_, l₁, l₂, rfl, hl₁, hl₂⟩
        rw [List.append_assoc]
        exact hr₂
      · rw [if_neg hload] at hrun hsub ⊢
        by_cases hdyn : (e.phdr i).pType = PT_DYNAMIC ∨ (e.phdr i).pType = PT_INTERP
        · rw [if_pos hdyn] at hrun ⊢
          cases hrun
          exact ⟨rfl, [], hr, rfl⟩
        · rw [if_neg hdyn] at hrun hsub ⊢
          split at hrun
          · exact ih hsub hr ht hrun
          · exact ih hsub hr ht hrun
    · rw [if_neg hi] at hrun
      rw [e.loadedFrom_of_ge hi]
      cases hrun
      exact ⟨rfl, [], hr, rfl⟩

theorem loadSegments_error {program n i : Nat} {b : Bool} {err : Int}
    (hrun : h.loadSegments task program n i b = .ok (.error err, h')) : err = -EINVAL := by
  induction n generalizing h i b with
  | zero => exact nomatch hrun
  | succ n ih =>
    unfold Heap.loadSegments at hrun
    simp only at hrun
    split at hrun
    · split at hrun
      · obtain ⟨h₁, _, hrun⟩ := Res.bind_eq_ok.mp hrun
        exact ih hrun
      · split at hrun
        · cases hrun
          rfl
        · split at hrun
          · exact ih hrun
          · exact ih hrun
    · exact nomatch (Prod.mk.inj (Except.ok.inj hrun)).1

/-! ## a list of segments -/

def Loads : List Phdr → (Nat → Option Translation) → (Nat → Option Translation) → Prop
  | [], f, g => g = f
  | ph :: l, f, g => ∃ f', Overlay ph.Covers ph.pteFlags f f' ∧ Loads l f' g

theorem Loads.uncovered {l : List Phdr} {f g : Nat → Option Translation} (ha : Loads l f g)
    (hx : ∀ q ∈ l, ¬ q.Covers x) : g x = f x := by
  induction l generalizing f with
  | nil => exact congrFun ha x
  | cons ph l ih =>
    obtain ⟨f', hover, hrest⟩ := ha
    rw [ih hrest fun q hq => hx q (List.mem_cons_of_mem ph hq)]
    exact (hover x).2 (hx ph List.mem_cons_self)

/-- the segment that covers an address last decides about it -/
theorem Loads.covered {l l' : List Phdr} {f g : Nat → Option Translation}
    (ha : Loads (l ++ ph :: l') f g) (hx : ph.Covers x) (hx' : ∀ q ∈ l', ¬ q.Covers x) :
    ∃ pa, g x = setLeaf 0 pa ph.pteFlags x := by
  induction l generalizing f with
  | nil =>
    obtain ⟨f', hover, hrest⟩ := ha
    obtain ⟨pa, hpa⟩ := (hover x).1 hx
    exact ⟨pa, (hrest.uncovered hx').trans hpa⟩
  | cons q l ih =>
    obtain ⟨f', _, hrest⟩ := ha
    exact ih hrest

theorem exists_last_cover {l : List Phdr} (hx : ∃ q ∈ l, q.Covers x) :
    ∃ l₁ ph l₂, l = l₁ ++ ph :: l₂ ∧ ph.Covers x ∧ ∀ q ∈ l₂, ¬ q.Covers x := by
  induction l with
  | nil =>
    obtain ⟨q, hq, _⟩ := hx
    exact absurd hq List.not_mem_nil
  | cons ph l ih =>
    by_cases hrest : ∃ q ∈ l, q.Covers x
    · obtain ⟨l₁, q, l₂, rfl, hq⟩ := ih hrest
      exact ⟨ph :: l₁, q, l₂, rfl, hq⟩
    · obtain ⟨q, hq, hqx⟩ := hx
      refine ⟨[], ph, l, rfl, ?_, fun q hq hqx => hrest ⟨q, hq, hqx⟩⟩
      cases List.mem_cons.mp hq with
      | inl he => exact he ▸ hqx
      | inr hl => exact absurd ⟨q, hl, hqx⟩ hrest

theorem Elf.Segment.overlay (hs : e.Segment ph l) (f : Nat → Option Translation) : Overlay ph.Covers ph.pteFlags f
    fun x => match lastCall l x with
      | some c => setLeaf 0 (PA c.page) c.flags x
      | none => f x := by
  intro x
  constructor
  · intro hx
    obtain ⟨c, hc, hcx⟩ := (hs.covers x).mp hx
    cases hlast : lastCall l x with
    | none => exact absurd hcx (lastCall_eq_none.mp hlast c hc)
    | some c' =>
      refine ⟨PA c'.page, ?_⟩
      rw [← hs.flags c' (lastCall_some hlast).1]
      simp only [hlast]
  · intro hx
    have hnone : lastCall l x = none := lastCall_eq_none.mpr fun c hc hcx => hx ((hs.covers x).mpr ⟨c, hc, hcx⟩)
    simp only [hnone]

theorem Elf.Segments.loads {phs : List Phdr} (hs : e.Segments phs l) (f : Nat → Option Translation) : Loads phs f
    fun x => match lastCall l x with
      | some c => setLeaf 0 (PA c.page) c.flags x
      | none => f x := by
  induction phs generalizing l f with
  | nil =>
    rw [show l = [] from hs]
    rfl
  | cons ph phs ih =>
    obtain ⟨l₁, l₂, rfl, h₁, h₂⟩ := hs
    refine ⟨_, h₁.overlay f, ?_⟩
    have hrest := ih h₂ fun x => match lastCall l₁ x with
      | some c => setLeaf 0 (PA c.page) c.flags x
      | none => f x
    have hfun : (fun x => match lastCall (l₂ ++ l₁) x with
        | some c => setLeaf 0 (PA c.page) c.flags x
        | none => f x) = fun x => match lastCall l₂ x with
        | some c => setLeaf 0 (PA c.page) c.flags x
        | none => match lastCall l₁ x with
          | some c => setLeaf 0 (PA c.page) c.flags x
          | none => f x := by
      funext x
      rw [lastCall_append]
      cases lastCall l₂ x <;> rfl
    rw [hfun]
    exact hrest

theorem Elf.Segments.lastCall_none {phs : List Phdr} (hs : e.Segments phs l) :
    lastCall l x = none ↔ ∀ q ∈ phs, ¬ q.Covers x := by
  induction phs generalizing l with
  | nil =>
    rw [show l = [] from hs]
    exact iff_of_true rfl nofun
  | cons ph phs ih =>
    obtain ⟨l₁, l₂, rfl, h₁, h₂⟩ := hs
    have hfirst : lastCall l₁ x = none ↔ ¬ ph.Covers x := by
      have hcov : ph.Covers x ↔ ∃ c ∈ l₁, SamePage 0 x c.va := h₁.covers x
      rw [lastCall_eq_none, hcov]
      exact ⟨fun hno ⟨c, hc, hcx⟩ => hno c hc hcx, fun hno c hc hcx => hno ⟨c, hc, hcx⟩⟩
    rw [lastCall_append, Option.or_eq_none_iff, ih h₂, hfirst, List.forall_mem_cons, and_comm]

/-- the call that decides belongs to the segment that covers the page last -/
theorem Elf.Segments.lastCall_of {phs phs' : List Phdr} (hs : e.Segments (phs ++ ph :: phs') l) (hx : ph.Covers x)
    (hx' : ∀ q ∈ phs', ¬ q.Covers x) : ∃ c lc, lastCall l x = some c ∧ e.Segment ph lc ∧ c ∈ lc := by
  induction phs generalizing l with
  | nil =>
    obtain ⟨l₁, l₂, rfl, h₁, h₂⟩ := hs
    rw [lastCall_append, h₂.lastCall_none.mpr hx', Option.none_or]
    cases hlast : lastCall l₁ x with
    | none =>
      obtain ⟨c, hc, hcx⟩ := (h₁.covers x).mp hx
      exact absurd hcx (lastCall_eq_none.mp hlast c hc)
    | some c => exact ⟨c, l₁, rfl, h₁, (lastCall_some hlast).1⟩
  | cons q phs ih =>
    obtain ⟨l₁, l₂, rfl, _, h₂⟩ := hs
    obtain ⟨c, lc, hlast, hc⟩ := ih h₂
    refine ⟨c, lc, ?_, hc⟩
    rw [lastCall_append, hlast, Option.some_or]

theorem loadSegments_map {n : Nat} {b : Bool} {r : Except Int Bool} (hin : e.LiesIn h.mm.mem) (hw : WellFormed h.mm table)
    (hout : ∀ s ∈ tables h.mm.mem 2 table, pageAt s ∈ h.mm.out) (ht : (h.task task).pageTable = table)
    (hrun : h.loadSegments task e.program n 0 b = .ok (r, h')) :
    WellFormed h'.mm table ∧ h'.task = h.task ∧ Loads e.loaded (mapOf h table) (mapOf h' table) := by
  obtain ⟨htask, l, hr, hl⟩ := loadSegments_run hin hw hout (List.Subset.refl _) (.refl h.mm) ht hrun
  rw [List.append_nil] at hr
  have hmap : mapOf h' table = fun x => match lastCall l x with
      | some c => setLeaf 0 (PA c.page) c.flags x
      | none => mapOf h table x := funext fun x => hr.walk hw x
  rw [hmap]
  exact ⟨(hr.inv hw).1, htask, hl.loads (mapOf h table)⟩

/-! ## the kernel's half of the map -/

theorem setPageUser_heap {va pa flags : Nat} {err : Int}
    (hrun : h.setPageUser table va pa flags = .ok (err, h')) :
    ∃ mm, h' = { h with mm := mm } ∧
      FakeKernel.setPage table va pa (flags ||| pteUser) h.mm = .ok (err, mm) := by
  unfold Heap.setPageUser at hrun
  obtain ⟨⟨err', mm⟩, hset, hret⟩ := Res.bind_eq_ok.mp hrun
  cases hret
  exact ⟨mm, rfl, hset⟩

theorem clearWords_zero {page n x : Nat} {m : Mem} (h1 : page ≤ x) (h2 : x < page + 8 * n) :
    Heap.clearWords page n m x = 0 := by
  induction n with
  | zero => omega
  | succ n ih =>
    show store 8 (Heap.clearWords page n m) (page + 8 * n) 0 x = 0
    by_cases hx : x < page + 8 * n
    · rw [store_apply_out (by omega)]
      exact ih hx
    · exact store_zero (by omega) (by omega)

/-- a page is handed out and cleared -/
theorem zeroPage_run {p : Nat} {h₁ : Heap} (hw₀ : WellFormed a₀ table) (hr : LoadRun table l₀ a₀ h.mm)
    (hal : h.allocPage = .ok (p, h₁)) : p ≠ 0 ∧ ∃ mm, h₁.clearPage p = { h with mm := mm } ∧ LoadRun table l₀ a₀ mm ∧
      Spendable mm table p ∧ (∀ c ∈ l₀, c.page ≠ p) ∧ (∀ k < pageSize, mm.mem (p + k) = 0) ∧ ¬ h.mm.KeptPage p := by
  obtain ⟨hw, hholds⟩ := hr.inv hw₀
  obtain ⟨mm₁, rfl, hp0, hx₁⟩ := Heap.allocPage_spec hw.ok hal
  have hpin : p ∈ [p] := List.mem_singleton_self p
  obtain ⟨mm, hclear, hx⟩ := Heap.clearPage_spec { h with mm := mm₁ } hx₁ hpin
  refine ⟨hp0, mm, hclear, hr.extends hx, hw.spendable hx (fun _ _ => nofun) hpin, fun c hc e => ?_, fun k hk => ?_,
    fun hkept => hx.not_new hkept hpin⟩
  · exact hx.not_new (hholds c hc).kept (e ▸ hpin)
  · have hmm : mm = mm₁.setMem (Heap.clearWords p (pageSize / 8) mm₁.mem) := (congrArg Heap.mm hclear).symm
    rw [hmm]
    exact clearWords_zero (Nat.le_add_right p k) (by unfold pageSize at *; omega)

theorem loadStack_run {program : Nat} {b : Bool} (hw₀ : WellFormed a₀ table) (hr : LoadRun table l₀ a₀ h.mm)
    (ht : (h.task task).pageTable = table) (hrun : h.loadStack task program b = .ok h') : ∃ c, LoadRun table (c :: l₀) a₀ h'.mm ∧
      c.va = userStack - pageSize ∧ c.content = (fun _ => 0) ∧
      c.flags = (pteValid ||| pteUser ||| pteRead ||| pteWrite ||| (if b then pteExec else 0)) ||| pteUser ∧
      h'.task = (h.setFrame task (Heap.startFrame (h'.image program).eEntry)).task := by
  unfold Heap.loadStack at hrun
  simp only at hrun
  obtain ⟨⟨p, h₁⟩, hal, hrun⟩ := Res.bind_eq_ok.mp hrun
  obtain ⟨hp0, mm, hclear, hrc, hp, hother, hzero, _⟩ := zeroPage_run hw₀ hr hal
  simp only [hp0, if_false] at hrun
  rw [hclear] at hrun
  obtain ⟨⟨area, h₂⟩, hcreate, hrun⟩ := Res.bind_eq_ok.mp hrun
  obtain ⟨mm₂, rfl, _, hx₂, _⟩ := Heap.vmAreaCreate_spec (hrc.inv hw₀).1.ok hcreate
  obtain ⟨⟨err, h₃⟩, hadd, hrun⟩ := Res.bind_eq_ok.mp hrun
  obtain ⟨rfl, mm₃, n, L, A, rfl, _, hx₃⟩ := Heap.vmAddArea_rest hx₂.ok hadd
  simp only [ne_eq, not_true_eq_false, if_false] at hrun
  obtain ⟨⟨err, h₄⟩, hpage, hrun⟩ := Res.bind_eq_ok.mp hrun
  obtain ⟨rfl, mm₄, m, rfl, _, hx₄, _⟩ := Heap.vmAreaAddPage_spec hx₃.ok hpage
  simp only [not_true_eq_false, if_false] at hrun
  have hx : Extends mm mm₄ ∅ _ := (hx₂.trans hx₃ nofun).trans hx₄ nofun
  obtain ⟨⟨err, h₅⟩, hset, hrun⟩ := Res.bind_eq_ok.mp hrun
  obtain ⟨mm₅, rfl, hset'⟩ := setPageUser_heap hset
  rw [ht] at hset'
  have hflags : (pteValid ||| pteUser ||| pteRead ||| pteWrite ||| (if b then pteExec else 0)) ||| pteUser
      < 2 ^ 8 := by
    cases b <;> decide
  obtain ⟨rfl, hr₅⟩ := hrc.mapKept hw₀ hp hother hzero hx hflags hset'
  simp only [not_true_eq_false, if_false] at hrun
  cases hrun
  exact ⟨_, hr₅, rfl, rfl, rfl, rfl⟩

/-- the page below `USERSTACK` is mapped last -/
theorem loadElf_run (hin : e.LiesIn h.mm.mem) (hw : WellFormed h.mm table)
    (hout : ∀ s ∈ tables h.mm.mem 2 table, pageAt s ∈ h.mm.out) (ht : (h.task task).pageTable = table)
    (hrun : h.loadElf task e.program = .ok (0, h')) : ∃ c l, LoadRun table (c :: l) h.mm h'.mm ∧ e.Segments e.loaded l ∧
      c.va = userStack - pageSize ∧ c.content = (fun _ => 0) ∧ pteIsLeaf c.flags = true ∧
      h'.task = (h.setFrame task (Heap.startFrame e.eEntry)).task := by
  unfold Heap.loadElf at hrun
  rw [hin.eMachine] at hrun
  by_cases hmach : e.eMachine = EM_RISCV
  · simp only [hmach, ne_eq, not_true_eq_false, if_false] at hrun
    obtain ⟨⟨res, h₁⟩, hsegs, hrun⟩ := Res.bind_eq_ok.mp hrun
    obtain ⟨htask, l, hr, hl⟩ := loadSegments_run hin hw hout (List.Subset.refl _) (.refl h.mm) ht hsegs
    rw [List.append_nil] at hr
    cases res with
    | error err =>
      have herr := loadSegments_error hsegs
      have hzero : err = 0 := (Prod.mk.inj (Except.ok.inj hrun)).1
      exact absurd hzero (by rw [herr]; decide)
    | ok b =>
      obtain ⟨h₂, hstack, hret⟩ := Res.bind_eq_ok.mp hrun
      cases hret
      obtain ⟨c, hc, hva, hzero, hflags, htask'⟩ := loadStack_run hw hr (by rw [htask, ht]) hstack
      refine ⟨c, l, hc, hl, hva, hzero, ?_, ?_⟩
      · rw [hflags]
        cases b <;> decide
      · have hin' : e.LiesIn h'.mm.mem := hin.mono fun x hx => hc.outside hw hout hx
        rw [htask', hin'.eEntry]
        show Function.update h₁.task task _ = Function.update h.task task _
        rw [htask]
  · simp only [hmach, ne_eq, not_false_eq_true, if_true] at hrun
    exact absurd (Prod.mk.inj (Except.ok.inj hrun)).1 (by decide)

theorem loadStack_map {program : Nat} {b : Bool} (hw : WellFormed h.mm table)
    (ht : (h.task task).pageTable = table) (hrun : h.loadStack task program b = .ok h') :
    WellFormed h'.mm table ∧
      ∀ x, ¬ SamePage 0 x (userStack - pageSize) → mapOf h' table x = mapOf h table x := by
  obtain ⟨c, hr, hva, _⟩ := loadStack_run hw (.refl h.mm) ht hrun
  refine ⟨(hr.inv hw).1, fun x hx => ?_⟩
  rw [← hva] at hx
  show walk h'.mm.mem 2 table x = _
  rw [hr.walk hw x, lastCall_cons, if_neg hx]
  rfl

/-- every translation at or above `SPLIT` is the kernel's and none is open to user code -/
def KernelIntact (h : Heap) (table : Nat) : Prop :=
  ∀ x, splitAddr ≤ x → x < 2 ^ 39 → mapOf h table x = kernelMap x ∧
    ∀ tr, mapOf h table x = some tr → tr.flags &&& pteUser = 0

theorem kernelMap_eq_none (hx : splitAddr ≤ x) (hx' : x < 2 ^ 39) :
    kernelMap x = none ↔ mmioStop ≤ x := by
  unfold kernelMap
  have hkern : SamePage 2 x kernBase ↔ x < kernStop := by
    unfold SamePage kernStop kernBase splitAddr at *
    omega
  have hmmio : SamePage 2 x mmioBase ↔ kernStop ≤ x ∧ x < mmioStop := by
    unfold SamePage mmioStop mmioBase kernStop kernBase splitAddr at *
    omega
  have hle : kernStop ≤ mmioStop := by decide
  by_cases hk : x < kernStop
  · rw [if_pos (hkern.mpr hk)]
    exact ⟨nofun, fun hge => absurd hk (by omega)⟩
  · rw [if_neg fun hs => hk (hkern.mp hs)]
    by_cases hm : x < mmioStop
    · rw [if_pos (hmmio.mpr ⟨by omega, hm⟩)]
      exact ⟨nofun, fun hge => absurd hm (by omega)⟩
    · rw [if_neg fun hs => hm (hmmio.mp hs).2]
      exact ⟨fun _ => by omega, fun _ => rfl⟩

theorem kernelMap_user {tr : Translation} (hx : kernelMap x = some tr) :
    tr.flags &&& pteUser = 0 := by
  unfold kernelMap at hx
  split at hx
  · cases hx
    show kernFlags &&& pteUser = 0
    decide
  · split at hx
    · cases hx
      show mmioFlags &&& pteUser = 0
      decide
    · exact nomatch hx

theorem noAccess_iff (ph : Phdr) : ph.NoAccess ↔ pteIsLeaf ph.pteFlags = false := by
  have hbits : ∀ k, ph.pFlags &&& 2 ^ k = 0 ↔ ph.pFlags.testBit k = false := by
    intro k
    rw [Nat.and_two_pow]
    cases ph.pFlags.testBit k <;> simp
  have hR : ph.pFlags &&& PF_R = 0 ↔ ph.pFlags.testBit 2 = false := hbits 2
  have hW : ph.pFlags &&& PF_W = 0 ↔ ph.pFlags.testBit 1 = false := hbits 1
  have hX : ph.pFlags &&& PF_X = 0 ↔ ph.pFlags.testBit 0 = false := hbits 0
  have hall : ph.NoAccess ↔
      ph.pFlags &&& PF_R = 0 ∧ ph.pFlags &&& PF_W = 0 ∧ ph.pFlags &&& PF_X = 0 := by
    unfold Phdr.NoAccess
    rw [Nat.and_or_distrib_left, Nat.and_or_distrib_left, Nat.or_eq_zero_iff, Nat.or_eq_zero_iff,
      and_assoc]
  rw [hall]
  unfold Phdr.pteFlags
  by_cases h1 : ph.pFlags &&& PF_R = 0 <;> by_cases h2 : ph.pFlags &&& PF_W = 0 <;>
    by_cases h3 : ph.pFlags &&& PF_X = 0 <;>
    simp only [h1, h2, h3, ne_eq, not_true_eq_false, not_false_eq_true, if_true, if_false] <;> decide

theorem Phdr.pteFlags_valid (ph : Phdr) : ph.pteFlags &&& pteValid ≠ 0 := by
  unfold Phdr.pteFlags
  simp only
  split <;> split <;> split <;> decide

theorem setLeaf_pteFlags (ph : Phdr) (pa x : Nat) :
    setLeaf 0 pa ph.pteFlags x = if pteIsLeaf ph.pteFlags then
      some { pa := pa % 2 ^ 56 + x % 2 ^ 12, flags := ph.pteFlags } else none := by
  have hv : ph.pteFlags &&& pteValid != 0 := bne_iff_ne.mpr ph.pteFlags_valid
  unfold setLeaf
  rw [hv, Bool.true_and]

theorem pteFlags_user (ph : Phdr) : ph.pteFlags &&& pteUser ≠ 0 := by
  unfold Phdr.pteFlags
  simp only
  split <;> split <;> split <;> decide

/-- a list of segments was loaded over the kernel's map: the kernel's half is intact exactly if each
segment leaves it alone -/
theorem Loads.kernelIntact_iff {l : List Phdr}
    (hl : Loads l kernelMap (mapOf h table)) :
    KernelIntact h table ↔ ∀ l₁ ph l₂ x, l = l₁ ++ ph :: l₂ → splitAddr ≤ x → x < 2 ^ 39 →
      ph.Covers x → (∀ q ∈ l₂, ¬ q.Covers x) → mmioStop ≤ x ∧ ph.NoAccess := by
  constructor
  · intro hk l₁ ph l₂ x hl' hx hx' hcov hlast
    rw [hl'] at hl
    obtain ⟨pa, hpa⟩ := hl.covered hcov hlast
    obtain ⟨hmap, huser⟩ := hk x hx hx'
    rw [setLeaf_pteFlags] at hpa
    cases hleaf : pteIsLeaf ph.pteFlags with
    | true =>
      rw [hleaf, if_pos rfl] at hpa
      exact absurd (huser _ hpa) (pteFlags_user ph)
    | false =>
      rw [hleaf, if_neg Bool.false_ne_true] at hpa
      exact ⟨(kernelMap_eq_none hx hx').mp (hmap.symm.trans hpa), (noAccess_iff ph).mpr hleaf⟩
  · intro hsafe x hx hx'
    have hmap : mapOf h table x = kernelMap x := by
      by_cases hcov : ∃ q ∈ l, q.Covers x
      · obtain ⟨l₁, ph, l₂, hl', hph, hlast⟩ := exists_last_cover hcov
        obtain ⟨hge, hno⟩ := hsafe l₁ ph l₂ x hl' hx hx' hph hlast
        rw [hl'] at hl
        obtain ⟨pa, hpa⟩ := hl.covered hph hlast
        rw [setLeaf_pteFlags, (noAccess_iff ph).mp hno, if_neg Bool.false_ne_true] at hpa
        rw [hpa, (kernelMap_eq_none hx hx').mpr hge]
      · exact hl.uncovered fun q hq hqx => hcov ⟨q, hq, hqx⟩
    refine ⟨hmap, fun tr htr => ?_⟩
    rw [hmap] at htr
    exact kernelMap_user htr

/-- **An image and the kernel's half of the map.**  Whenever load_elf returns for a task whose table
is as create_page_table made it, every translation at or above `SPLIT` is still the one that
create_page_table installed, and none is open to user code, exactly if the segments of the image that
reach there map pages that were not mapped before and give them no permission. -/
theorem kernel_map_intact {r : Int} (hin : e.LiesIn h.mm.mem) (hw : WellFormed h.mm table)
    (hout : ∀ s ∈ tables h.mm.mem 2 table, pageAt s ∈ h.mm.out) (hmap : ∀ x, mapOf h table x = kernelMap x)
    (ht : (h.task task).pageTable = table) (hrun : h.loadElf task e.program = .ok (r, h')) : KernelIntact h' table ↔ e.LeavesKernel := by
  have hmap' : mapOf h table = kernelMap := funext hmap
  unfold Heap.loadElf at hrun
  rw [hin.eMachine] at hrun
  by_cases hmach : e.eMachine = EM_RISCV
  · simp only [hmach, ne_eq, not_true_eq_false, if_false] at hrun
    obtain ⟨⟨res, h₁⟩, hsegs, hrun⟩ := Res.bind_eq_ok.mp hrun
    obtain ⟨hw₁, htask, hloads⟩ := loadSegments_map hin hw hout ht hsegs
    rw [hmap'] at hloads
    have hiff := hloads.kernelIntact_iff
    have hleaves : e.LeavesKernel ↔ ∀ l₁ ph l₂ x, e.loaded = l₁ ++ ph :: l₂ → splitAddr ≤ x →
        x < 2 ^ 39 → ph.Covers x → (∀ q ∈ l₂, ¬ q.Covers x) → mmioStop ≤ x ∧ ph.NoAccess :=
      ⟨fun hl => hl hmach, fun hl _ => hl⟩
    rw [hleaves]
    refine Iff.trans ?_ hiff
    cases res with
    | error err =>
      cases hrun
      exact Iff.rfl
    | ok b =>
      obtain ⟨h₂, hstack, hret⟩ := Res.bind_eq_ok.mp hrun
      cases hret
      obtain ⟨_, hsame⟩ := loadStack_map hw₁ (by rw [htask, ht]) hstack
      have hhigh : ∀ x, splitAddr ≤ x → x < 2 ^ 39 → mapOf h' table x = mapOf h₁ table x := by
        intro x hx hx'
        refine hsame x fun hs => ?_
        unfold SamePage userStack pageSize splitAddr at *
        omega
      constructor
      · intro hk x hx hx'
        rw [← hhigh x hx hx']
        exact hk x hx hx'
      · intro hk x hx hx'
        rw [hhigh x hx hx']
        exact hk x hx hx'
  · simp only [hmach, ne_eq, not_false_eq_true, if_true] at hrun
    cases hrun
    refine ⟨fun _ hm => absurd hm hmach, fun _ x hx hx' => ⟨hmap x, fun tr htr => ?_⟩⟩
    rw [hmap] at htr
    exact kernelMap_user htr

/-! ## an image that reaches into the kernel -/

theorem off_of_dvd {v : Nat} (hv : pageSize ∣ v) : Sv39Va.off v = 0 := by
  unfold Sv39Va.off field
  rw [pow_zero, Nat.div_one]
  exact Nat.mod_eq_zero_of_dvd hv

/-- set_page on a page that was handed out takes at most two blocks -/
theorem mapPage_room {a : Mm} {root va pa flags k : Nat} (hr : a.Room (k + 2)) (hw : WellFormed a root)
    (hf : flags < 2 ^ 8) (hva : pageSize ∣ va) (hpa : Sv39Pa.off pa = 0) :
    ∃ a', setPage root va pa flags a = .ok (0, a') ∧ a'.Room k ∧ WellFormed a' root := by
  obtain ⟨err, a', hset⟩ := hr.setPage hw (off_of_dvd hva) hpa
  obtain ⟨rfl, N, hlen, hedit, _⟩ := setPage_spec hw hf hset
  exact ⟨a', hset, hr.step hedit.grow (by omega), hedit.wellFormed hw⟩

/-- a page takes at most four blocks: the page, its node and two tables -/
theorem loadPage_room {toAddr flags area fuel off src k : Nat}
    (hr : h.mm.Room (k + 4)) (hw : WellFormed h.mm table) (hf : flags < 2 ^ 8)
    (ha : pageSize ∣ addr) (hlt : addr + pageSize < wordCount) (he : endAddr ≤ addr + pageSize) :
    ∃ h', Heap.loadPages toAddr table flags area endAddr (fuel + 2) addr off src h = .ok h' ∧
      h'.mm.Room k := by
  have hstop : ∀ off src (h : Heap),
      Heap.loadPages toAddr table flags area endAddr (fuel + 1) (addr + pageSize) off src h = .ok h := by
    intro off src h
    unfold Heap.loadPages
    exact if_neg (Nat.not_lt.mpr he)
  unfold Heap.loadPages
  by_cases hend : addr < endAddr
  · simp only [hend, if_true]
    obtain ⟨p, h₁, halloc⟩ := Heap.allocPage_room (k := k + 3) hr.free
    obtain ⟨mm₁, rfl, hp0, hx₁⟩ := Heap.allocPage_spec hw.ok halloc
    have hr₁ : mm₁.Room (k + 2 + 1) := hr.step hx₁ (Nat.le_of_eq (by simp; omega))
    obtain ⟨hw₁, _, _⟩ := hw.extends hx₁ fun _ _ => nofun
    obtain ⟨err₂, h₂, hadd⟩ := Heap.vmAreaAddPage_room (h := { h with mm := mm₁ }) hr₁.free area p
    obtain ⟨rfl, mm₂, n, hh₂, _, hx₂, _⟩ := Heap.vmAreaAddPage_spec hx₁.ok hadd
    have hmm₂ : h₂.mm = mm₂ := by
      rw [hh₂]
      rfl
    have hr₂ : h₂.mm.Room (k + 2) := by
      rw [hmm₂]
      exact hr₁.step hx₂ (Nat.le_of_eq (by simp; omega))
    have hw₂ : WellFormed h₂.mm table := by
      rw [hmm₂]
      exact (WellFormed.extends (a := mm₁) hw₁ hx₂ fun _ _ => nofun).1
    have hpin : p ∈ [p] := List.mem_singleton_self p
    have hpa := off_PA (hx₁.new_usable hpin) (hx₁.new_page hpin)
    obtain ⟨mm₃, hmap, hr₃, hw₃⟩ := mapPage_room hr₂ hw₂ hf ha hpa
    have hset : h₂.setPage table addr (PA p) flags = .ok (0, { h₂ with mm := mm₃ }) := by
      unfold Heap.setPage
      rw [hmap, Res.ok_bind]
    have hkept : mm₃.KeptPage p := by
      obtain ⟨_, N, _, hedit, _⟩ := setPage_spec hw₂ hf hmap
      rw [hmm₂] at hedit
      exact hedit.grow.keptPage (hx₂.keptPage (hx₁.new_kept hpin))
    simp only [halloc, hadd, hset, Res.ok_bind, hp0, if_false, ne_eq, not_true_eq_false,
      Nat.mod_eq_of_lt hlt, hstop]
    refine ⟨_, rfl, ?_⟩
    have hout : ∀ x, ¬ onPage p x → (Heap.fillPage toAddr p pageSize 0 off src mm₃.mem).2.2 x = mm₃.mem x :=
      fun x hx => Heap.fillPage_out (Nat.le_refl pageSize) hx
    have hfill := hw₃.ok.write_page hkept (hx₁.new_page hpin) hout
    exact hr₃.step hfill (Nat.le_of_eq (Nat.zero_add k))
  · simp only [hend, if_false]
    exact ⟨h, rfl, hr.mono (Nat.le_add_right k 4)⟩

/-- a segment of at most one page, above the areas that the task has -/
theorem loadSegment_room {program k : Nat} {ns : List Nat} (hr : h.mm.Room (k + 6))
    (hw : WellFormed h.mm (h.task task).pageTable)
    (hc : Chain (fun x => (h.node x).next) 0 (h.lists.list (.vmAreas task)).first ns)
    (hlow : ∀ x ∈ ns, (h.area (h.node x).value).va ≤ ph.addr) (hlen : ns.length < wordCount)
    (hkept : ∀ x ∈ ns, h.mm.KeptPage (x - 4) ∧ h.mm.KeptPage ((h.node x).value - 4))
    (hlt : ph.addr + pageSize < wordCount) (he : ph.endAddr ≤ ph.addr + pageSize) :
    ∃ h', h.loadSegment task program ph = .ok h' ∧ h'.mm.Room k := by
  obtain ⟨a, h₁, h₂, N, hcreate, hadd, hr₂, hx₂, htask⟩ : ∃ a h₁ h₂ N,
      h.vmAreaCreate ph.addr ph.nPages ph.areaFlags = .ok (a, h₁) ∧ h₁.vmAddArea (.vmAreas task) a = .ok (0, h₂) ∧
      h₂.mm.Room (k + 4) ∧ Extends h.mm h₂.mm ∅ N ∧ h₂.task = h.task :=
    Heap.newArea_room hr (dvd_addr ph) hc hlow hlen hkept
  have hw₂ : WellFormed h₂.mm (h₂.task task).pageTable := by
    rw [htask]
    exact (hw.extends hx₂ fun _ _ => nofun).1
  obtain ⟨h₃, hpages, hr₃⟩ : ∃ h₃, Heap.loadPages (((program + ph.pOffset) % wordCount + ph.pFilesz) % wordCount)
      (h₂.task task).pageTable ph.pteFlags a ph.endAddr (wordCount - 2 + 2) ph.addr ph.off
      ((program + ph.pOffset) % wordCount) h₂ = .ok h₃ ∧ h₃.mm.Room k :=
    loadPage_room hr₂ hw₂ (pteFlags_lt ph) (dvd_addr ph) hlt he
  refine ⟨h₃, ?_, hr₃⟩
  unfold Heap.loadSegment
  simp only [hcreate, hadd, Res.ok_bind, ne_eq, not_true_eq_false, if_false]
  exact hpages

def splitProgram : Nat := kernBase + 0xf0000

/-- an image with one segment, the byte at `SPLIT`, and then a PT_INTERP -/
def splitImage : Elf where
  program := splitProgram
  mem := fun x =>
    if x = splitProgram + 18 then 0xf3
    else if x = splitProgram + 32 then 64
    else if x = splitProgram + 54 then 56
    else if x = splitProgram + 56 then 2
    else if x = splitProgram + 64 then 1
    else if x = splitProgram + 68 then 4
    else if x = splitProgram + 84 then 0x3f
    else if x = splitProgram + 104 then 1
    else if x = splitProgram + 120 then 3
    else 0

def splitPhdr : Phdr :=
  { pType := PT_LOAD, pFlags := PF_R, pOffset := 0, pVaddr := splitAddr, pFilesz := 0, pMemsz := 1 }

theorem splitImage_phdr : splitImage.ePhnum = 2 ∧ splitImage.phdr 0 = splitPhdr ∧
    (splitImage.phdr 1).pType = PT_INTERP := by
  decide

/-- a task without areas, with the table that create_page_table made -/
def newTaskHeap (mm : Mm) (table : Nat) : Heap where
  mm := mm
  lists := { node := fun _ => { value := 0, list := none, prev := 0, next := 0 }
             list := fun _ => { first := 0, last := 0 } }
  area := fun _ => { va := 0, nPages := 0, refcount := 0, flags := 0 }
  task := fun _ => { pid := 1, parent := 0, sched := 0, kernelStack := 0, pageTable := table, mode := .supervisor,
                     kernelFrame := .taskEntry, userFrame := Heap.startFrame 0 }
  nextTaskId := 2
  live := []
  blocks := []

theorem splitImage_loaded : splitImage.loaded = [splitPhdr] := by
  obtain ⟨hnum, hph, hinterp⟩ := splitImage_phdr
  unfold Elf.loaded
  rw [hnum]
  unfold Elf.loadedFrom
  simp only [hph]
  unfold Elf.loadedFrom
  simp only [hinterp]
  rfl

theorem splitImage_bytes : ∀ x ∈ splitImage.bytes, splitImage.program ≤ x ∧ x < kernPhyBase + 2 ^ 20 := by
  intro x hx
  obtain ⟨hnum, _, _⟩ := splitImage_phdr
  refine Elf.bytes_within (by decide) (by decide) ?_ ?_ hx
  · rw [hnum]
    decide
  · rw [splitImage_loaded]
    decide

/-- what create_page_table makes from the state of boot with the image in memory -/
structure SplitTable (table : Nat) (mm : Mm) : Prop where
  create : createPageTable (Mm.init splitImage.mem) = .ok (table, mm)
  wf : WellFormed mm table
  out : ∀ s ∈ tables mm.mem 2 table, pageAt s ∈ mm.out
  map : ∀ x, mapOf (newTaskHeap mm table) table x = kernelMap x
  image : splitImage.LiesIn (newTaskHeap mm table).mm.mem
  room : mm.Room 6

theorem splitTable : ∃ table mm, SplitTable table mm := by
  have hr : (Mm.init splitImage.mem).Room (6 + 1) := ⟨Mm.init_ok _, nofun, by decide⟩
  obtain ⟨table, mm, hcreate⟩ := hr.createPageTable
  obtain ⟨hx, hw, htab, hmap⟩ := createPageTable_spec hr.ok hcreate
  refine ⟨table, mm, hcreate, hw, fun s hs => ?_, hmap, ?_, hr.step hx (Nat.le_of_eq rfl)⟩
  · rw [htab s hs]
    exact hx.new_mem (List.mem_singleton_self table)
  · refine Elf.liesIn_of_below splitImage_bytes fun x _ hlt => ?_
    have hout : x ∉ usable := fun hu => Nat.not_le.mpr hlt hu.1
    exact (hx.frame x (.inl hout) fun s hs => absurd hs (Set.notMem_empty s)).trans (init_below hlt)

theorem SplitTable.loads {table : Nat} {mm : Mm} (hs : SplitTable table mm) :
    ∃ h', (newTaskHeap mm table).loadElf 0 splitProgram = .ok (-EINVAL, h') := by
  obtain ⟨hnum, hph, hinterp⟩ := splitImage_phdr
  have hnone : Chain (fun x => ((newTaskHeap mm table).node x).next) 0
      ((newTaskHeap mm table).lists.list (.vmAreas 0)).first [] := rfl
  obtain ⟨h', hseg, _⟩ : ∃ h', (newTaskHeap mm table).loadSegment 0 splitProgram splitPhdr = .ok h' ∧ h'.mm.Room 0 :=
    loadSegment_room hs.room hs.wf hnone nofun (by decide) nofun (by decide) (by decide)
  have hmach : ((newTaskHeap mm table).image splitImage.program).eMachine = EM_RISCV := hs.image.eMachine
  obtain ⟨_, l, hr, _⟩ := loadSegment_run hs.image (by rw [splitImage_loaded]; exact List.mem_singleton_self _) hs.wf hs.out
    (.refl _) rfl hseg
  have hin' : splitImage.LiesIn h'.mm.mem := hs.image.mono fun x hx => hr.outside hs.wf hs.out hx
  have hsegs : (newTaskHeap mm table).loadSegments 0 splitImage.program wordCount 0 false = .ok (.error (-EINVAL), h') := by
    show (newTaskHeap mm table).loadSegments 0 splitImage.program (wordCount - 2 + 1 + 1) 0 false = _
    have hload : splitPhdr.pType = PT_LOAD := rfl
    rw [hs.image.loadSegments, hnum, hph, if_pos (by decide), if_pos hload]
    show (do let h ← (newTaskHeap mm table).loadSegment 0 splitProgram splitPhdr
             h.loadSegments 0 splitImage.program (wordCount - 2 + 1) 1 false) = _
    rw [hseg, Res.ok_bind, hin'.loadSegments, hnum, if_pos (by decide), hinterp]
    rfl
  refine ⟨h', ?_⟩
  show (newTaskHeap mm table).loadElf 0 splitImage.program = _
  unfold Heap.loadElf
  rw [if_neg (not_not.mpr hmach), hsegs]
  rfl

/-- load_elf opens the kernel's first page to user code -/
theorem splitImage_opens_kernel : ∃ table mm h' tr, createPageTable (Mm.init splitImage.mem) = .ok (table, mm) ∧
    (newTaskHeap mm table).loadElf 0 splitProgram = .ok (-EINVAL, h') ∧
    mapOf h' table splitAddr = some tr ∧ tr.flags &&& pteUser ≠ 0 ∧ ¬ KernelIntact h' table := by
  obtain ⟨table, mm, hs⟩ := splitTable
  obtain ⟨h', hrun⟩ := hs.loads
  have hmach : ((newTaskHeap mm table).image splitImage.program).eMachine = EM_RISCV := hs.image.eMachine
  have hcov : splitPhdr.Covers splitAddr := ⟨splitAddr, by decide, by decide, by unfold SamePage; decide⟩
  have hrun' : (newTaskHeap mm table).loadElf 0 splitImage.program = .ok (-EINVAL, h') := hrun
  unfold Heap.loadElf at hrun'
  rw [if_neg (not_not.mpr hmach)] at hrun'
  obtain ⟨⟨r, h₁⟩, hsegs, hrun'⟩ := Res.bind_eq_ok.mp hrun'
  obtain ⟨_, _, hloads⟩ := loadSegments_map hs.image hs.wf hs.out rfl hsegs
  rw [splitImage_loaded] at hloads
  obtain ⟨pa, hpa⟩ := Loads.covered (l := []) hloads hcov nofun
  rw [setLeaf_pteFlags, if_pos (by decide)] at hpa
  have hh' : h₁ = h' := by
    cases r with
    | error err =>
      cases hrun'
      rfl
    | ok b =>
      obtain ⟨h₂, _, hret⟩ := Res.bind_eq_ok.mp hrun'
      have herr : (0 : Int) = -EINVAL := congrArg Prod.fst (Except.ok.inj hret)
      exact absurd herr (by decide)
  rw [hh'] at hpa
  have huser := pteFlags_user splitPhdr
  exact ⟨table, mm, h', _, hs.create, hrun, hpa, huser,
    fun hk => huser ((hk splitAddr (Nat.le_refl _) (by decide)).2 _ hpa)⟩

/-- at that image the two sides of the theorem are both false -/
theorem kernel_map_intact_splitImage : ∃ table mm h',
    createPageTable (Mm.init splitImage.mem) = .ok (table, mm) ∧
    (newTaskHeap mm table).loadElf 0 splitProgram = .ok (-EINVAL, h') ∧
    (KernelIntact h' table ↔ splitImage.LeavesKernel) := by
  obtain ⟨table, mm, hs⟩ := splitTable
  obtain ⟨h', hrun⟩ := hs.loads
  have hroot : ((newTaskHeap mm table).task 0).pageTable = table := rfl
  exact ⟨table, mm, h', hs.create, hrun, kernel_map_intact hs.image hs.wf hs.out hs.map hroot hrun⟩

end FakeKernel
