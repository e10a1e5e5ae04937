import FakeKernel.Kernel.LoadRun

/-!
# An image in memory

The loader reads the image from memory while it fills pages.

* `Elf.loaded`, `Elf.copied`   the segments that are loaded, and how much of a file part is copied;
* `Elf.bytes`      what the loader reads of the image;
* `Elf.LiesIn`     memory has these bytes, and they lie outside of the allocator's pages;
* `Elf.LiesIn.loadSegments`   then each round of the loop finds the program header of `e`;
* `Elf.liesIn_of_below`   an image below the first page of the allocator.
-/

namespace FakeKernel
open Bytes Mm

variable {h h' : Heap} {e : Elf} {ph : Phdr} {m m' : Mem} {task toAddr n i x : Nat} {W : Set Nat} {N : List Nat}

/-! ## the segments -/

/-- the segments that load_elf maps: those before the first PT_DYNAMIC or PT_INTERP -/
def Elf.loadedFrom (e : Elf) : Nat → Nat → List Phdr
  | 0, _ => []
  | n + 1, i =>
    let ph := e.phdr i
    if ph.pType = PT_LOAD then ph :: e.loadedFrom n (i + 1)
    else if ph.pType = PT_DYNAMIC ∨ ph.pType = PT_INTERP then []
    else e.loadedFrom n (i + 1)

def Elf.loaded (e : Elf) : List Phdr := e.loadedFrom e.ePhnum 0

/-- the list from the `i`-th program header on -/
theorem Elf.loadedFrom_of_lt (hi : i < e.ePhnum) : e.loadedFrom (e.ePhnum - i) i =
    if (e.phdr i).pType = PT_LOAD then e.phdr i :: e.loadedFrom (e.ePhnum - (i + 1)) (i + 1)
    else if (e.phdr i).pType = PT_DYNAMIC ∨ (e.phdr i).pType = PT_INTERP then []
    else e.loadedFrom (e.ePhnum - (i + 1)) (i + 1) := by
  have hn : e.ePhnum - i = e.ePhnum - (i + 1) + 1 := by omega
  rw [hn]
  rfl

theorem Elf.loadedFrom_of_ge (hi : ¬ i < e.ePhnum) : e.loadedFrom (e.ePhnum - i) i = [] := by
  have hn : e.ePhnum - i = 0 := by omega
  rw [hn]
  rfl

/-- a segment that is loaded has a program header -/
theorem Elf.mem_loadedFrom {i : Nat} (hp : ph ∈ e.loadedFrom n i) : ∃ j, ph = e.phdr j := by
  induction n generalizing i with
  | zero => exact absurd hp List.not_mem_nil
  | succ n ih =>
    unfold Elf.loadedFrom at hp
    simp only at hp
    split at hp
    · cases List.mem_cons.mp hp with
      | inl he => exact ⟨i, he⟩
      | inr hold => exact ih hold
    · split at hp
      · exact absurd hp List.not_mem_nil
      · exact ih hp

theorem Elf.pFilesz_lt (hp : ph ∈ e.loaded) : ph.pFilesz < wordCount := by
  obtain ⟨j, rfl⟩ := Elf.mem_loadedFrom hp
  exact load_lt 8 _ _

/-! ## the file part -/

/-- where the file part of a segment lies -/
def Elf.src (e : Elf) (ph : Phdr) : Nat := (e.program + ph.pOffset) % wordCount

/-- how many bytes are copied: `from` is tested after a byte was copied, and against a `to` that may have wrapped
around -/
def Elf.copied (e : Elf) (ph : Phdr) : Nat :=
  if e.src ph = 0 then 0
  else if e.src ph + ph.pFilesz < wordCount then max 1 ph.pFilesz
  else 1

theorem nextSrc_zero : nextSrc toAddr 0 = 0 := by
  unfold nextSrc
  simp

theorem Elf.src_lt (e : Elf) (ph : Phdr) : e.src ph < wordCount := Nat.mod_lt _ (Nat.two_pow_pos 64)

theorem Elf.nextSrc_step (hsz : ph.pFilesz < wordCount) {j : Nat} (hj : j < e.copied ph) :
    nextSrc ((e.src ph + ph.pFilesz) % wordCount) (e.src ph + j) = if j + 1 < e.copied ph then e.src ph + (j + 1) else 0 := by
  have hsrc := e.src_lt ph
  have h0 : e.src ph ≠ 0 := by
    intro h0
    unfold Elf.copied at hj
    rw [if_pos h0] at hj
    exact absurd hj (Nat.not_lt_zero j)
  unfold Elf.copied at *
  unfold nextSrc
  rw [if_neg h0] at *
  have hne : e.src ph + j ≠ 0 := by omega
  simp only [hne, ne_eq, not_false_eq_true, if_true]
  unfold wordCount at *
  split at hj
  · split <;> split <;> omega
  · split <;> split <;> omega

theorem Elf.nextSrc_iterate (hsz : ph.pFilesz < wordCount) (j : Nat) :
    (nextSrc ((e.src ph + ph.pFilesz) % wordCount))^[j] (e.src ph) = if j < e.copied ph then e.src ph + j else 0 := by
  induction j with
  | zero =>
    show e.src ph = _
    by_cases h0 : e.src ph = 0
    · rw [h0, ite_self]
    · have hpos : 0 < e.copied ph := by
        unfold Elf.copied
        rw [if_neg h0]
        split <;> omega
      rw [if_pos hpos, Nat.add_zero]
  | succ j ih =>
    rw [Function.iterate_succ_apply', ih]
    by_cases hj : j < e.copied ph
    · rw [if_pos hj, e.nextSrc_step hsz hj]
    · rw [if_neg hj, if_neg (by omega), nextSrc_zero]

theorem Elf.src_add_lt {j : Nat} (hj : j < e.copied ph) : e.src ph + j ≠ 0 ∧ e.src ph + j < wordCount := by
  have hsrc := e.src_lt ph
  unfold Elf.copied at hj
  split at hj
  · exact absurd hj (Nat.not_lt_zero j)
  · split at hj <;> omega

/-! ## outside of the allocator's pages -/

/-- what the loader reads: the header, the program headers, and the file part of each segment that is loaded; a byte is
copied before `from` is tested -/
def Elf.bytes (e : Elf) : Set Nat :=
  {x | (e.program ≤ x ∧ x < e.program + 64) ∨ (∃ i < e.ePhnum, e.phdrAddr i ≤ x ∧ x < e.phdrAddr i + 56) ∨
    ∃ ph ∈ e.loaded, ∃ j < max 1 ph.pFilesz, x = (e.src ph + j) % wordCount}

/-- the image `e` is in memory, and the allocator does not hand it out -/
structure Elf.LiesIn (e : Elf) (m : Mem) : Prop where
  same : ∀ x ∈ e.bytes, m x = e.mem x
  outside : ∀ x ∈ e.bytes, x ∉ usable

theorem Elf.src_mem_bytes {j : Nat} (hp : ph ∈ e.loaded) (hj : (nextSrc ((e.src ph + ph.pFilesz) % wordCount))^[j] (e.src ph) ≠ 0) :
    (nextSrc ((e.src ph + ph.pFilesz) % wordCount))^[j] (e.src ph) ∈ e.bytes := by
  rw [e.nextSrc_iterate (Elf.pFilesz_lt hp)] at hj ⊢
  by_cases hc : j < e.copied ph
  · rw [if_pos hc]
    obtain ⟨_, hlt⟩ := e.src_add_lt hc
    have hmax : j < max 1 ph.pFilesz := by
      unfold Elf.copied at hc
      split at hc
      · exact absurd hc (Nat.not_lt_zero j)
      · split at hc <;> omega
    exact .inr (.inr ⟨ph, hp, j, hmax, (Nat.mod_eq_of_lt hlt).symm⟩)
  · rw [if_neg hc] at hj
    exact absurd rfl hj

namespace Elf.LiesIn

/-- memory that is the same outside of the allocator's pages has the image, too -/
theorem mono (hin : e.LiesIn m) (hm : ∀ x, x ∉ usable → m' x = m x) : e.LiesIn m' :=
  ⟨fun x hx => (hm x (hin.outside x hx)).trans (hin.same x hx), hin.outside⟩

theorem grown (hin : e.LiesIn h.mm.mem) (hx : Extends h.mm h'.mm ∅ N) : e.LiesIn h'.mm.mem :=
  hin.mono fun x hout => hx.frame x (.inl hout) fun s hs => absurd hs (Set.notMem_empty s)

theorem srcOutside (hin : e.LiesIn m) (hp : ph ∈ e.loaded) : SrcOutside ((e.src ph + ph.pFilesz) % wordCount) (e.src ph) :=
  fun _ hj => hin.outside _ (Elf.src_mem_bytes hp hj)

/-- the pages are filled from memory with what the image has there -/
theorem segByte (hin : e.LiesIn m) (hp : ph ∈ e.loaded) (off i : Nat) :
    FakeKernel.segByte m ((e.src ph + ph.pFilesz) % wordCount) off (e.src ph) i =
      FakeKernel.segByte e.mem ((e.src ph + ph.pFilesz) % wordCount) off (e.src ph) i := by
  unfold FakeKernel.segByte
  split
  · rfl
  · by_cases h0 : (nextSrc ((e.src ph + ph.pFilesz) % wordCount))^[i - off] (e.src ph) ≠ 0
    · simp only
      rw [if_pos h0, if_pos h0]
      exact hin.same _ (Elf.src_mem_bytes hp h0)
    · simp only
      rw [if_neg h0, if_neg h0]

theorem header (hin : e.LiesIn m) {off : Nat} (hoff : off + n ≤ 64) : load n m (e.program + off) = load n e.mem (e.program + off) :=
  load_congr fun x h1 h2 => hin.same x (.inl ⟨by omega, by omega⟩)

theorem eMachine (hin : e.LiesIn h.mm.mem) : (h.image e.program).eMachine = e.eMachine := hin.header (by decide)

theorem eEntry (hin : e.LiesIn h.mm.mem) : (h.image e.program).eEntry = e.eEntry := hin.header (by decide)

theorem ePhnum (hin : e.LiesIn h.mm.mem) : (h.image e.program).ePhnum = e.ePhnum := hin.header (by decide)

theorem phdrAddr (hin : e.LiesIn h.mm.mem) (i : Nat) : (h.image e.program).phdrAddr i = e.phdrAddr i := by
  have hoff : (h.image e.program).ePhoff = e.ePhoff := hin.header (by decide)
  have hsize : (h.image e.program).ePhentsize = e.ePhentsize := hin.header (by decide)
  unfold Elf.phdrAddr
  rw [hoff, hsize]
  rfl

theorem phdr (hin : e.LiesIn h.mm.mem) (hi : i < e.ePhnum) : (h.image e.program).phdr i = e.phdr i := by
  have hfield : ∀ off n, off + n ≤ 56 → load n h.mm.mem (e.phdrAddr i + off) = load n e.mem (e.phdrAddr i + off) :=
    fun off n hoff => load_congr fun x h1 h2 => hin.same x (.inr (.inl ⟨i, hi, by omega, by omega⟩))
  unfold Elf.phdr
  rw [hin.phdrAddr]
  simp only [Phdr.mk.injEq]
  exact ⟨hfield 0 4 (by decide), hfield 4 4 (by decide), hfield 8 8 (by decide), hfield 16 8 (by decide),
    hfield 32 8 (by decide), hfield 40 8 (by decide)⟩

/-- a round of the loop over the program headers -/
theorem loadSegments (hin : e.LiesIn h.mm.mem) {b : Bool} : h.loadSegments task e.program (n + 1) i b =
    if i < e.ePhnum then
      if (e.phdr i).pType = PT_LOAD then do
        let h ← h.loadSegment task e.program (e.phdr i)
        h.loadSegments task e.program n (i + 1) b
      else if (e.phdr i).pType = PT_DYNAMIC ∨ (e.phdr i).pType = PT_INTERP then .ok (.error (-EINVAL), h)
      else if (e.phdr i).pType = PT_GNU_STACK then h.loadSegments task e.program n (i + 1) ((e.phdr i).pFlags &&& PF_X != 0)
      else h.loadSegments task e.program n (i + 1) b
    else .ok (.ok b, h) := by
  have hunfold : h.loadSegments task e.program (n + 1) i b =
      if i < (h.image e.program).ePhnum then
        if ((h.image e.program).phdr i).pType = PT_LOAD then do
          let h ← h.loadSegment task e.program ((h.image e.program).phdr i)
          h.loadSegments task e.program n (i + 1) b
        else if ((h.image e.program).phdr i).pType = PT_DYNAMIC ∨ ((h.image e.program).phdr i).pType = PT_INTERP then
          .ok (.error (-EINVAL), h)
        else if ((h.image e.program).phdr i).pType = PT_GNU_STACK then
          h.loadSegments task e.program n (i + 1) (((h.image e.program).phdr i).pFlags &&& PF_X != 0)
        else h.loadSegments task e.program n (i + 1) b
      else .ok (.ok b, h) := rfl
  rw [hunfold, hin.ePhnum]
  by_cases hi : i < e.ePhnum
  · rw [if_pos hi, if_pos hi, hin.phdr hi]
  · rw [if_neg hi, if_neg hi]

end Elf.LiesIn

/-! ## below the allocator's pages -/

/-- an image whose program headers and file parts lie between its header and `top` -/
theorem Elf.bytes_within {top : Nat} (htop : top ≤ wordCount) (hheader : e.program + 64 ≤ top)
    (hphdrs : ∀ i < e.ePhnum, e.program ≤ e.phdrAddr i ∧ e.phdrAddr i + 56 ≤ top)
    (hfile : ∀ ph ∈ e.loaded, e.program ≤ e.src ph ∧ e.src ph + max 1 ph.pFilesz ≤ top) (hx : x ∈ e.bytes) :
    e.program ≤ x ∧ x < top := by
  rcases hx with ⟨h1, h2⟩ | ⟨i, hi, h1, h2⟩ | ⟨ph, hp, j, hj, rfl⟩
  · exact ⟨h1, Nat.lt_of_lt_of_le h2 hheader⟩
  · obtain ⟨h3, h4⟩ := hphdrs i hi
    exact ⟨Nat.le_trans h3 h1, Nat.lt_of_lt_of_le h2 h4⟩
  · obtain ⟨h3, h4⟩ := hfile ph hp
    rw [Nat.mod_eq_of_lt (by omega)]
    omega

theorem Elf.liesIn_of_below (hb : ∀ x ∈ e.bytes, e.program ≤ x ∧ x < kernPhyBase + 2 ^ 20)
    (hm : ∀ x, e.program ≤ x → x < kernPhyBase + 2 ^ 20 → m x = e.mem x) : e.LiesIn m :=
  ⟨fun x hx => hm x (hb x hx).1 (hb x hx).2, fun x hx hu => Nat.not_le.mpr (hb x hx).2 hu.1⟩

end FakeKernel
