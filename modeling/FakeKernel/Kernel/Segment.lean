import FakeKernel.Kernel.Unload

/-!
# What the pages of a loaded segment hold

* `Elf.imageByte`, `ByteAt`   the bytes of the file part, and the byte that user code finds at an address;
* `Elf.Contents`              what the pages of a segment should hold;
* `segment_contents`          when they do;
* `bssImage`                  a segment without a file part.
-/

namespace FakeKernel
open Bytes Bitfield Mm Kernel

variable {h h' : Heap} {a a' : Mm} {e : Elf} {ph : Phdr} {l : List PageCall} {root t n k x src toAddr : Nat} {c : PageCall}
  {b : UInt8}

/-- the byte of the image at `p_offset + j` -/
def Elf.imageByte (e : Elf) (ph : Phdr) (j : Nat) : UInt8 := e.mem ((e.program + ph.pOffset + j) % wordCount)

/-- `x` is mapped, to a byte `b` -/
def ByteAt (h : Heap) (root x : Nat) (b : UInt8) : Prop := ∃ tr, mapOf h root x = some tr ∧ h.mm.mem (VA tr.pa) = b

/-- what the pages of a segment should hold -/
structure Elf.Contents (e : Elf) (h : Heap) (root : Nat) (ph : Phdr) : Prop where
  inside : ∀ j < ph.pMemsz, ByteAt h root (ph.pVaddr + j) (if j < ph.pFilesz then e.imageByte ph j else 0)
  outside : ∀ x, x / pageSize ∈ ph.pages → ¬ (ph.pVaddr ≤ x ∧ x < ph.pVaddr + ph.pMemsz) → ByteAt h root x 0

/-- the bytes of the pages of a segment -/
theorem Elf.fileByte_eq (hsz : ph.pFilesz < wordCount) (hx : ph.addr ≤ x) : e.fileByte ph (x - ph.addr)
    = if ph.pVaddr ≤ x ∧ x < ph.pVaddr + e.copied ph then e.imageByte ph (x - ph.pVaddr) else 0 := by
  have haddr := Phdr.Fits.addr ph
  have hoff : ph.off = ph.pVaddr % pageSize := by
    unfold Phdr.off Sv39Va.off field pageSize
    omega
  have hsplit : ph.addr + ph.off = ph.pVaddr := by
    rw [haddr, hoff]
    exact Nat.div_add_mod' _ _
  unfold Elf.fileByte segByte
  rw [e.nextSrc_iterate hsz]
  have hj : x - ph.addr - ph.off = x - ph.pVaddr := by omega
  rw [hj]
  by_cases hlow : x - ph.addr < ph.off
  · rw [if_pos hlow, if_neg (by omega)]
  · rw [if_neg hlow]
    by_cases hcopy : x - ph.pVaddr < e.copied ph
    · obtain ⟨h0, hlt⟩ := e.src_add_lt hcopy
      have hbyte : e.imageByte ph (x - ph.pVaddr) = e.mem (e.src ph + (x - ph.pVaddr)) := by
        unfold Elf.imageByte
        rw [Nat.add_mod, ← Nat.mod_eq_of_lt hlt]
        unfold Elf.src
        simp only [Nat.add_mod, Nat.mod_mod]
      rw [if_pos hcopy, if_pos h0, if_pos (by omega), hbyte]
    · rw [if_neg hcopy, if_neg (not_not.mpr rfl), if_neg (by omega)]

/-! ## the pages of a segment -/

/-- the addresses of a segment below the stack, by their page numbers -/
theorem Phdr.covers_iff (hb : ph.pVaddr + ph.pMemsz ≤ stackBegin) (hx : x < 2 ^ 39) :
    ph.Covers x ↔ x / pageSize ∈ ph.pages := by
  unfold Phdr.Covers InRange Phdr.pages
  rw [Phdr.Fits.addr, Phdr.Fits.endAddr_of_below hb, Finset.mem_Ico]
  constructor
  · intro ⟨va, h1, h2, h3⟩
    unfold SamePage stackBegin userStack pageSize at *
    omega
  · intro hin
    refine ⟨x, ?_, ?_, rfl⟩
    · exact (Nat.le_div_iff_mul_le (by decide)).mp hin.1
    · exact (Nat.div_lt_iff_lt_mul (by decide)).mp hin.2

/-- the kernel finds a page of RAM at its own address -/
theorem VA_PA {p : Nat} (hp : p ∈ usable) : VA (PA p % 2 ^ 56 + x % 2 ^ 12) = p + x % pageSize := by
  obtain ⟨hsum, hlt⟩ := PA_usable hp
  have h1 : kernPhyBase + 2 ^ 20 ≤ p := hp.1
  have h2 : p < kernPhyBase + 2 ^ 22 := hp.2
  have hr : x % 2 ^ 12 < 2 ^ 12 := Nat.mod_lt _ (by decide)
  have hsub : PA p % 2 ^ 56 + x % 2 ^ 12 + kernBase - kernPhy = p + x % pageSize := by
    rw [Nat.mod_eq_of_lt hlt]
    unfold pageSize
    omega
  have hin : p + x % pageSize < wordCount := by
    unfold kernPhyBase kernBase splitAddr at h2
    unfold pageSize wordCount
    omega
  unfold VA
  rw [hsub, Nat.mod_eq_of_lt hin]

/-- the byte at an address of a segment, when no other segment reaches into its page -/
theorem byteAt_iff (hin : e.LiesIn h.mm.mem) (hw : WellFormed h.mm root) (hout : ∀ s ∈ tables h.mm.mem 2 root, pageAt s ∈ h.mm.out)
    (ht : (h.task t).pageTable = root) (hrun : h.loadElf t e.program = .ok (0, h'))
    (hbelow : ∀ q ∈ e.loaded, q.pVaddr + q.pMemsz ≤ stackBegin)
    (hdis : e.loaded.Pairwise fun p q => Disjoint p.pages q.pages) (hph : ph ∈ e.loaded) (hx : x / pageSize ∈ ph.pages) :
    ByteAt h' root x b ↔ ¬ ph.NoAccess ∧ e.fileByte ph (x - ph.addr) = b := by
  obtain ⟨c, l, hr, hl, hva, _, _⟩ := loadElf_run hin hw hout ht hrun
  obtain ⟨hw', hholds⟩ := hr.inv hw
  have hb := hbelow ph hph
  have hlow : x < stackBegin := by
    unfold Phdr.pages at hx
    rw [Finset.mem_Ico] at hx
    unfold stackBegin userStack pageSize at *
    omega
  have hlt : x < 2 ^ 39 := Nat.lt_trans hlow (by decide)
  have hstack : ¬ SamePage 0 x c.va := by
    rw [hva]
    unfold SamePage stackBegin userStack pageSize at *
    omega
  obtain ⟨l₁, l₂, hload⟩ := List.append_of_mem hph
  have hlast : ∀ q ∈ l₂, ¬ q.Covers x := by
    intro q hq hqx
    have hq' : q ∈ e.loaded := by
      rw [hload]
      exact List.mem_append_right _ (List.mem_cons_of_mem _ hq)
    rw [hload, List.pairwise_append] at hdis
    have hne := (List.pairwise_cons.mp hdis.2.1).1 q hq
    exact Finset.disjoint_left.mp hne hx ((Phdr.covers_iff (hbelow q hq') hlt).mp hqx)
  rw [hload] at hl
  obtain ⟨c', lc, hcall, hseg, hc'⟩ := hl.lastCall_of ((Phdr.covers_iff hb hlt).mpr hx) hlast
  obtain ⟨hcl, hsame⟩ := lastCall_some hcall
  have hc := hholds c' (List.mem_cons_of_mem _ hcl)
  have hmap : mapOf h' root x = setLeaf 0 (PA c'.page) ph.pteFlags x := by
    show walk h'.mm.mem 2 root x = _
    rw [hr.walk hw x, lastCall_cons, if_neg hstack, hcall, ← hseg.flags c' hc']
  have hbyte : h'.mm.mem (c'.page + x % pageSize) = e.fileByte ph (x - ph.addr) := by
    have hk : x % pageSize < pageSize := Nat.mod_lt _ (by decide)
    rw [hc.content _ hk, hseg.content c' hc' _ hk]
    obtain ⟨hdvd, hge, hlt'⟩ := hseg.va c' hc'
    rw [Phdr.Fits.endAddr_of_below hb] at hlt'
    have hk' : c'.va - ph.addr + x % pageSize = x - ph.addr := by
      have hpage : c'.va = x / pageSize * pageSize := by
        obtain ⟨m, hm⟩ := hdvd
        unfold SamePage stackBegin userStack pageSize at *
        omega
      have hmod := Nat.div_add_mod' x pageSize
      omega
    rw [hk']
  unfold ByteAt
  rw [hmap, setLeaf_pteFlags, noAccess_iff]
  cases hleaf : pteIsLeaf ph.pteFlags with
  | false => exact iff_of_false (fun ⟨_, htr, _⟩ => nomatch htr) fun hno => hno.1 rfl
  | true =>
    rw [if_pos rfl]
    constructor
    · intro ⟨tr, htr, hbt⟩
      have htr := Option.some.inj htr
      rw [← htr] at hbt
      rw [VA_PA hc.usable, hbyte] at hbt
      exact ⟨nofun, hbt⟩
    · intro ⟨_, hbt⟩
      refine ⟨_, rfl, ?_⟩
      rw [VA_PA hc.usable, hbyte]
      exact hbt

/-! ## when the contents are right -/

/-- what user code should find at an address of the segment's pages -/
def Elf.wanted (e : Elf) (ph : Phdr) (x : Nat) : UInt8 :=
  if ph.pVaddr ≤ x ∧ x < ph.pVaddr + ph.pFilesz then e.imageByte ph (x - ph.pVaddr) else 0

theorem Phdr.mem_pages {j : Nat} (hj : j < ph.pMemsz) : (ph.pVaddr + j) / pageSize ∈ ph.pages := by
  unfold Phdr.pages pageSize
  rw [Finset.mem_Ico]
  omega

theorem Phdr.first_mem_pages (hne : ph.pages.Nonempty) : ph.pVaddr / pageSize ∈ ph.pages := by
  obtain ⟨v, hv⟩ := hne
  unfold Phdr.pages at *
  rw [Finset.mem_Ico] at *
  omega

theorem Elf.contents_iff (hsz : ph.pFilesz ≤ ph.pMemsz) :
    e.Contents h root ph ↔ ∀ x, x / pageSize ∈ ph.pages → ByteAt h root x (e.wanted ph x) := by
  unfold Elf.wanted
  constructor
  · intro hc x hx
    by_cases hin : ph.pVaddr ≤ x ∧ x < ph.pVaddr + ph.pMemsz
    · have hj := hc.inside (x - ph.pVaddr) (by omega)
      have he : ph.pVaddr + (x - ph.pVaddr) = x := by omega
      rw [he] at hj
      have hiff : x - ph.pVaddr < ph.pFilesz ↔ ph.pVaddr ≤ x ∧ x < ph.pVaddr + ph.pFilesz := by omega
      simp only [hiff] at hj
      exact hj
    · rw [if_neg (by omega)]
      exact hc.outside x hx hin
  · intro hall
    refine ⟨fun j hj => ?_, fun x hx hnot => ?_⟩
    · have hb := hall (ph.pVaddr + j) (Phdr.mem_pages hj)
      have hiff : ph.pVaddr ≤ ph.pVaddr + j ∧ ph.pVaddr + j < ph.pVaddr + ph.pFilesz ↔ j < ph.pFilesz := by omega
      rw [Nat.add_sub_cancel_left] at hb
      simp only [hiff] at hb
      exact hb
    · have hb := hall x hx
      rw [if_neg (by omega)] at hb
      exact hb

/-- the segment gives a permission, and the bytes by which the part that is copied and the file part differ are 0 -/
def Elf.Copyable (e : Elf) (ph : Phdr) : Prop :=
  ph.pages.Nonempty → ¬ ph.NoAccess ∧ ∀ j, (j < e.copied ph ↔ ¬ j < ph.pFilesz) → e.imageByte ph j = 0

/-- one byte more or less than the file part -/
theorem Elf.copied_le (hj : k < e.copied ph) : k < ph.pFilesz ∨ k = 0 := by
  unfold Elf.copied at hj
  split at hj
  · exact absurd hj (Nat.not_lt_zero k)
  · split at hj <;> omega

theorem Elf.copyable_iff (hsz : ph.pFilesz ≤ ph.pMemsz) (hlt : ph.pFilesz < wordCount) :
    e.Copyable ph ↔ ∀ x, x / pageSize ∈ ph.pages → ¬ ph.NoAccess ∧ e.fileByte ph (x - ph.addr) = e.wanted ph x := by
  have hgot : ∀ x, x / pageSize ∈ ph.pages → e.fileByte ph (x - ph.addr)
      = if ph.pVaddr ≤ x ∧ x < ph.pVaddr + e.copied ph then e.imageByte ph (x - ph.pVaddr) else 0 := by
    intro x hx
    refine e.fileByte_eq hlt ?_
    unfold Phdr.pages at hx
    rw [Phdr.Fits.addr]
    exact (Nat.le_div_iff_mul_le (by decide)).mp (Finset.mem_Ico.mp hx).1
  unfold Elf.wanted
  constructor
  · intro hc x hx
    obtain ⟨hacc, hzero⟩ := hc ⟨_, hx⟩
    refine ⟨hacc, ?_⟩
    rw [hgot x hx]
    by_cases hge : ph.pVaddr ≤ x
    · by_cases h1 : x < ph.pVaddr + e.copied ph
      · by_cases h2 : x < ph.pVaddr + ph.pFilesz
        · rw [if_pos ⟨hge, h1⟩, if_pos ⟨hge, h2⟩]
        · rw [if_pos ⟨hge, h1⟩, if_neg fun hn => h2 hn.2]
          exact hzero _ (by omega)
      · by_cases h2 : x < ph.pVaddr + ph.pFilesz
        · rw [if_neg fun hn => h1 hn.2, if_pos ⟨hge, h2⟩]
          exact (hzero _ (by omega)).symm
        · rw [if_neg fun hn => h1 hn.2, if_neg fun hn => h2 hn.2]
    · rw [if_neg fun hn => hge hn.1, if_neg fun hn => hge hn.1]
  · intro hall hne
    have hfirst := hall ph.pVaddr (Phdr.first_mem_pages hne)
    refine ⟨hfirst.1, fun j hj => ?_⟩
    have hin : (ph.pVaddr + j) / pageSize ∈ ph.pages := by
      by_cases hfile : j < ph.pFilesz
      · exact Phdr.mem_pages (by omega)
      · have h0 : j = 0 := (e.copied_le (hj.mpr hfile)).resolve_left hfile
        rw [h0]
        exact Phdr.first_mem_pages hne
    have hb := (hall _ hin).2
    rw [hgot _ hin, Nat.add_sub_cancel_left] at hb
    by_cases hfile : j < ph.pFilesz
    · rw [if_neg (by omega), if_pos (by omega)] at hb
      exact hb.symm
    · rw [if_pos (by omega), if_neg (by omega)] at hb
      exact hb

/-- for an image that lies in memory only an empty file part matters -/
theorem Elf.copyable_iff_empty (h0 : e.program + ph.pOffset ≠ 0)
    (hmem : e.program + ph.pOffset + ph.pFilesz < wordCount) :
    e.Copyable ph ↔ (ph.pages.Nonempty → ¬ ph.NoAccess ∧ (ph.pFilesz = 0 → e.imageByte ph 0 = 0)) := by
  have hsrc : e.src ph = e.program + ph.pOffset := Nat.mod_eq_of_lt (by omega)
  have hcopied : e.copied ph = max 1 ph.pFilesz := by
    unfold Elf.copied
    rw [hsrc, if_neg h0, if_pos hmem]
  unfold Elf.Copyable
  rw [hcopied]
  refine imp_congr_right fun _ => and_congr_right fun _ => ⟨fun hall hz => hall 0 (by omega), fun hz j hj => ?_⟩
  have hj0 : j = 0 ∧ ph.pFilesz = 0 := by omega
  rw [hj0.1]
  exact hz hj0.2

/-- **What a loaded segment holds.**  When load_elf has returned 0 for an image that lies outside of the allocator's pages,
the pages of every segment hold its file part at
`p_vaddr` and zeros otherwise exactly if each segment that has pages gives a permission, and the byte at `p_offset` is 0
where the file part is empty. -/
theorem segment_contents (hin : e.LiesIn h.mm.mem) (hw : WellFormed h.mm root)
    (hout : ∀ s ∈ tables h.mm.mem 2 root, pageAt s ∈ h.mm.out) (ht : (h.task t).pageTable = root)
    (hsz : ∀ ph ∈ e.loaded, ph.pFilesz ≤ ph.pMemsz) (hbelow : ∀ ph ∈ e.loaded, ph.pVaddr + ph.pMemsz ≤ stackBegin)
    (hdis : e.loaded.Pairwise fun p q => Disjoint p.pages q.pages) (hrun : h.loadElf t e.program = .ok (0, h')) :
    (∀ ph ∈ e.loaded, e.Contents h' root ph) ↔ ∀ ph ∈ e.loaded, e.Copyable ph := by
  refine forall₂_congr fun ph hph => ?_
  have hlt : ph.pFilesz < wordCount := by
    have h1 := hsz ph hph
    have h2 := hbelow ph hph
    have h3 : stackBegin < wordCount := by decide
    omega
  rw [e.contents_iff (hsz ph hph), e.copyable_iff (hsz ph hph) hlt]
  exact forall₂_congr fun x hx => byteAt_iff hin hw hout ht hrun hbelow hdis hph hx

/-! ## a segment without a file part -/

/-- one PT_LOAD segment at 0x10000, of eight bytes, none of them in the file -/
def bssImage : Elf where
  program := program
  mem := fun x => if x = program + 96 then 0 else initImage.mem x

def bssPhdr : Phdr := { initPhdr with pFilesz := 0 }

theorem bssImage_phdr : bssImage.phdr 0 = bssPhdr := by decide

theorem bssImage_oneSegment : bssImage.OneSegment false :=
  ⟨by decide, by decide, .inl ⟨by decide, rfl⟩⟩

theorem bssImage_loaded : bssImage.loaded = [bssPhdr] := by
  rw [bssImage_oneSegment.loaded, bssImage_phdr]

theorem bssImage_placed : bssImage.Placed :=
  ⟨rfl, bssImage_oneSegment.bytes_within (by decide) (by decide) (by decide) (by decide) (by decide)⟩

/-- the segment is in order: what `segment_contents` asks of an image -/
theorem bssImage_meets : (∀ ph ∈ bssImage.loaded, ph.pFilesz ≤ ph.pMemsz) ∧
    (∀ ph ∈ bssImage.loaded, ph.pVaddr + ph.pMemsz ≤ stackBegin) ∧
    bssImage.loaded.Pairwise fun p q => Disjoint p.pages q.pages := by
  rw [bssImage_loaded, List.forall_mem_singleton, List.forall_mem_singleton]
  exact ⟨by decide, by decide, List.pairwise_singleton _ _⟩

theorem bssImage_loads : ∃ t h h' root, (bootKernel bssImage).heap.taskCreate 0 = .ok (t, h) ∧ bssImage.LiesIn h.mm.mem ∧
    Whole h.mm root ∧ (h.task t).pageTable = root ∧ h.loadElf t bssImage.program = .ok (0, h') :=
  boot_loads bssImage_oneSegment bssImage_placed (by rw [bssImage_phdr]; decide) (by rw [bssImage_phdr]; decide)

/-- the first byte of the segment is the byte of the image at `p_offset` -/
theorem bssImage_first_byte : ∃ t h h' root, (bootKernel bssImage).heap.taskCreate 0 = .ok (t, h) ∧
    bssImage.LiesIn h.mm.mem ∧ (h.task t).pageTable = root ∧ h.loadElf t bssImage.program = .ok (0, h') ∧
    ByteAt h' root 0x10000 0xff ∧ ¬ ∀ ph ∈ bssImage.loaded, bssImage.Contents h' root ph := by
  obtain ⟨t, h, h', root, hcreate, hlies, hh, ht, hrun⟩ := bssImage_loads
  obtain ⟨_, hbelow, hdis⟩ := bssImage_meets
  have hin : bssPhdr ∈ bssImage.loaded := by
    rw [bssImage_loaded]
    exact List.mem_singleton_self _
  have hpage : 0x10000 / pageSize ∈ bssPhdr.pages := by decide
  have hbyte : ∀ b, ByteAt h' root 0x10000 b ↔ ¬ bssPhdr.NoAccess ∧ bssImage.fileByte bssPhdr 0 = b := fun b =>
    byteAt_iff hlies hh.wf hh.out ht hrun hbelow hdis hin hpage
  have hacc : ¬ bssPhdr.NoAccess := by
    unfold Phdr.NoAccess
    decide
  have hval : bssImage.fileByte bssPhdr 0 = 0xff := by decide
  refine ⟨t, h, h', root, hcreate, hlies, ht, hrun, (hbyte _).mpr ⟨hacc, hval⟩, fun hall => ?_⟩
  have hzero : ByteAt h' root 0x10000 0 := (hall _ hin).inside 0 (by decide)
  have he := ((hbyte _).mp hzero).2
  rw [hval] at he
  exact absurd he (by decide)

/-- the theorem at that image -/
theorem segment_contents_bss : ∃ t h h' root, (bootKernel bssImage).heap.taskCreate 0 = .ok (t, h) ∧
    h.loadElf t bssImage.program = .ok (0, h') ∧
    ((∀ ph ∈ bssImage.loaded, bssImage.Contents h' root ph) ↔ ∀ ph ∈ bssImage.loaded, bssImage.Copyable ph) := by
  obtain ⟨t, h, h', root, hcreate, hlies, hh, ht, hrun⟩ := bssImage_loads
  obtain ⟨hsz, hbelow, hdis⟩ := bssImage_meets
  exact ⟨t, h, h', root, hcreate, hrun, segment_contents hlies hh.wf hh.out ht hsz hbelow hdis hrun⟩

end FakeKernel
