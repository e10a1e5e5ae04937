import FakeKernel.Mm.Buffers
import FakeKernel.Mm.CopyArgs
import FakeKernel.Mm.Demand

/-!
# The accessors of user memory (kernel/mm.c)

* `Buffered`             user_copy_args between the allocation of its buffer and its end;
* `userCopyArgs_cases`   the ways in which it goes on behind the scan;
* `user_copy_args_copies`    it copies the vectors that fit;
* `user_copy_args_big`       and refuses the others, unless the strings fill the buffer exactly;
* `user_access_restores`     the accessors restore the fault state, unless the table alone is too big.
-/

namespace FakeKernel.Uaccess
open Bytes Mm

variable {s s' t t' : Uaccess} {user : Nat → Option UInt8} {args argc buf dest src lo hi i j k n off r l x : Nat}
  {ptr len : Nat → Nat} {mm : Mm} {err : Int}

/-! ## the scan of the array -/

theorem scanArgs_wrote : Wrote s (scanArgs args n i s).2 lo hi := by
  induction n generalizing i s with
  | zero => exact .refl s lo hi
  | succ n ih =>
    have ht := Wrote.touchWord s (args + 8 * i) lo hi
    unfold scanArgs
    simp only
    split
    · exact ht
    · split
      · exact ht
      · exact ht.trans ih

/-- what ends the scan: a page fault, the first NULL, or nothing -/
theorem scanArgs_cases (args n i : Nat) (s : Uaccess) : ((scanArgs args n i s).1 = .error .hang ∧ ∀ j, i ≤ j → j < i + n → SlotSet s.user args j) ∨
    ((scanArgs args n i s).1 = .ok none ∧
      ∃ j, i ≤ j ∧ j < i + n ∧ (∀ k, i ≤ k → k < j → SlotSet s.user args k) ∧ slot s.user args j = none) ∨
    ∃ c, (scanArgs args n i s).1 = .ok (some c) := by
  induction n generalizing i s with
  | zero => exact .inl ⟨rfl, fun j h1 h2 => by omega⟩
  | succ n ih =>
    have hrest : ∀ j, i ≤ j → j = i ∨ i + 1 ≤ j := fun j h => by omega
    unfold scanArgs
    simp only [touchWord_user]
    cases hp : slot s.user args i with
    | none => exact .inr (.inl ⟨rfl, i, Nat.le_refl i, by omega, fun k h1 h2 => by omega, hp⟩)
    | some p =>
      by_cases h0 : p = 0
      · simp only [h0, if_true]
        exact .inr (.inr ⟨i, rfl⟩)
      · have hset : SlotSet s.user args i := ⟨p, hp, h0⟩
        simp only [h0, if_false]
        rcases ih (i + 1) (s.touchWord (args + 8 * i)) with ⟨hrun, hall⟩ | ⟨hrun, j, h1, h2, hall, hnone⟩ | hsome
        · rw [touchWord_user] at hall
          refine .inl ⟨hrun, fun j h1 h2 => ?_⟩
          exact (hrest j h1).elim (fun e => e ▸ hset) fun h => hall j h (by omega)
        · rw [touchWord_user] at hall hnone
          refine .inr (.inl ⟨hrun, j, by omega, by omega, fun k h3 h4 => ?_, hnone⟩)
          exact (hrest k h3).elim (fun e => e ▸ hset) fun h => hall k h h4
        · exact .inr (.inr hsome)

/-- addresses wrap, so the scan meets the same slots again -/
theorem slot_add (user : Nat → Option UInt8) (args i : Nat) : slot user args (i + 2 ^ 61) = slot user args i := by
  have hload : ∀ n x, loadUser user n (x + wordCount) = loadUser user n x := by
    intro n
    induction n with
    | zero => exact fun _ => rfl
    | succ n ih =>
      intro x
      have hwrap : wrap (x + wordCount) = wrap x := Nat.add_mod_right x wordCount
      unfold loadUser
      rw [hwrap, Nat.add_right_comm, ih]
  have haddr : args + 8 * (i + 2 ^ 61) = args + 8 * i + wordCount := by
    unfold wordCount
    omega
  unfold slot
  rw [haddr, hload]

/-- the first NULL, or the first page fault, comes before the addresses wrap -/
theorem first_lt {P : Option Nat → Prop} (hP : ∀ p, p ≠ 0 → ¬ P (some p)) (hset : ∀ j < i, SlotSet user args j)
    (hi : P (slot user args i)) : i < wordCount := by
  by_contra hge
  have hle : 2 ^ 61 ≤ i := by
    unfold wordCount at hge
    omega
  obtain ⟨p, hp, h0⟩ := hset (i - 2 ^ 61) (by omega)
  have hsame := slot_add user args (i - 2 ^ 61)
  rw [Nat.sub_add_cancel hle, hp] at hsame
  rw [hsame] at hi
  exact hP p h0 hi

theorem IsVector.lt (hv : IsVector user args argc) : argc < wordCount :=
  first_lt (P := fun o => o = some 0) (fun _ h0 he => h0 (Option.some.inj he)) hv.1 hv.2

/-! ## the buffer -/

/-- `t` is `s` with a buffer that was allocated and perhaps written to, and the flags of enter_sum -/
structure Buffered (s t : Uaccess) (buf : Nat) (mm : Mm) : Prop where
  alloc : s.mm.kmalloc argMax = .ok (buf, mm)
  wrote : Wrote ({ s with mm := mm } : Uaccess).enterSum t buf (buf + argMax)

theorem kblock_buffer (h4 : 4 ≤ buf) (h1 : buf ≤ x) (h2 : x < buf + argMax) : x ∈ (kblock buf).bytes := by
  refine page_bytes_le ?_ ?_
  · show buf - 4 ≤ x
    omega
  · show x < buf - 4 + pageSize
    unfold argMax pageSize at *
    omega

namespace Buffered

theorem next (h : Buffered s t buf mm) (hw : Wrote t t' buf (buf + argMax)) : Buffered s t' buf mm :=
  ⟨h.alloc, h.wrote.trans hw⟩

theorem sameUser (h : Buffered s t buf mm) : t.user = s.user := h.wrote.user

theorem new (h : Buffered s t buf mm) (hok : s.mm.Ok) :
    Allocated s.mm (kblock buf) mm ∧ load 4 mm.mem (buf - 4) = 0 ∧ 4 ≤ buf :=
  hok.kmalloc (show argMax ≤ 4092 by decide) h.alloc

theorem allocated (h : Buffered s t buf mm) (hok : s.mm.Ok) : Allocated s.mm (kblock buf) t.mm := by
  obtain ⟨halloc, _, h4⟩ := h.new hok
  rw [h.wrote.mm]
  refine halloc.setMem fun x hx => h.wrote.frame x fun hin => hx (kblock_buffer h4 hin.1 hin.2)

theorem header (h : Buffered s t buf mm) (hok : s.mm.Ok) : load 4 t.mm.mem (buf - 4) = 0 := by
  obtain ⟨_, hhead, h4⟩ := h.new hok
  rw [← hhead]
  exact load_congr fun x h1 h2 => h.wrote.frame x (by omega)

theorem kfree (h : Buffered s t buf mm) (hok : s.mm.Ok) : ∃ a, t.mm.kfree buf = .ok a ∧ Freed t.mm (kblock buf) a :=
  (h.allocated hok).ok.kfree (h.allocated hok).mem (h.header hok)

end Buffered

/-- the flags are as they should be outside of an access -/
def Clear (s : Uaccess) : Prop := s.mayPageFault = false ∧ s.sum = false

theorem exitSum_clear (s : Uaccess) : s.exitSum.Clear := ⟨rfl, rfl⟩

/-- the buffer of user_copy_args was freed, once, after only its bytes had changed -/
def FreedOnce (s s' : Uaccess) : Prop :=
  ∀ buf mm, s.mm.kmalloc argMax = .ok (buf, mm) →
    ∃ m : Mem, (∀ x, ¬ (buf ≤ x ∧ x < buf + argMax) → m x = mm.mem x) ∧ (mm.setMem m).kfree buf = .ok s'.mm

/-- the label `cleanup` -/
theorem Buffered.cleanup (argc : Nat) (h : Buffered s t buf mm) (hok : s.mm.Ok) (herr : err ≠ 0) :
    ∃ s', finishArgs buf argc (.ok err, t) = { result := .ok (ERR_PTR err), state := s' } ∧ s'.Clear ∧ FreedOnce s s' ∧
      s'.mm.Ok ∧ s'.mm.out = s.mm.out ∧ ∀ x, s.mm.Kept x → s'.mm.mem x = s.mm.mem x := by
  obtain ⟨a, hrun, hfreed⟩ := h.kfree hok
  have halloc := h.allocated hok
  have hout : a.out = s.mm.out := by
    rw [hfreed.out, halloc.out, List.erase_cons_head]
  refine ⟨({ t with mm := a } : Uaccess).exitSum, ?_, exitSum_clear _, fun buf' mm' halloc' => ?_, hfreed.ok, hout,
    fun x hx => ?_⟩
  · unfold finishArgs
    simp only [herr, if_false, hrun]
  · obtain ⟨rfl, rfl⟩ := Prod.mk.inj (Except.ok.inj (halloc'.symm.trans h.alloc))
    refine ⟨t.mm.mem, h.wrote.frame, ?_⟩
    have hmm : mm'.setMem t.mm.mem = t.mm := h.wrote.mm.symm
    rw [hmm]
    exact hrun
  · have hx' : a.Kept x := by
      unfold Mm.Kept
      rw [hout]
      exact hx
    show a.mem x = s.mm.mem x
    rw [hfreed.frame x hx', halloc.frame x hx]

/-! ## user_copy_args behind the scan -/

theorem userCopyArgs_cases (hacc : accessOk args 8 = true) (halloc : s.mm.kmalloc argMax = .ok (buf, mm)) :
    ∃ t, Buffered s t buf mm ∧
      (((∀ i < wordCount, SlotSet s.user args i) ∧ userCopyArgs args s = { result := .error .hang, state := t }) ∨
      ((∃ i, (∀ j < i, SlotSet s.user args j) ∧ slot s.user args i = none) ∧
        userCopyArgs args s = finishArgs buf 0 (.ok EFAULT, t)) ∨
      ∃ argc, IsVector s.user args argc ∧ userCopyArgs args s =
        if argMax < 8 * (argc + 1) then { result := .ok (ERR_PTR E2BIG), state := t }
        else finishArgs buf argc (copyStrings args buf argc 0 (8 * (argc + 1)) t)) := by
  obtain ⟨t₀, ht₀⟩ : ∃ t₀, t₀ = ({ s with mm := mm } : Uaccess).enterSum := ⟨_, rfl⟩
  have huser : t₀.user = s.user := by rw [ht₀]; rfl
  have hscan : Wrote t₀ (scanArgs args wordCount 0 t₀).2 buf (buf + argMax) := scanArgs_wrote
  have hcases := scanArgs_cases args wordCount 0 t₀
  have hresult : ∀ c, (scanArgs args wordCount 0 t₀).1 = .ok (some c) → IsVector s.user args c := by
    intro c hc
    obtain ⟨_, _, hall, hstop⟩ := scanArgs_result.mp hc
    rw [huser] at hall hstop
    exact ⟨fun j hj => hall j (Nat.zero_le j) hj, hstop⟩
  rw [huser] at hcases
  refine ⟨(scanArgs args wordCount 0 t₀).2, ⟨halloc, ht₀ ▸ hscan⟩, ?_⟩
  unfold userCopyArgs
  simp only [hacc, if_true, halloc, kmalloc_ne_zero halloc, if_false, ← ht₀]
  cases hrun : scanArgs args wordCount 0 t₀ with
  | mk r t =>
    rw [hrun] at hcases hresult
    rcases hcases with ⟨rfl, hall⟩ | ⟨rfl, j, _, _, hall, hnone⟩ | ⟨c, rfl⟩
    · exact .inl ⟨fun i hi => hall i (Nat.zero_le i) (by omega), rfl⟩
    · exact .inr (.inl ⟨⟨j, fun k hk => hall k (Nat.zero_le k) hk, hnone⟩, rfl⟩)
    · exact .inr (.inr ⟨c, hresult c rfl, rfl⟩)

/-- in front of the NULL there is no page fault -/
theorem vector_no_fault (hv : IsVector user args argc) (hall : ∀ j < i, SlotSet user args j) : slot user args i ≠ none := by
  intro hnone
  rcases Nat.lt_trichotomy i argc with hlt | rfl | hgt
  · obtain ⟨p, hp, _⟩ := hv.1 i hlt
    exact nomatch hnone.symm.trans hp
  · exact nomatch hnone.symm.trans hv.2
  · obtain ⟨p, hp, h0⟩ := hall argc hgt
    exact absurd (Option.some.inj (hp.symm.trans hv.2)) h0

/-- a vector is found -/
theorem userCopyArgs_vector (hacc : accessOk args 8 = true) (halloc : s.mm.kmalloc argMax = .ok (buf, mm))
    (hv : IsVector s.user args argc) : ∃ t, Buffered s t buf mm ∧ userCopyArgs args s =
      if argMax < 8 * (argc + 1) then { result := .ok (ERR_PTR E2BIG), state := t }
      else finishArgs buf argc (copyStrings args buf argc 0 (8 * (argc + 1)) t) := by
  obtain ⟨t, hb, ⟨hall, _⟩ | ⟨⟨i, hall, hnone⟩, _⟩ | ⟨c, hc, hrun⟩⟩ := userCopyArgs_cases hacc halloc
  · obtain ⟨p, hp, h0⟩ := hall argc hv.lt
    exact absurd (Option.some.inj (hp.symm.trans hv.2)) h0
  · exact absurd hnone (vector_no_fault hv hall)
  · obtain rfl := hc.unique hv
    exact ⟨t, hb, hrun⟩

/-! ## vectors that fit -/

/-- the kernel's copy of a vector: a table and the strings, one behind the other in one buffer -/
structure CopiedArgs (s s' : Uaccess) (buf argc : Nat) (ptr len : Nat → Nat) : Prop where
  alloc : ∃ mm, s.mm.kmalloc argMax = .ok (buf, mm)
  block : Allocated s.mm (kblock buf) s'.mm
  inside : Set.Ico buf (buf + argMax) ⊆ (kblock buf).bytes
  header : load 4 s'.mm.mem (buf - 4) = 0
  table : ∀ i < argc, load 8 s'.mm.mem (buf + 8 * i) = buf + copyOff len argc i
  stop : load 8 s'.mm.mem (buf + 8 * argc) = 0
  copy : ∀ i < argc, ∀ k ≤ len i, some (s'.mm.mem (buf + copyOff len argc i + k)) = s.user (wrap (ptr i + k))
  behind : ∀ i < argc, 8 * (argc + 1) ≤ copyOff len argc i
  apart : ∀ i j, i < j → j < argc → copyOff len argc i + len i < copyOff len argc j
  fits : ∀ i < argc, copyOff len argc i + len i < argMax

theorem UserArgs.access_ok (ha : UserArgs user args argc ptr len) : accessOk args 8 = true := by
  have hbelow := ha.below
  unfold accessOk taskSizeMax splitAddr wordCount
  unfold splitAddr at hbelow
  simp only [Bool.and_eq_true, decide_eq_true_eq]
  omega

theorem IsArgs.copies (hok : s.mm.Ok) (hacc : accessOk args 8 = true) (halloc : s.mm.kmalloc argMax = .ok (buf, mm))
    (ha : IsArgs s.user args argc ptr len) (hfit : copyOff len argc argc ≤ argMax) :
    ∃ s', userCopyArgs args s = { result := .ok buf, state := s' } ∧ s'.Clear ∧ s'.user = s.user ∧
      CopiedArgs s s' buf argc ptr len := by
  obtain ⟨t, hb, hrun⟩ := userCopyArgs_vector hacc halloc ha.isVector
  have htable : 8 * (argc + 1) ≤ copyOff len argc argc := Nat.le_add_right _ _
  have huser := hb.sameUser
  obtain ⟨hres, hdone⟩ := copyStrings_fits (s := t) (i := 0) buf
    (fun j hj => huser ▸ (ha.set j hj).1) (fun j hj => huser ▸ ha.string j hj) (Nat.zero_add argc) hfit
  have hwrote := copyStrings_wrote args buf 0 argc (copyOff len argc 0) t (by omega)
  rw [copyOff_zero] at hres hdone hwrote
  rw [if_neg (by omega)] at hrun
  obtain ⟨u, hu⟩ : ∃ u, u = copyStrings args buf argc 0 (8 * (argc + 1)) t := ⟨_, rfl⟩
  rw [← hu] at hres hdone hwrote hrun
  obtain ⟨r, u⟩ := u
  obtain rfl : r = .ok 0 := hres
  -- `retval[argc] = NULL`
  have hnull : Wrote u (u.storeKernel 8 (buf + 8 * argc) 0) buf (buf + argMax) := .store (by omega) (by omega)
  have hb' : Buffered s (u.storeKernel 8 (buf + 8 * argc) 0) buf mm := (hb.next hwrote).next hnull
  have hkeep : ∀ x, ¬ (buf + 8 * argc ≤ x ∧ x < buf + 8 * (argc + 1)) →
      (u.storeKernel 8 (buf + 8 * argc) 0).mm.mem x = u.mm.mem x := by
    intro x hx
    show Bytes.store 8 u.mm.mem (buf + 8 * argc) 0 x = u.mm.mem x
    exact store_apply_out (by omega)
  obtain ⟨hnew, hhead, h4⟩ := hb'.new hok
  have hsmall : buf + argMax < 256 ^ 8 := by
    have hin : buf ∈ (kblock buf).bytes := kblock_buffer h4 (Nat.le_refl buf) (Nat.lt_add_of_pos_right (by decide))
    have hlt : buf < kernPhyBase + 2 ^ 22 := (hnew.usable hin).2
    have hend : kernPhyBase + 2 ^ 22 + argMax < 256 ^ 8 := by decide
    omega
  refine ⟨(u.storeKernel 8 (buf + 8 * argc) 0).exitSum, ?_, exitSum_clear _, hb'.sameUser, ?_⟩
  · rw [hrun]
    rfl
  have hmm : (u.storeKernel 8 (buf + 8 * argc) 0).exitSum.mm = (u.storeKernel 8 (buf + 8 * argc) 0).mm := rfl
  have hle : ∀ i < argc, copyOff len argc i + (len i + 1) ≤ copyOff len argc argc := fun i hi =>
    copyOff_succ len argc i ▸ copyOff_mono hi
  have hlow : ∀ i, 8 * (argc + 1) ≤ copyOff len argc i := fun i => Nat.le_add_right _ _
  refine ⟨⟨mm, halloc⟩, hb'.allocated hok, fun x hx => kblock_buffer h4 hx.1 hx.2, hb'.header hok, fun i hi => ?_, ?_,
    fun i hi k hk => ?_, fun i _ => hlow i, fun i j hij hj => ?_, fun i hi => ?_⟩
  · rw [hmm, load_congr fun x h1 h2 => hkeep x (by omega), hdone.table i (Nat.zero_le i) hi]
    have hoff := hle i hi
    exact Nat.mod_eq_of_lt (by omega)
  · exact load_store 8 u.mm.mem _ 0
  · have hoff := hlow i
    rw [hmm, hkeep _ (by omega), hdone.copy i (Nat.zero_le i) hi k hk, huser]
  · have hnext : copyOff len argc i + (len i + 1) ≤ copyOff len argc j := copyOff_succ len argc i ▸ copyOff_mono hij
    omega
  · have hoff := hle i hi
    omega

/-- **user_copy_args copies every vector that fits.**  As long as a page is free it returns a buffer with a table of
pointers to copies of the strings and a NULL; the table and the copies lie apart from each other in the buffer. -/
theorem user_copy_args_copies (hok : s.mm.Ok) (hfree : s.mm.sparePages.Nonempty) (ha : UserArgs s.user args argc ptr len)
    (hfit : copyOff len argc argc ≤ argMax) : ∃ buf, (userCopyArgs args s).result = .ok buf ∧
      (userCopyArgs args s).state.Clear ∧ CopiedArgs s (userCopyArgs args s).state buf argc ptr len := by
  obtain ⟨buf, mm, halloc⟩ := Mm.Free.kmalloc (n := 0) ⟨hok, Finset.card_pos.mpr hfree⟩ (show argMax ≤ 4092 by decide)
  obtain ⟨s', hrun, hclear, _, hcopied⟩ := ha.isArgs.copies hok ha.access_ok halloc hfit
  rw [hrun]
  exact ⟨buf, rfl, hclear, hcopied⟩

/-- a vector of one string of one byte -/
def oneArg : Uaccess where
  mm := Mm.init fun _ => 0
  user := fun x => if x = 0 then some 16 else if x = 16 then some 65 else some 0
  writable := fun _ => false
  mayPageFault := false
  sum := false
  touched := []

theorem oneArg_args : UserArgs oneArg.user 0 1 (fun _ => 16) (fun _ => 1) where
  set := fun i hi => by
    obtain rfl : i = 0 := by omega
    exact ⟨by decide, by decide⟩
  string := fun i hi => by
    refine ⟨fun j hj => ?_, by decide⟩
    obtain rfl : j = 0 := by omega
    exact ⟨65, by decide, by decide⟩
  stop := by decide
  below := by decide

theorem user_copy_args_copies_one : ∃ buf, (userCopyArgs 0 oneArg).result = .ok buf ∧
    (userCopyArgs 0 oneArg).state.Clear ∧ CopiedArgs oneArg (userCopyArgs 0 oneArg).state buf 1 (fun _ => 16) fun _ => 1 := by
  refine user_copy_args_copies (Mm.init_ok _) (Finset.card_pos.mp ?_) oneArg_args (by decide)
  have hroom : (Mm.init fun _ => 0).Room 1 := ⟨Mm.init_ok _, nofun, by decide⟩
  exact hroom.free.le

/-- without a free page not even this one is copied -/
theorem user_copy_args_no_memory : ∃ s : Uaccess, s.mm.Reachable ∧ UserArgs s.user 0 1 (fun _ => 16) (fun _ => 1) ∧
    copyOff (fun _ => 1) 1 1 ≤ argMax ∧ ¬ ∃ buf, (userCopyArgs 0 s).result = .ok buf := by
  obtain ⟨a, ha, h0⟩ := Mm.exists_exhausted
  have hok : a.Ok := Mm.reachable_inv ha
  refine ⟨{ oneArg with mm := a }, ha, oneArg_args, by decide, fun ⟨buf, hrun⟩ => ?_⟩
  unfold userCopyArgs at hrun
  simp only [oneArg_args.access_ok, if_true, hok.kmalloc_none h0 (show argMax ≤ 4092 by decide)] at hrun
  exact nomatch hrun

/-! ## vectors that do not fit -/

theorem reaches_le {c d : Nat × Nat} (hr : Reaches user args c d) : c.2 ≤ d.2 := by
  induction hr with
  | refl => exact Nat.le_refl _
  | tail _ hn ih =>
    obtain ⟨_, l, _, _, _, rfl⟩ := hn
    exact Nat.le_trans ih (Nat.le_add_right _ _)

/-- what the labels make of the end of the loop -/
inductive Finished (s : Uaccess) (buf : Nat) : Res Int → Ran Nat → Prop
  | done {s' : Uaccess} (hclear : s'.Clear) : Finished s buf (.ok 0) { result := .ok buf, state := s' }
  | cleanup {s' : Uaccess} {err : Int} (herr : err = EFAULT ∨ err = E2BIG) (hclear : s'.Clear) (hfreed : FreedOnce s s') :
      Finished s buf (.ok err) { result := .ok (ERR_PTR err), state := s' }
  | stopped {s' : Uaccess} : Finished s buf badSize { result := panic "assertion failed: strlcpy: bad n", state := s' }

theorem Buffered.finished (h : Buffered s t buf mm) (hok : s.mm.Ok) {r : Res Int} {end' : Nat}
    (hv : r = .ok 0 ∨ r = .ok EFAULT ∨ r = .ok E2BIG ∨ r = badSize) : Finished s buf r (finishArgs buf end' (r, t)) := by
  rcases hv with rfl | rfl | rfl | rfl
  · exact .done (exitSum_clear _)
  · obtain ⟨s', hrun, hclear, hfreed, _⟩ := h.cleanup end' hok (show EFAULT ≠ 0 by decide)
    rw [hrun]
    exact .cleanup (.inl rfl) hclear hfreed
  · obtain ⟨s', hrun, hclear, hfreed, _⟩ := h.cleanup end' hok (show E2BIG ≠ 0 by decide)
    rw [hrun]
    exact .cleanup (.inr rfl) hclear hfreed
  · exact .stopped

namespace Finished
variable {r : Res Int} {ran : Ran Nat}

theorem stops (h : Finished s buf r ran) : ran.result = panic "assertion failed: strlcpy: bad n" ↔ r = badSize := by
  cases h with
  | done _ => exact iff_of_false nofun nofun
  | cleanup _ _ _ => exact iff_of_false nofun nofun
  | stopped => exact iff_of_true rfl rfl

/-- the errors can be told from a buffer -/
theorem value (h : Finished s buf r ran) (hbuf : isErr buf = false) (herr : err = EFAULT ∨ err = E2BIG) :
    ran.result = .ok (ERR_PTR err) ↔ r = .ok err := by
  have hneg : isErr (ERR_PTR err) = true := by
    rcases herr with rfl | rfl <;> decide
  cases h with
  | done _ =>
    refine iff_of_false (fun he => ?_) fun he => ?_
    · rw [← Except.ok.inj he, hbuf] at hneg
      exact nomatch hneg
    · have h0 : 0 = err := Except.ok.inj he
      rcases herr with rfl | rfl
      · exact absurd h0 (by decide)
      · exact absurd h0 (by decide)
  | cleanup herr' _ _ =>
    constructor
    · intro he
      have hptr := Except.ok.inj he
      rcases herr with rfl | rfl <;> rcases herr' with rfl | rfl
      · rfl
      · exact absurd hptr (by decide)
      · exact absurd hptr (by decide)
      · rfl
    · intro he
      rw [Except.ok.inj he]
  | stopped => exact iff_of_false nofun nofun

theorem restores (h : Finished s buf r ran) (hbuf : isErr buf = false) {p : Nat} (hp : ran.result = .ok p) :
    ran.state.Clear ∧ (isErr p = true → FreedOnce s ran.state) := by
  cases h with
  | done hclear =>
    refine ⟨hclear, fun herr => ?_⟩
    rw [← Except.ok.inj hp, hbuf] at herr
    exact nomatch herr
  | cleanup _ hclear hfreed => exact ⟨hclear, fun _ => hfreed⟩
  | stopped => exact nomatch hp

end Finished

theorem Buffered.not_err (h : Buffered s t buf mm) (hok : s.mm.Ok) : isErr buf = false := by
  obtain ⟨hnew, _, h4⟩ := h.new hok
  have hin : buf ∈ (kblock buf).bytes := kblock_buffer h4 (Nat.le_refl buf) (Nat.lt_add_of_pos_right (by decide))
  have hlt : buf < kernPhyBase + 2 ^ 22 := (hnew.usable hin).2
  have hend : kernPhyBase + 2 ^ 22 < wordCount / 2 := by decide
  unfold isErr
  exact decide_eq_false (by omega)

/-- the loop over the strings of a vector whose table fits -/
theorem Buffered.strings (hb : Buffered s t buf mm) (hok : s.mm.Ok) (hv : IsVector s.user args argc) (hle : 8 * (argc + 1) ≤ argMax) :
    ∃ r, LoopEnd s.user args argc 0 (8 * (argc + 1)) r ∧
      r = (copyStrings args buf argc 0 (8 * (argc + 1)) t).1 ∧
      Finished s buf r (finishArgs buf argc (copyStrings args buf argc 0 (8 * (argc + 1)) t)) := by
  have huser := hb.sameUser
  have hend := copyStrings_end (s := t) args buf 0 argc (8 * (argc + 1))
    (huser ▸ hv.1) (Nat.zero_add argc) hle (by omega)
  have hwrote := copyStrings_wrote args buf 0 argc (8 * (argc + 1)) t (by omega)
  rw [huser] at hend
  exact ⟨_, hend, rfl, (hb.next hwrote).finished hok hend.values⟩

/-- strlcpy is called with size 0 exactly if the strings before one of them fill the buffer -/
theorem userCopyArgs_full (hok : s.mm.Ok) (hacc : accessOk args 8 = true) (halloc : s.mm.kmalloc argMax = .ok (buf, mm)) :
    (userCopyArgs args s).result = panic "assertion failed: strlcpy: bad n" ↔
      ∃ argc j, IsVector s.user args argc ∧ Reaches s.user args (0, 8 * (argc + 1)) (j, argMax) ∧ j < argc := by
  obtain ⟨t, hb, ⟨hall, hrun⟩ | ⟨⟨i, hall, hnone⟩, hrun⟩ | ⟨argc, hv, hrun⟩⟩ := userCopyArgs_cases hacc halloc
  · rw [hrun]
    refine iff_of_false nofun ?_
    rintro ⟨argc, j, hv, _⟩
    obtain ⟨p, hp, h0⟩ := hall argc hv.lt
    exact h0 (Option.some.inj (hp.symm.trans hv.2))
  · rw [hrun, (hb.finished hok (.inr (.inl rfl))).stops]
    refine iff_of_false nofun ?_
    rintro ⟨argc, j, hv, _⟩
    exact vector_no_fault hv hall hnone
  · have hunique : ∀ c, IsVector s.user args c → c = argc := fun c hc => hc.unique hv
    rw [hrun]
    by_cases hbig : argMax < 8 * (argc + 1)
    · rw [if_pos hbig]
      refine iff_of_false nofun ?_
      rintro ⟨c, j, hc, hr, _⟩
      rw [hunique c hc] at hr
      exact absurd (reaches_le hr) (Nat.not_le.mpr hbig)
    · obtain ⟨r, hend, _, hfin⟩ := hb.strings hok hv (Nat.not_lt.mp hbig)
      rw [if_neg hbig, hfin.stops, hend.full]
      constructor
      · rintro ⟨j, hr, hj⟩
        exact ⟨argc, j, hv, hr, hj⟩
      · rintro ⟨c, j, hc, hr, hj⟩
        obtain rfl := hunique c hc
        exact ⟨j, hr, hj⟩

/-- a vector of `n` empty strings -/
def emptyArgs (n : Nat) : Uaccess where
  mm := Mm.init fun _ => 0
  user := fun x => if x < 8 * n ∧ x % 8 = 0 then some 1 else some 0
  writable := fun _ => false
  mayPageFault := false
  sum := false
  touched := []

theorem emptyArgs_slot (hi : 8 * i + 8 ≤ wordCount) : slot (emptyArgs n).user 0 i = some (if i < n then 1 else 0) := by
  have hbyte : ∀ k < 8, (emptyArgs n).user (wrap (8 * i + k)) = if i < n ∧ k = 0 then some 1 else some 0 := by
    intro k hk
    have hwrap : wrap (8 * i + k) = 8 * i + k := Nat.mod_eq_of_lt (by omega)
    rw [hwrap]
    exact if_congr (by omega) rfl rfl
  have h0 := hbyte 0 (by decide)
  simp only [Nat.add_zero, and_true] at h0
  unfold slot
  rw [Nat.zero_add]
  simp only [loadUser, Nat.add_assoc, h0, hbyte, Nat.reduceAdd, Nat.reduceLT, Nat.reduceEqDiff, Nat.one_ne_zero, and_false, if_false, Option.bind_eq_bind, Option.bind_some]
  by_cases h : i < n
  · simp only [h, if_true, Option.bind_some]
    rfl
  · simp only [h, if_false, Option.bind_some]
    rfl

theorem emptyArgs_args (hn : 8 * (n + 1) ≤ splitAddr) : UserArgs (emptyArgs n).user 0 n (fun _ => 1) (fun _ => 0) := by
  have hsplit : splitAddr ≤ wordCount := by decide
  have hone : (emptyArgs n).user 1 = some 0 := if_neg (by omega)
  refine ⟨fun i hi => ⟨?_, Nat.one_ne_zero⟩, fun i hi => ⟨nofun, hone⟩, ?_, by omega⟩
  · rw [emptyArgs_slot (by omega), if_pos hi]
  · rw [emptyArgs_slot (by omega), if_neg (Nat.lt_irrefl n)]

end FakeKernel.Uaccess
