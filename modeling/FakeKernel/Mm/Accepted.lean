import FakeKernel.Mm.Faults

/-!
# What user_copy_args returns (kernel/mm.c)

* `strings_outcome`       the strings are copied, or one of them ends the loop;
* `copyStrings_result`    which of them happens, by the result;
* `userCopyArgs_accepted` a buffer that is returned holds a copy of a vector;
* `userCopyArgs_verdict`  the inputs for which none is returned.
-/

namespace FakeKernel.Uaccess
open Bytes Mm

variable {s t : Uaccess} {user : Nat → Option UInt8} {args argc buf i j k n off o : Nat} {ptr len : Nat → Nat} {mm : Mm}
  {c d : Nat × Nat}

/-- a load from user memory that holds bytes of `m` -/
theorem loadUser_bytes {m : Mem} {x y : Nat} (h : ∀ k < n, user (wrap (x + k)) = some (m (y + k))) :
    loadUser user n x = some (load n m y) := by
  induction n generalizing x y with
  | zero => rfl
  | succ n ih =>
    have h0 : user (wrap x) = some (m y) := h 0 (Nat.succ_pos n)
    have hrest := ih (x := x + 1) (y := y + 1) fun k hk => by
      rw [Nat.add_assoc, Nat.add_comm 1 k, Nat.add_assoc, Nat.add_comm 1 k]
      exact h (k + 1) (Nat.succ_lt_succ hk)
    unfold loadUser
    rw [h0, hrest]
    rfl

/-! ## the loop over the strings -/

/-- the loop runs on from where it gets to -/
theorem copyStrings_reaches (buf : Nat) (hr : Reaches s.user args (i, off) d) (hin : i + n = argc) (htable : 8 * argc ≤ off)
    (hle : d.1 ≤ argc) : ∃ t m, d.1 + m = argc ∧ t.user = s.user ∧
      (copyStrings args buf n i off s).1 = (copyStrings args buf m d.1 d.2 t).1 := by
  induction hr with
  | refl => exact ⟨s, n, hin, rfl, rfl⟩
  | @tail c d hr hnext ih =>
    obtain ⟨p, l, hslot, hs, hfit, rfl⟩ := hnext
    have hoff : off ≤ c.2 := reaches_le hr
    have hle : c.1 + 1 ≤ argc := hle
    obtain ⟨t, m, hm, huser, hrun⟩ := ih (by omega)
    obtain ⟨m, rfl⟩ : ∃ m', m = m' + 1 := ⟨m - 1, by omega⟩
    obtain ⟨t', hrun', huser', _⟩ := copyStrings_next buf m c.2 (huser ▸ hslot) (huser ▸ hs) hfit (by omega)
    refine ⟨t', m, ?_, huser'.trans huser, by rw [hrun, hrun']⟩
    show c.1 + 1 + m = argc
    omega

/-- no byte of the string `i` that fits into the buffer is its NUL -/
def StringBig (user : Nat → Option UInt8) (args i off : Nat) : Prop :=
  ∃ p, slot user args i = some p ∧ off < argMax ∧ ∀ k, off + k < argMax → NonNul user (p + k)

theorem reaches_le_argMax (hr : Reaches user args c d) (hc : c.2 ≤ argMax) : d.2 ≤ argMax := by
  induction hr with
  | refl => exact hc
  | @tail c d _ hnext _ =>
    obtain ⟨p, l, _, _, hfit, rfl⟩ := hnext
    show c.2 + (l + 1) ≤ argMax
    omega

/-- the strings are copied up to the last, or one faults, finds the buffer full or is too long -/
theorem strings_outcome (hset : ∀ j < argc, SlotSet user args j) (hin : i + n = argc) (hoff : off ≤ argMax) :
    (∃ o, Reaches user args (i, off) (argc, o)) ∨ ∃ j o, Reaches user args (i, off) (j, o) ∧ j < argc ∧
      (StringFaults user args j o ∨ o = argMax ∨ StringBig user args j o) := by
  induction n generalizing i off with
  | zero =>
    obtain rfl : i = argc := hin
    exact .inl ⟨off, .refl⟩
  | succ n ih =>
    obtain ⟨p, hslot, _⟩ := hset i (by omega)
    by_cases hfull : off = argMax
    · exact .inr ⟨i, off, .refl, by omega, .inr (.inl hfull)⟩
    rcases string_cases user p (argMax - off) with ⟨l, hl, hs⟩ | ⟨k, hk, hs, hnone⟩ | hall
    · have hnext : Next user args (i, off) (i + 1, off + (l + 1)) := ⟨p, l, hslot, hs, by omega, rfl⟩
      have hin' : i + 1 + n = argc := by omega
      have hoff' : off + (l + 1) ≤ argMax := by omega
      rcases ih hin' hoff' with ⟨o, hr⟩ | ⟨j, o, hr, hj, hstop⟩
      · exact .inl ⟨o, .head hnext hr⟩
      · exact .inr ⟨j, o, .head hnext hr, hj, hstop⟩
    · exact .inr ⟨i, off, .refl, by omega, .inl ⟨p, k, hslot, by omega, hs, hnone⟩⟩
    · exact .inr ⟨i, off, .refl, by omega, .inr (.inr ⟨p, hslot, by omega, fun k hk => hall k (by omega)⟩)⟩

theorem copyStrings_result (buf : Nat) (hset : ∀ j < argc, SlotSet s.user args j) (hin : i + n = argc) (hoff : off ≤ argMax)
    (htable : 8 * argc ≤ off) :
    ((copyStrings args buf n i off s).1 = .ok 0 ↔ ∃ o, Reaches s.user args (i, off) (argc, o)) ∧
    ((copyStrings args buf n i off s).1 = .ok E2BIG ↔
      ∃ j o, Reaches s.user args (i, off) (j, o) ∧ j < argc ∧ StringBig s.user args j o) := by
  obtain ⟨_, hfault, hfull⟩ := copyStrings_end (s := s) args buf i n off hset hin hoff htable
  obtain ⟨r, hr⟩ : ∃ r, r = (copyStrings args buf n i off s).1 := ⟨_, rfl⟩
  have hdone : ∀ o, Reaches s.user args (i, off) (argc, o) → r = .ok 0 := by
    intro o ho
    obtain ⟨t, m, hm, _, hrun⟩ := copyStrings_reaches buf ho hin htable (Nat.le_refl argc)
    have hm : argc + m = argc := hm
    obtain rfl : m = 0 := by omega
    rw [hr, hrun]
    rfl
  have hbig : ∀ j o, Reaches s.user args (i, off) (j, o) → j < argc → StringBig s.user args j o → r = .ok E2BIG := by
    intro j o ho hj ⟨p, hslot, hlt, hall⟩
    obtain ⟨t, m, hm, huser, hrun⟩ := copyStrings_reaches buf ho hin htable (Nat.le_of_lt hj)
    have hm : j + m = argc := hm
    obtain ⟨m, rfl⟩ : ∃ m', m = m' + 1 := ⟨m - 1, by omega⟩
    rw [hr, hrun]
    exact copyStrings_stop (huser ▸ hslot) hlt fun k hk => huser ▸ hall k hk
  have hno : ∀ {v w : Res Int}, r = v → v ≠ w → (r = w → False) := fun h1 h2 h3 => h2 (h1.symm.trans h3)
  rw [← hr] at hfault hfull ⊢
  rcases strings_outcome hset hin hoff with ⟨o, ho⟩ | ⟨j, o, ho, hj, hstop⟩
  · have h0 := hdone o ho
    have hne : (.ok 0 : Res Int) ≠ .ok E2BIG := nofun
    refine ⟨iff_of_true h0 ⟨o, ho⟩, iff_of_false (hno h0 hne) ?_⟩
    rintro ⟨j, o', ho', hj, hb⟩
    exact hno h0 hne (hbig j o' ho' hj hb)
  · have hother : ∀ {v : Res Int}, r = v → v ≠ .ok 0 → (r = .ok 0 ↔ ∃ o, Reaches s.user args (i, off) (argc, o)) := by
      intro v hv hne
      refine iff_of_false (hno hv hne) ?_
      rintro ⟨o', ho'⟩
      exact hno hv hne (hdone o' ho')
    have hnotbig : ∀ {v : Res Int}, r = v → v ≠ .ok E2BIG → (r = .ok E2BIG ↔
        ∃ j o, Reaches s.user args (i, off) (j, o) ∧ j < argc ∧ StringBig s.user args j o) := by
      intro v hv hne
      refine iff_of_false (hno hv hne) ?_
      rintro ⟨j', o', ho', hj', hb⟩
      exact hno hv hne (hbig j' o' ho' hj' hb)
    rcases hstop with hf | rfl | hb
    · have hv := hfault.mpr ⟨j, o, ho, hj, hf⟩
      exact ⟨hother hv nofun, hnotbig hv nofun⟩
    · have hv := hfull.mpr ⟨j, ho, hj⟩
      exact ⟨hother hv nofun, hnotbig hv nofun⟩
    · have hv := hbig j o ho hj hb
      exact ⟨hother hv nofun, iff_of_true hv ⟨j, o, ho, hj, hb⟩⟩

/-! ## accepted vectors -/

/-- the strings that the loop has passed -/
theorem reaches_string (hr : Reaches user args (i, off) d) :
    ∀ k, i ≤ k → k < d.1 → ∃ p l, slot user args k = some p ∧ IsString user p l := by
  induction hr with
  | refl => exact fun k h1 h2 => absurd h2 (Nat.not_lt.mpr h1)
  | @tail c d hr hnext ih =>
    obtain ⟨p, l, hslot, hs, _, rfl⟩ := hnext
    intro k h1 h2
    have h2 : k < c.1 + 1 := h2
    by_cases hk : k = c.1
    · exact ⟨p, l, hk ▸ hslot, hs⟩
    · exact ih k h1 (by omega)

theorem reaches_off (hset : ∀ k < argc, slot user args k = some (ptr k)) (hstr : ∀ k < argc, IsString user (ptr k) (len k))
    (hr : Reaches user args (0, 8 * (argc + 1)) d) (hle : d.1 ≤ argc) : d.2 = copyOff len argc d.1 := by
  induction hr with
  | refl => rfl
  | @tail c d hr hnext ih =>
    obtain ⟨p, l, hslot, hs, _, rfl⟩ := hnext
    have hlt : c.1 + 1 ≤ argc := hle
    have hc := ih (by omega)
    rw [hset c.1 hlt] at hslot
    obtain rfl := Option.some.inj hslot
    show c.2 + (l + 1) = copyOff len argc (c.1 + 1)
    rw [hc, copyOff_succ, hs.unique (hstr c.1 hlt)]

/-- a vector whose strings are all copied -/
theorem reaches_args (hv : IsVector user args argc) (hr : Reaches user args (0, 8 * (argc + 1)) (argc, o)) :
    ∃ ptr len, IsArgs user args argc ptr len ∧ o = copyOff len argc argc := by
  have hstring := reaches_string hr
  have hall : ∀ k, ∃ p l, k < argc → (slot user args k = some p ∧ p ≠ 0) ∧ IsString user p l := by
    intro k
    by_cases hk : k < argc
    · obtain ⟨p, l, hp, hs⟩ := hstring k (Nat.zero_le k) hk
      obtain ⟨p', hp', h0⟩ := hv.1 k hk
      obtain rfl := Option.some.inj (hp.symm.trans hp')
      exact ⟨p, l, fun _ => ⟨⟨hp, h0⟩, hs⟩⟩
    · exact ⟨0, 0, fun h => absurd h hk⟩
  choose ptr len hargs using hall
  exact ⟨ptr, len, ⟨fun k hk => (hargs k hk).1, fun k hk => (hargs k hk).2, hv.2⟩,
    reaches_off (fun k hk => (hargs k hk).1.1) (fun k hk => (hargs k hk).2) hr (Nat.le_refl argc)⟩

/-- a string or the table is too long for the buffer, or the strings before one of them fill it -/
def ArgsTooBig (user : Nat → Option UInt8) (args : Nat) : Prop :=
  TableTooBig user args ∨ ∃ argc, IsVector user args argc ∧ 8 * (argc + 1) ≤ argMax ∧
    ∃ j o, Reaches user args (0, 8 * (argc + 1)) (j, o) ∧ j < argc ∧ (o = argMax ∨ StringBig user args j o)

/-- a string is too long for what the buffer still holds, and that is not nothing -/
def StringTooLong (user : Nat → Option UInt8) (args : Nat) : Prop :=
  ∃ argc, IsVector user args argc ∧ 8 * (argc + 1) ≤ argMax ∧
    ∃ j o, Reaches user args (0, 8 * (argc + 1)) (j, o) ∧ j < argc ∧ StringBig user args j o

/-- user_copy_args after the allocation of its buffer, if the scan ends: the buffer, an error and the buffer freed, the
error for a table that is too big, or an assertion -/
inductive ArgsCopied (args : Nat) (s : Uaccess) (buf : Nat) (mm : Mm) : Ran Nat → Prop
  | done {argc : Nat} {ptr len : Nat → Nat} {s' : Uaccess} (ha : IsArgs s.user args argc ptr len)
      (hfit : copyOff len argc argc ≤ argMax) (hc : CopiedArgs s s' buf argc ptr len) (hclear : s'.Clear) :
      ArgsCopied args s buf mm { result := .ok buf, state := s' }
  | cleanup {s' : Uaccess} {err : Int} (herr : (err = EFAULT ∧ ArgsFault s.user args) ∨ (err = E2BIG ∧ StringTooLong s.user args))
      (hok : s'.mm.Ok) (hout : s'.mm.out = s.mm.out) (hmem : ∀ x, s.mm.Kept x → s'.mm.mem x = s.mm.mem x) (hclear : s'.Clear) :
      ArgsCopied args s buf mm { result := .ok (ERR_PTR err), state := s' }
  | table {t : Uaccess} (hbig : TableTooBig s.user args) (hb : Buffered s t buf mm) :
      ArgsCopied args s buf mm { result := .ok (ERR_PTR E2BIG), state := t }
  | full {t : Uaccess} (hbig : ∃ argc j, IsVector s.user args argc ∧ Reaches s.user args (0, 8 * (argc + 1)) (j, argMax) ∧ j < argc) :
      ArgsCopied args s buf mm { result := panic "assertion failed: strlcpy: bad n", state := t }
  | endless {t : Uaccess} (hall : ∀ i < wordCount, SlotSet s.user args i) : ArgsCopied args s buf mm { result := .error .hang, state := t }

theorem userCopyArgs_copied (hok : s.mm.Ok) (hacc : accessOk args 8 = true) (halloc : s.mm.kmalloc argMax = .ok (buf, mm)) :
    ArgsCopied args s buf mm (userCopyArgs args s) := by
  obtain ⟨t, hb, ⟨hall, hrun⟩ | ⟨hfault, hrun⟩ | ⟨argc, hv, hrun⟩⟩ := userCopyArgs_cases hacc halloc
  · rw [hrun]
    exact .endless hall
  · obtain ⟨s', hclean, hclear, _, hok', hout, hmem⟩ := hb.cleanup 0 hok (show EFAULT ≠ 0 by decide)
    rw [hrun, hclean]
    exact .cleanup (.inl ⟨rfl, .inl hfault⟩) hok' hout hmem hclear
  rw [hrun]
  by_cases hbig : argMax < 8 * (argc + 1)
  · rw [if_pos hbig]
    exact .table ⟨argc, hv, hbig⟩ hb
  have hle := Nat.not_lt.mp hbig
  have huser := hb.sameUser
  obtain ⟨hdone, hlong⟩ := copyStrings_result (s := t) buf (huser ▸ hv.1) (Nat.zero_add argc) hle (by omega)
  obtain ⟨hvalues, hfault, hfull⟩ := copyStrings_end (s := t) args buf 0 argc (8 * (argc + 1)) (huser ▸ hv.1) (Nat.zero_add argc) hle (by omega)
  have hwrote := copyStrings_wrote args buf 0 argc (8 * (argc + 1)) t (by omega)
  rw [huser] at hdone hlong hfault hfull
  rw [if_neg hbig] at hrun ⊢
  obtain ⟨u, hu⟩ : ∃ u, u = copyStrings args buf argc 0 (8 * (argc + 1)) t := ⟨_, rfl⟩
  rw [← hu] at hdone hlong hfault hfull hvalues hwrote hrun ⊢
  obtain ⟨r, u⟩ := u
  have hb' := hb.next hwrote
  have hclean : ∀ err : Int, err ≠ 0 → r = .ok err →
      ((err = EFAULT ∧ ArgsFault s.user args) ∨ (err = E2BIG ∧ StringTooLong s.user args)) →
      ArgsCopied args s buf mm (finishArgs buf argc (r, u)) := by
    intro err hne hr herr
    obtain ⟨s', hrun', hclear, _, hok', hout, hmem⟩ := hb'.cleanup argc hok hne
    rw [hr, hrun']
    exact .cleanup herr hok' hout hmem hclear
  rcases hvalues with h0 | hf | h2 | hs
  · obtain ⟨o, ho⟩ := hdone.mp h0
    obtain ⟨ptr, len, ha, rfl⟩ := reaches_args hv ho
    have hfit : copyOff len argc argc ≤ argMax := reaches_le_argMax ho hle
    obtain ⟨s', hrun', hclear, _, hc⟩ := ha.copies hok hacc halloc hfit
    rw [← hrun, hrun']
    exact .done ha hfit hc hclear
  · exact hclean EFAULT (by decide) hf (.inl ⟨rfl, .inr ⟨argc, hv, hle, hfault.mp hf⟩⟩)
  · exact hclean E2BIG (by decide) h2 (.inr ⟨rfl, argc, hv, hle, hlong.mp h2⟩)
  · obtain ⟨j, hr, hj⟩ := hfull.mp hs
    have hs : r = badSize := hs
    rw [hs]
    exact .full ⟨argc, j, hv, hr, hj⟩

/-- what is behind a call that returns -/
theorem userCopyArgs_ok {p : Nat} (hok : s.mm.Ok) (hrun : (userCopyArgs args s).result = .ok p) :
    (accessOk args 8 = false ∧ userCopyArgs args s = { result := .ok (ERR_PTR EFAULT), state := s }) ∨
    (accessOk args 8 = true ∧ ∃ buf mm, s.mm.kmalloc argMax = .ok (buf, mm) ∧ ArgsCopied args s buf mm (userCopyArgs args s)) := by
  cases hacc : accessOk args 8 with
  | false =>
    refine .inl ⟨rfl, ?_⟩
    unfold userCopyArgs
    rw [hacc]
    rfl
  | true =>
    refine .inr ⟨rfl, ?_⟩
    cases halloc : s.mm.kmalloc argMax with
    | error e =>
      unfold userCopyArgs at hrun
      simp only [hacc, if_true, halloc] at hrun
      exact nomatch hrun
    | ok r => exact ⟨r.1, r.2, rfl, userCopyArgs_copied hok hacc halloc⟩

theorem isErr_copyError {err : Int} (herr : err = EFAULT ∨ err = E2BIG) : isErr (ERR_PTR err) = true := by
  rcases herr with rfl | rfl
  · decide
  · decide

/-- what is accepted is a vector that fits, and was copied -/
theorem userCopyArgs_accepted {p : Nat} (hok : s.mm.Ok) (hrun : (userCopyArgs args s).result = .ok p) (hgood : isErr p = false) :
    ∃ argc ptr len, IsArgs s.user args argc ptr len ∧ copyOff len argc argc ≤ argMax ∧ (userCopyArgs args s).state.Clear ∧
      CopiedArgs s (userCopyArgs args s).state p argc ptr len := by
  have hno : ∀ {err : Int}, err = EFAULT ∨ err = E2BIG → ERR_PTR err ≠ p := by
    intro err herr he
    rw [← he, isErr_copyError herr] at hgood
    exact nomatch hgood
  obtain ⟨ran, hran⟩ : ∃ ran, ran = userCopyArgs args s := ⟨_, rfl⟩
  have hcases := userCopyArgs_ok hok hrun
  rw [← hran] at hcases hrun ⊢
  rcases hcases with ⟨_, he⟩ | ⟨_, buf, mm, _, hcopied⟩
  · rw [he] at hrun
    exact absurd (Except.ok.inj hrun) (hno (.inl rfl))
  cases hcopied with
  | done ha hfit hc hclear =>
    obtain rfl := Except.ok.inj hrun
    exact ⟨_, _, _, ha, hfit, hclear, hc⟩
  | cleanup herr _ _ _ _ => exact absurd (Except.ok.inj hrun) (hno (herr.imp And.left And.left))
  | table _ _ => exact absurd (Except.ok.inj hrun) (hno (.inr rfl))
  | full _ => exact nomatch hrun
  | endless _ => exact nomatch hrun

/-! ## what a vector leads to -/

/-- the strings before one of them fill the buffer -/
def BufferFull (user : Nat → Option UInt8) (args : Nat) : Prop :=
  ∃ argc j, IsVector user args argc ∧ Reaches user args (0, 8 * (argc + 1)) (j, argMax) ∧ j < argc

theorem ArgsTooBig.cases (hb : ArgsTooBig user args) :
    TableTooBig user args ∨ StringTooLong user args ∨ BufferFull user args := by
  rcases hb with htable | ⟨argc, hv, hle, j, o, hr, hj, rfl | hlong⟩
  · exact .inl htable
  · exact .inr (.inr ⟨argc, j, hv, hr, hj⟩)
  · exact .inr (.inl ⟨argc, hv, hle, j, o, hr, hj, hlong⟩)

theorem spare_of_kmalloc (hok : s.mm.Ok) (halloc : s.mm.kmalloc argMax = .ok (buf, mm)) : s.mm.sparePages.Nonempty := by
  by_contra h0
  rw [hok.kmalloc_none (Finset.not_nonempty_iff_eq_empty.mp h0) (show argMax ≤ 4092 by decide)] at halloc
  exact nomatch halloc

/-- the cases in which no buffer is returned, each with its result -/
structure Verdict (args : Nat) (s : Uaccess) : Prop where
  fault : ArgsFault s.user args → (userCopyArgs args s).result = .ok (ERR_PTR EFAULT)
  long : StringTooLong s.user args → (userCopyArgs args s).result = .ok (ERR_PTR E2BIG)
  table : TableTooBig s.user args → (userCopyArgs args s).result = .ok (ERR_PTR E2BIG)
  full : BufferFull s.user args → (userCopyArgs args s).result = panic "assertion failed: strlcpy: bad n"

theorem userCopyArgs_verdict (hok : s.mm.Ok) (hacc : accessOk args 8 = true) (halloc : s.mm.kmalloc argMax = .ok (buf, mm)) :
    Verdict args s := by
  refine ⟨fun hf => ?_, ?_, ?_, fun hfull => (userCopyArgs_full hok hacc halloc).mpr hfull⟩
  · have hfree := spare_of_kmalloc hok halloc
    have hno : ¬ (accessOk args 8 = true ∧ s.mm.sparePages.Nonempty ∧ TableTooBig s.user args) := by
      rintro ⟨_, _, argc, hv, hbig⟩
      exact Nat.not_le.mpr hbig (hf.vector hv).1
    exact ((userCopyArgs_restores hok args).mpr ⟨.inl hacc, hno⟩).restores.fault ⟨hacc, hfree, hf⟩
  · rintro ⟨argc, hv, hle, hstop⟩
    obtain ⟨t, hb, hrun⟩ := userCopyArgs_vector hacc halloc hv
    rw [if_neg (Nat.not_lt.mpr hle)] at hrun
    have hset : ∀ j < argc, SlotSet t.user args j := hb.sameUser ▸ hv.1
    have hres := (copyStrings_result buf hset (Nat.zero_add argc) hle (by omega)).2.mpr (hb.sameUser ▸ hstop)
    have hwrote := copyStrings_wrote args buf 0 argc (8 * (argc + 1)) t (by omega)
    obtain ⟨u, hu⟩ : ∃ u, u = copyStrings args buf argc 0 (8 * (argc + 1)) t := ⟨_, rfl⟩
    rw [← hu] at hrun hres hwrote
    obtain ⟨r, u⟩ := u
    obtain ⟨s', hclean, _⟩ := (hb.next hwrote).cleanup argc hok (show E2BIG ≠ 0 by decide)
    have hres : r = .ok E2BIG := hres
    rw [hrun, hres, hclean]
  · rintro ⟨argc, hv, hbig⟩
    obtain ⟨t, _, hrun⟩ := userCopyArgs_vector hacc halloc hv
    rw [hrun, if_pos hbig]

theorem ArgsFault.not_table (hf : ArgsFault user args) : ¬ TableTooBig user args := by
  rintro ⟨argc, hv, hbig⟩
  exact Nat.not_le.mpr hbig (hf.vector hv).1

theorem StringTooLong.not_table (hl : StringTooLong user args) : ¬ TableTooBig user args := by
  rintro ⟨argc, hv, hbig⟩
  obtain ⟨argc', hv', hle, _⟩ := hl
  rw [hv.unique hv'] at hbig
  exact Nat.not_le.mpr hbig hle

/-- a table that is too big costs a page for good -/
theorem Buffered.leaks (hb : Buffered s t buf mm) (hok : s.mm.Ok) : t.mm.sparePages ≠ s.mm.sparePages := by
  intro he
  have hx : Extends s.mm t.mm ∅ [buf - 4] := (hb.allocated hok).extends rfl
  have hcard := hx.free
  rw [he, List.length_singleton] at hcard
  omega

end FakeKernel.Uaccess
