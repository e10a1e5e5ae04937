import FakeKernel.Mm.Accessors

/-!
# What the accessors leave behind (kernel/mm.c, kernel/irq.c)

* `Restores`            what is asked of a call: a page fault becomes the error, and the flags are clear when it returns;
* `copyLoop_done`       user_memcpy copies all bytes if none of them faults;
* `ArgsFault`           the page faults of user_copy_args;
* `user_access_restores`    the four accessors; user_copy_args keeps its flags and its buffer when the table alone is too big.
-/

namespace FakeKernel.Uaccess
open Bytes Mm

variable {s s' t : Uaccess} {user : Nat → Option UInt8} {args argc buf dest src i j k n x : Nat} {dir : Direction} {mm : Mm}

/-- a page fault makes the result `e`, and a call that returns leaves the flags clear -/
structure Restores {α : Type} (faults : Prop) (e : α) (ran : Ran α) : Prop where
  fault : faults → ran.result = .ok e
  clear : ∀ r, ran.result = .ok r → ran.state.Clear

/-- a call that returns with clear flags -/
theorem Restores.iff {α : Type} {faults P : Prop} {e r : α} {ran : Ran α} (hrun : ran.result = .ok r) (hfault : faults → r = e)
    (hclear : ran.state.Clear ↔ P) : Restores faults e ran ↔ P := by
  constructor
  · intro h
    exact hclear.mp (h.clear r hrun)
  · intro hP
    refine ⟨fun hf => ?_, fun _ _ => hclear.mpr hP⟩
    rw [hrun, hfault hf]

/-! ## user_memcpy -/

/-- whether the user's byte of a copy can be accessed -/
def Accessible : Direction → Uaccess → Nat → Prop
  | .fromUser, s, x => s.user (wrap x) ≠ none
  | .toUser, s, x => s.writable (wrap x) = true

theorem accessible_touch : Accessible dir (s.touch src) x ↔ Accessible dir s x := by
  cases dir with
  | fromUser => exact Iff.rfl
  | toUser => exact Iff.rfl

/-- one byte is copied if it can be accessed; what can be accessed stays the same -/
theorem copyByte_cases (dir : Direction) (dest src : Nat) (s : Uaccess) :
    (copyByte dir dest src s = none ∧ ¬ Accessible dir s (userSide dir dest src)) ∨
    ∃ t, copyByte dir dest src s = some t ∧ Accessible dir s (userSide dir dest src) ∧
      ∀ x, Accessible dir t x ↔ Accessible dir s x := by
  cases dir with
  | fromUser =>
    show (Option.map _ _ = none ∧ ¬ s.user (wrap src) ≠ none) ∨ ∃ t, Option.map _ _ = some t ∧ s.user (wrap src) ≠ none ∧ _
    cases hb : s.user (wrap src) with
    | none => exact .inl ⟨rfl, fun h => h rfl⟩
    | some b => exact .inr ⟨_, rfl, nofun, fun x => Iff.rfl⟩
  | toUser =>
    by_cases hw : s.writable (wrap dest) = true
    · exact .inr ⟨_, if_pos hw, hw, fun x => Iff.rfl⟩
    · exact .inl ⟨if_neg hw, hw⟩

/-- the loop of user_memcpy ends without a page fault if there is none in its range -/
theorem copyLoop_done : (copyLoop dir dest src n i s).1 = true ↔
    ∀ k < n, Accessible dir s (userSide dir (dest + (i + k)) (src + (i + k))) := by
  induction n generalizing i s with
  | zero => exact iff_of_true rfl fun k hk => absurd hk (Nat.not_lt_zero k)
  | succ n ih =>
    have hsplit : (∀ k < n + 1, Accessible dir s (userSide dir (dest + (i + k)) (src + (i + k)))) ↔
        Accessible dir s (userSide dir (dest + i) (src + i)) ∧
        ∀ k < n, Accessible dir s (userSide dir (dest + (i + 1 + k)) (src + (i + 1 + k))) := by
      constructor
      · intro h
        refine ⟨h 0 (Nat.succ_pos n), fun k hk => ?_⟩
        have hk' := h (k + 1) (by omega)
        rwa [show i + (k + 1) = i + 1 + k by omega] at hk'
      · intro ⟨h0, h⟩ k hk
        cases k with
        | zero => exact h0
        | succ k =>
          rw [show i + (k + 1) = i + 1 + k by omega]
          exact h k (by omega)
    have htouch : ∀ {x}, Accessible dir (s.touch (userSide dir (dest + i) (src + i))) x ↔ Accessible dir s x := accessible_touch
    rw [hsplit]
    unfold copyLoop
    rcases copyByte_cases dir (dest + i) (src + i) (s.touch (userSide dir (dest + i) (src + i))) with
      ⟨hc, hnot⟩ | ⟨t, hc, hyes, hsame⟩
    · simp only [hc]
      exact iff_of_false Bool.false_ne_true fun h => hnot (htouch.mpr h.1)
    · simp only [hc]
      rw [ih]
      simp only [hsame, htouch]
      exact ⟨fun h => ⟨htouch.mp hyes, h⟩, fun h => h.2⟩

theorem userMemcpy_result (dir : Direction) (dest src : Nat) (m : Int) (s : Uaccess) :
    ∃ r, (userMemcpy dir dest src m s).result = .ok r ∧
      ((∃ i < m.toNat, ¬ Accessible dir s (userSide dir (dest + i) (src + i))) → r = -EFAULT) := by
  refine ⟨_, rfl, fun ⟨i, hi, hnot⟩ => ?_⟩
  rw [if_neg]
  rw [copyLoop_done]
  intro hall
  have h := hall i hi
  rw [Nat.zero_add] at h
  cases dir with
  | fromUser => exact hnot h
  | toUser => exact hnot h

theorem copyFromUser_restores (dest src : Nat) (m : Int) (s : Uaccess) :
    Restores (accessOk src m = true ∧ ∃ i < m.toNat, s.user (wrap (src + i)) = none) (-EFAULT) (copyFromUser dest src m s) ↔
      accessOk src m = true ∨ s.Clear := by
  unfold copyFromUser
  by_cases hacc : accessOk src m = true
  · obtain ⟨r, hrun, hfault⟩ := userMemcpy_result .fromUser dest src m s
    rw [if_pos hacc]
    refine Restores.iff hrun (fun ⟨_, i, hi, hnone⟩ => hfault ⟨i, hi, fun h => h hnone⟩) ?_
    exact iff_of_true (exitSum_clear _) (.inl hacc)
  · rw [if_neg hacc]
    exact Restores.iff rfl (fun _ => rfl) ⟨.inr, fun h => h.resolve_left hacc⟩

theorem copyToUser_restores (dest src : Nat) (m : Int) (s : Uaccess) :
    Restores (accessOk dest m = true ∧ ∃ i < m.toNat, s.writable (wrap (dest + i)) = false) (-EFAULT) (copyToUser dest src m s) ↔
      accessOk dest m = true ∨ s.Clear := by
  unfold copyToUser
  by_cases hacc : accessOk dest m = true
  · obtain ⟨r, hrun, hfault⟩ := userMemcpy_result .toUser dest src m s
    rw [if_pos hacc]
    refine Restores.iff hrun (fun ⟨_, i, hi, hro⟩ => hfault ⟨i, hi, fun h => ?_⟩) ?_
    · exact Bool.false_ne_true (hro.symm.trans h)
    · exact iff_of_true (exitSum_clear _) (.inl hacc)
  · rw [if_neg hacc]
    exact Restores.iff rfl (fun _ => rfl) ⟨.inr, fun h => h.resolve_left hacc⟩

/-! ## user_strlcpy -/

theorem userStrlcpy_restores (dest src : Nat) (m : Int) (s : Uaccess) :
    Restores (0 < m ∧ accessOk src m = true ∧ ∃ k < m.toNat, (∀ j < k, NonNul s.user (src + j)) ∧ s.user (wrap (src + k)) = none)
      (-EFAULT) (userStrlcpy dest src m s) ↔ (0 < m → accessOk src m = true ∨ s.Clear) := by
  unfold userStrlcpy
  by_cases hm : m ≤ 0
  · rw [if_pos hm]
    exact iff_of_true ⟨fun h => absurd h.1 (by omega), nofun⟩ fun h => absurd h (by omega)
  rw [if_neg hm]
  have hpos : 0 < m := by omega
  rw [forall_prop_of_true hpos]
  by_cases hacc : accessOk src m = true
  · rw [if_pos hacc]
    have hloop : ∀ k < m.toNat, (∀ j < k, NonNul s.user (src + j)) → s.user (wrap (src + k)) = none →
        (strlcpyLoop dest src m.toNat m.toNat 0 s.enterSum).1 = none := fun k hk hs hnone =>
      strlcpyLoop_fault _ _ (fun j _ hj => hs j hj) hnone (Nat.zero_le k) (by omega)
    rcases hrun : strlcpyLoop dest src m.toNat m.toNat 0 s.enterSum with ⟨r, t⟩
    rw [hrun] at hloop
    cases r with
    | none => exact Restores.iff rfl (fun _ => rfl) (iff_of_true (exitSum_clear t) (.inl hacc))
    | some l =>
      refine Restores.iff rfl (fun ⟨_, _, k, hk, hs, hnone⟩ => ?_) (iff_of_true (exitSum_clear t) (.inl hacc))
      exact nomatch hloop k hk hs hnone
  · rw [if_neg hacc]
    exact Restores.iff rfl (fun _ => rfl) ⟨.inr, fun h => h.resolve_left hacc⟩

/-! ## user_copy_args -/

/-- a page fault in the array, or in a string before the buffer is full -/
def ArgsFault (user : Nat → Option UInt8) (args : Nat) : Prop :=
  (∃ i, (∀ j < i, SlotSet user args j) ∧ slot user args i = none) ∨
  ∃ argc, IsVector user args argc ∧ 8 * (argc + 1) ≤ argMax ∧
    ∃ j off, Reaches user args (0, 8 * (argc + 1)) (j, off) ∧ j < argc ∧ StringFaults user args j off

/-- the array of pointers is bigger than the buffer -/
def TableTooBig (user : Nat → Option UInt8) (args : Nat) : Prop :=
  ∃ argc, IsVector user args argc ∧ argMax < 8 * (argc + 1)

/-- what is asked of user_copy_args: moreover an error leaves its buffer freed -/
structure ArgsRestored (args : Nat) (s : Uaccess) : Prop where
  restores : Restores (accessOk args 8 = true ∧ s.mm.sparePages.Nonempty ∧ ArgsFault s.user args) (ERR_PTR EFAULT) (userCopyArgs args s)
  freed : accessOk args 8 = true → ∀ p, (userCopyArgs args s).result = .ok p → isErr p = true →
    FreedOnce s (userCopyArgs args s).state

/-- a scan that ends with a NULL or not at all has no page fault -/
theorem ArgsFault.vector (hf : ArgsFault user args) (hv : IsVector user args argc) :
    8 * (argc + 1) ≤ argMax ∧ ∃ j off, Reaches user args (0, 8 * (argc + 1)) (j, off) ∧ j < argc ∧ StringFaults user args j off := by
  rcases hf with ⟨i, hall, hnone⟩ | ⟨c, hc, hle, hfault⟩
  · exact absurd hnone (vector_no_fault hv hall)
  · obtain rfl := hc.unique hv
    exact ⟨hle, hfault⟩

theorem argsFault_ends (hall : ∀ i < wordCount, SlotSet user args i) : ¬ ArgsFault user args := by
  rintro (⟨i, hi, hnone⟩ | ⟨c, hc, _⟩)
  · obtain ⟨p, hp, _⟩ := hall i (first_lt (P := fun o => o = none) (fun _ _ he => nomatch he) hi hnone)
    exact nomatch hnone.symm.trans hp
  · obtain ⟨p, hp, h0⟩ := hall c hc.lt
    exact h0 (Option.some.inj (hp.symm.trans hc.2))

/-- what the labels do restores the flags and the buffer -/
theorem Finished.restored {r : Res Int} {ran : Ran Nat} (h : Finished s buf r ran) (hbuf : isErr buf = false) {faults : Prop}
    (hfault : faults → r = .ok EFAULT) : Restores faults (ERR_PTR EFAULT) ran ∧
      ∀ p, ran.result = .ok p → isErr p = true → FreedOnce s ran.state :=
  ⟨⟨fun hf => (h.value hbuf (.inl rfl)).mpr (hfault hf), fun _ hp => (h.restores hbuf hp).1⟩,
    fun _ hp => (h.restores hbuf hp).2⟩

theorem userCopyArgs_restores (hok : s.mm.Ok) (args : Nat) : ArgsRestored args s ↔
    (accessOk args 8 = true ∨ s.Clear) ∧ ¬ (accessOk args 8 = true ∧ s.mm.sparePages.Nonempty ∧ TableTooBig s.user args) := by
  by_cases hacc : accessOk args 8 = true
  swap
  · have hrun : userCopyArgs args s = { result := .ok (ERR_PTR EFAULT), state := s } := if_neg hacc
    constructor
    · intro ⟨hr, _⟩
      rw [hrun] at hr
      exact ⟨.inr (hr.clear _ rfl), fun h => hacc h.1⟩
    · intro ⟨hclear, _⟩
      refine ⟨?_, fun h => absurd h hacc⟩
      rw [hrun]
      exact ⟨fun _ => rfl, fun _ _ => hclear.resolve_left hacc⟩
  have hgood : Restores (accessOk args 8 = true ∧ s.mm.sparePages.Nonempty ∧ ArgsFault s.user args) (ERR_PTR EFAULT) (userCopyArgs args s) ∧
      (∀ p, (userCopyArgs args s).result = .ok p → isErr p = true → FreedOnce s (userCopyArgs args s).state) →
      ArgsRestored args s := fun ⟨hr, hf⟩ => ⟨hr, fun _ => hf⟩
  by_cases hfree : s.mm.sparePages.Nonempty
  swap
  · have hrun : (userCopyArgs args s).result = .error (.panic "out of memory") := by
      unfold userCopyArgs
      simp only [hacc, if_true, hok.kmalloc_none (Finset.not_nonempty_iff_eq_empty.mp hfree) (show argMax ≤ 4092 by decide)]
    refine iff_of_true (hgood ⟨⟨fun h => absurd h.2.1 hfree, fun r hr => ?_⟩, fun r hr => ?_⟩) ⟨.inl hacc, fun h => hfree h.2.1⟩
    · exact nomatch hrun.symm.trans hr
    · exact nomatch hrun.symm.trans hr
  obtain ⟨buf, mm, halloc⟩ := Mm.Free.kmalloc (n := 0) ⟨hok, Finset.card_pos.mpr hfree⟩ (show argMax ≤ 4092 by decide)
  obtain ⟨t, hb, ⟨hall, hrun⟩ | ⟨⟨i, hall, hnone⟩, hrun⟩ | ⟨argc, hv, hrun⟩⟩ := userCopyArgs_cases hacc halloc
  · refine iff_of_true (hgood ?_) ⟨.inl hacc, ?_⟩
    · rw [hrun]
      exact ⟨⟨fun h => absurd h.2.2 (argsFault_ends hall), nofun⟩, nofun⟩
    · rintro ⟨_, _, c, hc, _⟩
      obtain ⟨p, hp, h0⟩ := hall c hc.lt
      exact h0 (Option.some.inj (hp.symm.trans hc.2))
  · refine iff_of_true (hgood ?_) ⟨.inl hacc, ?_⟩
    · rw [hrun]
      exact (hb.finished hok (.inr (.inl rfl))).restored (hb.not_err hok) fun _ => rfl
    · rintro ⟨_, _, c, hc, _⟩
      exact vector_no_fault hc hall hnone
  · by_cases hbig : argMax < 8 * (argc + 1)
    · rw [if_pos hbig] at hrun
      refine iff_of_false (fun ⟨hr, _⟩ => ?_) fun h => h.2 ⟨hacc, hfree, argc, hv, hbig⟩
      rw [hrun] at hr
      -- enter_sum is not undone
      have hset : t.mayPageFault = true := hb.wrote.mayPageFault
      have hclear : t.mayPageFault = false := (hr.clear _ rfl).1
      exact Bool.false_ne_true (hclear.symm.trans hset)
    · obtain ⟨r, hend, _, hfin⟩ := hb.strings hok hv (Nat.not_lt.mp hbig)
      rw [if_neg hbig] at hrun
      refine iff_of_true (hgood ?_) ⟨.inl hacc, ?_⟩
      · rw [hrun]
        exact hfin.restored (hb.not_err hok) fun h => hend.fault.mpr (h.2.2.vector hv).2
      · rintro ⟨_, _, c, hc, hlt⟩
        obtain rfl := hc.unique hv
        exact hbig hlt

/-- **The accessors restore the fault state.**  If the flags are clear before a call, or access_ok accepts the address, they
are clear when it returns, and every page fault has become -EFAULT; user_copy_args has freed its buffer when it returns an
error.  It returns with the flags set exactly if the array of pointers alone is bigger than the buffer. -/
theorem user_access_restores (hok : s.mm.Ok) :
    (∀ dest src n, Restores (accessOk src n = true ∧ ∃ i < n.toNat, s.user (wrap (src + i)) = none) (-EFAULT)
      (copyFromUser dest src n s) ↔ accessOk src n = true ∨ s.Clear) ∧
    (∀ dest src n, Restores (accessOk dest n = true ∧ ∃ i < n.toNat, s.writable (wrap (dest + i)) = false) (-EFAULT)
      (copyToUser dest src n s) ↔ accessOk dest n = true ∨ s.Clear) ∧
    (∀ dest src n, Restores (0 < n ∧ accessOk src n = true ∧
        ∃ k < n.toNat, (∀ j < k, NonNul s.user (src + j)) ∧ s.user (wrap (src + k)) = none) (-EFAULT)
      (userStrlcpy dest src n s) ↔ (0 < n → accessOk src n = true ∨ s.Clear)) ∧
    ∀ args, ArgsRestored args s ↔ (accessOk args 8 = true ∨ s.Clear) ∧
      ¬ (accessOk args 8 = true ∧ s.mm.sparePages.Nonempty ∧ TableTooBig s.user args) :=
  ⟨fun dest src n => copyFromUser_restores dest src n s, fun dest src n => copyToUser_restores dest src n s,
    fun dest src n => userStrlcpy_restores dest src n s, fun args => userCopyArgs_restores hok args⟩

/-- one string is copied, or its buffer is freed -/
theorem user_access_restores_one : ArgsRestored 0 (emptyArgs 1) := by
  refine ((user_access_restores (Mm.init_ok _)).2.2.2 0).mpr ⟨.inl (by decide), ?_⟩
  rintro ⟨_, _, argc, hv, hbig⟩
  obtain rfl : argc = 1 := hv.unique (emptyArgs_args (by decide)).isVector
  exact absurd hbig (by decide)

/-- 510 strings are refused before the flags are cleared -/
theorem user_copy_args_keeps_flags : (emptyArgs 510).Clear ∧ ∃ p, (userCopyArgs 0 (emptyArgs 510)).result = .ok p ∧
    ¬ (userCopyArgs 0 (emptyArgs 510)).state.Clear := by
  have hargs := emptyArgs_args (n := 510) (by decide)
  have hroom : (Mm.init fun _ => 0).Room 1 := ⟨Mm.init_ok _, nofun, by decide⟩
  obtain ⟨buf, mm, halloc⟩ := hroom.free.kmalloc (n := 0) (show argMax ≤ 4092 by decide)
  obtain ⟨t, hb, hrun⟩ := userCopyArgs_vector (s := emptyArgs 510) hargs.access_ok halloc hargs.isVector
  rw [if_pos (by decide)] at hrun
  rw [hrun]
  refine ⟨⟨rfl, rfl⟩, _, rfl, fun hclear => ?_⟩
  have hset : t.mayPageFault = true := hb.wrote.mayPageFault
  exact Bool.false_ne_true (hclear.1.symm.trans hset)

end FakeKernel.Uaccess
