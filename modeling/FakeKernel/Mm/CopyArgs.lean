import FakeKernel.Mm.Complete
import FakeKernel.Mm.Confined
import Mathlib.Algebra.BigOperators.Intervals

/-!
# What user_copy_args copies (kernel/mm.c, kernel/string.c)

* `Wrote`               an access that writes to one range of the kernel's memory;
* `UserArgs`            a vector of strings in user space, and `copyOff`, where its strings go;
* `strlcpyLoop_copies`  one string is copied;
* `copyStrings_fits`    the strings of a vector that fits are copied;
* `copyStrings_big`     a vector that does not fit is refused, if the strings do not fill the buffer exactly.
-/

namespace FakeKernel.Uaccess
open Bytes Mm

variable {s s' s'' : Uaccess} {user : Nat → Option UInt8} {args argc buf dest src lo hi i j k n off r l x : Nat}
  {ptr len : Nat → Nat}

/-! ## writes to the kernel's memory -/

/-- `s'` is `s` after an access that read user memory and wrote to `[lo, hi)` -/
structure Wrote (s s' : Uaccess) (lo hi : Nat) : Prop where
  user : s'.user = s.user
  mayPageFault : s'.mayPageFault = s.mayPageFault
  sum : s'.sum = s.sum
  mm : s'.mm = s.mm.setMem s'.mm.mem
  frame : ∀ x, ¬ (lo ≤ x ∧ x < hi) → s'.mm.mem x = s.mm.mem x

namespace Wrote

theorem refl (s : Uaccess) (lo hi : Nat) : Wrote s s lo hi := ⟨rfl, rfl, rfl, rfl, fun _ _ => rfl⟩

theorem trans (h : Wrote s s' lo hi) (h' : Wrote s' s'' lo hi) : Wrote s s'' lo hi where
  user := h'.user.trans h.user
  mayPageFault := h'.mayPageFault.trans h.mayPageFault
  sum := h'.sum.trans h.sum
  mm := by
    rw [h'.mm, h.mm]
    rfl
  frame := fun x hx => (h'.frame x hx).trans (h.frame x hx)

theorem mono (h : Wrote s s' lo hi) {lo' hi' : Nat} (hlo : lo' ≤ lo) (hhi : hi ≤ hi') : Wrote s s' lo' hi' :=
  { h with frame := fun x hx => h.frame x fun hin => hx (by omega) }

theorem touch (s : Uaccess) (x lo hi : Nat) : Wrote s (s.touch x) lo hi := ⟨rfl, rfl, rfl, rfl, fun _ _ => rfl⟩

theorem touchWord (s : Uaccess) (x lo hi : Nat) : Wrote s (s.touchWord x) lo hi := by
  unfold Uaccess.touchWord
  induction List.range 8 with
  | nil => exact refl s lo hi
  | cons k l ih => exact ih.trans (touch _ (x + k) lo hi)

theorem store {v : Nat} (hlo : lo ≤ x) (hhi : x + n ≤ hi) : Wrote s (s.storeKernel n x v) lo hi := by
  refine ⟨rfl, rfl, rfl, rfl, fun y hy => ?_⟩
  show Bytes.store n s.mm.mem x v y = s.mm.mem y
  exact store_apply_out (by omega)

end Wrote

theorem storeKernel_self {b : UInt8} : (s.storeKernel 1 x b.toNat).mm.mem x = b := by
  show Function.update s.mm.mem x (UInt8.ofNat b.toNat) x = b
  rw [Function.update_self, UInt8.ofNat_toNat]

/-! ## one string -/

/-- strlcpy writes to its buffer only -/
theorem strlcpyLoop_wrote (hn : 0 < n) (hr : i + r ≤ n) : Wrote s (strlcpyLoop dest src n r i s).2 dest (dest + n) := by
  induction r generalizing i s with
  | zero => exact .store (by omega) (by omega)
  | succ r ih =>
    have ht := Wrote.touch s (src + i) dest (dest + n)
    unfold strlcpyLoop
    cases hb : (s.touch (src + i)).user (wrap (src + i)) with
    | none =>
      simp only [hb]
      exact ht
    | some b =>
      have hw := ht.trans (.store (v := b.toNat) (show dest ≤ dest + i by omega) (by omega : dest + i + 1 ≤ dest + n))
      simp only [hb]
      by_cases h0 : b = 0
      · rw [if_pos h0]
        exact hw
      · rw [if_neg h0]
        exact hw.trans (ih (by omega))

/-- a string that fits is copied, and nothing behind its NUL is written -/
theorem strlcpyLoop_copies (dest n : Nat) (hs : IsString s.user src l) (hi : i ≤ l) (hr : l < i + r) :
    (strlcpyLoop dest src n r i s).1 = some l ∧
    Wrote s (strlcpyLoop dest src n r i s).2 (dest + i) (dest + (l + 1)) ∧
    ∀ k, i ≤ k → k ≤ l → some ((strlcpyLoop dest src n r i s).2.mm.mem (dest + k)) = s.user (wrap (src + k)) := by
  induction r generalizing i s with
  | zero => omega
  | succ r ih =>
    obtain ⟨b, hb, hstop⟩ : ∃ b, s.user (wrap (src + i)) = some b ∧ (b = 0 ↔ i = l) := by
      by_cases he : i = l
      · exact ⟨0, he ▸ hs.2, iff_of_true rfl he⟩
      · obtain ⟨b, hb, hne⟩ := hs.1 i (by omega)
        exact ⟨b, hb, iff_of_false hne he⟩
    obtain ⟨t, ht⟩ : ∃ t, t = (s.touch (src + i)).storeKernel 1 (dest + i) b.toNat := ⟨_, rfl⟩
    have hw : Wrote s t (dest + i) (dest + (i + 1)) :=
      ht ▸ (Wrote.touch s (src + i) _ _).trans (.store (Nat.le_refl _) (Nat.le_refl _))
    have hself : t.mm.mem (dest + i) = b := ht ▸ storeKernel_self
    unfold strlcpyLoop
    simp only [touch_user, hb, ← ht]
    by_cases he : i = l
    · subst he
      rw [if_pos (hstop.mpr rfl)]
      refine ⟨rfl, hw, fun k h1 h2 => ?_⟩
      obtain rfl : k = i := Nat.le_antisymm h2 h1
      rw [hself, hb]
    · have hs' : IsString t.user src l := hw.user ▸ hs
      obtain ⟨hres, hwrote, hcopy⟩ := ih hs' (by omega) (by omega : l < i + 1 + r)
      rw [if_neg fun h0 => he (hstop.mp h0)]
      refine ⟨hres, ?_, fun k h1 h2 => ?_⟩
      · exact (hw.mono (Nat.le_refl _) (by omega)).trans (hwrote.mono (by omega) (Nat.le_refl _))
      · by_cases hk : k = i
        · rw [hk, hwrote.frame _ (by omega), hself, hb]
        · rw [hcopy k (by omega) h2, hw.user]

/-- a page fault in front of the NUL -/
theorem strlcpyLoop_fault (dest n : Nat) (hs : ∀ j, i ≤ j → j < k → NonNul s.user (src + j)) (hk : s.user (wrap (src + k)) = none)
    (hi : i ≤ k) (hr : k < i + r) : (strlcpyLoop dest src n r i s).1 = none := by
  induction r generalizing i s with
  | zero => omega
  | succ r ih =>
    unfold strlcpyLoop
    by_cases he : i = k
    · subst he
      simp only [touch_user, hk]
    · obtain ⟨b, hb, h0⟩ := hs i (Nat.le_refl i) (by omega)
      simp only [touch_user, hb, h0, if_false]
      exact ih (fun j h1 h2 => hs j (by omega) h2) hk (by omega) (by omega)

/-- a string that does not fit fills the buffer -/
theorem strlcpyLoop_fills (dest n : Nat) (hs : ∀ k, i ≤ k → k < i + r → NonNul s.user (src + k)) :
    (strlcpyLoop dest src n r i s).1 = some n := by
  induction r generalizing i s with
  | zero => rfl
  | succ r ih =>
    obtain ⟨b, hb, h0⟩ := hs i (Nat.le_refl i) (by omega)
    unfold strlcpyLoop
    simp only [touch_user, hb, h0, if_false]
    exact ih fun k h1 h2 => hs k (by omega) (by omega)

/-! ## vectors -/

/-- a vector of `argc` strings of these lengths, at `args` -/
structure IsArgs (user : Nat → Option UInt8) (args argc : Nat) (ptr len : Nat → Nat) : Prop where
  set : ∀ i < argc, slot user args i = some (ptr i) ∧ ptr i ≠ 0
  string : ∀ i < argc, IsString user (ptr i) (len i)
  stop : slot user args argc = some 0

/-- such a vector whose table is in user space -/
structure UserArgs (user : Nat → Option UInt8) (args argc : Nat) (ptr len : Nat → Nat) : Prop where
  set : ∀ i < argc, slot user args i = some (ptr i) ∧ ptr i ≠ 0
  string : ∀ i < argc, IsString user (ptr i) (len i)
  stop : slot user args argc = some 0
  below : args + 8 * (argc + 1) ≤ splitAddr

/-- the offset of the copy of string `i`; for `argc` the size of the table and all strings -/
def copyOff (len : Nat → Nat) (argc i : Nat) : Nat := 8 * (argc + 1) + ∑ k ∈ Finset.range i, (len k + 1)

theorem copyOff_zero : copyOff len argc 0 = 8 * (argc + 1) := rfl

theorem copyOff_succ (len : Nat → Nat) (argc i : Nat) : copyOff len argc (i + 1) = copyOff len argc i + (len i + 1) := by
  unfold copyOff
  rw [Finset.sum_range_succ, Nat.add_assoc]

theorem copyOff_mono (hij : i ≤ j) : copyOff len argc i ≤ copyOff len argc j := by
  induction j, hij using Nat.le_induction with
  | base => exact Nat.le_refl _
  | succ j _ ih => exact Nat.le_trans ih (copyOff_succ len argc j ▸ Nat.le_add_right _ _)

theorem IsArgs.isVector (ha : IsArgs user args argc ptr len) : IsVector user args argc :=
  ⟨fun i hi => ⟨ptr i, ha.set i hi⟩, ha.stop⟩

theorem UserArgs.isArgs (ha : UserArgs user args argc ptr len) : IsArgs user args argc ptr len :=
  ⟨ha.set, ha.string, ha.stop⟩

theorem UserArgs.isVector (ha : UserArgs user args argc ptr len) : IsVector user args argc := ha.isArgs.isVector

/-- the state in which strlcpy is called for string `i` -/
def atString (args buf i off : Nat) (s : Uaccess) : Uaccess :=
  (s.storeKernel 8 (buf + 8 * i) (buf + off)).touchWord (args + 8 * i)

theorem atString_wrote (args buf i off : Nat) (s : Uaccess) : Wrote s (atString args buf i off s) (buf + 8 * i) (buf + 8 * (i + 1)) :=
  (Wrote.store (Nat.le_refl _) (by omega)).trans (.touchWord _ _ _ _)

theorem atString_load : load 8 (atString args buf i off s).mm.mem (buf + 8 * i) = (buf + off) % 256 ^ 8 := by
  have hw := Wrote.touchWord (s.storeKernel 8 (buf + 8 * i) (buf + off)) (args + 8 * i) 0 0
  unfold atString
  rw [load_congr fun x _ _ => hw.frame x (by omega)]
  exact load_store 8 s.mm.mem _ _

theorem copyStrings_succ {p : Nat} (hslot : slot s.user args i = some p) (hoff : off < argMax) :
    copyStrings args buf (n + 1) i off s =
      match strlcpyLoop (buf + off) p (argMax - off) (argMax - off) 0 (atString args buf i off s) with
      | (none, s) => (.ok EFAULT, s)
      | (some length, s) =>
        if argMax - off ≤ length then (.ok E2BIG, s) else copyStrings args buf n (i + 1) (off + (length + 1)) s := by
  have huser : (atString args buf i off s).user = s.user := (atString_wrote args buf i off s).user
  have hslot' : slot (atString args buf i off s).user args i = some p := by
    rw [huser]
    exact hslot
  rw [copyStrings]
  rw [show slot ((s.storeKernel 8 (buf + 8 * i) (buf + off)).touchWord (args + 8 * i)).user args i = some p from hslot']
  exact if_neg (Nat.not_le.mpr hoff)

/-- a string that fits is copied, and the loop goes on behind it -/
theorem copyStrings_next {p : Nat} (buf n off : Nat) (hslot : slot s.user args i = some p) (hs : IsString s.user p l) (hfit : off + l < argMax)
    (htable : 8 * (i + 1) ≤ off) : ∃ s', copyStrings args buf (n + 1) i off s = copyStrings args buf n (i + 1) (off + (l + 1)) s' ∧
    s'.user = s.user ∧ load 8 s'.mm.mem (buf + 8 * i) = (buf + off) % 256 ^ 8 ∧
    (∀ k ≤ l, some (s'.mm.mem (buf + off + k)) = s.user (wrap (p + k))) ∧
    ∀ x, ¬ (buf + 8 * i ≤ x ∧ x < buf + 8 * (i + 1)) → ¬ (buf + off ≤ x ∧ x < buf + off + (l + 1)) →
      s'.mm.mem x = s.mm.mem x := by
  have hw := atString_wrote args buf i off s
  have hs' : IsString (atString args buf i off s).user p l := hw.user ▸ hs
  obtain ⟨hres, hwrote, hcopy⟩ := strlcpyLoop_copies (buf + off) (argMax - off) hs' (Nat.zero_le l)
    (by omega : l < 0 + (argMax - off))
  refine ⟨(strlcpyLoop (buf + off) p (argMax - off) (argMax - off) 0 (atString args buf i off s)).2, ?_, ?_, ?_, ?_, ?_⟩
  · rw [copyStrings_succ hslot (by omega)]
    obtain ⟨t, ht⟩ : ∃ t, t = strlcpyLoop (buf + off) p (argMax - off) (argMax - off) 0 (atString args buf i off s) := ⟨_, rfl⟩
    rw [← ht] at hres ⊢
    obtain ⟨r, t⟩ := t
    obtain rfl : r = some l := hres
    exact if_neg (by omega)
  · exact hwrote.user.trans hw.user
  · rw [load_congr fun x h1 h2 => hwrote.frame x (by omega), atString_load]
  · intro k hk
    rw [hcopy k (Nat.zero_le k) hk, hw.user]
  · intro x h1 h2
    rw [hwrote.frame x (by omega), hw.frame x h1]

/-- a string that does not fit ends the loop -/
theorem copyStrings_stop {p : Nat} (hslot : slot s.user args i = some p) (hoff : off < argMax)
    (hs : ∀ k, off + k < argMax → NonNul s.user (p + k)) : (copyStrings args buf (n + 1) i off s).1 = .ok E2BIG := by
  have hw := atString_wrote args buf i off s
  have hfill := strlcpyLoop_fills (s := atString args buf i off s) (buf + off) (argMax - off) (i := 0) (r := argMax - off) fun k _ hk => hw.user ▸ hs k (by omega)
  rw [copyStrings_succ hslot hoff]
  obtain ⟨t, ht⟩ : ∃ t, t = strlcpyLoop (buf + off) p (argMax - off) (argMax - off) 0 (atString args buf i off s) := ⟨_, rfl⟩
  rw [← ht] at hfill ⊢
  obtain ⟨r, t⟩ := t
  obtain rfl : r = some (argMax - off) := hfill
  show (if argMax - off ≤ argMax - off then ((.ok E2BIG, t) : Res Int × Uaccess) else _).1 = .ok E2BIG
  rw [if_pos (Nat.le_refl _)]

/-- the vector behind the copies that user_copy_args made of the strings from `i` on -/
structure CopiedFrom (s s' : Uaccess) (buf argc : Nat) (ptr len : Nat → Nat) (i : Nat) : Prop where
  table : ∀ j, i ≤ j → j < argc → load 8 s'.mm.mem (buf + 8 * j) = (buf + copyOff len argc j) % 256 ^ 8
  copy : ∀ j, i ≤ j → j < argc → ∀ k ≤ len j, some (s'.mm.mem (buf + copyOff len argc j + k)) = s.user (wrap (ptr j + k))
  frame : ∀ x, ¬ (buf + 8 * i ≤ x ∧ x < buf + 8 * argc) →
    ¬ (buf + copyOff len argc i ≤ x ∧ x < buf + copyOff len argc argc) → s'.mm.mem x = s.mm.mem x

theorem copyStrings_fits (buf : Nat) (hset : ∀ j < argc, slot s.user args j = some (ptr j)) (hstr : ∀ j < argc, IsString s.user (ptr j) (len j))
    (hin : i + n = argc) (hfit : copyOff len argc argc ≤ argMax) :
    (copyStrings args buf n i (copyOff len argc i) s).1 = .ok 0 ∧
      CopiedFrom s (copyStrings args buf n i (copyOff len argc i) s).2 buf argc ptr len i := by
  induction n generalizing i s with
  | zero => exact ⟨rfl, fun j h1 h2 => by omega, fun j h1 h2 => by omega, fun _ _ _ => rfl⟩
  | succ n ih =>
    have hi : i < argc := by omega
    have hnext : copyOff len argc (i + 1) = copyOff len argc i + (len i + 1) := copyOff_succ len argc i
    have hle : copyOff len argc (i + 1) ≤ copyOff len argc argc := copyOff_mono hi
    have hlow : 8 * (argc + 1) ≤ copyOff len argc i := Nat.le_add_right _ _
    obtain ⟨t, hrun, huser, hload, hcopy, hframe⟩ := copyStrings_next buf n (copyOff len argc i)
      (hset i hi) (hstr i hi) (by omega) (by omega)
    obtain ⟨hres, hdone⟩ := ih (i := i + 1) (s := t) (huser ▸ hset) (huser ▸ hstr) (by omega)
    rw [hrun, ← hnext]
    refine ⟨hres, fun j h1 h2 => ?_, fun j h1 h2 k hk => ?_, fun x h1 h2 => ?_⟩
    · by_cases hj : j = i
      · subst hj
        rw [load_congr fun x h3 h4 => hdone.frame x (by omega) (by omega), hload]
      · exact hdone.table j (by omega) h2
    · by_cases hj : j = i
      · subst hj
        rw [hdone.frame _ (by omega) (by omega), hcopy k hk]
      · rw [hdone.copy j (by omega) h2 k hk, huser]
    · rw [hdone.frame x (by omega) (by omega), hframe x (by omega) (by omega)]

/-- what strlcpy finds in `n` bytes: a string, a page fault, or no NUL -/
theorem string_cases (user : Nat → Option UInt8) (p n : Nat) : (∃ l < n, IsString user p l) ∨
    (∃ k < n, (∀ j < k, NonNul user (p + j)) ∧ user (wrap (p + k)) = none) ∨ ∀ k < n, NonNul user (p + k) := by
  induction n with
  | zero => exact .inr (.inr fun k hk => absurd hk (Nat.not_lt_zero k))
  | succ n ih =>
    rcases ih with ⟨l, hl, hs⟩ | ⟨k, hk, hs⟩ | hall
    · exact .inl ⟨l, by omega, hs⟩
    · exact .inr (.inl ⟨k, by omega, hs⟩)
    · cases hb : user (wrap (p + n)) with
      | none => exact .inr (.inl ⟨n, by omega, hall, hb⟩)
      | some b =>
        by_cases h0 : b = 0
        · exact .inl ⟨n, by omega, hall, h0 ▸ hb⟩
        · refine .inr (.inr fun k hk => ?_)
          by_cases he : k = n
          · exact he ▸ ⟨b, hb, h0⟩
          · exact hall k (by omega)

/-- bytes in front of the NUL -/
theorem IsString.le {p m : Nat} (hs : IsString user p l) (hm : ∀ k < m, NonNul user (p + k)) : m ≤ l := by
  by_contra hlt
  obtain ⟨b, hb, h0⟩ := hm l (by omega)
  exact h0 (Option.some.inj (hb.symm.trans hs.2))

theorem IsString.no_fault {p : Nat} (hs : IsString user p l) (hk : ∀ j < k, NonNul user (p + j)) : user (wrap (p + k)) ≠ none := by
  rcases Nat.lt_or_eq_of_le (hs.le hk) with hlt | rfl
  · obtain ⟨b, hb, _⟩ := hs.1 k hlt
    rw [hb]
    exact nofun
  · rw [hs.2]
    exact nofun

/-- the loop gets from string `c.1` at offset `c.2` to `d` -/
abbrev Reaches (user : Nat → Option UInt8) (args : Nat) := Relation.ReflTransGen (Next user args)

/-- a page fault in the string `i`, before the buffer is full -/
def StringFaults (user : Nat → Option UInt8) (args i off : Nat) : Prop :=
  ∃ p k, slot user args i = some p ∧ off + k < argMax ∧ (∀ j < k, NonNul user (p + j)) ∧ user (wrap (p + k)) = none

/-- a string that is copied decides where the loop goes on -/
theorem reaches_next {p : Nat} {d : Nat × Nat} (hslot : slot user args i = some p) (hs : IsString user p l) (hfit : off + l < argMax) :
    Reaches user args (i, off) d ↔ d = (i, off) ∨ Reaches user args (i + 1, off + (l + 1)) d := by
  constructor
  · intro hr
    rcases Relation.ReflTransGen.cases_head hr with he | ⟨c, ⟨q, l', hq, hl', _, rfl⟩, hr'⟩
    · exact .inl he.symm
    · rw [hslot] at hq
      obtain rfl := Option.some.inj hq
      rw [hs.unique hl']
      exact .inr hr'
  · rintro (rfl | hr)
    · exact .refl
    · exact .head ⟨p, l, hslot, hs, hfit, rfl⟩ hr

/-- where no string is copied the loop stays -/
theorem reaches_stuck {p : Nat} {d : Nat × Nat} (hslot : slot user args i = some p)
    (hs : ∀ l, IsString user p l → argMax ≤ off + l) (hr : Reaches user args (i, off) d) : d = (i, off) := by
  rcases Relation.ReflTransGen.cases_head hr with he | ⟨c, ⟨q, l, hq, hl, hfit, _⟩, _⟩
  · exact he.symm
  · rw [hslot] at hq
    obtain rfl := Option.some.inj hq
    exact absurd (hs l hl) (Nat.not_le.mpr hfit)

/-- the loop writes to the buffer only -/
theorem copyStrings_wrote (args buf i n off : Nat) (s : Uaccess) (htable : 8 * (i + n) ≤ argMax) : Wrote s (copyStrings args buf n i off s).2 buf (buf + argMax) := by
  induction n generalizing i off s with
  | zero => exact .refl s _ _
  | succ n ih =>
    obtain ⟨t, ht⟩ : ∃ t, t = (s.storeKernel 8 (buf + 8 * i) (buf + off)).touchWord (args + 8 * i) := ⟨_, rfl⟩
    have hw : Wrote s t buf (buf + argMax) := by
      have hat : Wrote s t (buf + 8 * i) (buf + 8 * (i + 1)) := ht ▸ atString_wrote args buf i off s
      exact hat.mono (by omega) (by omega)
    unfold copyStrings
    simp only [← ht]
    cases hslot : slot t.user args i with
    | none => exact hw
    | some p =>
      simp only
      by_cases hoff : argMax ≤ off
      · rw [if_pos hoff]
        exact hw
      · have hcopy : Wrote t (strlcpyLoop (buf + off) p (argMax - off) (argMax - off) 0 t).2 buf (buf + argMax) :=
          (strlcpyLoop_wrote (by omega) (by omega)).mono (by omega) (by omega)
        rw [if_neg hoff]
        cases hres : strlcpyLoop (buf + off) p (argMax - off) (argMax - off) 0 t with
        | mk r t' =>
          rw [hres] at hcopy
          cases r with
          | none => exact hw.trans hcopy
          | some l =>
            simp only
            by_cases hl : argMax - off ≤ l
            · rw [if_pos hl]
              exact hw.trans hcopy
            · rw [if_neg hl]
              exact (hw.trans hcopy).trans (ih _ _ _ (by omega))

/-- strlcpy is called with size 0 -/
def badSize : Res Int := panic "assertion failed: strlcpy: bad n"

/-- the ways in which the loop ends: a page fault, a full buffer before the last string, or one of two values -/
structure LoopEnd (user : Nat → Option UInt8) (args argc i off : Nat) (r : Res Int) : Prop where
  values : r = .ok 0 ∨ r = .ok EFAULT ∨ r = .ok E2BIG ∨ r = badSize
  fault : r = .ok EFAULT ↔ ∃ j o, Reaches user args (i, off) (j, o) ∧ j < argc ∧ StringFaults user args j o
  full : r = badSize ↔ ∃ j, Reaches user args (i, off) (j, argMax) ∧ j < argc

/-- a loop that stays at its first string -/
theorem LoopEnd.stuck {p : Nat} {v : Res Int} (hi : i < argc) (hslot : slot user args i = some p)
    (hs : ∀ l, IsString user p l → argMax ≤ off + l) (hv : v = .ok 0 ∨ v = .ok EFAULT ∨ v = .ok E2BIG ∨ v = badSize)
    (hfault : v = .ok EFAULT ↔ StringFaults user args i off) (hfull : v = badSize ↔ off = argMax) :
    LoopEnd user args argc i off v := by
  refine ⟨hv, hfault.trans ⟨fun h => ⟨i, off, .refl, hi, h⟩, ?_⟩, hfull.trans ⟨fun h => ⟨i, h ▸ .refl, hi⟩, ?_⟩⟩
  · rintro ⟨j, o, hr, _, h⟩
    obtain ⟨rfl, rfl⟩ := Prod.mk.inj (reaches_stuck hslot hs hr)
    exact h
  · rintro ⟨j, hr, _⟩
    exact (Prod.mk.inj (reaches_stuck hslot hs hr)).2.symm

theorem copyStrings_end (args buf i n off : Nat) (hset : ∀ j < argc, SlotSet s.user args j) (hin : i + n = argc) (hoff : off ≤ argMax)
    (htable : 8 * argc ≤ off) : LoopEnd s.user args argc i off (copyStrings args buf n i off s).1 := by
  induction n generalizing i off s with
  | zero =>
    have hnone : ∀ j o, Reaches s.user args (i, off) (j, o) → ¬ j < argc := fun j o hr hj => by
      have hle : i ≤ j := Next.index_le hr
      omega
    refine ⟨.inl rfl, iff_of_false nofun ?_, iff_of_false nofun ?_⟩
    · rintro ⟨j, o, hr, hj, _⟩
      exact hnone j o hr hj
    · rintro ⟨j, hr, hj⟩
      exact hnone j _ hr hj
  | succ n ih =>
    obtain ⟨p, hslot, _⟩ := hset i (by omega)
    have hi : i < argc := by omega
    by_cases hfull : off = argMax
    · subst hfull
      have hrun : (copyStrings args buf (n + 1) i argMax s).1 = badSize := by
        obtain ⟨t, ht⟩ : ∃ t, t = (s.storeKernel 8 (buf + 8 * i) (buf + argMax)).touchWord (args + 8 * i) := ⟨_, rfl⟩
        have huser : t.user = s.user := ht ▸ (atString_wrote args buf i argMax s).user
        unfold copyStrings
        simp only [← ht, huser, hslot, Nat.le_refl, if_true]
        rfl
      rw [hrun]
      refine .stuck hi hslot (fun l _ => Nat.le_add_right _ _) (.inr (.inr (.inr rfl))) (iff_of_false nofun ?_)
        (iff_of_true rfl rfl)
      rintro ⟨_, k, _, hk, _⟩
      omega
    have hlt : off < argMax := by omega
    rcases string_cases s.user p (argMax - off) with ⟨l, hl, hs⟩ | ⟨k, hk, hs, hnone⟩ | hall
    · have hfit : off + l < argMax := by omega
      obtain ⟨t, hrun, huser, -⟩ := copyStrings_next buf n off hslot hs hfit (by omega)
      obtain ⟨hv, hfault, hfull'⟩ := ih (s := t) (i + 1) (off + (l + 1)) (huser ▸ hset) (by omega) (by omega) (by omega)
      have hquiet : ¬ StringFaults s.user args i off := by
        rintro ⟨q, k, hq, hk, hs', hnone⟩
        rw [hslot] at hq
        obtain rfl := Option.some.inj hq
        exact hs.no_fault hs' hnone
      rw [hrun]
      rw [huser] at hfault hfull'
      refine ⟨hv, hfault.trans ⟨?_, ?_⟩, hfull'.trans ⟨?_, ?_⟩⟩
      · rintro ⟨j, o, hr, h⟩
        exact ⟨j, o, (reaches_next hslot hs hfit).mpr (.inr hr), h⟩
      · rintro ⟨j, o, hr, hj, h⟩
        rcases (reaches_next hslot hs hfit).mp hr with he | hr'
        · obtain ⟨rfl, rfl⟩ := Prod.mk.inj he
          exact absurd h hquiet
        · exact ⟨j, o, hr', hj, h⟩
      · rintro ⟨j, hr, h⟩
        exact ⟨j, (reaches_next hslot hs hfit).mpr (.inr hr), h⟩
      · rintro ⟨j, hr, h⟩
        rcases (reaches_next hslot hs hfit).mp hr with he | hr'
        · exact absurd (Prod.mk.inj he).2.symm hfull
        · exact ⟨j, hr', h⟩
    · have hrun : (copyStrings args buf (n + 1) i off s).1 = .ok EFAULT := by
        have hw := atString_wrote args buf i off s
        have hfault := strlcpyLoop_fault (s := atString args buf i off s) (buf + off) (argMax - off) (r := argMax - off) (i := 0) (k := k) (fun j _ hj => hw.user ▸ hs j hj) (by rw [hw.user]; exact hnone) (Nat.zero_le k) (by omega)
        rw [copyStrings_succ hslot hlt]
        obtain ⟨t, ht⟩ : ∃ t, t = strlcpyLoop (buf + off) p (argMax - off) (argMax - off) 0 (atString args buf i off s) := ⟨_, rfl⟩
        rw [← ht] at hfault ⊢
        obtain ⟨r, t⟩ := t
        obtain rfl : r = none := hfault
        rfl
      rw [hrun]
      exact .stuck hi hslot (fun l hl => absurd hnone (hl.no_fault hs)) (.inr (.inl rfl))
        (iff_of_true rfl ⟨p, k, hslot, by omega, hs, hnone⟩) (iff_of_false nofun hfull)
    · rw [copyStrings_stop hslot hlt fun k hk => hall k (by omega)]
      refine .stuck hi hslot (fun l hl => ?_) (.inr (.inr (.inl rfl))) (iff_of_false nofun ?_) (iff_of_false nofun hfull)
      · have hle := hl.le hall
        omega
      · rintro ⟨q, k, hq, hk, _, hnone⟩
        rw [hslot] at hq
        obtain rfl := Option.some.inj hq
        obtain ⟨b, hb, _⟩ := hall k (by omega)
        exact nomatch hnone.symm.trans hb

end FakeKernel.Uaccess
