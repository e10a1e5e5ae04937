import FakeKernel.Mm.Uaccess
import Mathlib.Logic.Relation

/-!
# Which user addresses the accessors dereference

access_ok keeps copy_from_user, copy_to_user and user_strlcpy below `SPLIT`.  user_copy_args checks
the first slot of the array only; it stays below `SPLIT` when the array and the strings do.

* `accessOk_lt`                what access_ok promises;
* `copyLoop_touched`, `strlcpyLoop_touched`, `scanArgs_touched`, `copyStrings_below`
                               the addresses that each loop dereferences;
* `user_access_confined`       the four accessors;
* `user_copy_args_escapes`     an array that holds the address `SPLIT`.
-/

namespace FakeKernel
open Bytes

namespace Uaccess

variable {s : Uaccess} {user : Nat → Option UInt8} {dest src args x : Nat}

/-- what access_ok promises of a range that is not empty -/
theorem accessOk_lt {addr : Nat} {n : Int} (h : accessOk addr n = true) {i : Nat}
    (hi : i < n.toNat) : wrap (addr + i) < splitAddr := by
  unfold accessOk taskSizeMax splitAddr wordCount at h
  simp only [Bool.and_eq_true, decide_eq_true_eq] at h
  unfold wrap splitAddr wordCount
  omega

@[simp] theorem mem_touch : x ∈ (s.touch src).touched ↔ x = wrap src ∨ x ∈ s.touched :=
  List.mem_cons

@[simp] theorem touch_user : (s.touch src).user = s.user := rfl

@[simp] theorem storeKernel_user (n v : Nat) : (s.storeKernel n dest v).user = s.user := rfl

@[simp] theorem storeKernel_touched (n v : Nat) :
    (s.storeKernel n dest v).touched = s.touched := rfl

theorem foldr_touch (l : List Nat) :
    (l.foldr (fun k s => s.touch (src + k)) s).user = s.user ∧
      (x ∈ (l.foldr (fun k s => s.touch (src + k)) s).touched ↔
        (∃ b ∈ l, x = wrap (src + b)) ∨ x ∈ s.touched) := by
  induction l with
  | nil => exact ⟨rfl, .inr, fun h => h.resolve_left fun ⟨_, hb, _⟩ => List.not_mem_nil hb⟩
  | cons k l ih =>
    refine ⟨ih.1, ?_⟩
    rw [List.foldr_cons, mem_touch, ih.2]
    simp only [List.exists_mem_cons_iff, or_assoc]

@[simp] theorem touchWord_user : (s.touchWord src).user = s.user := (foldr_touch (x := 0) _).1

theorem mem_touchWord :
    x ∈ (s.touchWord src).touched ↔ (∃ b < 8, x = wrap (src + b)) ∨ x ∈ s.touched := by
  unfold touchWord
  rw [(foldr_touch _).2]
  simp only [List.mem_range]

/-! ## user_memcpy -/

theorem copyByte_touched {dir : Direction} {s' : Uaccess} (h : copyByte dir dest src s = some s') :
    s'.touched = s.touched := by
  cases dir with
  | fromUser =>
    unfold copyByte at h
    obtain ⟨b, _, hb⟩ := Option.map_eq_some_iff.mp h
    rw [← hb]
    rfl
  | toUser =>
    simp only [copyByte] at h
    split at h
    · cases h
      rfl
    · exact nomatch h

theorem copyLoop_touched {dir : Direction} {n i : Nat}
    (h : x ∈ (copyLoop dir dest src n i s).2.touched) :
    (∃ k < n, x = wrap (userSide dir (dest + (i + k)) (src + (i + k)))) ∨ x ∈ s.touched := by
  induction n generalizing i s with
  | zero => exact .inr h
  | succ n ih =>
    have hfirst : ∀ {t : Uaccess},
        t.touched = (s.touch (userSide dir (dest + i) (src + i))).touched → x ∈ t.touched →
        (∃ k < n + 1, x = wrap (userSide dir (dest + (i + k)) (src + (i + k)))) ∨ x ∈ s.touched := by
      intro t ht hx
      rw [ht, mem_touch] at hx
      cases hx with
      | inl hx => exact .inl ⟨0, Nat.succ_pos n, hx⟩
      | inr hx => exact .inr hx
    unfold copyLoop at h
    cases hc : copyByte dir (dest + i) (src + i) (s.touch (userSide dir (dest + i) (src + i))) with
    | none =>
      simp only [hc] at h
      exact hfirst rfl h
    | some s' =>
      simp only [hc] at h
      cases ih h with
      | inl hx =>
        obtain ⟨k, hk, hx⟩ := hx
        refine .inl ⟨k + 1, Nat.succ_lt_succ hk, ?_⟩
        rw [hx, Nat.add_assoc i 1 k, Nat.add_comm 1 k]
      | inr hx => exact hfirst (copyByte_touched hc) hx

/-! ## strings -/

def NonNul (user : Nat → Option UInt8) (p : Nat) : Prop := ∃ b, user (wrap p) = some b ∧ b ≠ 0

/-- a string of `length` bytes and a NUL at `p` -/
def IsString (user : Nat → Option UInt8) (p length : Nat) : Prop :=
  (∀ j < length, NonNul user (p + j)) ∧ user (wrap (p + length)) = some 0

theorem strlcpyLoop_user {n r i : Nat} : (strlcpyLoop dest src n r i s).2.user = s.user := by
  induction r generalizing i s with
  | zero => rfl
  | succ r ih =>
    unfold strlcpyLoop
    cases hb : (s.touch (src + i)).user (wrap (src + i)) with
    | none => simp only [hb, touch_user]
    | some b =>
      simp only [hb]
      split
      · rfl
      · exact ih

theorem strlcpyLoop_touched {n r i : Nat} :
    x ∈ (strlcpyLoop dest src n r i s).2.touched ↔
      (∃ k < r, (∀ j < k, NonNul s.user (src + (i + j))) ∧ x = wrap (src + (i + k)))
        ∨ x ∈ s.touched := by
  induction r generalizing i s with
  | zero =>
    show x ∈ s.touched ↔ _
    exact ⟨.inr, fun h => h.resolve_left fun ⟨k, hk, _⟩ => Nat.not_lt_zero k hk⟩
  | succ r ih =>
    -- the first byte is dereferenced, and the rest if it is not NUL
    have hstop : ¬ NonNul s.user (src + i) → ((x = wrap (src + i) ∨ x ∈ s.touched) ↔
        (∃ k < r + 1, (∀ j < k, NonNul s.user (src + (i + j))) ∧ x = wrap (src + (i + k)))
          ∨ x ∈ s.touched) := by
      intro hnot
      constructor
      · intro h
        cases h with
        | inl h => exact .inl ⟨0, Nat.succ_pos r, nofun, h⟩
        | inr h => exact .inr h
      · intro h
        cases h with
        | inl h =>
          obtain ⟨k, _, hall, hx⟩ := h
          cases k with
          | zero => exact .inl hx
          | succ k => exact absurd (hall 0 (Nat.succ_pos k)) hnot
        | inr h => exact .inr h
    unfold strlcpyLoop
    cases hb : (s.touch (src + i)).user (wrap (src + i)) with
    | none =>
      simp only [hb, mem_touch]
      refine hstop fun ⟨b, hb', _⟩ => ?_
      rw [touch_user, hb'] at hb
      exact nomatch hb
    | some b =>
      rw [touch_user] at hb
      simp only [touch_user, hb]
      by_cases h0 : b = 0
      · simp only [h0, if_true, storeKernel_touched, mem_touch]
        refine hstop fun ⟨c, hc, hne⟩ => hne ?_
        rw [hb] at hc
        rw [← Option.some.inj hc, h0]
      · simp only [h0, if_false]
        rw [ih]
        simp only [storeKernel_touched, storeKernel_user, touch_user, mem_touch]
        constructor
        · intro h
          rcases h with ⟨k, hk, hall, hx⟩ | hx | hx
          · refine .inl ⟨k + 1, Nat.succ_lt_succ hk, fun j hj => ?_, ?_⟩
            · cases j with
              | zero => exact ⟨b, hb, h0⟩
              | succ j =>
                have := hall j (Nat.lt_of_succ_lt_succ hj)
                rwa [Nat.add_assoc i 1 j, Nat.add_comm 1 j] at this
            · rw [hx, Nat.add_assoc i 1 k, Nat.add_comm 1 k]
          · exact .inl ⟨0, Nat.succ_pos r, nofun, hx⟩
          · exact .inr hx
        · intro h
          rcases h with ⟨k, hk, hall, hx⟩ | hx
          · cases k with
            | zero => exact .inr (.inl hx)
            | succ k =>
              refine .inl ⟨k, Nat.lt_of_succ_lt_succ hk, fun j hj => ?_, ?_⟩
              · rw [Nat.add_assoc i 1 j, Nat.add_comm 1 j]
                exact hall (j + 1) (Nat.succ_lt_succ hj)
              · rw [hx, Nat.add_assoc i 1 k, Nat.add_comm 1 k]
          · exact .inr (.inr hx)

/-- strlcpy returns less than its size exactly when it met the end of the string -/
theorem strlcpyLoop_result {n r i length : Nat} (hn : i + r = n) (hlt : length < n) :
    (strlcpyLoop dest src n r i s).1 = some length ↔
      i ≤ length ∧ (∀ j, i ≤ j → j < length → NonNul s.user (src + j)) ∧
        s.user (wrap (src + length)) = some 0 := by
  induction r generalizing i s with
  | zero =>
    show some n = some length ↔ _
    constructor
    · intro h
      exact absurd (Option.some.inj h) (by omega)
    · intro ⟨h, _⟩
      omega
  | succ r ih =>
    unfold strlcpyLoop
    cases hb : (s.touch (src + i)).user (wrap (src + i)) with
    | none =>
      rw [touch_user] at hb
      simp only [touch_user, hb]
      refine ⟨nofun, fun ⟨hle, hall, hend⟩ => ?_⟩
      rcases Nat.eq_or_lt_of_le hle with he | hlt'
      · subst he
        rw [hb] at hend
        exact nomatch hend
      · obtain ⟨b, hb', _⟩ := hall i (Nat.le_refl i) hlt'
        rw [hb] at hb'
        exact nomatch hb'
    | some b =>
      rw [touch_user] at hb
      simp only [touch_user, hb]
      by_cases h0 : b = 0
      · subst h0
        simp only [if_true]
        constructor
        · intro h
          obtain rfl := Option.some.inj h
          exact ⟨Nat.le_refl i, fun j h1 h2 => by omega, hb⟩
        · intro ⟨hle, hall, _⟩
          rcases Nat.eq_or_lt_of_le hle with he | hlt'
          · rw [he]
          · obtain ⟨c, hc, hne⟩ := hall i (Nat.le_refl i) hlt'
            rw [hb] at hc
            exact absurd (Option.some.inj hc).symm hne
      · simp only [h0, if_false]
        rw [ih (by omega)]
        simp only [storeKernel_user, touch_user]
        constructor
        · intro ⟨hle, hall, hend⟩
          refine ⟨by omega, fun j h1 h2 => ?_, hend⟩
          rcases Nat.eq_or_lt_of_le h1 with he | hlt'
          · subst he
            exact ⟨b, hb, h0⟩
          · exact hall j hlt' h2
        · intro ⟨hle, hall, hend⟩
          refine ⟨?_, fun j h1 h2 => hall j (by omega) h2, hend⟩
          rcases Nat.eq_or_lt_of_le hle with he | hlt'
          · subst he
            rw [hb] at hend
            exact absurd (Option.some.inj hend) h0
          · exact hlt'

/-! ## user_copy_args -/

def SlotSet (user : Nat → Option UInt8) (args i : Nat) : Prop := ∃ p, slot user args i = some p ∧ p ≠ 0

/-- an array of `argc` pointers and a NULL at `args` -/
def IsVector (user : Nat → Option UInt8) (args argc : Nat) : Prop :=
  (∀ i < argc, SlotSet user args i) ∧ slot user args argc = some 0

theorem scanArgs_user {n argc : Nat} : (scanArgs args n argc s).2.user = s.user := by
  induction n generalizing argc s with
  | zero => rfl
  | succ n ih =>
    unfold scanArgs
    simp only [touchWord_user]
    cases hp : slot s.user args argc with
    | none => exact touchWord_user
    | some p =>
      by_cases h0 : p = 0
      · simp only [h0, if_true, touchWord_user]
      · simp only [h0, if_false]
        rw [ih, touchWord_user]

theorem scanArgs_touched {n argc : Nat} :
    x ∈ (scanArgs args n argc s).2.touched ↔
      (∃ k < n, (∀ j < k, SlotSet s.user args (argc + j)) ∧
        ∃ b < 8, x = wrap (args + 8 * (argc + k) + b)) ∨ x ∈ s.touched := by
  induction n generalizing argc s with
  | zero =>
    show x ∈ s.touched ↔ _
    exact ⟨.inr, fun h => h.resolve_left fun ⟨k, hk, _⟩ => Nat.not_lt_zero k hk⟩
  | succ n ih =>
    have hstop : ¬ SlotSet s.user args argc →
        (((∃ b < 8, x = wrap (args + 8 * argc + b)) ∨ x ∈ s.touched) ↔
          (∃ k < n + 1, (∀ j < k, SlotSet s.user args (argc + j)) ∧
            ∃ b < 8, x = wrap (args + 8 * (argc + k) + b)) ∨ x ∈ s.touched) := by
      intro hnot
      constructor
      · intro h
        cases h with
        | inl h => exact .inl ⟨0, Nat.succ_pos n, nofun, h⟩
        | inr h => exact .inr h
      · intro h
        cases h with
        | inl h =>
          obtain ⟨k, _, hall, hx⟩ := h
          cases k with
          | zero => exact .inl hx
          | succ k => exact absurd (hall 0 (Nat.succ_pos k)) hnot
        | inr h => exact .inr h
    unfold scanArgs
    simp only [touchWord_user]
    cases hp : slot s.user args argc with
    | none =>
      simp only [mem_touchWord]
      refine hstop fun ⟨p, hp', _⟩ => ?_
      rw [hp] at hp'
      exact nomatch hp'
    | some p =>
      by_cases h0 : p = 0
      · simp only [h0, if_true, mem_touchWord]
        refine hstop fun ⟨q, hq, hne⟩ => hne ?_
        rw [hp] at hq
        rw [← Option.some.inj hq, h0]
      · simp only [h0, if_false]
        rw [ih]
        simp only [touchWord_user, mem_touchWord]
        constructor
        · intro h
          rcases h with ⟨k, hk, hall, hx⟩ | hx | hx
          · refine .inl ⟨k + 1, Nat.succ_lt_succ hk, fun j hj => ?_, ?_⟩
            · cases j with
              | zero => exact ⟨p, hp, h0⟩
              | succ j =>
                have := hall j (Nat.lt_of_succ_lt_succ hj)
                rwa [Nat.add_assoc argc 1 j, Nat.add_comm 1 j] at this
            · rwa [Nat.add_assoc argc 1 k, Nat.add_comm 1 k] at hx
          · exact .inl ⟨0, Nat.succ_pos n, nofun, hx⟩
          · exact .inr hx
        · intro h
          rcases h with ⟨k, hk, hall, hx⟩ | hx
          · cases k with
            | zero => exact .inr (.inl hx)
            | succ k =>
              refine .inl ⟨k, Nat.lt_of_succ_lt_succ hk, fun j hj => ?_, ?_⟩
              · rw [Nat.add_assoc argc 1 j, Nat.add_comm 1 j]
                exact hall (j + 1) (Nat.succ_lt_succ hj)
              · rwa [Nat.add_assoc argc 1 k, Nat.add_comm 1 k]
          · exact .inr (.inr hx)

/-- the scan ends at the first NULL -/
theorem scanArgs_result {n argc c : Nat} :
    (scanArgs args n argc s).1 = .ok (some c) ↔
      argc ≤ c ∧ c < argc + n ∧ (∀ j, argc ≤ j → j < c → SlotSet s.user args j) ∧
        slot s.user args c = some 0 := by
  induction n generalizing argc s with
  | zero =>
    show (.error .hang : Res (Option Nat)) = .ok (some c) ↔ _
    exact ⟨nofun, fun ⟨h1, h2, _⟩ => by omega⟩
  | succ n ih =>
    unfold scanArgs
    simp only [touchWord_user]
    cases hp : slot s.user args argc with
    | none =>
      refine ⟨nofun, fun ⟨hle, _, hall, hend⟩ => ?_⟩
      rcases Nat.eq_or_lt_of_le hle with he | hlt
      · subst he
        rw [hp] at hend
        exact nomatch hend
      · obtain ⟨p, hp', _⟩ := hall argc (Nat.le_refl _) hlt
        rw [hp] at hp'
        exact nomatch hp'
    | some p =>
      by_cases h0 : p = 0
      · subst h0
        simp only [if_true]
        constructor
        · intro h
          cases h
          exact ⟨Nat.le_refl _, by omega, fun j h1 h2 => by omega, hp⟩
        · intro ⟨hle, _, hall, _⟩
          rcases Nat.eq_or_lt_of_le hle with he | hlt
          · rw [he]
          · obtain ⟨q, hq, hne⟩ := hall argc (Nat.le_refl _) hlt
            rw [hp] at hq
            exact absurd (Option.some.inj hq).symm hne
      · simp only [h0, if_false]
        rw [ih]
        simp only [touchWord_user]
        constructor
        · intro ⟨hle, hlt, hall, hend⟩
          refine ⟨by omega, by omega, fun j h1 h2 => ?_, hend⟩
          rcases Nat.eq_or_lt_of_le h1 with he | hlt'
          · subst he
            exact ⟨p, hp, h0⟩
          · exact hall j hlt' h2
        · intro ⟨hle, hlt, hall, hend⟩
          refine ⟨?_, by omega, fun j h1 h2 => hall j (by omega) h2, hend⟩
          rcases Nat.eq_or_lt_of_le hle with he | hlt'
          · subst he
            rw [hp] at hend
            exact absurd (Option.some.inj hend) h0
          · exact hlt'

/-- string `i` fits behind `off`, and the next string is copied behind it -/
def Next (user : Nat → Option UInt8) (args : Nat) (c d : Nat × Nat) : Prop :=
  ∃ p length, slot user args c.1 = some p ∧ IsString user p length ∧ c.2 + length < argMax ∧
    d = (c.1 + 1, c.2 + (length + 1))

/-- the bytes of string `i` that are read when it is copied to `off` lie below `SPLIT` -/
def StringBelow (user : Nat → Option UInt8) (args i off : Nat) : Prop :=
  ∀ p, slot user args i = some p → ∀ k, off + k < argMax → (∀ j < k, NonNul user (p + j)) →
    wrap (p + k) < splitAddr

/-- the array and the strings that user_copy_args reads lie below `SPLIT` -/
structure ArgsBelow (user : Nat → Option UInt8) (args : Nat) : Prop where
  slots : ∀ i, (∀ j < i, SlotSet user args j) → ∀ b < 8, wrap (args + 8 * i + b) < splitAddr
  strings : ∀ argc, IsVector user args argc → 8 * (argc + 1) ≤ argMax →
    ∀ i off, Relation.ReflTransGen (Next user args) (0, 8 * (argc + 1)) (i, off) → i < argc →
      StringBelow user args i off

theorem IsString.unique {p l l' : Nat} (h : IsString user p l) (h' : IsString user p l') :
    l = l' := by
  rcases Nat.lt_trichotomy l l' with hlt | he | hlt
  · obtain ⟨b, hb, hne⟩ := h'.1 l hlt
    rw [h.2] at hb
    exact absurd (Option.some.inj hb).symm hne
  · exact he
  · obtain ⟨b, hb, hne⟩ := h.1 l' hlt
    rw [h'.2] at hb
    exact absurd (Option.some.inj hb).symm hne

theorem IsVector.unique {c c' : Nat} (h : IsVector user args c) (h' : IsVector user args c') :
    c = c' := by
  rcases Nat.lt_trichotomy c c' with hlt | he | hlt
  · obtain ⟨p, hp, hne⟩ := h'.1 c hlt
    rw [h.2] at hp
    exact absurd (Option.some.inj hp).symm hne
  · exact he
  · obtain ⟨p, hp, hne⟩ := h.1 c' hlt
    rw [h'.2] at hp
    exact absurd (Option.some.inj hp).symm hne

theorem Next.index_le {c d : Nat × Nat} (h : Relation.ReflTransGen (Next user args) c d) :
    c.1 ≤ d.1 := by
  induction h with
  | refl => exact Nat.le_refl _
  | tail _ hstep ih =>
    obtain ⟨p, l, _, _, _, rfl⟩ := hstep
    exact Nat.le_succ_of_le ih

/-- the strings that the loop copies from the `i`-th on lie below `SPLIT` -/
theorem copyStrings_below {buf n i off : Nat}
    (hslots : ∀ j < i + n, ∀ b < 8, wrap (args + 8 * j + b) < splitAddr)
    (hset : ∀ j < i + n, SlotSet s.user args j) :
    (∀ x ∈ (copyStrings args buf n i off s).2.touched, x < splitAddr) ↔
      (∀ x ∈ s.touched, x < splitAddr) ∧
      ∀ i' off', Relation.ReflTransGen (Next s.user args) (i, off) (i', off') → i' < i + n →
        StringBelow s.user args i' off' := by
  induction n generalizing i off s with
  | zero =>
    refine ⟨fun h => ⟨h, fun i' off' hr hlt => ?_⟩, fun h => h.1⟩
    have hle : i ≤ i' := Next.index_le hr
    omega
  | succ n ih =>
    obtain ⟨p, hp, _⟩ := hset i (by omega)
    obtain ⟨t, ht⟩ : ∃ t, t = (s.storeKernel 8 (buf + 8 * i) (buf + off)).touchWord (args + 8 * i) :=
      ⟨_, rfl⟩
    have htu : t.user = s.user := by rw [ht, touchWord_user, storeKernel_user]
    have htt : (∀ x ∈ t.touched, x < splitAddr) ↔ ∀ x ∈ s.touched, x < splitAddr := by
      rw [ht]
      constructor
      · intro h x hx
        exact h x (mem_touchWord.mpr (.inr hx))
      · intro h x hx
        cases mem_touchWord.mp hx with
        | inl hb =>
          obtain ⟨b, hb, rfl⟩ := hb
          exact hslots i (by omega) b hb
        | inr hx => exact h x hx
    unfold copyStrings
    simp only [← ht, htu, hp]
    by_cases hoff : argMax ≤ off
    · -- strlcpy would be called with size 0
      simp only [hoff, if_true]
      rw [htt]
      refine ⟨fun h => ⟨h, fun i' off' hr _ => ?_⟩, fun h => h.1⟩
      rcases Relation.ReflTransGen.cases_head hr with he | ⟨c, hstep, _⟩
      · cases he
        intro q _ k hk
        omega
      · obtain ⟨q, l, _, _, hlt, _⟩ := hstep
        omega
    simp only [hoff, if_false]
    -- the addresses that strlcpy dereferences
    have hstr : (∀ x ∈ (strlcpyLoop (buf + off) p (argMax - off) (argMax - off) 0 t).2.touched,
        x < splitAddr) ↔ (∀ x ∈ s.touched, x < splitAddr) ∧ StringBelow s.user args i off := by
      constructor
      · intro h
        refine ⟨htt.mp fun x hx => h x (strlcpyLoop_touched.mpr (.inr hx)), ?_⟩
        intro q hq k hk hall
        rw [hp] at hq
        obtain rfl := Option.some.inj hq
        refine h _ (strlcpyLoop_touched.mpr (.inl ⟨k, by omega, fun j hj => ?_, ?_⟩))
        · rw [htu, Nat.zero_add]
          exact hall j hj
        · rw [Nat.zero_add]
      · intro ⟨hs, hbelow⟩ x hx
        cases strlcpyLoop_touched.mp hx with
        | inl h =>
          obtain ⟨k, hk, hall, rfl⟩ := h
          rw [Nat.zero_add]
          refine hbelow p hp k (by omega) fun j hj => ?_
          have := hall j hj
          rwa [htu, Nat.zero_add] at this
        | inr h => exact htt.mpr hs x h
    -- the loop stops here unless the string fits
    have hstop : (¬ ∃ l, IsString s.user p l ∧ off + l < argMax) →
        ((∀ x ∈ (strlcpyLoop (buf + off) p (argMax - off) (argMax - off) 0 t).2.touched,
          x < splitAddr) ↔ (∀ x ∈ s.touched, x < splitAddr) ∧
          ∀ i' off', Relation.ReflTransGen (Next s.user args) (i, off) (i', off') →
            i' < i + (n + 1) → StringBelow s.user args i' off') := by
      intro hno
      rw [hstr]
      refine and_congr_right fun _ => ⟨fun h i' off' hr _ => ?_, fun h => ?_⟩
      · rcases Relation.ReflTransGen.cases_head hr with he | ⟨c, hstep, _⟩
        · cases he
          exact h
        · obtain ⟨q, l, hq, hl, hlt, _⟩ := hstep
          rw [hp] at hq
          obtain rfl := Option.some.inj hq
          exact absurd ⟨l, hl, hlt⟩ hno
      · exact h i off .refl (by omega)
    have hres : ∀ l, l < argMax - off →
        ((strlcpyLoop (buf + off) p (argMax - off) (argMax - off) 0 t).1 = some l
          ↔ IsString s.user p l) := by
      intro l hl
      rw [strlcpyLoop_result (by omega) hl, htu]
      exact ⟨fun ⟨_, hall, hend⟩ => ⟨fun j hj => hall j (Nat.zero_le j) hj, hend⟩,
        fun ⟨hall, hend⟩ => ⟨Nat.zero_le l, fun j _ hj => hall j hj, hend⟩⟩
    have huser : (strlcpyLoop (buf + off) p (argMax - off) (argMax - off) 0 t).2.user = s.user := by
      rw [strlcpyLoop_user, htu]
    cases hrun : strlcpyLoop (buf + off) p (argMax - off) (argMax - off) 0 t with
    | mk r t' =>
      rw [hrun] at hstop hres huser hstr
      cases r with
      | none =>
        refine hstop fun ⟨l, hl, hlt⟩ => ?_
        exact nomatch (hres l (by omega)).mpr hl
      | some l =>
        by_cases hfit : argMax - off ≤ l
        · simp only [hfit, if_true]
          refine hstop fun ⟨l', hl', hlt⟩ => ?_
          have := Option.some.inj ((hres l' (by omega)).mpr hl')
          omega
        · simp only [hfit, if_false]
          have hl : IsString s.user p l := (hres l (by omega)).mp rfl
          have hnext : Next s.user args (i, off) (i + 1, off + (l + 1)) :=
            ⟨p, l, hp, hl, by show off + l < argMax; omega, rfl⟩
          have huser' : t'.user = s.user := huser
          have hstr' : (∀ x ∈ t'.touched, x < splitAddr) ↔
              (∀ x ∈ s.touched, x < splitAddr) ∧ StringBelow s.user args i off := hstr
          rw [ih (fun j hj => hslots j (by omega))
            (fun j hj => by rw [huser']; exact hset j (by omega)), hstr', huser', and_assoc]
          refine and_congr_right fun _ => ⟨fun ⟨h0, h⟩ i' off' hr hlt => ?_, fun h => ⟨?_, ?_⟩⟩
          · rcases Relation.ReflTransGen.cases_head hr with he | ⟨c, hstep, hr'⟩
            · cases he
              exact h0
            · obtain ⟨q, l', hq, hl', _, rfl⟩ := hstep
              rw [hp] at hq
              obtain rfl := Option.some.inj hq
              obtain rfl := hl.unique hl'
              exact h i' off' hr' (by omega)
          · exact h i off .refl (by omega)
          · exact fun i' off' hr hlt => h i' off' (.head hnext hr) (by omega)

theorem copyStrings_mono {buf n i off : Nat} (h : x ∈ s.touched) :
    x ∈ (copyStrings args buf n i off s).2.touched := by
  induction n generalizing i off s with
  | zero => exact h
  | succ n ih =>
    have ht : x ∈ ((s.storeKernel 8 (buf + 8 * i) (buf + off)).touchWord (args + 8 * i)).touched :=
      mem_touchWord.mpr (.inr h)
    unfold copyStrings
    simp only
    split
    · exact ht
    · split
      · exact ht
      · split
        · rename_i t hrun
          have e : _ = t := congrArg Prod.snd hrun
          rw [← e]
          exact strlcpyLoop_touched.mpr (.inr ht)
        · rename_i length t hrun
          have e : _ = t := congrArg Prod.snd hrun
          have ht' : x ∈ t.touched := by
            rw [← e]
            exact strlcpyLoop_touched.mpr (.inr ht)
          split
          · exact ht'
          · exact ih ht'

/-- the slots that are scanned lie below `SPLIT` -/
theorem scanArgs_below (hargs : args ≤ splitAddr) (hs : s.touched = []) :
    (∀ x ∈ (scanArgs args wordCount 0 s).2.touched, x < splitAddr) ↔
      ∀ i, (∀ j < i, SlotSet s.user args j) → ∀ b < 8, wrap (args + 8 * i + b) < splitAddr := by
  constructor
  · intro h
    have hlow : ∀ i < wordCount, (∀ j < i, SlotSet s.user args j) → ∀ b < 8,
        wrap (args + 8 * i + b) < splitAddr := by
      intro i hi hall b hb
      refine h _ (scanArgs_touched.mpr (.inl ⟨i, hi, fun j hj => ?_, b, hb, ?_⟩))
      · rw [Nat.zero_add]
        exact hall j hj
      · rw [Nat.zero_add]
    intro i hall
    by_cases hi : i < wordCount
    · exact hlow i hi hall
    · -- a scan this long has passed `SPLIT` before
      unfold splitAddr at hargs
      unfold wordCount at hi
      have := hlow splitAddr (by decide) (fun j hj => hall j (by unfold splitAddr at hj; omega)) 0
        (by decide)
      unfold wrap splitAddr wordCount at this
      omega
  · intro h x hx
    cases scanArgs_touched.mp hx with
    | inl hin =>
      obtain ⟨k, _, hall, b, hb, rfl⟩ := hin
      rw [Nat.zero_add]
      refine h k (fun j hj => ?_) b hb
      have := hall j hj
      rwa [Nat.zero_add] at this
    | inr hin =>
      rw [hs] at hin
      exact absurd hin List.not_mem_nil

theorem finishArgs_touched {buf argc : Nat} {r : Res Int × Uaccess} :
    (finishArgs buf argc r).state.touched = r.2.touched := by
  obtain ⟨r, t⟩ := r
  cases r with
  | error e => rfl
  | ok err =>
    unfold finishArgs
    simp only
    split
    · rfl
    · split
      · rfl
      · rfl

theorem kmalloc_ne_zero {a a' : Mm} {size buf : Nat} (h : a.kmalloc size = .ok (buf, a')) :
    buf ≠ 0 := by
  unfold Mm.kmalloc at h
  obtain ⟨⟨p, a₁⟩, _, hret⟩ := Res.bind_eq_ok.mp h
  cases hret
  exact Nat.succ_ne_zero _

/-- the user addresses that a call dereferences -/
def dereferenced {α : Type} (f : Uaccess → Ran α) (s : Uaccess) : List Nat :=
  (f { s with touched := [] }).state.touched

theorem userCopyArgs_below (hok : accessOk args 8 = true) {buf : Nat} {mm : Mm}
    (halloc : s.mm.kmalloc argMax = .ok (buf, mm)) :
    (∀ x ∈ dereferenced (userCopyArgs args) s, x < splitAddr) ↔ ArgsBelow s.user args := by
  have hargs : args ≤ splitAddr := by
    unfold accessOk taskSizeMax splitAddr wordCount at hok
    simp only [Bool.and_eq_true, decide_eq_true_eq] at hok
    unfold splitAddr
    omega
  obtain ⟨t, ht⟩ : ∃ t, t = ({ s with touched := [], mm := mm } : Uaccess).enterSum := ⟨_, rfl⟩
  have htu : t.user = s.user := by rw [ht]; rfl
  have htt : t.touched = [] := by rw [ht]; rfl
  have hscan := scanArgs_below (s := t) hargs htt
  have hresult : ∀ c, (scanArgs args wordCount 0 t).1 = .ok (some c) ↔
      c < wordCount ∧ IsVector s.user args c := by
    intro c
    rw [scanArgs_result, htu, Nat.zero_add]
    exact ⟨fun ⟨_, h1, h2, h3⟩ => ⟨h1, fun j hj => h2 j (Nat.zero_le j) hj, h3⟩,
      fun ⟨h1, h2, h3⟩ => ⟨Nat.zero_le c, h1, fun j _ hj => h2 j hj, h3⟩⟩
  rw [htu] at hscan
  -- no vector fits the buffer: only the array was scanned
  have hnone : (∀ c, IsVector s.user args c → argMax < 8 * (c + 1)) →
      ((∀ x ∈ (scanArgs args wordCount 0 t).2.touched, x < splitAddr)
        ↔ ArgsBelow s.user args) := by
    intro hno
    rw [hscan]
    refine ⟨fun h => ⟨h, fun c hc hle => ?_⟩, fun h => h.slots⟩
    have := hno c hc
    omega
  have hshort : ∀ c, c < wordCount ∨ argMax < 8 * (c + 1) := by
    intro c
    unfold wordCount argMax pageSize
    omega
  unfold dereferenced userCopyArgs
  simp only [hok, if_true, halloc, kmalloc_ne_zero halloc, if_false, ← ht]
  cases hrun : scanArgs args wordCount 0 t with
  | mk r t' =>
    rw [hrun] at hnone hresult
    cases r with
    | error e =>
      refine hnone fun c hc => ?_
      cases hshort c with
      | inl hlt => exact nomatch (hresult c).mpr ⟨hlt, hc⟩
      | inr hlt => exact hlt
    | ok o =>
      cases o with
      | none =>
        simp only [finishArgs_touched]
        refine hnone fun c hc => ?_
        cases hshort c with
        | inl hlt => exact nomatch (hresult c).mpr ⟨hlt, hc⟩
        | inr hlt => exact hlt
      | some argc =>
        obtain ⟨_, hvec⟩ := (hresult argc).mp rfl
        simp only
        by_cases hbig : argMax < 8 * (argc + 1)
        · simp only [hbig, if_true]
          refine hnone fun c hc => ?_
          rw [hc.unique hvec]
          exact hbig
        · simp only [hbig, if_false, finishArgs_touched]
          have ht'u : t'.user = s.user := by
            have huser : (scanArgs args wordCount 0 t).2.user = t.user := scanArgs_user
            rw [hrun, htu] at huser
            exact huser
          have hscan' : (∀ x ∈ t'.touched, x < splitAddr) ↔
              ∀ i, (∀ j < i, SlotSet s.user args j) → ∀ b < 8,
                wrap (args + 8 * i + b) < splitAddr := by
            rw [hrun] at hscan
            exact hscan
          constructor
          · intro h
            have hslots := hscan'.mp fun x hx => h x (copyStrings_mono hx)
            refine ⟨hslots, fun c hc _ => ?_⟩
            rw [hc.unique hvec]
            have hcopy : ∀ x ∈ (copyStrings args buf argc 0 (8 * (argc + 1)) t').2.touched,
                x < splitAddr := h
            have hall := (copyStrings_below
              (fun j hj => hslots j fun k hk => hvec.1 k (by omega))
              (fun j hj => by rw [ht'u]; exact hvec.1 j (by omega))).mp hcopy
            rw [ht'u, Nat.zero_add] at hall
            exact hall.2
          · intro h
            refine (copyStrings_below (fun j hj => h.slots j fun k hk => hvec.1 k (by omega))
              (fun j hj => by rw [ht'u]; exact hvec.1 j (by omega))).mpr ⟨hscan'.mpr h.slots, ?_⟩
            rw [ht'u, Nat.zero_add]
            exact h.strings argc hvec (by omega)

/-! ## the four accessors -/

theorem copyLoop_confined {dir : Direction} {n : Int} {addr : Nat}
    (haddr : ∀ i, userSide dir (dest + i) (src + i) = addr + i) (hok : accessOk addr n = true)
    (hs : s.touched = []) :
    ∀ x ∈ (copyLoop dir dest src n.toNat 0 s).2.touched, x < splitAddr := by
  intro x hx
  cases copyLoop_touched hx with
  | inl h =>
    obtain ⟨k, hk, rfl⟩ := h
    rw [Nat.zero_add, haddr]
    exact accessOk_lt hok hk
  | inr h =>
    rw [hs] at h
    exact absurd h List.not_mem_nil

/-- **User accesses stay in user space.**  copy_from_user, copy_to_user and user_strlcpy dereference
addresses below `SPLIT` only and answer `-EFAULT` where they would have to leave user space;
user_copy_args does so exactly when access_ok refuses the array, no buffer can be allocated, or the
array and the strings that it reads lie below `SPLIT`. -/
theorem user_access_confined (s : Uaccess) (dest src args : Nat) (n : Int) :
    ((∀ x ∈ dereferenced (copyFromUser dest src n) s, x < splitAddr) ∧
      ((∃ i < n.toNat, splitAddr ≤ wrap (src + i)) →
        (copyFromUser dest src n s).result = .ok (-EFAULT))) ∧
    ((∀ x ∈ dereferenced (copyToUser dest src n) s, x < splitAddr) ∧
      ((∃ i < n.toNat, splitAddr ≤ wrap (dest + i)) →
        (copyToUser dest src n s).result = .ok (-EFAULT))) ∧
    ((∀ x ∈ dereferenced (userStrlcpy dest src n) s, x < splitAddr) ∧
      ((∃ i < n.toNat, (∀ j < i, NonNul s.user (src + j)) ∧ splitAddr ≤ wrap (src + i)) →
        (userStrlcpy dest src n s).result = .ok (-EFAULT))) ∧
    (((∀ x ∈ dereferenced (userCopyArgs args) s, x < splitAddr) ∧
        (¬ ArgsBelow s.user args → ∀ p, (userCopyArgs args s).result = .ok p → p = ERR_PTR EFAULT))
      ↔ accessOk args 8 = false ∨ (∃ e, s.mm.kmalloc argMax = .error e) ∨ ArgsBelow s.user args) := by
  have hrefuse : ∀ {addr : Nat}, (∃ i < n.toNat, splitAddr ≤ wrap (addr + i)) →
      accessOk addr n = false := by
    intro addr ⟨i, hi, hge⟩
    cases hok : accessOk addr n with
    | false => rfl
    | true => exact absurd (accessOk_lt hok hi) (Nat.not_lt.mpr hge)
  refine ⟨⟨?_, fun h => ?_⟩, ⟨?_, fun h => ?_⟩, ⟨?_, fun h => ?_⟩, ?_⟩
  · unfold dereferenced copyFromUser
    cases hok : accessOk src n with
    | false => exact nofun
    | true => exact copyLoop_confined (fun _ => rfl) hok rfl
  · unfold copyFromUser
    simp [hrefuse h]
  · unfold dereferenced copyToUser
    cases hok : accessOk dest n with
    | false => exact nofun
    | true => exact copyLoop_confined (fun _ => rfl) hok rfl
  · unfold copyToUser
    simp [hrefuse h]
  · unfold dereferenced userStrlcpy
    by_cases hn : n ≤ 0
    · simp only [hn, if_true]
      exact nofun
    · simp only [hn, if_false]
      cases hok : accessOk src n with
      | false => exact nofun
      | true =>
        have hbelow : ∀ t : Uaccess, t.touched = [] →
            ∀ x ∈ (strlcpyLoop dest src n.toNat n.toNat 0 t).2.touched, x < splitAddr := by
          intro t ht x hx
          cases strlcpyLoop_touched.mp hx with
          | inl h =>
            obtain ⟨k, hk, _, rfl⟩ := h
            rw [Nat.zero_add]
            exact accessOk_lt hok hk
          | inr h =>
            rw [ht] at h
            exact absurd h List.not_mem_nil
        have := hbelow ({ s with touched := [] } : Uaccess).enterSum rfl
        simp only [if_true]
        split
        · rename_i hrun
          rw [hrun] at this
          exact this
        · rename_i hrun
          rw [hrun] at this
          exact this
  · obtain ⟨i, hi, _, hge⟩ := h
    have hn : ¬ n ≤ 0 := by omega
    unfold userStrlcpy
    simp only [hn, if_false, hrefuse ⟨i, hi, hge⟩, Bool.false_eq_true]
  · cases hok : accessOk args 8 with
    | false =>
      refine ⟨fun _ => .inl rfl, fun _ => ⟨?_, fun _ p hp => ?_⟩⟩
      · unfold dereferenced userCopyArgs
        simp [hok]
      · unfold userCopyArgs at hp
        simp only [hok, Bool.false_eq_true, if_false] at hp
        cases hp
        rfl
    | true =>
      cases halloc : s.mm.kmalloc argMax with
      | error e =>
        refine ⟨fun _ => .inr (.inl ⟨e, rfl⟩), fun _ => ⟨?_, fun _ p hp => ?_⟩⟩
        · unfold dereferenced userCopyArgs
          simp [hok, halloc]
        · unfold userCopyArgs at hp
          simp only [hok, if_true, halloc] at hp
          exact nomatch hp
      | ok r =>
        rw [userCopyArgs_below hok halloc]
        refine ⟨fun h => .inr (.inr h.1), fun h => ?_⟩
        rcases h with h | ⟨e, h⟩ | h
        · exact nomatch h
        · exact nomatch h
        · exact ⟨h, fun hnot => absurd h hnot⟩

/-- a user memory with an array at 0x1000 that holds the address `SPLIT` -/
def kernelPointer : Uaccess where
  mm := Mm.init fun _ => 0
  user := fun x => if x < 0x1000 then none else if x = 0x1004 then some 0x3f else some 0
  writable := fun _ => false
  mayPageFault := false
  sum := false
  touched := []

/-- user_copy_args dereferences the address `SPLIT` for a user who puts it into the array -/
theorem user_copy_args_escapes :
    ¬ ∀ x ∈ dereferenced (userCopyArgs 0x1000) kernelPointer, x < splitAddr := by
  have hinit : kernelPointer.mm.Ok := Mm.init_ok fun _ => 0
  obtain ⟨buf, mm, halloc⟩ := hinit.kmalloc_succeeds nofun (by decide) (show argMax ≤ 4092 by decide)
  have h0 : slot kernelPointer.user 0x1000 0 = some splitAddr := by decide
  have h1 : slot kernelPointer.user 0x1000 1 = some 0 := by decide
  have hvec : IsVector kernelPointer.user 0x1000 1 := by
    refine ⟨fun i hi => ?_, h1⟩
    obtain rfl : i = 0 := by omega
    exact ⟨splitAddr, h0, by decide⟩
  rw [userCopyArgs_below (by decide) halloc]
  intro h
  have := h.strings 1 hvec (by decide) 0 16 .refl (by decide) splitAddr h0 0 (by decide) nofun
  exact absurd this (by decide)

end Uaccess

end FakeKernel
