import FakeKernel.Kernel.Supply
import Mathlib.Algebra.BigOperators.Intervals

/-!
# The arguments of a program (kernel/elf.c, kernel/string.c)

* `StringAt`, `Strings`, `argBytes`   a string, a NULL-terminated vector of strings, and its bytes;
* `countArgs_spec`                    what the loops that count find;
* `strlcpyFrom_spec`                  one string is copied;
* `argOff`, `Table`, `copyArgs_spec`  where the strings go, and what the loops that copy leave;
* `initArgs_tables`                   what task_init_elf leaves on the page of the stack;
* `Strings.initArgs_ok`               vectors that fit are copied.
-/

namespace FakeKernel
open Bytes Mm Heap

variable {h : Heap} {own : Owners} {q : TaskList → List Nat} {m m' : Mem} {s size argv argc envp envc i j k n p t x : Nat}
  {len len' : Nat → Nat}

/-! ## strings -/

/-- a string of `len` bytes at `s` -/
structure StringAt (m : Mem) (s len : Nat) : Prop where
  set : ∀ i < len, m (s + i) ≠ 0
  stop : m (s + len) = 0

theorem StringAt.congr {len : Nat} (hs : StringAt m s len) (hm : ∀ i ≤ len, m' (s + i) = m (s + i)) :
    StringAt m' s len := by
  refine ⟨fun i hi => ?_, ?_⟩
  · rw [hm i (Nat.le_of_lt hi)]
    exact hs.set i hi
  · rw [hm len (Nat.le_refl len)]
    exact hs.stop

theorem strlenFrom_ok {len fuel : Nat} (hs : StringAt m s len) (hin : ∀ j ≤ len, inDirectMap (s + j) = true)
    (hi : i ≤ len) (hfuel : len < i + fuel) : strlenFrom m s fuel i = .ok len := by
  induction fuel generalizing i with
  | zero => omega
  | succ fuel ih =>
    unfold strlenFrom
    rw [if_pos (hin i hi)]
    by_cases he : i = len
    · subst he
      rw [if_pos hs.stop]
    · have hlt : i < len := by omega
      rw [if_neg (hs.set i hlt)]
      exact ih (by omega) (by omega)

/-- strlen returns nothing else -/
theorem strlenFrom_eq {len fuel r : Nat} (hs : StringAt m s len) (hi : i ≤ len) (hrun : strlenFrom m s fuel i = .ok r) :
    r = len := by
  induction fuel generalizing i with
  | zero => exact nomatch hrun
  | succ fuel ih =>
    unfold strlenFrom at hrun
    by_cases hin : inDirectMap (s + i) = true
    · rw [if_pos hin] at hrun
      by_cases he : i = len
      · subst he
        rw [if_pos hs.stop] at hrun
        exact (Except.ok.inj hrun).symm
      · have hlt : i < len := by omega
        rw [if_neg (hs.set i hlt)] at hrun
        exact ih hlt hrun
    · rw [if_neg hin] at hrun
      exact absurd hrun Res.panic_ne_ok

/-- strlcpy copies a string that fits, and its NUL -/
theorem strlcpyFrom_spec {dest src size len r i : Nat} (hs : StringAt m src len)
    (hdis : ∀ j ≤ len, ¬ (dest ≤ src + j ∧ src + j ≤ dest + len)) (hi : i ≤ len) (hr : len < i + r) :
    (strlcpyFrom dest src size r i m).1 = len ∧
    (∀ j, i ≤ j → j ≤ len → (strlcpyFrom dest src size r i m).2 (dest + j) = m (src + j)) ∧
    ∀ x, ¬ (dest + i ≤ x ∧ x ≤ dest + len) → (strlcpyFrom dest src size r i m).2 x = m x := by
  induction r generalizing i m with
  | zero => omega
  | succ r ih =>
    obtain ⟨m₁, hm₁⟩ : ∃ m₁, m₁ = Function.update m (dest + i) (m (src + i)) := ⟨_, rfl⟩
    have hsame : ∀ j ≤ len, m₁ (src + j) = m (src + j) := by
      intro j hj
      have hne : src + j ≠ dest + i := fun he => hdis j hj (by omega)
      rw [hm₁, Function.update_of_ne hne]
    have hself : m₁ (dest + i) = m (src + i) := by rw [hm₁, Function.update_self]
    have hother : ∀ x, x ≠ dest + i → m₁ x = m x := fun x hx => by rw [hm₁, Function.update_of_ne hx]
    unfold strlcpyFrom
    simp only [← hm₁, hsame i hi]
    by_cases he : i = len
    · subst he
      rw [if_pos hs.stop]
      refine ⟨rfl, fun j h1 h2 => ?_, fun x hx => hother x (by omega)⟩
      have hj : j = i := Nat.le_antisymm h2 h1
      rw [hj]
      exact hself
    · have hlt : i < len := by omega
      rw [if_neg (hs.set i hlt)]
      obtain ⟨hlen, hcopy, hout⟩ := ih (hs.congr hsame) hlt (by omega)
      refine ⟨hlen, fun j h1 h2 => ?_, fun x hx => ?_⟩
      · by_cases hj : j = i
        · rw [hj, hout _ (by omega), hself]
        · rw [hcopy j (by omega) h2, hsame j h2]
      · rw [hout x (by omega), hother x (by omega)]

/-! ## vectors -/

/-- a NULL-terminated vector of strings of these lengths -/
structure Strings (m : Mem) (argv argc : Nat) (len : Nat → Nat) : Prop where
  set : ∀ i < argc, load 8 m (argv + 8 * i) ≠ 0
  string : ∀ i < argc, StringAt m (load 8 m (argv + 8 * i)) (len i)
  stop : load 8 m (argv + 8 * argc) = 0

/-- the bytes of the vector and of its strings -/
def argBytes (m : Mem) (argv argc : Nat) (len : Nat → Nat) : Set Nat :=
  {x | (argv ≤ x ∧ x < argv + 8 * (argc + 1)) ∨
    ∃ i < argc, load 8 m (argv + 8 * i) ≤ x ∧ x ≤ load 8 m (argv + 8 * i) + len i}

theorem argBytes_string (hi : i < argc) (hk : k ≤ len i) : load 8 m (argv + 8 * i) + k ∈ argBytes m argv argc len :=
  .inr ⟨i, hi, Nat.le_add_right _ _, Nat.add_le_add_left hk _⟩

theorem argBytes_slot (hi : i ≤ argc) (hk : k < 8) : argv + 8 * i + k ∈ argBytes m argv argc len :=
  .inl (by omega)

theorem slot_congr (hm : ∀ x ∈ argBytes m argv argc len, m' x = m x) (hi : i ≤ argc) :
    load 8 m' (argv + 8 * i) = load 8 m (argv + 8 * i) :=
  load_congr fun x h1 h2 => hm x (.inl (by omega))

theorem argBytes_congr (hm : ∀ x ∈ argBytes m argv argc len, m' x = m x) :
    argBytes m' argv argc len = argBytes m argv argc len := by
  ext x
  refine or_congr Iff.rfl (exists_congr fun i => and_congr_right fun hi => ?_)
  rw [slot_congr hm (Nat.le_of_lt hi)]

theorem Strings.congr (hs : Strings m argv argc len) (hm : ∀ x ∈ argBytes m argv argc len, m' x = m x) :
    Strings m' argv argc len := by
  refine ⟨fun i hi => ?_, fun i hi => ?_, ?_⟩
  · rw [slot_congr hm (Nat.le_of_lt hi)]
    exact hs.set i hi
  · rw [slot_congr hm (Nat.le_of_lt hi)]
    exact (hs.string i hi).congr fun k hk => hm _ (argBytes_string hi hk)
  · rw [slot_congr hm (Nat.le_refl argc)]
    exact hs.stop

/-! ## counting -/

/-- the offset of the `i`-th of `n` strings that end at the offset `low` -/
def argOff (len : Nat → Nat) (n low i : Nat) : Nat := low + ∑ k ∈ Finset.Ico i n, (len k + 1)

theorem argOff_self {low : Nat} : argOff len n low n = low := by
  unfold argOff
  rw [Finset.Ico_self, Finset.sum_empty, Nat.add_zero]

theorem argOff_succ {low : Nat} (hi : i < n) : argOff len n low i = argOff len n low (i + 1) + (len i + 1) := by
  unfold argOff
  rw [Finset.sum_eq_sum_Ico_succ_bot hi]
  omega

theorem argOff_add {low : Nat} : argOff len n (low + k) i = argOff len n low i + k := by
  unfold argOff
  omega

theorem argOff_le {low : Nat} (hij : i ≤ j) (hj : j ≤ n) : argOff len n low j ≤ argOff len n low i := by
  induction hij using Nat.decreasingInduction with
  | self => exact Nat.le_refl _
  | of_succ k hk ih =>
    have hstep : argOff len n low k = argOff len n low (k + 1) + (len k + 1) := argOff_succ (by omega)
    omega

theorem low_le_argOff {low : Nat} : low ≤ argOff len n low i := Nat.le_add_right _ _

/-- what is counted is the number of strings and their sizes -/
theorem countArgs_spec {fuel c r : Nat} (hs : Strings m argv argc len) (hi : i ≤ argc)
    (hrun : countArgs m argv fuel i size = .ok (c, r)) : c = argc ∧ r = argOff len argc size i := by
  induction fuel generalizing i size with
  | zero => exact nomatch hrun
  | succ fuel ih =>
    unfold countArgs at hrun
    by_cases hin : inDirectMap (argv + 8 * i) = true
    · rw [if_pos hin] at hrun
      simp only at hrun
      by_cases he : i = argc
      · subst he
        rw [if_pos hs.stop] at hrun
        obtain ⟨hc, hr⟩ := Prod.mk.inj (Except.ok.inj hrun)
        rw [argOff_self]
        exact ⟨hc.symm, hr.symm⟩
      · have hlt : i < argc := by omega
        rw [if_neg (hs.set i hlt)] at hrun
        obtain ⟨l, hlen, hrun⟩ := Res.bind_eq_ok.mp hrun
        obtain ⟨hc, hr⟩ := ih hlt hrun
        rw [strlenFrom_eq (hs.string i hlt) (Nat.zero_le _) hlen, argOff_add] at hr
        rw [argOff_succ hlt]
        exact ⟨hc, hr⟩
    · rw [if_neg hin] at hrun
      exact absurd hrun Res.panic_ne_ok

theorem countArgs_ok {fuel : Nat} (size : Nat) (hs : Strings m argv argc len)
    (hin : ∀ x ∈ argBytes m argv argc len, inDirectMap x = true) (hi : i ≤ argc) (hfuel : argc < i + fuel) :
    countArgs m argv fuel i size = .ok (argc, argOff len argc size i) := by
  induction fuel generalizing i size with
  | zero => omega
  | succ fuel ih =>
    have hslot : inDirectMap (argv + 8 * i) = true := hin _ (argBytes_slot hi (by decide : 0 < 8))
    unfold countArgs
    rw [if_pos hslot]
    simp only
    by_cases he : i = argc
    · subst he
      rw [if_pos hs.stop, argOff_self]
    · have hlt : i < argc := by omega
      have hshort : len i < wordCount := by
        have hend := hin _ (argBytes_string hlt (Nat.le_refl (len i)))
        unfold inDirectMap at hend
        rw [Bool.and_eq_true, decide_eq_true_eq, decide_eq_true_eq] at hend
        have hstop : kernStop < wordCount := by decide
        omega
      have hlen := strlenFrom_ok (hs.string i hlt) (fun j hj => hin _ (argBytes_string hlt hj)) (Nat.zero_le _)
        (by omega : len i < 0 + wordCount)
      rw [if_neg (hs.set i hlt), hlen, Res.ok_bind, ih _ hlt (by omega), argOff_succ hlt, argOff_add]

/-! ## copying -/

/-- the table at the offset `off` holds the addresses of copies of the strings, which end at the offset `low` -/
def Table (m m' : Mem) (stack off low argv argc : Nat) (len : Nat → Nat) : Prop :=
  ∀ j < argc, load 8 m' (stack - off + 8 * j) = userStackAddr (argOff len argc low j) % 256 ^ 8 ∧
    ∀ k ≤ len j, m' (stack - argOff len argc low j + k) = m (load 8 m (argv + 8 * j) + k)

/-- the table is filled, and the strings are copied below it -/
theorem copyArgs_spec (table low : Nat) (hs : Strings m argv argc len) (hin : i + n = argc)
    (hpage : ∀ x ∈ argBytes m argv argc len, ¬ onPage p x) (htable : p ≤ table ∧ table + 8 * argc ≤ p + pageSize)
    (hlow : p + pageSize ≤ table + low) (hsize : argOff len argc low i ≤ pageSize) :
    ∃ m', copyArgs argv (p + pageSize) table n i (argOff len argc low i) m = .ok (low, m') ∧
    (∀ j, i ≤ j → j < argc → load 8 m' (table + 8 * j) = userStackAddr (argOff len argc low j) % 256 ^ 8 ∧
      ∀ k ≤ len j, m' (p + pageSize - argOff len argc low j + k) = m (load 8 m (argv + 8 * j) + k)) ∧
    ∀ x, ¬ (table + 8 * i ≤ x ∧ x < table + 8 * argc) →
      ¬ (p + pageSize ≤ x + argOff len argc low i ∧ x + low < p + pageSize) → m' x = m x := by
  induction n generalizing i m with
  | zero =>
    have hi : i = argc := hin
    rw [hi, argOff_self]
    exact ⟨m, rfl, fun j h1 h2 => by omega, fun _ _ _ => rfl⟩
  | succ n ih =>
    have hlt : i < argc := by omega
    have hoff : argOff len argc low i = argOff len argc low (i + 1) + (len i + 1) := argOff_succ hlt
    have hnext : low ≤ argOff len argc low (i + 1) := low_le_argOff
    obtain ⟨off, ho⟩ : ∃ off, off = argOff len argc low i := ⟨_, rfl⟩
    obtain ⟨off', ho'⟩ : ∃ off', off' = argOff len argc low (i + 1) := ⟨_, rfl⟩
    rw [← ho, ← ho'] at hoff
    rw [← ho] at hsize
    rw [← ho'] at hnext
    obtain ⟨m₁, hm₁⟩ : ∃ m₁, m₁ = store 8 m (table + 8 * i) (userStackAddr off) := ⟨_, rfl⟩
    have hout₁ : ∀ x, ¬ (table + 8 * i ≤ x ∧ x < table + 8 * i + 8) → m₁ x = m x := by
      intro x hx
      rw [hm₁]
      exact store_apply_out (by omega)
    have harg₁ : ∀ x ∈ argBytes m argv argc len, m₁ x = m x := by
      intro x hx
      have hoffPage := hpage x hx
      unfold onPage at hoffPage
      exact hout₁ x (by omega)
    have hs₁ := hs.congr harg₁
    have hslot₁ : load 8 m₁ (argv + 8 * i) = load 8 m (argv + 8 * i) := slot_congr harg₁ (Nat.le_of_lt hlt)
    obtain ⟨src, hsrc⟩ : ∃ src, src = load 8 m (argv + 8 * i) := ⟨_, rfl⟩
    have hstr : StringAt m₁ src (len i) := by
      rw [hsrc, ← hslot₁]
      exact hs₁.string i hlt
    have hsrcPage : ∀ k ≤ len i, ¬ onPage p (src + k) := fun k hk => by
      rw [hsrc]
      exact hpage _ (argBytes_string hlt hk)
    obtain ⟨r, hr⟩ : ∃ r, r = strlcpyFrom (p + pageSize - off) src off off 0 m₁ := ⟨_, rfl⟩
    obtain ⟨hlen, hcopy, hout₂⟩ := @strlcpyFrom_spec m₁ (p + pageSize - off) src off (len i) off 0 hstr
      (fun k hk hin => hsrcPage k hk (by unfold onPage; omega)) (Nat.zero_le _) (by omega)
    rw [← hr] at hlen hcopy hout₂
    have harg : ∀ x ∈ argBytes m argv argc len, r.2 x = m x := by
      intro x hx
      have hoffPage := hpage x hx
      unfold onPage at hoffPage
      rw [hout₂ x (by omega), harg₁ x hx]
    have hslot : ∀ j < argc, load 8 r.2 (argv + 8 * j) = load 8 m (argv + 8 * j) := fun j hj =>
      slot_congr harg (Nat.le_of_lt hj)
    obtain ⟨m', hrun, hdone, hframe⟩ := ih (hs.congr harg) (by omega : i + 1 + n = argc)
      (fun x hx => hpage x (by rwa [argBytes_congr harg] at hx)) (by rw [← ho']; omega)
    rw [← ho'] at hrun hframe
    have hcpy : strlcpy (p + pageSize - off) src off m₁ = .ok r := by
      have hword : pageSize < wordCount / 2 := by decide
      unfold strlcpy
      rw [if_pos (by omega), hr]
    refine ⟨m', ?_, fun j h1 h2 => ?_, fun x hx1 hx2 => ?_⟩
    · unfold copyArgs
      rw [← ho, ← hm₁]
      simp only [hslot₁, ← hsrc, hcpy, Res.ok_bind, hlen]
      have hmod : (off + wordCount - (len i + 1)) % wordCount = off' := by
        have hword : pageSize < wordCount := by decide
        unfold wordCount at *
        omega
      rw [hmod]
      exact hrun
    · by_cases hj : j = i
      · subst hj
        rw [← ho]
        refine ⟨?_, fun k hk => ?_⟩
        · have hsame : load 8 m' (table + 8 * j) = load 8 m₁ (table + 8 * j) := by
            refine load_congr fun x hx1 hx2 => ?_
            rw [hframe x (by omega) (by omega), hout₂ x (by omega)]
          rw [hsame, hm₁, load_store]
        · rw [hframe _ (by omega) (by omega), hcopy k (Nat.zero_le k) hk, ← hsrc, hout₁]
          have hk' := hsrcPage k hk
          unfold onPage at hk'
          omega
      · obtain ⟨hword, hbytes⟩ := hdone j (by omega) h2
        refine ⟨hword, fun k hk => ?_⟩
        rw [hbytes k hk, hslot j h2]
        exact harg _ (argBytes_string h2 hk)
    · rw [hframe x (by omega) (by omega), hout₂ x (by omega), hout₁ x (by omega)]

/-- the two loops of task_init_elf that copy -/
theorem copyArgs_both {low : Nat} (hs : Strings m argv argc len) (hs' : Strings m envp envc len')
    (hpage : ∀ x ∈ argBytes m argv argc len, ¬ onPage p x) (hpage' : ∀ x ∈ argBytes m envp envc len', ¬ onPage p x)
    (hlow : low = 8 * (argc + envc + 2)) (hsize : argOff len argc (argOff len' envc low 0) 0 ≤ pageSize) : ∃ m₁ m₂,
    copyArgs argv (p + pageSize) (p + pageSize - low) argc 0 (argOff len argc (argOff len' envc low 0) 0) m
      = .ok (argOff len' envc low 0, m₁) ∧
    copyArgs envp (p + pageSize) (p + pageSize - 8 * (envc + 2)) envc 0 (argOff len' envc low 0) m₁ = .ok (low, m₂) ∧
    Table m m₂ (p + pageSize) low (argOff len' envc low 0) argv argc len ∧
    Table m m₂ (p + pageSize) (8 * (envc + 2)) low envp envc len' ∧
    (∀ x, p + pageSize ≤ x + 16 → x < p + pageSize → m₂ x = m x) ∧ ∀ x, ¬ onPage p x → m₂ x = m x := by
  obtain ⟨mid, hmid⟩ : ∃ mid, mid = argOff len' envc low 0 := ⟨_, rfl⟩
  rw [← hmid] at hsize ⊢
  have hge : low ≤ mid := hmid ▸ low_le_argOff
  have hle : mid ≤ argOff len argc mid 0 := low_le_argOff
  obtain ⟨m₁, hrun₁, hdone₁, hframe₁⟩ := copyArgs_spec (p + pageSize - low) mid hs (Nat.zero_add argc)
    hpage (by omega) (by omega) hsize
  have hout₁ : ∀ x, ¬ onPage p x → m₁ x = m x := by
    intro x hx
    unfold onPage at hx
    exact hframe₁ x (by omega) (by omega)
  have harg₁ : ∀ x ∈ argBytes m envp envc len', m₁ x = m x := fun x hx => hout₁ x (hpage' x hx)
  obtain ⟨m₂, hrun₂, hdone₂, hframe₂⟩ := copyArgs_spec (p + pageSize - 8 * (envc + 2)) low
    (hs'.congr harg₁) (Nat.zero_add envc) (fun x hx => hpage' x (by rwa [argBytes_congr harg₁] at hx)) (by omega)
    (by omega) (by rw [← hmid]; omega)
  rw [← hmid] at hrun₂ hframe₂
  refine ⟨m₁, m₂, hrun₁, hrun₂, fun j hj => ?_, fun j hj => ?_, fun x h1 h2 => ?_, fun x hx => ?_⟩
  · obtain ⟨hword, hbytes⟩ := hdone₁ j (Nat.zero_le j) hj
    have hoff : argOff len argc mid j = argOff len argc mid (j + 1) + (len j + 1) := argOff_succ hj
    have hnext : mid ≤ argOff len argc mid (j + 1) := low_le_argOff
    have hfirst : argOff len argc mid j ≤ argOff len argc mid 0 := argOff_le (Nat.zero_le j) (Nat.le_of_lt hj)
    refine ⟨?_, fun k hk => ?_⟩
    · rw [← hword]
      exact load_congr fun x h1 h2 => hframe₂ x (by omega) (by omega)
    · rw [← hbytes k hk]
      exact hframe₂ _ (by omega) (by omega)
  · obtain ⟨hword, hbytes⟩ := hdone₂ j (Nat.zero_le j) hj
    refine ⟨hword, fun k hk => ?_⟩
    rw [hbytes k hk, slot_congr harg₁ (Nat.le_of_lt hj)]
    exact harg₁ _ (argBytes_string hj hk)
  · rw [hframe₂ x (by omega) (by omega), hframe₁ x (by omega) (by omega)]
  · rw [← hout₁ x hx]
    unfold onPage at hx
    exact hframe₂ x (by omega) (by omega)

/-! ## task_init_elf behind load_elf -/

/-- what task_init_elf leaves on the page of the stack and in the registers -/
theorem initArgs_tables {h' : Heap} {err : Int} {low : Nat} (hs : Strings h.mm.mem argv argc len)
    (hs' : Strings h.mm.mem envp envc len') (hpage : ∀ x ∈ argBytes h.mm.mem argv argc len, ¬ onPage (h.lastPage t) x)
    (hpage' : ∀ x ∈ argBytes h.mm.mem envp envc len', ¬ onPage (h.lastPage t) x) (hlow : low = 8 * (argc + envc + 2))
    (hrun : h.initArgs t argv envp = .ok (err, h')) : ∃ mem frame,
    h' = ({ h with mm := h.mm.setMem mem } : Heap).setFrame t frame ∧ frame.registers REG_A0 = argc ∧
    frame.registers REG_A1 = userStackAddr low ∧ frame.registers REG_A2 = userStackAddr (8 * (envc + 2)) ∧
    frame.registers REG_SP = userStack - (argOff len argc (argOff len' envc low 0) 0 + 15) / 16 * 16 ∧
    argOff len argc (argOff len' envc low 0) 0 ≤ pageSize ∧
    Table h.mm.mem mem (h.lastPage t + pageSize) low (argOff len' envc low 0) argv argc len ∧
    Table h.mm.mem mem (h.lastPage t + pageSize) (8 * (envc + 2)) low envp envc len' ∧
    (∀ x, h.lastPage t + pageSize ≤ x + 16 → x < h.lastPage t + pageSize → mem x = h.mm.mem x) ∧
    ∀ x, ¬ onPage (h.lastPage t) x → mem x = h.mm.mem x := by
  unfold initArgs at hrun
  obtain ⟨⟨c, r⟩, hcount, hrun⟩ := Res.bind_eq_ok.mp hrun
  obtain ⟨⟨c', r'⟩, hcount', hrun⟩ := Res.bind_eq_ok.mp hrun
  obtain ⟨hc, hr⟩ := countArgs_spec hs (Nat.zero_le argc) hcount
  obtain ⟨hc', hr'⟩ := countArgs_spec hs' (Nat.zero_le envc) hcount'
  subst hc hc'
  have hsize : r' + 8 * (c + c' + 2) = argOff len c (argOff len' c' low 0) 0 := by
    rw [hr', hr, hlow]
    unfold argOff
    omega
  simp only [hsize] at hrun
  by_cases hbig : pageSize < argOff len c (argOff len' c' low 0) 0
  · rw [if_pos hbig] at hrun
    exact absurd hrun Res.panic_ne_ok
  rw [if_neg hbig] at hrun
  obtain ⟨_, _, hrun⟩ := Res.bind_eq_ok.mp hrun
  obtain ⟨_, _, hrun⟩ := Res.bind_eq_ok.mp hrun
  obtain ⟨_, _, hrun⟩ := Res.bind_eq_ok.mp hrun
  obtain ⟨m₁, m₂, hcopy₁, hcopy₂, htable, htable', hrest, hout⟩ :=
    copyArgs_both hs hs' hpage hpage' hlow (Nat.not_lt.mp hbig)
  rw [hlow] at hcopy₁ hcopy₂ hrun
  obtain ⟨⟨off₁, m₁'⟩, hrun₁, hrun⟩ := Res.bind_eq_ok.mp hrun
  obtain ⟨rfl, rfl⟩ := Prod.mk.inj (Except.ok.inj (hrun₁.symm.trans hcopy₁))
  obtain ⟨⟨off₂, m₂'⟩, hrun₂, hrun⟩ := Res.bind_eq_ok.mp hrun
  obtain ⟨rfl, rfl⟩ := Prod.mk.inj (Except.ok.inj (hrun₂.symm.trans hcopy₂))
  obtain ⟨_, _, hret⟩ := Res.bind_eq_ok.mp hrun
  refine ⟨m₂', _, (Prod.mk.inj (Except.ok.inj hret)).2.symm, rfl, ?_, rfl, ?_, Nat.not_lt.mp hbig, htable, htable', hrest, hout⟩
  · rw [hlow]
    rfl
  · rw [hlow]
    rfl

theorem taskInitElf_eq {program : Nat} {h' : Heap} (hargv : argv ≠ 0) (henvp : envp ≠ 0) (hprogram : program ≠ 0)
    (hload : h.loadElf t program = .ok (0, h')) : h.taskInitElf t program argv envp = h'.initArgs t argv envp := by
  have h1 : kassert (argv != 0 && envp != 0) "task_init_elf with NULL argv or envp" = .ok () := by
    rw [bne_iff_ne.mpr hargv, bne_iff_ne.mpr henvp]
    rfl
  have h2 : kassert (program != 0) "task_init_elf with NULL program" = .ok () := by
    rw [bne_iff_ne.mpr hprogram]
    rfl
  unfold taskInitElf
  rw [h1, Res.ok_bind, h2, Res.ok_bind, hload, Res.ok_bind]
  rfl

theorem onPage_usable (hp : p ∈ usable) (hdvd : pageSize ∣ p) (hx : onPage p x) : x ∈ usable := by
  have h1 : kernPhyBase + 2 ^ 20 ≤ p := hp.1
  have h2 : p < kernPhyBase + 2 ^ 22 := hp.2
  refine ⟨Nat.le_trans h1 hx.1, ?_⟩
  have h3 := hx.2
  show x < kernPhyBase + 2 ^ 22
  unfold kernPhyBase kernBase splitAddr at *
  unfold pageSize at *
  omega

/-- the arguments of a vector in the direct map are counted -/
theorem Strings.count (hs : Strings m argv argc len) (hin : ∀ x ∈ argBytes m argv argc len, inDirectMap x = true) (size : Nat) :
    countArgs m argv wordCount 0 size = .ok (argc, argOff len argc size 0) := by
  refine countArgs_ok size hs hin (Nat.zero_le argc) ?_
  have hlast := hin _ (argBytes_slot (Nat.le_refl argc) (by decide : 0 < 8))
  unfold inDirectMap at hlast
  rw [Bool.and_eq_true, decide_eq_true_eq, decide_eq_true_eq] at hlast
  have hstop : kernStop < wordCount := by decide
  omega

theorem argOff_both {low : Nat} : argOff len' envc (argOff len argc 0 0) 0 + low = argOff len argc (argOff len' envc low 0) 0 := by
  unfold argOff
  omega

/-- vectors that fit are copied to the page of the stack -/
theorem Heap.StackReady.strings (hr : h.StackReady t) (hs : Strings h.mm.mem argv argc len) (hs' : Strings h.mm.mem envp envc len')
    (hin : ∀ x ∈ argBytes h.mm.mem argv argc len, inDirectMap x = true ∧ ¬ onPage (h.lastPage t) x)
    (hin' : ∀ x ∈ argBytes h.mm.mem envp envc len', inDirectMap x = true ∧ ¬ onPage (h.lastPage t) x)
    (hsize : argOff len argc (argOff len' envc (8 * (argc + envc + 2)) 0) 0 ≤ pageSize) :
    ∃ h', h.initArgs t argv envp = .ok (0, h') := by
  have hcount := hs.count (fun x hx => (hin x hx).1) 0
  have hcount' := hs'.count (fun x hx => (hin' x hx).1) (argOff len argc 0 0)
  have hsum : argOff len' envc (argOff len argc 0 0) 0 + 8 * (argc + envc + 2)
      = argOff len argc (argOff len' envc (8 * (argc + envc + 2)) 0) 0 := argOff_both
  obtain ⟨m₁, m₂, hrun₁, hrun₂, _⟩ := copyArgs_both hs hs' (fun x hx => (hin x hx).2) (fun x hx => (hin' x hx).2) rfl hsize
  rw [← hsum] at hrun₁
  exact hr.initArgs hcount hcount' (hsum ▸ hsize) hrun₁ hrun₂

/-- others end in a panic -/
theorem initArgs_big (hs : Strings h.mm.mem argv argc len) (hs' : Strings h.mm.mem envp envc len')
    (hin : ∀ x ∈ argBytes h.mm.mem argv argc len, inDirectMap x = true)
    (hin' : ∀ x ∈ argBytes h.mm.mem envp envc len', inDirectMap x = true)
    (hbig : pageSize < argOff len argc (argOff len' envc (8 * (argc + envc + 2)) 0) 0) :
    h.initArgs t argv envp = panic "argv too big" := by
  rw [← argOff_both] at hbig
  unfold initArgs
  rw [hs.count hin, Res.ok_bind]
  simp only
  rw [hs'.count hin', Res.ok_bind]
  exact if_pos hbig

/-- vectors outside of the memory that is handed out are copied if they fit -/
theorem Strings.initArgs_ok {ns : List Nat} {b : Bool} (hb : Booked h own t (ns ++ [n])) (hw : World h own q)
    (ht : t ∈ h.live) (hx : h.areaOf n = stackArea b) (hs : Strings h.mm.mem argv argc len)
    (hs' : Strings h.mm.mem envp envc len')
    (hin : ∀ x ∈ argBytes h.mm.mem argv argc len, inDirectMap x = true ∧ x ∉ usable)
    (hin' : ∀ x ∈ argBytes h.mm.mem envp envc len', inDirectMap x = true ∧ x ∉ usable)
    (hsize : argOff len argc (argOff len' envc (8 * (argc + envc + 2)) 0) 0 ≤ pageSize) :
    ∃ h', h.initArgs t argv envp = .ok (0, h') := by
  obtain ⟨hr, hdvd, hp⟩ := hb.stackReady hw ht hx
  exact hr.strings hs hs' (fun x hx => ⟨(hin x hx).1, fun hon => (hin x hx).2 (onPage_usable hp hdvd hon)⟩)
    (fun x hx => ⟨(hin' x hx).1, fun hon => (hin' x hx).2 (onPage_usable hp hdvd hon)⟩) hsize

end FakeKernel
