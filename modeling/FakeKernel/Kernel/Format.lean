import FakeKernel.Kernel.Printf

/-!
# The format of vprintk (kernel/printf.c)

A directive whose conversion character is the NUL leaves the outer loop behind the end of the format,
and `case 'u'` does not end its directive.  These are the two ways in which a format goes wrong.

* `FormatAt`, `wellFormed`      a format in memory, and the formats whose directives are complete;
* `switch_spec`, `scanInt_run`  one conversion character, and one width;
* `directive_cases`             what the inner loop leaves;
* `vprintk_iff`, `vprintk_returns`, `vprintk_stays`   the whole format.
-/

namespace FakeKernel
open Bytes

variable {env : PrintkEnv} {mem : Mem} {a n m k : Nat} {c : UInt8} {l t : List UInt8} {d d' : Directive}
  {s s' s₁ : Printk} {i v : BitVec 32}

/-- the string of the bytes `l` at `a` -/
def FormatAt (mem : Mem) : Nat → List UInt8 → Prop
  | a, [] => mem a = 0
  | a, c :: l => mem a = c ∧ c ≠ 0 ∧ FormatAt mem (a + 1) l

/-- every directive has its conversion character, and it is not `u`; the flag says whether the bytes are
those of a directive -/
def wellFormed : Bool → List UInt8 → Bool
  | inside, [] => !inside
  | false, c :: l => wellFormed (c == '%'.toUInt8) l
  | true, c :: l =>
    if isdigit c || c == 'l'.toUInt8 then wellFormed true l else c != 'u'.toUInt8 && wellFormed false l

/-! ## fuel -/

theorem scanSign_mono {sign : BitVec 32} {r : BitVec 32 × UInt8 × Printk} (hnm : n ≤ m)
    (h : scanSign mem n sign s = some r) : scanSign mem m sign s = some r := by
  induction n generalizing m sign s with
  | zero => exact nomatch h
  | succ n ih =>
    obtain ⟨m, rfl⟩ : ∃ k, m = k + 1 := ⟨m - 1, by omega⟩
    rw [scanSign] at h ⊢
    by_cases hd : isdigit (mem s.fmt) = true
    · rw [if_pos hd] at h ⊢
      exact h
    · rw [if_neg hd] at h ⊢
      exact ih (by omega) h

theorem scanDigits_mono {r : BitVec 32 × Printk} (hnm : n ≤ m) (h : scanDigits mem n i c s = some r) :
    scanDigits mem m i c s = some r := by
  induction n generalizing m i c s with
  | zero => exact nomatch h
  | succ n ih =>
    obtain ⟨m, rfl⟩ : ∃ k, m = k + 1 := ⟨m - 1, by omega⟩
    rw [scanDigits] at h ⊢
    by_cases hd : isdigit (mem s.fmt) = true
    · rw [if_pos hd] at h ⊢
      exact ih (by omega) h
    · rw [if_neg hd] at h ⊢
      exact h

theorem scanInt_mono {r : BitVec 32 × Printk} (hnm : n ≤ m) (h : scanInt mem n s = some r) :
    scanInt mem m s = some r := by
  rw [scanInt] at h ⊢
  obtain ⟨⟨sign, c, s₁⟩, hsign, h⟩ := Option.bind_eq_some_iff.mp h
  obtain ⟨⟨i, s₂⟩, hdigits, h⟩ := Option.bind_eq_some_iff.mp h
  rw [scanSign_mono hnm hsign]
  show (scanDigits mem m 0 c s₁).bind _ = some r
  rw [scanDigits_mono hnm hdigits]
  exact h

/-! ## what is read -/

/-- from `s` to `s'` the format is read up to `e`, and no directive ends -/
structure Walk (e : Nat) (s s' : Printk) : Prop where
  reads : ∃ l, s'.reads = s.reads ++ l ∧ ∀ a ∈ l, a ≤ e
  directives : s'.directives = s.directives

theorem Walk.trans {s₂ : Printk} {e : Nat} (h : Walk e s s₁) (h' : Walk e s₁ s₂) : Walk e s s₂ := by
  obtain ⟨l, hl, hle⟩ := h.reads
  obtain ⟨l', hl', hle'⟩ := h'.reads
  refine ⟨⟨l ++ l', by rw [hl', hl, List.append_assoc], fun a ha => ?_⟩, h'.directives.trans h.directives⟩
  rcases List.mem_append.mp ha with ha | ha
  · exact hle a ha
  · exact hle' a ha

theorem Walk.next {e : Nat} (h : s.fmt ≤ e) : Walk e s s.next :=
  ⟨⟨[s.fmt], rfl, fun _ ha => List.mem_singleton.mp ha ▸ h⟩, rfl⟩

theorem Walk.quiet {e : Nat} (hreads : s'.reads = s.reads) (hdir : s'.directives = s.directives) : Walk e s s' :=
  ⟨⟨[], by rw [hreads, List.append_nil], nofun⟩, hdir⟩

/-- the bytes that are written and the arguments that are consumed stay -/
structure Silent (s s' : Printk) : Prop where
  out : s'.out = s.out
  args : s'.args = s.args

/-! ## scan_int -/

/-- the digits at the front of a string are consumed, and the character behind them is read -/
theorem scanDigits_run {e : Nat} (hf : FormatAt mem s.fmt l) (he : s.fmt + l.length = e) (i : BitVec 32) (c : UInt8) :
    ∃ v s', (∀ n, l.length < n → scanDigits mem n i c s = some (v, s')) ∧
      FormatAt mem s'.fmt (l.dropWhile isdigit) ∧ s'.fmt + (l.dropWhile isdigit).length = e ∧
      Silent s s' ∧ Walk e s s' := by
  -- the end of the loop, whatever the character behind the digits is
  have hstop : ∀ {l : List UInt8} {s : Printk} (i : BitVec 32) (c : UInt8), isdigit (mem s.fmt) = false →
      FormatAt mem s.fmt l → s.fmt + l.length = e → ∃ v s', (∀ n, l.length < n → scanDigits mem n i c s = some (v, s')) ∧
        FormatAt mem s'.fmt l ∧ s'.fmt + l.length = e ∧ Silent s s' ∧ Walk e s s' := by
    intro l s i c hnd hf he
    refine ⟨i * 10 + BitVec.ofNat 32 c.toNat - BitVec.ofNat 32 '0'.toNat, s.next.back, fun n hn => ?_, hf, he, ⟨rfl, rfl⟩,
      (Walk.next (by omega)).trans (Walk.quiet rfl rfl)⟩
    obtain ⟨n, rfl⟩ : ∃ k, n = k + 1 := ⟨n - 1, by omega⟩
    rw [scanDigits, hnd]
    rfl
  induction l generalizing s i c with
  | nil =>
    have hnul : isdigit (mem s.fmt) = false := by
      rw [hf]
      decide
    exact hstop i c hnul hf he
  | cons b l ih =>
    by_cases hd : isdigit b = true
    · obtain ⟨hb, -, hl⟩ := hf
      have hnext : s.next.fmt + l.length = e := by
        rw [List.length_cons] at he
        show s.fmt + 1 + l.length = e
        omega
      obtain ⟨v, s', hrun, hf', hfmt, hsil, hwalk⟩ :=
        ih hl hnext (i * 10 + BitVec.ofNat 32 c.toNat - BitVec.ofNat 32 '0'.toNat) b
      rw [List.dropWhile_cons_of_pos hd]
      refine ⟨v, s', fun n hn => ?_, hf', hfmt, ⟨hsil.out, hsil.args⟩, (Walk.next (by omega)).trans hwalk⟩
      rw [List.length_cons] at hn
      obtain ⟨n, rfl⟩ : ∃ k, n = k + 1 := ⟨n - 1, by omega⟩
      rw [scanDigits, hb, if_pos hd]
      exact hrun n (by omega)
    · rw [List.dropWhile_cons_of_neg hd]
      have hnd : isdigit (mem s.fmt) = false := by
        rw [hf.1]
        exact eq_false_of_ne_true hd
      exact hstop i c hnd hf he

/-- scan_int at a digit -/
theorem scanInt_run {e : Nat} (hf : FormatAt mem s.fmt (c :: l)) (hd : isdigit c = true) (he : s.fmt + (c :: l).length = e) :
    ∃ v s', (∀ n, l.length < n → scanInt mem n s = some (v, s')) ∧
      FormatAt mem s'.fmt (l.dropWhile isdigit) ∧ s'.fmt + (l.dropWhile isdigit).length = e ∧
      Silent s s' ∧ Walk e s s' := by
  obtain ⟨hc, -, hl⟩ := hf
  have hnext : s.next.fmt + l.length = e := by
    rw [List.length_cons] at he
    show s.fmt + 1 + l.length = e
    omega
  obtain ⟨v, s', hrun, hf', hfmt, hsil, hwalk⟩ := scanDigits_run (s := s.next) hl hnext 0 c
  refine ⟨v * 1, s', fun n hn => ?_, hf', hfmt, ⟨hsil.out, hsil.args⟩, (Walk.next (by omega)).trans hwalk⟩
  have hsign : scanSign mem n 1 s = some (1, c, s.next) := by
    obtain ⟨n, rfl⟩ : ∃ k, n = k + 1 := ⟨n - 1, by omega⟩
    rw [scanSign, hc]
    exact if_pos hd
  rw [scanInt, hsign]
  show (scanDigits mem n 0 c s.next).bind _ = _
  rw [hrun n hn]
  rfl

theorem wellFormed_digits (l : List UInt8) : wellFormed true (l.dropWhile isdigit) = wellFormed true l := by
  induction l with
  | nil => rfl
  | cons c l ih =>
    by_cases hd : isdigit c = true
    · rw [List.dropWhile_cons_of_pos hd, ih, wellFormed, hd]
      rfl
    · rw [List.dropWhile_cons_of_neg hd]

/-! ## the switch -/

/-- what one round of the switch does -/
structure Switched (c : UInt8) (d : Directive) (s : Printk) (d' : Directive) (s' : Printk) : Prop where
  fmt : s'.fmt = s.fmt
  quiet : s'.reads = s.reads ∧ s'.directives = s.directives
  args : s'.args = s.args ∨ s'.args = s.args + 1
  done : d'.done = (c != 'u'.toUInt8 && c != 'l'.toUInt8)
  convs : d'.convs = if c = 'l'.toUInt8 then d.convs else d.convs + 1

/-- a conversion that ends its directive -/
theorem Switched.conv {out : List UInt8} {args : Nat} (hu : c ≠ 'u'.toUInt8) (hl : c ≠ 'l'.toUInt8)
    (hargs : args = s.args ∨ args = s.args + 1) (pad : Int) :
    Switched c d s { d with pad := pad, done := true, convs := d.convs + 1 } { s with out := out, args := args } := by
  refine ⟨rfl, ⟨rfl, rfl⟩, hargs, ?_, (if_neg hl).symm⟩
  rw [bne_iff_ne.mpr hu, bne_iff_ne.mpr hl]
  rfl

theorem Switched.ite {b : Prop} [Decidable b] {x y : Directive × Printk} (hx : b → Switched c d s x.1 x.2)
    (hy : ¬ b → Switched c d s y.1 y.2) : Switched c d s (if b then x else y).1 (if b then x else y).2 := by
  by_cases hb : b
  · rw [if_pos hb]
    exact hx hb
  · rw [if_neg hb]
    exact hy hb

theorem switch_spec (env : PrintkEnv) (c : UInt8) (d : Directive) (s : Printk) :
    Switched c d s (s.switch env c d).1 (s.switch env c d).2 := by
  have hends : ∀ {x : UInt8} {out : List UInt8} {args : Nat}, x ≠ 'u'.toUInt8 ∧ x ≠ 'l'.toUInt8 →
      (args = s.args ∨ args = s.args + 1) → c = x → Switched c d s { d with done := true, convs := d.convs + 1 }
        { s with out := out, args := args } :=
    fun hx hargs hc => Switched.conv (hc ▸ hx.1) (hc ▸ hx.2) hargs d.pad
  refine Switched.ite (hends (by decide) (.inl rfl)) fun _ => ?_
  refine Switched.ite (hends (by decide) (.inr rfl)) fun _ => ?_
  refine Switched.ite (hends (by decide) (.inr rfl)) fun _ => ?_
  refine Switched.ite (hends (by decide) (.inr rfl)) fun _ => ?_
  refine Switched.ite (hends (by decide) (.inr rfl)) fun _ => ?_
  refine Switched.ite (fun hu => ?_) fun hu => ?_
  · subst hu
    exact ⟨rfl, ⟨rfl, rfl⟩, .inr rfl, rfl, rfl⟩
  refine Switched.ite (fun hl => ?_) fun hl => ?_
  · subst hl
    exact ⟨rfl, ⟨rfl, rfl⟩, .inl rfl, rfl, rfl⟩
  refine Switched.ite (fun _ => Switched.conv hu hl (.inr rfl) 16) fun _ => ?_
  refine Switched.ite (fun _ => Switched.conv hu hl (.inr rfl) d.pad) fun _ => ?_
  refine Switched.ite (fun _ => Switched.conv hu hl (.inr rfl) d.pad) fun _ => ?_
  refine Switched.ite (fun _ => Switched.conv hu hl (.inl rfl) d.pad) fun _ => ?_
  exact Switched.conv hu hl (.inl rfl) d.pad

/-! ## the inner loop -/

/-- what the inner loop leaves of a format `l`, of which it has read nothing yet, and of its end `e` -/
inductive Scanned (mem : Mem) (e : Nat) (l : List UInt8) (d : Directive) (s : Printk) (d' : Directive) (s' : Printk) : Prop
  | past (bad : wellFormed true l = false) (fmt : e < s'.fmt)
  | twice (bad : wellFormed true l = false) (convs : d.convs + 2 ≤ d'.convs)
  | one (l' : List UInt8) (format : FormatAt mem s'.fmt l') (stop : s'.fmt + l'.length = e) (shorter : l'.length < l.length)
      (same : wellFormed true l = wellFormed false l') (convs : d'.convs = d.convs + 1)
      (args : s'.args = s.args ∨ s'.args = s.args + 1) (walk : Walk e s s')

/-- a flag, a width or an `l` in front -/
theorem Scanned.modifier {e : Nat} {d₁ : Directive} (h : Scanned mem e t d₁ s₁ d' s') (hshorter : t.length ≤ l.length)
    (hsame : wellFormed true l = wellFormed true t) (hconvs : d₁.convs = d.convs) (hargs : s₁.args = s.args)
    (hwalk : Walk e s s₁) : Scanned mem e l d s d' s' := by
  cases h with
  | past bad fmt => exact .past (hsame.trans bad) fmt
  | twice bad convs => exact .twice (hsame.trans bad) (hconvs ▸ convs)
  | one l' format stop shorter same convs args walk =>
    exact .one l' format stop (by omega) (hsame.trans same) (hconvs ▸ convs) (hargs ▸ args) (hwalk.trans walk)

/-- one round of the inner loop -/
theorem directive_succ (env : PrintkEnv) (n : Nat) (d : Directive) (s : Printk) : directive env (n + 1) d s =
    if env.mem s.fmt = '0'.toUInt8 then directive env n { d with flags := d.flags ||| P_ZEROPAD, done := false } s.next
    else if isdigit (env.mem s.fmt) then
      (scanInt env.mem n s.next.back).bind fun r => directive env n { d with pad := r.1.toInt, done := false } r.2
    else if (s.next.switch env (env.mem s.fmt) d).1.done then some (s.next.switch env (env.mem s.fmt) d)
    else directive env n (s.next.switch env (env.mem s.fmt) d).1 (s.next.switch env (env.mem s.fmt) d).2 := rfl

/-- every directive consumes a conversion character -/
theorem directive_convs (hrun : directive env n d s = some (d', s')) : d.convs + 1 ≤ d'.convs := by
  induction n generalizing d s with
  | zero => exact nomatch hrun
  | succ n ih =>
    rw [directive_succ] at hrun
    by_cases h0 : env.mem s.fmt = '0'.toUInt8
    · rw [if_pos h0] at hrun
      have hle := ih hrun
      exact hle
    rw [if_neg h0] at hrun
    by_cases hd : isdigit (env.mem s.fmt) = true
    · rw [if_pos hd] at hrun
      obtain ⟨r, -, hrun⟩ := Option.bind_eq_some_iff.mp hrun
      have hle := ih hrun
      exact hle
    rw [if_neg hd] at hrun
    have hspec := switch_spec env (env.mem s.fmt) d s.next
    obtain ⟨r, hr⟩ : ∃ r, r = s.next.switch env (env.mem s.fmt) d := ⟨_, rfl⟩
    rw [← hr] at hspec hrun
    by_cases hdone : r.1.done = true
    · rw [if_pos hdone] at hrun
      cases hrun
      have hl : env.mem s.fmt ≠ 'l'.toUInt8 := by
        intro hl
        rw [hspec.done, hl] at hdone
        exact absurd hdone (by decide)
      exact (hspec.convs.trans (if_neg hl)).ge
    · rw [if_neg hdone] at hrun
      have hle : d.convs ≤ r.1.convs := by
        rw [hspec.convs]
        split <;> omega
      have hlt := ih hrun
      omega

theorem wellFormed_modifier (h : isdigit c = true ∨ c = 'l'.toUInt8) : wellFormed true (c :: l) = wellFormed true l := by
  rw [wellFormed, if_pos]
  rcases h with h | h
  · rw [h]
    rfl
  · rw [h]
    exact Bool.or_true _

theorem wellFormed_conv (hd : isdigit c = false) (hl : c ≠ 'l'.toUInt8) :
    wellFormed true (c :: l) = (c != 'u'.toUInt8 && wellFormed false l) := by
  rw [wellFormed, if_neg]
  rw [hd, beq_eq_false_iff_ne.mpr hl]
  decide

theorem directive_cases {e : Nat} (hf : FormatAt env.mem s.fmt l) (he : s.fmt + l.length = e)
    (hrun : directive env n d s = some (d', s')) : Scanned env.mem e l d s d' s' := by
  induction n generalizing d s l with
  | zero => exact nomatch hrun
  | succ n ih =>
    have hwalk : Walk e s s.next := Walk.next (by omega)
    rw [directive_succ] at hrun
    cases l with
    | nil =>
      -- the NUL is the conversion character
      have hspec := switch_spec env 0 d s.next
      have hmem : env.mem s.fmt = 0 := hf
      rw [hmem, if_neg (by decide), if_neg (by decide)] at hrun
      have hdone : (s.next.switch env 0 d).1.done = true := hspec.done
      rw [if_pos hdone] at hrun
      obtain ⟨r, hr⟩ : ∃ r, r = s.next.switch env 0 d := ⟨_, rfl⟩
      rw [← hr] at hspec hrun
      cases hrun
      refine .past rfl ?_
      rw [hspec.fmt, ← he]
      exact Nat.lt_succ_self s.fmt
    | cons c l =>
      obtain ⟨hc, hc0, hl⟩ := hf
      have hnext : s.next.fmt + l.length = e := by
        rw [List.length_cons] at he
        show s.fmt + 1 + l.length = e
        omega
      rw [hc] at hrun
      by_cases h0 : c = '0'.toUInt8
      · rw [if_pos h0] at hrun
        have hmod : wellFormed true (c :: l) = wellFormed true l := wellFormed_modifier (.inl (h0 ▸ by decide))
        exact (ih hl hnext hrun).modifier (Nat.le_succ _) hmod rfl rfl hwalk
      rw [if_neg h0] at hrun
      by_cases hd : isdigit c = true
      · rw [if_pos hd] at hrun
        obtain ⟨r, hscan, hrun⟩ := Option.bind_eq_some_iff.mp hrun
        obtain ⟨v, s₂, hints, hf₂, he₂, hsil, hwalk₂⟩ := scanInt_run (s := s.next.back) ⟨hc, hc0, hl⟩ hd he
        have hsame := (scanInt_mono (Nat.le_max_left n (l.length + 1)) hscan).symm.trans (hints _ (by omega))
        cases hsame
        have hmod : wellFormed true (c :: l) = wellFormed true (l.dropWhile isdigit) :=
          (wellFormed_modifier (.inl hd)).trans (wellFormed_digits l).symm
        have hback : Walk e s s.next.back := hwalk.trans (Walk.quiet rfl rfl)
        have hlen : (l.dropWhile isdigit).length ≤ (c :: l).length :=
          (List.dropWhile_sublist isdigit).length_le.trans (Nat.le_succ _)
        exact (ih hf₂ he₂ hrun).modifier hlen hmod rfl hsil.args (hback.trans hwalk₂)
      rw [if_neg hd] at hrun
      have hnd : isdigit c = false := eq_false_of_ne_true hd
      have hspec := switch_spec env c d s.next
      obtain ⟨r, hr⟩ : ∃ r, r = s.next.switch env c d := ⟨_, rfl⟩
      rw [← hr] at hspec hrun
      have hwalk₁ : Walk e s r.2 := hwalk.trans (Walk.quiet hspec.quiet.1 hspec.quiet.2)
      have hf₁ : FormatAt env.mem r.2.fmt l := hspec.fmt ▸ hl
      have he₁ : r.2.fmt + l.length = e := hspec.fmt ▸ hnext
      by_cases hcl : c = 'l'.toUInt8
      · have hdone : r.1.done ≠ true := by
          rw [hspec.done, hcl]
          decide
        rw [if_neg hdone] at hrun
        have hargs : r.2.args = s.args := by
          rw [hr, hcl]
          rfl
        exact (ih hf₁ he₁ hrun).modifier (Nat.le_succ _) (wellFormed_modifier (.inr hcl)) (hspec.convs.trans (if_pos hcl))
          hargs hwalk₁
      have hconvs : r.1.convs = d.convs + 1 := hspec.convs.trans (if_neg hcl)
      by_cases hcu : c = 'u'.toUInt8
      · -- the directive goes on and consumes another conversion character
        have hdone : r.1.done ≠ true := by
          rw [hspec.done, hcu]
          decide
        rw [if_neg hdone] at hrun
        have hmore := directive_convs hrun
        refine .twice ?_ (by omega)
        rw [wellFormed_conv hnd hcl, hcu]
        rfl
      · have hdone : r.1.done = true := by
          rw [hspec.done, bne_iff_ne.mpr hcu, bne_iff_ne.mpr hcl]
          rfl
        rw [if_pos hdone] at hrun
        cases hrun
        refine .one l hf₁ he₁ (Nat.lt_succ_self _) ?_ hconvs hspec.args hwalk₁
        rw [wellFormed_conv hnd hcl, bne_iff_ne.mpr hcu, Bool.true_and]

/-! ## what a run has done stays done -/

/-- the history of `s` is a part of that of `s'` -/
structure Kept (s s' : Printk) : Prop where
  reads : s.reads ⊆ s'.reads
  directives : s.directives ⊆ s'.directives

theorem Kept.trans {s₂ : Printk} (h : Kept s s₁) (h' : Kept s₁ s₂) : Kept s s₂ :=
  ⟨List.Subset.trans h.reads h'.reads, List.Subset.trans h.directives h'.directives⟩

theorem Kept.next (s : Printk) : Kept s s.next := ⟨List.subset_append_left _ _, List.Subset.refl _⟩

theorem Kept.quiet (hreads : s'.reads = s.reads) (hdir : s'.directives = s.directives) : Kept s s' :=
  ⟨hreads ▸ List.Subset.refl _, hdir ▸ List.Subset.refl _⟩

theorem scanSign_kept {sign : BitVec 32} {r : BitVec 32 × UInt8 × Printk} (h : scanSign mem n sign s = some r) :
    Kept s r.2.2 := by
  induction n generalizing sign s with
  | zero => exact nomatch h
  | succ n ih =>
    rw [scanSign] at h
    by_cases hd : isdigit (mem s.fmt) = true
    · rw [if_pos hd] at h
      cases h
      exact Kept.next s
    · rw [if_neg hd] at h
      exact (Kept.next s).trans (ih h)

theorem scanDigits_kept {r : BitVec 32 × Printk} (h : scanDigits mem n i c s = some r) : Kept s r.2 := by
  induction n generalizing i c s with
  | zero => exact nomatch h
  | succ n ih =>
    rw [scanDigits] at h
    by_cases hd : isdigit (mem s.fmt) = true
    · rw [if_pos hd] at h
      exact (Kept.next s).trans (ih h)
    · rw [if_neg hd] at h
      cases h
      exact (Kept.next s).trans (Kept.quiet rfl rfl)

theorem scanInt_kept {r : BitVec 32 × Printk} (h : scanInt mem n s = some r) : Kept s r.2 := by
  rw [scanInt] at h
  obtain ⟨⟨sign, c, s₁⟩, hsign, h⟩ := Option.bind_eq_some_iff.mp h
  obtain ⟨⟨i, s₂⟩, hdigits, h⟩ := Option.bind_eq_some_iff.mp h
  cases h
  have hkept : Kept s₁ s₂ := scanDigits_kept hdigits
  exact (scanSign_kept hsign).trans hkept

theorem directive_kept (hrun : directive env n d s = some (d', s')) : Kept s s' := by
  induction n generalizing d s with
  | zero => exact nomatch hrun
  | succ n ih =>
    rw [directive_succ] at hrun
    by_cases h0 : env.mem s.fmt = '0'.toUInt8
    · rw [if_pos h0] at hrun
      exact (Kept.next s).trans (ih hrun)
    rw [if_neg h0] at hrun
    by_cases hd : isdigit (env.mem s.fmt) = true
    · rw [if_pos hd] at hrun
      obtain ⟨r, hscan, hrun⟩ := Option.bind_eq_some_iff.mp hrun
      have hback : Kept s s.next.back := (Kept.next s).trans (Kept.quiet rfl rfl)
      exact (hback.trans (scanInt_kept hscan)).trans (ih hrun)
    rw [if_neg hd] at hrun
    have hspec := switch_spec env (env.mem s.fmt) d s.next
    obtain ⟨r, hr⟩ : ∃ r, r = s.next.switch env (env.mem s.fmt) d := ⟨_, rfl⟩
    rw [← hr] at hspec hrun
    have hkept : Kept s r.2 := (Kept.next s).trans (Kept.quiet hspec.quiet.1 hspec.quiet.2)
    by_cases hdone : r.1.done = true
    · rw [if_pos hdone] at hrun
      cases hrun
      exact hkept
    · rw [if_neg hdone] at hrun
      exact hkept.trans (ih hrun)

/-! ## the outer loop -/

/-- one round of the outer loop -/
theorem vprintk_succ (env : PrintkEnv) (n : Nat) (s : Printk) : vprintk env (n + 1) s =
    if env.mem s.fmt = 0 then some s.next
    else if env.mem s.fmt ≠ '%'.toUInt8 then vprintk env n (s.next.emit [env.mem s.fmt])
    else (directive env n Directive.start s.next).bind fun r => vprintk env n (r.2.finish s.next.args r.1) := rfl

theorem vprintk_kept (hrun : vprintk env n s = some s') : Kept s.next s' := by
  induction n generalizing s with
  | zero => exact nomatch hrun
  | succ n ih =>
    rw [vprintk_succ] at hrun
    by_cases h0 : env.mem s.fmt = 0
    · rw [if_pos h0] at hrun
      cases hrun
      exact Kept.quiet rfl rfl
    rw [if_neg h0] at hrun
    by_cases hp : env.mem s.fmt ≠ '%'.toUInt8
    · rw [if_pos hp] at hrun
      have hemit : Kept s.next (s.next.emit [env.mem s.fmt]) := Kept.quiet rfl rfl
      exact (hemit.trans (Kept.next _)).trans (ih hrun)
    · rw [if_neg hp] at hrun
      obtain ⟨r, hdir, hrun⟩ := Option.bind_eq_some_iff.mp hrun
      have hfin : Kept r.2 (r.2.finish s.next.args r.1) := ⟨List.Subset.refl _, List.subset_append_left _ _⟩
      exact (((directive_kept hdir).trans hfin).trans (Kept.next _)).trans (ih hrun)

/-- every directive consumed one conversion character and at most one argument, and the format was read
up to `e` -/
structure Tidy (e : Nat) (s : Printk) : Prop where
  reads : ∀ a ∈ s.reads, a ≤ e
  directives : ∀ x ∈ s.directives, x.convs = 1 ∧ x.args ≤ 1

theorem Tidy.walk {e : Nat} (h : Walk e s s') : Tidy e s' ↔ Tidy e s := by
  obtain ⟨l, hl, hle⟩ := h.reads
  constructor
  · rintro ⟨hr, hd⟩
    refine ⟨fun a ha => hr a ?_, h.directives ▸ hd⟩
    rw [hl]
    exact List.mem_append_left _ ha
  · rintro ⟨hr, hd⟩
    refine ⟨fun a ha => ?_, h.directives ▸ hd⟩
    rw [hl] at ha
    rcases List.mem_append.mp ha with ha | ha
    · exact hr a ha
    · exact hle a ha

theorem Tidy.finish {e args : Nat} (h : d.convs = 1) (ha : s.args - args ≤ 1) :
    Tidy e (s.finish args d) ↔ Tidy e s := by
  constructor
  · rintro ⟨hr, hd⟩
    exact ⟨hr, fun x hx => hd x (List.mem_append_left _ hx)⟩
  · rintro ⟨hr, hd⟩
    refine ⟨hr, fun x hx => ?_⟩
    rcases List.mem_append.mp hx with hx | hx
    · exact hd x hx
    · rw [List.mem_singleton.mp hx]
      exact ⟨h, ha⟩

/-- a run that returns was tidy exactly if the rest of the format is well formed -/
theorem vprintk_iff {e : Nat} (hf : FormatAt env.mem s.fmt l) (he : s.fmt + l.length = e)
    (hrun : vprintk env n s = some s') : Tidy e s' ↔ Tidy e s ∧ wellFormed false l = true := by
  induction n generalizing s l with
  | zero => exact nomatch hrun
  | succ n ih =>
    have hwalk : Walk e s s.next := Walk.next (by omega)
    rw [vprintk_succ] at hrun
    cases l with
    | nil =>
      have hmem : env.mem s.fmt = 0 := hf
      rw [hmem, if_pos rfl] at hrun
      cases hrun
      rw [Tidy.walk hwalk]
      exact (and_iff_left rfl).symm
    | cons c l =>
      obtain ⟨hc, hc0, hl⟩ := hf
      have hnext : s.next.fmt + l.length = e := by
        rw [List.length_cons] at he
        show s.fmt + 1 + l.length = e
        omega
      rw [hc, if_neg hc0] at hrun
      by_cases hp : c ≠ '%'.toUInt8
      · rw [if_pos hp] at hrun
        have hemit : Walk e s (s.next.emit [c]) := hwalk.trans (Walk.quiet rfl rfl)
        rw [ih (s := s.next.emit [c]) hl hnext hrun, Tidy.walk hemit, wellFormed, beq_eq_false_iff_ne.mpr hp]
      · rw [if_neg hp] at hrun
        have hwf : wellFormed false (c :: l) = wellFormed true l := by
          rw [wellFormed, beq_iff_eq.mpr (not_not.mp hp)]
        obtain ⟨r, hdir, hrun⟩ := Option.bind_eq_some_iff.mp hrun
        obtain ⟨t, ht⟩ : ∃ t, t = r.2.finish s.next.args r.1 := ⟨_, rfl⟩
        rw [← ht] at hrun
        have hkept := vprintk_kept hrun
        rw [hwf]
        cases directive_cases (s := s.next) hl hnext hdir with
        | past bad fmt =>
          -- the outer loop goes on behind the end
          refine iff_of_false (fun h => ?_) fun h => ?_
          · have hread : t.fmt ∈ s'.reads := hkept.reads (List.mem_append_right _ List.mem_cons_self)
            have hle := h.reads _ hread
            rw [ht] at hle
            exact absurd hle (Nat.not_le.mpr fmt)
          · rw [bad] at h
            exact absurd h.2 Bool.false_ne_true
        | twice bad convs =>
          refine iff_of_false (fun h => ?_) fun h => ?_
          · have hlog : { convs := r.1.convs, args := r.2.args - s.next.args } ∈ s'.directives := by
              refine hkept.directives ?_
              rw [ht]
              exact List.mem_append_right _ List.mem_cons_self
            have hone : r.1.convs = 1 := (h.directives _ hlog).1
            have hstart : Directive.start.convs = 0 := rfl
            omega
          · rw [bad] at h
            exact absurd h.2 Bool.false_ne_true
        | one l' format stop shorter same convs args walk =>
          have hargs : r.2.args - s.next.args ≤ 1 := by omega
          have hft : FormatAt env.mem t.fmt l' := by
            rw [ht]
            exact format
          have het : t.fmt + l'.length = e := by
            rw [ht]
            exact stop
          rw [ih hft het hrun, ht, Tidy.finish convs hargs, Tidy.walk (hwalk.trans walk), same]

/-! ## termination -/

theorem directive_returns (hf : FormatAt env.mem s.fmt l) (hwf : wellFormed true l = true) (hn : l.length < n) :
    ∃ r, directive env n d s = some r := by
  induction n generalizing d s l with
  | zero => omega
  | succ n ih =>
    rw [directive_succ]
    cases l with
    | nil => exact absurd hwf Bool.false_ne_true
    | cons c l =>
      obtain ⟨hc, hc0, hl⟩ := hf
      rw [List.length_cons] at hn
      rw [hc]
      by_cases h0 : c = '0'.toUInt8
      · rw [if_pos h0]
        rw [wellFormed_modifier (.inl (h0 ▸ by decide))] at hwf
        exact ih (s := s.next) hl hwf (by omega)
      rw [if_neg h0]
      by_cases hd : isdigit c = true
      · rw [if_pos hd]
        obtain ⟨v, s', hints, hf', -, -, -⟩ := scanInt_run (s := s.next.back) ⟨hc, hc0, hl⟩ hd rfl
        rw [hints n (by omega), Option.bind_some]
        rw [wellFormed_modifier (.inl hd), ← wellFormed_digits] at hwf
        have hlen : (l.dropWhile isdigit).length ≤ l.length := (List.dropWhile_sublist isdigit).length_le
        exact ih hf' hwf (by omega)
      rw [if_neg hd]
      have hspec := switch_spec env c d s.next
      obtain ⟨r, hr⟩ : ∃ r, r = s.next.switch env c d := ⟨_, rfl⟩
      rw [← hr] at hspec ⊢
      by_cases hdone : r.1.done = true
      · rw [if_pos hdone]
        exact ⟨r, rfl⟩
      · rw [if_neg hdone]
        have hf₁ : FormatAt env.mem r.2.fmt l := hspec.fmt ▸ hl
        have hcl : c = 'l'.toUInt8 := by
          by_contra hcl
          rw [wellFormed_conv (eq_false_of_ne_true hd) hcl] at hwf
          rw [hspec.done, (Bool.and_eq_true_iff.mp hwf).1, bne_iff_ne.mpr hcl] at hdone
          exact hdone rfl
        rw [wellFormed_modifier (.inr hcl)] at hwf
        exact ih hf₁ hwf (by omega)

theorem vprintk_returns (hf : FormatAt env.mem s.fmt l) (hwf : wellFormed false l = true) (hn : l.length < n) :
    ∃ s', vprintk env n s = some s' := by
  induction n generalizing s l with
  | zero => omega
  | succ n ih =>
    rw [vprintk_succ]
    cases l with
    | nil =>
      have hmem : env.mem s.fmt = 0 := hf
      rw [if_pos hmem]
      exact ⟨_, rfl⟩
    | cons c l =>
      obtain ⟨hc, hc0, hl⟩ := hf
      rw [List.length_cons] at hn
      rw [hc, if_neg hc0]
      by_cases hp : c ≠ '%'.toUInt8
      · rw [if_pos hp]
        rw [wellFormed, beq_eq_false_iff_ne.mpr hp] at hwf
        exact ih (s := s.next.emit [c]) hl hwf (by omega)
      · rw [if_neg hp]
        rw [wellFormed, beq_iff_eq.mpr (not_not.mp hp)] at hwf
        obtain ⟨r, hdir⟩ := directive_returns (d := Directive.start) (s := s.next) hl hwf (show l.length < n by omega)
        rw [hdir, Option.bind_some]
        cases directive_cases (s := s.next) hl rfl hdir with
        | past bad fmt => exact absurd (hwf.symm.trans bad) Bool.true_eq_false_eq_False
        | twice bad convs => exact absurd (hwf.symm.trans bad) Bool.true_eq_false_eq_False
        | one l' format stop shorter same convs args walk =>
          exact ih (s := r.2.finish s.next.args r.1) format (same.symm.trans hwf) (by omega)

/-- vprintk stays inside its format: it returns, it reads no byte behind the NUL, and every directive
consumes one conversion character and at most one argument -/
def Stays (env : PrintkEnv) (fmt len : Nat) : Prop :=
  ∃ n s, vprintk env n (Printk.start fmt) = some s ∧ Tidy (fmt + len) s

theorem vprintk_stays (env : PrintkEnv) (fmt : Nat) (l : List UInt8) (hf : FormatAt env.mem fmt l) :
    Stays env fmt l.length ↔ wellFormed false l = true := by
  constructor
  · rintro ⟨n, s, hrun, htidy⟩
    exact ((vprintk_iff (s := Printk.start fmt) hf rfl hrun).mp htidy).2
  · intro hwf
    obtain ⟨s, hrun⟩ := vprintk_returns (s := Printk.start fmt) hf hwf (Nat.lt_succ_self _)
    exact ⟨_, s, hrun, (vprintk_iff (s := Printk.start fmt) hf rfl hrun).mpr ⟨⟨nofun, nofun⟩, hwf⟩⟩

/-- the memory that holds `l` at 0 -/
def memOf (l : List UInt8) : Mem := fun a => l.getD a 0

def envOf (l : List UInt8) : PrintkEnv :=
  { mem := memOf l, args := fun _ => { slot := 0, text := [] }, stack := fun _ _ => 0 }

theorem vprintk_stays_d : Stays (envOf ['%'.toUInt8, 'd'.toUInt8]) 0 2 ↔
    wellFormed false ['%'.toUInt8, 'd'.toUInt8] = true :=
  vprintk_stays _ 0 ['%'.toUInt8, 'd'.toUInt8] ⟨rfl, by decide, rfl, by decide, rfl⟩

/-- a format that ends in `%` -/
theorem vprintk_passes_end : ¬ ∀ (env : PrintkEnv) (fmt : Nat) (l : List UInt8), FormatAt env.mem fmt l →
    Stays env fmt l.length := by
  intro hall
  have hf : FormatAt (envOf ['%'.toUInt8]).mem 0 ['%'.toUInt8] := ⟨rfl, by decide, rfl⟩
  obtain ⟨n, s, hrun, htidy⟩ := hall _ 0 ['%'.toUInt8] hf
  have hwf := ((vprintk_iff (s := Printk.start 0) hf rfl hrun).mp htidy).2
  exact absurd hwf (by decide)

/-! ## `%d` -/

/-- `text` is `v` in decimal, with blanks before its sign and zeros behind it -/
def Shows (v : Int) (text : List UInt8) : Prop :=
  ∃ blanks zeros, text = List.replicate blanks ' '.toUInt8 ++ (if v < 0 then ['-'.toUInt8] else []) ++
    List.replicate zeros '0'.toUInt8 ++ numeral 10 v.natAbs

theorem tab_ne : ∀ d < 16, tab d ≠ 0 ∧ tab d ≠ '-'.toUInt8 := by decide

theorem numeral_ne {b x : Nat} (hb : 2 ≤ b) (hb' : b ≤ 16) : ∀ y ∈ numeral b x, y ≠ 0 ∧ y ≠ '-'.toUInt8 := by
  intro y hy
  obtain ⟨d, hd, rfl⟩ := List.mem_map.mp hy
  exact tab_ne d ((Digits.digits_lt hb d hd).trans_le hb')

/-- a number without a sign -/
theorem formatted_ne {num : List UInt8} {flags : Nat} {pad : Int} (h : ∀ y ∈ num, y ≠ 0 ∧ y ≠ '-'.toUInt8) :
    ∀ y ∈ formatted false (padcharOf flags) pad num, y ≠ 0 ∧ y ≠ '-'.toUInt8 := by
  have hpad : padcharOf flags ≠ 0 ∧ padcharOf flags ≠ '-'.toUInt8 := by
    rcases padcharOf_cases flags with hp | hp
    · rw [hp]
      decide
    · rw [hp]
      decide
  have hform : formatted false (padcharOf flags) pad num =
      padding (num.length + (0 : Nat)) pad (padcharOf flags) ++ num := by
    rw [formatted]
    split <;> simp
  rw [hform]
  intro y hy
  rcases List.mem_append.mp hy with hy | hy
  · rw [List.eq_of_mem_replicate hy]
    exact hpad
  · exact h y hy

/-- an argument of 32 bits is printed as an unsigned number, behind a NUL -/
theorem printInt_word (stack : Nat → UInt8) (arg : PrintkArg) {flags : Nat} (pad : Int) (hflags : flags = 0 ∨ flags = P_ZEROPAD) :
    (printInt stack (nextArg arg false) flags pad).out.filter (· ≠ 0) =
      formatted false (padcharOf flags) pad (numeral 10 (arg.slot.setWidth 32).toNat) := by
  have hlt : (arg.slot.setWidth 32).toNat < 2 ^ 32 := (arg.slot.setWidth 32).isLt
  have hnat : (nextArg arg false).toNat = (arg.slot.setWidth 32).toNat := by
    show ((arg.slot.setWidth 32).setWidth 64).toNat = _
    rw [BitVec.toNat_setWidth, Nat.mod_eq_of_lt (by omega)]
  have hpos : ¬ (nextArg arg false).toInt < 0 := by
    rw [BitVec.toInt_eq_toNat_of_lt (by omega)]
    omega
  have hmin : nextArg arg false ≠ INT64_MIN := by
    intro he
    have hbig : (nextArg arg false).toNat = 2 ^ 63 := by
      rw [he]
      decide
    omega
  have hs : signed (nextArg arg false) flags = false := by simp [signed, hpos]
  have hm : magnitude (nextArg arg false) flags = (arg.slot.setWidth 32).toNat := by
    rw [magnitude, hs]
    exact hnat
  have hbase : baseOf flags = ⟨10, by decide⟩ := by
    rcases hflags with rfl | rfl <;> rfl
  obtain ⟨front, c, hc, hform, hout⟩ := printUint_out stack (arg.slot.setWidth 32).toNat ⟨10, by decide⟩ pad flags false
  have hshort : (numeral 10 (arg.slot.setWidth 32).toNat).length < BUFLEN := by
    rw [numeral, List.length_map]
    have hle := Digits.digits_length_le (k := 10) (show 2 ≤ 10 by decide) (by decide) (hlt.trans (by decide))
    exact hle.trans_lt (by decide)
  have hnum : ∀ y ∈ numeral 10 (arg.slot.setWidth 32).toNat, y ≠ 0 ∧ y ≠ '-'.toUInt8 := numeral_ne (by decide) (by decide)
  rw [printInt_eq stack pad (.inr hmin), hs, hm, hbase, hout, hc hshort, hform]
  have hdrop : (front ++ 0 :: numeral 10 (arg.slot.setWidth 32).toNat).filter (· ≠ 0) =
      (front ++ numeral 10 (arg.slot.setWidth 32).toNat).filter (· ≠ 0) := by
    rw [List.filter_append, List.filter_append]
    rfl
  rw [hdrop, ← hform]
  exact List.filter_eq_self.mpr fun y hy => decide_eq_true (formatted_ne hnum y hy).1

theorem shows_word (w : BitVec 32) (flags : Nat) (pad : Int) :
    Shows w.toInt (formatted false (padcharOf flags) pad (numeral 10 w.toNat)) ↔ 0 ≤ w.toInt := by
  have hnum : ∀ y ∈ numeral 10 w.toNat, y ≠ 0 ∧ y ≠ '-'.toUInt8 := numeral_ne (by decide) (by decide)
  constructor
  · rintro ⟨blanks, zeros, htext⟩
    by_contra hneg
    have hsign : '-'.toUInt8 ∈ formatted false (padcharOf flags) pad (numeral 10 w.toNat) := by
      rw [htext, if_pos (Int.not_le.mp hneg)]
      simp
    exact (formatted_ne hnum _ hsign).2 rfl
  · intro hpos
    have habs : w.toInt.natAbs = w.toNat := by
      have hlt := BitVec.toInt_eq_toNat_cond w
      have hw := w.isLt
      split at hlt <;> omega
    have hle : ¬ w.toInt < 0 := Int.not_lt.mpr hpos
    rw [formatted, padding]
    rcases padcharOf_cases flags with hp | hp
    · refine ⟨0, (pad - ((numeral 10 w.toNat).length + (0 : Nat))).toNat, ?_⟩
      rw [hp, habs, if_neg hle]
      simp
    · refine ⟨(pad - ((numeral 10 w.toNat).length + (0 : Nat))).toNat, 0, ?_⟩
      rw [hp, habs, if_neg hle, if_neg (by decide)]
      simp

/-- the inner loop at a `d` -/
theorem directive_d (hf : FormatAt env.mem s.fmt ('d'.toUInt8 :: l)) (n : Nat) : directive env (n + 1) d s =
    some ({ d with done := true, convs := d.convs + 1 }, s.next.printArg env d.is64 d.flags d.pad) := by
  rw [directive_succ, hf.1, if_neg (by decide), if_neg (by decide)]
  rfl

/-- flags and widths in front of a `d` -/
theorem directive_width {w : List UInt8} (hw : ∀ c ∈ w, isdigit c = true) (hf : FormatAt env.mem s.fmt (w ++ 'd'.toUInt8 :: l))
    (hflags : d.flags = 0 ∨ d.flags = P_ZEROPAD) : ∃ flags pad d' s', (flags = 0 ∨ flags = P_ZEROPAD) ∧
      (∀ n, (w ++ 'd'.toUInt8 :: l).length < n → directive env n d s = some (d', s'.printArg env d.is64 flags pad)) ∧
      FormatAt env.mem s'.fmt l ∧ Silent s s' := by
  induction w generalizing d s with
  | nil =>
    refine ⟨d.flags, d.pad, { d with done := true, convs := d.convs + 1 }, s.next, hflags, fun n hn => ?_, hf.2.2, ⟨rfl, rfl⟩⟩
    obtain ⟨n, rfl⟩ : ∃ k, n = k + 1 := ⟨n - 1, by omega⟩
    exact directive_d hf n
  | cons c w ih =>
    obtain ⟨hc, hc0, htail⟩ := hf
    have hl : FormatAt env.mem (s.fmt + 1) (w ++ 'd'.toUInt8 :: l) := htail
    have hd : isdigit c = true := hw c List.mem_cons_self
    by_cases h0 : c = '0'.toUInt8
    · have hzero : d.flags ||| P_ZEROPAD = 0 ∨ d.flags ||| P_ZEROPAD = P_ZEROPAD := by
        rcases hflags with h | h
        · rw [h]
          exact .inr rfl
        · rw [h]
          exact .inr rfl
      obtain ⟨flags, pad, d', s', hfl, hrun, hf', hsil⟩ :=
        ih (d := { d with flags := d.flags ||| P_ZEROPAD, done := false }) (s := s.next)
          (fun c hc => hw c (List.mem_cons_of_mem _ hc)) hl hzero
      refine ⟨flags, pad, d', s', hfl, fun n hn => ?_, hf', ⟨hsil.out, hsil.args⟩⟩
      rw [List.cons_append, List.length_cons] at hn
      obtain ⟨n, rfl⟩ : ∃ k, n = k + 1 := ⟨n - 1, by omega⟩
      rw [directive_succ, hc, if_pos h0]
      exact hrun n (by omega)
    · -- scan_int takes all the digits
      obtain ⟨v, s₁, hints, hf₁, -, hsil, -⟩ := scanInt_run (s := s.next.back) ⟨hc, hc0, hl⟩ hd rfl
      have hdrop : (w ++ 'd'.toUInt8 :: l).dropWhile isdigit = 'd'.toUInt8 :: l := by
        rw [List.dropWhile_append_of_pos fun c hc => hw c (List.mem_cons_of_mem _ hc)]
        exact List.dropWhile_cons_of_neg (by decide)
      have hf₂ : FormatAt env.mem s₁.fmt ('d'.toUInt8 :: l) := by
        rw [← hdrop]
        exact hf₁
      refine ⟨d.flags, v.toInt, { d with pad := v.toInt, done := true, convs := d.convs + 1 }, s₁.next, hflags, fun n hn => ?_,
        hf₂.2.2, ⟨hsil.out, hsil.args⟩⟩
      rw [List.cons_append, List.length_cons] at hn
      have hlen : 0 < (w ++ 'd'.toUInt8 :: l).length := by simp
      obtain ⟨n, rfl⟩ : ∃ k, n = k + 2 := ⟨n - 2, by omega⟩
      rw [directive_succ, hc, if_neg h0, if_pos hd, hints (n + 1) (by omega), Option.bind_some]
      exact directive_d hf₂ n

/-- a `%d` in the outer loop: `s'` is the state in front of the `d` -/
theorem vprintk_width {w : List UInt8} (hw : ∀ c ∈ w, isdigit c = true)
    (hf : FormatAt env.mem s.fmt ('%'.toUInt8 :: w ++ 'd'.toUInt8 :: l)) : ∃ flags pad d' s',
      (flags = 0 ∨ flags = P_ZEROPAD) ∧
      (∀ n, ('%'.toUInt8 :: w ++ 'd'.toUInt8 :: l).length ≤ n →
        vprintk env (n + 1) s = vprintk env n ((s'.printArg env false flags pad).finish s.args d')) ∧
      FormatAt env.mem s'.fmt l ∧ Silent s s' := by
  obtain ⟨hc, hc0, hl⟩ := hf
  obtain ⟨flags, pad, d', s', hflags, hrun, hf', hsil⟩ :=
    directive_width (d := Directive.start) (s := s.next) hw hl (.inl rfl)
  refine ⟨flags, pad, d', s', hflags, fun n hn => ?_, hf', ⟨hsil.out, hsil.args⟩⟩
  rw [List.cons_append, List.length_cons] at hn
  rw [vprintk_succ, hc, if_neg hc0, if_neg (not_not.mpr rfl), hrun n hn]
  rfl

/-- a `%d` prints its argument exactly if it is not negative.  In any format, and wherever vprintk is in
it: from the state `s` at the `%` the outer loop goes on from `t`, and `text` is what it has written -/
theorem vprintk_d (env : PrintkEnv) (s : Printk) (w rest : List UInt8) (hw : ∀ c ∈ w, isdigit c = true)
    (hf : FormatAt env.mem s.fmt ('%'.toUInt8 :: w ++ 'd'.toUInt8 :: rest)) :
    ∃ t text, (∀ n, ('%'.toUInt8 :: w ++ 'd'.toUInt8 :: rest).length ≤ n → vprintk env (n + 1) s = vprintk env n t) ∧
      FormatAt env.mem t.fmt rest ∧ t.args = s.args + 1 ∧ t.out = s.out ++ text ∧
      (Shows ((env.args s.args).slot.setWidth 32).toInt (text.filter (· ≠ 0)) ↔
        0 ≤ ((env.args s.args).slot.setWidth 32).toInt) := by
  obtain ⟨flags, pad, d', s', hflags, hrun, hf', hsil⟩ := vprintk_width hw hf
  refine ⟨(s'.printArg env false flags pad).finish s.args d',
    (printInt (env.stack s.args) (nextArg (env.args s.args) false) flags pad).out, hrun, hf', ?_, ?_, ?_⟩
  · show s'.args + 1 = s.args + 1
    rw [hsil.args]
  · show s'.out ++ (printInt (env.stack s'.args) (nextArg (env.args s'.args) false) flags pad).out = _
    rw [hsil.args, hsil.out]
  · rw [printInt_word _ _ _ hflags]
    exact shows_word _ _ _

/-- "%5d" with the argument `v` -/
def fiveD (v : BitVec 64) : PrintkEnv :=
  { mem := memOf ['%'.toUInt8, '5'.toUInt8, 'd'.toUInt8], args := fun _ => { slot := v, text := [] }, stack := fun _ _ => 0 }

theorem fiveD_format (v : BitVec 64) : FormatAt (fiveD v).mem 0 ('%'.toUInt8 :: ['5'.toUInt8] ++ 'd'.toUInt8 :: []) :=
  ⟨rfl, by decide, rfl, by decide, rfl, by decide, rfl⟩

theorem vprintk_d_five : ∃ t text, (∀ n, 3 ≤ n → vprintk (fiveD 42) (n + 1) (Printk.start 0) = vprintk (fiveD 42) n t) ∧
    FormatAt (fiveD 42).mem t.fmt [] ∧ t.args = 1 ∧ t.out = [] ++ text ∧
    (Shows ((42 : BitVec 64).setWidth 32).toInt (text.filter (· ≠ 0)) ↔ 0 ≤ ((42 : BitVec 64).setWidth 32).toInt) :=
  vprintk_d (fiveD 42) (Printk.start 0) ['5'.toUInt8] [] (List.forall_mem_singleton.mpr rfl) (fiveD_format 42)

/-- -1 is printed without its sign -/
theorem vprintk_minus_one : ∃ s, vprintk (fiveD (-1)) 4 (Printk.start 0) = some s ∧
    ¬ Shows ((-1 : BitVec 64).setWidth 32).toInt (s.out.filter (· ≠ 0)) := by
  obtain ⟨flags, pad, d', s', hflags, hrun, hf', hsil⟩ :=
    vprintk_width (s := Printk.start 0) (w := ['5'.toUInt8]) (List.forall_mem_singleton.mpr rfl) (fiveD_format (-1))
  have hnul : (fiveD (-1)).mem s'.fmt = 0 := hf'
  refine ⟨((s'.printArg (fiveD (-1)) false flags pad).finish 0 d').next, ?_, ?_⟩
  · rw [hrun 3 (by decide), vprintk_succ]
    exact if_pos hnul
  · have hout : (((s'.printArg (fiveD (-1)) false flags pad).finish 0 d').next).out =
        (printInt ((fiveD (-1)).stack s'.args) (nextArg ((fiveD (-1)).args s'.args) false) flags pad).out := by
      show s'.out ++ _ = _
      rw [hsil.out]
      rfl
    rw [hout, printInt_word _ _ _ hflags]
    intro hshows
    have hpos := (shows_word _ _ _).mp hshows
    exact absurd hpos (by decide)

end FakeKernel
