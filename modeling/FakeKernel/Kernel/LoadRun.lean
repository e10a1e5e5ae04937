import FakeKernel.Kernel.Alloc
import FakeKernel.Mm.Unset

/-!
# The pages that loading a program maps

* `PageCall`    one page: its address, its flags, the page of RAM behind it and what that holds;
* `LoadRun`     pages are mapped one after the other, and no table is written otherwise;
* `LoadRun.inv`              the pages of RAM still hold what was put there;
* `LoadRun.walk`, `LoadRun.deep`   the translations afterwards, and the walks that end too deep.
-/

namespace FakeKernel
open Bytes Mm

structure PageCall where
  va : Nat
  flags : Nat
  page : Nat
  content : Nat → UInt8

variable {a a' a'' : Mm} {m : Mem} {root p va flags x : Nat} {c : PageCall} {l l' : List PageCall} {N : List Nat}
  {W : Set Nat} {r : Int}

/-- a page of RAM that can be mapped: it is kept and is no table of the tree -/
structure Spendable (a : Mm) (root p : Nat) : Prop where
  dvd : pageSize ∣ p
  usable : p ∈ usable
  kept : a.KeptPage p
  table : p ∉ tables a.mem 2 root

/-- the page holds what was put there -/
structure PageCall.Holds (c : PageCall) (a : Mm) (root : Nat) : Prop extends Spendable a root c.page where
  content : ∀ k < pageSize, a.mem (c.page + k) = c.content k

/-- pages are mapped, the last one first in the list -/
inductive LoadRun (root : Nat) : List PageCall → Mm → Mm → Prop
  | refl (a : Mm) : LoadRun root [] a a
  | page {l : List PageCall} {a a' a'' : Mm} {m : Mem} {c : PageCall} {r : Int} (h : LoadRun root l a a')
      (hlt : c.flags < 2 ^ 8) (hp : Spendable a' root c.page) (hother : ∀ c' ∈ l, c'.page ≠ c.page)
      (hset : setPage root c.va (PA c.page) c.flags a' = .ok (r, a'')) (hm : ∀ x, ¬ onPage c.page x → m x = a''.mem x)
      (hc : ∀ k < pageSize, m (c.page + k) = c.content k) : LoadRun root (c :: l) a (a''.setMem m)
  | grow {l : List PageCall} {a a' a'' : Mm} {N : List Nat} (h : LoadRun root l a a') (hx : Extends a' a'' ∅ N) :
      LoadRun root l a a''

/-- all of it is memory of the allocator -/
theorem Spendable.byte_usable (hp : Spendable a root p) (hx : onPage p x) : x ∈ FakeKernel.usable := by
  obtain ⟨c, hc⟩ := hp.dvd
  have h1 : kernPhyBase + 2 ^ 20 ≤ p := hp.usable.1
  have h2 : p < kernPhyBase + 2 ^ 22 := hp.usable.2
  unfold FakeKernel.usable
  unfold onPage at hx
  rw [Set.mem_Ico]
  unfold kernPhyBase kernBase splitAddr pageSize at *
  omega

/-! ## what stays -/

/-- the tables of the tree afterwards are those of before and pages that were handed out -/
theorem Spendable.extends (hp : Spendable a root p) (hx : Extends a a' W N)
    (htab : ∀ s ∈ tables a'.mem 2 root, s ∈ tables a.mem 2 root ∨ s ∈ N) : Spendable a' root p :=
  ⟨hp.dvd, hp.usable, hx.keptPage hp.kept, fun hin => (htab p hin).elim hp.table (hx.not_new hp.kept)⟩

theorem PageCall.Holds.extends (hc : c.Holds a root) (hx : Extends a a' W N) (hW : c.page ∉ W)
    (htab : ∀ s ∈ tables a'.mem 2 root, s ∈ tables a.mem 2 root ∨ s ∈ N) : c.Holds a' root := by
  refine ⟨hc.toSpendable.extends hx htab, fun k hk => ?_⟩
  rw [hx.same hc.kept hc.dvd hW ⟨Nat.le_add_right _ _, Nat.add_lt_add_left hk _⟩]
  exact hc.content k hk

/-- a page that was just handed out -/
theorem WellFormed.spendable (hw : WellFormed a root) (hx : Extends a a' W N) (hW : ∀ s ∈ tables a.mem 2 root, s ∉ W)
    (hp : p ∈ N) : Spendable a' root p := by
  obtain ⟨_, _, htab⟩ := hw.extends hx hW
  refine ⟨hx.new_page hp, hx.new_usable hp, hx.new_kept hp, ?_⟩
  rw [htab]
  exact hw.new_not_mem hx hp

/-- set_page, and then writes to the page that was mapped -/
theorem mapPage_extends (hw : WellFormed a root) (hlt : flags < 2 ^ 8) (hp : Spendable a root p)
    (hset : setPage root va (PA p) flags a = .ok (r, a')) (hm : ∀ x, ¬ onPage p x → m x = a'.mem x) : ∃ N,
    Splitting a a' root N ∧ WellFormed (a'.setMem m) root ∧ tables m 2 root = tables a'.mem 2 root ∧
      Extends a (a'.setMem m) ({s | s ∈ tables a.mem 2 root} ∪ {p}) N ∧
      (∀ x, walk m 2 root x = walk a'.mem 2 root x) ∧ ∀ s ∈ tables a'.mem 2 root, SameTable a'.mem m s := by
  obtain ⟨_, N, _, hsplit, _⟩ := setPage_spec hw hlt hset
  have hw' := hsplit.wellFormed hw
  have hp' : Spendable a' root p := hp.extends hsplit.grow hsplit.upd.mem_tables
  have hx : Extends a' (a'.setMem m) {p} [] := hw'.ok.write_page hp'.kept hp.dvd hm
  have hnot : ∀ s ∈ tables a'.mem 2 root, s ∉ ({p} : Set Nat) := by
    intro s hs hsp
    rw [Set.mem_singleton_iff.mp hsp] at hs
    exact hp'.table hs
  obtain ⟨hw'', hwalk, htab⟩ := hw'.extends hx hnot
  refine ⟨N, hsplit, hw'', htab, ?_, hwalk, fun s hs i hi => entry_congr hi fun x h1 h2 => ?_⟩
  · refine (hsplit.grow.mono Set.subset_union_left fun s hs => ?_).trans hx fun s hs => .inl (.inr hs)
    cases hs with
    | inl hs => exact tables_page hw.page s hs
    | inr hs =>
      rw [Set.mem_singleton_iff.mp hs]
      exact hp.dvd
  · exact hx.same (hw'.kept s hs) (tables_page hw'.page s hs) (hnot s hs) ⟨h1, h2⟩

theorem LoadRun.inv (h : LoadRun root l a a') (hw : WellFormed a root) :
    WellFormed a' root ∧ ∀ c ∈ l, c.Holds a' root := by
  induction h with
  | refl => exact ⟨hw, fun _ hc => absurd hc List.not_mem_nil⟩
  | page h hlt hp hother hset hm hc ih =>
    rename_i l a a' a'' m c r
    obtain ⟨hw', hholds⟩ := ih hw
    obtain ⟨N, hsplit, hw'', htab, hx, _⟩ := mapPage_extends hw' hlt hp hset hm
    have htabs : ∀ s ∈ tables (a''.setMem m).mem 2 root, s ∈ tables a'.mem 2 root ∨ s ∈ N := by
      intro s hs
      have hs : s ∈ tables m 2 root := hs
      rw [htab] at hs
      exact hsplit.upd.mem_tables s hs
    refine ⟨hw'', fun c' hc' => ?_⟩
    cases List.mem_cons.mp hc' with
    | inl he =>
      rw [he]
      exact ⟨hp.extends hx htabs, hc⟩
    | inr hin =>
      have hc' := hholds c' hin
      exact hc'.extends hx (fun hW => hW.elim hc'.table (hother c' hin)) htabs
  | grow h hx ih =>
    obtain ⟨hw', hholds⟩ := ih hw
    obtain ⟨hw'', _, htab⟩ := hw'.extends hx fun _ _ => Set.notMem_empty _
    refine ⟨hw'', fun c hc => (hholds c hc).extends hx (Set.notMem_empty _) fun s hs => ?_⟩
    rw [htab] at hs
    exact .inl hs

/-- the tables stay outstanding -/
theorem LoadRun.out (h : LoadRun root l a a') (hw : WellFormed a root) (hout : ∀ s ∈ tables a.mem 2 root, pageAt s ∈ a.out) :
    ∀ s ∈ tables a'.mem 2 root, pageAt s ∈ a'.out := by
  induction h with
  | refl => exact hout
  | page h hlt hp hother hset hm hc ih =>
    rename_i l a a' a'' m c r
    obtain ⟨hw', _⟩ := h.inv hw
    obtain ⟨N, hsplit, _, htab, hx, _⟩ := mapPage_extends hw' hlt hp hset hm
    intro s hs
    have hs : s ∈ tables m 2 root := hs
    rw [htab] at hs
    cases hsplit.upd.mem_tables s hs with
    | inl hold => exact hx.old_mem (ih hw hout s hold)
    | inr hnew => exact hx.new_mem hnew
  | grow h hx ih =>
    obtain ⟨hw', _⟩ := h.inv hw
    obtain ⟨_, _, htab⟩ := hw'.extends hx fun _ _ => Set.notMem_empty _
    intro s hs
    rw [htab] at hs
    exact hx.old_mem (ih hw hout s hs)

/-! ## what is mapped -/

/-- the call that decides about the page of `x` -/
def lastCall (l : List PageCall) (x : Nat) : Option PageCall := l.find? fun c => decide (SamePage 0 x c.va)

theorem lastCall_cons : lastCall (c :: l) x = if SamePage 0 x c.va then some c else lastCall l x := by
  unfold lastCall
  rw [List.find?_cons]
  by_cases h : SamePage 0 x c.va
  · rw [decide_eq_true h, if_pos h]
  · rw [decide_eq_false h, if_neg h]

theorem lastCall_some (h : lastCall l x = some c) : c ∈ l ∧ SamePage 0 x c.va := by
  unfold lastCall at h
  have hx := List.find?_some h
  exact ⟨List.mem_of_find?_eq_some h, of_decide_eq_true hx⟩

theorem lastCall_eq_none : lastCall l x = none ↔ ∀ c ∈ l, ¬ SamePage 0 x c.va := by
  unfold lastCall
  rw [List.find?_eq_none]
  simp only [decide_eq_true_eq]

theorem lastCall_congr {y : Nat} (h : SamePage 0 x y) : lastCall l x = lastCall l y := by
  unfold lastCall
  congr 1
  funext c
  exact decide_eq_decide.mpr ⟨fun hx => Eq.trans (Eq.symm h) hx, fun hy => Eq.trans h hy⟩

theorem lastCall_append : lastCall (l ++ l') x = (lastCall l x).or (lastCall l' x) := List.find?_append

theorem LoadRun.walk (h : LoadRun root l a a') (hw : WellFormed a root) (x : Nat) : walk a'.mem 2 root x
    = match lastCall l x with
      | some c => setLeaf 0 (PA c.page) c.flags x
      | none => FakeKernel.walk a.mem 2 root x := by
  induction h with
  | refl => rfl
  | page h hlt hp hother hset hm hc ih =>
    rename_i l a a' a'' m c r
    obtain ⟨hw', _⟩ := h.inv hw
    obtain ⟨_, _, _, _, _, hwalk, _⟩ := mapPage_extends hw' hlt hp hset hm
    obtain ⟨_, _, _, _, hset⟩ := setPage_spec hw' hlt hset
    show FakeKernel.walk m 2 root x = _
    rw [hwalk x, hset x, lastCall_cons]
    by_cases hx : SamePage 0 x c.va
    · rw [if_pos hx, if_pos hx]
    · rw [if_neg hx, if_neg hx]
      exact ih hw
  | grow h hx ih =>
    obtain ⟨hw', _⟩ := h.inv hw
    obtain ⟨_, hwalk, _⟩ := hw'.extends hx fun _ _ => Set.notMem_empty _
    rw [hwalk x]
    exact ih hw

theorem LoadRun.deep (h : LoadRun root l a a') (hw : WellFormed a root) (x : Nat) : Deep a'.mem 2 root x ↔
    match lastCall l x with
      | some c => pteIsLeaf c.flags = false ∧ c.flags &&& pteValid ≠ 0
      | none => Deep a.mem 2 root x := by
  induction h with
  | refl => exact Iff.rfl
  | page h hlt hp hother hset hm hc ih =>
    rename_i l a a' a'' m c r
    obtain ⟨hw', _⟩ := h.inv hw
    obtain ⟨_, _, _, _, _, _, hsame⟩ := mapPage_extends hw' hlt hp hset hm
    obtain ⟨_, _, _, _, hslot⟩ := setPage_slot hw' hset
    have hdeep : Deep m 2 root x ↔ Deep a''.mem 2 root x := deep_congr hsame
    show Deep m 2 root x ↔ _
    rw [hdeep, hslot.deep_iff hw' (.inl rfl), lastCall_cons]
    by_cases hx : SamePage 0 x c.va
    · rw [if_pos hx, if_pos hx]
    · rw [if_neg hx, if_neg hx]
      exact ih hw
  | grow h hx ih =>
    obtain ⟨hw', _⟩ := h.inv hw
    refine (deep_congr fun s hs i hi => entry_congr hi fun y h1 h2 => ?_).trans (ih hw)
    exact hx.same (hw'.kept s hs) (tables_page hw'.page s hs) (Set.notMem_empty _) ⟨h1, h2⟩

/-- an allocation -/
theorem LoadRun.extends (h : LoadRun root l a a') (hx : Extends a' a'' ∅ N) : LoadRun root l a a'' := h.grow hx

theorem LoadRun.kept (h : LoadRun root l a a') (hw : WellFormed a root) (hp : a.KeptPage p) : a'.KeptPage p := by
  induction h with
  | refl => exact hp
  | page h hlt hp' hother hset hm hc ih =>
    obtain ⟨hw', _⟩ := h.inv hw
    obtain ⟨_, _, _, _, hx, _⟩ := mapPage_extends hw' hlt hp' hset hm
    exact hx.keptPage (ih hw hp)
  | grow _ hx ih => exact hx.keptPage (ih hw hp)

/-- only pages of the allocator are written -/
theorem LoadRun.outside (h : LoadRun root l a a') (hw : WellFormed a root) (hout : ∀ s ∈ tables a.mem 2 root, pageAt s ∈ a.out)
    (hx : x ∉ usable) : a'.mem x = a.mem x := by
  induction h with
  | refl => rfl
  | page h hlt hp hother hset hm hc ih =>
    rename_i l a a' a'' m c r
    obtain ⟨hw', _⟩ := h.inv hw
    obtain ⟨_, _, _, _, hext, _⟩ := mapPage_extends hw' hlt hp hset hm
    refine (hext.frame x (.inl hx) fun s hs hin => hx ?_).trans (ih hw hout)
    cases hs with
    | inl hs => exact hw'.ok.usable (h.out hw hout s hs) (mem_pageAt.mpr hin)
    | inr hs =>
      rw [Set.mem_singleton_iff.mp hs] at hin
      exact hp.byte_usable hin
  | grow h hx' ih => exact (hx'.frame x (.inl hx) fun s hs => absurd hs (Set.notMem_empty s)).trans (ih hw hout)

/-- the pages are different pages -/
theorem LoadRun.nodup (h : LoadRun root l a a') : (l.map PageCall.page).Nodup := by
  induction h with
  | refl => exact List.nodup_nil
  | page _ _ _ hother _ _ _ ih =>
    refine List.nodup_cons.mpr ⟨fun hin => ?_, ih⟩
    obtain ⟨c', hc', he⟩ := List.mem_map.mp hin
    exact hother c' hc' he
  | grow _ _ ih => exact ih

/-- there are only so many pages -/
theorem LoadRun.length_le (h : LoadRun root l a a') (hw : WellFormed a root) : l.length ≤ 2 ^ 10 := by
  obtain ⟨_, hholds⟩ := h.inv hw
  have hnd : (l.map fun c => c.page / pageSize).Nodup := by
    refine List.Nodup.of_map (· * pageSize) ?_
    have he : (l.map fun c => c.page / pageSize).map (· * pageSize) = l.map PageCall.page := by
      rw [List.map_map]
      exact List.map_congr_left fun c hc => Nat.div_mul_cancel (hholds c hc).dvd
    rw [he]
    exact h.nodup
  have hsub : (l.map fun c => c.page / pageSize) ⊆ List.range' (kernPhyBase / pageSize) (2 ^ 10) := by
    intro i hi
    obtain ⟨c, hc, rfl⟩ := List.mem_map.mp hi
    have h1 : kernPhyBase + 2 ^ 20 ≤ c.page := (hholds c hc).usable.1
    have h2 : c.page < kernPhyBase + 2 ^ 22 := (hholds c hc).usable.2
    rw [List.mem_range'_1]
    unfold kernPhyBase kernBase splitAddr pageSize at *
    omega
  have hle := (hnd.subperm hsub).length_le
  rwa [List.length_map, List.length_range'] at hle

/-- a page that was filled some time ago is mapped -/
theorem LoadRun.mapKept {a₁ a₂ : Mm} {f : Nat → UInt8} (h : LoadRun root l a a₁) (hw : WellFormed a root)
    (hp : Spendable a₁ root p) (hother : ∀ c ∈ l, c.page ≠ p) (hc : ∀ k < pageSize, a₁.mem (p + k) = f k)
    (hx : Extends a₁ a₂ ∅ N) (hlt : flags < 2 ^ 8) (hset : setPage root va (PA p) flags a₂ = .ok (r, a')) :
    r = 0 ∧ LoadRun root (⟨va, flags, p, f⟩ :: l) a a' := by
  have h₂ : LoadRun root l a a₂ := h.extends hx
  obtain ⟨hw₁, _⟩ := h.inv hw
  obtain ⟨hw₂, _⟩ := h₂.inv hw
  obtain ⟨_, _, htab⟩ := hw₁.extends hx fun _ _ => nofun
  have hp₂ : Spendable a₂ root p := hp.extends hx fun s hs => by
    rw [htab] at hs
    exact .inl hs
  obtain ⟨hr, N, _, hsplit, _⟩ := setPage_spec hw₂ hlt hset
  refine ⟨hr, h₂.page hlt hp₂ hother hset (fun _ _ => rfl) fun k hk => ?_⟩
  have honp : onPage p (p + k) := ⟨Nat.le_add_right _ _, Nat.add_lt_add_left hk _⟩
  show a'.mem (p + k) = f k
  rw [hsplit.grow.same hp₂.kept hp₂.dvd hp₂.table honp, hx.same hp.kept hp.dvd (Set.notMem_empty _) honp]
  exact hc k hk

/-! ## what the loop over the bytes of a page writes -/

/-- `from` after one more byte, 0 when the file part has been copied -/
def nextSrc (toAddr src : Nat) : Nat :=
  let src := if src ≠ 0 then (src + 1) % wordCount else src
  if toAddr ≤ src then 0 else src

/-- the byte at `i` from the first page on, when `off` bytes are left before the file part -/
def segByte (img : Mem) (toAddr off src i : Nat) : UInt8 :=
  if i < off then 0
  else
    let src := (nextSrc toAddr)^[i - off] src
    if src ≠ 0 then img src else 0

theorem segByte_shift {img : Mem} {toAddr off src n i : Nat} :
    segByte img toAddr (off - n) ((nextSrc toAddr)^[n - off] src) i = segByte img toAddr off src (n + i) := by
  unfold segByte
  by_cases h : n + i < off
  · rw [if_pos h, if_pos (by omega)]
  · rw [if_neg h, if_neg (by omega), ← Function.iterate_add_apply]
    have he : i - (off - n) + (n - off) = n + i - off := by omega
    rw [he]

/-- what is copied from `src` on lies outside of the pages of the allocator -/
def SrcOutside (toAddr src : Nat) : Prop := ∀ j, (nextSrc toAddr)^[j] src ≠ 0 → (nextSrc toAddr)^[j] src ∉ usable

theorem SrcOutside.iterate {toAddr src n : Nat} (h : SrcOutside toAddr src) : SrcOutside toAddr ((nextSrc toAddr)^[n] src) := by
  intro j
  rw [← Function.iterate_add_apply]
  exact h (j + n)

/-- the page is filled with bytes of `img`, if memory has them outside of the pages of the allocator -/
theorem fillPage_spec {img : Mem} {toAddr page n k src : Nat} (off : Nat) (hsrc : SrcOutside toAddr src) (hm : ∀ x, x ∉ usable → m x = img x)
    (hp : ∀ j < n, page + (k + j) ∈ usable) :
    (Heap.fillPage toAddr page n k off src m).1 = off - n ∧
    (Heap.fillPage toAddr page n k off src m).2.1 = (nextSrc toAddr)^[n - off] src ∧
    (∀ j < n, (Heap.fillPage toAddr page n k off src m).2.2 (page + (k + j)) = segByte img toAddr off src j) ∧
    ∀ x < page + k, (Heap.fillPage toAddr page n k off src m).2.2 x = m x := by
  induction n generalizing k off src m with
  | zero => exact ⟨rfl, by rw [Nat.zero_sub]; rfl, nofun, fun _ _ => rfl⟩
  | succ n ih =>
    have hnext : ∀ j < n, page + (k + 1 + j) ∈ usable := by
      intro j hj
      have hin := hp (j + 1) (by omega)
      rwa [show k + (j + 1) = k + 1 + j by omega] at hin
    have hkeep : ∀ b x, x ∉ usable → Function.update m (page + k) b x = img x := by
      intro b x hx
      rw [Function.update_of_ne, hm x hx]
      intro he
      exact hx (he ▸ hp 0 (Nat.succ_pos n))
    unfold Heap.fillPage
    by_cases hoff : 0 < off
    · rw [if_pos hoff]
      obtain ⟨hoff', hsrc', hbyte, hout⟩ := @ih (Function.update m (page + k) 0) (k + 1) src (off - 1) hsrc (hkeep 0) hnext
      refine ⟨by rw [hoff']; omega, ?_, fun j hj => ?_, fun x hx => ?_⟩
      · rw [hsrc']
        have he : n - (off - 1) = n + 1 - off := by omega
        rw [he]
      · cases j with
        | zero =>
          rw [hout _ (by omega), Nat.add_zero, Function.update_self]
          exact (if_pos hoff).symm
        | succ j =>
          have he : k + (j + 1) = k + 1 + j := by omega
          have hshift := @segByte_shift img toAddr off src 1 j
          have h0 : 1 - off = 0 := by omega
          rw [h0, Nat.add_comm 1 j] at hshift
          rw [he, hbyte j (by omega), ← hshift]
          rfl
      · rw [hout x (by omega), Function.update_of_ne (by omega)]
    · have h0 : off = 0 := by omega
      subst h0
      rw [if_neg hoff]
      obtain ⟨b, hb⟩ : ∃ b : UInt8, b = if src ≠ 0 then m src else 0 := ⟨_, rfl⟩
      have himg : b = if src ≠ 0 then img src else 0 := by
        rw [hb]
        by_cases hs0 : src = 0
        · rw [if_neg (not_not.mpr hs0), if_neg (not_not.mpr hs0)]
        · rw [if_pos hs0, if_pos hs0, hm src (hsrc 0 hs0)]
      obtain ⟨hoff', hsrc', hbyte, hout⟩ := @ih (Function.update m (page + k) b) (k + 1) (nextSrc toAddr src) 0
        (hsrc.iterate (n := 1)) (hkeep b) hnext
      rw [hb] at hoff' hsrc' hbyte hout
      refine ⟨hoff'.trans (by omega), hsrc', fun j hj => ?_, fun x hx => ?_⟩
      · cases j with
        | zero =>
          refine (hout _ (by omega)).trans ?_
          rw [Nat.add_zero, Function.update_self, ← hb, himg]
          rfl
        | succ j =>
          have he : k + (j + 1) = k + 1 + j := by omega
          rw [he]
          exact hbyte j (by omega)
      · exact (hout x (by omega)).trans (Function.update_of_ne (by omega) _ _)

end FakeKernel
