import FakeKernel.Kernel.Relaunch

/-!
# What execve leaves behind

* `NewAreas`        the areas of a task lead to blocks that were handed out since some state; load_elf keeps that;
* `Accounted`       every block that is outstanding is one of the task, or was there before and was not;
* `execve_leaks`    the buffer of argv is outstanding after every execve that succeeds, and no block of the task.
-/

namespace FakeKernel
open Bytes Mm Heap Uaccess Kernel

variable {k k' k₁ k₂ : Kernel} {h h' h₁ : Heap} {own own' own₁ own₂ : Owners} {q : TaskList → List Nat} {o : Oracle}
  {ph : Phdr} {a₀ : Mm} {mm : Mm} {L : Lists} {N : List Nat} {ptr len ptr' len' : Nat → Nat}
  {t n a m p v va flags root base argv argc envp envc a1 a2 : Nat}

/-! ## the areas of a new image -/

/-- what `own` says the lists of `t` lead to was handed out since `a₀` -/
structure NewAreas (root t : Nat) (a₀ mm : Mm) (L : Lists) (own : Owners) : Prop where
  wf : WellFormed mm root
  out : ∀ b ∈ a₀.out, b ∈ mm.out
  areas : Areas L own t
  new : ∀ p t' r, own.Page p t' r → pageAt p ∈ mm.out ∧ pageAt p ∉ a₀.out

/-- a page that was just handed out was nobody's -/
theorem Mm.Extends.new_out {a a' : Mm} {W : Set Nat} (hx : Extends a a' W N) (hp : p ∈ N) : pageAt p ∉ a.out :=
  fun hin => hx.not_new (.of_mem hin) hp

/-- the links of an area that is added to a task -/
theorem AreaAdded.areas (ha : AreaAdded h h' t n a) (hA : Areas h.lists own t) (hn : ∀ t r, ¬ own.Page (n - 4) t r)
    (hna : ∀ t r, ¬ own.Page (a - 4) t r) : Areas h'.lists (own.addArea t n a) t := by
  obtain ⟨mm, hx, _, hx', _⟩ := ha.mm
  have hnew : n - 4 ≠ a - 4 := fun he => hx'.not_new (hx.new_kept (List.mem_singleton_self _)) (he ▸ List.mem_singleton_self _)
  obtain ⟨own₂, hown₂⟩ : ∃ own₂, own₂ = (own.set (a - 4) t (.loose true)).set (n - 4) t (.loose true) := ⟨_, rfl⟩
  have hobjA : own₂.Obj a t (.loose true) := by
    rw [hown₂]
    exact ⟨ha.area4, (Owners.set_of_ne hnew.symm).mpr Owners.set_self⟩
  have hobjN : own₂.Obj n t (.loose true) := by
    rw [hown₂]
    exact ⟨ha.node4, Owners.set_self⟩
  have hagree : own.Agree own₂ t := by
    rw [hown₂]
    intro p r hr
    rw [Owners.page_set, Owners.page_set]
    constructor
    · rintro (⟨_, _, rfl⟩ | ⟨_, ⟨_, _, rfl⟩ | ⟨_, hp⟩⟩)
      · exact nomatch hr
      · exact nomatch hr
      · exact hp
    · exact fun hp => .inr ⟨fun he => hn t r (he ▸ hp), .inr ⟨fun he => hna t r (he ▸ hp), hp⟩⟩
  have hbase : Areas (h.areaLinks n a) own₂ t := by
    refine hA.congr hagree.listed ⟨fun y r hy hr => ?_, ?_, fun b k hb => ?_⟩
    · have hyn : y ≠ n := fun he => hn t r (he ▸ hy.page)
      show (h.lists.setNode n _).node y = _
      rw [Lists.node_setNode, if_neg hyn]
    · show (((h.lists.setNode n _).listInit (.pages a)).list (.vmAreas t)) = _
      rw [Lists.list_listInit, if_neg nofun]
      rfl
    · show (((h.lists.setNode n _).listInit (.pages a)).list (.pages b)) = _
      rw [Lists.list_listInit, if_neg fun he => hna t _ (ListRef.pages.inj he ▸ hb.page)]
      rfl
  have hnode : (h.areaLinks n a).node n = h.newNode n a := h.areaLinks_node n a
  have hempty : (h.areaLinks n a).list (.pages a) = { first := 0, last := 0 } := by
    unfold Heap.areaLinks
    rw [Lists.list_listInit, if_pos rfl]
  have hareas := hbase.addArea hobjN hobjA (fun he => hnew (by rw [he])) (by rw [hnode]; rfl) (by rw [hnode]; rfl)
    (by rw [hnode]; rfl) hempty
  have hown : (own₂.set (n - 4) t .vnode).set (a - 4) t (.area n) = own.addArea t n a := by
    rw [hown₂]
    exact Owners.addArea_loose own t n a
  rw [hown] at hareas
  have hobj : (own.addArea t n a).Obj n t .vnode := ⟨ha.node4, (Owners.set_of_ne hnew).mpr Owners.set_self⟩
  obtain ⟨hc, hf⟩ := ha.links _ hobj hareas.vm
  exact (hareas.vmLinks hc hf).1

/-- the links of a page that is added to an area -/
theorem PageAdded.areas (hadd : PageAdded h h' root a p m va flags N) (hA : Areas h.lists own t) (ha : own.Obj a t (.area n))
    (hm : ∀ t r, ¬ own.Page (m - 4) t r) (hp : ∀ t r, ¬ own.Page p t r) (hne : p ≠ m - 4) (v : Nat) :
    Areas h'.lists (own.addPage t a m p v) t := by
  obtain ⟨own₂, hown₂⟩ : ∃ own₂, own₂ = (own.set p t (.loose false)).set (m - 4) t (.loose true) := ⟨_, rfl⟩
  have hobjM : own₂.Obj m t (.loose true) := by
    rw [hown₂]
    exact ⟨hadd.node4, Owners.set_self⟩
  have hpageP : own₂.Page p t (.loose false) := by
    rw [hown₂]
    exact (Owners.set_of_ne hne).mpr Owners.set_self
  have hagree : own.Agree own₂ t := by
    rw [hown₂]
    intro s r hr
    rw [Owners.page_set, Owners.page_set]
    constructor
    · rintro (⟨_, _, rfl⟩ | ⟨_, ⟨_, _, rfl⟩ | ⟨_, hs⟩⟩)
      · exact nomatch hr
      · exact nomatch hr
      · exact hs
    · exact fun hs => .inr ⟨fun he => hm t r (he ▸ hs), .inr ⟨fun he => hp t r (he ▸ hs), hs⟩⟩
  obtain ⟨L, hL⟩ : ∃ L, L = h.lists.setNode m (h.newNode m p) := ⟨_, rfl⟩
  have hnode : L.node m = h.newNode m p := by
    rw [hL, Lists.node_setNode, if_pos rfl]
  have hbase : Areas L own₂ t := by
    refine hA.congr hagree.listed ⟨fun y r hy hr => ?_, ?_, fun b k hb => ?_⟩
    · have hym : y ≠ m := fun he => hm t r (he ▸ hy.page)
      rw [hL, Lists.node_setNode, if_neg hym]
    · rw [hL]
      rfl
    · rw [hL]
      rfl
  have hobjA : own₂.Obj a t (.area n) := ⟨ha.1, (hagree _ _ rfl).mpr ha.page⟩
  have hareas := hbase.addPage (v := v) hobjM hpageP hobjA (by rw [hnode]; rfl) (by rw [hnode]; rfl) (by rw [hnode]; rfl)
  have hown : (own₂.set (m - 4) t (.pnode a)).set p t (.user m v) = own.addPage t a m p v := by
    rw [hown₂]
    exact (Owners.addPage_loose (own.set p t (.loose false)) t a m p v).trans (Owners.addPage_set own t a m p v (.loose false))
  rw [hown] at hareas
  have hobj : (own.addPage t a m p v).Obj m t (.pnode a) := ⟨hadd.node4, (Owners.set_of_ne hne.symm).mpr Owners.set_self⟩
  have hA' : (own.addPage t a m p v).Obj a t (.area n) := by
    refine ⟨ha.1, (Owners.set_of_ne fun he => hp t _ (he ▸ ha.page)).mpr ((Owners.set_of_ne fun he => hm t _ (he ▸ ha.page)).mpr ha.page)⟩
  have hclosed := hareas.pages a n hA'
  rw [hadd.lists, ← hL]
  exact (hareas.pageLinks hA' (hclosed.push hobj hobj.ne_zero) (hclosed.push_frame hobj hobj.ne_zero)).1

namespace NewAreas
variable {M : List Nat} {a' : Mm} {W : Set Nat}

/-- a task without areas -/
theorem start (hw : WellFormed a₀ root) (hL : L.list (.vmAreas t) = { first := 0, last := 0 }) :
    NewAreas root t a₀ a₀ L fun _ => none := by
  have hno : ∀ {x r}, ¬ Owners.Obj (fun _ => none) x t r := fun hx => nomatch hx.2
  refine ⟨hw, fun _ => id, ⟨⟨?_, ?_, fun n hn => absurd hn hno, fun n hn => absurd hn hno⟩,
    fun n a => ⟨fun ha => absurd ha hno, fun hn => absurd hn.1 hno⟩, fun a n ha => absurd ha hno, fun m p => ⟨fun hp => ?_, fun hm => ?_⟩,
    fun a m hm => absurd hm hno⟩, nofun⟩
  · rw [hL]
    exact .inl rfl
  · rw [hL]
    exact .inl rfl
  · obtain ⟨v, hp⟩ := hp
    exact nomatch hp
  · obtain ⟨⟨a, ha⟩, _⟩ := hm
    exact absurd ha hno

/-- what was handed out just now is nobody's -/
theorem not_owned (hi : NewAreas root t a₀ mm L own) (hx : Extends mm a' W N) (hp : p ∈ N) (t' : Nat) (r : Role) :
    ¬ own.Page p t' r := fun hpage => hx.new_out hp (hi.new _ _ _ hpage).1

/-- and it was not outstanding at the start -/
theorem new_page (hi : NewAreas root t a₀ mm L own) (hx : Extends mm a' W N) (hp : p ∈ N) :
    pageAt p ∈ a'.out ∧ pageAt p ∉ a₀.out := ⟨hx.new_mem hp, fun hin => hx.new_out hp (hi.out _ hin)⟩

/-- the lists stay as they are -/
theorem grow (hi : NewAreas root t a₀ mm L own) (hw : WellFormed a' root) (hout : ∀ b ∈ mm.out, b ∈ a'.out) :
    NewAreas root t a₀ a' L own :=
  ⟨hw, fun b hb => hout b (hi.out b hb), hi.areas, fun p t' r hp => ⟨hout _ (hi.new p t' r hp).1, (hi.new p t' r hp).2⟩⟩

theorem alloc (hi : NewAreas root t a₀ mm L own) (hx : Extends mm a' ∅ N) : NewAreas root t a₀ a' L own :=
  hi.grow (TreeGrown.alloc hi.wf hx).wf fun _ => hx.old_mem

theorem addArea (hi : NewAreas root t a₀ h.mm h.lists own) (ha : AreaAdded h h' t n a) :
    NewAreas root t a₀ h'.mm h'.lists (own.addArea t n a) ∧ (own.addArea t n a).Obj a t (.area n) ∧
      ∀ p, (∀ t' r, ¬ own.Page p t' r) → pageAt p ∈ h.mm.out → ∀ t' r, ¬ (own.addArea t n a).Page p t' r := by
  have hxt := ha.extends
  have hn : n - 4 ∈ [n - 4] ++ [a - 4] := List.mem_append_left _ (List.mem_singleton_self _)
  have hna : a - 4 ∈ [n - 4] ++ [a - 4] := List.mem_append_right _ (List.mem_singleton_self _)
  have hi' := hi.alloc hxt
  have hpage : ∀ p t' r, (own.addArea t n a).Page p t' r → p ∈ [n - 4] ++ [a - 4] ∨ own.Page p t' r := by
    intro p t' r hp
    unfold Owners.addArea at hp
    rw [Owners.page_set, Owners.page_set] at hp
    rcases hp with ⟨rfl, _⟩ | ⟨_, ⟨rfl, _⟩ | ⟨_, hp⟩⟩
    · exact .inl hna
    · exact .inl hn
    · exact .inr hp
  refine ⟨⟨hi'.wf, hi'.out, ha.areas hi.areas (hi.not_owned hxt hn) (hi.not_owned hxt hna), fun p t' r hp => ?_⟩,
    ⟨ha.area4, Owners.set_self⟩, fun p hno hin t' r hp => ?_⟩
  · exact (hpage p t' r hp).elim (hi.new_page hxt) (hi'.new p t' r)
  · exact (hpage p t' r hp).elim (fun hnew => hxt.new_out hnew hin) (hno t' r)

/-- a page that is nobody's is mapped, added to an area and filled -/
theorem addPage (hi : NewAreas root t a₀ h.mm h.lists own) (hadd : PageAdded h h' root a p m va flags N) (ha : own.Obj a t (.area n))
    (hp : pageAt p ∈ h.mm.out ∧ pageAt p ∉ a₀.out) (hno : ∀ t' r, ¬ own.Page p t' r) (hw : WellFormed a' root) (hout : a'.out = h'.mm.out) :
    ∃ own', NewAreas root t a₀ a' h'.lists own' ∧ own'.Obj a t (.area n) := by
  obtain ⟨mm, hx, _, hsplit, _⟩ := hadd.mm
  have hm : m - 4 ∈ [m - 4] := List.mem_singleton_self _
  have hne : p ≠ m - 4 := fun he => hx.not_new (.of_mem hp.1) (he ▸ hm)
  have hin : ∀ b ∈ mm.out, b ∈ a'.out := fun b hb => by
    rw [hout]
    exact hsplit.grow.old_mem hb
  have hown := hi.not_owned hx hm
  have hi' := hi.grow hw fun b hb => hin b (hx.old_mem hb)
  refine ⟨own.addPage t a m p 0, ⟨hw, hi'.out, hadd.areas hi.areas ha hown hno hne 0, fun s t' r hs => ?_⟩, ha.1, ?_⟩
  · unfold Owners.addPage at hs
    rw [Owners.page_set, Owners.page_set] at hs
    rcases hs with ⟨rfl, _⟩ | ⟨_, ⟨rfl, _⟩ | ⟨_, hs⟩⟩
    · exact ⟨hin _ (hx.old_mem hp.1), hp.2⟩
    · exact ⟨hin _ (hx.new_mem hm), (hi.new_page hx hm).2⟩
    · exact hi'.new s t' r hs
  · have hap : a - 4 ≠ p := fun he => hno t _ (he ▸ ha.page)
    have ham : a - 4 ≠ m - 4 := fun he => hown t _ (he ▸ ha.page)
    exact (Owners.set_of_ne hap).mpr ((Owners.set_of_ne ham).mpr ha.page)

/-- what the lists of areas lead to -/
theorem listed (hi : NewAreas root t a₀ h.mm h.lists own) (hp : SchedBlocks h t p) :
    pageAt p ∉ a₀.out ∨ p = (h.task t).sched - 4 := by
  have hA := hi.areas
  rcases hp with ⟨n, hn, _, hin⟩ | hn | he
  · have hv := hA.listed_vnode n hn
    have ha := (hA.area n _).mpr ⟨hv, rfl⟩
    rcases areaBlocks_role hA ha (hA.listed_pnode ha) hin with ⟨hr, _⟩ | ⟨m, v, hr, _⟩ | hr
    · exact .inl (hi.new _ _ _ hr).2
    · exact .inl (hi.new _ _ _ hr).2
    · exact .inl (hi.new _ _ _ hr).2
  · obtain ⟨n, hin, rfl⟩ := List.mem_map.mp hn
    exact .inl (hi.new _ _ _ (hA.listed_vnode n hin).page).2
  · exact .inr he

/-! ### load_elf -/

theorem loadPages {toAddr endAddr fuel addr off src : Nat} (hi : NewAreas root t a₀ h.mm h.lists own)
    (ha : own.Obj a t (.area n)) (hf : flags < 2 ^ 8)
    (hrun : Heap.loadPages toAddr root flags a endAddr fuel addr off src h = .ok h') :
    ∃ own', NewAreas root t a₀ h'.mm h'.lists own' := by
  induction fuel generalizing h own addr off src with
  | zero => exact nomatch hrun
  | succ fuel ih =>
    unfold Heap.loadPages at hrun
    by_cases hend : addr < endAddr
    · simp only [hend, if_true] at hrun
      obtain ⟨⟨p, h₁⟩, hal, hrun⟩ := Res.bind_eq_ok.mp hrun
      obtain ⟨mm₁, rfl, hp0, hx₁⟩ := Heap.allocPage_spec hi.wf.ok hal
      simp only [hp0, if_false] at hrun
      obtain ⟨⟨err₂, h₂⟩, hadd, hrun⟩ := Res.bind_eq_ok.mp hrun
      have hi₁ := hi.alloc hx₁
      obtain ⟨hpnew, hpold⟩ := hi.new_page hx₁ (List.mem_singleton_self p)
      obtain ⟨rfl, mm₂, m, rfl, _, hx₂, _⟩ := Heap.vmAreaAddPage_spec hi₁.wf.ok hadd
      simp only [ne_eq, not_true_eq_false, if_false] at hrun
      obtain ⟨⟨err₃, h₃⟩, hset, hrun⟩ := Res.bind_eq_ok.mp hrun
      obtain ⟨_, _, m', N, hpt⟩ := pageAdded_of_add (x := h.area) hi₁.wf hf hadd (fun _ _ => rfl) (fun hd => hd) hset
      obtain ⟨mm₃, rfl, hset'⟩ := setPage_heap hset
      split at hrun
      · exact absurd hrun Res.panic_ne_ok
      have hout : ∀ x, ¬ onPage p x → (Heap.fillPage toAddr p pageSize 0 off src mm₃.mem).2.2 x = mm₃.mem x :=
        fun x hx => Heap.fillPage_out (Nat.le_refl _) hx
      obtain ⟨_, hg⟩ := TreeGrown.page hi.wf hx₁ (List.mem_singleton_self p) hx₂ hf hset' hout
      obtain ⟨own₁, hi₂, ha₂⟩ := hi₁.addPage hpt ha ⟨hpnew, hpold⟩ (hi.not_owned hx₁ (List.mem_singleton_self p)) hg.wf rfl
      exact ih hi₂ ha₂ hrun
    · simp only [hend, if_false] at hrun
      cases hrun
      exact ⟨own, hi⟩

theorem loadSegment (hi : NewAreas root t a₀ h.mm h.lists own) (ht : (h.task t).pageTable = root)
    (hrun : h.loadSegment t base ph = .ok h') : ∃ own', NewAreas root t a₀ h'.mm h'.lists own' := by
  unfold Heap.loadSegment at hrun
  obtain ⟨⟨a, h₁⟩, hcreate, hrun⟩ := Res.bind_eq_ok.mp hrun
  obtain ⟨⟨err, h₂⟩, hadd, hrun⟩ := Res.bind_eq_ok.mp hrun
  obtain ⟨rfl, n, hadded, _⟩ := areaAdded_of_create hi.wf.ok hcreate hadd
  simp only [ne_eq, not_true_eq_false, if_false] at hrun
  obtain ⟨hi₁, ha, _⟩ := hi.addArea hadded
  rw [hadded.task, ht] at hrun
  exact hi₁.loadPages ha (pteFlags_lt ph) hrun

theorem loadSegments {n i : Nat} {b : Bool} {res : Except Int Bool} (hi : NewAreas root t a₀ h.mm h.lists own)
    (ht : (h.task t).pageTable = root) (hrun : h.loadSegments t base n i b = .ok (res, h')) :
    ∃ own', NewAreas root t a₀ h'.mm h'.lists own' := by
  induction n generalizing h own i b with
  | zero => exact nomatch hrun
  | succ n ih =>
    unfold Heap.loadSegments at hrun
    simp only at hrun
    split at hrun
    · split at hrun
      · obtain ⟨h₁, hseg, hrun⟩ := Res.bind_eq_ok.mp hrun
        obtain ⟨own₁, hi₁⟩ := hi.loadSegment ht hseg
        have htask := (loadSegment_grown hi.wf ht hseg).1
        exact ih hi₁ (by rw [htask, ht]) hrun
      · split at hrun
        · cases hrun
          exact ⟨own, hi⟩
        · split at hrun
          · exact ih hi ht hrun
          · exact ih hi ht hrun
    · cases hrun
      exact ⟨own, hi⟩

theorem loadStack {b : Bool} (hi : NewAreas root t a₀ h.mm h.lists own) (ht : (h.task t).pageTable = root)
    (hrun : h.loadStack t base b = .ok h') : ∃ own', NewAreas root t a₀ h'.mm h'.lists own' := by
  unfold Heap.loadStack at hrun
  simp only [ht] at hrun
  obtain ⟨⟨p, h₁⟩, halloc, hrun⟩ := Res.bind_eq_ok.mp hrun
  obtain ⟨mm₁, rfl, hp0, hx₁⟩ := Heap.allocPage_spec hi.wf.ok halloc
  simp only [hp0, if_false] at hrun
  have hpin : p ∈ [p] := List.mem_singleton_self p
  obtain ⟨mmc, hclear, hxc⟩ := Heap.clearPage_spec { h with mm := mm₁ } hx₁ hpin
  rw [hclear] at hrun
  have hi₁ : NewAreas root t a₀ ({ h with mm := mmc } : Heap).mm ({ h with mm := mmc } : Heap).lists own := hi.alloc hxc
  have hno := hi.not_owned hxc hpin
  obtain ⟨hpnew, hpold⟩ := hi.new_page hxc hpin
  obtain ⟨⟨a, h₂⟩, hcreate, hrun⟩ := Res.bind_eq_ok.mp hrun
  obtain ⟨⟨err, h₃⟩, hadd, hrun⟩ := Res.bind_eq_ok.mp hrun
  obtain ⟨rfl, n, hat, _⟩ := areaAdded_of_create hi₁.wf.ok hcreate hadd
  simp only [ne_eq, not_true_eq_false, if_false] at hrun
  obtain ⟨hi₂, ha, hno₂⟩ := hi₁.addArea hat
  obtain ⟨⟨err, h₄⟩, hpage, hrun⟩ := Res.bind_eq_ok.mp hrun
  obtain ⟨rfl, mm₄, m', hh₄, _⟩ := Heap.vmAreaAddPage_spec hi₂.wf.ok hpage
  simp only [not_true_eq_false, if_false] at hrun
  obtain ⟨⟨err, h₅⟩, hset, hrun⟩ := Res.bind_eq_ok.mp hrun
  have harea₄ : h₄.area = h₃.area := by
    rw [hh₄]
    rfl
  have hflags : stackPteFlags b ||| pteUser < 2 ^ 8 := by
    cases b <;> decide
  obtain ⟨_, rfl, m, N, hpt⟩ := pageAdded_of_add (x := h₄.area)
    hi₂.wf hflags hpage (fun b _ => by rw [harea₄]) (fun h => by rwa [harea₄]) hset
  simp only [not_true_eq_false, if_false] at hrun
  cases hrun
  obtain ⟨mm₃, hx₄, _, hsplit, _⟩ := hpt.mm
  have hw₄ := (TreeGrown.alloc hi₂.wf hx₄).wf
  obtain ⟨own₂, hi₃, _⟩ := hi₂.addPage hpt ha ⟨hat.extends.old_mem hpnew, hpold⟩ (hno₂ p hno hpnew)
    (TreeGrown.splitting hw₄ hsplit).wf rfl
  exact ⟨own₂, hi₃⟩

theorem loadElf (hi : NewAreas root t a₀ h.mm h.lists own) (ht : (h.task t).pageTable = root)
    (hrun : h.loadElf t base = .ok (0, h')) : ∃ own', NewAreas root t a₀ h'.mm h'.lists own' := by
  unfold Heap.loadElf at hrun
  split at hrun
  · exact absurd (Prod.mk.inj (Except.ok.inj hrun)).1 (by decide)
  obtain ⟨⟨res, h₁⟩, hsegs, hrun⟩ := Res.bind_eq_ok.mp hrun
  have htask := (loadSegments_grown hi.wf ht hsegs).1
  obtain ⟨own₁, hi₁⟩ := hi.loadSegments ht hsegs
  cases res with
  | error err =>
    have herr := loadSegments_error hsegs
    have hzero : err = 0 := (Prod.mk.inj (Except.ok.inj hrun)).1
    exact absurd hzero (by rw [herr]; decide)
  | ok b =>
    obtain ⟨h₂, hstack, hret⟩ := Res.bind_eq_ok.mp hrun
    have hh : h₂ = h' := (Prod.mk.inj (Except.ok.inj hret)).2
    rw [hh] at hstack
    exact hi₁.loadStack (by rw [htask, ht]) hstack

end NewAreas

/-! ## a call that succeeds -/

/-- an error pointer is no vector -/
theorem not_err_of_counted {m : Mem} {c : Nat × Nat} {fuel size : Nat} (hrun : countArgs m argv fuel 0 size = .ok c) :
    isErr argv = false := by
  cases fuel with
  | zero => exact nomatch hrun
  | succ fuel =>
    unfold countArgs at hrun
    by_cases hin : inDirectMap (argv + 8 * 0) = true
    · unfold inDirectMap at hin
      rw [Bool.and_eq_true, decide_eq_true_eq, decide_eq_true_eq] at hin
      have hstop : kernStop < wordCount / 2 := by decide
      unfold isErr
      rw [decide_eq_false_iff_not]
      omega
    · rw [if_neg hin] at hrun
      exact absurd hrun Res.panic_ne_ok

/-- both copies were accepted, and task_reinit and task_init_elf returned 0 -/
theorem sysExecve_loads (hrun : k.sysExecve o a1 a2 = .ok k') (hctl : k'.ctl = .thread) :
    ∃ (k₁ k₂ : Kernel) (argv envp : Nat) (h h₁ h' : Heap), ExecveLoads o a1 a2 k k₁ k₂ argv envp h h₁ ∧
      h₁.initArgs k.currentTask argv envp = .ok (0, h') ∧ k' = { k₂ with heap := h', ctl := .thread } := by
  have hfailed : ∀ {k₂ : Kernel} {argv envp : Nat}, k₂.execveFailed argv envp ≠ .ok k' := by
    intro k₂ argv envp h
    rw [execveFailed_ctl h] at hctl
    exact nomatch hctl
  have hcontrol : ∀ {k k₁ : Kernel} {a buf : Nat}, k.userCopyArgs o.regs a = .ok (buf, k₁) → k₁.currentTask = k.currentTask := by
    intro k k₁ a buf h
    obtain ⟨r, _, hret⟩ := Res.bind_eq_ok.mp h
    obtain ⟨_, _, _, _, hk, _⟩ := leaveAccess_eq k (k.uaccess.userCopyArgs a).state (accessOk a 8 && r == ERR_PTR EFAULT) o.regs
    rw [← (Prod.mk.inj (Except.ok.inj hret)).2, hk]
  unfold Kernel.sysExecve at hrun
  obtain ⟨⟨argv, k₁⟩, hargv, hrun⟩ := Res.bind_eq_ok.mp hrun
  cases hgood : isErr argv with
  | true =>
    simp only [hgood, if_true] at hrun
    rw [← Except.ok.inj hrun] at hctl
    exact nomatch hctl
  | false =>
    simp only [hgood] at hrun
    obtain ⟨⟨envp, k₂⟩, henvp, hrun⟩ := Res.bind_eq_ok.mp hrun
    have hcur : k₂.currentTask = k.currentTask := (hcontrol henvp).trans (hcontrol (k := k.log (.execve k.currentTask)) hargv)
    obtain ⟨⟨ret, h⟩, hre, hrun⟩ := Res.bind_eq_ok.mp hrun
    by_cases h0 : ret ≠ 0
    · rw [if_pos h0] at hrun
      exact absurd hrun hfailed
    rw [if_neg h0] at hrun
    obtain ⟨⟨ret', h'⟩, helf, hrun⟩ := Res.bind_eq_ok.mp hrun
    by_cases h1 : ret' ≠ 0
    · rw [if_pos h1] at hrun
      exact absurd hrun hfailed
    rw [if_neg h1] at hrun
    obtain rfl := not_not.mp h0
    obtain rfl := not_not.mp h1
    simp only [hcur] at hre helf
    unfold Heap.taskInitElf at helf
    obtain ⟨_, _, helf⟩ := Res.bind_eq_ok.mp helf
    obtain ⟨_, _, helf⟩ := Res.bind_eq_ok.mp helf
    obtain ⟨⟨ret, h₁⟩, hload, hargs⟩ := Res.bind_eq_ok.mp helf
    by_cases h2 : ret ≠ 0
    · simp only at hargs
      rw [if_pos h2] at hargs
      exact absurd (Prod.mk.inj (Except.ok.inj hargs)).1 h2
    simp only at hargs
    rw [if_neg h2] at hargs
    obtain rfl := not_not.mp h2
    have hgood' : isErr envp = false := by
      unfold Heap.initArgs at hargs
      obtain ⟨_, _, hargs⟩ := Res.bind_eq_ok.mp hargs
      obtain ⟨_, hcount, _⟩ := Res.bind_eq_ok.mp hargs
      exact not_err_of_counted hcount
    exact ⟨k₁, k₂, argv, envp, h, h₁, h', ⟨hargv, hgood, henvp, hgood', hre, hload⟩, hargs,
      (Except.ok.inj hrun).symm⟩

/-! ## what is left behind -/

/-- what is outstanding in `k'` belongs to the task, or it was there in `k` and did not belong to the task -/
def Accounted (k k' : Kernel) (t : Nat) : Prop :=
  ∀ b, b ∈ k'.heap.mm.out ↔ (b ∈ k.heap.mm.out ∧ ∀ p, TaskBlocks k.heap t p → b ≠ pageAt p) ∨
    ∃ p, TaskBlocks k'.heap t p ∧ b = pageAt p

/-- a page that load_elf and task_init_elf keep is none of the task's -/
theorem taskInitElf_keeps {s : Nat} (hw : WellFormed h.mm (h.task t).pageTable)
    (hL : h.lists.list (.vmAreas t) = { first := 0, last := 0 }) (hload : h.loadElf t base = .ok (0, h₁))
    (hs : Strings h.mm.mem argv argc len) (hs' : Strings h.mm.mem envp envc len')
    (hin : ArgsKept h (h.task t).pageTable argv argc len) (hin' : ArgsKept h (h.task t).pageTable envp envc len')
    (hargs : h₁.initArgs t argv envp = .ok (0, h')) (hout : pageAt s ∈ h.mm.out) (htab : s ∉ tables h.mm.mem 2 (h.task t).pageTable)
    (hsched : s ≠ (h.task t).sched - 4) (hstack : s ≠ (h.task t).kernelStack) (htask : s ≠ t - 4) :
    pageAt s ∈ h'.mm.out ∧ ¬ TaskBlocks h' t s := by
  obtain ⟨root, hroot⟩ : ∃ root, root = (h.task t).pageTable := ⟨_, rfl⟩
  rw [← hroot] at hw htab hin hin'
  obtain ⟨N, hn⟩ := loadElf_new hw hroot.symm hload
  obtain ⟨own, hi⟩ := (NewAreas.start hw hL).loadElf hroot.symm hload
  obtain ⟨hmem, hin₁⟩ := hin.loaded hn
  obtain ⟨hmem', hin₁'⟩ := hin'.loaded hn
  obtain ⟨mem, frame, hh, _, _, _, _, _, _, _, _, hsame⟩ := initArgs_tables (hs.congr hmem) (hs'.congr hmem')
    (fun x hx => (hin₁ x hx).2) (fun x hx => (hin₁' x hx).2) rfl hargs
  have hsp := hn.spendable
  obtain ⟨hw', _, htables⟩ := hn.grown.wf.extends (hn.grown.wf.ok.write_page hsp.kept hsp.dvd hsame) fun s hs he =>
    hsp.table (Set.mem_singleton_iff.mp he ▸ hs)
  have hmm : h'.mm = h₁.mm.setMem mem := by
    rw [hh]
    rfl
  have hfields : (h'.task t).sched = (h.task t).sched ∧ (h'.task t).kernelStack = (h.task t).kernelStack ∧
      (h'.task t).pageTable = root := by
    obtain ⟨_, htask₁⟩ := loadElf_task hw hroot.symm hload
    rw [hh]
    show (Function.update h₁.task t { h₁.task t with userFrame := frame } t).sched = _ ∧
      (Function.update h₁.task t { h₁.task t with userFrame := frame } t).kernelStack = _ ∧
      (Function.update h₁.task t { h₁.task t with userFrame := frame } t).pageTable = _
    rw [htask₁, Function.update_self]
    show (Function.update h.task t _ t).sched = _ ∧ (Function.update h.task t _ t).kernelStack = _ ∧
      (Function.update h.task t _ t).pageTable = _
    rw [Function.update_self, hroot]
    exact ⟨rfl, rfl, rfl⟩
  have hi' : NewAreas root t h.mm h'.mm h'.lists own := by
    rw [hmm, hh]
    exact hi.grow hw' fun _ => id
  refine ⟨hi'.out _ hout, fun hb => ?_⟩
  obtain ⟨h1, h2, h3⟩ := hfields
  rcases hb with hb | hb | hb | hb
  · cases hi'.listed hb with
    | inl hnew => exact hnew hout
    | inr he => exact hsched (he.trans (by rw [h1]))
  · rw [h3, hmm] at hb
    have hb : s ∈ tables mem 2 root := hb
    rw [show tables mem 2 root = tables h₁.mm.mem 2 root from htables] at hb
    cases hn.grown.table s hb with
    | inl hold => exact htab hold
    | inr hnew => exact hn.grown.grow.new_out hnew hout
  · exact hstack (hb.trans h2)
  · exact htask hb

/-- both buffers are outstanding, and no blocks of the task -/
theorem ExecveLoads.leaks (hl : ExecveLoads o a1 a2 k k₁ k₂ argv envp h h₁) (ha : Active k own q)
    (hargs : h₁.initArgs k.currentTask argv envp = .ok (0, h')) : ∀ s, s = argv - 4 ∨ s = envp - 4 →
      pageAt s ∉ k.heap.mm.out ∧ pageAt s ∈ h'.mm.out ∧ ¬ TaskBlocks h' k.currentTask s := by
  have ha' := ha.log (.execve k.currentTask)
  obtain ⟨argc, ptr, len, own₁, hacc⟩ := userCopyArgs_buffer ha'.world hl.copyArgv hl.goodArgv
  obtain ⟨envc, ptr', len', own₂, hacc'⟩ := userCopyArgs_buffer hacc.world hl.copyEnvp hl.goodEnvp
  obtain ⟨_, hlive₁, htask₁, _⟩ := hacc.control
  obtain ⟨_, hlive₂, htask₂, _⟩ := hacc'.control
  have ht0 : k.currentTask ≠ 0 := fun h0 => ha.world.zero_not_live (h0 ▸ ha.live)
  have hw₂ := hacc'.world
  have ht₂ : k.currentTask ∈ k₂.heap.live := by
    rw [hlive₂, hlive₁]
    exact ha.live
  have hnot : ∀ g, (k₂.heap.task k.currentTask).sched ∉ q g := by
    rw [htask₂, htask₁]
    exact ha.sched_not_queued
  obtain ⟨_, hwf, hs, hin, hs', hin'⟩ := hacc.reinit ha' hacc' hl.reinit
  obtain ⟨_, n, h₀, mm, D₁, D₂, hi⟩ := taskReinit_spec hw₂ ht₂ hnot hl.reinit
  obtain ⟨_, _, _, _, _, htask⟩ := hi.fields
  have hlists : h.lists.list (.vmAreas k.currentTask) = { first := 0, last := 0 } := by
    rw [hi.heap]
    show (((h₀.lists.listInit (.vmAreas k.currentTask)).setNode n _).listPush (.queue .tasks) n).list _ = _
    rw [Lists.list_listPush, if_neg nofun, Lists.list_setNode, Lists.list_listInit, if_pos rfl]
  have hb := (hacc.buffer _ ht0).accepted hacc' hacc.world ht0
  have hb' := hacc'.buffer k.currentTask ht0
  have hold : ∀ s, pageAt s ∈ k₂.heap.mm.out → (∀ r, ¬ own₂.Page s k.currentTask r) →
      pageAt s ∈ h'.mm.out ∧ ¬ TaskBlocks h' k.currentTask s := by
    intro s hout hfree
    obtain ⟨hout', hnew, _, htab⟩ := hi.page hw₂ ht₂ hout hfree
    have hstatic := hw₂.static _ ht₂
    rw [← hi.pageTable] at htab
    refine taskInitElf_keeps hwf hlists hl.load hs hs' hin hin' hargs hout' htab ?_ ?_ ?_
    · rw [htask]
      exact hnew
    · rw [htask]
      exact fun he => hfree _ (he ▸ hstatic.stack)
    · exact fun he => hfree _ (he ▸ hstatic.task.page)
  have hx : Extends k.heap.mm k₁.heap.mm ∅ [argv - 4] := hacc.mm
  rintro s (rfl | rfl)
  · exact ⟨hx.new_out (List.mem_singleton_self _), hold _ hb.page hb.free⟩
  · exact ⟨fun hin => hacc'.mm.new_out (List.mem_singleton_self _) (hx.old_mem hin), hold _ hb'.page hb'.free⟩

theorem not_accounted (hnew : pageAt p ∉ k.heap.mm.out) (hout : pageAt p ∈ k'.heap.mm.out) (hno : ¬ TaskBlocks k'.heap t p) :
    ¬ Accounted k k' t := by
  intro hacc
  cases (hacc _).mp hout with
  | inl hold => exact hnew hold.1
  | inr hblock =>
    obtain ⟨s, hs, he⟩ := hblock
    rw [pageAt_injective he] at hno
    exact hno hs

/-- **Leaks of execve.**  After every call of execve that succeeds the buffers of argv and envp are outstanding, and they are
no blocks of the task. -/
theorem execve_leaks (ha : Active k own q) (hc : k.Calls SYS_execve) (hrun : k.resume o = .ok k') (hok : k'.ctl = .thread) :
    ¬ Accounted k k' k.currentTask := by
  rw [hc.execve] at hrun
  obtain ⟨k₁, k₂, argv, envp, h, h₁, h', hl, hargs, rfl⟩ := sysExecve_loads hrun hok
  obtain ⟨hnew, hout, hno⟩ := hl.leaks ha.callFrame.active hargs _ (.inl rfl)
  exact not_accounted hnew hout hno

/-- the theorem when the first task calls execve -/
theorem execve_leaks_first : ∃ k k' : Kernel, k.Reachable ∧ k.Calls SYS_execve ∧ k'.ctl = .thread ∧ ¬ Accounted k k' k.currentTask := by
  obtain ⟨k, k', _, _, _, hr, hthread, hc, hrun, _, hre, _⟩ := first_relaunched
  obtain ⟨own, q, hcons⟩ := hr.consistent
  exact ⟨k, k', hr, hc, hre.ctl, execve_leaks (hcons.active (.inr hthread)) hc hrun hre.ctl⟩

/-- it leaves both buffers behind -/
theorem first_execve_leaks : ∃ (k k' : Kernel) (o : Oracle), k.Reachable ∧ k.ctl = .thread ∧ k.Calls SYS_execve ∧
    k.resume o = .ok k' ∧ k'.ctl = .thread ∧ ¬ Accounted k k' k.currentTask := by
  obtain ⟨k, k', own, _, _, hr, hthread, hc, hrun, ha, hre, _⟩ := first_relaunched
  have hcall := hrun
  rw [hc.execve] at hcall
  obtain ⟨k₁, k₂, argv, envp, h, h₁, h', hl, hargs, rfl⟩ := sysExecve_loads hcall hre.ctl
  obtain ⟨hnew, hout, hno⟩ := hl.leaks ha hargs _ (.inl rfl)
  exact ⟨k, _, quietOracle, hr, hthread, hc, hrun, hre.ctl, not_accounted hnew hout hno⟩

end FakeKernel
