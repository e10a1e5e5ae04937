import FakeKernel.Kernel.Lookup
import FakeKernel.Kernel.Unload

/-!
# The growth of a stack (task_entry)

* `growStack_run`, `expandStack_run`   one turn of the loop, and the loop;
* `vmPteFlags`        the flags of a page table entry for the flags of an area;
* `NewPages`, `Expanded`   what the growth of a stack should do;
* `stack_expansion`   when it does.
-/

namespace FakeKernel
open Bytes Bitfield Mm Heap

variable {h h' : Heap} {own own' : Owners} {q : TaskList → List Nat} {k k' : Kernel} {a₀ : Mm} {l l₀ : List PageCall}
  {ns : List Nat} {table t n a x vaStart : Nat} {c : PageCall} {e : Elf} {b : Bool}

/-! ## the pages -/

/-- one turn maps a fresh page of zeros below the area -/
theorem growStack_run (hw₀ : WellFormed a₀ table) (hr : LoadRun table l₀ a₀ h.mm) (ht : (h.task t).pageTable = table)
    (hrun : h.growStack t a = .ok h') : ∃ c, LoadRun table (c :: l₀) a₀ h'.mm ∧ c.va = lowerPage (h.area a).va ∧
      c.flags = (pteFlagsFromVmFlags (h.area a).flags ||| pteUser) ∧ c.content = (fun _ => 0) ∧ ¬ h.mm.KeptPage c.page ∧
      h'.task = h.task ∧ h'.area = Function.update h.area a (h.area a).grown := by
  unfold Heap.growStack at hrun
  obtain ⟨⟨p, h₁⟩, hal, hrun⟩ := Res.bind_eq_ok.mp hrun
  obtain ⟨hp0, mm, hclear, hrc, hp, hother, hzero, hfresh⟩ := zeroPage_run hw₀ hr hal
  simp only [hp0, if_false, hclear] at hrun
  obtain ⟨⟨err, h₂⟩, hadd, hrun⟩ := Res.bind_eq_ok.mp hrun
  obtain ⟨rfl, mm₂, m, rfl, _, hx, _⟩ := Heap.vmAreaAddPage_spec (hrc.inv hw₀).1.ok hadd
  simp only [ne_eq, not_true_eq_false, if_false] at hrun
  obtain ⟨⟨err, h₃⟩, hset, hrun⟩ := Res.bind_eq_ok.mp hrun
  obtain ⟨mm₃, rfl, hset'⟩ := setPageUser_heap hset
  have hset'' : setPage table (lowerPage (h.area a).va) (PA p) (pteFlagsFromVmFlags (h.area a).flags ||| pteUser) mm₂
      = .ok (err, mm₃) := by
    rw [← ht]
    exact hset'
  obtain ⟨rfl, hr'⟩ := hrc.mapKept hw₀ hp hother hzero hx pteFlags_user_lt hset''
  simp only [not_true_eq_false, if_false] at hrun
  cases hrun
  exact ⟨_, hr', rfl, rfl, rfl, hfresh, rfl, rfl⟩

/-- the calls for `n` pages from `vaStart` on, the lowest page last -/
structure GrowCalls (a : Mm) (vaStart n flags : Nat) (l : List PageCall) : Prop where
  va : l.map PageCall.va = (List.range n).map fun i => vaStart + i * pageSize
  flags : ∀ c ∈ l, c.flags = flags
  content : ∀ c ∈ l, c.content = fun _ => 0
  fresh : ∀ c ∈ l, ¬ a.KeptPage c.page

/-- an area that begins at `vaStart` and ends where `x` does -/
structure GrownTo (x x' : VmArea) (vaStart : Nat) : Prop where
  va : x'.va = vaStart
  stop : vmAreaEndVa x' = vmAreaEndVa x
  flags : x'.flags = x.flags

theorem lowerPage_of_le {va : Nat} (h0 : pageSize ≤ va) (hlt : va < wordCount) : lowerPage va = va - pageSize := by
  unfold lowerPage wordCount pageSize at *
  omega

theorem grown_endVa {x : VmArea} (h0 : pageSize ≤ x.va) (hlt : x.va < wordCount) :
    vmAreaEndVa x.grown = vmAreaEndVa x := by
  show (lowerPage x.va + ((x.nPages + 1) % wordCount) <<< pageIndexBits % wordCount) % wordCount = _
  unfold vmAreaEndVa
  rw [lowerPage_of_le h0 hlt, Nat.shiftLeft_eq, Nat.shiftLeft_eq]
  unfold pageIndexBits wordCount pageSize at *
  omega

theorem expandStack_run {fuel : Nat} (hw₀ : WellFormed a₀ table) (hr : LoadRun table l₀ a₀ h.mm)
    (ht : (h.task t).pageTable = table) (hva : pageSize ∣ (h.area a).va) (hlt : (h.area a).va < wordCount)
    (hstart : pageSize ∣ vaStart) (hle : vaStart ≤ (h.area a).va)
    (hrun : h.expandStack t a vaStart fuel = .ok h') : ∃ n l, LoadRun table (l ++ l₀) a₀ h'.mm ∧
      (h.area a).va = vaStart + n * pageSize ∧
      GrowCalls h.mm vaStart n (pteFlagsFromVmFlags (h.area a).flags ||| pteUser) l ∧ h'.task = h.task ∧
      (∀ b ≠ a, h'.area b = h.area b) ∧ GrownTo (h.area a) (h'.area a) vaStart := by
  induction fuel generalizing h l₀ with
  | zero => cases hrun
  | succ fuel ih =>
    unfold Heap.expandStack at hrun
    by_cases hgt : vaStart < (h.area a).va
    · simp only [hgt, if_true] at hrun
      obtain ⟨h₁, hgrow, hrun⟩ := Res.bind_eq_ok.mp hrun
      obtain ⟨c, hr₁, hcva, hflags, hcontent, hfresh, htask, harea⟩ := growStack_run hw₀ hr ht hgrow
      have hself : h₁.area a = (h.area a).grown := by rw [harea, Function.update_self]
      have hnext : vaStart + pageSize ≤ (h.area a).va := by
        obtain ⟨i, hi⟩ := hstart
        obtain ⟨j, hj⟩ := hva
        unfold pageSize at *
        omega
      have hpage : pageSize ≤ (h.area a).va := Nat.le_trans (Nat.le_add_left _ _) hnext
      have hlow := lowerPage_of_le hpage hlt
      obtain ⟨_, hw₁, _⟩ := growStack_run (hr.inv hw₀).1 (.refl h.mm) ht hgrow
      have hgva : (h₁.area a).va = (h.area a).va - pageSize := by
        rw [hself]
        exact hlow
      have hgflags : (h₁.area a).flags = (h.area a).flags := by rw [hself, VmArea.grown_flags]
      obtain ⟨n, l, hr', hn, hl, htask', hother, hto⟩ := ih hr₁ (by rw [htask, ht]) (by rw [hgva]; exact Nat.dvd_sub hva (Nat.dvd_refl _))
        (by omega) (by omega) hrun
      rw [hgva] at hn
      rw [hgflags] at hl
      refine ⟨n + 1, l ++ [c], ?_, ?_, ⟨?_, ?_, ?_, ?_⟩, htask'.trans htask, fun b hb => ?_, ?_, ?_, ?_⟩
      · rw [List.append_assoc]
        exact hr'
      · rw [Nat.succ_mul]
        omega
      · rw [List.map_append, hl.va, List.range_succ, List.map_append]
        have hc : c.va = vaStart + n * pageSize := by rw [hcva, hlow, hn]
        show _ ++ [c.va] = _ ++ [vaStart + n * pageSize]
        rw [hc]
      · intro c' hc'
        cases List.mem_append.mp hc' with
        | inl hc' => exact hl.flags c' hc'
        | inr hc' => rw [List.mem_singleton.mp hc', hflags]
      · intro c' hc'
        cases List.mem_append.mp hc' with
        | inl hc' => exact hl.content c' hc'
        | inr hc' => rw [List.mem_singleton.mp hc', hcontent]
      · intro c' hc'
        cases List.mem_append.mp hc' with
        | inl hc' => exact fun hkept => hl.fresh c' hc' (hw₁.kept (hr.inv hw₀).1 hkept)
        | inr hc' =>
          rw [List.mem_singleton.mp hc']
          exact hfresh
      · rw [hother b hb, harea, Function.update_of_ne hb]
      · exact hto.va
      · rw [hto.stop, hself, grown_endVa hpage hlt]
      · rw [hto.flags, hgflags]
    · simp only [hgt, if_false] at hrun
      cases hrun
      have he : (h'.area a).va = vaStart := by omega
      refine ⟨0, [], hr, by omega, ⟨rfl, fun _ hc => absurd hc List.not_mem_nil, fun _ hc => absurd hc List.not_mem_nil,
        fun _ hc => absurd hc List.not_mem_nil⟩, rfl, fun _ _ => rfl, he, rfl, rfl⟩

/-- pages of zeros that were free in `h`, one for each page number from `lo` to `hi` -/
structure NewPages (h h' : Heap) (root lo hi flags : Nat) (page : Nat → Nat) : Prop where
  mapped : ∀ x, lo ≤ x → x < hi → mapOf h' root x = some ⟨PA (page (x / pageSize)) + x % pageSize, flags⟩
  zero : ∀ x, lo ≤ x → x < hi → h'.mm.mem (page (x / pageSize) + x % pageSize) = 0
  fresh : ∀ x, lo ≤ x → x < hi → ¬ h.mm.KeptPage (page (x / pageSize))
  apart : ∀ x y, lo ≤ x → x < hi → lo ≤ y → y < hi → page (x / pageSize) = page (y / pageSize) →
    x / pageSize = y / pageSize

theorem GrowCalls.va_of_mem {a : Mm} {flags : Nat} (hl : GrowCalls a vaStart n flags l) (hc : c ∈ l) :
    ∃ i < n, c.va = vaStart + i * pageSize := by
  have hin : c.va ∈ l.map PageCall.va := List.mem_map_of_mem hc
  rw [hl.va] at hin
  obtain ⟨i, hi, he⟩ := List.mem_map.mp hin
  exact ⟨i, List.mem_range.mp hi, he.symm⟩

theorem GrowCalls.inside {a : Mm} {flags : Nat} (hl : GrowCalls a vaStart n flags l) (hstart : pageSize ∣ vaStart)
    (hlt : vaStart + n * pageSize < 2 ^ 39) (hc : c ∈ l) (hx : x < 2 ^ 39) (hcx : SamePage 0 x c.va) :
    vaStart ≤ x ∧ x < vaStart + n * pageSize := by
  obtain ⟨i, hi, he⟩ := hl.va_of_mem hc
  obtain ⟨b, rfl⟩ := hstart
  rw [he] at hcx
  unfold SamePage pageSize at *
  omega

/-- the call for an address of the new pages -/
theorem GrowCalls.call {a : Mm} {flags : Nat} (hl : GrowCalls a vaStart n flags l) (hstart : pageSize ∣ vaStart)
    (hlt : vaStart + n * pageSize < 2 ^ 39) (h1 : vaStart ≤ x) (h2 : x < vaStart + n * pageSize) :
    ∃ c ∈ l, lastCall l (x / pageSize * pageSize) = some c ∧ lastCall l x = some c ∧ c.va = x / pageSize * pageSize := by
  obtain ⟨b, rfl⟩ := hstart
  have hin : x / pageSize * pageSize ∈ l.map PageCall.va := by
    rw [hl.va]
    refine List.mem_map.mpr ⟨x / pageSize - b, List.mem_range.mpr ?_, ?_⟩
    · unfold pageSize at *
      omega
    · unfold pageSize at *
      omega
  obtain ⟨c₀, hc₀, he₀⟩ := List.mem_map.mp hin
  have hsame : SamePage 0 x (x / pageSize * pageSize) := by
    unfold SamePage pageSize
    omega
  cases hcall : lastCall l x with
  | none =>
    rw [← he₀] at hsame
    exact absurd hsame (lastCall_eq_none.mp hcall c₀ hc₀)
  | some c =>
    obtain ⟨hc, hcx⟩ := lastCall_some hcall
    refine ⟨c, hc, ?_, rfl, ?_⟩
    · rw [← lastCall_congr hsame, hcall]
    · obtain ⟨i, hi, he⟩ := hl.va_of_mem hc
      rw [he] at hcx ⊢
      unfold SamePage pageSize at *
      omega

theorem expandStack_pages {fuel : Nat} (hw : WellFormed h.mm table) (ht : (h.task t).pageTable = table)
    (hva : pageSize ∣ (h.area a).va) (hlt : (h.area a).va < wordCount) (hstart : pageSize ∣ vaStart)
    (hstack : vaStart < userStack) (hle : vaStart ≤ (h.area a).va) (hrun : h.expandStack t a vaStart fuel = .ok h') :
    (∃ page, NewPages h h' table vaStart (h.area a).va (pteFlagsFromVmFlags (h.area a).flags ||| pteUser) page) ∧
      (∀ x < 2 ^ 39, ¬ (vaStart ≤ x ∧ x < (h.area a).va) → mapOf h' table x = mapOf h table x) ∧ h'.task = h.task ∧
      (∀ b ≠ a, h'.area b = h.area b) ∧ GrownTo (h.area a) (h'.area a) vaStart := by
  obtain ⟨n, l, hr, hn, hl, htask, hother, hto⟩ := expandStack_run hw (.refl h.mm) ht hva hlt hstart hle hrun
  rw [List.append_nil] at hr
  obtain ⟨_, hholds⟩ := hr.inv hw
  have hlen : n ≤ 2 ^ 10 := by
    have hle := hr.length_le hw
    have he := congrArg List.length hl.va
    rw [List.length_map, List.length_map, List.length_range] at he
    omega
  have hbound : vaStart + n * pageSize < 2 ^ 39 := by
    unfold userStack pageSize at *
    omega
  rw [hn]
  refine ⟨⟨fun v => (lastCall l (v * pageSize)).elim 0 PageCall.page, ?_, ?_, ?_, ?_⟩, ?_, htask, hother, hto⟩
  · intro x h1 h2
    obtain ⟨c, hc, hcall, hcall', _⟩ := hl.call hstart hbound h1 h2
    show walk h'.mm.mem 2 table x = _
    rw [hr.walk hw x, hcall, hcall']
    show setLeaf 0 (PA c.page) c.flags x = some ⟨PA c.page + x % pageSize, _⟩
    have hf := pteFlagsFromVmFlags_userLeaf (h.area a).flags
    rw [hl.flags c hc, setLeaf_eq (.inl hf.leaf), if_neg hf.valid, Nat.mod_eq_of_lt (PA_usable (hholds c hc).usable).2]
    rfl
  · intro x h1 h2
    obtain ⟨c, hc, hcall, _⟩ := hl.call hstart hbound h1 h2
    rw [hcall]
    show h'.mm.mem (c.page + x % pageSize) = 0
    rw [(hholds c hc).content _ (Nat.mod_lt _ (by decide)), hl.content c hc]
  · intro x h1 h2
    obtain ⟨c, hc, hcall, _⟩ := hl.call hstart hbound h1 h2
    rw [hcall]
    exact hl.fresh c hc
  · intro x y h1 h2 h3 h4 he
    obtain ⟨c, hc, hcall, _, hcva⟩ := hl.call hstart hbound h1 h2
    obtain ⟨c', hc', hcall', _, hcva'⟩ := hl.call hstart hbound h3 h4
    rw [hcall, hcall'] at he
    have hsame : c = c' := List.inj_on_of_nodup_map hr.nodup hc hc' he
    rw [hsame, hcva'] at hcva
    exact (Nat.eq_of_mul_eq_mul_right (by decide) hcva).symm
  · intro x hx hnot
    show walk h'.mm.mem 2 table x = _
    have hnone : lastCall l x = none := lastCall_eq_none.mpr fun c hc hcx => hnot (hl.inside hstart hbound hc hx hcx)
    rw [hr.walk hw x, hnone]
    rfl

/-! ## the areas -/

/-- the lists of areas do not change -/
theorem PageTurn.vnode {p m va flags : Nat} (hpt : PageTurn q t a va flags h own h' own' p m) (hw : World h own q)
    (ht : t ∈ h.live) (ha : own.Obj a t (.area n)) (hx : own.Obj x t .vnode) : h'.node x = h.node x := by
  obtain ⟨N, M, hk⟩ := hpt.takes hw.held
  have hm4 := hpt.node4
  have hm0 : m ≠ 0 := by omega
  have hne : x ≠ m := hk.new hw.held hx
  have hlast : x ≠ ((h.lists.setNode m (h.newNode m p)).list (.pages a)).last := by
    intro e
    rw [Lists.list_setNode] at e
    cases ((hw.areas t ht).pages a n ha).last with
    | inl h0 => exact hx.ne_zero (e.trans h0)
    | inr hlast =>
      rw [← e] at hlast
      exact nomatch (hx.unique hlast).2
  show h'.lists.node x = h.lists.node x
  rw [hpt.lists, Lists.node_listPush_of_ne hm0 hne hlast, Lists.node_setNode, if_neg hne]

theorem expandStack_nodes {fuel : Nat} (hw : World h own q) (ht : t ∈ h.live) (ha : own.Obj a t (.area n))
    (hvm : ∀ x ∈ ns, own.Obj x t .vnode) (hrun : h.expandStack t a vaStart fuel = .ok h') :
    (∀ x ∈ ns, h'.node x = h.node x) ∧ h'.lists.list (.vmAreas t) = h.lists.list (.vmAreas t) := by
  obtain ⟨own', _, ⟨_, _, _, _, hnode, hlist⟩, _⟩ := expandStack_rule
    (I := fun h₁ own₁ => World h₁ own₁ q ∧ t ∈ h₁.live ∧ own₁.Obj a t (.area n) ∧ (∀ x ∈ ns, own₁.Obj x t .vnode) ∧
      (∀ x ∈ ns, h₁.node x = h.node x) ∧ h₁.lists.list (.vmAreas t) = h.lists.list (.vmAreas t))
    (fun {h₁ own₁ h₂ own₂ p m} hI _ hpt _ => by
      obtain ⟨hw, ht, ha, hvm, hnode, hlist⟩ := hI
      refine ⟨hpt.grown.world, hpt.grown.live ▸ ht, hpt.grown.mono.obj ha rfl, fun x hx => hpt.grown.mono.obj (hvm x hx) rfl,
        fun x hx => ?_, ?_⟩
      · rw [hpt.vnode hw ht ha (hvm x hx), hnode x hx]
      · rw [hpt.vmList, hlist])
    ⟨hw, ht, ha, hvm, fun _ _ => rfl, rfl⟩ hw ht ha hrun
  exact ⟨hnode, hlist⟩

/-- where vm_find_stack stops -/
theorem AreaList.findsStack_at (hl : AreaList h (.vmAreas t) ns) (hfind : h.vmFindStack (.vmAreas t) x = .ok a) (h0 : a ≠ 0) :
    ∃ l₁ n l₂, ns = l₁ ++ n :: l₂ ∧ (h.node n).value = a ∧ x < (h.area a).va ∧
      ∀ m ∈ l₁, (h.areaOf m).va ≤ x ∧ vmAreaEndVa (h.areaOf m) < x := by
  rw [hl.vmFindStack_eq] at hfind
  have hfind := Except.ok.inj hfind
  cases hf : ns.find? fun n => vmAreaIn (h.areaOf n) x || decide (x < (h.areaOf n).va) with
  | none =>
    rw [hf] at hfind
    exact absurd hfind.symm h0
  | some n =>
    rw [hf] at hfind
    have hfind : (if vmAreaIn (h.areaOf n) x then 0 else if (h.areaOf n).flags &&& vmStack ≠ 0 then (h.node n).value else 0)
        = a := hfind
    obtain ⟨htest, l₁, l₂, hns, hfirst⟩ := List.find?_eq_some_iff_append.mp hf
    by_cases hin : vmAreaIn (h.areaOf n) x = true
    · rw [if_pos hin] at hfind
      exact absurd hfind.symm h0
    · rw [if_neg hin] at hfind
      have hlt : x < (h.areaOf n).va := by
        rw [Bool.eq_false_of_not_eq_true hin, Bool.false_or] at htest
        exact of_decide_eq_true htest
      split at hfind
      · refine ⟨l₁, n, l₂, hns, hfind, ?_, fun m hm => ?_⟩
        · rw [← hfind]
          exact hlt
        · have hm := hfirst m hm
          rw [Bool.not_eq_true', Bool.or_eq_false_iff, decide_eq_false_iff_not] at hm
          have hle := Nat.not_lt.mp hm.2
          refine ⟨hle, Nat.not_le.mp fun hge => ?_⟩
          have hmin : vmAreaIn (h.areaOf m) x = true := vmAreaIn_iff.mpr <| (Nat.lt_or_eq_of_le hge).imp
            (fun hlt => ⟨hle, hlt⟩) fun he => ⟨hle, he⟩
          rw [hm.1] at hmin
          exact nomatch hmin
      · exact absurd hfind.symm h0

theorem dvd_endVa {y : VmArea} (hva : pageSize ∣ y.va) : pageSize ∣ vmAreaEndVa y := by
  have hword : pageSize ∣ wordCount := by decide
  have hpages : pageSize ∣ y.nPages <<< pageIndexBits := by
    rw [Nat.shiftLeft_eq]
    exact Nat.dvd_mul_left _ _
  exact (Nat.dvd_mod_iff hword).mpr (Nat.dvd_add hva ((Nat.dvd_mod_iff hword).mpr hpages))

/-- the areas stay in order when the first one above `x` grows down to the page of `x` -/
theorem AreaList.grown {l₁ l₂ : List Nat} (hl : AreaList h (.vmAreas t) ns) (hns : ns = l₁ ++ n :: l₂)
    (halign : ∀ m ∈ ns, pageSize ∣ (h.areaOf m).va) (hlt : x < (h.areaOf n).va)
    (hpre : ∀ m ∈ l₁, (h.areaOf m).va ≤ x ∧ vmAreaEndVa (h.areaOf m) < x) (hnode : ∀ m ∈ ns, h'.node m = h.node m)
    (hlist : h'.lists.list (.vmAreas t) = h.lists.list (.vmAreas t))
    (hother : ∀ m ∈ ns, m ≠ n → h'.areaOf m = h.areaOf m)
    (hto : GrownTo (h.areaOf n) (h'.areaOf n) (x / pageSize * pageSize)) : AreaList h' (.vmAreas t) ns := by
  have hchain : Chain (fun m => (h'.node m).next) 0 (h'.lists.list (.vmAreas t)).first ns := by
    rw [hlist]
    exact hl.chain.congr fun m hm => by rw [hnode m hm]
  have hnd := hl.chain.nodup
  have harea : ∀ m ∈ ns, (h'.node m).value ≠ 0 := by
    intro m hm
    rw [hnode m hm]
    exact hl.area m hm
  have hmod := Nat.mod_lt x (show pageSize > 0 by decide)
  have hfloor := Nat.div_add_mod' x pageSize
  have hsorted := hl.sorted
  have hdisjoint := hl.disjoint
  subst hns
  have hin : ∀ {m}, m ∈ l₁ → m ∈ l₁ ++ n :: l₂ := fun hm => List.mem_append_left _ hm
  have hin' : ∀ {m}, m ∈ l₂ → m ∈ l₁ ++ n :: l₂ := fun hm => List.mem_append_right _ (List.mem_cons_of_mem _ hm)
  have hne : ∀ {m}, m ∈ l₁ → m ≠ n := fun {m} hm e =>
    (List.nodup_append.mp hnd).2.2 m hm n List.mem_cons_self e
  have hne' : ∀ {m}, m ∈ l₂ → m ≠ n := fun hm e =>
    (List.nodup_cons.mp (List.nodup_append.mp hnd).2.1).1 (e ▸ hm)
  have hsame : ∀ {m}, m ∈ l₁ → h'.areaOf m = h.areaOf m := fun hm => hother _ (hin hm) (hne hm)
  have hsame' : ∀ {m}, m ∈ l₂ → h'.areaOf m = h.areaOf m := fun hm => hother _ (hin' hm) (hne' hm)
  -- whatever held between two areas is only to be shown for pairs with the area that grows
  have hpairs : ∀ {R : VmArea → VmArea → Prop}, (l₁ ++ n :: l₂).Pairwise (fun m m' => R (h.areaOf m) (h.areaOf m')) →
      (∀ m ∈ l₁, R (h.areaOf m) (h'.areaOf n)) → (∀ m ∈ l₂, R (h.areaOf n) (h.areaOf m) → R (h'.areaOf n) (h.areaOf m)) →
      (l₁ ++ n :: l₂).Pairwise fun m m' => R (h'.areaOf m) (h'.areaOf m') := by
    intro R hR h1 h2
    obtain ⟨hR₁, hRn, hcross⟩ := List.pairwise_append.mp hR
    obtain ⟨hn₂, hR₂⟩ := List.pairwise_cons.mp hRn
    refine List.pairwise_append.mpr ⟨hR₁.imp_of_mem fun hm hm' hr => ?_, List.pairwise_cons.mpr ⟨fun m hm => ?_,
      hR₂.imp_of_mem fun hm hm' hr => ?_⟩, fun m hm m' hm' => ?_⟩
    · rw [hsame hm, hsame hm']
      exact hr
    · rw [hsame' hm]
      exact h2 m hm (hn₂ m hm)
    · rw [hsame' hm, hsame' hm']
      exact hr
    · rw [hsame hm]
      cases List.mem_cons.mp hm' with
      | inl he =>
        rw [he]
        exact h1 m hm
      | inr hm' =>
        rw [hsame' hm']
        exact hcross m hm m' (List.mem_cons_of_mem _ hm')
  refine ⟨hchain, hl.word, harea, ?_, ?_⟩
  · refine @hpairs (fun y z => y.va ≤ z.va) hsorted (fun m hm => ?_) fun m hm hle => ?_
    · rw [hto.va]
      obtain ⟨b, hb⟩ := halign m (hin hm)
      have hle := (hpre m hm).1
      rw [hb] at hle ⊢
      unfold pageSize at *
      omega
    · rw [hto.va]
      omega
  · refine @hpairs (fun y z => ∀ w, ¬ (y.Holds w ∧ z.Holds w)) hdisjoint (fun m hm w hw => ?_) fun m hm hdis w hw => ?_
    · have hend := (hpre m hm).2
      obtain ⟨b, hb⟩ := dvd_endVa (halign m (hin hm))
      have h1 : w < vmAreaEndVa (h.areaOf m) := hw.1.2
      have h2 : x / pageSize * pageSize ≤ w := hto.va ▸ hw.2.1
      rw [hb] at h1 hend
      unfold pageSize at *
      omega
    · have h1 : w < vmAreaEndVa (h.areaOf n) := hto.stop ▸ hw.1.2
      have h2 : (h.areaOf m).va ≤ w := hw.2.1
      have h3 : (h.areaOf n).va ≤ (h.areaOf m).va :=
        (List.pairwise_cons.mp (List.pairwise_append.mp hsorted).2.1).1 m hm
      exact hdis w ⟨⟨Nat.le_trans h3 h2, h1⟩, hw.2⟩

/-! ## the trap -/

/-- the flags of a page table entry for the flags of an area -/
def vmPteFlags (vmFlags : Nat) : Nat :=
  let f := pteValid ||| pteUser
  let f := if vmFlags &&& vmRead ≠ 0 then f ||| pteRead else f
  let f := if vmFlags &&& vmWrite ≠ 0 then f ||| pteWrite else f
  if vmFlags &&& vmExec ≠ 0 then f ||| pteExec else f

/-- what the growth of the area at `a` should do to the current task, whose areas are `ns` -/
structure Expanded (k k' : Kernel) (ns : List Nat) (a : Nat) : Prop where
  va : (k'.heap.area a).va = k.stval / pageSize * pageSize
  stop : vmAreaEndVa (k'.heap.area a) = vmAreaEndVa (k.heap.area a)
  list : AreaList k'.heap (.vmAreas k.currentTask) ns
  pages : ∃ page, NewPages k.heap k'.heap (k.task k.currentTask).pageTable (k.stval / pageSize * pageSize)
    (k.heap.area a).va (vmPteFlags (k.heap.area a).flags) page
  others : ∀ x < 2 ^ 39, ¬ (k.stval / pageSize * pageSize ≤ x ∧ x < (k.heap.area a).va) →
    mapOf k'.heap (k.task k.currentTask).pageTable x = mapOf k.heap (k.task k.currentTask).pageTable x
  frame : (k'.task k.currentTask).userFrame = (k.task k.currentTask).userFrame
  retried : k'.ctl = .user ∧ k'.currentTask = k.currentTask ∧ k'.satp = k.satp ∧
    k'.cpu = kernelToUser (k.task k.currentTask).userFrame

/-- pte_flags_from_vm_flags gives every permission -/
theorem vmPteFlags_eq_iff {f : Nat} : vmPteFlags f = pteFlagsFromVmFlags f ||| pteUser ↔
    f &&& vmRead ≠ 0 ∧ f &&& vmWrite ≠ 0 ∧ f &&& vmExec ≠ 0 := by
  rw [pteFlagsFromVmFlags_eq]
  unfold vmPteFlags
  by_cases h1 : f &&& vmRead = 0 <;> by_cases h2 : f &&& vmWrite = 0 <;> by_cases h3 : f &&& vmExec = 0 <;>
    simp only [h1, h2, h3, ne_eq, not_true_eq_false, not_false_eq_true, if_true, if_false, and_true, and_false] <;> decide

/-- all that the trap does, with the flags that the new pages have -/
theorem taskEntryTrap_grows {o : Oracle} (ha : Active k own q) (hl : AreaList k.heap (.vmAreas k.currentTask) ns)
    (hword : ∀ n ∈ ns, (k.heap.areaOf n).va < wordCount) (hcause : k.scause = 13 ∨ k.scause = 15)
    (hst : userStackMin ≤ k.stval ∧ k.stval < userStack)
    (hfind : k.heap.vmFindStack (.vmAreas k.currentTask) k.stval = .ok a) (h0 : a ≠ 0)
    (hrun : k.taskEntryTrap o = .ok k') : k.stval < (k.heap.area a).va ∧
      (∃ page, NewPages k.heap k'.heap (k.task k.currentTask).pageTable (k.stval / pageSize * pageSize)
        (k.heap.area a).va (pteFlagsFromVmFlags (k.heap.area a).flags ||| pteUser) page) ∧
      ((∃ page, NewPages k.heap k'.heap (k.task k.currentTask).pageTable (k.stval / pageSize * pageSize)
        (k.heap.area a).va (vmPteFlags (k.heap.area a).flags) page) → Expanded k k' ns a) := by
  obtain ⟨l₁, n, l₂, hns, hv, hlt, hpre⟩ := hl.findsStack_at hfind h0
  have hcall : k.scause ≠ 8 := by omega
  unfold Kernel.taskEntryTrap at hrun
  simp only [hcall, hcause, hst, hfind, Res.ok_bind, h0, ne_eq, not_false_eq_true, and_self, if_true, if_false] at hrun
  obtain ⟨h', hexp, hret⟩ := Res.bind_eq_ok.mp hrun
  have hA := ha.world.areas _ ha.live
  have hvm : ∀ m ∈ ns, own.Obj m k.currentTask .vnode := hA.vm.chain hA.vm.first hl.chain
  have hn : n ∈ ns := hns ▸ List.mem_append_right _ List.mem_cons_self
  have hobj : ∀ {m}, m ∈ ns → own.Obj (k.heap.node m).value k.currentTask (.area m) := fun {m} hm =>
    (hA.area m _).mpr ⟨hvm m hm, rfl⟩
  have harea : own.Obj a k.currentTask (.area n) := hv ▸ hobj hn
  have halign : ∀ m ∈ ns, pageSize ∣ (k.heap.areaOf m).va := fun m hm => ha.world.aligned _ _ _ (hobj hm)
  have hof : k.heap.areaOf n = k.heap.area a := by
    unfold Heap.areaOf
    rw [hv]
  have hvalt : (k.heap.area a).va < wordCount := hof ▸ hword n hn
  have hle : k.stval / pageSize * pageSize ≤ (k.heap.area a).va :=
    Nat.le_trans (Nat.div_mul_le_self _ _) (Nat.le_of_lt hlt)
  have hlow : k.stval / pageSize * pageSize < userStack := Nat.lt_of_le_of_lt (Nat.div_mul_le_self _ _) hst.2
  obtain ⟨hpages, hothers, htask, hother, hto⟩ := expandStack_pages (ha.world.maps _ ha.live).wf rfl
    (ha.world.aligned _ _ _ harea) hvalt (Nat.dvd_mul_left _ _) hlow hle hexp
  obtain ⟨hnode, hlist⟩ := expandStack_nodes ha.world ha.live harea hvm hexp
  have hof' : ∀ m ∈ ns, h'.areaOf m = h'.area (k.heap.node m).value := by
    intro m hm
    unfold Heap.areaOf
    rw [hnode m hm]
  have hne : ∀ m ∈ ns, m ≠ n → (k.heap.node m).value ≠ a := by
    intro m hm hmn e
    have hrole := ((e ▸ hobj hm).unique harea).2
    simp only [Role.area.injEq] at hrole
    exact hmn hrole
  have hlist' : AreaList h' (.vmAreas k.currentTask) ns := by
    refine hl.grown hns halign (hof ▸ hlt) hpre hnode hlist (fun m hm hmn => ?_) ?_
    · rw [hof' m hm, hother _ (hne m hm hmn)]
      rfl
    · rw [hof' n hn, hv, hof]
      exact hto
  cases hret
  have hframe : ∀ y : Task, (Function.update h'.task k.currentTask { h'.task k.currentTask with kernelFrame := y.kernelFrame }
      k.currentTask).userFrame = (k.task k.currentTask).userFrame := by
    intro y
    rw [Function.update_self, htask]
    rfl
  have hcpu : kernelToUser (h'.task k.currentTask).userFrame = kernelToUser (k.task k.currentTask).userFrame := by
    rw [htask]
    rfl
  obtain ⟨page, hp⟩ := hpages
  refine ⟨hof ▸ hlt, ⟨page, hp.mapped, hp.zero, hp.fresh, hp.apart⟩, fun ⟨page', hp'⟩ => ⟨hto.va, hto.stop, ?_, ⟨page', hp'⟩,
    hothers, hframe { h'.task k.currentTask with kernelFrame := .yieldToUser }, rfl, rfl, rfl, hcpu⟩⟩
  exact ⟨hlist'.chain, hlist'.word, hlist'.area, hlist'.sorted, hlist'.disjoint⟩

/-- **The growth of a stack.**  After a page fault below a stack area the trap leaves the area at the page of the
address, with its end where it was, the areas in order, fresh pages of zeros behind the new addresses, every other
translation and the context of the user as they were, exactly if the area has all three permissions: the new pages
have them all. -/
theorem stack_expansion {o : Oracle} (ha : Active k own q) (hl : AreaList k.heap (.vmAreas k.currentTask) ns)
    (hword : ∀ n ∈ ns, (k.heap.areaOf n).va < wordCount) (hcause : k.scause = 13 ∨ k.scause = 15)
    (hst : userStackMin ≤ k.stval ∧ k.stval < userStack)
    (hfind : k.heap.vmFindStack (.vmAreas k.currentTask) k.stval = .ok a) (h0 : a ≠ 0)
    (hrun : k.taskEntryTrap o = .ok k') : Expanded k k' ns a ↔ (k.heap.area a).flags &&& vmRead ≠ 0 ∧
      (k.heap.area a).flags &&& vmWrite ≠ 0 ∧ (k.heap.area a).flags &&& vmExec ≠ 0 := by
  obtain ⟨hlt, ⟨page, hp⟩, hexp⟩ := taskEntryTrap_grows ha hl hword hcause hst hfind h0 hrun
  rw [← vmPteFlags_eq_iff]
  constructor
  · intro hx
    obtain ⟨page', hp'⟩ := hx.pages
    have h1 := hp.mapped k.stval (Nat.div_mul_le_self _ _) hlt
    have h2 := hp'.mapped k.stval (Nat.div_mul_le_self _ _) hlt
    exact congrArg Translation.flags (Option.some.inj (h2.symm.trans h1))
  · intro he
    rw [← he] at hp
    exact hexp ⟨page, hp⟩

/-! ## the stack of the first task -/

/-- the areas of a booked task are in order -/
theorem Booked.areaList (hb : Booked h own t ns) (hw : World h own q) (ht : t ∈ h.live) : AreaList h (.vmAreas t) ns := by
  have hobj : ∀ {m}, m ∈ ns → own.Obj (h.node m).value t (.area m) := fun {m} hm =>
    ((hw.areas t ht).area m _).mpr ⟨(hb.vm.mem m).mp hm, rfl⟩
  have hholds : ∀ {m x}, m ∈ ns → (h.areaOf m).Holds x → x / pageSize ∈ (h.areaOf m).vpns := by
    intro m x hm hx
    obtain ⟨b, hv⟩ := hw.aligned _ _ _ (hobj hm)
    have hstop := hb.below m hm
    have h1 := hx.1
    have h2 := hx.2
    unfold vmAreaEndVa at h2
    rw [Nat.shiftLeft_eq] at h2
    have hv : (h.areaOf m).va = pageSize * b := hv
    unfold VmArea.vpns
    unfold VmArea.stop at hstop
    rw [Finset.mem_Ico]
    rw [hv] at h1 h2 hstop ⊢
    unfold pageIndexBits pageSize splitAddr wordCount at *
    omega
  refine ⟨hb.vm.queue.chain, fun m hm => ?_, fun m hm => (hobj hm).ne_zero, hb.order.imp fun hbef => hbef.va,
    hb.order.imp_of_mem fun hm hm' hbef x hx => ?_⟩
  · exact hw.held.obj_lt ((hb.vm.mem m).mp hm)
  · exact Finset.disjoint_left.mp hbef.apart (hholds hm hx.1) (hholds hm' hx.2)

/-- the code of `e` ends below the page that the stack grows by -/
def Elf.LeavesPage (e : Elf) : Prop :=
  (vmAreaIn (e.phdr 0).area (stackBegin - 8) || decide (stackBegin - 8 < (e.phdr 0).area.va)) = false

theorem initImage_leavesPage : initImage.LeavesPage := by
  unfold Elf.LeavesPage
  rw [initImage_phdr]
  decide

/-- the stack of the first task can grow by a page -/
theorem FirstImage.stackGrows {t k : Nat} (hi : FirstImage e b h own t ns (k + 4)) (he : e.LeavesPage) (hw : World h own q)
    (ht : t ∈ h.live) : ∃ a h', h.vmFindStack (.vmAreas t) (stackBegin - 8) = .ok a ∧ a ≠ 0 ∧ h.area a = stackArea b ∧
    (∀ n ∈ ns, (h.areaOf n).va < wordCount) ∧
    h.expandStack t a ((stackBegin - 8) / pageSize * pageSize) wordCount = .ok h' := by
  have hl := hi.booked.areaList hw ht
  have hareas := hi.areas
  obtain ⟨n₁, n₂, rfl⟩ : ∃ n₁ n₂, ns = [n₁, n₂] := by
    have hlen := congrArg List.length hareas
    rw [List.length_map] at hlen
    exact List.length_eq_two.mp hlen
  obtain ⟨h₁, h₂⟩ : h.areaOf n₁ = (e.phdr 0).area ∧ h.areaOf n₂ = stackArea b := by
    have he := List.cons.inj hareas
    exact ⟨he.1, (List.cons.inj he.2).1⟩
  have hfind : h.vmFindStack (.vmAreas t) (stackBegin - 8) = .ok (h.node n₂).value := by
    have hin : vmAreaIn (stackArea b) (stackBegin - 8) = false := by cases b <;> decide
    have hbelow : (vmAreaIn (stackArea b) (stackBegin - 8) || decide (stackBegin - 8 < (stackArea b).va)) = true := by
      cases b <;> decide
    have hflags : (stackArea b).flags &&& vmStack ≠ 0 := by cases b <;> decide
    rw [hl.vmFindStack_eq, List.find?_cons, List.find?_cons, h₁, h₂, he, hbelow]
    show Except.ok (if vmAreaIn (h.areaOf n₂) (stackBegin - 8) = true then 0
      else if (h.areaOf n₂).flags &&& vmStack ≠ 0 then (h.node n₂).value else 0) = _
    rw [h₂, hin, if_neg Bool.false_ne_true, if_pos hflags]
  obtain ⟨a, hva⟩ : ∃ a, a = (h.node n₂).value := ⟨_, rfl⟩
  have harea : h.area a = stackArea b := by
    rw [hva]
    exact h₂
  have h0 : a ≠ 0 := hva ▸ hl.area n₂ (List.mem_cons_of_mem _ (List.mem_singleton_self n₂))
  -- one page is enough
  obtain ⟨h', hgrow, _⟩ := growStack_room (k := k) (a := a) (hw.maps t ht).wf hi.room (by rw [harea]; show pageSize ∣ stackBegin; decide)
  obtain ⟨_, _, _, _, _, _, _, hgrown⟩ := growStack_run (hw.maps t ht).wf (.refl h.mm) rfl hgrow
  have hstop : ∀ fuel, h'.expandStack t a ((stackBegin - 8) / pageSize * pageSize) (fuel + 1) = .ok h' := by
    intro fuel
    unfold Heap.expandStack
    rw [hgrown, Function.update_self, harea]
    exact if_neg (by cases b <;> decide)
  refine ⟨a, h', hva ▸ hfind, h0, harea, fun n hn => ?_, ?_⟩
  · have hstop : (h.areaOf n).va ≤ splitAddr := Nat.le_trans (Nat.le_add_right _ _) (hi.booked.below n hn)
    exact Nat.lt_of_le_of_lt hstop (by decide)
  · show h.expandStack t a ((stackBegin - 8) / pageSize * pageSize) (wordCount - 2 + 1 + 1) = .ok h'
    unfold Heap.expandStack
    rw [harea, if_pos (by cases b <;> decide), hgrow, Res.ok_bind]
    exact hstop _

/-- the first task has trapped because of a store below its stack, in the area `a`, and the kernel goes on to `k'` -/
structure FirstFault (e : Elf) (b : Bool) (k : Kernel) (own : Owners) (ns : List Nat) (a : Nat) (k' : Kernel) : Prop where
  reachable : k.Reachable
  active : Active k own (fun _ => [])
  ctl : k.ctl = .thread
  frame : (k.task k.currentTask).kernelFrame = .yieldToUser
  areas : AreaList k.heap (.vmAreas k.currentTask) ns
  word : ∀ n ∈ ns, (k.heap.areaOf n).va < wordCount
  scause : k.scause = 15
  stval : k.stval = stackBegin - 8
  area : k.heap.vmFindStack (.vmAreas k.currentTask) k.stval = .ok a
  found : a ≠ 0
  stack : k.heap.area a = stackArea b
  image : FirstImage e b k.heap own k.currentTask ns 750
  run : k.taskEntryTrap quietOracle = .ok k'

theorem FirstFault.below (hf : FirstFault e b k own ns a k') : userStackMin ≤ k.stval ∧ k.stval < userStack := by
  rw [hf.stval]
  decide

/-- a store below its stack makes it grow -/
theorem FirstUser.fault {k₀ : Kernel} (hf : FirstUser e b k₀ own t ns 750) (he : e.LeavesPage) : ∃ k a k', k₀.Step k ∧ FirstFault e b k own ns a k' := by
  have hin := hf.active.userException 15 (stackBegin - 8)
  have ht₀ : t ∈ k₀.heap.live := hf.live ▸ List.mem_singleton_self t
  have hi := hf.image.quiet hf.active.world ht₀ hin.quiet hin.active.world.held.ok
  obtain ⟨k, hk⟩ : ∃ k, k = k₀.userException 15 (stackBegin - 8) := ⟨_, rfl⟩
  rw [← hk] at hin hi
  have hcur : k.currentTask = t := hin.current.trans hf.current
  have hstep : k₀.Step k := by
    rw [hk]
    exact .exception 15 (stackBegin - 8) hf.ctl
  have hreach : k.Reachable := by
    obtain ⟨b, hb, hsteps⟩ := hf.reachable
    exact ⟨b, hb, hsteps.tail hstep⟩
  have hframe : (k.task k.currentTask).kernelFrame = .yieldToUser := by
    rw [hcur, hk, ← hf.current]
    show (Function.update k₀.heap.task k₀.currentTask _ k₀.currentTask).kernelFrame = _
    rw [Function.update_self]
    show (k₀.task k₀.currentTask).kernelFrame = _
    rw [hf.current]
    exact hf.frame
  have hstval : k.stval = stackBegin - 8 := by rw [hk]; rfl
  have hcause : k.scause = 15 := by rw [hk]; rfl
  have ht : t ∈ k.heap.live := hcur ▸ hin.active.live
  have hl := hi.booked.areaList hin.active.world ht
  obtain ⟨a, h', hfind, h0, harea, hword, hexp⟩ := hi.stackGrows (k := 746) he hin.active.world ht
  refine ⟨k, a, (k.setHeap h').yieldToUser, hstep, hreach, hin.active, by rw [hk]; rfl, hframe, by rw [hcur]; exact hl,
    hword, hcause, hstval, ?_, h0, harea, by rw [hcur]; exact hi, ?_⟩
  · rw [hcur, hstval]
    exact hfind
  · have hrange : userStackMin ≤ stackBegin - 8 ∧ stackBegin - 8 < userStack := by decide
    unfold Kernel.taskEntryTrap
    simp only [hcause, hstval, hcur, hfind, Res.ok_bind, hexp]
    rw [if_neg (by decide), if_pos (by decide), if_pos hrange, if_pos h0]

theorem first_fault : ∃ k own ns a k', FirstFault initImage false k own ns a k' := by
  obtain ⟨_, own, _, ns, hf⟩ := first_user
  obtain ⟨k, a, k', _, hff⟩ := hf.fault initImage_leavesPage
  exact ⟨k, own, ns, a, k', hff⟩

/-- the step in which it grows -/
theorem FirstFault.step (hf : FirstFault e b k own ns a k') : k.Step k' := by
  refine .resume quietOracle hf.ctl (fun he => ?_) ?_
  · exact absurd (he.2.1.symm.trans hf.scause) (by decide)
  · unfold Kernel.resume
    rw [hf.frame]
    exact hf.run

/-- the page below the stack can be executed, though the area cannot -/
theorem stack_growth_executable : ∃ k ns a k' tr, Kernel.Reachable k ∧ AreaList k.heap (.vmAreas k.currentTask) ns ∧
    k.scause = 15 ∧ k.stval = stackBegin - 8 ∧ k.heap.vmFindStack (.vmAreas k.currentTask) k.stval = .ok a ∧ a ≠ 0 ∧
    (k.heap.area a).flags = stackVmFlags false ∧ k.taskEntryTrap quietOracle = .ok k' ∧
    mapOf k'.heap (k.task k.currentTask).pageTable k.stval = some tr ∧ tr.flags &&& pteExec ≠ 0 ∧
    ¬ Expanded k k' ns a := by
  obtain ⟨k, own, ns, a, k', hf⟩ := first_fault
  obtain ⟨hlt, ⟨page, hp⟩, _⟩ := taskEntryTrap_grows hf.active hf.areas hf.word (.inr hf.scause) hf.below hf.area hf.found hf.run
  have hmap := hp.mapped k.stval (Nat.div_mul_le_self _ _) hlt
  have hflags : (k.heap.area a).flags = stackVmFlags false := congrArg VmArea.flags hf.stack
  refine ⟨k, ns, a, k', _, hf.reachable, hf.areas, hf.scause, hf.stval, hf.area, hf.found, hflags, hf.run, hmap, ?_, fun hx => ?_⟩
  · show (pteFlagsFromVmFlags (k.heap.area a).flags ||| pteUser) &&& pteExec ≠ 0
    rw [pteFlagsFromVmFlags_eq]
    decide
  · obtain ⟨page', hp'⟩ := hx.pages
    have hmap' := hp'.mapped k.stval (Nat.div_mul_le_self _ _) hlt
    have he := congrArg Translation.flags (Option.some.inj (hmap'.symm.trans hmap))
    have he : vmPteFlags (k.heap.area a).flags = pteFlagsFromVmFlags (k.heap.area a).flags ||| pteUser := he
    rw [pteFlagsFromVmFlags_eq, hflags] at he
    exact absurd he (by decide)

/-- the theorem at that fault -/
theorem stack_expansion_first : ∃ k ns a k', Kernel.Reachable k ∧ k.taskEntryTrap quietOracle = .ok k' ∧
    (Expanded k k' ns a ↔ (k.heap.area a).flags &&& vmRead ≠ 0 ∧ (k.heap.area a).flags &&& vmWrite ≠ 0 ∧
      (k.heap.area a).flags &&& vmExec ≠ 0) := by
  obtain ⟨k, own, ns, a, k', hf⟩ := first_fault
  exact ⟨k, ns, a, k', hf.reachable, hf.run,
    stack_expansion hf.active hf.areas hf.word (.inr hf.scause) hf.below hf.area hf.found hf.run⟩

end FakeKernel
