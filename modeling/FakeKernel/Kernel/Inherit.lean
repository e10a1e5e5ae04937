import FakeKernel.Kernel.View
import FakeKernel.Kernel.Orderly

/-!
# New memory

* `PageTurn.view`      a page that has just been mapped, and the others;
* `expandStack_view`   the bytes that a stack grows by are zero, and nothing was there before;
* `taskClone_copies`   a child has what its parent has, byte for byte where the parent can read;
* `Kernel.Step.memories`, `memories_refined`   all steps of all runs, when the first image is in order.
-/

namespace FakeKernel
open Bytes Mm Heap Kernel

variable {k k' k₁ : Kernel} {h h' : Heap} {own own' : Owners} {q q' : TaskList → List Nat} {o : Oracle}
  {t t' n a m p x y va flags : Nat} {tr : Translation} {ns : List Nat} {v v' : Nat → Option Cell}

/-! ## pages that were mapped -/

/-- the flags of the pages that fork and the growth of a stack map -/
def fullFlags : Nat := pteValid ||| pteUser ||| pteRead ||| pteWrite ||| pteExec

theorem pteFlags_full (f : Nat) : pteFlagsFromVmFlags f ||| pteUser = fullFlags := by
  rw [pteFlagsFromVmFlags_eq]
  rfl

theorem userLeaf_full : UserLeaf fullFlags := pteFlags_full 0 ▸ pteFlagsFromVmFlags_userLeaf 0

/-- the cell at `x` when the page at `p` is mapped there -/
theorem view_of_page (hp : p ∈ usable) (hf : UserLeaf flags) (hx : x < 2 ^ 39)
    (hmap : mapOf h (h.task t).pageTable x = setLeaf 0 (PA p) flags x) :
    h.view t x = some (h.mm.mem (p + x % pageSize), flags) := by
  rw [setLeaf_eq (.inl hf.leaf), if_neg hf.valid] at hmap
  rw [← VA_PA (x := x) hp]
  exact view_eq_some.mpr ⟨hx, _, hmap, hf.user, rfl⟩

/-- the pages that were there before a page is mapped are not written -/
theorem PageTurn.sameUser (hpt : PageTurn q t a va flags h own h' own' p m) (hw : World h own q) (ht : t ∈ h.live) :
    SameUser h h' own t' := by
  intro s m' v hs x hx
  obtain ⟨N, M, _, hk⟩ := hpt.owners
  refine hk.mm.same (hw.held.kept hs) (hw.held.page hs) (fun hin => ?_) hx
  exact nomatch (hs.unique ((hw.maps t ht).tables s hin)).2

theorem PageTurn.usable (hpt : PageTurn q t a va flags h own h' own' p m) (hh : Held h own) : p ∈ usable := by
  obtain ⟨N, M, hk⟩ := hpt.takes hh
  have hp : own'.Page p t (.user m (vpnOf va)) := (hk.page _ _ _ rfl).mpr (.inr (.inl ⟨rfl, rfl, rfl⟩))
  have hh' := hpt.grown.world.held
  exact hh'.ok.usable (hh'.out _ _ _ hp) (Tiling.base_mem (pageAt p))

/-- a page has just been mapped at `va` -/
theorem PageTurn.view (hpt : PageTurn q t a va flags h own h' own' p m) (hw : World h own q) (ht : t ∈ h.live)
    (hf : UserLeaf flags) (hx : x < 2 ^ 39) : h'.view t x
      = if SamePage 0 x va then some (h'.mm.mem (p + x % pageSize), flags) else h.view t x := by
  have hmap := hpt.map x
  by_cases hpage : SamePage 0 x va
  · rw [if_pos hpage] at hmap ⊢
    rw [← hpt.sameRoot ht] at hmap
    exact view_of_page (hpt.usable hw.held) hf hx hmap
  · rw [if_neg hpage] at hmap ⊢
    refine view_congr hw ht (hpt.sameUser hw ht) ?_
    rw [hpt.sameRoot ht]
    exact hmap

/-! ## the growth of a stack -/

theorem expandStack_sameUser {fuel : Nat} (hw : World h own q) (ht : t ∈ h.live) (harea : own.Obj a t (.area n))
    (hrun : h.expandStack t a va fuel = .ok h') : SameUser h h' own t' := by
  obtain ⟨own', _, ⟨_, _, _, hs⟩, _⟩ := expandStack_rule
    (I := fun h₁ own₁ => World h₁ own₁ q ∧ t ∈ h₁.live ∧ own.Mono own₁ ∧ SameUser h h₁ own t')
    (fun {h₁ own₁ h₂ own₂ p m} hI _ hpt _ => by
      obtain ⟨hw₁, ht₁, hmono, hs⟩ := hI
      refine ⟨hpt.grown.world, hpt.grown.live ▸ ht₁, fun p t r hp hr => hpt.grown.mono p t r (hmono p t r hp hr) hr, ?_⟩
      intro s m' v hs' x hx
      exact (hpt.sameUser hw₁ ht₁ s m' v (hmono s t' _ hs' rfl) x hx).trans (hs s m' v hs' x hx))
    ⟨hw, ht, fun _ _ _ hp _ => hp, fun _ _ _ _ _ _ => rfl⟩ hw ht harea hrun
  exact hs

/-- the pages that a stack grows by hold zeros -/
theorem expandStack_view {fuel : Nat} (hw : World h own q) (ht : t ∈ h.live) (harea : own.Obj a t (.area n))
    (hmax : (h.area a).va ≤ splitAddr) (hstart : pageSize ∣ va) (hstack : va < userStack) (hle : va ≤ (h.area a).va)
    (hrun : h.expandStack t a va fuel = .ok h') :
    h'.view t x = if va ≤ x ∧ x < (h.area a).va then some (0, fullFlags) else h.view t x := by
  have hM := hw.maps t ht
  have hva := hw.aligned t a n harea
  have hword : (h.area a).va < wordCount := by
    unfold splitAddr at hmax
    unfold wordCount
    omega
  have hlow : (h.area a).va < 2 ^ 39 := by
    unfold splitAddr at hmax
    omega
  obtain ⟨⟨page, _⟩, hother, htask, _, hto⟩ := expandStack_pages hM.wf rfl hva hword hstart hstack hle hrun
  obtain ⟨i, l, hr, hn, hl, _⟩ := expandStack_run hM.wf (.refl h.mm) rfl hva hword hstart hle hrun
  rw [List.append_nil] at hr
  by_cases hin : va ≤ x ∧ x < (h.area a).va
  · rw [if_pos hin]
    have hx : x < 2 ^ 39 := Nat.lt_trans hin.2 hlow
    obtain ⟨c, hc, _, hcall, _⟩ := hl.call hstart (by omega) hin.1 (by omega)
    have hholds := (hr.inv hM.wf).2 c hc
    have hmap : mapOf h' (h'.task t).pageTable x = setLeaf 0 (PA c.page) fullFlags x := by
      rw [htask, mapOf, hr.walk hM.wf x, hcall, ← pteFlags_full (h.area a).flags, ← hl.flags c hc]
    rw [view_of_page hholds.usable userLeaf_full hx hmap, hholds.content _ (Nat.mod_lt _ (by decide)), hl.content c hc]
  · rw [if_neg hin]
    by_cases hx : x < 2 ^ 39
    · refine view_congr hw ht (expandStack_sameUser hw ht harea hrun) ?_
      rw [htask]
      exact hother x hx hin
    · unfold Heap.view
      rw [if_neg hx, if_neg hx]

/-! ## where a task has memory -/

/-- a task whose areas are in order has the memory of its areas -/
theorem Booked.view_ne_none (hb : Booked h own t ns) (hw : World h own q) (ht : t ∈ h.live) :
    h.view t x ≠ none ↔ ∃ n ∈ ns, x / pageSize ∈ (h.areaOf n).vpns := by
  have hA := hw.areas t ht
  constructor
  · intro hv
    obtain ⟨c, hc⟩ := Option.ne_none_iff_exists'.mp hv
    obtain ⟨hx, tr, htr, hu, _⟩ := view_eq_some.mp hc
    obtain ⟨p, m, hp, _⟩ := hw.userMapped ⟨ht, hx, htr, hu⟩
    obtain ⟨a, n, hm, ha⟩ := Covered.area hA hp
    obtain ⟨hn, hv⟩ := hA.node_of_area hb.vm ha
    refine ⟨n, hn, ?_⟩
    unfold Heap.areaOf
    rw [hv]
    exact hb.covered.inside a m p _ hm hp
  · rintro ⟨n, hn, hin⟩
    have ha : own.Obj (h.node n).value t (.area n) := (hA.area n _).mpr ⟨(hb.vm.mem n).mp hn, rfl⟩
    have hlow := hb.covered.low _ n ha _ hin
    have hx : x < 2 ^ 39 := by
      unfold pageSize at hlow
      omega
    obtain ⟨m, p, hm, hp⟩ := hb.covered.onto _ n ha _ hin
    obtain ⟨f, hf, hmap⟩ := hb.covered.mapped p m _ hp
    rw [view_eq_some.mpr ⟨hx, _, hmap x hx rfl, hf.user, rfl⟩]
    exact Option.some_ne_none _

/-- an area of a task whose areas are in order ends below `SPLIT` -/
theorem Booked.area_stop (hb : Booked h own t ns) (hA : Areas h.lists own t) (ha : own.Obj a t (.area n)) :
    (h.area a).stop ≤ splitAddr := by
  obtain ⟨hn, hv⟩ := hA.node_of_area hb.vm ha
  have hle := hb.below n hn
  unfold Heap.areaOf at hle
  rwa [hv] at hle

theorem endVa_of_stop {z : VmArea} (hz : z.stop ≤ splitAddr) : vmAreaEndVa z = z.stop := by
  unfold VmArea.stop splitAddr pageSize at hz
  unfold vmAreaEndVa VmArea.stop
  rw [Nat.shiftLeft_eq]
  unfold wordCount pageIndexBits pageSize
  omega

/-- a stack grows into addresses where the task has no memory -/
theorem Booked.grows_free {fuel : Nat} (hb : Booked h own t ns) (hw : World h own q) (ht : t ∈ h.live) (hst : userStackMin ≤ y)
    (hstack : y < userStack) (hfind : h.vmFindStack (.vmAreas t) y = .ok a) (h0 : a ≠ 0)
    (hrun : h.expandStack t a (y / pageSize * pageSize) fuel = .ok h') (h1 : y / pageSize * pageSize ≤ x)
    (h2 : x < (h.area a).va) : h.view t x = none := by
  have hA := hw.areas t ht
  obtain ⟨n, ha⟩ := vmFindStack_area hA hfind h0
  have hva := hw.aligned t a n ha
  have hstop := hb.area_stop hA ha
  have hround : y / pageSize * pageSize ≤ y := Nat.div_mul_le_self _ _
  have hlt := vmFindStack_lt hfind h0
  have hword : (h.area a).va < wordCount := by
    unfold VmArea.stop splitAddr at hstop
    unfold wordCount
    omega
  obtain ⟨_, _, _, hother, hto⟩ := expandStack_pages (hw.maps t ht).wf rfl hva hword (Nat.dvd_mul_left _ _)
    (Nat.lt_of_le_of_lt hround hstack) (by omega) hrun
  obtain ⟨own', hg, hb'⟩ := expandStack_booked hb hw ht hst hfind h0 hrun
  obtain ⟨hnode, _⟩ := expandStack_nodes hw ht ha (fun k hk => (hb.vm.mem k).mp hk) hrun
  have ha' : own'.Obj a t (.area n) := hg.mono.obj ha rfl
  have hstop' := hb'.area_stop (hg.world.areas t (hg.live ▸ ht)) ha'
  -- the page of `x` is one of the area afterwards
  have hin : x / pageSize ∈ (h'.area a).vpns := by
    have hend := hto.stop
    rw [endVa_of_stop hstop, endVa_of_stop hstop'] at hend
    rw [VmArea.mem_vpns (hto.va ▸ Nat.dvd_mul_left _ _), hend, hto.va]
    unfold VmArea.stop
    unfold pageSize at *
    omega
  by_contra hv
  obtain ⟨k, hk, hin'⟩ := (hb.view_ne_none hw ht).mp hv
  have hkobj : own.Obj (h.node k).value t (.area k) := (hA.area k _).mpr ⟨(hb.vm.mem k).mp hk, rfl⟩
  unfold Heap.areaOf at hin'
  by_cases he : (h.node k).value = a
  · rw [he, VmArea.mem_vpns hva] at hin'
    have hle := Nat.div_mul_le_self x pageSize
    omega
  · rw [← hother _ he] at hin'
    exact Finset.disjoint_left.mp (hb'.covered.apart _ k a n (hg.mono.obj hkobj rfl) ha' he) hin' hin

/-! ## the pages that fork copies -/

/-- all that is found in `v'` has full rights, and it is what is found in `v` where that can be read -/
structure Mirrors (v v' : Nat → Option Cell) : Prop where
  flags : ∀ x c, v' x = some c → c.2 = fullFlags
  bytes : ∀ x c c', v x = some c → v' x = some c' → c.2 &&& pteRead ≠ 0 → c'.1 = c.1

/-- and there is something where there is something in `v` -/
structure Copies (v v' : Nat → Option Cell) : Prop extends Mirrors v v' where
  domain : ∀ x, v' x = none ↔ v x = none

/-- the bytes of a page have the same flags -/
def PageWise (v : Nat → Option Cell) : Prop :=
  ∀ x z c, v x = some c → z / pageSize = x / pageSize → ∃ b, v z = some (b, c.2)

theorem Booked.pageWise (hb : Booked h own t ns) (hw : World h own q) (ht : t ∈ h.live) : PageWise (h.view t) := by
  intro x z c hv hz
  obtain ⟨hx, tr, htr, hu, rfl⟩ := view_eq_some.mp hv
  obtain ⟨p, m, hp, _⟩ := hw.userMapped ⟨ht, hx, htr, hu⟩
  obtain ⟨f, hf, hmap⟩ := hb.covered.mapped p m _ hp
  have he : tr.flags = f := congrArg Translation.flags (Option.some.inj (htr.symm.trans (hmap x hx rfl)))
  have hz39 : z < 2 ^ 39 := by
    unfold pageSize at hz
    omega
  refine ⟨h.mm.mem (VA (PA p + z % pageSize)), view_eq_some.mpr ⟨hz39, _, hmap z hz39 hz, hf.user, ?_⟩⟩
  rw [he]

/-- what the kernel reads of the current task's memory while it makes a new task -/
theorem userByte_of_view {h₁ : Heap} {M : List Nat} {c : Cell} (hw : World k.heap own q) (ha : a ∈ k.heap.live) (ht : t ∈ k.heap.live)
    (hne : a ≠ t) (hsatp : k.satp = (k.task a).pageTable)
    (hx : Extends k.heap.mm h₁.mm {s | s ∈ tables k.heap.mm.mem 2 (k.heap.task t).pageTable} M) (hlt : x < splitAddr)
    (hv : k.heap.view a x = some c) (hr : c.2 &&& pteRead ≠ 0) : (k.setHeap h₁).userByte x = some c.1 := by
  obtain ⟨hx39, tr, htr, hu, rfl⟩ := view_eq_some.mp hv
  have hother : ∀ s r, own.Page s a r → s ∉ tables k.heap.mm.mem 2 (k.heap.task t).pageTable := fun s r hs hin =>
    hne (hs.unique ((hw.maps t ht).tables s hin)).1
  obtain ⟨_, hwalk, _⟩ := (hw.maps a ha).wf.extends hx fun s hs => hother s _ ((hw.maps a ha).tables s hs)
  have hcan : canonical x = true := by
    unfold canonical
    unfold splitAddr at hlt
    simp only [Bool.or_eq_true, decide_eq_true_eq]
    left
    omega
  have htrans : (k.setHeap h₁).translate x = some tr := by
    unfold Kernel.translate
    rw [if_pos hcan]
    show walk h₁.mm.mem 2 k.satp x = some tr
    rw [hsatp]
    exact (hwalk x).trans htr
  have hbyte : h₁.mm.mem (VA tr.pa) = k.heap.mm.mem (VA tr.pa) := by
    obtain ⟨s, m, hs, hon⟩ := hw.onUserPage ⟨ha, hx39, htr, hu⟩
    exact hx.same (hw.held.kept hs) (hw.held.page hs) (hother s _ hs) hon
  unfold Kernel.userByte
  rw [htrans]
  show (if tr.flags &&& pteRead ≠ 0 then some (h₁.mm.mem (VA tr.pa)) else none) = _
  rw [if_pos hr, hbyte]

theorem accessOk_page (hle : va + pageSize ≤ splitAddr) : accessOk va pageSize = true := by
  unfold accessOk
  unfold splitAddr taskSizeMax wordCount pageSize at *
  simp only [Bool.and_eq_true, decide_eq_true_eq]
  omega

/-- one more page has been copied -/
theorem CloneTurn.mirrors {regs : Cpu} (hct : CloneTurn q regs t n va flags k own k' own' p m) (hf : flags ||| pteUser = fullFlags)
    (hw : World k.heap own q) (ht : t ∈ k.heap.live) (ha : a ∈ k.heap.live) (hne : a ≠ t) (hsatp : k.satp = (k.task a).pageTable)
    (hpw : PageWise (k.heap.view a)) (hva : pageSize ∣ va) (hle : va + pageSize ≤ splitAddr)
    (hm : Mirrors (k.heap.view a) (k.heap.view t)) : Mirrors (k.heap.view a) (k'.heap.view t) := by
  have hpt := hct.page
  rw [hf] at hpt
  obtain ⟨h₁, M, r, hx, _, hcopy⟩ := hct.copy
  obtain ⟨r', k'', hcopy', _, hbytes⟩ := Kernel.copyFromUser_spec (k.setHeap h₁) regs p va pageSize
  rw [hcopy] at hcopy'
  cases hcopy'
  have hview : ∀ x c, k'.heap.view t x = some c → SamePage 0 x va ∧ c = (k'.heap.mm.mem (p + x % pageSize), fullFlags) ∨
      k.heap.view t x = some c := by
    intro x c hv
    have hx39 := (view_eq_some.mp hv).1
    rw [hpt.view hw ht userLeaf_full hx39] at hv
    by_cases hpage : SamePage 0 x va
    · rw [if_pos hpage] at hv
      exact .inl ⟨hpage, (Option.some.inj hv).symm⟩
    · rw [if_neg hpage] at hv
      exact .inr hv
  refine ⟨fun x c hv => ?_, fun x c c' hv hv' hr => ?_⟩
  · cases hview x c hv with
    | inl hnew => rw [hnew.2]
    | inr hold => exact hm.flags x c hold
  · cases hview x c' hv' with
    | inr hold => exact hm.bytes x c c' hv hold hr
    | inl hnew =>
      obtain ⟨hpage, rfl⟩ := hnew
      have hx39 := (view_eq_some.mp hv).1
      -- the parent can read the whole page, so it is copied
      have hin : va ≤ x ∧ x < va + pageSize := by
        unfold SamePage at hpage
        unfold splitAddr at hle
        unfold pageSize at *
        omega
      have hread : (k.setHeap h₁).UserReadable va pageSize := by
        intro i hi
        have hdiv : (va + i) / pageSize = x / pageSize := by
          unfold pageSize at *
          omega
        obtain ⟨b, hb⟩ := hpw x (va + i) c hv hdiv
        have hwrap : wrap (va + i) = va + i := Nat.mod_eq_of_lt (by
          unfold splitAddr at hle
          unfold wordCount
          omega)
        rw [hwrap]
        exact ⟨b, userByte_of_view hw ha ht hne hsatp hx (by omega) hb hr⟩
      have hoff : va + x % pageSize = x := by
        unfold pageSize at *
        omega
      have hcell := hbytes (accessOk_page hle) hread (x % pageSize) (Nat.mod_lt _ (by decide))
      have hwrap : wrap x = x := Nat.mod_eq_of_lt (by
        unfold wordCount
        omega)
      rw [hoff, hwrap, userByte_of_view hw ha ht hne hsatp hx (by omega) hv hr] at hcell
      exact Option.some.inj hcell

/-! ## fork -/

/-- the task `a` runs, whose memory is `v`, and the kernel copies it to the task `t` -/
structure Cloning (q : TaskList → List Nat) (a t : Nat) (v : Nat → Option Cell) (k : Kernel) (own : Owners) : Prop where
  world : World k.heap own q
  live : t ∈ k.heap.live
  parent : a ∈ k.heap.live
  satp : k.satp = (k.task a).pageTable
  view : k.heap.view a = v
  mirrors : Mirrors v (k.heap.view t)

namespace Cloning

/-- a step for the new task -/
theorem grown (hI : Cloning q a t v k own) (hne : a ≠ t) (hg : Grown q t k.heap own k'.heap own') (hsatp : k'.satp = k.satp)
    (hm : Mirrors v (k'.heap.view t)) : Cloning q a t v k' own' where
  world := hg.world
  live := hg.live ▸ hI.live
  parent := hg.live ▸ hI.parent
  satp := by
    rw [hsatp, hI.satp]
    exact (hg.pageTable hI.parent).symm
  view := (hg.view hI.world hI.parent hne).trans hI.view
  mirrors := hm

end Cloning

theorem SameControl.satp (hc : SameControl k k') : k'.satp = k.satp := by
  obtain ⟨frame, b, c, hk⟩ := hc.rest
  rw [hk]

/-- a new area has no pages -/
theorem AreaTurn.view {z : VmArea} (hat : AreaTurn q t z h own h' own' n a) (hw : World h own q) (ht : t ∈ h.live) :
    h'.view t = h.view t := by
  funext x
  refine view_congr hw ht (fun p m v hp y hy => ?_) ?_
  · exact hat.added.extends.same (hw.held.kept hp) (hw.held.page hp) (Set.notMem_empty _) hy
  · rw [hat.grown.pageTable ht]
    exact hat.mapOf hw ht x

theorem cloneArea_mirrors {regs : Cpu} {area : Nat} (hI : Cloning q a t v k own) (hne : a ≠ t) (hpw : PageWise v)
    (hva : pageSize ∣ (k.heap.area area).va) (hstop : (k.heap.area area).stop ≤ splitAddr)
    (hrun : k.cloneArea regs t area = .ok k') :
    ∃ own', Grown q t k.heap own k'.heap own' ∧ SameControl k k' ∧ Cloning q a t v k' own' := by
  obtain ⟨own₁, n, b, h₁, hat, _, hpages⟩ := cloneArea_turn hI.world hI.live hva hrun
  have ht₁ : t ∈ h₁.live := hat.grown.live ▸ hI.live
  have hI₁ : Cloning q a t v (k.setHeap h₁) own₁ := hI.grown hne hat.grown rfl (by
    show Mirrors v (h₁.view t)
    rw [hat.view hI.world hI.live]
    exact hI.mirrors)
  -- `i` pages are still to be copied
  obtain ⟨own', va', hg, hc, hI', _⟩ := clonePages_rule (k := k.setHeap h₁)
    (I := fun i va k' own' => Cloning q a t v k' own' ∧ pageSize ∣ va ∧ va + i * pageSize = (k.heap.area area).stop)
    pteFlags_user_lt
    (fun {i va k own k' own' p m} hI hct => by
      obtain ⟨hI, hva, hrest⟩ := hI
      have hle : va + pageSize ≤ splitAddr := by
        rw [Nat.succ_mul] at hrest
        omega
      have hword : (va + pageSize) % wordCount = va + pageSize := Nat.mod_eq_of_lt (by
        unfold splitAddr at hle
        unfold wordCount
        omega)
      have hm : Mirrors (k.heap.view a) (k'.heap.view t) := by
        refine hct.mirrors (pteFlags_full _) hI.world hI.live hI.parent hne hI.satp ?_ hva hle ?_
        · rw [hI.view]
          exact hpw
        · rw [hI.view]
          exact hI.mirrors
      rw [hI.view] at hm
      rw [hword]
      refine ⟨hI.grown hne hct.page.grown hct.control.satp hm, Nat.dvd_add hva (Nat.dvd_refl _), ?_⟩
      rw [Nat.succ_mul] at hrest
      omega)
    ⟨hI₁, hva, rfl⟩ hat.grown.world ht₁ hat.obj.1 hpages
  exact ⟨own', hat.grown.trans hg, (SameControl.of_heap k hat.added.task).trans hc, hI'⟩

/-- the areas of the current task are cloned one after the other -/
theorem vmClone_mirrors {regs : Cpu} (hI : Cloning q a t v k own) (hne : a ≠ t) (hb : Booked k.heap own a ns)
    (hrun : k.vmClone regs (.vmAreas a) t = .ok k') :
    ∃ own', Grown q t k.heap own k'.heap own' ∧ SameControl k k' ∧ Cloning q a t v k' own' := by
  have hA := hI.world.areas a hI.parent
  have hpw : PageWise v := hI.view ▸ hb.pageWise hI.world hI.parent
  obtain ⟨own', hg, hc, _, _, hI'⟩ := vmCloneFrom_rule
    (I := fun node k₁ own₁ => (node = 0 ∨ k.heap.AreaNode a node) ∧ Untouched k.heap k₁.heap own own₁ a ∧ Cloning q a t v k₁ own₁)
    (fun {node k₁ own₁ k₂} hz hI₁ hw₁ ht₁ hrun₁ => by
      obtain ⟨hnode, hu, hI₁⟩ := hI₁
      have hnode := hnode.resolve_left hz
      obtain ⟨_, hof⟩ := hu.areaOf hA (hnode.obj hA)
      have hobj : own₁.Obj (k₁.heap.node node).value a (.area node) :=
        ((hu.areaNode hA).mpr hnode).area (hw₁.areas a hI₁.parent)
      have hstop : (k₁.heap.areaOf node).stop ≤ splitAddr := hof ▸ hb.below node ((hb.vm.mem node).mpr (hnode.obj hA))
      obtain ⟨own₂, hg, hc, hI₂⟩ := cloneArea_mirrors hI₁ hne hpw (hw₁.aligned a _ node hobj) hstop hrun₁
      have hu₂ := hu.trans (hg.untouched hw₁.held hI₁.parent hne)
      refine ⟨own₂, hg, hc, ?_, hu₂, hI₂⟩
      have he : k₂.heap.node node = k.heap.node node := (hu₂.areaOf hA (hnode.obj hA)).1
      rw [he]
      by_cases h0 : (k.heap.node node).next = 0
      · exact .inl h0
      · exact .inr (hnode.next h0))
    ⟨(em _).imp_right fun h0 => .first h0, .refl _ _ _, hI⟩ hI.world hI.live hrun
  exact ⟨own', hg, hc, hI'⟩

/-- a task that has just been created has no memory -/
theorem TaskAdded.view {stack root : Nat} (ha : TaskAdded q a h own h' own' t n stack root) (hh : Held h own) :
    h'.view t = fun _ => none := by
  funext x
  cases hv : h'.view t x with
  | none => rfl
  | some c =>
    obtain ⟨_, tr, htr, hu, _⟩ := view_eq_some.mp hv
    exact ((Built.start (A := fun _ => True) (F := fun _ _ => False) ha hh).map x tr htr hu).elim

/-- what fork copies -/
theorem taskClone_mirrors {regs : Cpu} (hw : World k.heap own q) (ha : a ∈ k.heap.live) (hsatp : k.satp = (k.task a).pageTable)
    (hb : Booked k.heap own a ns) (hrun : k.taskClone regs a = .ok (t, k')) : Mirrors (k.heap.view a) (k'.heap.view t) := by
  obtain ⟨_, h₁, own₁, n, stack, root, k₁, hadd, hclone, rfl⟩ := taskClone_added hw ha hrun
  have ht₁ : t ∈ h₁.live := hadd.live ▸ List.mem_cons_self
  have ha₁ : a ∈ h₁.live := hadd.live ▸ List.mem_cons_of_mem _ ha
  have hne : a ≠ t := fun he => hadd.fresh (he ▸ ha)
  have hu := hadd.untouched a ha
  have hview : h₁.view a = k.heap.view a := hu.view hw ha fun p m v hp x hx =>
    hadd.mm.same (hw.held.kept hp) (hw.held.page hp) (Set.notMem_empty _) hx
  have hI : Cloning (pushed q .tasks n) a t (k.heap.view a) (k.setHeap h₁) own₁ := by
    refine ⟨hadd.world, ht₁, ha₁, ?_, hview, ?_⟩
    · show k.satp = (h₁.task a).pageTable
      rw [hsatp]
      exact hu.task.2.2.1.symm
    · show Mirrors _ (h₁.view t)
      rw [hadd.view hw.held]
      exact ⟨fun _ _ hc => (nomatch hc), fun _ _ _ _ hc => (nomatch hc)⟩
  obtain ⟨own', hg, _, hI'⟩ := vmClone_mirrors hI hne (hb.untouched hw ha hu) hclone
  obtain ⟨_, hq⟩ := hg.world.assignFrame t (k₁.task a).userFrame
  have hlast := hq.views hg.world rfl t (hg.live ▸ ht₁)
  show Mirrors _ ((k₁.heap.setFrame t (k₁.task a).userFrame).view t)
  rw [hlast]
  exact hI'.mirrors

theorem taskClone_copies {regs : Cpu} (hw : World k.heap own q) (ha : a ∈ k.heap.live) (hsatp : k.satp = (k.task a).pageTable)
    (hb : Booked k.heap own a ns) (hrun : k.taskClone regs a = .ok (t, k')) : Copies (k.heap.view a) (k'.heap.view t) where
  toMirrors := taskClone_mirrors hw ha hsatp hb hrun
  domain := fun x => by
    obtain ⟨own', n, ns', hcl, hb', hareas⟩ := taskClone_booked hw ha hb hrun
    have ht : t ∈ k'.heap.live := hcl.live.2 ▸ List.mem_cons_self
    rw [← not_iff_not]
    show k'.heap.view t x ≠ none ↔ k.heap.view a x ≠ none
    rw [hb.view_ne_none hw ha, hb'.view_ne_none hcl.world ht]
    have hmem : ∀ z, (∃ n ∈ ns', k'.heap.areaOf n = z) ↔ ∃ n ∈ ns, k.heap.areaOf n = z := fun z => by
      rw [← List.mem_map, hareas, List.mem_map]
    constructor
    · rintro ⟨j, hj, hin⟩
      obtain ⟨i, hi, he⟩ := (hmem _).mp ⟨j, hj, rfl⟩
      exact ⟨i, hi, he ▸ hin⟩
    · rintro ⟨j, hj, hin⟩
      obtain ⟨i, hi, he⟩ := (hmem _).mpr ⟨j, hj, rfl⟩
      exact ⟨i, hi, he ▸ hin⟩

/-! ## steps -/

/-- a stack has grown from `hi` down to `lo`: pages of zeros, where there was no memory -/
structure StackGrown (v v' : Nat → Option Cell) (lo hi : Nat) : Prop where
  page : pageSize ∣ lo
  stack : userStackMin ≤ lo ∧ lo < userStack
  lt : lo < hi
  free : ∀ x, lo ≤ x → x < hi → v x = none
  view : ∀ x, v' x = if lo ≤ x ∧ x < hi then some (0, fullFlags) else v x

/-- what a task may do to memory -/
def userRules : MemoryRules Nat Cell where
  write := Writes
  extend v v' := ∃ lo hi, StackGrown v v' lo hi
  copy := Copies

namespace Orderly

/-- what the growth of a stack does to the current task -/
theorem stackGrown (ho : Orderly k own q) (hg : k.Grows a)
    (hrun : k.heap.expandStack k.currentTask a (k.stval / pageSize * pageSize) wordCount = .ok h') :
    StackGrown (k.heap.view k.currentTask) (h'.view k.currentTask) (k.stval / pageSize * pageSize) (k.heap.area a).va := by
  have ha := ho.active (.inr hg.ctl)
  have hw := ho.world
  obtain ⟨ns, hb⟩ := ho.booked.booked _ ha.live
  obtain ⟨n, harea⟩ := vmFindStack_area (hw.areas _ ha.live) hg.area hg.found
  have hround : k.stval / pageSize * pageSize ≤ k.stval := Nat.div_mul_le_self _ _
  have hlt := vmFindStack_lt hg.area hg.found
  have hmax : (k.heap.area a).va ≤ splitAddr := Nat.le_trans (Nat.le_add_right _ _) (hb.area_stop (hw.areas _ ha.live) harea)
  have hstack : k.stval / pageSize * pageSize < userStack := Nat.lt_of_le_of_lt hround hg.stack.2
  refine ⟨Nat.dvd_mul_left _ _, ⟨?_, hstack⟩, by omega, fun x h1 h2 => ?_, fun x => ?_⟩
  · have hmin := hg.stack.1
    unfold userStackMin at *
    unfold pageSize
    omega
  · exact hb.grows_free hw ha.live hg.stack.1 hg.stack.2 hg.area hg.found hrun h1 h2
  · exact expandStack_view hw ha.live harea hmax (Nat.dvd_mul_left _ _) hstack (by omega) hrun

/-- what fork does for the child -/
theorem forkCopies (ho : Orderly k own q) (hf : k.Forks) (hs : k.Step k')
    (hlive : k'.heap.live = t :: k.heap.live) : Copies (k.heap.view k.currentTask) (k'.heap.view t) := by
  obtain ⟨own', regs, child, n, k₁, hb⟩ := hs.forked ho.consistent hf
  have ha := ho.active (.inr hf.1)
  obtain ⟨_, hlive₁⟩ := hb.cloned.live
  have hchild : child = t := by
    rw [hb.after.live, hlive₁, hb.before.live] at hlive
    exact (List.cons.inj hlive).1
  rw [← hchild]
  obtain ⟨ns, hbk⟩ := (ho.booked.quiet hb.active.world hb.before).booked _ hb.active.live
  have hcopy := taskClone_copies hb.active.world hb.active.live hb.active.satp hbk hb.clone
  have hparent : k.callFrame.heap.view k.currentTask = k.heap.view k.currentTask := hb.before.views ho.world rfl _ ha.live
  have hin : child ∈ k₁.heap.live := by
    rw [hlive₁]
    exact List.mem_cons_self
  rw [hb.after.views hb.cloned.world hb.same child hin, ← hparent]
  exact hcopy

end Orderly

/-- each step is a step of the current task, in a system of tasks with memories of their own -/
theorem Kernel.Step.memories (hs : Step k k') (ho : Orderly k own q) :
    Memories.Step userRules k.currentTask k.memories k'.memories := by
  have hc := ho.consistent
  by_cases hf : k.Forks
  · exact hs.memories_forked hc hf fun t hlive => ho.forkCopies hf hs hlive
  by_cases hg : ∃ a, k.Grows a
  · obtain ⟨a, hg⟩ := hg
    refine hs.memories_grew hc hg ?_
    obtain ⟨h', hexp, rfl⟩ := hs.grew hg
    have ha := ho.active (.inr hg.ctl)
    obtain ⟨n, harea⟩ := vmFindStack_area (ha.world.areas _ ha.live) hg.area hg.found
    obtain ⟨own', hgrown⟩ := expandStack_world ha.world ha.live harea hexp
    have ha' : Active (k.setHeap h') own' q := ha.grown hgrown
    have hview : (k.setHeap h').yieldToUser.heap.view k.currentTask = h'.view k.currentTask :=
      ha'.yieldToUser.quiet.views hgrown.world rfl _ (hgrown.live ▸ ha.live)
    rw [hview]
    exact ⟨_, _, ho.stackGrown hg hexp⟩
  exact hs.memories_calm hc (fun _ _ hw => hw) hf fun a ha => hg ⟨a, ha⟩

/-- **Memories.**  If the first image is in order, each step in each run is a step of the current task in a system of tasks with
memories of their own: it stores a byte, its stack grows into pages of zeros, a new task gets a copy of its memory, or it ends;
nothing else changes, and nobody else's memory does. -/
theorem memories_refined (hr : k.ReachableInOrder) (hs : k.Step k') :
    Memories.Step userRules k.currentTask k.memories k'.memories := by
  obtain ⟨own, q, ho⟩ := hr.orderly
  exact hs.memories ho

/-- the theorem when the first task stores a byte to its stack -/
theorem memories_refined_first : ∃ k k' : Kernel, k.ReachableInOrder ∧ k.Step k' ∧
    Memories.Step userRules k.currentTask k.memories k'.memories := by
  obtain ⟨k, own, t, ns, hr, hu⟩ := first_user_in_order
  obtain ⟨tr, hm, htr, hwrite⟩ := hu.active.stackWritable (hu.current.symm ▸ hu.image.stack)
  have hs : k.Step _ := .store stackBegin tr 0 hu.ctl htr hm.user hwrite
  exact ⟨k, _, hr, hs, memories_refined hr hs⟩

end FakeKernel
