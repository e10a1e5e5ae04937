import FakeKernel.Kernel.NewTask
import FakeKernel.Mm.Release

/-!
# Giving the memory of a task back

* `Releases`           on the way: which pages of a task have been given back, and what is untouched;
* `Releases.kfree`, `Releases.freePage`   one more block;
* `listDestroyFrom_spec`, `vmAreaDestroy_spec`, `vmDecrefFrom_spec`   the loops, along the lists they follow;
* `taskDestroySched_spec`   the lists of a task and its sched node.
-/

namespace FakeKernel
open Bytes Mm

variable {h h' h₁ : Heap} {own own' : Owners} {q : TaskList → List Nat} {W : Set Nat} {D : List Nat}
  {t n a p x fuel node : Nat} {r : Role} {ns : List Nat}

structure Releases (h h' : Heap) (own : Owners) (W : Set Nat) (t : Nat) (D : List Nat) : Prop where
  mm : Shrinks h.mm h'.mm W D
  owned : ∀ p ∈ D, ∃ r, own.Page p t r
  node : h'.lists.node = h.lists.node
  list : ∀ r, r ≠ .vmAreas t → (∀ a n, own.Obj a t (.area n) → r ≠ .pages a) →
    h'.lists.list r = h.lists.list r
  area : ∀ a, (∀ n, ¬ own.Obj a t (.area n)) → h'.area a = h.area a
  task : h'.task = h.task
  live : h'.live = h.live
  pids : h'.nextTaskId = h.nextTaskId
  blocks : h'.blocks.Sublist h.blocks ∧ ∀ b ∈ h'.blocks, b - 4 ∉ D

namespace Releases

theorem refl (hh : Held h own) (t : Nat) : Releases h h own ∅ t [] :=
  ⟨.refl hh.ok, nofun, rfl, fun _ _ _ => rfl, fun _ _ => rfl, rfl, rfl, rfl, .refl _, fun _ _ => List.not_mem_nil⟩

theorem kfree (hr : Releases h h₁ own W t D) (hh : Held h own) (hx : own.Obj x t r)
    (hobj : r.object = true) (hD : x - 4 ∉ D) (hW : x - 4 ∉ W) : ∃ mm,
      h₁.kfree x = .ok { h₁ with mm := mm, blocks := h₁.blocks.erase x } ∧
      Releases h { h₁ with mm := mm, blocks := h₁.blocks.erase x } own W t ((x - 4) :: D) := by
  obtain ⟨mm, hkfree, hs⟩ := hr.mm.kfree hh.ok (hh.out _ _ _ hx.page) hD hW (hh.head _ _ _ hx.page hobj)
  refine ⟨mm, ?_, hs, fun p hp => ?_, hr.node, hr.list, hr.area, hr.task, hr.live, hr.pids,
    List.erase_sublist.trans hr.blocks.1, fun b hb => ?_⟩
  · unfold Heap.kfree
    rw [hkfree, Res.ok_bind]
  · cases List.mem_cons.mp hp with
    | inl he => exact ⟨r, he ▸ hx.page⟩
    | inr hin => exact hr.owned p hin
  · have hnd := hr.blocks.1.nodup hh.nodup.1
    obtain ⟨hne, hin⟩ := (List.Nodup.mem_erase_iff hnd).mp hb
    have h4 := (hh.blocks b (hr.blocks.1.subset hin)).1
    have hx4 := hx.1
    rw [List.mem_cons]
    intro he
    cases he with
    | inl he => exact hne (by omega)
    | inr hin' => exact hr.blocks.2 b hin hin'

theorem freePage (hr : Releases h h₁ own W t D) (hh : Held h own) (hp : own.Page p t r)
    (hobj : r.object = false) (hD : p ∉ D) : ∃ mm, h₁.freePage p = .ok { h₁ with mm := mm } ∧
      Releases h { h₁ with mm := mm } own W t (p :: D) := by
  obtain ⟨mm, hrun, hs⟩ := hr.mm.free hh.ok (hh.out _ _ _ hp) hD
  refine ⟨mm, ?_, hs, fun s hs => ?_, hr.node, hr.list, hr.area, hr.task, hr.live, hr.pids, hr.blocks.1,
    fun b hb => ?_⟩
  · unfold Heap.freePage
    rw [show h₁.mm.freePages { address := p, order := 0 } = .ok mm from hrun, Res.ok_bind]
  · cases List.mem_cons.mp hs with
    | inl he => exact ⟨r, he ▸ hp⟩
    | inr hin => exact hr.owned s hin
  · rw [List.mem_cons]
    intro he
    cases he with
    | inl he =>
      have htrue := (hh.blocks b (hr.blocks.1.subset hb)).2.2 t r (he ▸ hp)
      rw [hobj] at htrue
      exact nomatch htrue
    | inr hin => exact hr.blocks.2 b hb hin

/-- a list of `t` is cleared -/
theorem setList (hr : Releases h h₁ own W t D) {l : ListRef}
    (hl : l = .vmAreas t ∨ ∃ a n, own.Obj a t (.area n) ∧ l = .pages a) :
    Releases h (h₁.listInit l) own W t D := by
  refine ⟨hr.mm, hr.owned, hr.node, fun r' hvm hpages => ?_, hr.area, hr.task, hr.live, hr.pids, hr.blocks⟩
  show (h₁.lists.listInit l).list r' = _
  rw [Lists.list_listInit, if_neg, hr.list r' hvm hpages]
  intro e
  cases hl with
  | inl he => exact hvm (e.trans he)
  | inr he =>
    obtain ⟨a, n, ha, he⟩ := he
    exact hpages a n ha (e.trans he)

/-- an area of `t` is written -/
theorem setArea (hr : Releases h h₁ own W t D) (ha : own.Obj a t (.area n)) (y : VmArea) :
    Releases h (h₁.setArea a y) own W t D := by
  refine ⟨hr.mm, hr.owned, hr.node, hr.list, fun b hb => ?_, hr.task, hr.live, hr.pids, hr.blocks⟩
  show Function.update h₁.area a y b = _
  rw [Function.update_of_ne, hr.area b hb]
  intro e
  exact hb n (e ▸ ha)

end Releases

/-! ## lists -/

/-- the loop of list_destroy -/
theorem listDestroyFrom_spec (hh : Held h own) (hr : Releases h h₁ own W t D)
    (hc : Chain (fun n => (h.node n).next) 0 node ns) (hfuel : ns.length < fuel)
    (hobj : ∀ n ∈ ns, ∃ r, own.Obj n t r ∧ r.object = true ∧ n - 4 ∉ D ∧ n - 4 ∉ W) : ∃ h₂ D',
      Heap.listDestroyFrom fuel node h₁ = .ok h₂ ∧ Releases h h₂ own W t D' ∧
      (∀ p, p ∈ D' ↔ p ∈ D ∨ p ∈ ns.map (· - 4)) ∧ h₂.lists = h₁.lists ∧ h₂.area = h₁.area := by
  induction ns generalizing node h₁ D fuel with
  | nil =>
    cases fuel with
    | zero => exact absurd hfuel (Nat.lt_irrefl 0)
    | succ fuel =>
      have hz : node = 0 := hc
      refine ⟨h₁, D, ?_, hr, fun p => ?_, rfl, rfl⟩
      · unfold Heap.listDestroyFrom
        exact if_pos hz
      · exact ⟨.inl, fun hp => hp.resolve_right List.not_mem_nil⟩
  | cons n ns ih =>
    cases fuel with
    | zero => exact absurd hfuel (Nat.not_lt_zero _)
    | succ fuel =>
      obtain ⟨rfl, hn0, hrest⟩ := hc
      have hnd := (Chain.cons_iff.mpr ⟨rfl, hn0, hrest⟩ : Chain _ 0 node (node :: ns)).nodup
      obtain ⟨r, hx, hro, hD, hW⟩ := hobj node List.mem_cons_self
      obtain ⟨mm, hrun, hr'⟩ := hr.kfree hh hx hro hD hW
      have hnext : ∀ m ∈ ns, ∃ r, own.Obj m t r ∧ r.object = true ∧ m - 4 ∉ (node - 4) :: D ∧ m - 4 ∉ W := by
        intro m hm
        obtain ⟨r', hm', hro', hD', hW'⟩ := hobj m (List.mem_cons_of_mem _ hm)
        refine ⟨r', hm', hro', ?_, hW'⟩
        rw [List.mem_cons]
        intro he
        cases he with
        | inl he =>
          have h4 := hm'.1
          have h4' := hx.1
          have hmn : m = node := by omega
          exact (List.nodup_cons.mp hnd).1 (hmn ▸ hm)
        | inr hin => exact hD' hin
      have hnode : (({ h₁ with mm := mm, blocks := h₁.blocks.erase node } : Heap).node node).next
          = (h.node node).next := by
        show (h₁.lists.node node).next = _
        rw [hr.node]
        rfl
      obtain ⟨h₂, D', hrun₂, hr₂, hmem, hlists, harea⟩ := ih hr' hrest
        (Nat.lt_of_succ_lt_succ hfuel) hnext
      refine ⟨h₂, D', ?_, hr₂, fun p => ?_, hlists, harea⟩
      · unfold Heap.listDestroyFrom
        rw [if_neg hn0, hrun, Res.ok_bind, hnode]
        exact hrun₂
      · rw [hmem, List.mem_cons, List.map_cons, List.mem_cons, or_assoc, or_left_comm]

/-- the list_foreach of vm_area_destroy -/
theorem freePagesFrom_spec (hh : Held h own) (hr : Releases h h₁ own W t D)
    (hc : Chain (fun n => (h.node n).next) 0 node ns) (hfuel : ns.length < fuel)
    (hnd : (ns.map fun n => (h.node n).value).Nodup)
    (hobj : ∀ n ∈ ns, ∃ r, own.Page (h.node n).value t r ∧ r.object = false ∧ (h.node n).value ∉ D) :
    ∃ h₂ D', Heap.freePagesFrom fuel node h₁ = .ok h₂ ∧ Releases h h₂ own W t D' ∧
      (∀ p, p ∈ D' ↔ p ∈ D ∨ p ∈ ns.map fun n => (h.node n).value) ∧ h₂.lists = h₁.lists ∧
      h₂.area = h₁.area := by
  induction ns generalizing node h₁ D fuel with
  | nil =>
    cases fuel with
    | zero => exact absurd hfuel (Nat.lt_irrefl 0)
    | succ fuel =>
      have hz : node = 0 := hc
      refine ⟨h₁, D, ?_, hr, fun p => ?_, rfl, rfl⟩
      · unfold Heap.freePagesFrom
        exact if_pos hz
      · exact ⟨.inl, fun hp => hp.resolve_right List.not_mem_nil⟩
  | cons n ns ih =>
    cases fuel with
    | zero => exact absurd hfuel (Nat.not_lt_zero _)
    | succ fuel =>
      obtain ⟨rfl, hn0, hrest⟩ := hc
      rw [List.map_cons, List.nodup_cons] at hnd
      obtain ⟨r, hx, hro, hD⟩ := hobj node List.mem_cons_self
      obtain ⟨mm, hrun, hr'⟩ := hr.freePage hh hx hro hD
      have hnext : ∀ m ∈ ns, ∃ r, own.Page (h.node m).value t r ∧ r.object = false ∧
          (h.node m).value ∉ (h.node node).value :: D := by
        intro m hm
        obtain ⟨r', hm', hro', hD'⟩ := hobj m (List.mem_cons_of_mem _ hm)
        refine ⟨r', hm', hro', ?_⟩
        rw [List.mem_cons]
        intro he
        cases he with
        | inl he => exact hnd.1 (List.mem_map.mpr ⟨m, hm, he⟩)
        | inr hin => exact hD' hin
      have hnode : h₁.node node = h.node node := congrFun hr.node node
      obtain ⟨h₂, D', hrun₂, hr₂, hmem, hlists, harea⟩ := ih hr' hrest
        (Nat.lt_of_succ_lt_succ hfuel) hnd.2 hnext
      refine ⟨h₂, D', ?_, hr₂, fun p => ?_, hlists, harea⟩
      · unfold Heap.freePagesFrom
        rw [if_neg hn0, hnode, hrun, Res.ok_bind]
        show Heap.freePagesFrom fuel (h₁.node node).next _ = _
        rw [hnode]
        exact hrun₂
      · rw [hmem, List.mem_cons, List.map_cons, List.mem_cons, or_assoc, or_left_comm]

/-! ## areas -/

/-- the blocks of the area `a` whose pages are listed by the nodes `ms` -/
def areaBlocks (h : Heap) (a : Nat) (ms : List Nat) : List Nat :=
  (a - 4) :: ((ms.map fun m => (h.node m).value) ++ ms.map (· - 4))

/-- what the blocks of an area are in use as -/
theorem areaBlocks_role (hA : Areas h.lists own t) (ha : own.Obj a t (.area n))
    (hms : ∀ m ∈ ns, own.Obj m t (.pnode a)) (hp : p ∈ areaBlocks h a ns) : own.Page p t (.area n) ∧ p = a - 4 ∨
      (∃ m v, own.Page p t (.user m v) ∧ own.Obj m t (.pnode a)) ∨ own.Page p t (.pnode a) := by
  cases List.mem_cons.mp hp with
  | inl he => exact .inl ⟨he ▸ ha.page, he⟩
  | inr hp =>
    cases List.mem_append.mp hp with
    | inl hval =>
      obtain ⟨m, hm, rfl⟩ := List.mem_map.mp hval
      obtain ⟨v, hv⟩ := (hA.page m _).mpr ⟨⟨a, hms m hm⟩, rfl⟩
      exact .inr (.inl ⟨m, v, hv, hms m hm⟩)
    | inr hnode =>
      obtain ⟨m, hm, rfl⟩ := List.mem_map.mp hnode
      exact .inr (.inr (hms m hm).page)

/-- two areas share no block -/
theorem areaBlocks_disjoint {a' n' : Nat} {ms : List Nat} (hA : Areas h.lists own t)
    (ha : own.Obj a t (.area n)) (ha' : own.Obj a' t (.area n'))
    (hns : ∀ m ∈ ns, own.Obj m t (.pnode a)) (hms : ∀ m ∈ ms, own.Obj m t (.pnode a'))
    (hp : p ∈ areaBlocks h a ns) (hp' : p ∈ areaBlocks h a' ms) : a = a' := by
  have h1 := areaBlocks_role hA ha hns hp
  have h2 := areaBlocks_role hA ha' hms hp'
  have h4 := ha.1
  have h4' := ha'.1
  rcases h1 with ⟨h1, e⟩ | ⟨m, v, h1, hm⟩ | h1 <;> rcases h2 with ⟨h2, e'⟩ | ⟨m', v', h2, hm'⟩ | h2
  · omega
  · exact nomatch (h1.unique h2).2
  · exact nomatch (h1.unique h2).2
  · exact nomatch (h1.unique h2).2
  · obtain ⟨_, he⟩ := h1.unique h2
    cases he
    obtain ⟨_, he⟩ := hm.unique hm'
    cases he
    rfl
  · exact nomatch (h1.unique h2).2
  · exact nomatch (h1.unique h2).2
  · exact nomatch (h1.unique h2).2
  · obtain ⟨_, he⟩ := h1.unique h2
    cases he
    rfl

/-- the pages of an area are distinct -/
theorem values_nodup (hA : Areas h.lists own t) (hnd : ns.Nodup) (hns : ∀ m ∈ ns, own.Obj m t (.pnode a)) :
    (ns.map fun n => (h.node n).value).Nodup := by
  refine List.Nodup.map_on (fun m hm m' hm' he => ?_) hnd
  obtain ⟨v, hv⟩ := (hA.page m _).mpr ⟨⟨a, hns m hm⟩, rfl⟩
  obtain ⟨v', hv'⟩ := (hA.page m' _).mpr ⟨⟨a, hns m' hm'⟩, rfl⟩
  have he : (h.lists.node m).value = (h.lists.node m').value := he
  rw [he] at hv
  have hrole := (hv.unique hv').2
  cases hrole
  rfl

theorem vmAreaDestroy_spec (hh : Held h own) (hA : Areas h.lists own t) (hr : Releases h h₁ own ∅ t D)
    (ha : own.Obj a t (.area n)) (hfirst : h₁.lists.list (.pages a) = h.lists.list (.pages a))
    (hc : Chain (fun n => (h.node n).next) 0 (h.lists.list (.pages a)).first ns)
    (hfuel : ns.length < wordCount) (hns : ∀ m ∈ ns, own.Obj m t (.pnode a))
    (hD : ∀ p ∈ areaBlocks h a ns, p ∉ D) : ∃ h₂ D', h₁.vmAreaDestroy a = .ok h₂ ∧
      Releases h h₂ own ∅ t D' ∧ (∀ p, p ∈ D' ↔ p ∈ D ∨ p ∈ areaBlocks h a ns) ∧
      (∀ r, r ≠ .pages a → h₂.lists.list r = h₁.lists.list r) ∧ h₂.area = h₁.area := by
  have hvalue : ∀ m ∈ ns, (h.node m).value ∈ areaBlocks h a ns := fun m hm =>
    List.mem_cons_of_mem _ (List.mem_append_left _ (List.mem_map.mpr ⟨m, hm, rfl⟩))
  have hnode : ∀ m ∈ ns, m - 4 ∈ areaBlocks h a ns := fun m hm =>
    List.mem_cons_of_mem _ (List.mem_append_right _ (List.mem_map.mpr ⟨m, hm, rfl⟩))
  have huser : ∀ m ∈ ns, ∃ v, own.Page (h.node m).value t (.user m v) := fun m hm =>
    (hA.page m _).mpr ⟨⟨a, hns m hm⟩, rfl⟩
  obtain ⟨h₂, D₂, hrun₂, hr₂, hmem₂, hlists₂, harea₂⟩ := freePagesFrom_spec hh hr hc hfuel
    (values_nodup hA hc.nodup hns) fun m hm => by
      obtain ⟨v, hv⟩ := huser m hm
      exact ⟨_, hv, rfl, hD _ (hvalue m hm)⟩
  have hout : ∀ x, own.Page x t (.pnode a) ∨ x = a - 4 → x ∈ areaBlocks h a ns → x ∉ D₂ := by
    intro x hx hin hmem
    cases (hmem₂ x).mp hmem with
    | inl hold => exact hD x hin hold
    | inr hval =>
      obtain ⟨m, hm, rfl⟩ := List.mem_map.mp hval
      obtain ⟨v, hv⟩ := huser m hm
      cases hx with
      | inl hp => exact nomatch (hv.unique hp).2
      | inr he =>
        rw [he] at hv
        exact nomatch (hv.unique ha.page).2
  have hfirst₂ : (h₂.lists.list (.pages a)).first = (h.lists.list (.pages a)).first := by
    rw [hlists₂, hfirst]
  obtain ⟨h₃, D₃, hrun₃, hr₃, hmem₃, hlists₃, harea₃⟩ := listDestroyFrom_spec
    hh hr₂ hc hfuel fun m hm => ⟨_, hns m hm, rfl, hout _ (.inl (hns m hm).page) (hnode m hm), nofun⟩
  have hr₃' := hr₃.setList (l := .pages a) (.inr ⟨a, n, ha, rfl⟩)
  have hout₃ : a - 4 ∉ D₃ := by
    intro hmem
    cases (hmem₃ _).mp hmem with
    | inl hold => exact hout _ (.inr rfl) List.mem_cons_self hold
    | inr hnode =>
      obtain ⟨m, hm, he⟩ := List.mem_map.mp hnode
      have he : m - 4 = a - 4 := he
      have hp := (hns m hm).page
      rw [he] at hp
      exact nomatch (hp.unique ha.page).2
  obtain ⟨mm, hrun₄, hr₄⟩ := hr₃'.kfree hh ha rfl hout₃ nofun
  refine ⟨_, _, ?_, hr₄, fun p => ?_, fun r hne => ?_, ?_⟩
  · unfold Heap.vmAreaDestroy Heap.listDestroy
    rw [hfirst, hrun₂, Res.ok_bind, hfirst₂, hrun₃]
    exact hrun₄
  · rw [List.mem_cons, hmem₃, hmem₂]
    unfold areaBlocks
    rw [List.mem_cons, List.mem_append]
    grind
  · show (h₃.lists.listInit (.pages a)).list r = _
    rw [Lists.list_listInit, if_neg hne, hlists₃, hlists₂]
  · show h₃.area = _
    rw [harea₃, harea₂]

/-- the reference that is dropped is the last one -/
def VmArea.lastRef (x : VmArea) : Prop := (x.refcount + Heap.refcountMod - 1) % Heap.refcountMod = 0

theorem vmAreaDecref_spec (hh : Held h own) (hA : Areas h.lists own t) (hal : PageAligned h own t)
    (hr : Releases h h₁ own ∅ t D) (ha : own.Obj a t (.area n))
    (hfirst : h₁.lists.list (.pages a) = h.lists.list (.pages a)) (harea : h₁.area a = h.area a)
    (hc : (h.area a).lastRef → Chain (fun n => (h.node n).next) 0 (h.lists.list (.pages a)).first ns ∧
      ns.length < wordCount)
    (hns : ∀ m ∈ ns, own.Obj m t (.pnode a)) (hD : ∀ p ∈ areaBlocks h a ns, p ∉ D) :
    ∃ h₂ D', h₁.vmAreaDecref a = .ok h₂ ∧ Releases h h₂ own ∅ t D' ∧
      (∀ p, p ∈ D' ↔ p ∈ D ∨ (h.area a).lastRef ∧ p ∈ areaBlocks h a ns) ∧
      (∀ r, r ≠ .pages a → h₂.lists.list r = h₁.lists.list r) ∧ ∀ b, b ≠ a → h₂.area b = h₁.area b := by
  have hva : (h₁.area a).va % pageSize = 0 := by
    rw [harea]
    exact Nat.mod_eq_zero_of_dvd (hal a n ha)
  obtain ⟨x, hx⟩ : ∃ x, x = { h₁.area a with
      refcount := ((h₁.area a).refcount + Heap.refcountMod - 1) % Heap.refcountMod } := ⟨_, rfl⟩
  have hr' := hr.setArea ha x
  have hself : (h₁.setArea a x).area a = x := Function.update_self _ _ _
  have hother : ∀ b, b ≠ a → (h₁.setArea a x).area b = h₁.area b := fun b hb =>
    Function.update_of_ne hb _ _
  have hzero : x.refcount = 0 ↔ (h.area a).lastRef := by
    rw [hx]
    unfold VmArea.lastRef
    rw [harea]
  unfold Heap.vmAreaDecref Heap.vmAreaCheckAlignment
  rw [if_neg (not_not.mpr hva), Res.ok_bind]
  simp only [← hx, hself]
  by_cases hlast : (h.area a).lastRef
  · rw [if_pos (hzero.mpr hlast)]
    obtain ⟨hchain, hlen⟩ := hc hlast
    obtain ⟨h₂, D', hrun, hr₂, hmem, hlist, harea₂⟩ := vmAreaDestroy_spec hh hA hr' ha hfirst hchain hlen hns hD
    refine ⟨h₂, D', hrun, hr₂, fun p => ?_, hlist, fun b hb => ?_⟩
    · rw [hmem]
      exact or_congr_right ⟨fun hp => ⟨hlast, hp⟩, fun hp => hp.2⟩
    · rw [harea₂]
      exact hother b hb
  · rw [if_neg fun h0 => hlast (hzero.mp h0)]
    exact ⟨_, D, rfl, hr', fun p => ⟨.inl, fun hp => hp.resolve_right fun hp => hlast hp.1⟩,
      fun _ _ => rfl, hother⟩

theorem Lists.Closed.chain {L : Lists} {P : Nat → Prop} {r : ListRef} {node : Nat} {ns : List Nat} (hP : L.Closed P r)
    (hnode : node = 0 ∨ P node) (hc : Chain (fun n => (L.node n).next) 0 node ns) : ∀ n ∈ ns, P n := by
  induction ns generalizing node with
  | nil => exact nofun
  | cons n ns ih =>
    obtain ⟨rfl, h0, hrest⟩ := hc
    have hn := hnode.resolve_left h0
    intro m hm
    cases List.mem_cons.mp hm with
    | inl he => exact he ▸ hn
    | inr hin => exact ih (hP.next node hn) hrest m hin

/-- the blocks that are given back for the areas listed by `ns` -/
def FreedAreas (h : Heap) (ns : List Nat) (ps : Nat → List Nat) (p : Nat) : Prop :=
  ∃ n ∈ ns, (h.area (h.node n).value).lastRef ∧ p ∈ areaBlocks h (h.node n).value (ps (h.node n).value)

theorem vmDecrefFrom_spec {ps : Nat → List Nat} (hh : Held h own) (hA : Areas h.lists own t)
    (hal : PageAligned h own t) (hr : Releases h h₁ own ∅ t D)
    (hc : Chain (fun n => (h.node n).next) 0 node ns) (hfuel : ns.length < fuel)
    (hns : ∀ n ∈ ns, own.Obj n t .vnode)
    (hps : ∀ n ∈ ns, (h.area (h.node n).value).lastRef →
      Chain (fun n => (h.node n).next) 0 (h.lists.list (.pages (h.node n).value)).first (ps (h.node n).value) ∧
        (ps (h.node n).value).length < wordCount)
    (hms : ∀ n ∈ ns, ∀ m ∈ ps (h.node n).value, own.Obj m t (.pnode (h.node n).value))
    (hsame : ∀ n ∈ ns, h₁.lists.list (.pages (h.node n).value) = h.lists.list (.pages (h.node n).value) ∧
      h₁.area (h.node n).value = h.area (h.node n).value)
    (hD : ∀ n ∈ ns, ∀ p ∈ areaBlocks h (h.node n).value (ps (h.node n).value), p ∉ D) :
    ∃ h₂ D', Heap.vmDecrefFrom fuel node h₁ = .ok h₂ ∧ Releases h h₂ own ∅ t D' ∧
      (∀ p, p ∈ D' ↔ p ∈ D ∨ FreedAreas h ns ps p) ∧
      h₂.lists.list (.vmAreas t) = h₁.lists.list (.vmAreas t) := by
  induction ns generalizing node h₁ D fuel with
  | nil =>
    cases fuel with
    | zero => exact absurd hfuel (Nat.lt_irrefl 0)
    | succ fuel =>
      have hz : node = 0 := hc
      refine ⟨h₁, D, ?_, hr, fun p => ⟨.inl, fun hp => hp.resolve_right fun ⟨_, hn, _⟩ => nomatch hn⟩, rfl⟩
      unfold Heap.vmDecrefFrom
      exact if_pos hz
  | cons n ns ih =>
    cases fuel with
    | zero => exact absurd hfuel (Nat.not_lt_zero _)
    | succ fuel =>
      obtain ⟨rfl, hn0, hrest⟩ := hc
      have hnd := (Chain.cons_iff.mpr ⟨rfl, hn0, hrest⟩ : Chain _ 0 node (node :: ns)).nodup
      have hin := List.mem_cons_self (a := node) (l := ns)
      obtain ⟨a, hav⟩ : ∃ a, a = (h.node node).value := ⟨_, rfl⟩
      have hobj : ∀ k ∈ node :: ns, own.Obj (h.node k).value t (.area k) := fun k hk =>
        (hA.area k _).mpr ⟨hns k hk, rfl⟩
      have ha : own.Obj a t (.area node) := hav ▸ hobj node hin
      obtain ⟨h₂, D₂, hrun₂, hr₂, hmem₂, hlist₂, harea₂⟩ := vmAreaDecref_spec hh hA hal hr ha
        (hav ▸ (hsame node hin).1) (hav ▸ (hsame node hin).2) (hav ▸ hps node hin) (hav ▸ hms node hin)
        (hav ▸ hD node hin)
      have hne : ∀ k ∈ ns, (h.node k).value ≠ a := fun k hk e => by
        have hk' := hobj k (List.mem_cons_of_mem _ hk)
        rw [e] at hk'
        have hrole := (hk'.unique ha).2
        cases hrole
        exact (List.nodup_cons.mp hnd).1 hk
      have hnode : h₁.node node = h.node node := congrFun hr.node node
      have hnode₂ : h₂.node node = h.node node := congrFun hr₂.node node
      obtain ⟨h₃, D₃, hrun₃, hr₃, hmem₃, hvm₃⟩ := ih hr₂ hrest (Nat.lt_of_succ_lt_succ hfuel)
        (fun k hk => hns k (List.mem_cons_of_mem _ hk)) (fun k hk => hps k (List.mem_cons_of_mem _ hk))
        (fun k hk => hms k (List.mem_cons_of_mem _ hk))
        (fun k hk => by
          obtain ⟨h1, h2⟩ := hsame k (List.mem_cons_of_mem _ hk)
          refine ⟨(hlist₂ _ fun e => hne k hk (by cases e; rfl)).trans h1, (harea₂ _ (hne k hk)).trans h2⟩)
        (fun k hk p hp hmem => by
          cases (hmem₂ p).mp hmem with
          | inl hold => exact hD k (List.mem_cons_of_mem _ hk) p hp hold
          | inr hnew =>
            have hk' := List.mem_cons_of_mem node hk
            exact hne k hk (areaBlocks_disjoint hA (hobj k hk') ha (hms k hk') (hav ▸ hms node hin) hp hnew.2))
      refine ⟨h₃, D₃, ?_, hr₃, fun p => ?_, hvm₃.trans (hlist₂ _ nofun)⟩
      · unfold Heap.vmDecrefFrom
        rw [if_neg hn0, hnode, ← hav, hrun₂, Res.ok_bind, hnode₂]
        exact hrun₃
      · rw [hmem₃, hmem₂, hav, or_assoc]
        refine or_congr_right ?_
        unfold FreedAreas
        constructor
        · intro hp
          cases hp with
          | inl hp => exact ⟨node, hin, hp⟩
          | inr hp =>
            obtain ⟨k, hk, hp⟩ := hp
            exact ⟨k, List.mem_cons_of_mem _ hk, hp⟩
        · intro ⟨k, hk, hp⟩
          cases List.mem_cons.mp hk with
          | inl he => exact .inl (he ▸ hp)
          | inr hk => exact .inr ⟨k, hk, hp⟩

/-! ## lists that come to an end -/

theorem freePagesFrom_ends (hrun : Heap.freePagesFrom fuel node h = .ok h') :
    (∃ mm, h' = { h with mm := mm }) ∧
      ∃ ns, Chain (fun n => (h.node n).next) 0 node ns ∧ ns.length < fuel := by
  induction fuel generalizing node h with
  | zero => exact nomatch hrun
  | succ fuel ih =>
    unfold Heap.freePagesFrom at hrun
    by_cases hz : node = 0
    · rw [if_pos hz] at hrun
      cases hrun
      exact ⟨⟨_, rfl⟩, [], hz, Nat.succ_pos _⟩
    · rw [if_neg hz] at hrun
      obtain ⟨h₁, hfree, hrun⟩ := Res.bind_eq_ok.mp hrun
      unfold Heap.freePage at hfree
      obtain ⟨mm, _, hret⟩ := Res.bind_eq_ok.mp hfree
      cases hret
      obtain ⟨⟨mm', rfl⟩, ns, hc, hlen⟩ := ih hrun
      exact ⟨⟨mm', rfl⟩, node :: ns, ⟨rfl, hz, hc⟩, Nat.succ_lt_succ hlen⟩

theorem listDestroyFrom_rest (hrun : Heap.listDestroyFrom fuel node h = .ok h') :
    ∃ mm bs, h' = { h with mm := mm, blocks := bs } := by
  induction fuel generalizing node h with
  | zero => exact nomatch hrun
  | succ fuel ih =>
    unfold Heap.listDestroyFrom at hrun
    by_cases hz : node = 0
    · rw [if_pos hz] at hrun
      cases hrun
      exact ⟨_, _, rfl⟩
    · rw [if_neg hz] at hrun
      obtain ⟨h₁, hfree, hrun⟩ := Res.bind_eq_ok.mp hrun
      unfold Heap.kfree at hfree
      obtain ⟨mm, _, hret⟩ := Res.bind_eq_ok.mp hfree
      cases hret
      obtain ⟨mm', bs, rfl⟩ := ih hrun
      exact ⟨mm', bs, rfl⟩

/-- what vm_area_decref leaves alone; when it drops the last reference the list of pages ends -/
theorem vmAreaDecref_ends (hrun : h.vmAreaDecref a = .ok h') : h'.lists.node = h.lists.node ∧
    (∀ r, r ≠ .pages a → h'.lists.list r = h.lists.list r) ∧ (∀ b, b ≠ a → h'.area b = h.area b) ∧
    ((h.area a).lastRef → ∃ ns, Chain (fun n => (h.node n).next) 0 (h.lists.list (.pages a)).first ns ∧
      ns.length < wordCount) := by
  unfold Heap.vmAreaDecref at hrun
  obtain ⟨_, _, hrun⟩ := Res.bind_eq_ok.mp hrun
  obtain ⟨x, hx⟩ : ∃ x, x = { h.area a with
      refcount := ((h.area a).refcount + Heap.refcountMod - 1) % Heap.refcountMod } := ⟨_, rfl⟩
  have hself : (h.setArea a x).area a = x := Function.update_self _ _ _
  have hother : ∀ b, b ≠ a → (h.setArea a x).area b = h.area b := fun b hb => Function.update_of_ne hb _ _
  simp only [← hx, hself] at hrun
  by_cases h0 : x.refcount = 0
  · rw [if_pos h0] at hrun
    unfold Heap.vmAreaDestroy at hrun
    obtain ⟨h₁, hpages, hrun⟩ := Res.bind_eq_ok.mp hrun
    obtain ⟨⟨mm, rfl⟩, hends⟩ := freePagesFrom_ends hpages
    obtain ⟨h₂, hdestroy, hrun⟩ := Res.bind_eq_ok.mp hrun
    unfold Heap.listDestroy at hdestroy
    obtain ⟨h₃, hlist, hret⟩ := Res.bind_eq_ok.mp hdestroy
    obtain ⟨mm₃, bs₃, rfl⟩ := listDestroyFrom_rest hlist
    cases hret
    unfold Heap.kfree at hrun
    obtain ⟨mm₄, _, hret⟩ := Res.bind_eq_ok.mp hrun
    cases hret
    refine ⟨rfl, fun r hr => ?_, hother, fun _ => hends⟩
    show (h.lists.listInit (.pages a)).list r = _
    rw [Lists.list_listInit, if_neg hr]
  · rw [if_neg h0] at hrun
    cases hrun
    refine ⟨rfl, fun _ _ => rfl, hother, fun hlast => absurd ?_ h0⟩
    rw [hx]
    exact hlast

theorem vmDecrefFrom_ends {h₂ : Heap} (hA : Areas h.lists own t) (hnode : node = 0 ∨ own.Obj node t .vnode)
    (hsame : h₁.lists.node = h.lists.node) (hrun : Heap.vmDecrefFrom fuel node h₁ = .ok h₂) :
    ∃ ns, Chain (fun n => (h.node n).next) 0 node ns ∧ ns.length < fuel ∧
      ∀ n ∈ ns, (h₁.area (h.node n).value).lastRef → ∃ ms, Chain (fun n => (h.node n).next) 0
        (h₁.lists.list (.pages (h.node n).value)).first ms ∧ ms.length < wordCount := by
  induction fuel generalizing node h₁ with
  | zero => exact nomatch hrun
  | succ fuel ih =>
    unfold Heap.vmDecrefFrom at hrun
    by_cases hz : node = 0
    · rw [if_pos hz] at hrun
      exact ⟨[], hz, Nat.succ_pos _, nofun⟩
    · rw [if_neg hz] at hrun
      obtain ⟨h₃, hdecref, hrun⟩ := Res.bind_eq_ok.mp hrun
      obtain ⟨hn₃, hl₃, ha₃, hends⟩ := vmAreaDecref_ends hdecref
      have hv := hnode.resolve_left hz
      have hat : ∀ k, h₁.node k = h.node k := fun k => congrFun hsame k
      have hnext : (h₃.node node).next = (h.node node).next := by
        show (h₃.lists.node node).next = _
        rw [hn₃]
        exact congrArg ListNode.next (hat node)
      rw [hnext] at hrun
      obtain ⟨ns, hc, hlen, hpages⟩ := ih (hA.vm.next node hv) (hn₃.trans hsame) hrun
      have hc' : Chain (fun n => (h.node n).next) 0 node (node :: ns) := ⟨rfl, hz, hc⟩
      have hns := hA.vm.chain (hA.vm.next node hv) hc
      rw [hat node] at hl₃ ha₃ hends
      refine ⟨node :: ns, hc', Nat.succ_lt_succ hlen, fun n hn hlast => ?_⟩
      by_cases he : (h.node n).value = (h.node node).value
      · rw [he] at hlast ⊢
        obtain ⟨ms, hms, hlen'⟩ := hends hlast
        have hfun : (fun n => (h₁.node n).next) = fun n => (h.node n).next := funext fun k => by rw [hat k]
        rw [hfun] at hms
        exact ⟨ms, hms, hlen'⟩
      · have hn' : n ∈ ns := (List.mem_cons.mp hn).resolve_left fun e => he (by rw [e])
        have hlist : h₃.lists.list (.pages (h.node n).value) = h₁.lists.list (.pages (h.node n).value) :=
          hl₃ _ fun e => he (ListRef.pages.inj e)
        rw [← ha₃ _ he] at hlast
        rw [← hlist]
        exact hpages n hn' hlast

/-! ## the lists of a task -/

open Classical in
/-- the nodes of the list `r`, if it ends -/
noncomputable def listed (h : Heap) (r : ListRef) : List Nat :=
  if hx : ∃ ns, Chain (fun n => (h.node n).next) 0 (h.lists.list r).first ns then hx.choose else []

theorem listed_eq {l : ListRef} (hc : Chain (fun n => (h.node n).next) 0 (h.lists.list l).first ns) :
    listed h l = ns := by
  unfold listed
  have hx : ∃ ns, Chain (fun n => (h.node n).next) 0 (h.lists.list l).first ns := ⟨ns, hc⟩
  rw [dif_pos hx]
  exact hx.choose_spec.unique hc

/-- the lists of `t` that vm_decref_all follows end -/
structure Ends (h : Heap) (t : Nat) : Prop where
  vm : ∃ ns, Chain (fun n => (h.node n).next) 0 (h.lists.list (.vmAreas t)).first ns ∧ ns.length < wordCount
  pages : ∀ n ∈ listed h (.vmAreas t), (h.area (h.node n).value).lastRef →
    ∃ ms, Chain (fun n => (h.node n).next) 0 (h.lists.list (.pages (h.node n).value)).first ms ∧
      ms.length < wordCount

/-- the pages that task_destroy_sched gives back -/
def SchedBlocks (h : Heap) (t p : Nat) : Prop :=
  FreedAreas h (listed h (.vmAreas t)) (fun a => listed h (.pages a)) p ∨
    p ∈ (listed h (.vmAreas t)).map (· - 4) ∨ p = (h.task t).sched - 4

theorem vmDecrefAll_ends (hA : Areas h.lists own t) (hrun : h.vmDecrefAll (.vmAreas t) = .ok h') : Ends h t := by
  unfold Heap.vmDecrefAll at hrun
  obtain ⟨h₁, hdecref, _⟩ := Res.bind_eq_ok.mp hrun
  obtain ⟨ns, hc, hlen, hpages⟩ := vmDecrefFrom_ends hA hA.vm.first rfl hdecref
  refine ⟨⟨ns, hc, hlen⟩, ?_⟩
  rw [listed_eq hc]
  exact hpages

/-- task_destroy_sched returns exactly when the lists of the task end; then it gives back the areas that
nobody else refers to, the nodes and the sched node -/
theorem taskDestroySched_spec (hw : World h own q) (ht : t ∈ h.live) (hends : Ends h t)
    (hdetached : (h.node (h.task t).sched).list = none) : ∃ h₂ D, h.taskDestroySched t = .ok h₂ ∧
      Releases h h₂ own ∅ t D ∧ (∀ p, p ∈ D ↔ SchedBlocks h t p) := by
  have hh := hw.held
  have hA := hw.areas t ht
  obtain ⟨ns, hc, hlen⟩ := hends.vm
  have hlisted : listed h (.vmAreas t) = ns := listed_eq hc
  have hpages := hends.pages
  rw [hlisted] at hpages
  have hns := hA.vm.chain hA.vm.first hc
  have hobj : ∀ n ∈ ns, own.Obj (h.node n).value t (.area n) := fun n hn => (hA.area n _).mpr ⟨hns n hn, rfl⟩
  have hms : ∀ n ∈ ns, ∀ m ∈ listed h (.pages (h.node n).value), own.Obj m t (.pnode (h.node n).value) := by
    intro n hn m hm
    unfold listed at hm
    split at hm
    · rename_i hx
      have hclosed := hA.pages _ n (hobj n hn)
      exact hclosed.chain hclosed.first hx.choose_spec m hm
    · exact absurd hm List.not_mem_nil
  obtain ⟨ps, hlists⟩ : ∃ ps : Nat → List Nat, ps = fun a => listed h (.pages a) := ⟨_, rfl⟩
  have hps : ∀ n ∈ ns, (h.area (h.node n).value).lastRef →
      Chain (fun n => (h.node n).next) 0 (h.lists.list (.pages (h.node n).value)).first (ps (h.node n).value) ∧
        (ps (h.node n).value).length < wordCount := by
    intro n hn hlast
    obtain ⟨ms, hcm, hlenm⟩ := hpages n hn hlast
    rw [hlists]
    show Chain _ 0 _ (listed h _) ∧ (listed h _).length < wordCount
    rw [listed_eq hcm]
    exact ⟨hcm, hlenm⟩
  obtain ⟨h₁, D₁, hrun₁, hr₁, hmem₁, hvm₁⟩ := vmDecrefFrom_spec hh hA (hw.aligned t) (.refl hh t) hc hlen hns hps
    (hlists ▸ hms) (fun _ _ => ⟨rfl, rfl⟩) fun _ _ _ _ => List.not_mem_nil
  subst hlists
  have hrole : ∀ p ∈ D₁, ∀ n ∈ ns, p ≠ n - 4 := by
    intro p hp n hn e
    obtain ⟨k, hk, _, hin⟩ := ((hmem₁ p).mp hp).resolve_left List.not_mem_nil
    have hv := (hns n hn).page
    rw [← e] at hv
    rcases areaBlocks_role hA (hobj k hk) (hms k hk) hin with ⟨hr, _⟩ | ⟨m, v, hr, _⟩ | hr <;>
      exact nomatch (hr.unique hv).2
  obtain ⟨h₂, D₂, hrun₂, hr₂, hmem₂, hlists₂, _⟩ := listDestroyFrom_spec hh hr₁ hc hlen
    fun n hn => ⟨_, hns n hn, rfl, fun hin => hrole _ hin n hn rfl, nofun⟩
  have hr₃ := hr₂.setList (l := .vmAreas t) (.inl rfl)
  have hsched := (hw.static t ht).sched
  have hnot : (h.task t).sched - 4 ∉ D₂ := by
    intro hin
    cases (hmem₂ _).mp hin with
    | inl hin =>
      obtain ⟨k, hk, _, hin⟩ := ((hmem₁ _).mp hin).resolve_left List.not_mem_nil
      rcases areaBlocks_role hA (hobj k hk) (hms k hk) hin with ⟨hr, _⟩ | ⟨m, v, hr, _⟩ | hr <;>
        exact nomatch (hr.unique hsched.page).2
    | inr hin =>
      obtain ⟨n, hn, he⟩ := List.mem_map.mp hin
      have he : n - 4 = (h.task t).sched - 4 := he
      have hv := (hns n hn).page
      rw [he] at hv
      exact nomatch (hv.unique hsched.page).2
  obtain ⟨mm, hrun₄, hr₄⟩ := hr₃.kfree hh hsched rfl hnot nofun
  refine ⟨_, _, ?_, hr₄, fun p => ?_⟩
  · have hnode : (h₂.listInit (.vmAreas t)).lists.node (h.task t).sched = h.lists.node (h.task t).sched :=
      congrFun hr₃.node _
    have htask : (h₂.listInit (.vmAreas t)).task = h.task := hr₃.task
    have hdecref : h.vmDecrefAll (.vmAreas t) = .ok (h₂.listInit (.vmAreas t)) := by
      unfold Heap.vmDecrefAll Heap.listDestroy
      rw [hrun₁, Res.ok_bind, hvm₁, hrun₂]
      rfl
    have hremove : (h₂.listInit (.vmAreas t)).listRemove (h.task t).sched = h₂.listInit (.vmAreas t) := by
      have hnone : ((h₂.listInit (.vmAreas t)).lists.node (h.task t).sched).list = none := by
        rw [hnode]
        exact hdetached
      have hlists : (h₂.listInit (.vmAreas t)).lists.listRemove (h.task t).sched
          = (h₂.listInit (.vmAreas t)).lists := by
        unfold Lists.listRemove
        rw [hnone]
      unfold Heap.listRemove
      rw [hlists]
    unfold Heap.taskDestroySched
    rw [hdecref, Res.ok_bind]
    simp only [htask, hremove]
    rw [hrun₄, htask]
  · rw [List.mem_cons, hmem₂, hmem₁]
    unfold SchedBlocks
    rw [hlisted]
    constructor
    · intro hp
      rcases hp with he | (hin | hin) | hin
      · exact .inr (.inr he)
      · exact absurd hin List.not_mem_nil
      · exact .inl hin
      · exact .inr (.inl hin)
    · intro hp
      rcases hp with hin | hin | he
      · exact .inr (.inl (.inr hin))
      · exact .inr (.inr hin)
      · exact .inl he

end FakeKernel
