import FakeKernel.Kernel.Exact
import Mathlib.Order.Interval.Finset.Nat

/-!
# Areas and the page table

* `Covered`    every page of an area is mapped, at page numbers that no other page and no other area has;
* `Booked`     the page numbers of an area are those that its fields say;
* `Agrees`     the same read off the lists and the page table, without the owners;
* `Booked.agrees`.
-/

namespace FakeKernel
open Bytes Mm

variable {h h' : Heap} {own own' : Owners} {q : TaskList → List Nat} {t t' n a m p va flags v : Nat}
  {ns ms : List Nat} {x : VmArea} {c : Nat → Finset Nat}

/-- flags that let user code reach a page -/
structure UserLeaf (flags : Nat) : Prop where
  leaf : pteIsLeaf flags = true
  valid : flags &&& pteValid ≠ 0
  user : flags &&& pteUser ≠ 0

/-- the page at `p` is mapped for user code at the page number `v` -/
def MappedAt (h : Heap) (root v p : Nat) : Prop :=
  ∃ flags, UserLeaf flags ∧ ∀ x < 2 ^ 39, x / pageSize = v → mapOf h root x = some ⟨PA p + x % pageSize, flags⟩

structure Covered (h : Heap) (own : Owners) (t : Nat) (c : Nat → Finset Nat) : Prop where
  inside : ∀ a m p v, own.Obj m t (.pnode a) → own.Page p t (.user m v) → v ∈ c a
  onto : ∀ a n, own.Obj a t (.area n) → ∀ v ∈ c a, ∃ m p, own.Obj m t (.pnode a) ∧ own.Page p t (.user m v)
  mapped : ∀ p m v, own.Page p t (.user m v) → MappedAt h (h.task t).pageTable v p
  low : ∀ a n, own.Obj a t (.area n) → ∀ v ∈ c a, v < 2 ^ 27
  apart : ∀ a n b n', own.Obj a t (.area n) → own.Obj b t (.area n') → a ≠ b → Disjoint (c a) (c b)

namespace Covered

/-- every user page belongs to an area -/
theorem area (hA : Areas h.lists own t) (hp : own.Page p t (.user m v)) :
    ∃ a n, own.Obj m t (.pnode a) ∧ own.Obj a t (.area n) := by
  obtain ⟨⟨a, hm⟩, _⟩ := (hA.page m p).mp ⟨v, hp⟩
  obtain ⟨n, ha⟩ := hA.parent a m hm
  exact ⟨a, n, hm, ha⟩

/-- there is one page at each page number -/
theorem unique {p' m' : Nat} (hc : Covered h own t c) (hh : Held h own) (hv : v < 2 ^ 27)
    (hp : own.Page p t (.user m v)) (hp' : own.Page p' t (.user m' v)) : p = p' ∧ m = m' := by
  obtain ⟨f, _, hf⟩ := hc.mapped p m v hp
  obtain ⟨f', _, hf'⟩ := hc.mapped p' m' v hp'
  have hx : v * pageSize < 2 ^ 39 := by
    unfold pageSize
    omega
  have hdiv : v * pageSize / pageSize = v := Nat.mul_div_cancel v (by decide)
  have he := (hf _ hx hdiv).symm.trans (hf' _ hx hdiv)
  have hpa : PA p = PA p' := by
    have := congrArg Translation.pa (Option.some.inj he)
    exact Nat.add_right_cancel this
  have hin := hh.ok.usable (hh.out _ _ _ hp) (Tiling.base_mem (pageAt p))
  have hin' := hh.ok.usable (hh.out _ _ _ hp') (Tiling.base_mem (pageAt p'))
  have h1 := (PA_usable hin).1
  have h2 := (PA_usable hin').1
  have hpp : p = p' := by
    have h1 : PA p + kernBase = p + kernPhy := h1
    have h2 : PA p' + kernBase = p' + kernPhy := h2
    omega
  subst hpp
  have hrole := (hp.unique hp').2
  cases hrole
  exact ⟨rfl, rfl⟩

/-- nobody else changes that -/
theorem untouched (hc : Covered h own t c) (hM : Maps h.mm own t (h.task t).pageTable)
    (hu : Untouched h h' own own' t) : Covered h' own' t c := by
  have hwalk : ∀ y, mapOf h' (h.task t).pageTable y = mapOf h (h.task t).pageTable y := fun y =>
    walk_congr fun s hs i hi => entry_congr hi fun z h1 h2 => hu.mem s (hM.tables s hs) z ⟨h1, h2⟩
  refine ⟨fun a m p v hm hp => ?_, fun a n ha v hv => ?_, fun p m v hp => ?_, fun a n ha => ?_,
    fun a n b n' ha hb => ?_⟩
  · exact hc.inside a m p v ((hu.obj rfl).mp hm) ((hu.agree p _ rfl).mp hp)
  · obtain ⟨m, p, hm, hp⟩ := hc.onto a n ((hu.obj rfl).mp ha) v hv
    exact ⟨m, p, (hu.obj rfl).mpr hm, (hu.agree p _ rfl).mpr hp⟩
  · rw [hu.task.2.2.1]
    obtain ⟨f, hf, hmap⟩ := hc.mapped p m v ((hu.agree p _ rfl).mp hp)
    exact ⟨f, hf, fun y hy hyv => (hwalk y).trans (hmap y hy hyv)⟩
  · exact hc.low a n ((hu.obj rfl).mp ha)
  · exact hc.apart a n b n' ((hu.obj rfl).mp ha) ((hu.obj rfl).mp hb)

theorem congr {c' : Nat → Finset Nat} (hc : Covered h own t c)
    (he : ∀ a n, own.Obj a t (.area n) → c' a = c a) (hA : Areas h.lists own t) : Covered h own t c' := by
  refine ⟨fun a m p v hm hp => ?_, fun a n ha => ?_, hc.mapped, fun a n ha => ?_, fun a n b n' ha hb => ?_⟩
  · obtain ⟨n, ha⟩ := hA.parent a m hm
    rw [he a n ha]
    exact hc.inside a m p v hm hp
  · rw [he a n ha]
    exact hc.onto a n ha
  · rw [he a n ha]
    exact hc.low a n ha
  · rw [he a n ha, he b n' hb]
    exact hc.apart a n b n' ha hb

/-- an area without pages is added -/
theorem addArea (hc : Covered h own t c) (hw : World h own q) (ht : t ∈ h.live)
    (hat : AreaTurn q t x h own h' own' n a) : Covered h' own' t (Function.update c a ∅) := by
  have hh := hw.held
  have hA := hw.areas t ht
  have hxt := hat.added.extends
  have hnew : ∀ {y t' r}, own.Obj y t' r → y ≠ a := fun hy e =>
    hxt.not_new (hh.kept hy.page) (e ▸ List.mem_append_right _ (List.mem_singleton_self _))
  have hpnode : ∀ {m b}, own'.Obj m t (.pnode b) ↔ own.Obj m t (.pnode b) := by
    intro m b
    rw [hat.obj_iff hh]
    exact ⟨fun hm => by rcases hm with ⟨_, _, he⟩ | ⟨_, _, he⟩ | hm <;> first | exact nomatch he | exact hm,
      fun hm => .inr (.inr hm)⟩
  have huser : ∀ {p m v}, own'.Page p t (.user m v) ↔ own.Page p t (.user m v) := by
    intro p m v
    rw [hat.page_iff hh]
    exact ⟨fun hm => by rcases hm with ⟨_, _, he⟩ | ⟨_, _, he⟩ | hm <;> first | exact nomatch he | exact hm,
      fun hm => .inr (.inr hm)⟩
  have harea : ∀ {b k}, own'.Obj b t (.area k) → b = a ∨ own.Obj b t (.area k) := by
    intro b k hb
    rcases (hat.obj_iff hh).mp hb with ⟨he, _⟩ | ⟨_, _, he⟩ | hold
    · exact .inl he
    · exact nomatch he
    · exact .inr hold
  have hupd : ∀ {b k}, own.Obj b t (.area k) → Function.update c a ∅ b = c b := fun hb =>
    Function.update_of_ne (hnew hb) _ _
  have hself : Function.update c a ∅ a = ∅ := Function.update_self _ _ _
  obtain ⟨_, hwalk, _⟩ := (hw.maps t ht).wf.extends hxt fun _ _ => nofun
  refine ⟨fun b m p v hm hp => ?_, fun b k hb v hv => ?_, fun p m v hp => ?_, fun b k hb v hv => ?_,
    fun b k b' k' hb hb' hne => ?_⟩
  · have hm := hpnode.mp hm
    obtain ⟨k, hb⟩ := hA.parent b m hm
    rw [hupd hb]
    exact hc.inside b m p v hm (huser.mp hp)
  · cases harea hb with
    | inl he =>
      rw [he, hself] at hv
      exact absurd hv (Finset.notMem_empty v)
    | inr hold =>
      rw [hupd hold] at hv
      obtain ⟨m, p, hm, hp⟩ := hc.onto b k hold v hv
      exact ⟨m, p, hpnode.mpr hm, huser.mpr hp⟩
  · obtain ⟨f, hf, hmap⟩ := hc.mapped p m v (huser.mp hp)
    rw [hat.added.task]
    exact ⟨f, hf, fun y hy hyv => (hwalk y).trans (hmap y hy hyv)⟩
  · cases harea hb with
    | inl he =>
      rw [he, hself] at hv
      exact absurd hv (Finset.notMem_empty v)
    | inr hold =>
      rw [hupd hold] at hv
      exact hc.low b k hold v hv
  · cases harea hb with
    | inl he =>
      rw [he, hself]
      exact Finset.disjoint_empty_left _
    | inr hold =>
      cases harea hb' with
      | inl he =>
        rw [he, hself]
        exact Finset.disjoint_empty_right _
      | inr hold' =>
        rw [hupd hold, hupd hold']
        exact hc.apart b k b' k' hold hold' hne

/-- a page is added to the area `a`, where no page is mapped yet -/
theorem addPage (hc : Covered h own t c) (hw : World h own q) (ht : t ∈ h.live)
    (hpt : PageTurn q t a va flags h own h' own' p m) (ha : own.Obj a t (.area n)) (hf : UserLeaf flags)
    (hfree : ∀ b k, own.Obj b t (.area k) → vpnOf va ∉ c b) :
    Covered h' own' t (Function.update c a (insert (vpnOf va) (c a))) := by
  have hh := hw.held
  have hA := hw.areas t ht
  obtain ⟨N, M, hk⟩ := hpt.takes hh
  have hm4 := hpt.node4
  have hroot : (h'.task t).pageTable = (h.task t).pageTable := hpt.grown.pageTable ht
  have harea : ∀ {b k}, own'.Obj b t (.area k) ↔ own.Obj b t (.area k) := fun {b k} =>
    hk.obj_old (r := .area k) rfl nofun nofun nofun
  have huser : ∀ {s m' v}, own'.Page s t (.user m' v) ↔
      (s = p ∧ m' = m ∧ v = vpnOf va) ∨ own.Page s t (.user m' v) := by
    intro s m' v
    rw [hk.page s t _ rfl]
    constructor
    · intro hs
      rcases hs with ⟨_, _, he⟩ | ⟨hs, _, he⟩ | ⟨_, _, he⟩ | hs
      · exact nomatch he
      · cases he
        exact .inl ⟨hs, rfl, rfl⟩
      · exact nomatch he
      · exact .inr hs
    · intro hs
      rcases hs with ⟨rfl, rfl, rfl⟩ | hs
      · exact .inr (.inl ⟨rfl, rfl, rfl⟩)
      · exact .inr (.inr (.inr hs))
  have hold : ∀ {s m' v}, own.Page s t (.user m' v) → m' ≠ m ∧ ∃ b k, own.Obj m' t (.pnode b) ∧
      own.Obj b t (.area k) ∧ v ∈ c b := by
    intro s m' v hs
    obtain ⟨b, k, hm', hb⟩ := area hA hs
    exact ⟨hk.new hh hm', b, k, hm', hb, hc.inside b m' s v hm' hs⟩
  have hself : Function.update c a (insert (vpnOf va) (c a)) a = insert (vpnOf va) (c a) :=
    Function.update_self _ _ _
  have hother : ∀ {b}, b ≠ a → Function.update c a (insert (vpnOf va) (c a)) b = c b := fun hb =>
    Function.update_of_ne hb _ _
  have hsub : ∀ b, c b ⊆ Function.update c a (insert (vpnOf va) (c a)) b := by
    intro b
    by_cases hb : b = a
    · rw [hb, hself]
      exact Finset.subset_insert _ _
    · rw [hother hb]
  refine ⟨fun b m' s v hm' hs => ?_, fun b k hb v hv => ?_, fun s m' v hs => ?_, fun b k hb v hv => ?_,
    fun b k b' k' hb hb' hne => ?_⟩
  · cases huser.mp hs with
    | inl he =>
      obtain ⟨rfl, rfl, rfl⟩ := he
      cases (hk.pnode hm4).mp hm' with
      | inl he =>
        rw [he.2, hself]
        exact Finset.mem_insert_self _ _
      | inr hm' => exact absurd rfl (hk.new hh hm')
    | inr hs =>
      obtain ⟨hne, _⟩ := hold hs
      have hm' := ((hk.pnode hm4).mp hm').resolve_left fun he => hne he.1
      exact hsub b (hc.inside b m' s v hm' hs)
  · have hb := harea.mp hb
    have hcase : v ∈ c b ∨ b = a ∧ v = vpnOf va := by
      by_cases he : b = a
      · rw [he, hself, Finset.mem_insert] at hv
        exact hv.elim (fun e => .inr ⟨he, e⟩) fun hv => .inl (he ▸ hv)
      · rw [hother he] at hv
        exact .inl hv
    cases hcase with
    | inl hv =>
      obtain ⟨m', s, hm', hs⟩ := hc.onto b k hb v hv
      exact ⟨m', s, (hk.pnode hm4).mpr (.inr hm'), huser.mpr (.inr hs)⟩
    | inr he =>
      exact ⟨m, p, (hk.pnode hm4).mpr (.inl ⟨rfl, he.1⟩), huser.mpr (.inl ⟨rfl, rfl, he.2⟩)⟩
  · rw [hroot]
    cases huser.mp hs with
    | inl he =>
      obtain ⟨rfl, _, rfl⟩ := he
      have hp' : own'.Page s t (.user m (vpnOf va)) := huser.mpr (.inl ⟨rfl, rfl, rfl⟩)
      have hh' := hpt.grown.world.held
      have hin := hh'.ok.usable (hh'.out _ _ _ hp') (Tiling.base_mem (pageAt s))
      have hpa := (PA_usable hin).2
      refine ⟨flags, hf, fun y hy hyv => ?_⟩
      rw [hpt.map y, if_pos ((samePage_iff_vpn hy).mpr hyv), setLeaf_eq (.inl hf.leaf), if_neg hf.valid]
      show some (Translation.mk (PA s % 2 ^ 56 + y % 2 ^ 12) flags) = _
      have hpa : PA s % 2 ^ 56 = PA s := Nat.mod_eq_of_lt hpa
      rw [hpa]
      rfl
    | inr hs =>
      obtain ⟨_, b, k, _, hb, hv⟩ := hold hs
      obtain ⟨f, hf', hmap⟩ := hc.mapped s m' v hs
      refine ⟨f, hf', fun y hy hyv => ?_⟩
      rw [hpt.map y, if_neg]
      · exact hmap y hy hyv
      · intro hsame
        rw [samePage_iff_vpn hy, hyv] at hsame
        exact hfree b k hb (hsame ▸ hv)
  · have hb := harea.mp hb
    by_cases he : b = a
    · rw [he, hself, Finset.mem_insert] at hv
      cases hv with
      | inl he =>
        rw [he]
        exact Nat.mod_lt _ (by decide)
      | inr hv => exact hc.low a n ha v hv
    · rw [hother he] at hv
      exact hc.low b k hb v hv
  · have hb := harea.mp hb
    have hb' := harea.mp hb'
    by_cases he : b = a
    · rw [he, hself, hother fun e => hne (he.trans e.symm), Finset.disjoint_insert_left]
      exact ⟨hfree b' k' hb', hc.apart a n b' k' ha hb' fun e => hne (he.trans e)⟩
    · by_cases he' : b' = a
      · rw [hother he, he', hself, Finset.disjoint_insert_right]
        exact ⟨hfree b k hb, hc.apart b k a n hb ha he⟩
      · rw [hother he, hother he']
        exact hc.apart b k b' k' hb hb' hne

end Covered

/-! ## the fields of an area -/

/-- the page numbers of an area -/
def VmArea.vpns (x : VmArea) : Finset Nat := Finset.Ico (x.va / pageSize) (x.va / pageSize + x.nPages)

/-- the address behind an area -/
def VmArea.stop (x : VmArea) : Nat := x.va + x.nPages * pageSize

theorem VmArea.mem_vpns {v : Nat} (hva : pageSize ∣ x.va) :
    v ∈ x.vpns ↔ x.va ≤ v * pageSize ∧ v * pageSize < x.stop := by
  obtain ⟨k, hk⟩ := hva
  unfold VmArea.vpns VmArea.stop
  rw [Finset.mem_Ico, hk, Nat.mul_div_cancel_left k (by decide)]
  unfold pageSize
  omega

theorem VmArea.vpns_disjoint {x y : VmArea} (hle : x.stop ≤ y.va) : Disjoint x.vpns y.vpns := by
  rw [Finset.disjoint_left]
  intro v hv hv'
  unfold VmArea.vpns at hv hv'
  rw [Finset.mem_Ico] at hv hv'
  have hdiv := Nat.div_le_div_right (c := pageSize) hle
  unfold VmArea.stop at hdiv
  rw [Nat.add_mul_div_right _ _ (by decide)] at hdiv
  omega

/-- `x` begins first, and the two have no page number in common -/
structure VmArea.Before (x y : VmArea) : Prop where
  va : x.va ≤ y.va
  apart : Disjoint x.vpns y.vpns

theorem VmArea.before_of_stop {x y : VmArea} (hle : x.stop ≤ y.va) : x.Before y :=
  ⟨Nat.le_trans (Nat.le_add_right _ _) hle, vpns_disjoint hle⟩

theorem VmArea.vpns_lt {v : Nat} (hle : x.stop ≤ splitAddr) (hv : v ∈ x.vpns) : v < 2 ^ 27 := by
  have hdiv := Nat.div_le_div_right (c := pageSize) hle
  unfold VmArea.stop at hdiv
  rw [Nat.add_mul_div_right _ _ (by decide), show splitAddr / pageSize = 66060288 from rfl] at hdiv
  unfold VmArea.vpns at hv
  rw [Finset.mem_Ico] at hv
  omega

/-- the area that the node `n` leads to -/
def Heap.areaOf (h : Heap) (n : Nat) : VmArea := h.area (h.node n).value

/-! ## a task whose areas are in order -/

/-- the areas of `ns`, of which the one at `a` is mapped at the page numbers `S` only, so far -/
structure Filling (h : Heap) (own : Owners) (t : Nat) (ns : List Nat) (a : Nat) (S : Finset Nat) : Prop where
  complete : Complete h own t
  covered : Covered h own t (Function.update (fun b => (h.area b).vpns) a S)
  vm : h.lists.Exactly own t .vnode (.vmAreas t) ns
  order : ns.Pairwise fun n n' => (h.areaOf n).Before (h.areaOf n')
  below : ∀ n ∈ ns, (h.areaOf n).stop ≤ splitAddr

/-- the pages of a task are mapped where its areas are, and its list of areas is `ns` -/
structure Booked (h : Heap) (own : Owners) (t : Nat) (ns : List Nat) : Prop where
  complete : Complete h own t
  covered : Covered h own t fun a => (h.area a).vpns
  vm : h.lists.Exactly own t .vnode (.vmAreas t) ns
  order : ns.Pairwise fun n n' => (h.areaOf n).Before (h.areaOf n')
  below : ∀ n ∈ ns, (h.areaOf n).stop ≤ splitAddr

theorem Booked.filling (hb : Booked h own t ns) (a : Nat) : Filling h own t ns a (h.area a).vpns := by
  refine ⟨hb.complete, ?_, hb.vm, hb.order, hb.below⟩
  rw [Function.update_eq_self_iff.mpr rfl]
  exact hb.covered

theorem Filling.booked {S : Finset Nat} (hb : Filling h own t ns a S) (hS : S = (h.area a).vpns) :
    Booked h own t ns := by
  refine ⟨hb.complete, ?_, hb.vm, hb.order, hb.below⟩
  have hc := hb.covered
  rw [hS, Function.update_eq_self_iff.mpr rfl] at hc
  exact hc

theorem Areas.node_of_area (hA : Areas h.lists own t) (hvm : h.lists.Exactly own t .vnode (.vmAreas t) ns)
    (ha : own.Obj a t (.area n)) : n ∈ ns ∧ (h.node n).value = a := by
  obtain ⟨hn, hv⟩ := (hA.area n a).mp ha
  exact ⟨(hvm.mem n).mpr hn, hv⟩

/-- two areas of a task have no page number in common -/
theorem Filling.apart {S : Finset Nat} {b k : Nat} (hb : Filling h own t ns a S) (hA : Areas h.lists own t)
    (ha : own.Obj a t (.area n)) (hb' : own.Obj b t (.area k)) (hne : b ≠ a) :
    Disjoint (h.area a).vpns (h.area b).vpns := by
  obtain ⟨hn, hv⟩ := hA.node_of_area hb.vm ha
  obtain ⟨hk, hv'⟩ := hA.node_of_area hb.vm hb'
  have hpair : ns.Pairwise fun n n' => Disjoint (h.areaOf n).vpns (h.areaOf n').vpns :=
    hb.order.imp VmArea.Before.apart
  have hsymm : Std.Symm fun n n' => Disjoint (h.areaOf n).vpns (h.areaOf n').vpns := ⟨fun _ _ hd => hd.symm⟩
  have hd := hpair.forall hn hk fun e => hne (by rw [← hv, ← hv', e])
  rw [Heap.areaOf, Heap.areaOf, hv, hv'] at hd
  exact hd

/-- an area is added above the others -/
theorem Booked.addArea (hb : Booked h own t ns) (hw : World h own q) (ht : t ∈ h.live)
    (hat : AreaTurn q t x h own h' own' n a) (hx : x.refcount = 1) (hstop : x.stop ≤ splitAddr)
    (habove : ∀ k ∈ ns, (h.areaOf k).Before x) : Filling h' own' t (ns ++ [n]) a ∅ ∧ h'.areaOf n = x ∧
      ∀ k ∈ ns, h'.areaOf k = h.areaOf k := by
  have hh := hw.held
  have hA := hw.areas t ht
  have hxt := hat.added.extends
  have hnew : ∀ {y t' r}, own.Obj y t' r → y ≠ a ∧ y ≠ n := by
    intro y t' r hy
    have hnot := hxt.not_new (hh.kept hy.page)
    exact ⟨fun e => hnot (e ▸ List.mem_append_right _ (List.mem_singleton_self _)),
      fun e => hnot (e ▸ List.mem_append_left _ (List.mem_singleton_self _))⟩
  have hobj : ∀ {k}, k ∈ ns → own.Obj (h.node k).value t (.area k) := fun hk =>
    (hA.area _ _).mpr ⟨(hb.vm.mem _).mp hk, rfl⟩
  have hlive : t ∈ h'.live := hat.grown.live ▸ ht
  have hA' := hat.grown.world.areas t hlive
  -- a node leads to the area that it led to before
  have hvalue : ∀ {k}, k ∈ ns → (h'.node k).value = (h.node k).value := fun hk =>
    ((hA'.area _ _).mp ((hat.obj_iff hh).mpr (.inr (.inr (hobj hk))))).2
  have harea : ∀ {k}, k ∈ ns → h'.areaOf k = h.areaOf k := by
    intro k hk
    unfold Heap.areaOf
    rw [hvalue hk, hat.added.area _ (hnew (hobj hk)).1]
  have hself : h'.areaOf n = x := by
    have hv : (h'.node n).value = a := ((hA'.area n a).mp hat.obj.1).2
    unfold Heap.areaOf
    rw [hv, hat.area]
  have hle : ∀ k ∈ ns, (h.areaOf k).va ≤ x.va := fun k hk => (habove k hk).va
  have hq : ∀ ns', h.lists.Exactly own t .vnode (.vmAreas t) ns' → (h.areaLinks n a).Queue (.vmAreas t) ns' →
      n ∉ ns' → h'.lists.Queue (.vmAreas t) (ns' ++ [n]) := by
    intro ns' hvm' hql hn
    have he : ns' = ns := hvm'.queue.unique hb.vm.queue
    subst he
    refine hat.added.queue _ hql hn fun k hk => ?_
    have hnode : ((h.areaLinks n a).node k).value = (h.node k).value := by
      show ((h.lists.setNode n (h.newNode n a)).node k).value = _
      have hkn : k ≠ n := fun e => hn (e ▸ hk)
      rw [Lists.node_setNode, if_neg hkn]
      rfl
    rw [hnode, hat.area, hat.added.area _ (hnew (hobj hk)).1]
    exact hle k hk
  have hcomplete := hb.complete.addArea hw ht hat hx hq
  have hn : n ∉ ns := fun hin => (hnew ((hb.vm.mem n).mp hin)).2 rfl
  refine ⟨⟨hcomplete, ?_, ?_, ?_, fun k hk => ?_⟩, hself, fun _ => harea⟩
  · refine (hb.covered.addArea hw ht hat).congr (fun b k hb' => ?_) hA'
    by_cases he : b = a
    · rw [he, Function.update_self, Function.update_self]
    · rw [Function.update_of_ne he, Function.update_of_ne he, hat.added.area b he]
  · obtain ⟨ns', hvm'⟩ := hcomplete.vm
    have hq' := hq ns hb.vm ?_ hn
    · rw [hvm'.queue.unique hq'] at hvm'
      exact hvm'
    · refine (hb.vm.queue.setNode (x := h.newNode n a) hn).congr ?_ fun _ _ => ⟨rfl, rfl⟩
      show ((h.lists.setNode n (h.newNode n a)).listInit (.pages a)).list (.vmAreas t) = _
      rw [Lists.list_listInit, if_neg nofun]
  · rw [List.pairwise_append]
    refine ⟨hb.order.imp_of_mem fun hk hk' hle => ?_, List.pairwise_singleton _ _, fun k hk k' hk' => ?_⟩
    · rw [harea hk, harea hk']
      exact hle
    · rw [List.mem_singleton.mp hk', hself, harea hk]
      exact habove k hk
  · cases List.mem_append.mp hk with
    | inl hk =>
      rw [harea hk]
      exact hb.below k hk
    | inr hk =>
      rw [List.mem_singleton.mp hk, hself]
      exact hstop

/-- what a page does not change: which area a node leads to -/
theorem PageTurn.value (hpt : PageTurn q t a va flags h own h' own' p m) {k : Nat} (hk : k ≠ m) :
    (h'.node k).value = (h.node k).value := by
  show (h'.lists.node k).value = _
  rw [hpt.lists, Lists.value_listPush, Lists.node_setNode, if_neg hk]
  rfl

theorem Filling.areaOf {S : Finset Nat} {k : Nat} (hb : Filling h own t ns a S) (hh : Held h own)
    (hpt : PageTurn q t a va flags h own h' own' p m) (hsame : h'.area a = h.area a) (hk : k ∈ ns) :
    h'.areaOf k = h.areaOf k := by
  obtain ⟨N, M, hkt⟩ := hpt.takes hh
  have hkm : k ≠ m := hkt.new hh ((hb.vm.mem _).mp hk)
  unfold Heap.areaOf
  rw [hpt.value hkm]
  by_cases he : (h.node k).value = a
  · rw [he, hsame]
  · exact hpt.area _ he

/-- the next page of an area -/
theorem Filling.addPage {S : Finset Nat} (hb : Filling h own t ns a S) (hw : World h own q) (ht : t ∈ h.live)
    (hpt : PageTurn q t a va flags h own h' own' p m) (ha : own.Obj a t (.area n)) (hf : UserLeaf flags)
    (hsame : h'.area a = h.area a) (hin : vpnOf va ∈ (h.area a).vpns) (hnot : vpnOf va ∉ S) :
    Filling h' own' t ns a (insert (vpnOf va) S) := by
  have hh := hw.held
  have hA := hw.areas t ht
  obtain ⟨N, M, hk⟩ := hpt.takes hh
  have harea : h'.area = h.area := by
    funext b
    by_cases he : b = a
    · rw [he, hsame]
    · exact hpt.area b he
  have hof : ∀ {k}, k ∈ ns → h'.areaOf k = h.areaOf k := hb.areaOf hh hpt hsame
  obtain ⟨ms, hms⟩ := hb.complete.pages a n ha
  refine ⟨hb.complete.addPage hw ht hpt ha hf.leaf (by rw [hsame]), ?_, ⟨?_, fun k => ?_⟩, ?_, fun k hk' => ?_⟩
  · refine (hb.covered.addPage hw ht hpt ha hf fun b k hb' => ?_).congr (fun b k _ => ?_)
      (hpt.grown.world.areas t (hpt.grown.live ▸ ht))
    · by_cases he : b = a
      · rw [he, Function.update_self]
        exact hnot
      · rw [Function.update_of_ne he]
        exact Finset.disjoint_left.mp (hb.apart hA ha hb' he) hin
    · by_cases he : b = a
      · rw [he, Function.update_self, Function.update_self, Function.update_self]
      · rw [Function.update_of_ne he, Function.update_of_ne he, Function.update_of_ne he, harea]
  · exact hpt.exactly_other hh hms (r := .vnode) nofun nofun hb.vm
  · rw [hk.obj_old (r := .vnode) rfl nofun nofun nofun]
    exact hb.vm.mem k
  · refine hb.order.imp_of_mem fun hk' hk'' hle => ?_
    rw [hof hk', hof hk'']
    exact hle
  · rw [hof hk']
    exact hb.below k hk'

theorem Booked.untouched (hb : Booked h own t ns) (hw : World h own q) (ht : t ∈ h.live)
    (hu : Untouched h h' own own' t) : Booked h' own' t ns := by
  have hM := hw.maps t ht
  have hA := hw.areas t ht
  have hobj : ∀ {k}, k ∈ ns → own.Obj k t .vnode := fun hk => (hb.vm.mem _).mp hk
  have hnode : ∀ {k}, k ∈ ns → h'.node k = h.node k := fun hk => hu.node _ .vnode (hobj hk) rfl
  have hof : ∀ {k}, k ∈ ns → h'.areaOf k = h.areaOf k := by
    intro k hk
    unfold Heap.areaOf
    have ha : own.Obj (h.node k).value t (.area k) := (hA.area k _).mpr ⟨hobj hk, rfl⟩
    rw [hnode hk, hu.area _ k ha]
  refine ⟨hb.complete.untouched hM hu, ?_, ⟨?_, fun k => ?_⟩, ?_, fun k hk => ?_⟩
  · refine (hb.covered.untouched hM hu).congr (fun a n ha => ?_) (hA.untouched hu)
    rw [hu.area a n ((hu.obj rfl).mp ha)]
  · refine hb.vm.queue.congr hu.vm fun k hk => ?_
    have he : h'.lists.node k = h.lists.node k := hnode hk
    rw [he]
    exact ⟨rfl, rfl⟩
  · rw [hu.obj rfl]
    exact hb.vm.mem k
  · refine hb.order.imp_of_mem fun hk hk' hle => ?_
    rw [hof hk, hof hk']
    exact hle
  · rw [hof hk]
    exact hb.below k hk

/-! ## read off the lists and the page table -/

/-- the list of pages of the area at `a` holds one page for each page number of the area, and the page
table maps it there -/
structure AreaAgrees (h : Heap) (root a : Nat) (ms : List Nat) (page : Nat → Nat) : Prop where
  queue : h.lists.Queue (.pages a) ms
  length : ms.length = (h.area a).nPages
  distinct : (ms.map fun m => (h.node m).value).Nodup
  pages : ((List.range (h.area a).nPages).map page).Perm (ms.map fun m => (h.node m).value)
  mapped : ∀ i < (h.area a).nPages, ∃ flags, UserLeaf flags ∧ ∀ off < pageSize,
    mapOf h root ((h.area a).va + i * pageSize + off) = some ⟨PA (page i) + off, flags⟩

/-- the areas of a task and its page table below `SPLIT` agree -/
structure Agrees (h : Heap) (t : Nat) (ns : List Nat) : Prop where
  queue : h.lists.Queue (.vmAreas t) ns
  area : ∀ n ∈ ns, ∃ ms page, AreaAgrees h (h.task t).pageTable (h.node n).value ms page
  outside : ∀ x < splitAddr, mapOf h (h.task t).pageTable x ≠ none →
    ∃ n ∈ ns, (h.areaOf n).va ≤ x ∧ x < (h.areaOf n).stop

theorem kernelMap_low {x : Nat} (hx : x < splitAddr) : kernelMap x = none := by
  unfold splitAddr at hx
  have h1 : ¬ SamePage 2 x kernBase := by
    unfold SamePage kernBase splitAddr
    omega
  have h2 : ¬ SamePage 2 x mmioBase := by
    unfold SamePage mmioBase kernStop kernBase splitAddr
    omega
  unfold kernelMap
  rw [if_neg h1, if_neg h2]

theorem Booked.areaAgrees (hb : Booked h own t ns) (hw : World h own q) (ht : t ∈ h.live)
    (ha : own.Obj a t (.area n)) (hstop : (h.area a).stop ≤ splitAddr) :
    ∃ ms page, AreaAgrees h (h.task t).pageTable a ms page := by
  have hA := hw.areas t ht
  have hc := hb.covered
  obtain ⟨ms, hms⟩ := hb.complete.pages a n ha
  have hva := hw.aligned t a n ha
  obtain ⟨lo, hlo⟩ : ∃ lo, lo = (h.area a).va / pageSize := ⟨_, rfl⟩
  have hvpn : ∀ i < (h.area a).nPages, lo + i ∈ (h.area a).vpns := by
    intro i hi
    unfold VmArea.vpns
    rw [Finset.mem_Ico, ← hlo]
    omega
  have honto : ∀ i, ∃ p, i < (h.area a).nPages → ∃ m, own.Obj m t (.pnode a) ∧ own.Page p t (.user m (lo + i)) := by
    intro i
    by_cases hi : i < (h.area a).nPages
    · obtain ⟨m, p, hm, hp⟩ := hc.onto a n ha (lo + i) (hvpn i hi)
      exact ⟨p, fun _ => ⟨m, hm, hp⟩⟩
    · exact ⟨0, fun hi' => absurd hi' hi⟩
  choose page hpage using honto
  have hvalue : ∀ {m p v}, own.Page p t (.user m v) → (h.node m).value = p := fun {m p v} hp =>
    ((hA.page m p).mp ⟨v, hp⟩).2
  have hdistinct : (ms.map fun m => (h.node m).value).Nodup :=
    values_nodup hA hms.queue.chain.nodup fun m hm => (hms.mem m).mp hm
  have hinj : ((List.range (h.area a).nPages).map page).Nodup := by
    refine List.Nodup.map_on (fun i hi j hj he => ?_) List.nodup_range
    obtain ⟨m, _, hp⟩ := hpage i (List.mem_range.mp hi)
    obtain ⟨m', _, hp'⟩ := hpage j (List.mem_range.mp hj)
    rw [he] at hp
    have hrole := (hp.unique hp').2
    simp only [Role.user.injEq] at hrole
    omega
  have hperm : ((List.range (h.area a).nPages).map page).Perm (ms.map fun m => (h.node m).value) := by
    refine (List.perm_ext_iff_of_nodup hinj hdistinct).mpr fun p => ?_
    rw [List.mem_map, List.mem_map]
    constructor
    · intro ⟨i, hi, he⟩
      obtain ⟨m, hm, hp⟩ := hpage i (List.mem_range.mp hi)
      exact ⟨m, (hms.mem m).mpr hm, (hvalue hp).trans he⟩
    · intro ⟨m, hm, he⟩
      have hm := (hms.mem m).mp hm
      obtain ⟨v, hv⟩ := (hA.page m _).mpr ⟨⟨a, hm⟩, rfl⟩
      have hin : v ∈ (h.area a).vpns := hc.inside a m _ v hm hv
      have hlt := VmArea.vpns_lt hstop hin
      unfold VmArea.vpns at hin
      rw [Finset.mem_Ico, ← hlo] at hin
      have hi : v - lo < (h.area a).nPages := by omega
      obtain ⟨m', _, hp⟩ := hpage (v - lo) hi
      rw [Nat.add_sub_cancel' hin.1] at hp
      exact ⟨v - lo, List.mem_range.mpr hi, (hc.unique hw.held hlt hp hv).1.trans he⟩
  refine ⟨ms, page, hms.queue, ?_, hdistinct, hperm, fun i hi => ?_⟩
  · have hlen := hperm.length_eq
    rw [List.length_map, List.length_map, List.length_range] at hlen
    exact hlen.symm
  · obtain ⟨m, _, hp⟩ := hpage i hi
    obtain ⟨f, hf, hmap⟩ := hc.mapped _ m _ hp
    have hlt := VmArea.vpns_lt hstop (hvpn i hi)
    refine ⟨f, hf, fun off hoff => ?_⟩
    obtain ⟨k, hk⟩ := hva
    rw [hk, Nat.mul_div_cancel_left k (by decide)] at hlo
    have hy : (h.area a).va + i * pageSize + off = pageSize * (lo + i) + off := by
      rw [hk, hlo, Nat.mul_add, Nat.mul_comm i]
    rw [hy, hmap]
    · rw [Nat.mul_add_mod, Nat.mod_eq_of_lt hoff]
    · unfold pageSize at *
      omega
    · rw [Nat.mul_add_div (by decide), Nat.div_eq_of_lt hoff, Nat.add_zero]

theorem Booked.agrees (hb : Booked h own t ns) (hw : World h own q) (ht : t ∈ h.live) : Agrees h t ns := by
  have hA := hw.areas t ht
  have hM := hw.maps t ht
  refine ⟨hb.vm.queue, fun n hn => ?_, fun x hx hmap => ?_⟩
  · exact hb.areaAgrees hw ht ((hA.area n _).mpr ⟨(hb.vm.mem n).mp hn, rfl⟩) (hb.below n hn)
  · obtain ⟨tr, htr⟩ := Option.ne_none_iff_exists'.mp hmap
    have hx39 : x < 2 ^ 39 := by
      unfold splitAddr at hx
      omega
    by_cases hu : tr.flags &&& pteUser = 0
    · have hk := hM.kern x hx39 tr htr hu
      rw [kernelMap_low hx] at hk
      exact nomatch hk
    · obtain ⟨p, m, hp, _⟩ := hM.user x hx39 tr htr hu
      obtain ⟨a, n, hm, ha⟩ := Covered.area hA hp
      obtain ⟨hn, hv⟩ := hA.node_of_area hb.vm ha
      have hin : x / pageSize ∈ (h.area a).vpns := hb.covered.inside a m p _ hm hp
      have hva := hw.aligned t a n ha
      refine ⟨n, hn, ?_⟩
      unfold Heap.areaOf
      rw [hv]
      obtain ⟨h1, h2⟩ := (VmArea.mem_vpns hva).mp hin
      refine ⟨Nat.le_trans h1 (Nat.div_mul_le_self x pageSize), ?_⟩
      obtain ⟨k, hk⟩ := hva
      unfold VmArea.stop at *
      rw [hk] at h2 ⊢
      unfold pageSize at *
      omega

end FakeKernel
