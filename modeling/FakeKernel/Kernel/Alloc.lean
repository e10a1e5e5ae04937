import FakeKernel.Kernel.Sched
import FakeKernel.Mm.Demand

/-!
# What the allocator gives to the kernel's objects

For each function of the heap that allocates: which pages it took, that they were free before, and
that no byte of a page that was kept has changed.

* `kmalloc_spec`, `allocPage_spec`, `listNodeCreate_spec`, `vmAreaCreate_spec`, `vmAreaAddPage_spec`;
* `clearPage_spec`, `fillPage_out`   the functions that fill a page;
* `kmalloc_room`, ...                   each of them returns as long as there is room.
-/

namespace FakeKernel
open Bytes Mm

namespace Heap

variable {h h' : Heap} {p size value n va nPages flags area page : Nat} {err : Int} {r : ListRef} {a : Mm} {N : List Nat}
  {W : Set Nat}

theorem kmalloc_spec (hok : h.mm.Ok) (hs : size ≤ 4092) (hrun : h.kmalloc size = .ok (p, h')) :
    ∃ mm, h' = { h with mm := mm, blocks := p :: h.blocks } ∧ 4 ≤ p ∧
      Extends h.mm mm ∅ [p - 4] ∧ load 4 mm.mem (p - 4) = 0 := by
  unfold kmalloc at hrun
  obtain ⟨⟨q, mm⟩, hk, hret⟩ := Res.bind_eq_ok.mp hrun
  obtain ⟨hal, hhead, h4⟩ := hok.kmalloc hs hk
  cases hret
  exact ⟨mm, rfl, h4, hal.extends rfl, hhead⟩

theorem allocPage_spec (hok : h.mm.Ok) (hrun : h.allocPage = .ok (p, h')) :
    ∃ mm, h' = { h with mm := mm } ∧ p ≠ 0 ∧ Extends h.mm mm ∅ [p] := by
  unfold allocPage at hrun
  obtain ⟨⟨q, mm⟩, hk, hret⟩ := Res.bind_eq_ok.mp hrun
  obtain ⟨hord, hal⟩ := hok.alloc (by decide) hk
  cases hret
  have hx := hal.extends hord
  exact ⟨mm, rfl, hx.new_ne_zero (List.mem_singleton_self _), hx⟩

/-- a node that list_node_create made -/
def newNode (h : Heap) (n value : Nat) : ListNode :=
  { h.node n with value := value, prev := 0, next := 0 }

theorem listNodeCreate_spec (hok : h.mm.Ok) (hrun : h.listNodeCreate value = .ok (n, h')) :
    ∃ mm, h' = { h with
          mm := mm
          lists := h.lists.setNode n (h.newNode n value)
          blocks := n :: h.blocks } ∧ 4 ≤ n ∧
      Extends h.mm mm ∅ [n - 4] ∧ load 4 mm.mem (n - 4) = 0 := by
  unfold listNodeCreate at hrun
  obtain ⟨⟨q, h₁⟩, hk, hret⟩ := Res.bind_eq_ok.mp hrun
  obtain ⟨mm, rfl, h4, hx, hhead⟩ := kmalloc_spec hok (by decide) hk
  have hq : q ≠ 0 := by omega
  simp only [hq, if_false] at hret
  cases hret
  exact ⟨mm, rfl, h4, hx, hhead⟩

theorem vmAreaCheckAlignment_spec {u : Unit} (hrun : h.vmAreaCheckAlignment area = .ok u) :
    pageSize ∣ (h.area area).va := by
  unfold vmAreaCheckAlignment at hrun
  split at hrun
  · exact absurd hrun Res.panic_ne_ok
  · rename_i hva
    exact Nat.dvd_of_mod_eq_zero (not_not.mp hva)

theorem vmAreaCreate_spec (hok : h.mm.Ok)
    (hrun : h.vmAreaCreate va nPages flags = .ok (area, h')) :
    ∃ mm, h' = ({ h with mm := mm, blocks := area :: h.blocks }.setArea area
        { va := va, nPages := nPages, flags := flags, refcount := 0 }).listInit (.pages area) ∧
      4 ≤ area ∧ Extends h.mm mm ∅ [area - 4] ∧ load 4 mm.mem (area - 4) = 0 ∧ pageSize ∣ va := by
  unfold vmAreaCreate at hrun
  obtain ⟨⟨q, h₁⟩, hk, hrun⟩ := Res.bind_eq_ok.mp hrun
  obtain ⟨mm, rfl, h4, hx, hhead⟩ := kmalloc_spec hok (by decide) hk
  obtain ⟨_, hcheck, hret⟩ := Res.bind_eq_ok.mp hrun
  have hva : pageSize ∣ (Function.update h.area q
      { va := va, nPages := nPages, flags := flags, refcount := 0 } q).va :=
    vmAreaCheckAlignment_spec hcheck
  rw [Function.update_self] at hva
  cases hret
  exact ⟨mm, rfl, h4, hx, hhead, hva⟩

theorem vmAreaAddPage_spec (hok : h.mm.Ok) (hrun : h.vmAreaAddPage area page = .ok (err, h')) :
    err = 0 ∧ ∃ mm n, h' = ({ h with
          mm := mm
          lists := h.lists.setNode n (h.newNode n page)
          blocks := n :: h.blocks }).listPush (.pages area) n ∧ 4 ≤ n ∧
      Extends h.mm mm ∅ [n - 4] ∧ load 4 mm.mem (n - 4) = 0 := by
  unfold vmAreaAddPage at hrun
  obtain ⟨⟨n, h₁⟩, hk, hret⟩ := Res.bind_eq_ok.mp hrun
  obtain ⟨mm, rfl, h4, hx, hhead⟩ := listNodeCreate_spec hok hk
  have hn : n ≠ 0 := by omega
  simp only [hn, if_false] at hret
  cases hret
  exact ⟨rfl, mm, n, rfl, h4, hx, hhead⟩

/-- vm_area_incref keeps an area that is aligned, or panics -/
theorem vmAreaIncref_spec (hrun : h.vmAreaIncref area = .ok h') :
    h' = h.setArea area { h.area area with
      refcount := ((h.area area).refcount + 1) % refcountMod } := by
  unfold vmAreaIncref at hrun
  obtain ⟨_, _, hrun⟩ := Res.bind_eq_ok.mp hrun
  obtain ⟨_, _, hret⟩ := Res.bind_eq_ok.mp hrun
  cases hret
  rfl

theorem vmAreaIncref_ok (hva : pageSize ∣ (h.area area).va)
    (href : 0 < ((h.area area).refcount + 1) % refcountMod) :
    h.vmAreaIncref area = .ok (h.setArea area { h.area area with
      refcount := ((h.area area).refcount + 1) % refcountMod }) := by
  have hset : ∀ v, (h.setArea area v).area area = v := by
    intro v
    show Function.update h.area area v area = v
    rw [Function.update_self]
  unfold vmAreaIncref vmAreaCheckAlignment
  rw [if_neg fun hne => hne (Nat.mod_eq_zero_of_dvd hva), Res.ok_bind]
  simp only [hset]
  rw [decide_eq_true href]
  rfl

/-- the loop of vm_add_area changes nothing but links -/
theorem vmInsertFrom_rest {new node fuel : Nat}
    (hrun : vmInsertFrom r area new fuel node h = .ok h') : ∃ L, h' = { h with lists := L } := by
  induction fuel generalizing node h with
  | zero => exact nomatch hrun
  | succ fuel ih =>
    unfold vmInsertFrom at hrun
    by_cases hnode : node = 0
    · simp only [hnode, if_true] at hrun
      cases hrun
      exact ⟨_, rfl⟩
    · simp only [hnode, if_false] at hrun
      obtain ⟨L, rfl⟩ := ih hrun
      split
      · exact ⟨L, rfl⟩
      · exact ⟨L, rfl⟩

theorem vmAddArea_rest (hok : h.mm.Ok) (hrun : h.vmAddArea r area = .ok (err, h')) :
    err = 0 ∧ ∃ mm n L x, h' = { h with mm := mm, lists := L, area := x, blocks := n :: h.blocks } ∧
      4 ≤ n ∧ Extends h.mm mm ∅ [n - 4] := by
  unfold vmAddArea at hrun
  obtain ⟨⟨n, h₁⟩, hk, hrun⟩ := Res.bind_eq_ok.mp hrun
  obtain ⟨mm, rfl, h4, hx, _⟩ := listNodeCreate_spec hok hk
  have hn : n ≠ 0 := by omega
  simp only [hn, if_false] at hrun
  obtain ⟨h₂, hinc, hrun⟩ := Res.bind_eq_ok.mp hrun
  rw [vmAreaIncref_spec hinc] at hrun
  obtain ⟨h₃, hins, hret⟩ := Res.bind_eq_ok.mp hrun
  obtain ⟨L, rfl⟩ := vmInsertFrom_rest hins
  cases hret
  exact ⟨rfl, mm, n, _, _, rfl, h4, hx⟩

/-! ## filling pages -/

theorem clearWords_out {page x n : Nat} {m : Mem} (hn : n ≤ pageSize / 8) (hx : ¬ onPage page x) :
    clearWords page n m x = m x := by
  induction n with
  | zero => rfl
  | succ n ih =>
    show store 8 (clearWords page n m) (page + 8 * n) 0 x = m x
    rw [store_apply_out ?_, ih (by omega)]
    unfold onPage at hx
    unfold pageSize at *
    omega

theorem clearPage_spec (h : Heap) (hx : Extends a h.mm W N) (hp : page ∈ N) :
    ∃ mm, h.clearPage page = { h with mm := mm } ∧ Extends a mm W N :=
  ⟨_, rfl, hx.write_new hp fun _ hy => clearWords_out (Nat.le_refl _) hy⟩

theorem fillPage_out {toAddr page x n k off src : Nat} {m : Mem}
    (hn : n + k ≤ pageSize) (hx : ¬ onPage page x) :
    (fillPage toAddr page n k off src m).2.2 x = m x := by
  induction n generalizing k off src m with
  | zero => rfl
  | succ n ih =>
    have hne : x ≠ page + k := by
      unfold onPage at hx
      omega
    unfold fillPage
    by_cases hoff : 0 < off
    · simp only [hoff, if_true]
      rw [ih (by omega), Function.update_of_ne hne]
    · simp only [hoff, if_false]
      rw [ih (by omega), Function.update_of_ne hne]

/-! ## while there is room -/

variable {k : Nat}

theorem kmalloc_room (hr : h.mm.Free (k + 1)) (hs : size ≤ 4092) :
    ∃ p h', h.kmalloc size = .ok (p, h') := by
  obtain ⟨p, mm, hrun⟩ := hr.kmalloc hs
  refine ⟨p, { h with mm := mm, blocks := p :: h.blocks }, ?_⟩
  unfold kmalloc
  rw [hrun, Res.ok_bind]

theorem allocPage_room (hr : h.mm.Free (k + 1)) : ∃ p h', h.allocPage = .ok (p, h') := by
  obtain ⟨p, mm, hrun⟩ := hr.alloc
  refine ⟨p.address, { h with mm := mm }, ?_⟩
  unfold allocPage
  rw [hrun, Res.ok_bind]

theorem listNodeCreate_room (hr : h.mm.Free (k + 1)) (value : Nat) :
    ∃ n h', h.listNodeCreate value = .ok (n, h') := by
  obtain ⟨n, h₁, hrun⟩ := kmalloc_room hr (show sizeofListNode ≤ 4092 by decide)
  unfold listNodeCreate
  rw [hrun, Res.ok_bind]
  by_cases h0 : n = 0
  · simp only [h0, if_true]
    exact ⟨_, _, rfl⟩
  · simp only [h0, if_false]
    exact ⟨_, _, rfl⟩

theorem vmAreaCreate_room (hr : h.mm.Free (k + 1)) (hva : pageSize ∣ va) (nPages flags : Nat) :
    ∃ a h', h.vmAreaCreate va nPages flags = .ok (a, h') := by
  obtain ⟨a, h₁, hrun⟩ := kmalloc_room hr (show sizeofVmArea ≤ 4092 by decide)
  have hcheck : ∀ x : Heap, x.area a = { va := va, nPages := nPages, flags := flags, refcount := 0 } →
      x.vmAreaCheckAlignment a = .ok () := by
    intro x hx
    unfold vmAreaCheckAlignment
    rw [hx]
    exact if_neg fun hne => hne (Nat.mod_eq_zero_of_dvd hva)
  unfold vmAreaCreate
  simp only [hrun, Res.ok_bind]
  rw [hcheck, Res.ok_bind]
  · exact ⟨_, _, rfl⟩
  · exact Function.update_self _ _ _

theorem vmAreaAddPage_room (hr : h.mm.Free (k + 1)) (area page : Nat) :
    ∃ err h', h.vmAreaAddPage area page = .ok (err, h') := by
  obtain ⟨n, h₁, hrun⟩ := listNodeCreate_room hr page
  unfold vmAreaAddPage
  rw [hrun, Res.ok_bind]
  by_cases h0 : n = 0
  · simp only [h0, if_true]
    exact ⟨_, _, rfl⟩
  · simp only [h0, if_false]
    exact ⟨_, _, rfl⟩

/-- where no area lies above the new one, the loop walks to the end -/
theorem vmInsertFrom_ok {fuel node : Nat} {ns : List Nat} (hc : Chain (fun x => (h.node x).next) 0 node ns)
    (hlow : ∀ x ∈ ns, (h.area (h.node x).value).va ≤ (h.area area).va) (hfuel : ns.length < fuel) :
    vmInsertFrom r area n fuel node h = .ok h := by
  induction fuel generalizing node ns with
  | zero => exact absurd hfuel (Nat.not_lt_zero _)
  | succ fuel ih =>
    unfold vmInsertFrom
    by_cases hz : node = 0
    · rw [if_pos hz]
    · obtain ⟨ns, rfl, hc'⟩ := hc.cons_of_ne hz
      have hle := Nat.not_lt.mpr (hlow node List.mem_cons_self)
      rw [if_neg hz]
      simp only [hle, if_false]
      exact ih hc' (fun x hx => hlow x (List.mem_cons_of_mem _ hx)) (Nat.lt_of_succ_lt_succ hfuel)

/-- a new area above the others -/
theorem vmAddArea_room {ns : List Nat} (hr : h.mm.Room (k + 1))
    (hc : Chain (fun x => (h.node x).next) 0 (h.lists.list r).first ns)
    (hlow : ∀ x ∈ ns, (h.area (h.node x).value).va ≤ (h.area area).va) (hlen : ns.length < wordCount)
    (hkept : ∀ x ∈ ns, h.mm.KeptPage (x - 4)) (hva : pageSize ∣ (h.area area).va)
    (href : (h.area area).refcount = 0) : ∃ err h', h.vmAddArea r area = .ok (err, h') := by
  obtain ⟨n, h₁, hrun⟩ := listNodeCreate_room hr.free area
  obtain ⟨mm, rfl, h4, hx, _⟩ := listNodeCreate_spec hr.ok hrun
  have hn : n ≠ 0 := by omega
  have hnew : ∀ x ∈ ns, x ≠ n := fun x hx' e =>
    hx.not_new (hkept x hx') (e ▸ List.mem_singleton_self _)
  obtain ⟨h₁, hh₁⟩ : ∃ h₁ : Heap, h₁ = { h with
      mm := mm
      lists := h.lists.setNode n (h.newNode n area)
      blocks := n :: h.blocks } := ⟨_, rfl⟩
  rw [← hh₁] at hrun
  have harea : h₁.area = h.area := by rw [hh₁]
  have hlist : h₁.lists.list r = h.lists.list r := by rw [hh₁]; rfl
  have hnode : ∀ x ∈ ns, h₁.node x = h.node x := by
    intro x hx'
    rw [hh₁]
    show (h.lists.setNode n _).node x = h.lists.node x
    rw [Lists.node_setNode, if_neg (hnew x hx')]
  rw [← harea] at hva href
  unfold vmAddArea
  simp only [hrun, Res.ok_bind, hn, if_false]
  rw [vmAreaIncref_ok hva (by rw [href]; decide), Res.ok_bind]
  obtain ⟨y, hy⟩ : ∃ y, y = { h₁.area area with refcount := ((h₁.area area).refcount + 1) % refcountMod } := ⟨_, rfl⟩
  rw [← hy]
  have hsame : ∀ a, ((h₁.setArea area y).area a).va = (h.area a).va := by
    intro a
    show (Function.update h₁.area area y a).va = _
    by_cases ha : a = area
    · rw [ha, Function.update_self, hy, harea]
    · rw [Function.update_of_ne ha, harea]
  have hwalk : vmInsertFrom r area n wordCount ((h₁.setArea area y).lists.list r).first (h₁.setArea area y)
      = .ok (h₁.setArea area y) := by
    refine vmInsertFrom_ok ?_ (fun x hx' => ?_) hlen
    · show Chain (fun x => (h₁.node x).next) 0 (h₁.lists.list r).first ns
      rw [hlist]
      exact hc.congr fun x hx' => congrArg ListNode.next (hnode x hx')
    · show ((h₁.setArea area y).area (h₁.node x).value).va ≤ _
      rw [hsame, hsame, hnode x hx']
      exact hlow x hx'
  rw [hwalk, Res.ok_bind]
  exact ⟨_, _, rfl⟩

/-- vm_area_create and vm_add_area above the areas that there are -/
theorem newArea_room {ns : List Nat} {t nPages : Nat} (hr : h.mm.Room (k + 2)) (hva : pageSize ∣ va)
    (hc : Chain (fun x => (h.node x).next) 0 (h.lists.list (.vmAreas t)).first ns)
    (hlow : ∀ x ∈ ns, (h.area (h.node x).value).va ≤ va) (hlen : ns.length < wordCount)
    (hkept : ∀ x ∈ ns, h.mm.KeptPage (x - 4) ∧ h.mm.KeptPage ((h.node x).value - 4)) :
    ∃ a h₁ h₂ N, h.vmAreaCreate va nPages flags = .ok (a, h₁) ∧ h₁.vmAddArea (.vmAreas t) a = .ok (0, h₂) ∧
      h₂.mm.Room k ∧ Extends h.mm h₂.mm ∅ N ∧ h₂.task = h.task := by
  obtain ⟨a, h₁, hcreate⟩ := vmAreaCreate_room (k := k + 1) hr.free hva nPages flags
  obtain ⟨mm₁, hh₁, h4, hx₁, _⟩ := vmAreaCreate_spec hr.ok hcreate
  have hmm₁ : h₁.mm = mm₁ := by
    rw [hh₁]
    rfl
  have hr₁ : h₁.mm.Room (k + 1) := by
    rw [hmm₁]
    exact hr.step hx₁ (Nat.le_of_eq (Nat.add_comm 1 (k + 1)))
  have hnew : ∀ x ∈ ns, (h.node x).value ≠ a := fun x hx e =>
    hx₁.not_new (hkept x hx).2 (e ▸ List.mem_singleton_self _)
  have hnode : h₁.node = h.node := by
    rw [hh₁]
    rfl
  have hlist : h₁.lists.list (.vmAreas t) = h.lists.list (.vmAreas t) := by
    rw [hh₁]
    show ((h.lists.listInit (.pages a)).list (.vmAreas t)) = _
    unfold Lists.listInit
    rw [Lists.list_setList, if_neg nofun]
  have harea : h₁.area = Function.update h.area a { va := va, nPages := nPages, flags := flags, refcount := 0 } := by
    rw [hh₁]
    rfl
  have hself : h₁.area a = { va := va, nPages := nPages, flags := flags, refcount := 0 } := by
    rw [harea, Function.update_self]
  obtain ⟨err, h₂, hadd⟩ := vmAddArea_room (r := .vmAreas t) hr₁
    (by rw [hnode, hlist]; exact hc)
    (fun x hx => by rw [hself, hnode, harea, Function.update_of_ne (hnew x hx)]; exact hlow x hx) hlen
    (fun x hx => by rw [hmm₁]; exact hx₁.keptPage (hkept x hx).1) (by rw [hself]; exact hva) (by rw [hself])
  obtain ⟨rfl, mm₂, n, L, A, hh₂, _, hx₂⟩ := vmAddArea_rest hr₁.ok hadd
  have hmm₂ : h₂.mm = mm₂ := by rw [hh₂]
  rw [hmm₁] at hx₂
  refine ⟨a, h₁, h₂, [n - 4] ++ [a - 4], hcreate, hadd, ?_, ?_, ?_⟩
  · rw [hmm₂]
    exact (hmm₁ ▸ hr₁).step hx₂ (Nat.le_of_eq (Nat.add_comm 1 k))
  · rw [hmm₂]
    exact hx₁.trans hx₂ nofun
  · rw [hh₂, hh₁]
    rfl

end Heap

end FakeKernel
