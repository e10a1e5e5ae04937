import FakeKernel.Kernel.Mapped
import FakeKernel.Kernel.Sequence

/-!
# Adding an area to a list (vm_add_area)

The loop of vm_add_area goes on after it has inserted the new node, and list_push appends the node once
more.  Where an area of the list begins above the new one, the links end up in a circle.

* `Endless`           the forward links never end;
* `SortedAreas.endless`, `vmInsertFrom_hangs`   such a list comes out, and no area can be added to it;
* `AreaInserted`      what vm_add_area is for;
* `vm_add_area_sorted`   it does that exactly where no area begins above the new one.
-/

namespace FakeKernel
open Heap Mm

variable {h h' h₂ : Heap} {L L' : Lists} {r : ListRef} {ns ms l : List Nat} {n a node fuel : Nat} {P : Nat → Prop} {err : Int}

/-! ## lists without an end -/

/-- the nodes in `P` lead to each other, and the list begins with one of them -/
structure Lists.Endless (L : Lists) (P : Nat → Prop) (r : ListRef) : Prop where
  first : P (L.list r).first
  ne_zero : ∀ n, P n → n ≠ 0
  next : ∀ n, P n → P (L.node n).next

theorem Lists.Endless.not_chain (he : L.Endless P r) :
    ¬ Chain (fun n => (L.node n).next) 0 (L.list r).first l :=
  Chain.endless (fun x hx => ⟨he.ne_zero x hx, he.next x hx⟩) he.first

/-- the nodes in `P` lead to each other, up to the last node of the list -/
structure Lists.Knotted (L : Lists) (P : Nat → Prop) (r : ListRef) : Prop where
  closed : L.Closed P r
  first : (L.list r).first ≠ 0
  next : ∀ n, P n → n ≠ (L.list r).last → (L.node n).next ≠ 0

theorem Lists.Knotted.endless (hk : L.Knotted P r) (hP : ∀ n, P n → n ≠ 0) (hn : P n) :
    (L.listPush r n).Endless P r where
  first := by
    rw [Lists.list_listPush, if_pos rfl]
    simp only [hk.first, if_false]
    exact hk.closed.first.resolve_left hk.first
  ne_zero := hP
  next := by
    intro m hm
    rw [Lists.next_listPush]
    by_cases hlast : m = (L.list r).last
    · rw [if_pos ⟨hlast, hP m hm⟩]
      exact hn
    · rw [if_neg fun e => hlast e.1]
      exact (hk.closed.next m hm).resolve_left (hk.next m hm hlast)

/-- the new node lies before a node of the list -/
theorem Lists.Closed.knot {pos : Nat} (hc : L.Closed P r) (hn : P n) (h0 : n ≠ 0) (hpos : P pos) (hpos0 : pos ≠ 0)
    (hne : n ≠ pos) (hfirst : (L.list r).first ≠ 0)
    (hnext : ∀ m, P m → m ≠ n → m ≠ (L.list r).last → (L.node m).next ≠ 0) :
    (L.listInsertBefore r n pos).Knotted P r where
  closed := hc.insertBefore hn h0 hpos hpos0 hne
  first := by
    rw [Lists.list_listInsertBefore, if_pos rfl]
    simp only
    split
    · exact h0
    · exact hfirst
  next := by
    intro m hm hlast
    rw [Lists.list_listInsertBefore, if_pos rfl] at hlast
    rw [Lists.next_listInsertBefore h0 hne]
    split
    · exact h0
    · split
      · exact hpos0
      · rename_i hmn
        exact hnext m hm hmn hlast

/-- an area that begins above the new one is not the new one -/
theorem ne_of_above (hvalue : (h.lists.node n).value = a) (hlt : (h.area a).va < (h.area (h.node node).value).va) :
    n ≠ node := by
  intro e
  subst e
  have hv : (h.node n).value = a := hvalue
  rw [hv] at hlt
  exact absurd hlt (Nat.lt_irrefl _)

/-- the loop leaves a knot as it is -/
theorem vmInsertFrom_knotted (hk : h.lists.Knotted P r) (hn : P n) (h0 : n ≠ 0)
    (hvalue : (h.lists.node n).value = a) (hnode : node = 0 ∨ P node)
    (hrun : vmInsertFrom r a n fuel node h = .ok h') : h'.lists.Knotted P r := by
  induction fuel generalizing node h with
  | zero => exact nomatch hrun
  | succ fuel ih =>
    unfold vmInsertFrom at hrun
    by_cases hz : node = 0
    · simp only [hz, if_true] at hrun
      cases hrun
      exact hk
    · simp only [hz, if_false] at hrun
      have hP : P node := hnode.resolve_left hz
      by_cases hlt : (h.area a).va < (h.area (h.node node).value).va
      · simp only [hlt, if_true] at hrun
        have hne : n ≠ node := ne_of_above hvalue hlt
        have hk₁ := hk.closed.knot hn h0 hP hz hne hk.first fun m hm _ => hk.next m hm
        have hv := (hk.closed.insertBefore_frame hn h0 hP hz hne).value n
        exact ih (h := { h with lists := h.lists.listInsertBefore r n node }) hk₁ (hv.trans hvalue)
          (hk₁.closed.next node hP) hrun
      · simp only [hlt, if_false] at hrun
        exact ih hk hvalue (hk.closed.next node hP) hrun

/-- where an area lies above the new one, the loop makes a knot -/
theorem vmInsertFrom_above (hc : h.lists.Closed P r) (hn : P n) (h0 : n ≠ 0) (hvalue : (h.lists.node n).value = a)
    (hfirst : (h.lists.list r).first ≠ 0)
    (hnext : ∀ m, P m → m ≠ n → m ≠ (h.lists.list r).last → (h.lists.node m).next ≠ 0)
    (hchain : Chain (fun k => (h.node k).next) 0 node ms) (hms : ∀ m ∈ ms, P m)
    (habove : ∃ m ∈ ms, (h.area a).va < (h.areaOf m).va)
    (hrun : vmInsertFrom r a n fuel node h = .ok h') : h'.lists.Knotted P r := by
  induction ms generalizing node fuel with
  | nil =>
    obtain ⟨_, hm, _⟩ := habove
    exact nomatch hm
  | cons m ms ih =>
    obtain ⟨rfl, hz, hchain⟩ := hchain
    cases fuel with
    | zero => exact nomatch hrun
    | succ fuel =>
      unfold vmInsertFrom at hrun
      simp only [hz, if_false] at hrun
      have hP : P node := hms node List.mem_cons_self
      by_cases hlt : (h.area a).va < (h.area (h.node node).value).va
      · simp only [hlt, if_true] at hrun
        have hne : n ≠ node := ne_of_above hvalue hlt
        have hk := hc.knot hn h0 hP hz hne hfirst hnext
        have hv := (hc.insertBefore_frame hn h0 hP hz hne).value n
        exact vmInsertFrom_knotted (h := { h with lists := h.lists.listInsertBefore r n node }) hk hn h0
          (hv.trans hvalue) (hk.closed.next node hP) hrun
      · simp only [hlt, if_false] at hrun
        obtain ⟨k, hk, hva⟩ := habove
        cases List.mem_cons.mp hk with
        | inl he => exact absurd (he ▸ hva) hlt
        | inr hk =>
          exact ih hchain (fun m hm => hms m (List.mem_cons_of_mem _ hm)) ⟨k, hk, hva⟩ hrun

/-- on a list without an end the loop does not return -/
theorem vmInsertFrom_hangs {S : Nat → Prop} (hS : ∀ m, S m → m ≠ 0 ∧ S (h.node m).next) (hnode : S node) (h0 : n ≠ 0)
    (hvalue : (h.lists.node n).value = a) : vmInsertFrom r a n fuel node h ≠ .ok h' := by
  intro hrun
  induction fuel generalizing node h S with
  | zero => exact nomatch hrun
  | succ fuel ih =>
    have hz := (hS node hnode).1
    unfold vmInsertFrom at hrun
    simp only [hz, if_false] at hrun
    by_cases hlt : (h.area a).va < (h.area (h.node node).value).va
    · simp only [hlt, if_true] at hrun
      have hne : n ≠ node := ne_of_above hvalue hlt
      have hnext : ∀ m, S m ∨ m = n → m ≠ 0 ∧ (S ((h.lists.listInsertBefore r n node).node m).next ∨
          ((h.lists.listInsertBefore r n node).node m).next = n) := by
        intro m hm
        rw [Lists.next_listInsertBefore h0 hne]
        refine ⟨hm.elim (fun hm => (hS m hm).1) fun e => e ▸ h0, ?_⟩
        split
        · exact .inr rfl
        · split
          · exact .inl hnode
          · rename_i hmn
            exact .inl (hS m (hm.resolve_right hmn)).2
      exact ih (h := { h with lists := h.lists.listInsertBefore r n node }) (S := fun m => S m ∨ m = n) hnext
        (hnext node (.inl hnode)).2 (Lists.value_listInsertBefore.trans hvalue) hrun
    · simp only [hlt, if_false] at hrun
      exact ih hS (hS node hnode).2 hvalue hrun

/-! ## vm_add_area -/

theorem vmAreaIncref_pos (hrun : h.vmAreaIncref a = .ok h') : 0 < ((h.area a).refcount + 1) % refcountMod := by
  unfold Heap.vmAreaIncref at hrun
  obtain ⟨_, _, hrun⟩ := Res.bind_eq_ok.mp hrun
  obtain ⟨_, hassert, _⟩ := Res.bind_eq_ok.mp hrun
  have hpos := of_decide_eq_true (kassert_eq_ok.mp hassert)
  have hset : ∀ v, (h.setArea a v).area a = v := fun v => Function.update_self _ _ _
  rw [hset] at hpos
  exact hpos

/-- the heap in which the loop of vm_add_area starts -/
def Heap.withNode (h : Heap) (mm : Mm) (n a : Nat) : Heap :=
  { h with
    mm := mm
    lists := h.lists.setNode n (h.newNode n a)
    area := Function.update h.area a { h.area a with refcount := (h.area a).refcount + 1 }
    blocks := n :: h.blocks }

theorem vmAddArea_spec (hok : h.mm.Ok) (href : (h.area a).refcount < refcountMod)
    (hrun : h.vmAddArea r a = .ok (err, h')) : err = 0 ∧ ∃ mm n L, 4 ≤ n ∧ Extends h.mm mm ∅ [n - 4] ∧
      vmInsertFrom r a n wordCount (h.lists.list r).first (h.withNode mm n a) =
        .ok { h.withNode mm n a with lists := L } ∧
      h' = { h.withNode mm n a with lists := L.listPush r n } := by
  unfold Heap.vmAddArea at hrun
  obtain ⟨⟨n, h₁⟩, hk, hrun⟩ := Res.bind_eq_ok.mp hrun
  obtain ⟨mm, rfl, h4, hx, _⟩ := listNodeCreate_spec hok hk
  have hn : n ≠ 0 := by omega
  simp only [hn, if_false] at hrun
  obtain ⟨h₂, hinc, hrun⟩ := Res.bind_eq_ok.mp hrun
  have hpos := vmAreaIncref_pos hinc
  have hpos : 0 < ((h.area a).refcount + 1) % refcountMod := hpos
  have hmod : ((h.area a).refcount + 1) % refcountMod = (h.area a).refcount + 1 := by
    refine Nat.mod_eq_of_lt (Nat.lt_of_le_of_ne href fun e => ?_)
    have e : (h.area a).refcount + 1 = refcountMod := e
    rw [e, Nat.mod_self] at hpos
    exact absurd hpos (Nat.lt_irrefl 0)
  have hh₂ : h₂ = h.withNode mm n a := by
    rw [vmAreaIncref_spec hinc]
    show Heap.setArea a { h.area a with refcount := ((h.area a).refcount + 1) % refcountMod } _ = _
    rw [hmod]
    rfl
  obtain ⟨h₃, hins, hret⟩ := Res.bind_eq_ok.mp hrun
  rw [hh₂] at hins
  obtain ⟨L, rfl⟩ := vmInsertFrom_rest hins
  cases hret
  exact ⟨rfl, mm, n, L, h4, hx, hins, rfl⟩

/-- a list of areas in the order of their addresses; its nodes are allocated -/
structure SortedAreas (h : Heap) (r : ListRef) (ns : List Nat) : Prop where
  ok : h.mm.Ok
  linked : h.lists.Mirrored r ns
  kept : ∀ n ∈ ns, h.mm.KeptPage (n - 4)
  sorted : ns.Pairwise fun n m => (h.areaOf n).va ≤ (h.areaOf m).va

/-- the area at `a` was added to a list between `l₁` and `l₂`, as the node `n` -/
structure AreaInserted (h h' : Heap) (r : ListRef) (a : Nat) (l₁ : List Nat) (n : Nat) (l₂ : List Nat) : Prop where
  linked : h'.lists.Mirrored r (l₁ ++ n :: l₂)
  sorted : (l₁ ++ n :: l₂).Pairwise fun n m => (h'.areaOf n).va ≤ (h'.areaOf m).va
  new : (h'.node n).value = a ∧ n ∉ l₁ ++ l₂
  old : ∀ m ∈ l₁ ++ l₂, (h'.node m).value = (h.node m).value
  area : h'.area = Function.update h.area a { h.area a with refcount := (h.area a).refcount + 1 }

namespace SortedAreas
variable {mm : Mm}

theorem not_mem (hs : SortedAreas h r ns) (hx : Extends h.mm mm ∅ [n - 4]) : n ∉ ns := fun hn =>
  hx.not_new (hs.kept n hn) (List.mem_singleton_self _)

theorem node_of_mem (hs : SortedAreas h r ns) (hx : Extends h.mm mm ∅ [n - 4]) {m : Nat} (hm : m ∈ ns) :
    (h.withNode mm n a).lists.node m = h.lists.node m := by
  have hmn : m ≠ n := fun e => hs.not_mem hx (e ▸ hm)
  show (h.lists.setNode n _).node m = _
  rw [Lists.node_setNode, if_neg hmn]

theorem node_new : (h.withNode mm n a).lists.node n = h.newNode n a := by
  show (h.lists.setNode n _).node n = _
  rw [Lists.node_setNode, if_pos rfl]

/-- the new node is not linked yet -/
theorem withNode (hs : SortedAreas h r ns) (hx : Extends h.mm mm ∅ [n - 4]) :
    (h.withNode mm n a).lists.Mirrored r ns where
  queue := hs.linked.queue.congr rfl fun m hm => by
    rw [hs.node_of_mem hx hm]
    exact ⟨rfl, rfl⟩
  prev := hs.linked.prev.congr fun m hm => by
    rw [hs.node_of_mem hx (List.mem_reverse.mp hm)]

theorem va_eq (x : Nat) : ((h.withNode mm n a).area x).va = (h.area x).va := by
  show (Function.update h.area a _ x).va = _
  by_cases he : x = a
  · rw [he, Function.update_self]
  · rw [Function.update_of_ne he]

theorem areaOf_va (hs : SortedAreas h r ns) (hx : Extends h.mm mm ∅ [n - 4]) {m : Nat} (hm : m ∈ ns) :
    ((h.withNode mm n a).areaOf m).va = (h.areaOf m).va := by
  unfold Heap.areaOf Heap.node
  rw [hs.node_of_mem hx hm, va_eq]

/-- no area begins above the new one: it becomes the last -/
theorem inserted (hs : SortedAreas h r ns) (href : (h.area a).refcount < refcountMod)
    (hlow : ∀ m ∈ ns, (h.areaOf m).va ≤ (h.area a).va) (hrun : h.vmAddArea r a = .ok (err, h')) :
    ∃ n, AreaInserted h h' r a ns n [] := by
  obtain ⟨_, mm, n, L, h4, hx, hins, rfl⟩ := vmAddArea_spec hs.ok href hrun
  have hlinked := hs.withNode (a := a) hx
  have hsame := vmInsertFrom_last hlinked.queue.chain (fun m hm => by
    show ((h.withNode mm n a).areaOf m).va ≤ _
    rw [hs.areaOf_va hx hm, va_eq]
    exact hlow m hm) hins
  have hL : L = (h.withNode mm n a).lists := congrArg Heap.lists hsame
  subst hL
  have hn0 : n ≠ 0 := by omega
  have hnext : ((h.withNode mm n a).lists.node n).next = 0 := by
    rw [node_new]
    rfl
  have hvalue : ∀ m, (((h.withNode mm n a).lists.listPush r n).node m).value =
      ((h.withNode mm n a).lists.node m).value := fun _ => Lists.value_listPush
  have hnew : (((h.withNode mm n a).lists.listPush r n).node n).value = a := by
    rw [hvalue, node_new]
    rfl
  have hold : ∀ m ∈ ns, (((h.withNode mm n a).lists.listPush r n).node m).value = (h.node m).value := by
    intro m hm
    rw [hvalue, hs.node_of_mem hx hm]
    rfl
  refine ⟨n, hlinked.push hn0 (hs.not_mem hx) hnext, ?_, ⟨hnew, ?_⟩, ?_, rfl⟩
  · refine List.pairwise_append.mpr ⟨?_, List.pairwise_singleton _ _, fun m hm k hk => ?_⟩
    · refine hs.sorted.imp_of_mem fun {m k} hm hk hle => ?_
      show ((h.withNode mm n a).area _).va ≤ ((h.withNode mm n a).area _).va
      unfold Heap.node
      rw [hold m hm, hold k hk, va_eq, va_eq]
      exact hle
    · rw [List.mem_singleton.mp hk]
      show ((h.withNode mm n a).area _).va ≤ ((h.withNode mm n a).area _).va
      unfold Heap.node
      rw [hold m hm, hnew, va_eq, va_eq]
      exact hlow m hm
  · rw [List.append_nil]
    exact hs.not_mem hx
  · rw [List.append_nil]
    exact hold

/-- an area begins above the new one: the list has no end any more -/
theorem endless (hs : SortedAreas h r ns) (href : (h.area a).refcount < refcountMod)
    (habove : ∃ m ∈ ns, (h.area a).va < (h.areaOf m).va) (hrun : h.vmAddArea r a = .ok (err, h')) :
    ∃ n, h'.lists.Endless (fun m => m = n ∨ m ∈ ns) r := by
  obtain ⟨_, mm, n, L, h4, hx, hins, rfl⟩ := vmAddArea_spec hs.ok href hrun
  have hlinked := hs.withNode (a := a) hx
  have hn0 : n ≠ 0 := by omega
  have hin := hlinked.closed
  obtain ⟨k, hk, hva⟩ := habove
  have hfirst : ((h.withNode mm n a).lists.list r).first ≠ 0 := by
    intro h0
    have hc := hlinked.queue.chain
    rw [h0] at hc
    rw [hc.of_null] at hk
    exact nomatch hk
  have hnode : (h.withNode mm n a).lists.node n = h.newNode n a := node_new
  have hclosed : (h.withNode mm n a).lists.Closed (fun m => m = n ∨ m ∈ ns) r := by
    refine ⟨hin.first.imp_right .inr, hin.last.imp_right .inr, fun m hm => ?_, fun m hm => ?_⟩
    · cases hm with
      | inl he =>
        rw [he, hnode]
        exact .inl rfl
      | inr hm => exact (hin.next m hm).imp_right .inr
    · cases hm with
      | inl he =>
        rw [he, hnode]
        exact .inl rfl
      | inr hm => exact (hin.prev m hm).imp_right .inr
  have hnext : ∀ m, m = n ∨ m ∈ ns → m ≠ n → m ≠ ((h.withNode mm n a).lists.list r).last →
      ((h.withNode mm n a).lists.node m).next ≠ 0 := by
    intro m hm hmn hlast
    cases hlinked.queue.chain.next_mem (hm.resolve_left hmn) with
    | inl hmem => exact hlinked.queue.chain.ne_null hmem
    | inr hend =>
      have hl := hlinked.queue.last
      rw [hend.2] at hl
      exact absurd hl.symm hlast
  have hknot := vmInsertFrom_above hclosed (.inl rfl) hn0 (by rw [hnode]; rfl) hfirst hnext hlinked.queue.chain
    (fun m hm => .inr hm) ⟨k, hk, by rw [hs.areaOf_va hx hk, va_eq]; exact hva⟩ hins
  refine ⟨n, hknot.endless (fun m hm => ?_) (.inl rfl)⟩
  cases hm with
  | inl he => exact he ▸ hn0
  | inr hm => exact hs.linked.queue.chain.ne_null hm

end SortedAreas

/-- **Adding an area.**  When vm_add_area returns, the list is the old one with the new area at its place
exactly if no area of the list begins above the new one. -/
theorem vm_add_area_sorted (hs : SortedAreas h r ns) (href : (h.area a).refcount < refcountMod)
    (hrun : h.vmAddArea r a = .ok (0, h')) :
    (∃ l₁ n l₂, ns = l₁ ++ l₂ ∧ AreaInserted h h' r a l₁ n l₂) ↔ ∀ m ∈ ns, (h.areaOf m).va ≤ (h.area a).va := by
  constructor
  · intro ⟨l₁, n, l₂, _, hi⟩ m hm
    by_contra hlt
    obtain ⟨_, he⟩ := hs.endless href ⟨m, hm, Nat.lt_of_not_le hlt⟩ hrun
    exact he.not_chain hi.linked.queue.chain
  · intro hlow
    obtain ⟨n, hi⟩ := hs.inserted href hlow hrun
    exact ⟨ns, n, [], (List.append_nil ns).symm, hi⟩

/-! ## an area below the one that is there -/

/-- on a list of one area the loop returns -/
theorem vmInsertFrom_single (h0 : node ≠ 0) (hne : n ≠ node) (hn : n ≠ 0) (hnext : (h.node node).next = 0)
    (hprev : (h.node node).prev = 0) : ∃ h', vmInsertFrom r a n (fuel + 2) node h = .ok h' := by
  have hkeep : ((h.lists.listInsertBefore r n node).node node).next = 0 := by
    have hprev : (h.lists.node node).prev = 0 := hprev
    have hnot : ¬ (node = (h.lists.node node).prev ∧ node ≠ 0) := by
      rw [hprev]
      exact fun e => h0 e.1
    rw [Lists.next_listInsertBefore hn hne, if_neg hnot, if_neg hne.symm]
    exact hnext
  unfold vmInsertFrom
  simp only [h0, if_false]
  unfold vmInsertFrom
  by_cases hlt : (h.area a).va < (h.area (h.node node).value).va
  · simp only [hlt, if_true]
    exact ⟨_, if_pos hkeep⟩
  · simp only [hlt, if_false]
    exact ⟨_, if_pos hnext⟩

/-- an area at 0x2000 in the list of areas, and one at 0x1000 that is in no list -/
def lowerHeap : Heap where
  mm := Mm.init fun _ => 0
  lists := { node := fun _ => { value := 16, list := some (.vmAreas 0), prev := 0, next := 0 }
             list := fun _ => { first := 8, last := 8 } }
  area := fun a => if a = 16 then { va := 0x2000, nPages := 1, refcount := 1, flags := vmRead }
    else { va := 0x1000, nPages := 1, refcount := 0, flags := vmRead }
  task := fun _ => { pid := 1, parent := 0, sched := 0, kernelStack := 0, pageTable := 0, mode := .supervisor,
                     kernelFrame := .taskEntry, userFrame := { registers := fun _ => 0, pc := 0 } }
  nextTaskId := 2
  live := []
  blocks := []

theorem lowerHeap_room : lowerHeap.mm.Room 1 := ⟨Mm.init_ok _, nofun, by decide⟩

theorem lowerHeap_kept : lowerHeap.mm.KeptPage (8 - 4) := by
  refine fun x hx => .inl fun hu => ?_
  have hlow : kernPhyBase + 2 ^ 20 ≤ x := hu.1
  have hhigh : x < 8 - 4 + pageSize := hx.2
  exact absurd (Nat.lt_of_le_of_lt hlow hhigh) (by decide)

theorem lowerHeap_sorted : SortedAreas lowerHeap (.vmAreas 0) [8] where
  ok := lowerHeap_room.ok
  linked := ⟨⟨⟨rfl, by decide, rfl⟩, rfl, by decide⟩, ⟨rfl, by decide, rfl⟩⟩
  kept := fun n hn => List.mem_singleton.mp hn ▸ lowerHeap_kept
  sorted := List.pairwise_singleton _ _

theorem lowerHeap_runs : ∃ h', lowerHeap.vmAddArea (.vmAreas 0) 32 = .ok (0, h') := by
  obtain ⟨n, h₁, hnode⟩ := listNodeCreate_room lowerHeap_room.free 32
  obtain ⟨mm, rfl, h4, hx, _⟩ := listNodeCreate_spec lowerHeap_room.ok hnode
  have hn : n ≠ 0 := by omega
  have h8 : n ≠ 8 := by
    intro e
    have hmem : 8 ∉ [8] := lowerHeap_sorted.not_mem (e ▸ hx)
    exact hmem (List.mem_singleton_self 8)
  obtain ⟨h₁, hh₁⟩ : ∃ h₁ : Heap, h₁ = { lowerHeap with
      mm := mm
      lists := lowerHeap.lists.setNode n (lowerHeap.newNode n 32)
      blocks := n :: lowerHeap.blocks } := ⟨_, rfl⟩
  rw [← hh₁] at hnode
  have harea : h₁.area = lowerHeap.area := by rw [hh₁]
  have hnode8 : h₁.node 8 = lowerHeap.node 8 := by
    rw [hh₁]
    show (lowerHeap.lists.setNode n _).node 8 = lowerHeap.lists.node 8
    rw [Lists.node_setNode, if_neg (Ne.symm h8)]
  have hfirst : (h₁.lists.list (.vmAreas 0)).first = 8 := by
    rw [hh₁]
    rfl
  unfold Heap.vmAddArea
  simp only [hnode, Res.ok_bind, hn, if_false]
  rw [vmAreaIncref_ok (by rw [harea]; decide) (by rw [harea]; decide), Res.ok_bind]
  obtain ⟨h₂, hins⟩ : ∃ h₂, vmInsertFrom (.vmAreas 0) 32 n wordCount 8 (h₁.setArea 32 { h₁.area 32 with
      refcount := ((h₁.area 32).refcount + 1) % refcountMod }) = .ok h₂ :=
    vmInsertFrom_single (by decide) h8 hn (congrArg ListNode.next hnode8) (congrArg ListNode.prev hnode8)
  have hstart : ((h₁.setArea 32 { h₁.area 32 with
      refcount := ((h₁.area 32).refcount + 1) % refcountMod }).lists.list (.vmAreas 0)).first = 8 := hfirst
  rw [hstart, hins, Res.ok_bind]
  exact ⟨_, rfl⟩

/-- the new area is not put in front of the other one -/
theorem add_area_makes_circle : ∃ h', SortedAreas lowerHeap (.vmAreas 0) [8] ∧ (lowerHeap.area 32).refcount < refcountMod ∧
    lowerHeap.vmAddArea (.vmAreas 0) 32 = .ok (0, h') ∧
    ¬ ∃ l₁ n l₂, [8] = l₁ ++ l₂ ∧ AreaInserted lowerHeap h' (.vmAreas 0) 32 l₁ n l₂ := by
  obtain ⟨h', hrun⟩ := lowerHeap_runs
  refine ⟨h', lowerHeap_sorted, by decide, hrun, fun ⟨l₁, n, l₂, _, hi⟩ => ?_⟩
  obtain ⟨_, he⟩ := lowerHeap_sorted.endless (by decide) ⟨8, List.mem_singleton_self 8, by decide⟩ hrun
  exact he.not_chain hi.linked.queue.chain

theorem vm_add_area_sorted_lower : ∃ h', (∃ l₁ n l₂, [8] = l₁ ++ l₂ ∧
    AreaInserted lowerHeap h' (.vmAreas 0) 32 l₁ n l₂) ↔ ∀ m ∈ [8], (lowerHeap.areaOf m).va ≤ (lowerHeap.area 32).va := by
  obtain ⟨h', hrun⟩ := lowerHeap_runs
  exact ⟨h', vm_add_area_sorted lowerHeap_sorted (by decide) hrun⟩

end FakeKernel
