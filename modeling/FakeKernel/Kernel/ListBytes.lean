import FakeKernel.Mm.Release
import FakeKernel.Kernel.Vm

/-!
# Lists and areas in the memory of the allocator (kernel/list.h, kernel/vm.c)

The functions that free a list, with their nodes and areas where they are: in blocks of the allocator,
which writes its links to them when they are freed.  The functions return the calls of kfree and
free_pages that they make.

* `listDestroy`, `vmAreaDestroy`, `vmDecrefAll`   the functions, in bytes;
* `Trimmed`                what freeing leaves of the bytes, also of those that were freed;
* `listDestroyFrom_makes`, `freePagesFrom_makes`, `vmDecrefFrom_makes`   the calls of each loop, in the order of its list;
* `listDestroyFrom_heap`   the records of the heap, which outlive their blocks, give the same run;
* `teardown_frees`         all of them.
-/

namespace FakeKernel
open Bytes Mm

/-- a call that frees a block -/
inductive FreeCall
  | kfree (buf : Nat)
  | page (address : Nat)
deriving DecidableEq, Repr

/-! ## struct list_node, struct list, struct vm_area -/

namespace InBytes

/-- `node->value` -/
def nodeValue (m : Mem) (node : Nat) : Nat := load 8 m node

/-- `node->next` -/
def nodeNext (m : Mem) (node : Nat) : Nat := load 8 m (node + 24)

/-- `list->first` -/
def first (m : Mem) (list : Nat) : Nat := load 8 m list

/-- `&area->pages` -/
def pages (area : Nat) : Nat := area + 24

/-- `area->va` -/
def areaVa (m : Mem) (area : Nat) : Nat := load 8 m area

/-- `area->refcount` -/
def refcount (m : Mem) (area : Nat) : Nat := load 4 m (area + 16)

/-- the loop of list_destroy -/
def listDestroyFrom : Nat → Nat → Mm → Res (List FreeCall × Mm)
  | 0, _, _ => .error .hang
  | n + 1, node, a =>
    if node = 0 then .ok ([], a)
    else do
      let a ← a.kfree node
      let (calls, a) ← listDestroyFrom n (nodeNext a.mem node) a
      .ok (.kfree node :: calls, a)

/-- `list->first = list->last = NULL` -/
def clearList (list : Nat) (a : Mm) : Mm := a.setMem (store 8 (store 8 a.mem (list + 8) 0) list 0)

def listDestroy (list : Nat) (a : Mm) : Res (List FreeCall × Mm) := do
  let (calls, a) ← listDestroyFrom wordCount (first a.mem list) a
  .ok (calls, clearList list a)

/-- the list_foreach of vm_area_destroy -/
def freePagesFrom : Nat → Nat → Mm → Res (List FreeCall × Mm)
  | 0, _, _ => .error .hang
  | n + 1, node, a =>
    if node = 0 then .ok ([], a)
    else do
      let page := nodeValue a.mem node
      let a ← a.freePages { address := page, order := 0 }
      let (calls, a) ← freePagesFrom n (nodeNext a.mem node) a
      .ok (.page page :: calls, a)

def vmAreaDestroy (area : Nat) (a : Mm) : Res (List FreeCall × Mm) := do
  let (calls, a) ← freePagesFrom wordCount (first a.mem (pages area)) a
  let (calls', a) ← listDestroy (pages area) a
  let a ← a.kfree area
  .ok (calls ++ calls' ++ [.kfree area], a)

def vmAreaDecref (area : Nat) (a : Mm) : Res (List FreeCall × Mm) :=
  if areaVa a.mem area % pageSize ≠ 0 then panic "misaligned va"
  else
    let a := a.setMem (store 4 a.mem (area + 16) ((refcount a.mem area + Heap.refcountMod - 1) % Heap.refcountMod))
    if refcount a.mem area = 0 then vmAreaDestroy area a else .ok ([], a)

/-- the list_foreach of vm_decref_all -/
def vmDecrefFrom : Nat → Nat → Mm → Res (List FreeCall × Mm)
  | 0, _, _ => .error .hang
  | n + 1, node, a =>
    if node = 0 then .ok ([], a)
    else do
      let (calls, a) ← vmAreaDecref (nodeValue a.mem node) a
      let (calls', a) ← vmDecrefFrom n (nodeNext a.mem node) a
      .ok (calls ++ calls', a)

def vmDecrefAll (list : Nat) (a : Mm) : Res (List FreeCall × Mm) := do
  let (calls, a) ← vmDecrefFrom wordCount (first a.mem list) a
  let (calls', a) ← listDestroy list a
  .ok (calls ++ calls', a)

end InBytes

/-- the page that a call gives back -/
def FreeCall.freed : FreeCall → Nat
  | .kfree buf => buf - 4
  | .page address => address

variable {a a' a'' : Mm} {X Y : Set Nat} {D E ns : List Nat} {s x y n list node area : Nat}

/-! ## what freeing leaves of the bytes -/

/-- the pages in `D` were given back; the bytes outside `X` are what they were where they are kept, and wherever the
allocator has no links -/
structure Trimmed (a a' : Mm) (X : Set Nat) (D : List Nat) : Prop where
  ok : a'.Ok
  out : a.out.Perm (D.map pageAt ++ a'.out)
  frame : ∀ x, x ∉ X → a'.Kept x → a'.mem x = a.mem x
  links : ∀ x, x ∉ X → 8 ≤ x % pageSize → a'.mem x = a.mem x

namespace Trimmed

theorem mem_page (ht : Trimmed a a' X D) (hok : a.Ok) : pageAt s ∈ a'.out ↔ pageAt s ∈ a.out ∧ s ∉ D :=
  hok.mem_page ht.out

theorem kept (ht : Trimmed a a' X D) (hx : a.Kept x) (hD : ∀ s ∈ D, ¬ onPage s x) : a'.Kept x := by
  cases hx with
  | inl hout => exact .inl hout
  | inr hin =>
    obtain ⟨q, hq, hxq⟩ := hin
    rw [ht.out.mem_iff, List.mem_append, List.mem_map] at hq
    cases hq with
    | inl hq =>
      obtain ⟨s, hs, rfl⟩ := hq
      exact absurd (mem_pageAt.mp hxq) (hD s hs)
    | inr hq => exact .inr ⟨q, hq, hxq⟩

theorem refl (hok : a.Ok) : Trimmed a a X [] := ⟨hok, .refl _, fun _ _ _ => rfl, fun _ _ _ => rfl⟩

theorem mono (ht : Trimmed a a' X D) (hX : X ⊆ Y) : Trimmed a a' Y D :=
  ⟨ht.ok, ht.out, fun x hx => ht.frame x fun h => hx (hX h), fun x hx => ht.links x fun h => hx (hX h)⟩

theorem trans (ht : Trimmed a a' X D) (ht' : Trimmed a' a'' X E) : Trimmed a a'' X (D ++ E) where
  ok := ht'.ok
  out := by
    rw [List.map_append, List.append_assoc]
    exact ht.out.trans (.append_left _ ht'.out)
  frame := fun x hx hk => (ht'.frame x hx hk).trans (ht.frame x hx (hk.of_perm ht'.out))
  links := fun x hx h8 => (ht'.links x hx h8).trans (ht.links x hx h8)

/-- the bytes in `X` are written -/
theorem write {m : Mem} (hok : a.Ok) (hX : ∀ x ∈ X, a.Kept x) (hm : ∀ x, x ∉ X → m x = a.mem x) :
    Trimmed a (a.setMem m) X [] :=
  ⟨hok.setMem fun x hx => hm x fun h => hx (hX x h), .refl _, fun x hx _ => hm x hx, fun x hx _ => hm x hx⟩

theorem free (hok : a.Ok) (hp : pageAt s ∈ a.out) : ∃ a', a.freePages (pageAt s) = .ok a' ∧ Trimmed a a' ∅ [s] := by
  obtain ⟨a', hrun, hf⟩ := hok.free hp
  refine ⟨a', hrun, hf.ok, ?_, fun x _ => hf.frame x, fun x _ => hok.free_links hp hrun⟩
  rw [hf.out]
  exact List.perm_cons_erase hp

/-- a load from a page that was not given back -/
theorem load_eq (ht : Trimmed a a' X D) (hok : a.Ok) (hp : pageAt s ∈ a.out) (hD : s ∉ D) (h1 : s ≤ y)
    (h2 : y + n ≤ s + pageSize) (hX : ∀ x, y ≤ x → x < y + n → x ∉ X) : load n a'.mem y = load n a.mem y := by
  have hkept : a'.KeptPage s := .of_mem ((ht.mem_page hok).mpr ⟨hp, hD⟩)
  exact load_congr fun x hx hx' => ht.frame x (hX x hx hx') (hkept x ⟨by omega, by omega⟩)

end Trimmed

/-! ## what kmalloc returned -/

namespace InBytes

/-- `x` is what kmalloc returned for a size below a page -/
structure Object (a : Mm) (x : Nat) : Prop where
  four : 4 ≤ x
  out : pageAt (x - 4) ∈ a.out
  order : load 4 a.mem (x - 4) = 0

theorem object_kmalloc {size : Nat} (hok : a.Ok) (hs : size ≤ 4092) (hrun : a.kmalloc size = .ok (x, a')) :
    a'.Ok ∧ Object a' x := by
  obtain ⟨hal, hord, h4⟩ := hok.kmalloc hs hrun
  exact ⟨hal.ok, h4, hal.mem, hord⟩

theorem Object.lt (h : Object a x) (hok : a.Ok) : x < wordCount := by
  have h4 := h.four
  have hin : x - 4 ∈ usable := hok.usable h.out (Tiling.base_mem _)
  have hlt : x - 4 < kernPhyBase + 2 ^ 22 := hin.2
  have hbound : kernPhyBase + 2 ^ 22 + 4 < wordCount := by decide
  omega

theorem Object.page (h : Object a x) (hok : a.Ok) : pageSize ∣ x - 4 := hok.page h.out

theorem Object.kfree (h : Object a x) (hok : a.Ok) : ∃ a', a.kfree x = .ok a' ∧ Trimmed a a' ∅ [x - 4] := by
  obtain ⟨a', hrun, ht⟩ := Trimmed.free hok h.out
  refine ⟨a', ?_, ht⟩
  show a.freePages { address := x - 4, order := load 4 a.mem (x - 4) } = .ok a'
  rw [h.order]
  exact hrun

theorem Object.trimmed (h : Object a x) (hok : a.Ok) (ht : Trimmed a a' X D) (hD : x - 4 ∉ D)
    (hX : ∀ y, x - 4 ≤ y → y < x → y ∉ X) : Object a' x := by
  have h4 := h.four
  refine ⟨h4, (ht.mem_page hok).mpr ⟨h.out, hD⟩, ?_⟩
  rw [ht.load_eq hok h.out hD (Nat.le_refl _) (by unfold pageSize; omega) fun y h1 h2 => hX y h1 (by omega)]
  exact h.order

/-- another object was given back -/
theorem Object.of_kfree {z : Nat} (h : Object a x) (hok : a.Ok) (h4 : 4 ≤ z) (ht : Trimmed a a' ∅ [z - 4]) (hne : x ≠ z) :
    Object a' x := by
  have h4' := h.four
  refine h.trimmed hok ht ?_ fun y _ _ => Set.notMem_empty y
  rw [List.mem_singleton]
  omega

/-- the next field is at an offset where the allocator has no links, so that it is there also when the node is not -/
theorem Object.nodeNext (h : Object a x) (hok : a.Ok) (ht : Trimmed a a' X D)
    (hX : ∀ y, x + 24 ≤ y → y < x + 32 → y ∉ X) : nodeNext a'.mem x = nodeNext a.mem x := by
  have h4 := h.four
  obtain ⟨c, hc⟩ := h.page hok
  have hx : x = 4096 * c + 4 := by
    unfold pageSize at hc
    omega
  refine load_congr fun y h1 h2 => ht.links y (hX y h1 h2) ?_
  unfold pageSize
  omega

theorem Object.nodeValue (h : Object a x) (hok : a.Ok) (ht : Trimmed a a' X D) (hD : x - 4 ∉ D)
    (hX : ∀ y, x ≤ y → y < x + 8 → y ∉ X) : nodeValue a'.mem x = nodeValue a.mem x :=
  ht.load_eq hok h.out hD (Nat.sub_le x 4) (by have := h.four; unfold pageSize; omega) hX

/-- the chain of a list of objects is read as before, also when some of them were given back -/
theorem chain_trimmed (hch : Chain (nodeNext a.mem) 0 node ns) (hok : a.Ok) (ht : Trimmed a a' X D)
    (hobj : ∀ n ∈ ns, Object a n) (hX : ∀ n ∈ ns, ∀ y, n + 24 ≤ y → y < n + 32 → y ∉ X) :
    Chain (nodeNext a'.mem) 0 node ns :=
  hch.congr fun n hn => (hobj n hn).nodeNext hok ht (hX n hn)

theorem length_lt (hch : Chain (nodeNext a.mem) 0 node ns) (hok : a.Ok) (hobj : ∀ n ∈ ns, Object a n) :
    ns.length < wordCount :=
  hch.length_lt (by decide) fun n hn => (hobj n hn).lt hok

/-! ## list_destroy -/

/-- a run makes these calls, in this order, and gives back their pages -/
def Makes (a : Mm) (run : Res (List FreeCall × Mm)) (X : Set Nat) (calls : List FreeCall) : Prop :=
  ∃ a', run = .ok (calls, a') ∧ Trimmed a a' X (calls.map FreeCall.freed)

theorem Makes.nil (hok : a.Ok) : Makes a (.ok ([], a)) X [] := ⟨a, rfl, .refl hok⟩

theorem Makes.mono {run : Res (List FreeCall × Mm)} {calls : List FreeCall} (h : Makes a run X calls) (hX : X ⊆ Y) :
    Makes a run Y calls := by
  obtain ⟨a', hrun, ht⟩ := h
  exact ⟨a', hrun, ht.mono hX⟩

/-- what comes after the first calls -/
theorem Makes.after {run : Res (List FreeCall × Mm)} (calls : List FreeCall) {calls' : List FreeCall}
    (ht : Trimmed a a' X (calls.map FreeCall.freed)) (h : Makes a' run X calls') :
    Makes a (run >>= fun r => .ok (calls ++ r.1, r.2)) X (calls ++ calls') := by
  obtain ⟨a'', hrun, ht'⟩ := h
  refine ⟨a'', ?_, ?_⟩
  · rw [hrun, Res.ok_bind]
  · rw [List.map_append]
    exact ht.trans ht'

theorem listDestroyFrom_makes (hok : a.Ok) (hch : Chain (nodeNext a.mem) 0 node ns) (hobj : ∀ n ∈ ns, Object a n)
    (hfuel : ns.length < n) : Makes a (listDestroyFrom n node a) ∅ (ns.map .kfree) := by
  induction ns generalizing a node n with
  | nil =>
    obtain ⟨n, rfl⟩ : ∃ k, n = k + 1 := ⟨n - 1, by omega⟩
    have hnull : node = 0 := hch
    show Makes a (if node = 0 then .ok ([], a) else _) ∅ []
    rw [if_pos hnull]
    exact .nil hok
  | cons m ns ih =>
    obtain ⟨n, rfl⟩ : ∃ k, n = k + 1 := ⟨n - 1, by omega⟩
    obtain ⟨hm, _⟩ := List.nodup_cons.mp hch.nodup
    obtain ⟨rfl, hne, htail⟩ := hch
    obtain ⟨hnode, hrest⟩ := List.forall_mem_cons.mp hobj
    obtain ⟨a₁, hrun, ht⟩ := hnode.kfree hok
    have hclear : ∀ y : Nat, y ∉ (∅ : Set Nat) := Set.notMem_empty
    have hnext : nodeNext a₁.mem node = nodeNext a.mem node := hnode.nodeNext hok ht fun y _ _ => hclear y
    have hchain : Chain (nodeNext a₁.mem) 0 (nodeNext a₁.mem node) ns := by
      rw [hnext]
      exact chain_trimmed htail hok ht hrest fun _ _ y _ _ => hclear y
    have hobj₁ : ∀ n ∈ ns, Object a₁ n := fun n hn =>
      (hrest n hn).of_kfree hok hnode.four ht fun e => hm (e ▸ hn)
    show Makes a (if node = 0 then _ else a.kfree node >>= fun a => _) ∅ _
    rw [if_neg hne, hrun, Res.ok_bind]
    exact .after [.kfree node] ht (ih ht.ok hchain hobj₁ (by simpa using hfuel))

/-- the heap, where the nodes outlive their blocks, frees a list as the bytes do: its records may be read after kfree -/
theorem listDestroyFrom_heap {h : Heap} (hok : h.mm.Ok) (hch : Chain (nodeNext h.mm.mem) 0 node ns)
    (hobj : ∀ n ∈ ns, Object h.mm n) (hnext : ∀ n ∈ ns, (h.node n).next = nodeNext h.mm.mem n) (hfuel : ns.length < n) :
    ∃ h' calls, Heap.listDestroyFrom n node h = .ok h' ∧ listDestroyFrom n node h.mm = .ok (calls, h'.mm) ∧
      h'.lists = h.lists := by
  induction ns generalizing h node n with
  | nil =>
    obtain ⟨n, rfl⟩ : ∃ k, n = k + 1 := ⟨n - 1, by omega⟩
    have hnull : node = 0 := hch
    rw [Heap.listDestroyFrom, listDestroyFrom, if_pos hnull, if_pos hnull]
    exact ⟨h, [], rfl, rfl, rfl⟩
  | cons m ns ih =>
    obtain ⟨n, rfl⟩ : ∃ k, n = k + 1 := ⟨n - 1, by omega⟩
    obtain ⟨hm, _⟩ := List.nodup_cons.mp hch.nodup
    obtain ⟨rfl, hne, htail⟩ := hch
    obtain ⟨hnode, hrest⟩ := List.forall_mem_cons.mp hobj
    obtain ⟨hnext₀, hnexts⟩ := List.forall_mem_cons.mp hnext
    obtain ⟨a₁, hrun, ht⟩ := hnode.kfree hok
    have hread : ∀ n, Object h.mm n → nodeNext a₁.mem n = nodeNext h.mm.mem n := fun n hn =>
      hn.nodeNext hok ht fun y _ _ => Set.notMem_empty y
    have hobj₁ : ∀ n ∈ ns, Object a₁ n := fun n hn =>
      (hrest n hn).of_kfree hok hnode.four ht fun e => hm (e ▸ hn)
    have hchain : Chain (nodeNext a₁.mem) 0 (nodeNext a₁.mem node) ns := by
      rw [hread node hnode]
      exact htail.congr fun n hn => hread n (hrest n hn)
    obtain ⟨h', calls, hrun', hrunb, hlists⟩ := ih (h := { h with mm := a₁, blocks := h.blocks.erase node }) ht.ok hchain
      hobj₁ (fun n hn => (hnexts n hn).trans (hread n (hrest n hn)).symm) (by simpa using hfuel)
    refine ⟨h', .kfree node :: calls, ?_, ?_, hlists⟩
    · rw [Heap.listDestroyFrom, if_neg hne, Heap.kfree, hrun, Res.ok_bind, Res.ok_bind]
      show Heap.listDestroyFrom n (h.node node).next _ = _
      rw [hnext₀, ← hread node hnode]
      exact hrun'
    · rw [listDestroyFrom, if_neg hne, hrun, Res.ok_bind, hrunb]
      rfl

/-- the head of a list: it is kept, and it is not on the pages `P` -/
def HeadAt (a : Mm) (list : Nat) (P : List Nat) : Prop :=
  ∀ x, list ≤ x → x < list + 16 → a.Kept x ∧ ∀ s ∈ P, ¬ onPage s x

theorem HeadAt.mono {P Q : List Nat} (h : HeadAt a list P) (hQ : Q ⊆ P) : HeadAt a list Q :=
  fun x h1 h2 => ⟨(h x h1 h2).1, fun s hs => (h x h1 h2).2 s (hQ hs)⟩

theorem HeadAt.trimmed {P : List Nat} (h : HeadAt a list (D ++ P)) (ht : Trimmed a a' X D) : HeadAt a' list P := by
  intro x h1 h2
  obtain ⟨hk, hP⟩ := h x h1 h2
  refine ⟨ht.kept hk fun s hs => hP s (List.mem_append_left P hs), fun s hs => hP s (List.mem_append_right D hs)⟩

theorem HeadAt.first {P : List Nat} (h : HeadAt a list (D ++ P)) (ht : Trimmed a a' X D)
    (hX : ∀ x, list ≤ x → x < list + 16 → x ∉ X) : first a'.mem list = first a.mem list :=
  load_congr fun x h1 h2 => ht.frame x (hX x h1 (by omega)) ((h.trimmed ht) x h1 (by omega)).1

/-- a list whose nodes are objects -/
structure ListAt (a : Mm) (list : Nat) (ns : List Nat) : Prop where
  chain : Chain (nodeNext a.mem) 0 (first a.mem list) ns
  nodes : ∀ n ∈ ns, Object a n
  head : HeadAt a list (ns.map (· - 4))

theorem listDestroy_makes (hok : a.Ok) (h : ListAt a list ns) :
    Makes a (listDestroy list a) (Set.Ico list (list + 16)) (ns.map .kfree) := by
  obtain ⟨a', hrun, ht⟩ := listDestroyFrom_makes hok h.chain h.nodes (length_lt h.chain hok h.nodes)
  have hfreed : (ns.map FreeCall.kfree).map FreeCall.freed = ns.map (· - 4) := by
    rw [List.map_map]
    rfl
  have hhead : HeadAt a' list [] := by
    refine HeadAt.trimmed ?_ ht
    rw [hfreed, List.append_nil]
    exact h.head
  refine ⟨clearList list a', ?_, ?_⟩
  · rw [listDestroy, hrun, Res.ok_bind]
  · have hw : Trimmed a' (clearList list a') (Set.Ico list (list + 16)) [] := by
      refine .write ht.ok (fun x hx => (hhead x hx.1 hx.2).1) fun x hx => ?_
      rw [store_apply_out (by by_contra hc; exact hx ⟨by omega, by omega⟩),
        store_apply_out (by by_contra hc; exact hx ⟨by omega, by omega⟩)]
    have := (ht.mono (Set.empty_subset _)).trans hw
    rwa [List.append_nil] at this

/-! ## vm_area_destroy -/

/-- the pages of the values of a list -/
def values (m : Mem) (ns : List Nat) : List Nat := ns.map (nodeValue m)

theorem freePagesFrom_makes (hok : a.Ok) (hch : Chain (nodeNext a.mem) 0 node ns) (hobj : ∀ n ∈ ns, Object a n)
    (hval : ∀ s ∈ values a.mem ns, pageAt s ∈ a.out) (hnd : (values a.mem ns ++ ns.map (· - 4)).Nodup)
    (hfuel : ns.length < n) : Makes a (freePagesFrom n node a) ∅ ((values a.mem ns).map .page) := by
  induction ns generalizing a node n with
  | nil =>
    obtain ⟨n, rfl⟩ : ∃ k, n = k + 1 := ⟨n - 1, by omega⟩
    have hnull : node = 0 := hch
    show Makes a (if node = 0 then .ok ([], a) else _) ∅ []
    rw [if_pos hnull]
    exact .nil hok
  | cons m ns ih =>
    obtain ⟨n, rfl⟩ : ∃ k, n = k + 1 := ⟨n - 1, by omega⟩
    obtain ⟨rfl, hne, htail⟩ := hch
    obtain ⟨hnode, hrest⟩ := List.forall_mem_cons.mp hobj
    obtain ⟨hpage, hvals⟩ := List.forall_mem_cons.mp hval
    have hcons : (nodeValue a.mem node :: (values a.mem ns ++ (node - 4) :: ns.map (· - 4))).Nodup := hnd
    obtain ⟨hv, hnd'⟩ := List.nodup_cons.mp hcons
    rw [List.mem_append, List.mem_cons, not_or, not_or] at hv
    obtain ⟨a₁, hrun, ht⟩ := Trimmed.free hok hpage
    have hclear : ∀ y : Nat, y ∉ (∅ : Set Nat) := Set.notMem_empty
    have hnext : nodeNext a₁.mem node = nodeNext a.mem node := hnode.nodeNext hok ht fun y _ _ => hclear y
    have hchain : Chain (nodeNext a₁.mem) 0 (nodeNext a₁.mem node) ns := by
      rw [hnext]
      exact chain_trimmed htail hok ht hrest fun _ _ y _ _ => hclear y
    have hleft : ∀ n ∈ ns, n - 4 ∉ [nodeValue a.mem node] := fun n hn => by
      rw [List.mem_singleton]
      exact fun e => hv.2.2 (e ▸ List.mem_map_of_mem hn)
    have hobj₁ : ∀ n ∈ ns, Object a₁ n := fun n hn =>
      (hrest n hn).trimmed hok ht (hleft n hn) fun y _ _ => hclear y
    have hvals₁ : values a₁.mem ns = values a.mem ns := List.map_congr_left fun n hn =>
      (hrest n hn).nodeValue hok ht (hleft n hn) fun y _ _ => hclear y
    show Makes a (if node = 0 then _ else a.freePages (pageAt (nodeValue a.mem node)) >>= fun a => _) ∅ _
    rw [if_neg hne, hrun, Res.ok_bind]
    refine .after [.page (nodeValue a.mem node)] ht ?_
    show Makes a₁ _ ∅ ((values a.mem ns).map .page)
    rw [← hvals₁]
    refine ih ht.ok hchain hobj₁ (fun s hs => ?_) ?_ (by simpa using hfuel)
    · rw [hvals₁] at hs
      refine (ht.mem_page hok).mpr ⟨hvals s hs, ?_⟩
      rw [List.mem_singleton]
      exact fun e => hv.1 (e ▸ hs)
    · rw [hvals₁]
      exact hnd'.sublist (List.Sublist.append_left (List.sublist_cons_self _ _) _)

/-- the pages of an area: those that it maps, those of its list and its own -/
def areaPages (m : Mem) (area : Nat) (ns : List Nat) : List Nat := values m ns ++ (ns.map (· - 4) ++ [area - 4])

structure AreaAt (a : Mm) (area : Nat) (ns : List Nat) : Prop where
  object : Object a area
  chain : Chain (nodeNext a.mem) 0 (first a.mem (pages area)) ns
  nodes : ∀ n ∈ ns, Object a n
  values : ∀ s ∈ values a.mem ns, pageAt s ∈ a.out
  distinct : (areaPages a.mem area ns).Nodup

/-- the calls of vm_area_destroy -/
def areaCalls (m : Mem) (area : Nat) (ns : List Nat) : List FreeCall :=
  (InBytes.values m ns).map .page ++ ns.map .kfree ++ [.kfree area]

theorem AreaAt.out (h : AreaAt a area ns) : ∀ s ∈ areaPages a.mem area ns, pageAt s ∈ a.out := by
  intro s hs
  rw [areaPages, List.mem_append, List.mem_append, List.mem_singleton] at hs
  obtain hs | hs | rfl := hs
  · exact h.values s hs
  · obtain ⟨n, hn, rfl⟩ := List.mem_map.mp hs
    exact (h.nodes n hn).out
  · exact h.object.out

/-- the list of an area is on the page of the area -/
theorem AreaAt.head (h : AreaAt a area ns) (hok : a.Ok) :
    HeadAt a (pages area) (InBytes.values a.mem ns ++ ns.map (· - 4)) := by
  have h4 := h.object.four
  intro x h1 h2
  unfold pages at h1 h2
  have hx : onPage (area - 4) x := ⟨by omega, by unfold pageSize; omega⟩
  have hnd := h.distinct
  rw [areaPages, ← List.append_assoc] at hnd
  refine ⟨Mm.KeptPage.of_mem h.object.out x hx, fun s hs hsx => ?_⟩
  have hout := h.out s (by rw [areaPages, ← List.append_assoc]; exact List.mem_append_left _ hs)
  have he : s = area - 4 := onPage_inj (hok.page hout) (h.object.page hok) hsx hx
  exact (List.nodup_append.mp hnd).2.2 s hs (area - 4) List.mem_cons_self he

theorem map_freed_page (l : List Nat) : (l.map FreeCall.page).map FreeCall.freed = l := by
  rw [List.map_map]
  exact List.map_id l

theorem map_freed_kfree (l : List Nat) : (l.map FreeCall.kfree).map FreeCall.freed = l.map (· - 4) := by
  rw [List.map_map]
  rfl

/-- the list of the area when the pages that it maps were given back -/
theorem AreaAt.listAt (h : AreaAt a area ns) (hok : a.Ok) (ht : Trimmed a a' ∅ (InBytes.values a.mem ns)) :
    ListAt a' (pages area) ns := by
  have hclear : ∀ y : Nat, y ∉ (∅ : Set Nat) := Set.notMem_empty
  have hhead := h.head hok
  have hdis := (List.nodup_append.mp h.distinct).2.2
  refine ⟨?_, fun n hn => ?_, hhead.trimmed ht⟩
  · rw [hhead.first ht fun x _ _ => hclear x]
    exact chain_trimmed h.chain hok ht h.nodes fun _ _ y _ _ => hclear y
  · refine (h.nodes n hn).trimmed hok ht (fun hin => ?_) fun y _ _ => hclear y
    exact hdis _ hin _ (List.mem_append_left _ (List.mem_map_of_mem hn)) rfl

theorem vmAreaDestroy_makes (hok : a.Ok) (h : AreaAt a area ns) :
    Makes a (vmAreaDestroy area a) {x | onPage (area - 4) x} (areaCalls a.mem area ns) := by
  have h4 := h.object.four
  have hX : Set.Ico (pages area) (pages area + 16) ⊆ {x | onPage (area - 4) x} := fun x hx => by
    have h1 : area + 24 ≤ x := hx.1
    have h2 : x < area + 24 + 16 := hx.2
    exact ⟨by omega, by unfold pageSize; omega⟩
  have hpages := List.nodup_append.mp h.distinct
  obtain ⟨a₁, hrun₁, ht₁⟩ := freePagesFrom_makes hok h.chain h.nodes h.values
    (h.distinct.sublist (List.Sublist.append_left (List.sublist_append_left _ _) _)) (length_lt h.chain hok h.nodes)
  rw [map_freed_page] at ht₁
  obtain ⟨a₂, hrun₂, ht₂⟩ := listDestroy_makes ht₁.ok (h.listAt hok ht₁)
  have hobj : Object a₂ area := by
    refine Object.trimmed (h.object.trimmed hok ht₁ ?_ fun y _ _ => Set.notMem_empty y) ht₁.ok ht₂ ?_ fun y h1 h2 hy => ?_
    · exact fun hin => hpages.2.2 _ hin _ (List.mem_append_right _ List.mem_cons_self) rfl
    · rw [map_freed_kfree]
      exact fun hin => (List.nodup_append.mp hpages.2.1).2.2 _ hin _ List.mem_cons_self rfl
    · have hin : area + 24 ≤ y := hy.1
      omega
  obtain ⟨a₃, hrun₃, ht₃⟩ := hobj.kfree ht₂.ok
  refine ⟨a₃, ?_, ?_⟩
  · rw [vmAreaDestroy, hrun₁, Res.ok_bind]
    simp only
    rw [hrun₂, Res.ok_bind]
    simp only
    rw [hrun₃, Res.ok_bind, areaCalls]
  · have ht := ((ht₁.mono (Set.empty_subset _)).trans (ht₂.mono hX)).trans (ht₃.mono (Set.empty_subset _))
    rw [areaCalls, List.map_append, List.map_append, map_freed_page]
    exact ht

/-! ## vm_decref_all -/

theorem AreaAt.trimmed (h : AreaAt a area ns) (hok : a.Ok) (ht : Trimmed a a' X D)
    (hD : ∀ s ∈ areaPages a.mem area ns, s ∉ D) (hX : ∀ n ∈ ns, ∀ x, onPage (n - 4) x → x ∉ X)
    (hhead : ∀ x, area - 4 ≤ x → x < area → x ∉ X) (hfirst : ∀ x, area + 24 ≤ x → x < area + 32 → x ∉ X) :
    AreaAt a' area ns ∧ InBytes.values a'.mem ns = InBytes.values a.mem ns := by
  have h4 := h.object.four
  have hnode : ∀ n ∈ ns, n - 4 ∉ D ∧ ∀ y, n - 4 ≤ y → y < n + 32 → y ∉ X := fun n hn => by
    have h4 := (h.nodes n hn).four
    refine ⟨hD _ ?_, fun y h1 h2 => hX n hn y ⟨h1, by unfold pageSize; omega⟩⟩
    exact List.mem_append_right _ (List.mem_append_left _ (List.mem_map_of_mem hn))
  have harea : area - 4 ∉ D := hD _ (List.mem_append_right _ (List.mem_append_right _ List.mem_cons_self))
  have hvals : InBytes.values a'.mem ns = InBytes.values a.mem ns := List.map_congr_left fun n hn =>
    (h.nodes n hn).nodeValue hok ht (hnode n hn).1 fun y h1 h2 => (hnode n hn).2 y (by omega) (by omega)
  have hlist : first a'.mem (pages area) = first a.mem (pages area) :=
    ht.load_eq hok h.object.out harea (by unfold pages; omega) (by unfold pages pageSize; omega) hfirst
  have hchain : Chain (nodeNext a'.mem) 0 (first a'.mem (pages area)) ns := by
    rw [hlist]
    exact chain_trimmed h.chain hok ht h.nodes fun n hn y h1 h2 => (hnode n hn).2 y (by omega) h2
  have hnodes : ∀ n ∈ ns, Object a' n := fun n hn =>
    (h.nodes n hn).trimmed hok ht (hnode n hn).1 fun y h1 h2 => (hnode n hn).2 y h1 (by omega)
  refine ⟨⟨h.object.trimmed hok ht harea hhead, hchain, hnodes, fun s hs => ?_, ?_⟩, hvals⟩
  · rw [hvals] at hs
    exact (ht.mem_page hok).mpr ⟨h.values s hs, hD s (List.mem_append_left _ hs)⟩
  · rw [areaPages, hvals]
    exact h.distinct

/-- the calls of vm_area_decref: an area is destroyed with its last reference -/
def decrefCalls (m : Mem) (area : Nat) (ns : List Nat) : List FreeCall :=
  if refcount m area = 1 then areaCalls m area ns else []

theorem vmAreaDecref_makes (hok : a.Ok) (h : AreaAt a area ns) (hva : areaVa a.mem area % pageSize = 0) :
    Makes a (vmAreaDecref area a) {x | onPage (area - 4) x} (decrefCalls a.mem area ns) := by
  have h4 := h.object.four
  obtain ⟨count, hcount⟩ : ∃ c, c = refcount a.mem area := ⟨_, rfl⟩
  have hlt : count < 256 ^ 4 := hcount ▸ load_lt 4 a.mem (area + 16)
  obtain ⟨m, hm⟩ : ∃ m, m = store 4 a.mem (area + 16) ((count + Heap.refcountMod - 1) % Heap.refcountMod) := ⟨_, rfl⟩
  have hX : Set.Ico (area + 16) (area + 20) ⊆ {x | onPage (area - 4) x} := fun x hx => by
    have h1 : area + 16 ≤ x := hx.1
    have h2 : x < area + 20 := hx.2
    exact ⟨by omega, by unfold pageSize; omega⟩
  have ht : Trimmed a (a.setMem m) (Set.Ico (area + 16) (area + 20)) [] := by
    refine .write hok (fun x hx => Mm.KeptPage.of_mem h.object.out x (hX hx)) fun x hx => ?_
    rw [hm]
    exact store_apply_out (by by_contra hc; exact hx ⟨by omega, by omega⟩)
  have hnew : refcount (a.setMem m).mem area = 0 ↔ count = 1 := by
    show load 4 m (area + 16) = 0 ↔ _
    rw [hm, load_store]
    unfold Heap.refcountMod
    omega
  have hothers := (List.nodup_append.mp h.distinct).2.1
  obtain ⟨h', hvals⟩ := h.trimmed hok ht (fun _ _ => List.not_mem_nil)
    (fun n hn x hx hin => by
      have he : n - 4 = area - 4 := onPage_inj ((h.nodes n hn).page hok) (h.object.page hok) hx (hX hin)
      exact (List.nodup_append.mp hothers).2.2 _ (List.mem_map_of_mem hn) _ List.mem_cons_self he)
    (fun x _ h2 hin => by have h3 : area + 16 ≤ x := hin.1; omega)
    (fun x h1 _ hin => by have h3 : x < area + 20 := hin.2; omega)
  rw [vmAreaDecref, if_neg (not_not.mpr hva), ← hcount, ← hm, decrefCalls, ← hcount]
  simp only
  by_cases h1 : count = 1
  · rw [if_pos (hnew.mpr h1), if_pos h1]
    obtain ⟨a', hrun, ht'⟩ := vmAreaDestroy_makes ht.ok h'
    have hcalls : areaCalls (a.setMem m).mem area ns = areaCalls a.mem area ns := by
      rw [areaCalls, areaCalls, hvals]
    rw [hcalls] at hrun ht'
    exact ⟨a', hrun, (ht.mono hX).trans ht'⟩
  · rw [if_neg fun h0 => h1 (hnew.mp h0), if_neg h1]
    exact ⟨_, rfl, ht.mono hX⟩

theorem mem_decrefCalls {m : Mem} (hs : s ∈ (decrefCalls m area ns).map FreeCall.freed) : s ∈ areaPages m area ns := by
  rw [decrefCalls] at hs
  split at hs
  · rw [areaCalls, List.map_append, List.map_append, map_freed_page, map_freed_kfree, List.append_assoc] at hs
    exact hs
  · exact absurd hs List.not_mem_nil

/-- what is read of an object is not on another page -/
theorem Object.apart (h : Object a x) (hok : a.Ok) (hs : pageSize ∣ s) (hne : x - 4 ≠ s) (h1 : x - 4 ≤ y) (h2 : y < x + 40) :
    y ∉ {y | onPage s y} := by
  have h4 := h.four
  have hy : onPage (x - 4) y := ⟨h1, by unfold pageSize; omega⟩
  exact fun hsy => hne (onPage_inj (h.page hok) hs hy hsy)

/-- an area of which nothing was freed, when something was written to another page -/
theorem AreaAt.other (h : AreaAt a area ns) (hok : a.Ok) (ht : Trimmed a a' {x | onPage s x} D) (hs : pageSize ∣ s)
    (hD : ∀ t ∈ areaPages a.mem area ns, t ∉ D ∧ t ≠ s) : AreaAt a' area ns ∧
    areaPages a'.mem area ns = areaPages a.mem area ns ∧ areaVa a'.mem area = areaVa a.mem area ∧
    decrefCalls a'.mem area ns = decrefCalls a.mem area ns := by
  have hself : area - 4 ∈ areaPages a.mem area ns := List.mem_append_right _ (List.mem_append_right _ List.mem_cons_self)
  have hapart : ∀ x, area - 4 ≤ x → x < area + 40 → x ∉ {x | onPage s x} := fun x h1 h2 =>
    h.object.apart hok hs (hD _ hself).2 h1 h2
  obtain ⟨h', hvals⟩ := h.trimmed hok ht (fun t hin => (hD t hin).1)
    (fun n hn x hx hsx => by
      refine (hD (n - 4) ?_).2 (onPage_inj ((h.nodes n hn).page hok) hs hx hsx)
      exact List.mem_append_right _ (List.mem_append_left _ (List.mem_map_of_mem hn)))
    (fun x h1 h2 => hapart x h1 (by omega)) (fun x h1 h2 => hapart x (by omega) (by omega))
  have hload : ∀ {n y}, area ≤ y → y + n ≤ area + 40 → load n a'.mem y = load n a.mem y := fun {n y} h1 h2 => by
    have h4 := h.object.four
    refine ht.load_eq hok h.object.out (hD _ hself).1 (by omega) (by unfold pageSize; omega) fun x h3 h4 => ?_
    exact hapart x (by omega) (by omega)
  refine ⟨h', by rw [areaPages, areaPages, hvals], hload (Nat.le_refl _) (by omega), ?_⟩
  have hcount : refcount a'.mem area = refcount a.mem area := hload (by omega) (by omega)
  rw [decrefCalls, decrefCalls, hcount, areaCalls, areaCalls, hvals]

/-- a list of areas, `ms n` are the nodes of the area at the node `n` -/
structure AreasAt (a : Mm) (ns : List Nat) (ms : Nat → List Nat) : Prop where
  nodes : ∀ n ∈ ns, Object a n
  areas : ∀ n ∈ ns, AreaAt a (nodeValue a.mem n) (ms n)
  aligned : ∀ n ∈ ns, areaVa a.mem (nodeValue a.mem n) % pageSize = 0
  distinct : (ns.map (· - 4) ++ ns.flatMap fun n => areaPages a.mem (nodeValue a.mem n) (ms n)).Nodup

/-- neither a node nor a page of another area is among the pages of the first area -/
theorem AreasAt.far {ms : Nat → List Nat} (h : AreasAt a (node :: ns) ms)
    (hs : s ∈ areaPages a.mem (nodeValue a.mem node) (ms node)) : (∀ n ∈ node :: ns, n - 4 ≠ s) ∧
    ∀ n ∈ ns, s ∉ areaPages a.mem (nodeValue a.mem n) (ms n) := by
  obtain ⟨_, hnd, hdis⟩ := List.nodup_append.mp h.distinct
  rw [List.flatMap_cons] at hnd hdis
  have hapart := (List.nodup_append.mp hnd).2.2
  refine ⟨fun n hn => hdis _ (List.mem_map_of_mem hn) s (List.mem_append_left _ hs), fun n hn hin => ?_⟩
  exact hapart s hs s (List.mem_flatMap.mpr ⟨n, hn, hin⟩) rfl

/-- what is the same when the first area was let go -/
theorem AreasAt.same {ms : Nat → List Nat} (h : AreasAt a (node :: ns) ms) (hok : a.Ok)
    (ht : Trimmed a a' {x | onPage (nodeValue a.mem node - 4) x} D)
    (hD : ∀ s ∈ D, s ∈ areaPages a.mem (nodeValue a.mem node) (ms node)) {n : Nat} (hn : n ∈ node :: ns) :
    nodeNext a'.mem n = nodeNext a.mem n ∧ nodeValue a'.mem n = nodeValue a.mem n ∧ Object a' n := by
  have harea : Object a (nodeValue a.mem node) := (h.areas node List.mem_cons_self).object
  have hne : n - 4 ≠ nodeValue a.mem node - 4 :=
    (h.far (List.mem_append_right _ (List.mem_append_right _ List.mem_cons_self))).1 n hn
  have hnD : n - 4 ∉ D := fun hin => (h.far (hD _ hin)).1 n hn rfl
  have hobj : Object a n := h.nodes n hn
  have hout : ∀ y, n - 4 ≤ y → y < n + 40 → y ∉ {x | onPage (nodeValue a.mem node - 4) x} := fun y h1 h2 =>
    hobj.apart hok (harea.page hok) hne h1 h2
  refine ⟨hobj.nodeNext hok ht fun y h1 h2 => ?_, hobj.nodeValue hok ht hnD fun y h1 h2 => ?_,
    hobj.trimmed hok ht hnD fun y h1 h2 => ?_⟩
  · exact hout y (by omega) (by omega)
  · exact hout y (by omega) (by omega)
  · exact hout y h1 (by omega)

/-- the other areas when the first one was let go -/
theorem AreasAt.others {ms : Nat → List Nat} (h : AreasAt a (node :: ns) ms) (hok : a.Ok)
    (ht : Trimmed a a' {x | onPage (nodeValue a.mem node - 4) x} D)
    (hD : ∀ s ∈ D, s ∈ areaPages a.mem (nodeValue a.mem node) (ms node)) {n : Nat} (hn : n ∈ ns) :
    AreaAt a' (nodeValue a.mem n) (ms n) ∧
    areaPages a'.mem (nodeValue a.mem n) (ms n) = areaPages a.mem (nodeValue a.mem n) (ms n) ∧
    areaVa a'.mem (nodeValue a.mem n) = areaVa a.mem (nodeValue a.mem n) ∧
    decrefCalls a'.mem (nodeValue a.mem n) (ms n) = decrefCalls a.mem (nodeValue a.mem n) (ms n) := by
  have harea : Object a (nodeValue a.mem node) := (h.areas node List.mem_cons_self).object
  refine (h.areas n (List.mem_cons_of_mem _ hn)).other hok ht (harea.page hok) fun t htin => ⟨fun hin => ?_, fun he => ?_⟩
  · exact (h.far (hD t hin)).2 n hn htin
  · refine (h.far (List.mem_append_right _ (List.mem_append_right _ List.mem_cons_self))).2 n hn ?_
    rw [← he]
    exact htin

/-- the rest of the list when the first area was let go -/
theorem AreasAt.tail {ms : Nat → List Nat} (h : AreasAt a (node :: ns) ms) (hok : a.Ok)
    (ht : Trimmed a a' {x | onPage (nodeValue a.mem node - 4) x} D)
    (hD : ∀ s ∈ D, s ∈ areaPages a.mem (nodeValue a.mem node) (ms node)) : AreasAt a' ns ms := by
  have hsame : ∀ n ∈ ns, nodeValue a'.mem n = nodeValue a.mem n ∧ Object a' n := fun n hn =>
    (h.same hok ht hD (List.mem_cons_of_mem _ hn)).2
  refine ⟨fun n hn => (hsame n hn).2, fun n hn => ?_, fun n hn => ?_, ?_⟩
  · rw [(hsame n hn).1]
    exact (h.others hok ht hD hn).1
  · rw [(hsame n hn).1, (h.others hok ht hD hn).2.2.1]
    exact h.aligned n (List.mem_cons_of_mem _ hn)
  · have hpages : (ns.flatMap fun n => areaPages a'.mem (nodeValue a'.mem n) (ms n)) =
        ns.flatMap fun n => areaPages a.mem (nodeValue a.mem n) (ms n) := List.flatMap_congr fun n hn => by
      rw [(hsame n hn).1, (h.others hok ht hD hn).2.1]
    rw [hpages]
    refine h.distinct.sublist (List.Sublist.append (List.sublist_cons_self _ _) ?_)
    rw [List.flatMap_cons]
    exact List.sublist_append_right _ _

theorem vmDecrefFrom_makes {ms : Nat → List Nat} (hok : a.Ok) (hch : Chain (nodeNext a.mem) 0 node ns)
    (h : AreasAt a ns ms) (hX : ∀ n ∈ ns, ∀ x, onPage (nodeValue a.mem n - 4) x → x ∈ X) (hfuel : ns.length < n) :
    Makes a (vmDecrefFrom n node a) X (ns.flatMap fun n => decrefCalls a.mem (nodeValue a.mem n) (ms n)) := by
  induction ns generalizing a node n with
  | nil =>
    obtain ⟨n, rfl⟩ : ∃ k, n = k + 1 := ⟨n - 1, by omega⟩
    have hnull : node = 0 := hch
    show Makes a (if node = 0 then .ok ([], a) else _) X []
    rw [if_pos hnull]
    exact .nil hok
  | cons m ns ih =>
    obtain ⟨n, rfl⟩ : ∃ k, n = k + 1 := ⟨n - 1, by omega⟩
    obtain ⟨rfl, hne, htail⟩ := hch
    obtain ⟨hXnode, hXrest⟩ := List.forall_mem_cons.mp hX
    obtain ⟨a₁, hrun, ht⟩ := vmAreaDecref_makes hok (h.areas node List.mem_cons_self) (h.aligned node List.mem_cons_self)
    have hsame := fun {n : Nat} => h.same (n := n) hok ht fun s hs => mem_decrefCalls hs
    have hchain : Chain (nodeNext a₁.mem) 0 (nodeNext a₁.mem node) ns := by
      rw [(hsame List.mem_cons_self).1]
      exact htail.congr fun n hn => (hsame (List.mem_cons_of_mem _ hn)).1
    have hcalls : (ns.flatMap fun n => decrefCalls a₁.mem (nodeValue a₁.mem n) (ms n)) =
        ns.flatMap fun n => decrefCalls a.mem (nodeValue a.mem n) (ms n) := List.flatMap_congr fun n hn => by
      rw [(hsame (List.mem_cons_of_mem _ hn)).2.1, (h.others hok ht (fun s hs => mem_decrefCalls hs) hn).2.2.2]
    show Makes a (if node = 0 then _ else vmAreaDecref (nodeValue a.mem node) a >>= fun r => _) X _
    rw [if_neg hne, hrun, Res.ok_bind, List.flatMap_cons, ← hcalls]
    have hrest := h.tail hok ht fun s hs => mem_decrefCalls hs
    refine .after _ (ht.mono hXnode) (ih ht.ok hchain hrest (fun n hn x hx => ?_) (by simpa using hfuel))
    rw [(hsame (List.mem_cons_of_mem _ hn)).2.1] at hx
    exact hXrest n hn x hx

structure AreaListAt (a : Mm) (list : Nat) (ns : List Nat) (ms : Nat → List Nat) : Prop extends AreasAt a ns ms where
  chain : Chain (nodeNext a.mem) 0 (first a.mem list) ns
  head : HeadAt a list ((ns.flatMap fun n => areaPages a.mem (nodeValue a.mem n) (ms n)) ++ ns.map (· - 4))

/-- the list when every area has lost a reference -/
theorem AreaListAt.listAt {ms : Nat → List Nat} (h : AreaListAt a list ns ms) (hok : a.Ok)
    (ht : Trimmed a a' {x | ∃ n ∈ ns, onPage (nodeValue a.mem n - 4) x} D)
    (hD : D ⊆ ns.flatMap fun n => areaPages a.mem (nodeValue a.mem n) (ms n)) : ListAt a' list ns := by
  have hown : ∀ n ∈ ns, nodeValue a.mem n - 4 ∈ ns.flatMap fun n => areaPages a.mem (nodeValue a.mem n) (ms n) :=
    fun n hn => by
      refine List.mem_flatMap.mpr ⟨n, hn, ?_⟩
      exact List.mem_append_right _ (List.mem_append_right _ List.mem_cons_self)
  have hdis := (List.nodup_append.mp h.distinct).2.2
  have hapart : ∀ n ∈ ns, ∀ y, n - 4 ≤ y → y < n + 40 → y ∉ {x | ∃ n ∈ ns, onPage (nodeValue a.mem n - 4) x} :=
    fun n hn y h1 h2 ⟨m, hm, hy⟩ => by
      have hne : n - 4 ≠ nodeValue a.mem m - 4 := hdis _ (List.mem_map_of_mem hn) _ (hown m hm)
      exact (h.nodes n hn).apart hok ((h.areas m hm).object.page hok) hne h1 h2 hy
  have hhead : HeadAt a list (D ++ ns.map (· - 4)) := h.head.mono fun s hs => by
    rw [List.mem_append] at hs ⊢
    exact hs.imp_left (@hD s)
  refine ⟨?_, fun n hn => ?_, hhead.trimmed ht⟩
  · rw [hhead.first ht fun x h1 h2 ⟨n, hn, hx⟩ => (h.head x h1 h2).2 _ (List.mem_append_left _ (hown n hn)) hx]
    exact chain_trimmed h.chain hok ht h.nodes fun n hn y h1 h2 => hapart n hn y (by omega) (by omega)
  · refine (h.nodes n hn).trimmed hok ht (fun hin => ?_) fun y h1 h2 => hapart n hn y h1 (by omega)
    exact hdis _ (List.mem_map_of_mem hn) _ (hD hin) rfl

theorem vmDecrefAll_makes {ms : Nat → List Nat} (hok : a.Ok) (h : AreaListAt a list ns ms) :
    Makes a (vmDecrefAll list a) ({x | ∃ n ∈ ns, onPage (nodeValue a.mem n - 4) x} ∪ Set.Ico list (list + 16))
      ((ns.flatMap fun n => decrefCalls a.mem (nodeValue a.mem n) (ms n)) ++ ns.map .kfree) := by
  obtain ⟨a₁, hrun₁, ht₁⟩ := vmDecrefFrom_makes hok h.chain h.toAreasAt
    (fun n hn x hx => (⟨n, hn, hx⟩ : x ∈ {x | ∃ n ∈ ns, onPage (nodeValue a.mem n - 4) x})) (length_lt h.chain hok h.nodes)
  have hD : ((ns.flatMap fun n => decrefCalls a.mem (nodeValue a.mem n) (ms n)).map FreeCall.freed) ⊆
      ns.flatMap fun n => areaPages a.mem (nodeValue a.mem n) (ms n) := fun s hs => by
    rw [List.map_flatMap, List.mem_flatMap] at hs
    obtain ⟨n, hn, hs⟩ := hs
    exact List.mem_flatMap.mpr ⟨n, hn, mem_decrefCalls hs⟩
  rw [vmDecrefAll, hrun₁, Res.ok_bind]
  exact .after _ (ht₁.mono Set.subset_union_left)
    ((listDestroy_makes ht₁.ok (h.listAt hok ht₁ hD)).mono Set.subset_union_right)

/-! ## the teardown as a whole -/

/-- a run makes these calls in this order, and gives back the page of each -/
def Tears (a : Mm) (run : Res (List FreeCall × Mm)) (calls : List FreeCall) : Prop :=
  ∃ a', run = .ok (calls, a') ∧ a'.Ok ∧ calls.Nodup ∧ a.out.Perm (calls.map (pageAt ·.freed) ++ a'.out)

theorem Makes.tears {run : Res (List FreeCall × Mm)} {calls : List FreeCall} (hok : a.Ok) (h : Makes a run X calls) :
    Tears a run calls := by
  obtain ⟨a', hrun, ht⟩ := h
  have hout := ht.out
  rw [List.map_map] at hout
  have hnd := hok.nodup
  rw [hout.nodup_iff, List.nodup_append] at hnd
  exact ⟨a', hrun, ht.ok, List.Nodup.of_map _ hnd.1, hout⟩

/-- list_destroy gives every node to kfree, once and in the order of the list, and returns; vm_area_destroy and vm_decref_all
free the pages of an area, its nodes and the area, each once and in the order of the list.  A call of kfree changes the next
field of no object, not even of the one that it takes. -/
theorem teardown_frees (hok : a.Ok) :
    (∀ node, Object a node → ∃ a', a.kfree node = .ok a' ∧ ∀ n, Object a n → nodeNext a'.mem n = nodeNext a.mem n) ∧
    (∀ list ns, ListAt a list ns → Tears a (listDestroy list a) (ns.map .kfree)) ∧
    (∀ area ns, AreaAt a area ns → Tears a (vmAreaDestroy area a) (areaCalls a.mem area ns)) ∧
    ∀ list ns ms, AreaListAt a list ns ms → Tears a (vmDecrefAll list a)
      ((ns.flatMap fun n => decrefCalls a.mem (nodeValue a.mem n) (ms n)) ++ ns.map .kfree) := by
  refine ⟨fun node hnode => ?_, fun list ns h => ?_, fun area ns h => ?_, fun list ns ms h => ?_⟩
  · obtain ⟨a', hrun, ht⟩ := hnode.kfree hok
    exact ⟨a', hrun, fun n hn => hn.nodeNext hok ht fun y _ _ => Set.notMem_empty y⟩
  · exact (listDestroy_makes hok h).tears hok
  · exact (vmAreaDestroy_makes hok h).tears hok
  · exact (vmDecrefAll_makes hok h).tears hok

/-- any number of pages can be allocated -/
theorem exists_pages (hk : n ≤ pageCount) : ∃ (a : Mm) (l : List Nat), a.Ok ∧ a.out = l.map pageAt ∧ l.length = n := by
  induction n with
  | zero => exact ⟨Mm.init fun _ => 0, [], init_ok _, rfl, rfl⟩
  | succ n ih =>
    obtain ⟨a, l, hok, hout, hlen⟩ := ih (Nat.le_of_succ_le hk)
    obtain ⟨p, a', hrun⟩ := hok.alloc_succeeds
      (fun p hp => by rw [hout] at hp; obtain ⟨s, _, rfl⟩ := List.mem_map.mp hp; rfl)
      (by rw [hout, List.length_map, hlen]; exact hk)
    obtain ⟨hord, hal⟩ := hok.alloc (by decide) hrun
    obtain ⟨s, order⟩ := p
    obtain rfl : order = 0 := hord
    exact ⟨a', s :: l, hal.ok, by rw [hal.out, hout]; rfl, by rw [List.length_cons, hlen]⟩

/-- the page of an object of two words, at the offsets of value and next of a node -/
def nodePage (s value next : Nat) : Mem := store 8 (store 8 (fun _ => 0) (s + 4) value) (s + 28) next

/-- the page of an area with one reference -/
def areaPage (s first : Nat) : Mem := store 8 (store 4 (fun _ => 0) (s + 20) 1) (s + 28) first

/-- a memory given page by page -/
def pageMem (P : Nat → Mem) : Mem := fun x => P (x / pageSize * pageSize) x

theorem load_pageMem {P : Nat → Mem} (hs : pageSize ∣ s) (h1 : s ≤ y) (h2 : y + n ≤ s + pageSize) :
    load n (pageMem P) y = load n (P s) y := by
  refine load_congr fun x hx hx' => ?_
  have he : x / pageSize * pageSize = s := by
    obtain ⟨c, rfl⟩ := hs
    unfold pageSize at *
    omega
  show P (x / pageSize * pageSize) x = P s x
  rw [he]

theorem load_zero : load n (fun _ => 0) x = 0 := by
  induction n generalizing x with
  | zero => rfl
  | succ n ih => rw [load, ih]; rfl

theorem nodePage_loads {v next : Nat} (hv : v < wordCount) (hn : next < wordCount) :
    load 4 (nodePage s v next) s = 0 ∧ nodeValue (nodePage s v next) (s + 4) = v ∧
    nodeNext (nodePage s v next) (s + 4) = next := by
  refine ⟨?_, ?_, load_store_lt hn⟩
  · rw [nodePage, load_store_disj (by omega), load_store_disj (by omega)]
    exact load_zero
  · show load 8 _ (s + 4) = v
    rw [nodePage, load_store_disj (by omega)]
    exact load_store_lt hv

theorem areaPage_loads {v : Nat} (hv : v < wordCount) : load 4 (areaPage s v) s = 0 ∧ areaVa (areaPage s v) (s + 4) = 0 ∧
    refcount (areaPage s v) (s + 4) = 1 ∧ first (areaPage s v) (pages (s + 4)) = v := by
  refine ⟨?_, ?_, ?_, load_store_lt hv⟩
  · rw [areaPage, load_store_disj (by omega), load_store_disj (by omega)]
    exact load_zero
  · show load 8 _ (s + 4) = 0
    rw [areaPage, load_store_disj (by omega), load_store_disj (by omega)]
    exact load_zero
  · show load 4 _ (s + 20) = 1
    rw [areaPage, load_store_disj (by omega)]
    exact load_store_lt (by decide)

/-- a list of one area, which has two pages: the area and the nodes of both lists are on pages of their own -/
theorem teardown_frees_pages : ∃ a node area n₁ n₂ p₁ p₂, Tears a (vmDecrefAll 0 a)
    [.page p₁, .page p₂, .kfree n₁, .kfree n₂, .kfree area, .kfree node] := by
  obtain ⟨a, l, hok, hout, hlen⟩ := exists_pages (n := 6) (by decide)
  obtain ⟨s₀, s₁, s₂, s₃, s₄, s₅, rfl⟩ : ∃ s₀ s₁ s₂ s₃ s₄ s₅, l = [s₀, s₁, s₂, s₃, s₄, s₅] := by
    match l, hlen with
    | [s₀, s₁, s₂, s₃, s₄, s₅], _ => exact ⟨s₀, s₁, s₂, s₃, s₄, s₅, rfl⟩
  have hnd : [s₀, s₁, s₂, s₃, s₄, s₅].Nodup := .of_map pageAt (hout ▸ hok.nodup)
  have hmem : ∀ s ∈ [s₀, s₁, s₂, s₃, s₄, s₅], pageAt s ∈ a.out := fun s hs => hout ▸ List.mem_map_of_mem hs
  have hbound : ∀ s ∈ [s₀, s₁, s₂, s₃, s₄, s₅], pageSize ∣ s ∧ 4096 ≤ s ∧ s + 4 < wordCount := fun s hs => by
    have hin : s ∈ usable := hok.usable (hmem s hs) (Tiling.base_mem _)
    have h1 : kernPhyBase + 2 ^ 20 ≤ s := hin.1
    have h2 : s < kernPhyBase + 2 ^ 22 := hin.2
    have hlow : 4096 ≤ kernPhyBase + 2 ^ 20 := by decide
    have hhigh : kernPhyBase + 2 ^ 22 + 4 < wordCount := by decide
    exact ⟨hok.page (hmem s hs), Nat.le_trans hlow h1, Nat.lt_trans (Nat.add_lt_add_right h2 4) hhigh⟩
  obtain ⟨P, hP⟩ : ∃ P : Nat → Mem, P = fun s =>
    if s = 0 then store 8 (fun _ => 0) 0 (s₀ + 4) else if s = s₀ then nodePage s₀ (s₁ + 4) 0
    else if s = s₁ then areaPage s₁ (s₂ + 4) else if s = s₂ then nodePage s₂ s₄ (s₃ + 4)
    else if s = s₃ then nodePage s₃ s₅ 0 else a.mem := ⟨_, rfl⟩
  simp only [List.nodup_cons, List.mem_cons, List.not_mem_nil, or_false, not_or, List.nodup_nil, not_false_eq_true, and_true] at hnd
  simp only [List.forall_mem_cons, List.not_mem_nil, false_implies, implies_true, and_true] at hbound hmem
  obtain ⟨⟨h01, h02, h03, h04, h05⟩, ⟨h12, h13, h14, h15⟩, ⟨h23, h24, h25⟩, ⟨h34, h35⟩, h45⟩ := hnd
  obtain ⟨⟨hd0, hl0, hu0⟩, ⟨hd1, hl1, hu1⟩, ⟨hd2, hl2, hu2⟩, ⟨hd3, hl3, hu3⟩, ⟨hd4, hl4, hu4⟩, hd5, hl5, hu5⟩ := hbound
  obtain ⟨hm0, hm1, hm2, hm3, hm4, hm5⟩ := hmem
  have hP0 : P s₀ = nodePage s₀ (s₁ + 4) 0 := by simp [hP, show s₀ ≠ 0 by omega]
  have hP1 : P s₁ = areaPage s₁ (s₂ + 4) := by simp [hP, show s₁ ≠ 0 by omega, Ne.symm h01]
  have hP2 : P s₂ = nodePage s₂ s₄ (s₃ + 4) := by simp [hP, show s₂ ≠ 0 by omega, Ne.symm h02, Ne.symm h12]
  have hP3 : P s₃ = nodePage s₃ s₅ 0 := by simp [hP, show s₃ ≠ 0 by omega, Ne.symm h03, Ne.symm h13, Ne.symm h23]
  -- what is read of the page at `s`
  have hread : ∀ {n s y}, pageSize ∣ s → s ≤ y → y + n ≤ s + pageSize → load n (pageMem P) y = load n (P s) y := load_pageMem
  have hok' : (a.setMem (pageMem P)).Ok := by
    refine hok.setMem fun x hx => ?_
    have hin : x ∈ usable := by
      by_contra hc
      exact hx (.inl hc)
    have hlow : kernPhyBase + 2 ^ 20 ≤ x := hin.1
    have h4096 : 4096 ≤ kernPhyBase + 2 ^ 20 := by decide
    have hne : ∀ {s}, pageAt s ∈ a.out → x / pageSize * pageSize ≠ s := fun {s} hs e => by
      refine hx (KeptPage.of_mem hs x ?_)
      rw [← e]
      exact ⟨Nat.div_mul_le_self x pageSize, by unfold pageSize; omega⟩
    have h0 : x / pageSize * pageSize ≠ 0 := by
      unfold pageSize
      omega
    show P (x / pageSize * pageSize) x = a.mem x
    rw [hP]
    simp only [if_neg h0, if_neg (hne hm0), if_neg (hne hm1), if_neg (hne hm2), if_neg (hne hm3)]
  have hobj : ∀ {s}, pageAt s ∈ a.out → pageSize ∣ s → load 4 (P s) s = 0 → Object (a.setMem (pageMem P)) (s + 4) :=
    fun {s} hs hd h0 => ⟨Nat.le_add_left 4 s, hs, (hread hd (Nat.le_refl s) (by unfold pageSize; omega)).trans h0⟩
  have hnode : ∀ {s v next}, pageSize ∣ s → P s = nodePage s v next → v < wordCount → next < wordCount →
      nodeValue (pageMem P) (s + 4) = v ∧ nodeNext (pageMem P) (s + 4) = next := fun {s v next} hd hPs hv hn => by
    obtain ⟨_, hval, hnext⟩ := nodePage_loads (s := s) hv hn
    rw [← hPs] at hval hnext
    exact ⟨(hread hd (by omega) (by unfold pageSize; omega)).trans hval,
      (hread hd (by omega) (by unfold pageSize; omega)).trans hnext⟩
  obtain ⟨hv0, hn0⟩ := hnode hd0 hP0 hu1 (by decide)
  obtain ⟨hv2, hn2⟩ := hnode hd2 hP2 (by omega) hu3
  obtain ⟨hv3, hn3⟩ := hnode hd3 hP3 (by omega) (by decide)
  obtain ⟨ho1, hva, hcount, hfirst⟩ := areaPage_loads (s := s₁) hu2
  rw [← hP1] at ho1 hva hcount hfirst
  replace hva : areaVa (pageMem P) (s₁ + 4) = 0 := (hread hd1 (by omega) (by unfold pageSize; omega)).trans hva
  replace hcount : refcount (pageMem P) (s₁ + 4) = 1 := (hread hd1 (by omega) (by unfold pageSize; omega)).trans hcount
  replace hfirst : first (pageMem P) (pages (s₁ + 4)) = s₂ + 4 :=
    (hread hd1 (by unfold pages; omega) (by unfold pages pageSize; omega)).trans hfirst
  have hobj0 := hobj hm0 hd0 (by rw [hP0]; exact (nodePage_loads hu1 (by decide)).1)
  have hobj2 := hobj hm2 hd2 (by rw [hP2]; exact (nodePage_loads (by omega) hu3).1)
  have hobj3 := hobj hm3 hd3 (by rw [hP3]; exact (nodePage_loads (by omega) (by decide)).1)
  have hvals : InBytes.values (pageMem P) [s₂ + 4, s₃ + 4] = [s₄, s₅] := by
    show [_, _] = _
    rw [hv2, hv3]
  have hpages : areaPages (pageMem P) (s₁ + 4) [s₂ + 4, s₃ + 4] = [s₄, s₅, s₂, s₃, s₁] := by
    rw [areaPages, hvals]
    rfl
  have harea : AreaAt (a.setMem (pageMem P)) (s₁ + 4) [s₂ + 4, s₃ + 4] := by
    refine ⟨hobj hm1 hd1 ho1, ⟨hfirst, by omega, hn2, by omega, hn3⟩, ?_, ?_, ?_⟩
    · exact List.forall_mem_cons.mpr ⟨hobj2, List.forall_mem_singleton.mpr hobj3⟩
    · show ∀ s ∈ InBytes.values (pageMem P) _, _
      rw [hvals]
      exact List.forall_mem_cons.mpr ⟨hm4, List.forall_mem_singleton.mpr hm5⟩
    · show (areaPages (pageMem P) _ _).Nodup
      rw [hpages]
      simp [h45, Ne.symm h24, Ne.symm h34, Ne.symm h14, Ne.symm h25, Ne.symm h35, Ne.symm h15, h23, Ne.symm h12, Ne.symm h13]
  have hhead : first (pageMem P) 0 = s₀ + 4 := by
    have h0 : P 0 = store 8 (fun _ => 0) 0 (s₀ + 4) := by simp [hP]
    show load 8 (pageMem P) 0 = _
    rw [load_pageMem (Nat.dvd_zero _) (Nat.le_refl 0) (by decide), h0]
    exact load_store_lt hu0
  have hlist : AreaListAt (a.setMem (pageMem P)) 0 [s₀ + 4] fun _ => [s₂ + 4, s₃ + 4] := by
    refine ⟨⟨List.forall_mem_singleton.mpr hobj0, ?_, ?_, ?_⟩, ⟨hhead, by omega, hn0⟩, fun x _ h16 => ⟨.inl fun hin => ?_, ?_⟩⟩
    · refine List.forall_mem_singleton.mpr ?_
      show AreaAt _ (nodeValue (pageMem P) _) _
      rw [hv0]
      exact harea
    · refine List.forall_mem_singleton.mpr ?_
      show areaVa (pageMem P) (nodeValue (pageMem P) _) % pageSize = 0
      rw [hv0, hva, Nat.zero_mod]
    · show ([s₀] ++ (areaPages (pageMem P) (nodeValue (pageMem P) (s₀ + 4)) [s₂ + 4, s₃ + 4] ++ [])).Nodup
      rw [hv0, hpages]
      simp [h45, Ne.symm h24, Ne.symm h34, Ne.symm h14, Ne.symm h25, Ne.symm h35, Ne.symm h15, h23, Ne.symm h12, Ne.symm h13,
        h01, h02, h03, h04, h05]
    · have hlow : kernPhyBase + 2 ^ 20 ≤ x := hin.1
      have h4096 : 4096 ≤ kernPhyBase + 2 ^ 20 := by decide
      omega
    · show ∀ s ∈ areaPages (pageMem P) (nodeValue (pageMem P) (s₀ + 4)) [s₂ + 4, s₃ + 4] ++ [] ++ [s₀], ¬ onPage s x
      rw [hv0, hpages]
      intro s hs hon
      have hle : 4096 ≤ s := by
        simp only [List.cons_append, List.nil_append, List.append_nil, List.mem_cons, List.not_mem_nil, or_false] at hs
        omega
      have h1 : s ≤ x := hon.1
      omega
  have htears := (teardown_frees hok').2.2.2 0 [s₀ + 4] _ hlist
  have hcalls : decrefCalls (pageMem P) (nodeValue (pageMem P) (s₀ + 4)) [s₂ + 4, s₃ + 4] =
      [.page s₄, .page s₅, .kfree (s₂ + 4), .kfree (s₃ + 4), .kfree (s₁ + 4)] := by
    rw [hv0, decrefCalls, if_pos hcount, areaCalls, hvals]
    rfl
  refine ⟨a.setMem (pageMem P), s₀ + 4, s₁ + 4, s₂ + 4, s₃ + 4, s₄, s₅, ?_⟩
  have hall : (([s₀ + 4].flatMap fun n => decrefCalls (pageMem P) (nodeValue (pageMem P) n) [s₂ + 4, s₃ + 4]) ++
      [s₀ + 4].map .kfree) = [.page s₄, .page s₅, .kfree (s₂ + 4), .kfree (s₃ + 4), .kfree (s₁ + 4), .kfree (s₀ + 4)] := by
    rw [List.flatMap_cons, List.flatMap_nil, List.append_nil, hcalls]
    rfl
  rw [← hall]
  exact htears

end InBytes

end FakeKernel
