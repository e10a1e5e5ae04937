import FakeKernel.Kernel.Alloc
import FakeKernel.Mm.Refine

/-!
# Who owns a page

`Owners` tells for a page which task it was allocated for and as what.  It is a ghost: no function
reads it, and the kernel's structures determine it.  A `user` page remembers the list node that leads
to it and the page number at which it may be mapped.

* `World h own q`   everything that is live in the heap is owned, and the ready list and the wait
                    groups are the queues `q`; its parts are `Held`, `Static`, `Maps`, `Areas`, `Queues`;
* `Maps.congr`, `Areas.congr`, `Static.congr`, `Queues.congr`   what each part depends on.
-/

namespace FakeKernel
open Bytes Mm

/-- what a page was allocated for -/
inductive Role where
  | task
  | sched
  | stack
  | table
  | vnode
  | area (node : Nat)
  | pnode (area : Nat)
  | user (node vpn : Nat)
  /-- allocated and not yet in use -/
  | loose (object : Bool)
deriving DecidableEq, Repr

/-- the page belongs to an object of kmalloc, which keeps a header in it -/
def Role.object : Role → Bool
  | .task | .sched | .vnode | .area _ | .pnode _ => true
  | .stack | .table | .user _ _ => false
  | .loose object => object

def Role.isLoose : Role → Bool
  | .loose _ => true
  | _ => false

/-- the role of a node of the lists of a task -/
def Role.isLink : Role → Bool
  | .vnode | .pnode _ => true
  | _ => false

/-- the role of what the lists of a task lead to -/
def Role.isListed : Role → Bool
  | .vnode | .pnode _ | .area _ | .user _ _ => true
  | _ => false

structure Owner where
  task : Nat
  role : Role
deriving DecidableEq, Repr

def Owners := Nat → Option Owner

namespace Owners

/-- the page at `p` is in use by `t` as `r` -/
def Page (own : Owners) (p t : Nat) (r : Role) : Prop := own p = some ⟨t, r⟩

/-- the object at `x` is in use by `t` as `r` -/
def Obj (own : Owners) (x t : Nat) (r : Role) : Prop := 4 ≤ x ∧ own (x - 4) = some ⟨t, r⟩

def set (own : Owners) (p t : Nat) (r : Role) : Owners :=
  fun q => if q = p then some ⟨t, r⟩ else own q

/-- what is in use stays in use -/
def Mono (own own' : Owners) : Prop :=
  ∀ p t r, own.Page p t r → r.isLoose = false → own'.Page p t r

/-- the two agree on what `t` has in use -/
def Agree (own own' : Owners) (t : Nat) : Prop :=
  ∀ p r, r.isLoose = false → (own'.Page p t r ↔ own.Page p t r)

/-- the two agree on what the lists of `t` lead to -/
def AgreeListed (own own' : Owners) (t : Nat) : Prop :=
  ∀ p r, r.isListed = true → (own'.Page p t r ↔ own.Page p t r)

variable {own own' own'' : Owners} {p x y t t' : Nat} {r r' : Role}

theorem Page.unique (h : own.Page p t r) (h' : own.Page p t' r') : t = t' ∧ r = r' := by
  have he : some (Owner.mk t r) = some ⟨t', r'⟩ := h.symm.trans h'
  cases he
  exact ⟨rfl, rfl⟩

theorem Page.ne {p' : Nat} (h : own.Page p t r) (h' : own.Page p' t' r') (hne : r ≠ r') : p ≠ p' := by
  intro e
  subst e
  exact hne (h.unique h').2

theorem Obj.page (h : own.Obj x t r) : own.Page (x - 4) t r := h.2

theorem Obj.unique (h : own.Obj x t r) (h' : own.Obj x t' r') : t = t' ∧ r = r' := h.page.unique h'.page

theorem Obj.ne (h : own.Obj x t r) (h' : own.Obj y t' r') (hne : r ≠ r') : x ≠ y := by
  intro e
  subst e
  exact hne (h.unique h').2

theorem Obj.ne_zero (h : own.Obj x t r) : x ≠ 0 := by
  have := h.1
  omega

theorem Mono.obj (hm : Mono own own') (h : own.Obj x t r) (hr : r.isLoose = false) :
    own'.Obj x t r := ⟨h.1, hm _ _ _ h.2 hr⟩

theorem Agree.listed (ha : Agree own own' t) : AgreeListed own own' t := by
  intro p r hr
  apply ha
  cases r with
  | loose b => exact nomatch hr
  | _ => rfl

theorem AgreeListed.obj (ha : AgreeListed own own' t) (hr : r.isListed = true) :
    own'.Obj x t r ↔ own.Obj x t r :=
  ⟨fun h => ⟨h.1, (ha _ _ hr).mp h.2⟩, fun h => ⟨h.1, (ha _ _ hr).mpr h.2⟩⟩

theorem Agree.refl (own : Owners) (t : Nat) : Agree own own t := fun _ _ _ => Iff.rfl

theorem Mono.refl (own : Owners) : Mono own own := fun _ _ _ h _ => h

theorem Mono.trans (h : Mono own own') (h' : Mono own' own'') : Mono own own'' :=
  fun p t r hp hr => h' p t r (h p t r hp hr) hr

theorem set_self : (own.set p t r).Page p t r := if_pos rfl

theorem set_of_ne {q : Nat} (hq : q ≠ p) : (own.set p t r).Page q t' r' ↔ own.Page q t' r' := by
  show (if q = p then some ⟨t, r⟩ else own q) = some ⟨t', r'⟩ ↔ own q = some ⟨t', r'⟩
  rw [if_neg hq]

theorem page_set {q : Nat} :
    (own.set p t r).Page q t' r' ↔ (q = p ∧ t' = t ∧ r' = r) ∨ (q ≠ p ∧ own.Page q t' r') := by
  by_cases hq : q = p
  · subst hq
    constructor
    · intro h
      obtain ⟨rfl, rfl⟩ := h.unique set_self
      exact .inl ⟨rfl, rfl, rfl⟩
    · intro h
      cases h with
      | inl he =>
        obtain ⟨_, rfl, rfl⟩ := he
        exact set_self
      | inr hne => exact absurd rfl hne.1
  · rw [set_of_ne hq]
    exact ⟨fun h => .inr ⟨hq, h⟩, fun h => (h.resolve_left fun he => hq he.1).2⟩

theorem obj_set (hy : 4 ≤ y) : (own.set (y - 4) t r).Obj x t' r' ↔
    (x = y ∧ t' = t ∧ r' = r) ∨ (x ≠ y ∧ own.Obj x t' r') := by
  constructor
  · intro ⟨h4, hx⟩
    cases page_set.mp hx with
    | inl he => exact .inl ⟨by omega, he.2⟩
    | inr hold => exact .inr ⟨fun e => hold.1 (by rw [e]), h4, hold.2⟩
  · intro hx
    cases hx with
    | inl he =>
      obtain ⟨rfl, rfl, rfl⟩ := he
      exact ⟨hy, set_self⟩
    | inr hold =>
      have h4 := hold.2.1
      exact ⟨h4, (set_of_ne (by omega)).mpr hold.2.2⟩

/-- a loose page that gets the role `r` gets no other -/
theorem page_set_of_loose {b : Bool} {q : Nat} (hp : own.Page p t (.loose b))
    (hr : r'.isLoose = false) (hne : r' ≠ r) : (own.set p t r).Page q t' r' ↔ own.Page q t' r' := by
  rw [page_set]
  constructor
  · intro hx
    exact (hx.resolve_left fun he => hne he.2.2).2
  · intro hx
    refine .inr ⟨fun e => ?_, hx⟩
    rw [e] at hx
    rw [(hx.unique hp).2] at hr
    exact nomatch hr

/-- nothing that is in use changes hands when a page is taken that is not -/
theorem mono_set (hp : ∀ t r, own.Page p t r → r.isLoose = true) : Mono own (own.set p t r) := by
  intro q t' r' hq hr
  refine page_set.mpr (.inr ⟨fun e => ?_, hq⟩)
  subst e
  rw [hp t' r' hq] at hr
  exact nomatch hr

theorem agree_set_loose {b : Bool} (hp : ∀ t r, own.Page p t r → r.isLoose = true) :
    Agree own (own.set p t (.loose b)) t' := by
  intro q r' hr
  refine ⟨fun h => ?_, fun h => mono_set hp q t' r' h hr⟩
  cases page_set.mp h with
  | inl he =>
    rw [he.2.2] at hr
    exact nomatch hr
  | inr hold => exact hold.2

end Owners

/-! ## the parts of the invariant -/

/-- what is owned is outstanding -/
structure Held (h : Heap) (own : Owners) : Prop where
  ok : h.mm.Ok
  out : ∀ p t r, own.Page p t r → pageAt p ∈ h.mm.out
  head : ∀ p t r, own.Page p t r → r.object = true → load 4 h.mm.mem p = 0
  live : ∀ p t r, own.Page p t r → r.isLoose = false → t ∈ h.live
  blocks : ∀ b ∈ h.blocks, 4 ≤ b ∧ pageAt (b - 4) ∈ h.mm.out ∧
    ∀ t r, own.Page (b - 4) t r → r.object = true
  nodup : h.blocks.Nodup ∧ h.live.Nodup

/-- the blocks that a task consists of -/
structure Static (h : Heap) (own : Owners) (t : Nat) : Prop where
  task : own.Obj t t .task
  sched : own.Obj (h.task t).sched t .sched
  stack : own.Page (h.task t).kernelStack t .stack

/-- the page table of a task: a leaf for user code leads to a page of the task that may be mapped
there, the others are those of the kernel -/
structure Maps (mm : Mm) (own : Owners) (t root : Nat) : Prop where
  wf : WellFormed mm root
  tables : ∀ s ∈ tables mm.mem 2 root, own.Page s t .table
  user : ∀ x < 2 ^ 39, ∀ tr, walk mm.mem 2 root x = some tr → tr.flags &&& pteUser ≠ 0 →
    ∃ p m, own.Page p t (.user m (x / pageSize)) ∧ tr.pa = PA p + x % pageSize
  kern : ∀ x < 2 ^ 39, ∀ tr, walk mm.mem 2 root x = some tr → tr.flags &&& pteUser = 0 →
    kernelMap x = some tr

/-- the lists of a task stay among its nodes; nodes, areas and pages belong together -/
structure Areas (L : Lists) (own : Owners) (t : Nat) : Prop where
  vm : L.Closed (fun n => own.Obj n t .vnode) (.vmAreas t)
  area : ∀ n a, own.Obj a t (.area n) ↔ own.Obj n t .vnode ∧ (L.node n).value = a
  pages : ∀ a n, own.Obj a t (.area n) → L.Closed (fun m => own.Obj m t (.pnode a)) (.pages a)
  page : ∀ m p, (∃ v, own.Page p t (.user m v)) ↔ (∃ a, own.Obj m t (.pnode a)) ∧ (L.node m).value = p
  parent : ∀ a m, own.Obj m t (.pnode a) → ∃ n, own.Obj a t (.area n)

/-- the lists of sched nodes; a node that is in none of them leads nowhere -/
structure Queues (h : Heap) (q : TaskList → List Nat) : Prop where
  queue : ∀ g, h.lists.Queue (.queue g) (q g)
  sched : ∀ g, ∀ n ∈ q g, ∃ t ∈ h.live, n = (h.task t).sched
  value : ∀ t ∈ h.live, (h.node (h.task t).sched).value = t
  detached : ∀ t ∈ h.live, (∀ g, (h.task t).sched ∉ q g) →
    (h.node (h.task t).sched).next = 0 ∧ (h.node (h.task t).sched).list = none

/-- vm_area_check_alignment accepts the areas of a task -/
def PageAligned (h : Heap) (own : Owners) (t : Nat) : Prop :=
  ∀ a n, own.Obj a t (.area n) → pageSize ∣ (h.area a).va

structure World (h : Heap) (own : Owners) (q : TaskList → List Nat) : Prop where
  held : Held h own
  pids : ∀ t ∈ h.live, 0 < (h.task t).pid ∧ (h.task t).pid < h.nextTaskId
  aligned : ∀ t, PageAligned h own t
  static : ∀ t ∈ h.live, Static h own t
  maps : ∀ t ∈ h.live, Maps h.mm own t (h.task t).pageTable
  areas : ∀ t ∈ h.live, Areas h.lists own t
  queues : Queues h q

variable {h h' : Heap} {own own' : Owners} {q : TaskList → List Nat} {a a' : Mm} {W : Set Nat}
  {N : List Nat} {t root : Nat} {L L' : Lists}

/-! ## frames -/

theorem Held.kept (hh : Held h own) {p t : Nat} {r : Role} (hp : own.Page p t r) :
    h.mm.KeptPage p := .of_mem (hh.out p t r hp)

theorem Held.page (hh : Held h own) {p t : Nat} {r : Role} (hp : own.Page p t r) : pageSize ∣ p :=
  hh.ok.page (hh.out p t r hp)

/-- a page that was just handed out is nobody's -/
theorem Held.not_new (hh : Held h own) (hx : Extends h.mm a W N) {p t : Nat} {r : Role}
    (hp : own.Page p t r) : p ∉ N := hx.not_new (hh.kept hp)

theorem Maps.congr (hm : Maps a own t root) (ha : own.Agree own' t) (hx : Extends a a' W N)
    (hW : ∀ s ∈ W, ¬ own.Page s t .table) : Maps a' own' t root := by
  obtain ⟨hw, hwalk, htab⟩ := hm.wf.extends hx fun s hs hsW => hW s hsW (hm.tables s hs)
  refine ⟨hw, fun s hs => ?_, fun x hx tr htr hu => ?_, fun x hx tr htr hu => ?_⟩
  · rw [htab] at hs
    exact (ha s .table rfl).mpr (hm.tables s hs)
  · rw [hwalk] at htr
    obtain ⟨p, m, hp, hpa⟩ := hm.user x hx tr htr hu
    exact ⟨p, m, (ha p _ rfl).mpr hp, hpa⟩
  · rw [hwalk] at htr
    exact hm.kern x hx tr htr hu

theorem Lists.Closed.congr {P P' : Nat → Prop} {r : ListRef} (hc : L.Closed P r)
    (hP : ∀ n, P' n ↔ P n) (hr : L'.list r = L.list r)
    (hn : ∀ n, P n → (L'.node n).next = (L.node n).next ∧ (L'.node n).prev = (L.node n).prev) :
    L'.Closed P' r where
  first := by
    rw [hr, hP]
    exact hc.first
  last := by
    rw [hr, hP]
    exact hc.last
  next := fun n hPn => by
    have hPn := (hP n).mp hPn
    rw [(hn n hPn).1, hP]
    exact hc.next n hPn
  prev := fun n hPn => by
    have hPn := (hP n).mp hPn
    rw [(hn n hPn).2, hP]
    exact hc.prev n hPn

/-- `L'` differs from `L` on nothing that belongs to the lists of `t` -/
structure SameLinks (L L' : Lists) (own : Owners) (t : Nat) : Prop where
  node : ∀ n r, own.Obj n t r → r.isLink = true → L'.node n = L.node n
  vm : L'.list (.vmAreas t) = L.list (.vmAreas t)
  pages : ∀ a n, own.Obj a t (.area n) → L'.list (.pages a) = L.list (.pages a)

theorem SameLinks.refl (L : Lists) (own : Owners) (t : Nat) : SameLinks L L own t :=
  ⟨fun _ _ _ _ => rfl, rfl, fun _ _ _ => rfl⟩

theorem Areas.congr (hA : Areas L own t) (ha : own.AgreeListed own' t) (hL : SameLinks L L' own t) :
    Areas L' own' t where
  vm := hA.vm.congr (fun n => ha.obj rfl) hL.vm fun n hn => by
    rw [hL.node n .vnode hn rfl]
    exact ⟨rfl, rfl⟩
  area := fun n a => by
    rw [ha.obj rfl, ha.obj rfl, hA.area n a]
    refine and_congr_right fun hn => ?_
    rw [hL.node n .vnode hn rfl]
  pages := fun a n han => by
    have han := (ha.obj rfl).mp han
    refine (hA.pages a n han).congr (fun m => ha.obj rfl) (hL.pages a n han) fun m hm => ?_
    rw [hL.node m (.pnode a) hm rfl]
    exact ⟨rfl, rfl⟩
  page := fun m p => by
    have huser : (∃ v, own'.Page p t (.user m v)) ↔ ∃ v, own.Page p t (.user m v) :=
      exists_congr fun v => ha p _ rfl
    have hnode : (∃ a, own'.Obj m t (.pnode a)) ↔ ∃ a, own.Obj m t (.pnode a) :=
      exists_congr fun a => ha.obj rfl
    rw [huser, hnode, hA.page m p]
    refine and_congr_right fun ⟨a, hm⟩ => ?_
    rw [hL.node m (.pnode a) hm rfl]
  parent := fun a m hm => by
    obtain ⟨n, hn⟩ := hA.parent a m ((ha.obj rfl).mp hm)
    exact ⟨n, (ha.obj rfl).mpr hn⟩

/-- the fields that say which task it is and which blocks belong to it -/
def SameBlocks (x y : Task) : Prop :=
  y.sched = x.sched ∧ y.kernelStack = x.kernelStack ∧ y.pageTable = x.pageTable ∧ y.pid = x.pid

theorem Static.congr (hs : Static h own t) (hm : own.Mono own')
    (htask : SameBlocks (h.task t) (h'.task t)) : Static h' own' t where
  task := hm.obj hs.task rfl
  sched := by
    rw [htask.1]
    exact hm.obj hs.sched rfl
  stack := by
    rw [htask.2.1]
    exact hm _ _ _ hs.stack rfl

/-- nothing of the queues has changed -/
theorem Queues.congr (hQ : Queues h q) (hlive : h'.live = h.live)
    (htask : ∀ t ∈ h.live, SameBlocks (h.task t) (h'.task t))
    (hnode : ∀ t ∈ h.live, h'.node (h.task t).sched = h.node (h.task t).sched)
    (hlist : ∀ g, h'.lists.list (.queue g) = h.lists.list (.queue g)) : Queues h' q where
  queue := fun g => (hQ.queue g).congr (hlist g) fun n hn => by
    obtain ⟨t, ht, rfl⟩ := hQ.sched g n hn
    have he : h'.lists.node (h.task t).sched = h.lists.node (h.task t).sched := hnode t ht
    rw [he]
    exact ⟨rfl, rfl⟩
  sched := fun g n hn => by
    obtain ⟨t, ht, rfl⟩ := hQ.sched g n hn
    exact ⟨t, hlive ▸ ht, (htask t ht).1.symm⟩
  value := fun t ht => by
    rw [hlive] at ht
    rw [(htask t ht).1, hnode t ht]
    exact hQ.value t ht
  detached := fun t ht hnot => by
    rw [hlive] at ht
    rw [(htask t ht).1] at hnot ⊢
    rw [hnode t ht]
    exact hQ.detached t ht hnot

end FakeKernel
