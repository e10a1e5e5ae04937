import FakeKernel.Mm.Runs

/-!
# kmalloc, and what the clients of the allocator rely on (kernel/mm.c)

kmalloc takes a whole block and keeps its order in the first four bytes; kfree reads it back.
The rest of the kernel sees the allocator through four facts, which do not mention free lists:

* `Ok.alloc`    a block that is handed out is fresh and nothing outstanding changes;
* `Ok.free`     an outstanding block can be freed and nothing else changes;
* `Ok.setMem`   the clients may change every byte that is not free;
* `Ok.kmalloc`, `Ok.kfree`.

`Extends a a' W N` sums up a sequence of such steps: the pages `N` were handed out, and of the bytes
that were kept only those of the pages `W` may have changed.
-/

namespace FakeKernel
open Bytes

namespace Mm

/-- the loop of kmalloc; `pages` is a 64-bit number -/
def kmallocOrder : Nat → Nat → Nat → Nat
  | 0, order, _ => order
  | n + 1, order, pages => if 1 < pages then kmallocOrder n (order + 1) (pages / 2) else order

def kmalloc (size : Nat) (a : Mm) : Res (Nat × Mm) := do
  let pages := (size + pageSize - 1 + 4) % wordCount / pageSize
  let order := kmallocOrder 64 0 pages
  let (page, a) ← a.allocPages order
  .ok (page.address + 4, a.setMem (store 4 a.mem page.address order))

def kfree (buf : Nat) (a : Mm) : Res Mm :=
  let page := buf - 4
  a.freePages { address := page, order := load 4 a.mem page }

/-! ## the clients' view -/

def Ok (a : Mm) : Prop := ∃ F, a.Inv F

/-- `p` was handed out by a step from `a` to `a'` -/
structure Allocated (a : Mm) (p : Page) (a' : Mm) : Prop where
  ok : a'.Ok
  out : a'.out = p :: a.out
  frame : ∀ x, a.Kept x → a'.mem x = a.mem x
  fresh : ∀ x ∈ p.bytes, ¬ a.Kept x
  usable : p.bytes ⊆ usable
  page : pageSize ∣ p.address

/-- `p` was taken back by a step from `a` to `a'` -/
structure Freed (a : Mm) (p : Page) (a' : Mm) : Prop where
  ok : a'.Ok
  out : a'.out = a.out.erase p
  frame : ∀ x, a'.Kept x → a'.mem x = a.mem x

variable {a a' : Mm} {p q : Page} {x : Nat}

theorem init_ok (m : Mem) : (init m).Ok := ⟨initLists, init_inv m⟩

theorem Ok.setMem (h : a.Ok) {m : Mem} (hm : ∀ x, ¬ a.Kept x → m x = a.mem x) :
    (a.setMem m).Ok := by
  obtain ⟨F, hF⟩ := h
  exact ⟨F, hF.setMem_step hm⟩

theorem Ok.disjoint (h : a.Ok) (hp : p ∈ a.out) (hq : q ∈ a.out) (hne : p ≠ q) :
    Disjoint p.bytes q.bytes := by
  obtain ⟨F, hF⟩ := h
  exact hF.layout.tiling.disjoint (.inr hp) (.inr hq) hne

theorem Ok.nodup (h : a.Ok) : a.out.Nodup := by
  obtain ⟨F, hF⟩ := h
  exact hF.layout.outNodup

theorem Ok.page (h : a.Ok) (hp : p ∈ a.out) : pageSize ∣ p.address := by
  obtain ⟨F, hF⟩ := h
  exact hF.layout.tile_page (.inr hp)

theorem Ok.usable (h : a.Ok) (hp : p ∈ a.out) : p.bytes ⊆ usable := by
  obtain ⟨F, hF⟩ := h
  exact hF.layout.bytes_usable (.inr hp)

theorem Kept.of_mem (hp : p ∈ a.out) (hx : x ∈ p.bytes) : a.Kept x := .inr ⟨p, hp, hx⟩

theorem Allocated.mem (h : Allocated a p a') : p ∈ a'.out := by
  rw [h.out]
  exact List.mem_cons_self

theorem Allocated.mem_of_mem (h : Allocated a p a') (hq : q ∈ a.out) : q ∈ a'.out := by
  rw [h.out]
  exact List.mem_cons_of_mem p hq

theorem Allocated.kept (h : Allocated a p a') (hx : a.Kept x) : a'.Kept x := by
  cases hx with
  | inl hout => exact .inl hout
  | inr hin =>
    obtain ⟨q, hq, hxq⟩ := hin
    exact .inr ⟨q, h.mem_of_mem hq, hxq⟩

theorem Allocated.ne (h : Allocated a p a') (hq : q ∈ a.out) : q ≠ p := by
  intro e
  subst e
  exact h.fresh _ (Tiling.base_mem q) (.inr ⟨q, hq, Tiling.base_mem q⟩)

theorem Ok.alloc (h : a.Ok) {order : Nat} (ho : order < maxOrder)
    (hrun : a.allocPages order = .ok (p, a')) : p.order = order ∧ Allocated a p a' := by
  obtain ⟨F, hF⟩ := h
  obtain ⟨hok, hord, hout, hframe⟩ := alloc_step hF ho hrun
  have hok' : a'.Ok := hok
  have hp : p ∈ a'.out := by
    rw [hout]
    exact List.mem_cons_self
  have huse := hok'.usable hp
  refine ⟨hord, hok', hout, hframe, ?_, huse, hok'.page hp⟩
  intro x hx hkept
  cases hkept with
  | inl hnot => exact hnot (huse hx)
  | inr hin =>
    obtain ⟨q, hq, hxq⟩ := hin
    have hnd := hok'.nodup
    rw [hout] at hnd
    have hne : p ≠ q := fun e => (List.nodup_cons.mp hnd).1 (e ▸ hq)
    have hq' : q ∈ a'.out := by
      rw [hout]
      exact List.mem_cons_of_mem p hq
    exact Set.disjoint_left.mp (hok'.disjoint hp hq' hne) hx hxq

/-- as long as not every page is outstanding, one can be allocated -/
theorem Ok.alloc_succeeds (h : a.Ok) (hord : ∀ p ∈ a.out, p.order = 0)
    (hlen : a.out.length < pageCount) : ∃ p a', a.allocPages 0 = .ok (p, a') := by
  obtain ⟨F, hF⟩ := h
  exact hF.alloc_succeeds hord hlen

theorem Ok.free (h : a.Ok) (hp : p ∈ a.out) : ∃ a', a.freePages p = .ok a' ∧ Freed a p a' := by
  obtain ⟨F, hF⟩ := h
  obtain ⟨a', hrun, hok, hout, hframe⟩ := free_step hF hp
  exact ⟨a', hrun, hok, hout, hframe⟩

/-- free_pages writes the first eight bytes of pages only -/
theorem Ok.free_links (h : a.Ok) (hp : p ∈ a.out) (hrun : a.freePages p = .ok a') (hx : 8 ≤ x % pageSize) :
    a'.mem x = a.mem x := by
  obtain ⟨F, hF⟩ := h
  obtain ⟨b, hb, hret⟩ := Res.bind_eq_ok.mp hrun
  cases hret
  exact hF.linked.freePagesAt_links hF.layout hp hx hb

theorem Freed.mem_iff (h : Freed a p a') (hok : a.Ok) : q ∈ a'.out ↔ q ≠ p ∧ q ∈ a.out := by
  rw [h.out]
  exact hok.nodup.mem_erase_iff

/-- writing to a block that was just handed out -/
theorem Allocated.setMem (h : Allocated a p a') {m : Mem} (hm : ∀ x, x ∉ p.bytes → m x = a'.mem x) :
    Allocated a p (a'.setMem m) where
  ok := h.ok.setMem fun x hx => hm x fun hxp => hx (.of_mem h.mem hxp)
  out := h.out
  frame := fun x hx => by
    show m x = a.mem x
    rw [hm x fun hxp => h.fresh x hxp hx, h.frame x hx]
  fresh := h.fresh
  usable := h.usable
  page := h.page

theorem kmallocOrder_small {size : Nat} (hs : size ≤ 4092) :
    kmallocOrder 64 0 ((size + pageSize - 1 + 4) % wordCount / pageSize) = 0 := by
  have hle : (size + pageSize - 1 + 4) % wordCount / pageSize ≤ 1 := by
    unfold pageSize wordCount
    omega
  unfold kmallocOrder
  exact if_neg (Nat.not_lt.mpr hle)

/-- the block of an object that kmalloc returned -/
def kblock (buf : Nat) : Page := { address := buf - 4, order := 0 }

theorem page_bytes_le {x : Nat} (hx : p.address ≤ x) (hx' : x < p.address + pageSize) :
    x ∈ p.bytes := by
  have hle : pageSize ≤ p.size := by
    unfold Page.size
    rw [pageSize_shiftLeft, pow_add]
    exact Nat.le_mul_of_pos_right _ (Nat.two_pow_pos p.order)
  exact ⟨hx, by omega⟩

theorem Ok.kmalloc (h : a.Ok) {size buf : Nat} (hs : size ≤ 4092)
    (hrun : a.kmalloc size = .ok (buf, a')) :
    Allocated a (kblock buf) a' ∧ load 4 a'.mem (buf - 4) = 0 ∧ 4 ≤ buf := by
  unfold Mm.kmalloc at hrun
  simp only [kmallocOrder_small hs] at hrun
  obtain ⟨⟨p, a₁⟩, halloc, hret⟩ := Res.bind_eq_ok.mp hrun
  obtain ⟨hord, hp⟩ := h.alloc (by decide) halloc
  cases hret
  have hblock : kblock (p.address + 4) = p := by
    unfold kblock
    rw [Nat.add_sub_cancel, ← hord]
  rw [hblock, Nat.add_sub_cancel]
  refine ⟨hp.setMem fun x hx => ?_, ?_, Nat.le_add_left 4 _⟩
  · show store 4 a₁.mem p.address 0 x = a₁.mem x
    apply store_apply_out
    by_contra hin
    exact hx (page_bytes_le (by omega) (by unfold pageSize; omega))
  · exact load_store_lt (by decide)

theorem Ok.kmalloc_succeeds (h : a.Ok) (hord : ∀ p ∈ a.out, p.order = 0)
    (hlen : a.out.length < pageCount) {size : Nat} (hs : size ≤ 4092) :
    ∃ buf a', a.kmalloc size = .ok (buf, a') := by
  obtain ⟨p, a₁, halloc⟩ := h.alloc_succeeds hord hlen
  unfold Mm.kmalloc
  simp only [kmallocOrder_small hs, halloc, Res.ok_bind]
  exact ⟨_, _, rfl⟩

theorem Ok.kfree (h : a.Ok) {buf : Nat} (hp : kblock buf ∈ a.out)
    (hhead : load 4 a.mem (buf - 4) = 0) :
    ∃ a', a.kfree buf = .ok a' ∧ Freed a (kblock buf) a' := by
  show ∃ a', a.freePages { address := buf - 4, order := load 4 a.mem (buf - 4) } = _ ∧ _
  rw [hhead]
  exact h.free hp

/-! ## sequences of steps -/

def onPage (s x : Nat) : Prop := s ≤ x ∧ x < s + pageSize

def KeptPage (a : Mm) (s : Nat) : Prop := ∀ x, onPage s x → a.Kept x

/-- the block of order 0 at `s` -/
def pageAt (s : Nat) : Page := { address := s, order := 0 }

theorem pageAt_injective : Function.Injective pageAt := fun s t he => by
  cases he
  rfl

theorem mem_pageAt {s : Nat} : x ∈ (pageAt s).bytes ↔ onPage s x := by
  unfold Page.bytes Page.size pageAt onPage
  rw [pageSize_shiftLeft]
  exact Iff.rfl

theorem onPage_inj {s t : Nat} (hs : pageSize ∣ s) (ht : pageSize ∣ t) (h : onPage s x)
    (h' : onPage t x) : s = t := by
  obtain ⟨m, rfl⟩ := hs
  obtain ⟨n, rfl⟩ := ht
  unfold onPage pageSize at *
  omega

theorem onPage_self (s : Nat) : onPage s s := ⟨Nat.le_refl s, Nat.lt_add_of_pos_right (by decide)⟩

theorem KeptPage.of_mem {s : Nat} (h : pageAt s ∈ a.out) : a.KeptPage s :=
  fun _ hx => .of_mem h (mem_pageAt.mpr hx)

structure Extends (a a' : Mm) (W : Set Nat) (N : List Nat) : Prop where
  ok : a'.Ok
  out : a'.out = N.map pageAt ++ a.out
  pages : ∀ s ∈ W, pageSize ∣ s
  frame : ∀ x, a.Kept x → (∀ s ∈ W, ¬ onPage s x) → a'.mem x = a.mem x

namespace Extends
variable {a'' : Mm} {W W' : Set Nat} {N N' : List Nat} {s : Nat}

theorem refl (h : a.Ok) : Extends a a ∅ [] := ⟨h, rfl, nofun, fun _ _ _ => rfl⟩

theorem kept (h : Extends a a' W N) (hx : a.Kept x) : a'.Kept x := by
  cases hx with
  | inl hout => exact .inl hout
  | inr hin =>
    obtain ⟨q, hq, hxq⟩ := hin
    refine .inr ⟨q, ?_, hxq⟩
    rw [h.out]
    exact List.mem_append_right _ hq

theorem new_mem (h : Extends a a' W N) (hs : s ∈ N) : pageAt s ∈ a'.out := by
  rw [h.out]
  exact List.mem_append_left _ (List.mem_map_of_mem hs)

theorem old_mem (h : Extends a a' W N) (hq : q ∈ a.out) : q ∈ a'.out := by
  rw [h.out]
  exact List.mem_append_right _ hq

/-- the pages that were handed out are determined by the two states -/
theorem new_eq (h : Extends a a' W N) (h' : Extends a a' W' N') : N = N' :=
  List.map_injective_iff.mpr pageAt_injective (List.append_cancel_right (h.out.symm.trans h'.out))

theorem new_page (h : Extends a a' W N) (hs : s ∈ N) : pageSize ∣ s := h.ok.page (h.new_mem hs)

theorem new_usable (h : Extends a a' W N) (hs : s ∈ N) : s ∈ FakeKernel.usable :=
  h.ok.usable (h.new_mem hs) (Tiling.base_mem (pageAt s))

theorem new_kept (h : Extends a a' W N) (hs : s ∈ N) : a'.KeptPage s := .of_mem (h.new_mem hs)

/-- the pages that were handed out held nothing before -/
theorem fresh (h : Extends a a' W N) (hs : s ∈ N) (hx : onPage s x) : ¬ a.Kept x := by
  intro hk
  have hin := h.new_mem hs
  cases hk with
  | inl hout => exact hout (h.ok.usable hin (mem_pageAt.mpr hx))
  | inr hold =>
    obtain ⟨q, hq, hxq⟩ := hold
    have hnd := h.ok.nodup
    rw [h.out, List.nodup_append] at hnd
    have hne : pageAt s ≠ q := hnd.2.2 _ (List.mem_map_of_mem hs) q hq
    exact Set.disjoint_left.mp (h.ok.disjoint hin (h.old_mem hq) hne) (mem_pageAt.mpr hx) hxq

theorem keptPage (h : Extends a a' W N) (hs : a.KeptPage s) : a'.KeptPage s :=
  fun x hx => h.kept (hs x hx)

theorem not_new (h : Extends a a' W N) (hs : a.KeptPage s) : s ∉ N :=
  fun hn => h.fresh hn (onPage_self s) (hs s (onPage_self s))

/-- a page that was kept and is not in `W` has the same bytes -/
theorem same (h : Extends a a' W N) (hs : a.KeptPage s) (hp : pageSize ∣ s) (hW : s ∉ W)
    (hx : onPage s x) : a'.mem x = a.mem x := by
  refine h.frame x (hs x hx) fun t ht htx => hW ?_
  rwa [onPage_inj hp (h.pages t ht) hx htx]

theorem trans (h : Extends a a' W N) (h' : Extends a' a'' W' N')
    (hW : ∀ s ∈ W', s ∈ W ∨ s ∈ N) : Extends a a'' W (N' ++ N) where
  ok := h'.ok
  out := by rw [h'.out, h.out, List.map_append, List.append_assoc]
  pages := h.pages
  frame := fun x hx hout => by
    rw [h'.frame x (h.kept hx) ?_, h.frame x hx hout]
    intro s hs hxs
    cases hW s hs with
    | inl hin => exact hout s hin hxs
    | inr hin => exact h.fresh hin hxs hx

theorem mono (h : Extends a a' W N) (hW : W ⊆ W') (hp : ∀ s ∈ W', pageSize ∣ s) :
    Extends a a' W' N :=
  ⟨h.ok, h.out, hp, fun x hx hout => h.frame x hx fun s hs => hout s (hW hs)⟩

end Extends

theorem Allocated.extends (h : Allocated a p a') (h0 : p.order = 0) :
    Extends a a' ∅ [p.address] := by
  have hp : pageAt p.address = p := by
    unfold pageAt
    rw [← h0]
  refine ⟨h.ok, ?_, nofun, fun x hx _ => h.frame x hx⟩
  rw [h.out, List.map_singleton, hp]
  rfl

/-- the clients write to one page that is kept -/
theorem Ok.write_page (h : a.Ok) {s : Nat} {m : Mem} (hs : a.KeptPage s) (hp : pageSize ∣ s)
    (hm : ∀ x, ¬ onPage s x → m x = a.mem x) : Extends a (a.setMem m) {s} [] where
  ok := h.setMem fun x hx => hm x fun hxs => hx (hs x hxs)
  out := rfl
  pages := fun t ht => by rwa [Set.mem_singleton_iff.mp ht]
  frame := fun x _ hout => hm x (hout s rfl)

end Mm

end FakeKernel
