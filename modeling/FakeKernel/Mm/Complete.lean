import FakeKernel.Mm.Kmalloc

/-!
# alloc_pages finds every free run, and free_pages undoes it (kernel/mm.c)

* `exists_freeRun_iff`    an aligned run of free pages lies in one free area;
* `alloc_pages_complete`  alloc_pages panics only when there is no such run, and otherwise takes one;
* `free_splitDown`        freeing merges the halves that the allocation split off;
* `free_undoes_alloc`     so free_pages and kfree put the lists back as they were.
-/

namespace FakeKernel
open Bytes Dyadic

variable {F G : FreeLists} {out : List Page} {a a' : Mm} {p : Page} {order n k b x : Nat} {rest : List Nat}

/-! ## free runs -/

/-- an aligned run of `PAGE_SIZE << order` bytes, all of its pages free -/
def FreeRun (F : FreeLists) (order x : Nat) : Prop :=
  pageSize <<< order ∣ x ∧ ∀ y, pageSize ∣ y → x ≤ y → y < x + pageSize <<< order → y ∈ freePageSet F

theorem freePageSet_congr (h : ∀ k, k < maxOrder → F k = G k) : freePageSet F = freePageSet G := by
  unfold freePageSet
  rw [freeAreas_congr h]

theorem freeRun_congr (h : ∀ k, k < maxOrder → F k = G k) : FreeRun F order x ↔ FreeRun G order x := by
  unfold FreeRun
  rw [freePageSet_congr h]

/-- the pages of a free run are the bytes of its cell -/
theorem FreeRun.subset_cover (h : a.Inv F) (hr : FreeRun F order x) : cell (12 + order) x ⊆ cover (cells F) := by
  intro y hy
  rw [mem_cover, h.mem_union_iff]
  obtain ⟨hdvd, hpages⟩ := hr
  rw [pageSize_shiftLeft] at hdvd hpages
  have hx : pageSize ∣ x := Nat.dvd_trans (pageSize_dvd_two_pow order) hdvd
  have hmem : y / pageSize * pageSize ∈ Page.bytes ⟨x, order⟩ := by
    rw [page_mem_bytes (p := ⟨x, order⟩) hx, Page.bytes_eq]
    exact hy
  rw [Page.bytes_eq] at hmem
  exact hpages _ (Nat.dvd_mul_left _ _) hmem.1 hmem.2

/-- a free area of an order holds runs of every smaller order -/
theorem freeRun_of_mem (h : a.Inv F) (hb : b ∈ F k) (hle : order ≤ k) : FreeRun F order b := by
  have hlt := h.layout.order_lt hb
  have hpow : 2 ^ (12 + order) ≤ 2 ^ (12 + k) := Nat.pow_le_pow_right (by decide) (by omega)
  refine ⟨?_, fun y hy h1 h2 => ⟨hy, ⟨b, k⟩, mem_freeAreas.mpr ⟨hlt, hb⟩, ?_⟩⟩
  · rw [pageSize_shiftLeft]
    exact Nat.dvd_trans (pow_dvd_pow 2 (by omega)) (h.layout.aligned hb)
  · rw [pageSize_shiftLeft] at h2
    rw [Page.bytes_eq]
    exact ⟨h1, Nat.lt_of_lt_of_le h2 (Nat.add_le_add_left hpow b)⟩

/-- **Complete coalescing at work.**  There is a run of an order exactly when there is an area of
that order or a larger one. -/
theorem exists_freeRun_iff (h : a.Inv F) (ho : order < maxOrder) :
    (∃ x, FreeRun F order x) ↔ ∃ k, order ≤ k ∧ F k ≠ [] := by
  constructor
  · rintro ⟨x, hx⟩
    have hdvd : 2 ^ (12 + order) ∣ x := by
      rw [← pageSize_shiftLeft]
      exact hx.1
    obtain ⟨j, b, hj, hb, _⟩ := (reduced h.noBuddies h.layout).exists_member (by omega) (by omega) hdvd
      (hx.subset_cover h)
    obtain ⟨i, rfl⟩ := Nat.exists_eq_add_of_le (show 12 ≤ j by omega)
    exact ⟨i, by omega, List.ne_nil_of_mem (mem_cells.mp hb)⟩
  · rintro ⟨k, hk, hne⟩
    obtain ⟨b, hb⟩ := List.exists_mem_of_ne_nil _ hne
    exact ⟨b, freeRun_of_mem h hb hk⟩

/-- a block that joins the outstanding ones takes its pages from the free ones -/
theorem freePageSet_taken (L : Layout F out) (L' : Layout G (p :: out)) :
    freePageSet G = freePageSet F \ p.bytes := by
  rw [freePageSet_eq L, freePageSet_eq L']
  ext x
  constructor
  · rintro ⟨hpage, huse, hout⟩
    exact ⟨⟨hpage, huse, fun q hq => hout q (List.mem_cons_of_mem p hq)⟩, hout p List.mem_cons_self⟩
  · rintro ⟨⟨hpage, huse, hout⟩, hp⟩
    refine ⟨hpage, huse, fun q hq => ?_⟩
    cases List.mem_cons.mp hq with
    | inl hqp => rwa [hqp]
    | inr hold => exact hout q hold

/-- such a block is a free run -/
theorem freeRun_taken (L : Layout F out) (L' : Layout G (p :: out)) : FreeRun F p.order p.address := by
  have hin : p ∈ tiles G (p :: out) := .inr List.mem_cons_self
  refine ⟨?_, fun y hy h1 h2 => ?_⟩
  · rw [pageSize_shiftLeft]
    exact L'.tiling.aligned hin
  · have hyp : y ∈ p.bytes := ⟨h1, h2⟩
    rw [freePageSet_eq L]
    refine ⟨hy, L'.bytes_usable hin hyp, fun q hq => ?_⟩
    have hne : p ≠ q := fun e => (List.nodup_cons.mp L'.outNodup).1 (e ▸ hq)
    exact Set.disjoint_left.mp (L'.tiling.disjoint hin (.inr (List.mem_cons_of_mem p hq)) hne) hyp

/-- the area that an allocation takes apart contains the block that it returns -/
structure SplitFrom (F : FreeLists) (p : Page) (k b : Nat) : Prop where
  free : b ∈ F k
  inside : p.bytes ⊆ Page.bytes ⟨b, k⟩
  sufficient : p.order ≤ k
  smallest : ∀ j, p.order ≤ j → j < k → F j = []

theorem FreeLists.Source.splitFrom (h : F.Source order n b rest) : SplitFrom F ⟨b, order⟩ (order + n) b where
  free := h.head ▸ List.mem_cons_self
  inside := by
    rw [Page.bytes_eq, Page.bytes_eq, cell_subset_iff]
    have hpow : 2 ^ (12 + order) ≤ 2 ^ (12 + (order + n)) := Nat.pow_le_pow_right (by decide) (by omega)
    exact ⟨Nat.le_refl b, Nat.add_le_add_left hpow b⟩
  sufficient := Nat.le_add_right order n
  smallest := h.empty

/-! ## the lists after an allocation and after the free -/

theorem Page.parent_lower {k b : Nat} (hb : 2 ^ (12 + (k + 1)) ∣ b) : Page.parent ⟨b, k⟩ = ⟨b, k + 1⟩ := by
  have hparent : Dyadic.parent (12 + k) b = b := Dyadic.parent_lower hb
  show (⟨Dyadic.parent (12 + k) b, k + 1⟩ : Page) = ⟨b, k + 1⟩
  rw [hparent]

/-- free_pages finds the half that split_area put on the list and goes on with the whole area -/
theorem FreeLists.free_half {m : Nat} (hk : k + 1 < maxOrder) (hb : 2 ^ (12 + (k + 1)) ∣ b) (hnil : F k = [])
    (hhead : F (k + 1) = b :: rest) :
    free (m + 1) ⟨b, k⟩ (take k (split k F)) = free m ⟨b, k + 1⟩ (take (k + 1) F) := by
  have hbuddy : (⟨b, k⟩ : Page).buddy.address = b + 2 ^ (12 + k) := buddy_lower hb
  have hlist : take k (split k F) k = [b + 2 ^ (12 + k)] := by
    show Function.update _ k _ k = _
    rw [Function.update_self, split_eq hhead, Function.update_self, hnil, List.tail_cons]
  have hne : k ≠ maxOrder - 1 := by omega
  show (if k = maxOrder - 1 then _ else if (⟨b, k⟩ : Page).buddy.address ∈ take k (split k F) k then _ else _) = _
  rw [if_neg hne, hbuddy, hlist, if_pos List.mem_cons_self, Page.parent_lower hb]
  congr 1
  funext j
  show Function.update (take k (split k F)) k ([b + 2 ^ (12 + k)].erase (b + 2 ^ (12 + k))) j = _
  rw [List.erase_cons_head]
  by_cases hj : j = k
  · subst hj
    rw [Function.update_self]
    show [] = Function.update F (j + 1) _ j
    rw [Function.update_of_ne (by omega), hnil]
  · rw [Function.update_of_ne hj]
    show Function.update (split k F) k _ j = Function.update F (k + 1) _ j
    rw [Function.update_of_ne hj, split_eq hhead, Function.update_of_ne hj, hhead, List.tail_cons]

/-- freeing merges the halves again, one order for each split -/
theorem FreeLists.free_splitDown {m : Nat} (L : Layout F out) (h : F.Source k n b rest) :
    free (n + m) ⟨b, k⟩ (take k (splitDown n k F)) = free m ⟨b, k + n⟩ (take (k + n) F) := by
  induction n generalizing F m rest with
  | zero =>
    rw [Nat.zero_add]
    rfl
  | succ n ih =>
    have hlt : k + n + 1 < maxOrder := h.lt
    have hhead : F (k + n + 1) = b :: rest := h.head
    have hnil : F (k + n) = [] := h.empty (k + n) (by omega) (by omega)
    have hal : 2 ^ (12 + (k + n + 1)) ∣ b := L.aligned (hhead ▸ List.mem_cons_self)
    have hsplit := split_eq hhead
    have hsource : (split (k + n) F).Source k n b [b + 2 ^ (12 + (k + n))] := by
      refine ⟨by omega, ?_, fun j hj hj' => ?_⟩
      · rw [hsplit, Function.update_self, hnil]
      · rw [hsplit, Function.update_of_ne (by omega), Function.update_of_ne (by omega)]
        exact h.empty j hj (by omega)
    have hstep := ih (m := m + 1) (L.split hhead) hsource
    rw [show n + 1 + m = n + (m + 1) by omega]
    show free (n + (m + 1)) ⟨b, k⟩ (take k (splitDown n k (split (k + n) F))) = _
    rw [hstep, free_half hlt hal hnil hhead]
    rfl

/-- the area goes back to the head of its list: its buddy is not free -/
theorem FreeLists.free_take {m : Nat} (h : NoBuddies F) (hk : k < maxOrder) (hhead : F k = b :: rest) :
    free (m + 1) ⟨b, k⟩ (take k F) = F := by
  have hback : put ⟨b, k⟩ (take k F) = F := by
    funext j
    show Function.update (take k F) k (b :: take k F k) j = F j
    by_cases hj : j = k
    · subst hj
      rw [Function.update_self, hhead]
      show b :: Function.update F j _ j = b :: rest
      rw [Function.update_self, hhead, List.tail_cons]
    · rw [Function.update_of_ne hj]
      exact Function.update_of_ne hj _ _
  show (if k = maxOrder - 1 then put ⟨b, k⟩ (take k F)
    else if (⟨b, k⟩ : Page).buddy.address ∈ take k F k then _ else put ⟨b, k⟩ (take k F)) = F
  rw [hback]
  by_cases htop : k = maxOrder - 1
  · rw [if_pos htop]
  · rw [if_neg htop, if_neg]
    intro hin
    have hrest : take k F k = rest := by
      show Function.update F k _ k = rest
      rw [Function.update_self, hhead, List.tail_cons]
    rw [hrest] at hin
    exact h k b (by omega) (hhead ▸ List.mem_cons_self) (hhead ▸ List.mem_cons_of_mem b hin)

theorem FreeLists.free_alloc (L : Layout F out) (h : NoBuddies F) (hs : F.Source order n b rest) :
    free maxOrder ⟨b, order⟩ (take order (splitDown n order F)) = F := by
  have hlt := hs.lt
  obtain ⟨m, hm⟩ := Nat.exists_eq_add_of_lt (show n < maxOrder by omega)
  rw [hm, show n + m + 1 = n + (m + 1) by omega, free_splitDown L hs]
  exact free_take h hs.lt hs.head

/-! ## the two operations -/

namespace Mm

/-- what an allocation that returns does: it takes apart the head of the first list that is not
empty, and freeing the block restores the lists -/
structure Took (a : Mm) (F : FreeLists) (p : Page) (a' : Mm) (G : FreeLists) : Prop where
  inv : a'.Inv G
  out : a'.out = p :: a.out
  split : ∃ k, SplitFrom F p k p.address
  undo : FreeLists.free maxOrder p G = F

theorem Inv.alloc (h : a.Inv F) (ho : order < maxOrder) :
    (a.allocPages order = .error (.panic "out of memory") ∧ ∀ k, order ≤ k → F k = []) ∨
      ∃ p a' G, a.allocPages order = .ok (p, a') ∧ p.order = order ∧ Took a F p a' G := by
  unfold allocPages
  rcases h.linked.allocPages_spec h.layout ho with ⟨n, b, rest, s', hs, hal, hl, _⟩ | ⟨hal, hnil⟩
  · right
    obtain ⟨L', rest', hhead⟩ := h.layout.splitDown hs.head
    rw [hal]
    exact ⟨⟨b, order⟩, _, _, rfl, rfl, ⟨L'.take hhead, hl, h.noBuddies.alloc h.layout hs⟩, rfl,
      ⟨order + n, hs.splitFrom⟩, FreeLists.free_alloc h.layout h.noBuddies hs⟩
  · left
    rw [hal]
    refine ⟨rfl, fun k hk => ?_⟩
    by_cases hlt : k < maxOrder
    · exact hnil k hk hlt
    · exact List.eq_nil_iff_forall_not_mem.mpr fun b hb => hlt (h.layout.order_lt hb)

theorem allocPages_order_lt (hrun : a.allocPages order = .ok (p, a')) : order < maxOrder := by
  by_contra hge
  unfold allocPages Buddy.allocPages at hrun
  rw [if_pos (Nat.le_of_not_lt hge)] at hrun
  exact nomatch hrun

theorem Inv.took (h : a.Inv F) (hrun : a.allocPages order = .ok (p, a')) :
    p.order = order ∧ ∃ G, Took a F p a' G := by
  rcases h.alloc (allocPages_order_lt hrun) with ⟨herr, _⟩ | ⟨q, a₁, G, hok, hq, ht⟩
  · rw [herr] at hrun
    exact nomatch hrun
  · rw [hok] at hrun
    cases hrun
    exact ⟨hq, G, ht⟩

/-- freeing the block at once, after its holder wrote to it -/
theorem Took.free (ht : Took a F p a' G) {m : Mem} (hm : ∀ x, x ∉ p.bytes → m x = a'.mem x) :
    ∃ a'', (a'.setMem m).freePages p = .ok a'' ∧ Linked a''.buddy F ∧ a''.out = a.out := by
  have hp : p ∈ (a'.setMem m).out := by
    show p ∈ a'.out
    rw [ht.out]
    exact List.mem_cons_self
  have hinv : (a'.setMem m).Inv G := ht.inv.setMem_step fun x hx => hm x fun hxp => hx (.of_mem hp hxp)
  obtain ⟨s', hrun, hlinked, _⟩ := hinv.linked.freePagesAt_spec hinv.layout hp (Nat.le_add_left maxOrder _)
  rw [ht.undo] at hlinked
  refine ⟨{ buddy := s', out := (a'.setMem m).out.erase p }, ?_, hlinked, ?_⟩
  · unfold freePages Buddy.freePages
    rw [hrun]
    rfl
  · show a'.out.erase p = a.out
    rw [ht.out, List.erase_cons_head]

end Mm

/-- **alloc_pages is complete and exact.**  In every reachable state it panics exactly when no aligned
run of free pages is left; otherwise it returns such a run, split from an area of the smallest
sufficient order, and exactly its pages are no longer free. -/
theorem alloc_pages_complete (h : a.Reachable) (hF : Linked a.buddy F) (ho : order < maxOrder) :
    (a.allocPages order = .error (.panic "out of memory") ↔ ¬ ∃ x, FreeRun F order x) ∧
    ((∃ x, FreeRun F order x) → ∃ p a' G, a.allocPages order = .ok (p, a') ∧ Linked a'.buddy G ∧
      p.order = order ∧ p.size ∣ p.address ∧ FreeRun F order p.address ∧ (∃ k b, SplitFrom F p k b) ∧
      freePageSet G = freePageSet F \ p.bytes) := by
  obtain ⟨F', hinv⟩ := Mm.reachable_inv h
  have heq : ∀ k, k < maxOrder → F' k = F k := fun k hk => hinv.linked.unique hF hk
  have hrun : ∀ x, FreeRun F' order x ↔ FreeRun F order x := fun x => freeRun_congr heq
  simp only [← hrun, ← freePageSet_congr heq]
  rcases hinv.alloc ho with ⟨herr, hnil⟩ | ⟨p, a', G, hok, hp, ht⟩
  · have hnone : ¬ ∃ x, FreeRun F' order x := by
      rw [exists_freeRun_iff hinv ho]
      rintro ⟨k, hk, hne⟩
      exact hne (hnil k hk)
    exact ⟨iff_of_true herr hnone, fun hx => absurd hx hnone⟩
  · have L' := ht.inv.layout
    rw [ht.out] at L'
    have hsome : FreeRun F' order p.address := hp ▸ freeRun_taken hinv.layout L'
    have hsize : p.size ∣ p.address := by
      unfold Page.size
      rw [hp]
      exact hsome.1
    obtain ⟨k, hk⟩ := ht.split
    have hlt : k < maxOrder := hinv.layout.order_lt hk.free
    refine ⟨iff_of_false (fun herr => ?_) (fun hnone => hnone ⟨_, hsome⟩), fun _ => ?_⟩
    · rw [hok] at herr
      exact nomatch herr
    · refine ⟨p, a', G, hok, ht.inv.linked, hp, hsize, hsome, ⟨k, p.address, ?_⟩, freePageSet_taken hinv.layout L'⟩
      refine ⟨heq k hlt ▸ hk.free, hk.inside, hk.sufficient, fun j hj hjk => ?_⟩
      rw [← heq j (by omega)]
      exact hk.smallest j hj hjk

/-- right after initialisation eight pages can be allocated at once -/
theorem alloc_pages_complete_init : ∃ p a' G, (Mm.init fun _ => 0).allocPages 3 = .ok (p, a') ∧ Linked a'.buddy G ∧
    p.order = 3 ∧ p.size ∣ p.address ∧ FreeRun initLists 3 p.address ∧ (∃ k b, SplitFrom initLists p k b) ∧
    freePageSet G = freePageSet initLists \ p.bytes :=
  (alloc_pages_complete (Mm.reachable_init fun _ => 0) (pageAllocatorInit_linked fun _ => 0) (show 3 < maxOrder by decide)).2
    ⟨_, freeRun_of_mem (Mm.init_inv fun _ => 0) (mem_initLists.mpr (.inl ⟨rfl, rfl⟩)) (by decide)⟩

/-- **Freeing undoes allocating.**  A block that alloc_pages returned and that is freed at once, or
a buffer of kmalloc whose holder wrote anything behind its header, goes back to where it came from:
every list is what it was, in the same order. -/
theorem free_undoes_alloc (h : a.Reachable) (hF : Linked a.buddy F) :
    (∀ order p a', a.allocPages order = .ok (p, a') →
      ∃ a'', a'.freePages p = .ok a'' ∧ Linked a''.buddy F ∧ a''.out = a.out) ∧
    (∀ size buf a', a.kmalloc size = .ok (buf, a') → ∃ p, a'.out = p :: a.out ∧ buf = p.address + 4 ∧
      ∀ m : Mem, (∀ x, x ∉ p.bytes ∨ x < buf → m x = a'.mem x) →
        ∃ a'', (a'.setMem m).kfree buf = .ok a'' ∧ Linked a''.buddy F ∧ a''.out = a.out) := by
  obtain ⟨F', hinv⟩ := Mm.reachable_inv h
  have hlinked : ∀ {s : Buddy}, Linked s F' → Linked s F := fun hs k hk => by
    rw [← hinv.linked.unique hF hk]
    exact hs k hk
  constructor
  · intro order p a' hrun
    obtain ⟨_, G, ht⟩ := hinv.took hrun
    obtain ⟨a'', hfree, hl, hout⟩ := ht.free (m := a'.mem) fun _ _ => rfl
    exact ⟨a'', hfree, hlinked hl, hout⟩
  · intro size buf a' hrun
    obtain ⟨⟨p, a₁⟩, halloc, hret⟩ := Res.bind_eq_ok.mp hrun
    obtain ⟨hp, G, ht⟩ := hinv.took halloc
    cases hret
    have horder : p.order < 2 ^ 32 := by
      have hlt := Mm.allocPages_order_lt halloc
      rw [← hp] at hlt
      exact Nat.lt_of_lt_of_le hlt (by decide)
    have hhead : ∀ y, p.address ≤ y → y < p.address + 4 → y ∈ p.bytes := fun y h1 h2 =>
      Mm.page_bytes_le h1 (by unfold pageSize; omega)
    refine ⟨p, ht.out, rfl, fun m hm => ?_⟩
    have hload : load 4 m p.address = p.order := by
      rw [load_congr fun y h1 h2 => hm y (.inr h2)]
      show load 4 (store 4 a₁.mem p.address _) p.address = p.order
      rw [← hp]
      exact load_store_lt horder
    obtain ⟨a'', hfree, hl, hout⟩ := ht.free (m := m) fun x hx => by
      rw [hm x (.inl hx)]
      show store 4 a₁.mem p.address _ x = a₁.mem x
      apply store_apply_out
      by_contra hin
      exact hx (hhead x (by omega) (by omega))
    refine ⟨a'', ?_, hlinked hl, hout⟩
    show Mm.freePages { address := p.address + 4 - 4, order := load 4 m (p.address + 4 - 4) } _ = _
    rw [Nat.add_sub_cancel, hload]
    exact hfree

theorem free_undoes_alloc_init : ∃ p a' a'', (Mm.init fun _ => 0).allocPages 3 = .ok (p, a') ∧
    a'.freePages p = .ok a'' ∧ Linked a''.buddy initLists := by
  have hinit := pageAllocatorInit_linked fun _ => 0
  rcases (Mm.init_inv fun _ => 0).alloc (show 3 < maxOrder by decide) with ⟨_, hnil⟩ | ⟨p, a', _, hrun, _⟩
  · exact absurd (hnil 8 (by decide)) (List.cons_ne_nil _ _)
  · obtain ⟨a'', hfree, hl, _⟩ := (free_undoes_alloc (Mm.reachable_init fun _ => 0) hinit).1 3 p a' hrun
    exact ⟨p, a', a'', hrun, hfree, hl⟩

end FakeKernel
