import FakeKernel.Mm.Complete
import Mathlib.Data.Nat.Log

/-!
# What fits into the blocks of kmalloc (kernel/mm.c)

kmalloc rounds the number of pages up and its binary logarithm down.

* `kmallocOrder_eq`    the order of the block is the logarithm of the number of pages;
* `kmalloc_block`      the buffer fits exactly when that number is a power of two;
* `Holds.step`         buffers that fit lie in blocks of their own, whatever their holders do;
* `kmalloc_enough`     the two together, over runs.
-/

namespace FakeKernel
open Bytes

/-- the pages that `size` bytes and the header take -/
def kmallocPages (size : Nat) : Nat := (size + pageSize - 1 + 4) / pageSize

variable {a a' : Mm} {size buf pages n order : Nat}

theorem kmallocOrder_eq (hn : pages < 2 ^ (n + 1)) (h0 : 0 < pages) :
    Mm.kmallocOrder n order pages = order + Nat.log 2 pages := by
  induction n generalizing order pages with
  | zero =>
    obtain rfl : pages = 1 := by omega
    rfl
  | succ n ih =>
    show (if 1 < pages then Mm.kmallocOrder n (order + 1) (pages / 2) else order) = _
    by_cases h1 : 1 < pages
    · have hhalf : pages / 2 < 2 ^ (n + 1) := by
        rw [pow_succ] at hn
        omega
      have hlog : Nat.log 2 pages = Nat.log 2 (pages / 2) + 1 := Nat.log_of_one_lt_of_le (by decide) h1
      rw [if_pos h1, ih hhalf (by omega), hlog]
      omega
    · obtain rfl : pages = 1 := by omega
      rfl

/-- for a size that is not negative the number of pages does not wrap -/
theorem kmalloc_order (hs : size < wordCount / 2) :
    Mm.kmallocOrder 64 0 ((size + pageSize - 1 + 4) % wordCount / pageSize) = Nat.log 2 (kmallocPages size) := by
  unfold kmallocPages
  unfold wordCount pageSize at *
  rw [Nat.mod_eq_of_lt (by omega), kmallocOrder_eq (by omega) (by omega), Nat.zero_add]

/-- the block is large enough exactly when no page was rounded away -/
theorem kmalloc_fits_iff : 4 + size ≤ pageSize <<< Nat.log 2 (kmallocPages size) ↔ ∃ k, kmallocPages size = 2 ^ k := by
  have hpages : 0 < kmallocPages size := by
    unfold kmallocPages pageSize
    omega
  have hlog : 2 ^ Nat.log 2 (kmallocPages size) ≤ kmallocPages size := Nat.pow_log_le_self 2 (by omega)
  have hsize : pageSize <<< Nat.log 2 (kmallocPages size) = 4096 * 2 ^ Nat.log 2 (kmallocPages size) := by
    rw [pageSize_shiftLeft, pow_add]
    rfl
  have hbytes : ∀ l, 4 + size ≤ 4096 * l ↔ kmallocPages size ≤ l := by
    intro l
    unfold kmallocPages pageSize
    omega
  rw [hsize, hbytes]
  constructor
  · exact fun hle => ⟨_, Nat.le_antisymm hle hlog⟩
  · rintro ⟨k, hk⟩
    rw [hk, Nat.log_pow (by decide)]

/-- the block of a call of kmalloc that returns -/
theorem kmalloc_block (hok : a.Ok) (hs : size < wordCount / 2) (hrun : a.kmalloc size = .ok (buf, a')) :
    ∃ p, buf = p.address + 4 ∧ p.order < maxOrder ∧ load 4 a'.mem p.address = p.order ∧ Mm.Allocated a p a' ∧
      (4 + size ≤ p.size ↔ ∃ k, kmallocPages size = 2 ^ k) := by
  unfold Mm.kmalloc at hrun
  simp only [kmalloc_order hs] at hrun
  obtain ⟨⟨p, a₁⟩, halloc, hret⟩ := Res.bind_eq_ok.mp hrun
  have hlt := Mm.allocPages_order_lt halloc
  obtain ⟨hord, hp⟩ := hok.alloc hlt halloc
  cases hret
  refine ⟨p, rfl, hord ▸ hlt, ?_, hp.setMem fun x hx => ?_, ?_⟩
  · show load 4 (store 4 a₁.mem p.address _) p.address = p.order
    rw [hord]
    exact load_store_lt (Nat.lt_of_lt_of_le hlt (by decide))
  · show store 4 a₁.mem p.address _ x = a₁.mem x
    apply store_apply_out
    by_contra hin
    exact hx (Mm.page_bytes_le (by omega) (by unfold pageSize; omega))
  · unfold Page.size
    rw [hord]
    exact kmalloc_fits_iff

/-! ## live buffers -/

/-- what kmalloc returned, with the size that was asked for -/
structure Buffer where
  address : Nat
  size : Nat
deriving DecidableEq

def Buffer.bytes (b : Buffer) : Set Nat := Set.Ico b.address (b.address + b.size)

/-- the allocator and the buffers that were not given back yet -/
structure Clients where
  mm : Mm
  live : List Buffer

namespace Clients

/-- one step of the clients, who ask for sizes in `sizes` and write to what they hold -/
inductive Step (sizes : Set Nat) : Clients → Clients → Prop
  | kmalloc {s : Clients} {size buf : Nat} {mm : Mm} (hs : size ∈ sizes)
      (h : s.mm.kmalloc size = .ok (buf, mm)) : Step sizes s ⟨mm, ⟨buf, size⟩ :: s.live⟩
  | kfree {s : Clients} {b : Buffer} {mm : Mm} (hb : b ∈ s.live) (h : s.mm.kfree b.address = .ok mm) :
      Step sizes s ⟨mm, s.live.erase b⟩
  | alloc {s : Clients} {order : Nat} {p : Page} {mm : Mm} (h : s.mm.allocPages order = .ok (p, mm)) :
      Step sizes s ⟨mm, s.live⟩
  | free {s : Clients} {p : Page} {mm : Mm} (hp : p ∈ s.mm.out) (hown : ∀ b ∈ s.live, b.address ≠ p.address + 4)
      (h : s.mm.freePages p = .ok mm) : Step sizes s ⟨mm, s.live⟩
  | write {s : Clients} {p : Page} {x : Nat} (v : UInt8) (hp : p ∈ s.mm.out)
      (hown : ∀ b ∈ s.live, b.address ≠ p.address + 4) (hx : x ∈ p.bytes) : Step sizes s ⟨s.mm.write x v, s.live⟩
  | fill {s : Clients} {b : Buffer} {x : Nat} (v : UInt8) (hb : b ∈ s.live) (hx : x ∈ b.bytes) :
      Step sizes s ⟨s.mm.write x v, s.live⟩

def Run (sizes : Set Nat) (s : Clients) : Prop := ∃ m, Relation.ReflTransGen (Step sizes) ⟨Mm.init m, []⟩ s

/-- the buffer `b` lies in the outstanding block `p`, behind its header -/
structure InBlock (mm : Mm) (b : Buffer) (p : Page) : Prop where
  out : p ∈ mm.out
  address : b.address = p.address + 4
  header : load 4 mm.mem p.address = p.order
  fits : 4 + b.size ≤ p.size

/-- every live buffer lies in a block of its own -/
structure Holds (s : Clients) : Prop where
  ok : s.mm.Ok
  block : ∀ b ∈ s.live, ∃ p, InBlock s.mm b p
  apart : (s.live.map Buffer.address).Nodup

variable {s s' : Clients} {b c : Buffer} {p q : Page} {mm mm' : Mm} {x : Nat} {sizes : Set Nat}

theorem InBlock.bytes (h : InBlock mm b p) : b.bytes ⊆ p.bytes := by
  intro x hx
  have hfits := h.fits
  have haddr := h.address
  obtain ⟨h1, h2⟩ : b.address ≤ x ∧ x < b.address + b.size := hx
  exact ⟨by omega, by omega⟩

/-- the header is not part of the buffer -/
theorem InBlock.behind (h : InBlock mm b p) (hx : x ∈ b.bytes) : p.address + 4 ≤ x := h.address ▸ hx.1

theorem header_bytes (hx : p.address ≤ x) (hx' : x < p.address + 4) : x ∈ p.bytes :=
  Mm.page_bytes_le hx (by unfold pageSize; omega)

/-- a step that keeps the block and the bytes of its header -/
theorem InBlock.keep (h : InBlock mm b p) (hout : p ∈ mm'.out)
    (hmem : ∀ x, p.address ≤ x → x < p.address + 4 → mm'.mem x = mm.mem x) : InBlock mm' b p :=
  ⟨hout, h.address, (load_congr hmem).trans h.header, h.fits⟩

theorem InBlock.allocated (h : InBlock mm b p) (hq : Mm.Allocated mm q mm') : InBlock mm' b p :=
  h.keep (hq.mem_of_mem h.out) fun x h1 h2 => hq.frame x (.of_mem h.out (header_bytes h1 h2))

theorem InBlock.freed (h : InBlock mm b p) (hok : mm.Ok) (hq : Mm.Freed mm q mm') (hne : p ≠ q) : InBlock mm' b p := by
  have hout : p ∈ mm'.out := (hq.mem_iff hok).mpr ⟨hne, h.out⟩
  exact h.keep hout fun x h1 h2 => hq.frame x (.of_mem hout (header_bytes h1 h2))

theorem InBlock.write (h : InBlock mm b p) (hx : ¬ (p.address ≤ x ∧ x < p.address + 4)) (v : UInt8) :
    InBlock (mm.write x v) b p := by
  refine h.keep h.out fun y h1 h2 => Function.update_of_ne ?_ _ _
  rintro rfl
  exact hx ⟨h1, h2⟩

theorem write_ok (h : mm.Ok) (hx : mm.Kept x) (v : UInt8) : (mm.write x v).Ok :=
  h.setMem fun y hy => Function.update_of_ne (fun (e : y = x) => hy (e ▸ hx)) _ _

/-- two outstanding blocks with a common byte are the same -/
theorem block_eq (hok : mm.Ok) (hp : p ∈ mm.out) (hq : q ∈ mm.out) (hx : x ∈ p.bytes) (hx' : x ∈ q.bytes) : p = q := by
  by_contra hne
  exact Set.disjoint_left.mp (hok.disjoint hp hq hne) hx hx'

theorem Holds.inj (h : Holds s) (hb : b ∈ s.live) (hc : c ∈ s.live) (he : b.address = c.address) : b = c :=
  List.inj_on_of_nodup_map h.apart hb hc he

/-- the block of another buffer, or of none, does not contain the header of `b` -/
theorem Holds.write_other (h : Holds s) (hb : b ∈ s.live) (hp : p ∈ s.mm.out) (hx : x ∈ p.bytes)
    (hne : b.address ≠ p.address + 4) (v : UInt8) : ∃ q, InBlock (s.mm.write x v) b q := by
  obtain ⟨q, hq⟩ := h.block b hb
  refine ⟨q, hq.write (fun hin => hne ?_) v⟩
  rw [block_eq h.ok hp hq.out hx (header_bytes hin.1 hin.2)]
  exact hq.address

theorem Holds.step (h : Holds s) (hsizes : ∀ size ∈ sizes, size < wordCount / 2 ∧ ∃ k, kmallocPages size = 2 ^ k)
    (hs : Step sizes s s') : Holds s' := by
  cases hs with
  | @kmalloc size buf mm hsize hrun =>
    obtain ⟨p, haddr, _, hhead, hp, hfits⟩ := kmalloc_block h.ok (hsizes size hsize).1 hrun
    refine ⟨hp.ok, fun b hb => ?_, List.nodup_cons.mpr ⟨fun hin => ?_, h.apart⟩⟩
    · cases List.mem_cons.mp hb with
      | inl hnew =>
        subst hnew
        exact ⟨p, hp.mem, haddr, hhead, hfits.mpr (hsizes size hsize).2⟩
      | inr hold =>
        obtain ⟨q, hq⟩ := h.block b hold
        exact ⟨q, hq.allocated hp⟩
    · obtain ⟨b, hb, he⟩ := List.mem_map.mp hin
      obtain ⟨q, hq⟩ := h.block b hb
      have hsame : q.address = p.address := Nat.add_right_cancel (hq.address.symm.trans (he.trans haddr))
      exact hp.fresh p.address (Tiling.base_mem p) (.of_mem hq.out (hsame ▸ Tiling.base_mem q))
  | @kfree b mm hb hrun =>
    obtain ⟨p, hp⟩ := h.block b hb
    obtain ⟨mm', hrun', hfreed⟩ := h.ok.free hp.out
    have hpage : s.mm.kfree b.address = s.mm.freePages p := by
      show s.mm.freePages ⟨b.address - 4, load 4 s.mm.mem (b.address - 4)⟩ = _
      rw [hp.address, Nat.add_sub_cancel, hp.header]
    rw [hpage, hrun'] at hrun
    cases hrun
    refine ⟨hfreed.ok, fun c hc => ?_, (h.apart.sublist (List.erase_sublist.map _))⟩
    have hnd : s.live.Nodup := h.apart.of_map
    obtain ⟨hcb, hc'⟩ := hnd.mem_erase_iff.mp hc
    obtain ⟨q, hq⟩ := h.block c hc'
    refine ⟨q, hq.freed h.ok hfreed fun e => hcb (h.inj hc' hb ?_)⟩
    rw [hq.address, hp.address, e]
  | @alloc order p mm hrun =>
    obtain ⟨_, hp⟩ := h.ok.alloc (Mm.allocPages_order_lt hrun) hrun
    refine ⟨hp.ok, fun b hb => ?_, h.apart⟩
    obtain ⟨q, hq⟩ := h.block b hb
    exact ⟨q, hq.allocated hp⟩
  | @free p mm hp hown hrun =>
    obtain ⟨mm', hrun', hfreed⟩ := h.ok.free hp
    rw [hrun'] at hrun
    cases hrun
    refine ⟨hfreed.ok, fun b hb => ?_, h.apart⟩
    obtain ⟨q, hq⟩ := h.block b hb
    exact ⟨q, hq.freed h.ok hfreed fun e => hown b hb (e ▸ hq.address)⟩
  | @write p x v hp hown hx =>
    exact ⟨write_ok h.ok (.of_mem hp hx) v, fun b hb => h.write_other hb hp hx (hown b hb) v, h.apart⟩
  | @fill b x v hb hx =>
    obtain ⟨p, hp⟩ := h.block b hb
    refine ⟨write_ok h.ok (.of_mem hp.out (hp.bytes hx)) v, fun c hc => ?_, h.apart⟩
    by_cases hcb : c.address = p.address + 4
    · obtain rfl := h.inj hc hb (hcb.trans hp.address.symm)
      exact ⟨p, hp.write (fun hin => Nat.not_lt.mpr (hp.behind hx) hin.2) v⟩
    · exact h.write_other hc hp.out (hp.bytes hx) hcb v

theorem Holds.run (hsizes : ∀ size ∈ sizes, size < wordCount / 2 ∧ ∃ k, kmallocPages size = 2 ^ k)
    (hs : Run sizes s) : Holds s := by
  obtain ⟨m, hrun⟩ := hs
  induction hrun with
  | refl => exact ⟨Mm.init_ok m, nofun, List.nodup_nil⟩
  | tail _ hstep ih => exact ih.step hsizes hstep

/-- live buffers do not overlap -/
theorem Holds.disjoint (h : Holds s) : s.live.Pairwise fun b c => Disjoint b.bytes c.bytes := by
  refine (List.pairwise_map.mp h.apart).imp_of_mem fun {b c} hb hc hne => ?_
  obtain ⟨p, hp⟩ := h.block b hb
  obtain ⟨q, hq⟩ := h.block c hc
  refine (h.ok.disjoint hp.out hq.out fun e => hne ?_).mono hp.bytes hq.bytes
  rw [hp.address, hq.address, e]

/-- and overlap no other block, outstanding or free -/
theorem Holds.disjoint_block (h : Holds s) {F : FreeLists} (hF : Linked s.mm.buddy F) (hb : b ∈ s.live)
    (hq : q ∈ freeAreas F ++ s.mm.out) (hne : b.address ≠ q.address + 4) : Disjoint b.bytes q.bytes := by
  obtain ⟨G, hG⟩ := h.ok
  rw [freeAreas_congr fun k hk => hF.unique hG.linked hk, hG.layout.mem_tiles] at hq
  obtain ⟨p, hp⟩ := h.block b hb
  refine (hG.layout.tiling.disjoint (.inr hp.out) hq fun e => hne ?_).mono_left hp.bytes
  rw [hp.address, e]

end Clients

/-- **What kmalloc returns is large enough exactly when it asked for a power of two of pages.**  Then
no live buffer overlaps another one or a block that is not its own. -/
theorem kmalloc_enough {a : Mm} (h : a.Reachable) :
    (∀ size buf a', size < wordCount / 2 → a.kmalloc size = .ok (buf, a') →
      ∃ p, a'.out = p :: a.out ∧ buf = p.address + 4 ∧ (4 + size ≤ p.size ↔ ∃ k, kmallocPages size = 2 ^ k)) ∧
    ∀ s, Clients.Run {size | size < wordCount / 2 ∧ ∃ k, kmallocPages size = 2 ^ k} s →
      (∀ b ∈ s.live, ∃ p ∈ s.mm.out, b.address = p.address + 4 ∧ b.bytes ⊆ p.bytes) ∧
      s.live.Pairwise (fun b c => Disjoint b.bytes c.bytes) ∧
      ∀ F, Linked s.mm.buddy F → ∀ b ∈ s.live, ∀ q ∈ freeAreas F ++ s.mm.out, b.address ≠ q.address + 4 →
        Disjoint b.bytes q.bytes := by
  constructor
  · intro size buf a' hs hrun
    obtain ⟨p, haddr, _, _, hp, hfits⟩ := kmalloc_block (Mm.reachable_inv h) hs hrun
    exact ⟨p, hp.out, haddr, hfits⟩
  · intro s hs
    have h := Clients.Holds.run (fun _ hsize => hsize) hs
    refine ⟨fun b hb => ?_, h.disjoint, fun F hF b hb q hq hne => h.disjoint_block hF hb hq hne⟩
    obtain ⟨p, hp⟩ := h.block b hb
    exact ⟨p, hp.out, hp.address, hp.bytes⟩

/-- right after initialisation kmalloc serves every request of up to three pages -/
theorem kmalloc_init (size : Nat) (hs : size ≤ 3 * pageSize - 4) : ∃ buf a', (Mm.init fun _ => 0).kmalloc size = .ok (buf, a') := by
  have hlog : Nat.log 2 (kmallocPages size) < maxOrder - 1 := by
    refine Nat.log_lt_of_lt_pow ?_ ?_
    · unfold kmallocPages pageSize
      omega
    · unfold kmallocPages
      unfold pageSize at *
      show _ < 2 ^ 9
      omega
  unfold Mm.kmalloc
  simp only [kmalloc_order (show size < wordCount / 2 by unfold pageSize at hs; unfold wordCount; omega)]
  rcases (Mm.init_inv fun _ => 0).alloc (Nat.lt_of_lt_of_le hlog (Nat.sub_le _ _)) with ⟨_, hnil⟩ | ⟨p, a', _, hrun, _⟩
  · exact absurd (hnil 9 (Nat.le_of_lt hlog)) (List.cons_ne_nil _ _)
  · rw [hrun]
    exact ⟨_, _, rfl⟩

theorem kmallocPages_three : ¬ ∃ k, kmallocPages 8189 = 2 ^ k := by
  have hpages : kmallocPages 8189 = 3 := by decide
  rw [hpages]
  rintro ⟨k, hk⟩
  match k with
  | 0 => exact absurd hk (by decide)
  | 1 => exact absurd hk (by decide)
  | k + 2 =>
    rw [pow_add] at hk
    omega

theorem kmalloc_enough_init : ∃ buf a' p, (Mm.init fun _ => 0).kmalloc 100 = .ok (buf, a') ∧ a'.out = [p] ∧
    4 + 100 ≤ p.size := by
  obtain ⟨buf, a', hrun⟩ := kmalloc_init 100 (by decide)
  obtain ⟨p, hout, _, hfits⟩ := (kmalloc_enough (Mm.reachable_init fun _ => 0)).1 100 buf a' (by decide) hrun
  exact ⟨buf, a', p, hrun, hout, hfits.mpr ⟨0, by decide⟩⟩

/-- 8189 bytes and the header take three pages; kmalloc gets two -/
theorem kmalloc_too_small : ∃ buf a' p, (Mm.init fun _ => 0).kmalloc 8189 = .ok (buf, a') ∧ a'.out = [p] ∧
    buf = p.address + 4 ∧ ¬ (4 + 8189 ≤ p.size) := by
  obtain ⟨buf, a', hrun⟩ := kmalloc_init 8189 (by decide)
  obtain ⟨p, haddr, _, _, hp, hfits⟩ := kmalloc_block (Mm.init_ok _) (by decide) hrun
  exact ⟨buf, a', p, hrun, hp.out, haddr, fun hle => kmallocPages_three (hfits.mp hle)⟩

end FakeKernel
