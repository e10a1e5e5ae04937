import FakeKernel.Kernel.Placement

/-!
# load_elf, the growth of a stack and fork keep the areas and the page table in step

* `Phdr.Fits`, `Elf.Ordered`   segments that lie below the stack, one behind the other;
* `Stage`                      an area that is being filled with pages;
* `loadElf_booked`, `expandStack_booked`, `vmClone_booked`.
-/

namespace FakeKernel
open Bytes Mm Bitfield Heap

variable {h h' : Heap} {own own' : Owners} {q : TaskList → List Nat} {t n a m p va flags v program : Nat}
  {ns : List Nat} {x : VmArea} {S : Finset Nat} {ph : Phdr} {e : Elf}

/-! ## segments that fit -/

/-- the numbers of the pages that a segment reaches into -/
def Phdr.pages (ph : Phdr) : Finset Nat :=
  Finset.Ico (ph.pVaddr / pageSize) ((ph.pVaddr + ph.pMemsz + (pageSize - 1)) / pageSize)

structure Phdr.Fits (ph : Phdr) : Prop where
  below : ph.pVaddr + ph.pMemsz ≤ stackBegin
  access : ¬ ph.NoAccess

/-- the page ranges of the segments are disjoint and in ascending order, below the page of the stack -/
structure Elf.Ordered (e : Elf) : Prop where
  fits : ∀ ph ∈ e.loaded, ph.Fits
  order : e.loaded.Pairwise fun ph ph' =>
    ph.pVaddr / pageSize ≤ ph'.pVaddr / pageSize ∧ Disjoint ph.pages ph'.pages

namespace Phdr.Fits

theorem addr (ph : Phdr) : ph.addr = ph.pVaddr / pageSize * pageSize := by
  unfold Phdr.addr Sv39Va.setOff setField pageSize
  omega

theorem endAddr_of_below (hb : ph.pVaddr + ph.pMemsz ≤ stackBegin) :
    ph.endAddr = (ph.pVaddr + ph.pMemsz + (pageSize - 1)) / pageSize * pageSize := by
  have hmod : (ph.pVaddr + ph.pMemsz) % wordCount = ph.pVaddr + ph.pMemsz := by
    apply Nat.mod_eq_of_lt
    unfold stackBegin userStack pageSize at hb
    unfold wordCount
    omega
  unfold Phdr.endAddr
  simp only [hmod]
  unfold stackBegin userStack pageSize at hb
  unfold Sv39Va.off Sv39Va.setOff Sv39Va.setVpn Sv39Va.vpn field setField pageSize
  split <;> omega

theorem endAddr (hf : ph.Fits) :
    ph.endAddr = (ph.pVaddr + ph.pMemsz + (pageSize - 1)) / pageSize * pageSize := endAddr_of_below hf.below

theorem nPages (hf : ph.Fits) :
    ph.nPages = (ph.pVaddr + ph.pMemsz + (pageSize - 1)) / pageSize - ph.pVaddr / pageSize := by
  have hb := hf.below
  unfold Phdr.nPages
  rw [hf.endAddr, Phdr.Fits.addr]
  unfold stackBegin userStack pageSize at hb
  unfold Sv39Va.vpn field pageSize wordCount
  omega

/-- the area has the page numbers that the segment reaches into -/
theorem vpns (hf : ph.Fits) : ph.area.vpns = ph.pages := by
  have hn := hf.nPages
  unfold VmArea.vpns Phdr.pages
  show Finset.Ico (ph.addr / pageSize) (ph.addr / pageSize + ph.nPages) = _
  rw [Phdr.Fits.addr, hn, Nat.mul_div_cancel _ (by decide), Nat.add_sub_cancel']
  exact Nat.div_le_div_right (by omega)

theorem stop (hf : ph.Fits) : ph.area.stop ≤ stackBegin := by
  have hb := hf.below
  have hn := hf.nPages
  unfold VmArea.stop
  show ph.addr + ph.nPages * pageSize ≤ _
  rw [Phdr.Fits.addr, hn]
  unfold stackBegin userStack pageSize at *
  omega

theorem userLeaf (hf : ph.Fits) : UserLeaf ph.pteFlags := by
  refine ⟨?_, ?_, ph.pteFlags_user⟩
  · cases hl : pteIsLeaf ph.pteFlags with
    | true => rfl
    | false => exact absurd ((noAccess_iff ph).mpr hl) hf.access
  · unfold Phdr.pteFlags
    simp only
    split <;> split <;> split <;> decide

end Phdr.Fits

theorem Elf.Ordered.before (ho : e.Ordered) : e.loaded.Pairwise fun ph ph' => ph.area.Before ph'.area := by
  refine ho.order.imp_of_mem fun {ph ph'} hin hin' hle => ⟨?_, ?_⟩
  · show ph.addr ≤ ph'.addr
    rw [Phdr.Fits.addr, Phdr.Fits.addr]
    exact Nat.mul_le_mul_right _ hle.1
  · rw [(ho.fits _ hin).vpns, (ho.fits _ hin').vpns]
    exact hle.2

/-! ## an area that is being filled -/

/-- the page numbers `S` of the area at `a` are mapped so far -/
structure Stage (q : TaskList → List Nat) (t a n : Nat) (ns : List Nat) (f : Nat → VmArea) (S : Finset Nat)
    (h : Heap) (own : Owners) : Prop where
  world : World h own q
  live : t ∈ h.live
  obj : own.Obj a t (.area n)
  filling : Filling h own t ns a S
  same : ∀ k ∈ ns, h.areaOf k = f k

namespace Stage
variable {f : Nat → VmArea}

theorem node (hs : Stage q t a n ns f S h own) : n ∈ ns ∧ h.areaOf n = h.area a := by
  obtain ⟨hn, hv⟩ := (hs.world.areas t hs.live).node_of_area hs.filling.vm hs.obj
  refine ⟨hn, ?_⟩
  unfold Heap.areaOf
  rw [hv]

theorem area (hs : Stage q t a n ns f S h own) : h.area a = f n :=
  hs.node.2.symm.trans (hs.same n hs.node.1)

/-- one more page -/
theorem addPage (hs : Stage q t a n ns f S h own) (hpt : PageTurn q t a va flags h own h' own' p m)
    (hf : UserLeaf flags) (hsame : h'.area a = h.area a) (hin : vpnOf va ∈ (f n).vpns) (hnot : vpnOf va ∉ S) :
    Stage q t a n ns f (insert (vpnOf va) S) h' own' where
  world := hpt.grown.world
  live := hpt.grown.live ▸ hs.live
  obj := hpt.grown.mono.obj hs.obj rfl
  filling := hs.filling.addPage hs.world hs.live hpt hs.obj hf hsame (hs.area ▸ hin) hnot
  same := fun k hk => (hs.filling.areaOf hs.world.held hpt hsame hk).trans (hs.same k hk)

theorem booked (hs : Stage q t a n ns f S h own) (hS : S = (f n).vpns) : Booked h own t ns :=
  hs.filling.booked (hs.area ▸ hS)

end Stage

/-- an area is added above the others, and its pages are still to come -/
theorem Booked.stage (hb : Booked h own t ns) (hw : World h own q) (ht : t ∈ h.live)
    (hat : AreaTurn q t x h own h' own' n a) (hx : x.refcount = 1) (hstop : x.stop ≤ splitAddr)
    (habove : ∀ k ∈ ns, (h.areaOf k).Before x) :
    Stage q t a n (ns ++ [n]) h'.areaOf ∅ h' own' ∧ h'.areaOf n = x ∧ ∀ k ∈ ns, h'.areaOf k = h.areaOf k := by
  obtain ⟨hfill, hself, hold⟩ := hb.addArea hw ht hat hx hstop habove
  exact ⟨⟨hat.grown.world, hat.grown.live ▸ ht, hat.obj.1, hfill, fun _ _ => rfl⟩, hself, hold⟩

/-! ## load_elf -/

theorem loadSegment_booked (hb : Booked h own t ns) (hw : World h own q) (ht : t ∈ h.live) (hf : ph.Fits)
    (habove : ∀ k ∈ ns, (h.areaOf k).Before ph.area) (hrun : h.loadSegment t program ph = .ok h') :
    ∃ own' n, Grown q t h own h' own' ∧ Booked h' own' t (ns ++ [n]) ∧ h'.areaOf n = ph.area ∧
      ∀ k ∈ ns, h'.areaOf k = h.areaOf k := by
  obtain ⟨own₁, n, a, h₁, hat, hpages⟩ := loadSegment_turn hw ht hrun
  have hstop : ph.area.stop ≤ splitAddr := Nat.le_trans hf.stop (by decide)
  obtain ⟨hstage, hself, hold⟩ := hb.stage hw ht hat rfl hstop habove
  have hend := hf.endAddr
  have haddr := Phdr.Fits.addr ph
  have hbelow := hf.below
  obtain ⟨lo, hlo⟩ : ∃ lo, lo = ph.pVaddr / pageSize := ⟨_, rfl⟩
  obtain ⟨hi, hhi⟩ : ∃ hi, hi = (ph.pVaddr + ph.pMemsz + (pageSize - 1)) / pageSize := ⟨_, rfl⟩
  have hvpns : ph.area.vpns = Finset.Ico lo hi := by
    rw [hf.vpns, hlo, hhi]
    rfl
  have hle : lo ≤ hi := by
    rw [hlo, hhi]
    exact Nat.div_le_div_right (by omega)
  have hmax : hi < 2 ^ 26 := by
    rw [hhi]
    unfold stackBegin userStack pageSize at *
    omega
  rw [← hlo] at haddr
  rw [← hhi] at hend
  -- the pages from `lo` on are mapped up to `i`
  obtain ⟨own', addr', hg, ⟨i, hi', haddr', hstage'⟩, hge⟩ := loadPages_rule
    (I := fun addr h own => ∃ i, lo ≤ i ∧ addr = i * pageSize ∧
      Stage q t a n (ns ++ [n]) h₁.areaOf (Finset.Ico lo (min i hi)) h own)
    (pteFlags_lt ph) ph.pteFlags_user
    (fun {addr h own h' own' p m} hI hlt hpt hsame => by
      obtain ⟨i, hi', rfl, hs⟩ := hI
      rw [hend] at hlt
      have hlt : i < hi := Nat.lt_of_mul_lt_mul_right hlt
      have hv : vpnOf (i * pageSize) = i := by
        unfold vpnOf pageSize
        omega
      refine ⟨i + 1, by omega, ?_, ?_⟩
      · unfold pageSize wordCount
        omega
      · have hs' := hs.addPage hpt hf.userLeaf hsame
          (by rw [hself, hvpns, hv, Finset.mem_Ico]; omega)
          (by rw [hv, Finset.mem_Ico]; omega)
        have hset : insert (vpnOf (i * pageSize)) (Finset.Ico lo (min i hi)) = Finset.Ico lo (min (i + 1) hi) := by
          rw [hv]
          ext v
          rw [Finset.mem_insert, Finset.mem_Ico, Finset.mem_Ico]
          omega
        rw [hset] at hs'
        exact hs')
    ⟨lo, Nat.le_refl _, haddr, by rw [Nat.min_eq_left hle, Finset.Ico_self]; exact hstage⟩
    hat.grown.world (hat.grown.live ▸ ht) rfl hat.obj.1 hpages
  have hfull : Finset.Ico lo (min i hi) = (h₁.areaOf n).vpns := by
    rw [hself, hvpns, Nat.min_eq_right]
    rw [hend, haddr'] at hge
    exact Nat.le_of_mul_le_mul_right hge (by decide)
  refine ⟨own', n, hat.grown.trans hg, hstage'.booked hfull, ?_, fun k hk => ?_⟩
  · exact (hstage'.same n (List.mem_append_right _ (List.mem_singleton_self n))).trans hself
  · exact (hstage'.same k (List.mem_append_left _ hk)).trans (hold k hk)

/-- the area of the stack of a new image -/
def stackArea (execstack : Bool) : VmArea :=
  { va := stackBegin, nPages := 1, flags := stackVmFlags execstack, refcount := 1 }

theorem stackArea_stop (b : Bool) : (stackArea b).stop ≤ splitAddr := by
  show stackBegin + 1 * pageSize ≤ splitAddr
  decide

theorem PageLoose.untouched (hl : PageLoose q t h own h' p) (hw : World h own q) (t' : Nat) :
    Untouched h h' own (own.set p t (.loose false)) t' := by
  obtain ⟨mm, rfl, hx⟩ := hl.rest
  have hfree : ∀ t r, ¬ own.Page p t r := fun t r hp =>
    hx.not_new (hw.held.kept hp) (List.mem_singleton_self p)
  exact ⟨Owners.agree_set_loose fun t r hp => absurd hp (hfree t r),
    fun s hs x hx' => hx.same (hw.held.kept hs) (hw.held.page hs) (Set.notMem_empty s) hx',
    ⟨rfl, rfl, rfl, rfl⟩, fun _ _ _ _ => rfl, rfl, fun _ _ _ => rfl, fun _ _ _ => rfl⟩

theorem stackPteFlags_userLeaf (b : Bool) : UserLeaf (stackPteFlags b ||| pteUser) := by
  cases b <;> exact ⟨by decide, by decide, by decide⟩

theorem Booked.areaOf_untouched (hb : Booked h own t ns) (hw : World h own q) (ht : t ∈ h.live)
    (hu : Untouched h h' own own' t) {k : Nat} (hk : k ∈ ns) : h'.areaOf k = h.areaOf k := by
  have hobj : own.Obj k t .vnode := (hb.vm.mem k).mp hk
  have ha : own.Obj (h.node k).value t (.area k) := ((hw.areas t ht).area k _).mpr ⟨hobj, rfl⟩
  unfold Heap.areaOf
  rw [hu.node k .vnode hobj rfl, hu.area _ k ha]

theorem loadStack_booked {b : Bool} (hb : Booked h own t ns) (hw : World h own q) (ht : t ∈ h.live)
    (hstop : ∀ k ∈ ns, (h.areaOf k).stop ≤ stackBegin) (hrun : h.loadStack t program b = .ok h') :
    ∃ own' n, Grown q t h own h' own' ∧ Booked h' own' t (ns ++ [n]) ∧ h'.areaOf n = stackArea b ∧
      ∀ k ∈ ns, h'.areaOf k = h.areaOf k := by
  obtain ⟨p, n, a, m, own₁, own₂, h₁, h₂, h₃, hloose, hat, hpt, hsame, rfl⟩ := loadStack_turn hw ht hrun
  have hu := hloose.untouched hw t
  have hw₁ := hloose.grown.world
  have ht₁ : t ∈ h₁.live := hloose.grown.live ▸ ht
  have hb₁ := hb.untouched hw ht hu
  have hof₁ : ∀ k ∈ ns, h₁.areaOf k = h.areaOf k := fun k hk => hb.areaOf_untouched hw ht hu hk
  have hat : AreaTurn q t (stackArea b) h₁ (own.set p t (.loose false)) h₂ own₁ n a := hat
  obtain ⟨hstage, hself, hold⟩ := hb₁.stage hw₁ ht₁ hat rfl (stackArea_stop b)
    fun k hk => VmArea.before_of_stop (hof₁ k hk ▸ hstop k hk)
  have hvpns : (h₂.areaOf n).vpns = {vpnOf stackBegin} := by
    rw [hself]
    show Finset.Ico (stackBegin / pageSize) (stackBegin / pageSize + 1) = _
    rw [Nat.Ico_succ_singleton]
    rfl
  have hs₃ := hstage.addPage hpt (stackPteFlags_userLeaf b) hsame (by rw [hvpns]; exact Finset.mem_singleton_self _)
    (Finset.notMem_empty _)
  have hb₃ := hs₃.booked (by rw [hvpns]; rfl)
  have hw₃ := hpt.grown.world
  have ht₃ : t ∈ h₃.live := hs₃.live
  obtain ⟨hw', hq⟩ := hw₃.assignFrame t (startFrame (h₃.image program).eEntry)
  have hframe := hw₃.setFrame t t (startFrame (h₃.image program).eEntry)
  have hu' := hq.untouched t ht₃
  have hn : n ∈ ns ++ [n] := List.mem_append_right _ (List.mem_singleton_self n)
  refine ⟨own₂, n, ((hloose.grown.trans hat.grown).trans hpt.grown).trans hframe, hb₃.untouched hw₃ ht₃ hu', ?_,
    fun k hk => ?_⟩
  · exact ((hb₃.areaOf_untouched hw₃ ht₃ hu' hn).trans (hs₃.same n hn)).trans hself
  · have hk' : k ∈ ns ++ [n] := List.mem_append_left _ hk
    exact (((hb₃.areaOf_untouched hw₃ ht₃ hu' hk').trans (hs₃.same k hk')).trans (hold k hk)).trans (hof₁ k hk)

/-- load_elf of an image in order makes the areas of its segments, and that of the stack -/
theorem loadElf_booked (ho : e.Ordered) (hin : e.LiesIn h.mm.mem) (hb : Booked h own t []) (hw : World h own q) (ht : t ∈ h.live)
    (hrun : h.loadElf t e.program = .ok (0, h')) : ∃ own' ns b, Grown q t h own h' own' ∧ Booked h' own' t ns ∧
      ns.map h'.areaOf = e.loaded.map Phdr.area ++ [stackArea b] := by
  unfold loadElf at hrun
  split at hrun
  · exact absurd (Prod.mk.inj (Except.ok.inj hrun)).1 (by decide)
  obtain ⟨⟨r, h₁⟩, hsegs, hrun⟩ := Res.bind_eq_ok.mp hrun
  obtain ⟨own₁, hg, ⟨ns, hb₁, hareas, _⟩⟩ := loadSegments_image_rule (i := 0)
    (I := fun l h own => ∃ ns, Booked h own t ns ∧ ns.map h.areaOf ++ l.map Phdr.area = e.loaded.map Phdr.area ∧
      ∀ ph ∈ l, ph.Fits)
    (fun {ph l h own h'} hI hw ht hseg => by
      obtain ⟨ns, hb, hareas, hfits⟩ := hI
      have hpair : (ns.map h.areaOf ++ (ph :: l).map Phdr.area).Pairwise VmArea.Before := by
        rw [hareas]
        exact List.pairwise_map.mpr ho.before
      have habove : ∀ k ∈ ns, (h.areaOf k).Before ph.area := fun k hk =>
        (List.pairwise_append.mp hpair).2.2 _ (List.mem_map_of_mem hk) _ List.mem_cons_self
      obtain ⟨own', n, hg, hb', hself, hold⟩ := loadSegment_booked hb hw ht (hfits ph List.mem_cons_self) habove hseg
      refine ⟨own', hg, ns ++ [n], hb', ?_, fun ph' hin => hfits ph' (List.mem_cons_of_mem _ hin)⟩
      rw [← hareas, List.map_append, List.map_singleton, hself, List.map_congr_left hold, List.append_assoc]
      rfl)
    hin ⟨[], hb, rfl, ho.fits⟩ hw ht hsegs
  cases r with
  | error err =>
    have he := (Prod.mk.inj (Except.ok.inj hrun)).1
    rw [loadSegments_error hsegs] at he
    exact absurd he (by decide)
  | ok b =>
    obtain ⟨h₂, hstack, hret⟩ := Res.bind_eq_ok.mp hrun
    cases hret
    rw [List.map_nil, List.append_nil] at hareas
    have hstop : ∀ k ∈ ns, (h₁.areaOf k).stop ≤ stackBegin := by
      intro k hk
      have hin : h₁.areaOf k ∈ e.loaded.map Phdr.area := hareas ▸ List.mem_map_of_mem hk
      obtain ⟨ph, hph, he⟩ := List.mem_map.mp hin
      rw [← he]
      exact (ho.fits ph hph).stop
    obtain ⟨own', n, hg', hb', hself, hold⟩ := loadStack_booked hb₁ hg.world (hg.live ▸ ht) hstop hstack
    refine ⟨own', ns ++ [n], b, hg.trans hg', hb', ?_⟩
    rw [List.map_append, List.map_singleton, hself, List.map_congr_left hold, hareas]

/-! ## the growth of a stack -/

/-- the conditions of pte_flags_from_vm_flags are always true -/
theorem pteFlagsFromVmFlags_eq (f : Nat) :
    pteFlagsFromVmFlags f = pteValid ||| pteUser ||| pteRead ||| pteWrite ||| pteExec := by
  have hne : ∀ c, c ≠ 0 → f ||| c ≠ 0 := fun c hc h0 => hc (Nat.or_eq_zero_iff.mp h0).2
  unfold pteFlagsFromVmFlags
  simp only
  rw [if_pos (hne vmRead (by decide)), if_pos (hne vmWrite (by decide)), if_pos (hne vmExec (by decide))]

theorem pteFlagsFromVmFlags_userLeaf (f : Nat) : UserLeaf (pteFlagsFromVmFlags f ||| pteUser) := by
  rw [pteFlagsFromVmFlags_eq]
  exact ⟨by decide, by decide, by decide⟩

theorem VmArea.grown_refcount (x : VmArea) : x.grown.refcount = x.refcount := by
  unfold VmArea.grown
  rfl

theorem VmArea.grown_flags (x : VmArea) : x.grown.flags = x.flags := by
  unfold VmArea.grown
  rfl

/-- an area whose lowest page is not the lowest page of all -/
structure VmArea.Grows (x : VmArea) : Prop where
  aligned : pageSize ∣ x.va
  room : pageSize ≤ x.va
  stop : x.stop ≤ splitAddr

namespace VmArea.Grows

theorem lower (hx : x.Grows) : lowerPage x.va = x.va - pageSize := by
  have h1 := hx.room
  have h2 := hx.stop
  unfold VmArea.stop splitAddr at h2
  unfold lowerPage wordCount
  unfold pageSize at *
  omega

theorem nPages (hx : x.Grows) : x.grown.nPages = x.nPages + 1 := by
  have h2 := hx.stop
  show (x.nPages + 1) % wordCount = _
  unfold VmArea.stop splitAddr pageSize at h2
  unfold wordCount
  omega

theorem grown_stop (hx : x.Grows) : x.grown.stop = x.stop := by
  have h1 := hx.room
  show lowerPage x.va + x.grown.nPages * pageSize = x.va + x.nPages * pageSize
  rw [hx.nPages, hx.lower]
  unfold pageSize at *
  omega

theorem vpn (hx : x.Grows) : vpnOf (lowerPage x.va) + 1 = x.va / pageSize := by
  have h1 := hx.room
  have h2 := hx.stop
  rw [hx.lower]
  unfold VmArea.stop splitAddr at h2
  unfold vpnOf
  unfold pageSize at *
  omega

theorem vpns (hx : x.Grows) : x.grown.vpns = insert (vpnOf (lowerPage x.va)) x.vpns := by
  have h1 := hx.room
  have h2 := hx.vpn
  have h3 : lowerPage x.va / pageSize = vpnOf (lowerPage x.va) := by
    rw [hx.lower] at h2 ⊢
    unfold pageSize at *
    omega
  ext v
  unfold VmArea.vpns
  rw [Finset.mem_insert, Finset.mem_Ico, Finset.mem_Ico, hx.nPages]
  show lowerPage x.va / pageSize ≤ v ∧ v < lowerPage x.va / pageSize + (x.nPages + 1) ↔ _
  rw [h3]
  omega

end VmArea.Grows

/-- one page is added below the area -/
theorem Booked.grow {pre post : List Nat} (hb : Booked h own t (pre ++ n :: post)) (hw : World h own q)
    (ht : t ∈ h.live) (ha : own.Obj a t (.area n)) (hx : (h.area a).Grows)
    (hpre : ∀ k ∈ pre, (h.areaOf k).stop ≤ lowerPage (h.area a).va)
    (hpt : PageTurn q t a (lowerPage (h.area a).va) flags h own h' own' p m) (hf : UserLeaf flags)
    (hgrown : h'.area a = (h.area a).grown) :
    Booked h' own' t (pre ++ n :: post) ∧ h'.areaOf n = (h.areaOf n).grown ∧
      ∀ k ∈ pre ++ n :: post, k ≠ n → h'.areaOf k = h.areaOf k := by
  have hh := hw.held
  have hA := hw.areas t ht
  obtain ⟨N, M, hk⟩ := hpt.takes hh
  obtain ⟨hn, hv⟩ := hA.node_of_area hb.vm ha
  have hof : h.areaOf n = h.area a := by
    unfold Heap.areaOf
    rw [hv]
  have hvalue : ∀ {k}, k ∈ pre ++ n :: post → (h'.node k).value = (h.node k).value := fun hk' =>
    hpt.value (hk.new hh ((hb.vm.mem _).mp hk'))
  have hself : h'.areaOf n = (h.areaOf n).grown := by
    rw [hof, ← hgrown]
    unfold Heap.areaOf
    rw [hvalue hn, hv]
  -- the other nodes lead to other areas
  have hne : ∀ {k}, k ∈ pre ++ n :: post → k ≠ n → (h.node k).value ≠ a := by
    intro k hk' hkn e
    have hak : own.Obj a t (.area k) := (hA.area k a).mpr ⟨(hb.vm.mem k).mp hk', e⟩
    have hrole := (hak.unique ha).2
    simp only [Role.area.injEq] at hrole
    exact hkn hrole
  have hother : ∀ k ∈ pre ++ n :: post, k ≠ n → h'.areaOf k = h.areaOf k := by
    intro k hk' hkn
    unfold Heap.areaOf
    rw [hvalue hk', hpt.area _ (hne hk' hkn)]
  obtain ⟨hordpre, hordn, hcross⟩ := List.pairwise_append.mp hb.order
  obtain ⟨hnpost, hordpost⟩ := List.pairwise_cons.mp hordn
  have hnd := hb.vm.queue.chain.nodup
  have hprene : ∀ {k}, k ∈ pre → k ≠ n := by
    intro k hk' e
    exact (List.nodup_append.mp hnd).2.2 k hk' n List.mem_cons_self e
  have hpostne : ∀ {k}, k ∈ post → k ≠ n := by
    intro k hk' e
    exact (List.nodup_cons.mp (List.nodup_append.mp hnd).2.1).1 (e ▸ hk')
  have hvpn := hx.vpn
  -- no area has the new page number yet
  have hlow : ∀ k ∈ pre, (h.areaOf k).Before (h.area a).grown := fun k hk' =>
    VmArea.before_of_stop (hpre k hk')
  have hhigh : ∀ k ∈ post, vpnOf (lowerPage (h.area a).va) ∉ (h.areaOf k).vpns := by
    intro k hk' hin
    have hva := (hnpost k hk').va
    rw [hof] at hva
    have hdiv := Nat.div_le_div_right (c := pageSize) hva
    unfold VmArea.vpns at hin
    rw [Finset.mem_Ico] at hin
    omega
  have hfree : ∀ b k, own.Obj b t (.area k) → vpnOf (lowerPage (h.area a).va) ∉ (h.area b).vpns := by
    intro b k hb' hin
    obtain ⟨hkin, hkv⟩ := hA.node_of_area hb.vm hb'
    have hkof : h.areaOf k = h.area b := by
      unfold Heap.areaOf
      rw [hkv]
    cases List.mem_append.mp hkin with
    | inl hp =>
      have hd := (hlow k hp).apart
      rw [hx.vpns, hkof, Finset.disjoint_insert_right] at hd
      exact hd.1 hin
    | inr hp =>
      cases List.mem_cons.mp hp with
      | inl he =>
        subst he
        rw [← hkof, hof] at hin
        unfold VmArea.vpns at hin
        rw [Finset.mem_Ico] at hin
        omega
      | inr hp => exact hhigh k hp (hkof ▸ hin)
  obtain ⟨ms, hms⟩ := hb.complete.pages a n ha
  have hrc : (h'.area a).refcount = (h.area a).refcount := by rw [hgrown, VmArea.grown_refcount]
  have hbelow : ∀ k ∈ pre ++ n :: post, (h'.areaOf k).stop ≤ splitAddr := by
    intro k hk'
    by_cases he : k = n
    · rw [he, hself, hof, hx.grown_stop, ← hof]
      exact hb.below n hn
    · rw [hother k hk' he]
      exact hb.below k hk'
  refine ⟨⟨hb.complete.addPage hw ht hpt ha hf.leaf hrc, ?_, ⟨?_, fun k => ?_⟩, ?_, hbelow⟩, hself, hother⟩
  · refine (hb.covered.addPage hw ht hpt ha hf hfree).congr (fun b k _ => ?_)
      (hpt.grown.world.areas t (hpt.grown.live ▸ ht))
    by_cases he : b = a
    · rw [he, Function.update_self, hgrown, hx.vpns]
    · rw [Function.update_of_ne he, hpt.area b he]
  · exact hpt.exactly_other hh hms (r := .vnode) nofun nofun hb.vm
  · rw [hk.obj_old (r := .vnode) rfl nofun nofun nofun]
    exact hb.vm.mem k
  · have hmem : ∀ {k}, k ∈ pre → k ∈ pre ++ n :: post := fun hk' => List.mem_append_left _ hk'
    have hmem' : ∀ {k}, k ∈ post → k ∈ pre ++ n :: post := fun hk' =>
      List.mem_append_right _ (List.mem_cons_of_mem _ hk')
    refine List.pairwise_append.mpr ⟨hordpre.imp_of_mem fun hk' hk'' hlt => ?_,
      List.pairwise_cons.mpr ⟨fun k hk' => ?_, hordpost.imp_of_mem fun hk' hk'' hlt => ?_⟩, fun k hk' k' hk'' => ?_⟩
    · rw [hother _ (hmem hk') (hprene hk'), hother _ (hmem hk'') (hprene hk'')]
      exact hlt
    · have hbef := hnpost k hk'
      rw [hself, hother k (hmem' hk') (hpostne hk'), hof]
      rw [hof] at hbef
      refine ⟨?_, ?_⟩
      · show lowerPage (h.area a).va ≤ _
        rw [hx.lower]
        exact Nat.le_trans (Nat.sub_le _ _) hbef.va
      · rw [hx.vpns, Finset.disjoint_insert_left]
        exact ⟨hhigh k hk', hbef.apart⟩
    · rw [hother _ (hmem' hk') (hpostne hk'), hother _ (hmem' hk'') (hpostne hk'')]
      exact hlt
    · rw [hother k (hmem hk') (hprene hk')]
      cases List.mem_cons.mp hk'' with
      | inl he =>
        rw [he, hself, hof]
        exact hlow k hk'
      | inr hp =>
        rw [hother k' (hmem' hp) (hpostne hp)]
        exact hcross k hk' k' (List.mem_cons_of_mem _ hp)

/-- vm_find_stack finds the first area that begins above the address, and those in front of it end below -/
theorem vmFindStackFrom_spec {fuel node : Nat} (hc : Chain (fun n => (h.node n).next) 0 node ns)
    (hbelow : ∀ k ∈ ns, (h.areaOf k).stop ≤ splitAddr) (hrun : h.vmFindStackFrom va fuel node = .ok a)
    (h0 : a ≠ 0) : ∃ pre n post, ns = pre ++ n :: post ∧ (h.node n).value = a ∧ va < (h.areaOf n).va ∧
      ∀ k ∈ pre, (h.areaOf k).stop < va := by
  induction fuel generalizing node ns with
  | zero => cases hrun
  | succ fuel ih =>
    unfold vmFindStackFrom at hrun
    cases ns with
    | nil =>
      have hz : node = 0 := hc
      rw [if_pos hz] at hrun
      exact absurd (Except.ok.inj hrun).symm h0
    | cons n ns =>
      obtain ⟨rfl, hne, hc'⟩ := hc
      rw [if_neg hne] at hrun
      simp only at hrun
      have hstop : (h.areaOf node).stop ≤ splitAddr := hbelow node List.mem_cons_self
      unfold VmArea.stop at hstop
      have hstop : (h.area (h.node node).value).va + (h.area (h.node node).value).nPages * pageSize ≤ splitAddr := hstop
      split at hrun
      · exact absurd (Except.ok.inj hrun).symm h0
      rename_i hnotin
      split at hrun
      · rename_i hlt
        split at hrun
        · exact ⟨[], node, ns, rfl, Except.ok.inj hrun, hlt, fun _ hk => absurd hk List.not_mem_nil⟩
        · exact absurd (Except.ok.inj hrun).symm h0
      · rename_i hge
        obtain ⟨pre, n, post, hns, hv, hlt, hpre⟩ := ih hc' (fun k hk => hbelow k (List.mem_cons_of_mem _ hk)) hrun
        refine ⟨node :: pre, n, post, by rw [hns]; rfl, hv, hlt, fun k hk => ?_⟩
        cases List.mem_cons.mp hk with
        | inr hk => exact hpre k hk
        | inl he =>
          subst he
          show (h.area (h.node k).value).va + (h.area (h.node k).value).nPages * pageSize < va
          unfold vmAreaIn at hnotin
          simp only [Bool.and_eq_true, decide_eq_true_eq, not_and, not_le] at hnotin
          have hin := hnotin (Nat.not_lt.mp hge)
          have hshift : (h.area (h.node k).value).nPages <<< pageIndexBits =
              (h.area (h.node k).value).nPages * pageSize := by
            rw [Nat.shiftLeft_eq]
            rfl
          rw [hshift] at hin
          unfold splitAddr at hstop
          unfold wordCount at hin
          unfold pageSize at *
          omega

/-- what a predicate on memory and owners needs, to hold when areas and pages have been added to tasks -/
structure Additive (J : Mm → Owners → Prop) : Prop where
  area : ∀ {q h own h' own' t n a x}, World h own q → AreaTurn q t x h own h' own' n a → J h.mm own → J h'.mm own'
  page : ∀ {q h own h' own' t a va flags p m}, World h own q → PageTurn q t a va flags h own h' own' p m → J h.mm own → J h'.mm own'
  task : ∀ {q parent h own h' own' t n stack root}, World h own q → TaskAdded q parent h own h' own' t n stack root →
    J h.mm own → J h'.mm own'

theorem Additive.true : Additive fun _ _ => True := ⟨fun _ _ _ => trivial, fun _ _ _ => trivial, fun _ _ _ => trivial⟩

/-- the stack grows down to the page of the address -/
theorem expandStack_additive {J : Mm → Owners → Prop} {fuel : Nat} (hJ : Additive J) (hj : J h.mm own) (hb : Booked h own t ns)
    (hw : World h own q) (ht : t ∈ h.live) (hst : userStackMin ≤ va) (hfind : h.vmFindStack (.vmAreas t) va = .ok a) (h0 : a ≠ 0)
    (hrun : h.expandStack t a (va / pageSize * pageSize) fuel = .ok h') :
    ∃ own', Grown q t h own h' own' ∧ Booked h' own' t ns ∧ J h'.mm own' := by
  obtain ⟨pre, n, post, rfl, hv, hlt, hpre⟩ := vmFindStackFrom_spec hb.vm.queue.chain hb.below hfind h0
  have hn : n ∈ pre ++ n :: post := List.mem_append_right _ List.mem_cons_self
  have ha : own.Obj a t (.area n) := ((hw.areas t ht).area n a).mpr ⟨(hb.vm.mem n).mp hn, hv⟩
  have hpage : userStackMin ≤ va / pageSize * pageSize := by
    unfold userStackMin at *
    unfold pageSize
    omega
  have hne : ∀ k ∈ pre, k ≠ n := by
    intro k hk e
    exact (List.nodup_append.mp hb.vm.queue.chain.nodup).2.2 k hk n List.mem_cons_self e
  have hprestop : ∀ k ∈ pre, (h.areaOf k).stop ≤ va / pageSize * pageSize := by
    intro k hk
    have hlt := hpre k hk
    have hobj : own.Obj (h.node k).value t (.area k) :=
      ((hw.areas t ht).area k _).mpr ⟨(hb.vm.mem k).mp (List.mem_append_left _ hk), rfl⟩
    obtain ⟨c, hc⟩ := hw.aligned t _ k hobj
    have hstop : (h.areaOf k).stop = pageSize * (c + (h.areaOf k).nPages) := by
      unfold VmArea.stop
      show (h.area (h.node k).value).va + _ = _
      rw [hc, Nat.mul_add, Nat.mul_comm pageSize (h.areaOf k).nPages]
    rw [hstop] at hlt ⊢
    unfold pageSize at *
    omega
  obtain ⟨own', hg, ⟨_, _, _, hb', _, hj'⟩, _⟩ := expandStack_rule (I := fun h own => World h own q ∧ t ∈ h.live ∧
      own.Obj a t (.area n) ∧ Booked h own t (pre ++ n :: post) ∧
      (∀ k ∈ pre, (h.areaOf k).stop ≤ va / pageSize * pageSize) ∧ J h.mm own)
    (fun {h own h' own' p m} hI hlt hpt hgrown => by
      obtain ⟨hw, ht, ha, hb, hpre, hj⟩ := hI
      have hof : (h.areaOf n) = h.area a := by
        unfold Heap.areaOf
        rw [((hw.areas t ht).node_of_area hb.vm ha).2]
      have hx : (h.area a).Grows := by
        refine ⟨hw.aligned t a n ha, ?_, hof ▸ hb.below n hn⟩
        unfold userStackMin at hpage
        unfold pageSize at *
        omega
      have hlow : va / pageSize * pageSize ≤ lowerPage (h.area a).va := by
        obtain ⟨c, hc⟩ := hx.aligned
        rw [hx.lower]
        unfold pageSize at *
        omega
      obtain ⟨hb', _, hother⟩ := hb.grow hw ht ha hx (fun k hk => Nat.le_trans (hpre k hk) hlow) hpt
        (pteFlagsFromVmFlags_userLeaf _) hgrown
      refine ⟨hpt.grown.world, hpt.grown.live ▸ ht, hpt.grown.mono.obj ha rfl, hb', fun k hk => ?_, hJ.page hw hpt hj⟩
      rw [hother k (List.mem_append_left _ hk) (hne k hk)]
      exact hpre k hk)
    ⟨hw, ht, ha, hb, hprestop, hj⟩ hw ht ha hrun
  exact ⟨own', hg, hb', hj'⟩

theorem expandStack_booked {fuel : Nat} (hb : Booked h own t ns) (hw : World h own q) (ht : t ∈ h.live)
    (hst : userStackMin ≤ va) (hfind : h.vmFindStack (.vmAreas t) va = .ok a) (h0 : a ≠ 0)
    (hrun : h.expandStack t a (va / pageSize * pageSize) fuel = .ok h') :
    ∃ own', Grown q t h own h' own' ∧ Booked h' own' t ns := by
  obtain ⟨own', hg, hb', _⟩ := expandStack_additive .true trivial hb hw ht hst hfind h0 hrun
  exact ⟨own', hg, hb'⟩

/-! ## vm_clone -/

/-- an area is copied with its pages -/
theorem cloneArea_booked {J : Mm → Owners → Prop} {k k' : Kernel} {regs : Cpu} {area : Nat} (hJ : Additive J)
    (hj : J k.heap.mm own) (hb : Booked k.heap own t ns) (hw : World k.heap own q) (ht : t ∈ k.heap.live) (hva : pageSize ∣ (k.heap.area area).va)
    (hrc : (k.heap.area area).refcount = 1) (hstop : (k.heap.area area).stop ≤ splitAddr)
    (habove : ∀ n ∈ ns, (k.heap.areaOf n).Before (k.heap.area area)) (hrun : k.cloneArea regs t area = .ok k') :
    ∃ own' n, Grown q t k.heap own k'.heap own' ∧ SameControl k k' ∧ Booked k'.heap own' t (ns ++ [n]) ∧
      k'.heap.areaOf n = k.heap.area area ∧ (∀ k₁ ∈ ns, k'.heap.areaOf k₁ = k.heap.areaOf k₁) ∧ J k'.heap.mm own' := by
  obtain ⟨own₁, n, a, h₁, hat, _, hpages⟩ := cloneArea_turn hw ht hva hrun
  have hj₁ := hJ.area hw hat hj
  obtain ⟨x, hx⟩ : ∃ x, x = k.heap.area area := ⟨_, rfl⟩
  have hsame : { k.heap.area area with refcount := 1 } = x := by
    rw [hx, ← hrc]
  rw [hsame] at hat
  rw [← hx] at hpages hva hrc hstop habove ⊢
  obtain ⟨hstage, hself, hold⟩ := hb.stage hw ht hat hrc hstop habove
  obtain ⟨lo, hlo⟩ := hva
  have hvpns : x.vpns = Finset.Ico lo (lo + x.nPages) := by
    unfold VmArea.vpns
    rw [hlo, Nat.mul_div_cancel_left lo (by decide)]
  have hmax : lo + x.nPages < 2 ^ 27 := by
    unfold VmArea.stop splitAddr at hstop
    unfold pageSize at *
    omega
  -- `i` pages are still to be copied
  obtain ⟨own', va', hg, hc, hI⟩ := clonePages_rule
    (I := fun i va k own => i ≤ x.nPages ∧ va = pageSize * (lo + (x.nPages - i)) ∧
      Stage q t a n (ns ++ [n]) h₁.areaOf (Finset.Ico lo (lo + (x.nPages - i))) k.heap own ∧ J k.heap.mm own)
    pteFlags_user_lt
    (fun {i va k own k' own' p m} hI hct => by
      obtain ⟨hi, hva, hs, hj⟩ := hI
      have hv : vpnOf va = lo + (x.nPages - (i + 1)) := by
        rw [hva]
        unfold vpnOf pageSize
        omega
      refine ⟨by omega, ?_, ?_, hJ.page hs.world hct.page hj⟩
      · rw [hva]
        unfold pageSize wordCount
        omega
      · have hs' := hs.addPage hct.page (pteFlagsFromVmFlags_userLeaf _) (by rw [hct.areas])
          (by rw [hself, hvpns, hv, Finset.mem_Ico]; omega)
          (by rw [hv, Finset.mem_Ico]; omega)
        have hset : insert (vpnOf va) (Finset.Ico lo (lo + (x.nPages - (i + 1)))) =
            Finset.Ico lo (lo + (x.nPages - i)) := by
          rw [hv]
          ext v
          rw [Finset.mem_insert, Finset.mem_Ico, Finset.mem_Ico]
          omega
        rw [hset] at hs'
        exact hs')
    ⟨Nat.le_refl _, by rw [Nat.sub_self]; exact hlo, by rw [Nat.sub_self, Nat.add_zero, Finset.Ico_self]; exact hstage, hj₁⟩
    hat.grown.world (hat.grown.live ▸ ht) hat.obj.1 hpages
  obtain ⟨_, _, hs, hj'⟩ := hI
  have hb' := hs.booked (by rw [hself, hvpns, Nat.sub_zero])
  refine ⟨own', n, hat.grown.trans hg, (SameControl.of_heap k hat.added.task).trans hc, hb', ?_, fun j hj => ?_, hj'⟩
  · exact (hs.same n (List.mem_append_right _ (List.mem_singleton_self n))).trans hself
  · exact (hs.same j (List.mem_append_left _ hj)).trans (hold j hj)

/-- the areas of the child are those of the parent -/
theorem vmClone_booked {J : Mm → Owners → Prop} {k k' : Kernel} {regs : Cpu} {parent : Nat} {nsp : List Nat} (hJ : Additive J)
    (hj : J k.heap.mm own) (hb : Booked k.heap own t []) (hbp : Booked k.heap own parent nsp) (hw : World k.heap own q)
    (ht : t ∈ k.heap.live) (hparent : parent ∈ k.heap.live) (hne : parent ≠ t)
    (hrun : k.vmClone regs (.vmAreas parent) t = .ok k') :
    ∃ own' ns, Grown q t k.heap own k'.heap own' ∧ SameControl k k' ∧ Booked k'.heap own' t ns ∧
      ns.map k'.heap.areaOf = nsp.map k.heap.areaOf ∧ J k'.heap.mm own' := by
  obtain ⟨own', hg, hc, ns, todo, hj', hI⟩ := vmCloneFrom_rule
    (I := fun node k' own => ∃ ns todo, J k'.heap.mm own ∧ parent ∈ k'.heap.live ∧ Booked k'.heap own parent nsp ∧
      (∀ n ∈ nsp, k'.heap.areaOf n = k.heap.areaOf n) ∧ Booked k'.heap own t ns ∧
      Chain (fun n => (k'.heap.node n).next) 0 node todo ∧ (∀ n ∈ todo, n ∈ nsp) ∧
      ns.map k'.heap.areaOf ++ todo.map k.heap.areaOf = nsp.map k.heap.areaOf)
    (fun {node k₁ own k₂} hz hI hw ht harea => by
      obtain ⟨ns, todo, hj, hp, hbp₁, hsame, hb, hchain, hsub, hmap⟩ := hI
      cases todo with
      | nil => exact absurd hchain hz
      | cons n todo =>
        obtain ⟨he, hn0, hchain'⟩ := hchain
        subst he
        have hnin : node ∈ nsp := hsub node List.mem_cons_self
        have hobj : own.Obj (k₁.heap.node node).value parent (.area node) :=
          ((hw.areas parent hp).area node _).mpr ⟨(hbp₁.vm.mem node).mp hnin, rfl⟩
        have hof : k₁.heap.areaOf node = k.heap.areaOf node := hsame node hnin
        have hpair : (ns.map k₁.heap.areaOf ++ (node :: todo).map k.heap.areaOf).Pairwise VmArea.Before := by
          rw [hmap, List.pairwise_map]
          refine hbp₁.order.imp_of_mem fun ha hb hlt => ?_
          rw [hsame _ ha, hsame _ hb] at hlt
          exact hlt
        have habove : ∀ j ∈ ns, (k₁.heap.areaOf j).Before (k₁.heap.areaOf node) := fun j hj => by
          rw [hof]
          exact (List.pairwise_append.mp hpair).2.2 _ (List.mem_map_of_mem hj) _ List.mem_cons_self
        obtain ⟨own', n, hg, hc, hb', hself, hold, hj'⟩ := cloneArea_booked hJ hj hb hw ht (hw.aligned parent _ node hobj)
          (hbp₁.complete.refcount _ node hobj) (hbp₁.below node hnin) habove harea
        have hu := hg.untouched hw.held hp hne
        have hvn : own.Obj node parent .vnode := (hbp₁.vm.mem node).mp hnin
        refine ⟨own', hg, hc, ns ++ [n], todo, hj', hg.live ▸ hp, hbp₁.untouched hw hp hu, fun j hj => ?_, hb', ?_,
          fun j hj => hsub j (List.mem_cons_of_mem _ hj), ?_⟩
        · exact (hbp₁.areaOf_untouched hw hp hu hj).trans (hsame j hj)
        · have hnode : k₂.heap.node node = k₁.heap.node node := hu.node node .vnode hvn rfl
          rw [hnode]
          refine hchain'.congr fun j hj => ?_
          have hj : j ∈ nsp := hsub j (List.mem_cons_of_mem _ hj)
          have hnj : k₂.heap.node j = k₁.heap.node j := hu.node j .vnode ((hbp₁.vm.mem j).mp hj) rfl
          rw [hnj]
        · have hself : k₂.heap.areaOf n = k.heap.areaOf node := hself.trans hof
          rw [List.map_append, List.map_singleton, hself, List.map_congr_left hold, List.append_assoc]
          exact hmap)
    ⟨[], nsp, hj, hparent, hbp, fun _ _ => rfl, hb, hbp.vm.queue.chain, fun _ hn => hn, rfl⟩ hw ht hrun
  obtain ⟨_, _, _, hb', hchain, _, hmap⟩ := hI
  have htodo : todo = [] := by
    cases todo with
    | nil => rfl
    | cons n todo => exact absurd hchain.1.symm hchain.2.1
  rw [htodo, List.map_nil, List.append_nil] at hmap
  exact ⟨own', ns, hg, hc, hb', hmap, hj'⟩

/-! ## a new task -/

/-- a root without subtables -/
theorem flat_of_single {mem : Mem} {root : Nat} (ht : Tree mem 2 root)
    (hs : ∀ s ∈ tables mem 2 root, s = root) : Flat mem 2 root := by
  intro i hi hptr
  exfalso
  obtain ⟨hroot, _⟩ := tree_succ.mp ht
  have hin : subtableFromPte (entry mem root i) ∈ below mem 1 (entry mem root i) := by
    rw [below_of_pointer hptr]
    exact table_mem_tables
  have he := hs _ (mem_tables_succ.mpr (.inr ⟨i, hi, hin⟩))
  rw [he] at hin
  exact (hroot i hi).2 hin

namespace TaskAdded
variable {parent stack root : Nat} {r : Role}

theorem role (ha : TaskAdded q parent h own h' own' t n stack root) (hh : Held h own) (hp : own'.Page p t r)
    (hl : r.isLoose = false) : (p = root ∧ r = .table) ∨ (p = stack ∧ r = .stack) ∨ (p = n - 4 ∧ r = .sched) ∨
      (p = t - 4 ∧ r = .task) := by
  have hold : ¬ own.Page p t r := fun hp => ha.fresh (hh.live p t r hp hl)
  rw [ha.owners] at hp
  unfold Owners.addTask at hp
  rw [Owners.page_set, Owners.page_set, Owners.page_set, Owners.page_set] at hp
  grind

theorem fields (ha : TaskAdded q parent h own h' own' t n stack root) :
    h'.task t = newTask h parent t n stack root := by
  rw [ha.task, Function.update_self]

/-- a new task has no areas -/
theorem booked (ha : TaskAdded q parent h own h' own' t n stack root) (hh : Held h own) :
    Booked h' own' t [] := by
  have hlive : t ∈ h'.live := ha.live ▸ List.mem_cons_self
  have hM := ha.world.maps t hlive
  have hroot : (h'.task t).pageTable = root := by
    rw [ha.fields]
    rfl
  have hno : ∀ {p r}, r.isListed = true → ¬ own'.Page p t r := by
    intro p r hr hp
    have hl : r.isLoose = false := by
      cases r with
      | loose b => exact nomatch hr
      | _ => rfl
    obtain ⟨_, rfl⟩ | ⟨_, rfl⟩ | ⟨_, rfl⟩ | ⟨_, rfl⟩ := ha.role hh hp hl <;> exact nomatch hr
  have hvm : h'.lists.Exactly own' t .vnode (.vmAreas t) [] := by
    refine ⟨⟨?_, ?_, nofun⟩, fun k => ⟨nofun, fun hk => absurd hk.page (hno rfl)⟩⟩
    · rw [ha.vm]
      exact rfl
    · rw [ha.vm]
      rfl
  refine ⟨⟨⟨[], hvm⟩, fun a k hk => absurd hk.page (hno rfl), fun a k hk => absurd hk.page (hno rfl), fun s hs => ?_,
    ?_, fun p hp => ?_, fun p hp => ?_, fun p hp => ?_⟩, ⟨fun a m p v hm => absurd hm.page (hno rfl),
    fun a k hk => absurd hk.page (hno rfl), fun p m v hp => absurd hp (hno rfl), fun a k hk => absurd hk.page (hno rfl),
    fun a k b k' hk => absurd hk.page (hno rfl)⟩, hvm, List.Pairwise.nil, nofun⟩
  · obtain ⟨rfl, _⟩ | ⟨_, he⟩ | ⟨_, he⟩ | ⟨_, he⟩ := ha.role hh hs rfl
    · rw [hroot]
      exact table_mem_tables
    · exact nomatch he
    · exact nomatch he
    · exact nomatch he
  · rw [hroot] at hM ⊢
    exact flat_of_single hM.wf.tree ha.single
  · obtain ⟨_, he⟩ | ⟨_, he⟩ | ⟨_, he⟩ | ⟨rfl, _⟩ := ha.role hh hp rfl
    · exact nomatch he
    · exact nomatch he
    · exact nomatch he
    · rfl
  · rw [ha.fields]
    obtain ⟨_, he⟩ | ⟨_, he⟩ | ⟨rfl, _⟩ | ⟨_, he⟩ := ha.role hh hp rfl
    · exact nomatch he
    · exact nomatch he
    · rfl
    · exact nomatch he
  · rw [ha.fields]
    obtain ⟨_, he⟩ | ⟨rfl, _⟩ | ⟨_, he⟩ | ⟨_, he⟩ := ha.role hh hp rfl
    · exact nomatch he
    · rfl
    · exact nomatch he
    · exact nomatch he

end TaskAdded

/-- the child has the areas of its parent, and they are mapped as the parent's are -/
theorem taskClone_additive {J : Mm → Owners → Prop} {k k' : Kernel} {regs : Cpu} {parent : Nat} (hJ : Additive J)
    (hj : J k.heap.mm own) (hw : World k.heap own q) (hp : parent ∈ k.heap.live) (hb : Booked k.heap own parent ns)
    (hrun : k.taskClone regs parent = .ok (t, k')) : ∃ own' n ns', TaskCloned q regs parent k own k' own' t n ∧
      Booked k'.heap own' t ns' ∧ ns'.map k'.heap.areaOf = ns.map k.heap.areaOf ∧ J k'.heap.mm own' := by
  obtain ⟨_, h₁, own₁, n, stack, root, k₁, ha, hclone, rfl⟩ := taskClone_added hw hp hrun
  have hlive : t ∈ h₁.live := ha.live ▸ List.mem_cons_self
  have hplive : parent ∈ h₁.live := ha.live ▸ List.mem_cons_of_mem _ hp
  have hne : parent ≠ t := fun e => ha.fresh (e ▸ hp)
  have hu := ha.untouched parent hp
  have hb₁ := hb.untouched hw hp hu
  obtain ⟨own', ns', hg, hc, hb', hmap, hj'⟩ := vmClone_booked (k := k.setHeap h₁) hJ (hJ.task hw ha hj) (ha.booked hw.held) hb₁
    ha.world hlive hplive hne hclone
  have hof : ns.map h₁.areaOf = ns.map k.heap.areaOf :=
    List.map_congr_left fun j hj => hb.areaOf_untouched hw hp hu hj
  have hlive₁ : t ∈ k₁.heap.live := hg.live ▸ hlive
  obtain ⟨_, hq⟩ := hg.world.assignFrame t (k₁.task parent).userFrame
  have hu' := hq.untouched t hlive₁
  refine ⟨own', n, ns', ha.cloned hclone hg hc, hb'.untouched hg.world hlive₁ hu', ?_, hj'⟩
  rw [← hof]
  refine Eq.trans (List.map_congr_left fun j hj => ?_) hmap
  exact hb'.areaOf_untouched hg.world hlive₁ hu' hj

theorem taskClone_booked {k k' : Kernel} {regs : Cpu} {parent : Nat} (hw : World k.heap own q)
    (hp : parent ∈ k.heap.live) (hb : Booked k.heap own parent ns)
    (hrun : k.taskClone regs parent = .ok (t, k')) : ∃ own' n ns', TaskCloned q regs parent k own k' own' t n ∧
      Booked k'.heap own' t ns' ∧ ns'.map k'.heap.areaOf = ns.map k.heap.areaOf := by
  obtain ⟨own', n, ns', hc, hb', hmap, _⟩ := taskClone_additive .true trivial hw hp hb hrun
  exact ⟨own', n, ns', hc, hb', hmap⟩

end FakeKernel
