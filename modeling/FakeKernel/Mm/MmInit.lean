import FakeKernel.Mm.Refine
import FakeKernel.Mm.Demand

/-!
# Memory management at boot

main maps the kernel in `early_page_table` first, when there is no page allocator yet; mm_init then takes two pages for the
tables of the page at address 0, and nobody gives them back.

* `establishIdenticalMapping`, `mmInit`   what main calls;
* `EarlyTable`        where `early_page_table` lies;
* `init_below`        page_allocator_init writes to no byte below its first page;
* `mmInit_total`      mm_init returns;
* `MmStart`           the state behind it: the allocator is sound, and two pages are outstanding.
-/

namespace FakeKernel
open Bytes Bitfield Mm

variable {m m' : Mem} {a : Mm} {early i x : Nat}

/-! ## what main calls -/

/-- the memory behind establish_identical_mapping; set_page_1g does not look at the lists of the allocator -/
def establishIdenticalMapping (early : Nat) (m : Mem) : Res Mem := do
  let a ← mapKernelPages early { buddy := { mem := m, buddyPages := fun _ => 0 }, out := [] }
  .ok a.mem

/-- `mm_init`; what set_page returns is ignored -/
def mmInit (early : Nat) (m : Mem) : Res Mm := do
  let (_, a) ← setPage early 0 0 0 (Mm.init m)
  .ok a

/-- `early_page_table` is a page of zeros in the kernel's image -/
structure EarlyTable (early : Nat) (m : Mem) : Prop where
  page : pageSize ∣ early
  image : early + pageSize ≤ kernPhyBase + 2 ^ 20
  zero : ∀ i < entryCount, entry m early i = 0

/-! ## below the first page of the allocator -/

theorem linkAreas_below {areaSize page fuel : Nat} (hx : x < page) :
    Buddy.linkAreas areaSize fuel page m x = m x := by
  induction fuel generalizing page m with
  | zero => rfl
  | succ fuel ih =>
    unfold Buddy.linkAreas
    split
    · rw [ih (Nat.lt_of_lt_of_le hx (Nat.le_add_right _ _))]
      exact store_apply_out (.inl hx)
    · rfl

theorem init_below (hx : x < kernPhyBase + 2 ^ 20) : (Mm.init m).mem x = m x := by
  obtain ⟨area, harea⟩ : ∃ area, area = pageSize <<< (maxOrder - 1) := ⟨_, rfl⟩
  have h1 : x < kernPhyBase + area := by
    rw [harea]
    exact Nat.lt_trans hx (by decide)
  have h2 : x < kernPhyStop - area := by
    rw [harea]
    exact Nat.lt_of_lt_of_le hx (by decide)
  have hout : ∀ {m : Mem} {p : Nat}, x < p → setLink m p 0 x = m x := fun h => store_apply_out (.inl h)
  have hinit : (Mm.init m).mem = setLink (setLink (setLink (Buddy.linkAreas area (phySize / area)
      (kernPhyBase + area) m) (kernPhyStop - area) 0) (kernPhyBase + area) 0) (kernPhyBase + 2 ^ 20) 0 := by
    rw [harea]
    rfl
  rw [hinit, hout hx, hout h1, hout h2, linkAreas_below h1]

/-! ## the early table -/

def mmioPte : Nat := updatePte mmioPhy mmioFlags 0
def kernPte : Nat := updatePte kernPhy kernFlags 0

/-- the early table is filled, and nothing else is written -/
theorem establishIdenticalMapping_spec (he : EarlyTable early m) (hrun : establishIdenticalMapping early m = .ok m') :
    (∀ i < entryCount, entry m' early i =
      if i = Sv39Va.vpn2 kernBase then kernPte else if i = Sv39Va.vpn2 mmioBase then mmioPte else 0) ∧
    ∀ x, ¬ onPage early x → m' x = m x := by
  have hm' : m' = setEntry (setEntry m early (Sv39Va.vpn2 mmioBase) (updatePte mmioPhy mmioFlags (entry m early (Sv39Va.vpn2 mmioBase))))
      early (Sv39Va.vpn2 kernBase) (updatePte kernPhy kernFlags (entry (setEntry m early (Sv39Va.vpn2 mmioBase)
        (updatePte mmioPhy mmioFlags (entry m early (Sv39Va.vpn2 mmioBase)))) early (Sv39Va.vpn2 kernBase))) :=
    (Except.ok.inj hrun).symm
  have hmmio : Sv39Va.vpn2 mmioBase < entryCount := by decide
  have hkern : Sv39Va.vpn2 kernBase < entryCount := by decide
  have hne : Sv39Va.vpn2 kernBase ≠ Sv39Va.vpn2 mmioBase := by decide
  rw [he.zero _ hmmio, entry_setEntry_of_ne he.page he.page hmmio hkern (.inr hne), he.zero _ hkern] at hm'
  have hm' : m' = setEntry (setEntry m early (Sv39Va.vpn2 mmioBase) mmioPte) early (Sv39Va.vpn2 kernBase) kernPte := hm'
  refine ⟨fun i hi => ?_, fun x hx => ?_⟩
  · rw [hm']
    by_cases hk : i = Sv39Va.vpn2 kernBase
    · rw [if_pos hk, hk]
      exact entry_setEntry_self (by decide)
    · rw [if_neg hk, entry_setEntry_of_ne he.page he.page hkern hi (.inr hk)]
      by_cases hi' : i = Sv39Va.vpn2 mmioBase
      · rw [if_pos hi', hi']
        exact entry_setEntry_self (by decide)
      · rw [if_neg hi', entry_setEntry_of_ne he.page he.page hmmio hi (.inr hi'), he.zero i hi]
  · have hout : x < early ∨ early + pageSize ≤ x := by
      unfold onPage at hx
      omega
    rw [hm', setEntry_apply_out hkern hout, setEntry_apply_out hmmio hout]

/-- the state in which mm_init calls set_page -/
theorem earlyTable_wellFormed (he : EarlyTable early m) (hrun : establishIdenticalMapping early m = .ok m') :
    WellFormed (Mm.init m') early ∧ tables (Mm.init m').mem 2 early = [early] := by
  obtain ⟨hentry, _⟩ := establishIdenticalMapping_spec he hrun
  have hbelow : ∀ i < entryCount, entry (Mm.init m').mem early i =
      if i = Sv39Va.vpn2 kernBase then kernPte else if i = Sv39Va.vpn2 mmioBase then mmioPte else 0 := by
    intro i hi
    rw [← hentry i hi]
    refine entry_congr hi fun x _ hx => init_below ?_
    have himage := he.image
    omega
  have hleaf : ∀ i < entryCount, pteInvalidOrLeaf (entry (Mm.init m').mem early i) = true := by
    intro i hi
    rw [hbelow i hi]
    split
    · decide
    · split <;> decide
  have htab : tables (Mm.init m').mem 2 early = [early] := tables_of_leaves hleaf
  refine ⟨⟨Mm.init_ok m', ⟨?_, aligned_succ.mpr fun i hi => ?_⟩, he.page, fun s hs x hx => .inl fun hu => ?_⟩, htab⟩
  · rw [htab]
    exact List.nodup_singleton early
  · rw [if_pos (hleaf i hi), hbelow i hi]
    split
    · decide
    · split <;> decide
  · rw [htab] at hs
    rw [List.mem_singleton.mp hs] at hx
    have himage := he.image
    have h1 := hu.1
    have h2 := hx.2
    omega

/-! ## mm_init -/

/-- behind mm_init; `m` is the memory before it -/
structure MmStart (early : Nat) (m : Mem) (a : Mm) : Prop where
  ok : a.Ok
  /-- two pages are outstanding -/
  out : ∃ s s', a.out = [pageAt s, pageAt s']
  same : ∀ x < kernPhyBase + 2 ^ 20, ¬ onPage early x → a.mem x = m x

theorem mmInit_spec (he : EarlyTable early m) (hmap : establishIdenticalMapping early m = .ok m') (hrun : mmInit early m' = .ok a) :
    MmStart early m a := by
  obtain ⟨hw, htab⟩ := earlyTable_wellFormed he hmap
  obtain ⟨⟨r, a'⟩, hset, hret⟩ := Res.bind_eq_ok.mp hrun
  cases hret
  have hsingle : ∀ s ∈ tables (Mm.init m').mem 2 early, s = early := by
    intro s hs
    rw [htab] at hs
    exact List.mem_singleton.mp hs
  obtain ⟨_, N, hsplit, hcard⟩ := setPage_demand hw (by decide) (Tabled.single hw hsingle) hset
  have hx := hsplit.grow
  have htwo : N.length = 2 := hcard
  obtain ⟨s, s', hN⟩ : ∃ s s', N = [s, s'] := List.length_eq_two.mp htwo
  refine ⟨hx.ok, ⟨s, s', ?_⟩, fun x hx' hnot => ?_⟩
  · rw [hx.out, hN]
    rfl
  · have hout : x ∉ usable := fun hu => Nat.not_le.mpr hx' hu.1
    rw [hx.frame x (.inl hout) fun s hs hon => hnot (hsingle s hs ▸ hon), init_below hx']
    exact (establishIdenticalMapping_spec he hmap).2 x hnot

theorem mmInit_total (he : EarlyTable early m) : ∃ m' a, establishIdenticalMapping early m = .ok m' ∧ mmInit early m' = .ok a := by
  obtain ⟨a₁, hmap⟩ := mapKernelPages_total early { buddy := { mem := m, buddyPages := fun _ => 0 }, out := [] }
  have hmap : establishIdenticalMapping early m = .ok a₁.mem := by
    unfold establishIdenticalMapping
    rw [hmap]
    rfl
  obtain ⟨hw, _⟩ := earlyTable_wellFormed he hmap
  have hroom : (Mm.init a₁.mem).Room 2 := ⟨Mm.init_ok _, nofun, show 0 + 2 ≤ pageCount by decide⟩
  obtain ⟨r, a, hset⟩ : ∃ r a, setPage early 0 0 0 (Mm.init a₁.mem) = .ok (r, a) :=
    hroom.setPage hw (show Sv39Va.off 0 = 0 from rfl) (show Sv39Pa.off 0 = 0 from rfl)
  refine ⟨a₁.mem, a, hmap, ?_⟩
  unfold mmInit
  rw [hset]
  rfl

theorem MmStart.room (hs : MmStart early m a) : a.Room 766 := by
  obtain ⟨s, s', hout⟩ := hs.out
  refine ⟨hs.ok, fun p hp => ?_, ?_⟩
  · rw [hout] at hp
    simp only [List.mem_cons, List.not_mem_nil, or_false] at hp
    rcases hp with rfl | rfl <;> rfl
  · rw [hout]
    show 2 + 766 ≤ pageCount
    decide

end FakeKernel
