import FakeKernel.Kernel.Context

/-!
# The rights of user pages

* `Heap.RightsKept`         a page of an area can be read, written and executed as the area says;
* `Built`                   the areas and the mappings of a task that is being made;
* `Elf.SharesRights`        what load_elf needs for that, `Kernel.GrantsNothing` what fork and a growing stack need;
* `rights_kept`             every run whose steps do so keeps the rights.
-/

namespace FakeKernel
open Bytes Mm Heap Kernel Bitfield

variable {k k' k₁ : Kernel} {h h' : Heap} {own own' : Owners} {q q' : TaskList → List Nat} {e : Elf} {o : Oracle}
  {t t' n a m p va flags : Nat} {x : VmArea} {ph : Phdr} {A : VmArea → Prop} {F G : Nat → Nat → Prop}

/-! ## rights -/

/-- the flags of a page give the rights that the flags of an area give -/
def SameRights (pte vm : Nat) : Prop :=
  (pte &&& pteRead ≠ 0 ↔ vm &&& vmRead ≠ 0) ∧ (pte &&& pteWrite ≠ 0 ↔ vm &&& vmWrite ≠ 0) ∧ (pte &&& pteExec ≠ 0 ↔ vm &&& vmExec ≠ 0)

def AllRights (vm : Nat) : Prop := vm &&& vmRead ≠ 0 ∧ vm &&& vmWrite ≠ 0 ∧ vm &&& vmExec ≠ 0

/-- what user code of `t` can do with a page of an area is what the area says -/
def Heap.RightsKept (h : Heap) (t : Nat) : Prop :=
  ∀ n, h.AreaNode t n → ∀ y tr, UserMapped h t y tr → y / pageSize ∈ (h.areaOf n).vpns → SameRights tr.flags (h.areaOf n).flags

/-- the same without the links, and the addresses of areas have 64 bits -/
structure Righted (h : Heap) (t : Nat) : Prop where
  word : ∀ n, h.AreaNode t n → (h.areaOf n).va < wordCount
  rights : ∀ n, h.AreaNode t n → ∀ y < 2 ^ 39, ∀ tr, mapOf h (h.task t).pageTable y = some tr → tr.flags &&& pteUser ≠ 0 →
    y / pageSize ∈ (h.areaOf n).vpns → SameRights tr.flags (h.areaOf n).flags

/-- the flags that pte_flags_from_vm_flags gives are those of an area with all rights -/
theorem AllRights.same {vm : Nat} (hv : AllRights vm) (f : Nat) : SameRights (pteFlagsFromVmFlags f ||| pteUser) vm := by
  rw [pteFlagsFromVmFlags_eq]
  obtain ⟨hr, hw, hx⟩ := hv
  exact ⟨iff_of_true (by decide) hr, iff_of_true (by decide) hw, iff_of_true (by decide) hx⟩

theorem setLeaf_flags {level pa y : Nat} {tr : Translation} (hs : setLeaf level pa flags y = some tr) : tr.flags = flags := by
  unfold setLeaf at hs
  split at hs
  · rw [← Option.some.inj hs]
  · exact nomatch hs

/-! ## the list of areas -/

/-- a list whose links have not changed -/
theorem areaNode_congr (hlist : h'.lists.list (.vmAreas t) = h.lists.list (.vmAreas t))
    (hnode : ∀ m, h.AreaNode t m → h'.node m = h.node m) : h'.AreaNode t n ↔ h.AreaNode t n := by
  constructor
  · intro hn
    induction hn with
    | first h0 =>
      rw [hlist] at h0 ⊢
      exact .first h0
    | next _ h0 ih =>
      have he := hnode _ ih
      rw [he] at h0 ⊢
      exact .next ih h0
  · intro hn
    induction hn with
    | first h0 =>
      rw [← hlist] at h0 ⊢
      exact .first h0
    | next hn h0 ih =>
      have he := hnode _ hn
      rw [← he] at h0 ⊢
      exact .next ih h0

/-- a task that others have left alone keeps its list -/
theorem Untouched.areaNode (hu : Untouched h h' own own' t) (hA : Areas h.lists own t) : h'.AreaNode t n ↔ h.AreaNode t n :=
  areaNode_congr hu.vm fun _ hm => hu.node _ .vnode (hm.obj hA) rfl

theorem Righted.untouched (hr : Righted h t) (hw : World h own q) (ht : t ∈ h.live) (hu : Untouched h h' own own' t) : Righted h' t := by
  have hA := hw.areas t ht
  have hof : ∀ n, h.AreaNode t n → h'.areaOf n = h.areaOf n := fun n hn => (hu.areaOf hA (hn.obj hA)).2
  refine ⟨fun n hn => ?_, fun n hn y hy tr hm hu' hin => ?_⟩
  · have hn := (hu.areaNode hA).mp hn
    rw [hof n hn]
    exact hr.word n hn
  · have hn := (hu.areaNode hA).mp hn
    rw [hof n hn] at hin ⊢
    rw [hu.task.2.2.1, hu.mapOf (hw.maps t ht)] at hm
    exact hr.rights n hn y hy tr hm hu' hin

/-- and it had no rights before that it does not have now -/
theorem Untouched.rightsKept (hu : Untouched h h' own own' t) (hw : World h own q) (hlive : h'.live = h.live) (hk : h'.RightsKept t) :
    h.RightsKept t := by
  intro n hn y tr hm hin
  have hA := hw.areas t hm.live
  have hof := (hu.areaOf hA (hn.obj hA)).2
  have hm' : UserMapped h' t y tr := by
    refine ⟨hlive ▸ hm.live, hm.lt, ?_, hm.user⟩
    rw [hu.task.2.2.1, hu.mapOf (hw.maps t hm.live)]
    exact hm.map
  have hs := hk n ((hu.areaNode hA).mpr hn) y tr hm'
  rw [hof] at hs
  exact hs hin

theorem Righted.kept (hr : Righted h t) : h.RightsKept t := fun n hn y tr hm hin =>
  hr.rights n hn y hm.lt tr hm.map hm.user hin

/-! ## a task that is being made -/

/-- the areas that a task has are in `A`, and the flags of its user pages are in `F` -/
structure Built (A : VmArea → Prop) (F : Nat → Nat → Prop) (h : Heap) (own : Owners) (t : Nat) : Prop where
  areas : ∀ a n, own.Obj a t (.area n) → A (h.area a)
  map : ∀ y tr, mapOf h (h.task t).pageTable y = some tr → tr.flags &&& pteUser ≠ 0 → F y tr.flags

namespace Built

theorem untouched (hb : Built A F h own t) (hw : World h own q) (ht : t ∈ h.live) (hu : Untouched h h' own own' t) :
    Built A F h' own' t := by
  refine ⟨fun a n ha => ?_, fun y tr hm hu' => ?_⟩
  · have ha := (hu.obj rfl).mp ha
    rw [hu.area a n ha]
    exact hb.areas a n ha
  · rw [hu.task.2.2.1, hu.mapOf (hw.maps t ht)] at hm
    exact hb.map y tr hm hu'

/-- an area is added -/
theorem addArea (hb : Built A F h own t) (hat : AreaTurn q t x h own h' own' n a) (hw : World h own q) (ht : t ∈ h.live) (hx : A x) :
    Built A F h' own' t := by
  refine ⟨fun b m hb' => ?_, fun y tr hm hu => ?_⟩
  · rcases (hat.obj_iff hw.held).mp hb' with ⟨rfl, _⟩ | ⟨_, _, hr⟩ | hold
    · rw [hat.area]
      exact hx
    · exact nomatch hr
    · rw [hat.added.area b (hat.ne hw.held hold).1]
      exact hb.areas b m hold
  · rw [hat.added.task, hat.mapOf hw ht] at hm
    exact hb.map y tr hm hu

/-- a page is added to an area, which stays as it is -/
theorem addPage (hb : Built A F h own t) (hpt : PageTurn q t a va flags h own h' own' p m) (hw : World h own q) (ht : t ∈ h.live)
    (hsame : h'.area a = h.area a) (hnew : ∀ y, SamePage 0 y va → G y flags) (hold : ∀ y f, ¬ SamePage 0 y va → F y f → G y f) :
    Built A G h' own' t := by
  obtain ⟨N, M, hk⟩ := hpt.takes hw.held
  obtain ⟨_, hs⟩ := hpt.grown.step
  refine ⟨fun b m hb' => ?_, fun y tr hm hu => ?_⟩
  · have hb' := (hk.obj_old (r := .area m) rfl nofun nofun nofun).mp hb'
    have he : h'.area b = h.area b := by
      by_cases hba : b = a
      · rw [hba]
        exact hsame
      · exact hpt.area b hba
    rw [he]
    exact hb.areas b m hb'
  · rw [(hs.task t ht).2.2.1, hpt.map] at hm
    by_cases hy : SamePage 0 y va
    · rw [if_pos hy] at hm
      rw [setLeaf_flags hm]
      exact hnew y hy
    · rw [if_neg hy] at hm
      exact hold y _ hy (hb.map y tr hm hu)

/-- a task without areas -/
theorem start {parent stack root : Nat} (ha : TaskAdded q parent h own h' own' t n stack root) (hh : Held h own) : Built A F h' own' t := by
  refine ⟨fun b m hb => ?_, fun y tr hm hu => ?_⟩
  · rcases ha.role hh hb.page rfl with ⟨_, hr⟩ | ⟨_, hr⟩ | ⟨_, hr⟩ | ⟨_, hr⟩
    · exact nomatch hr
    · exact nomatch hr
    · exact nomatch hr
    · exact nomatch hr
  · have hroot : (h'.task t).pageTable = root := by
      rw [ha.fields]
      rfl
    rw [hroot, ha.map] at hm
    exact absurd (kernelMap_user hm) hu

theorem mono {B : VmArea → Prop} (hb : Built A F h own t) (hA : ∀ x, A x → B x) (hF : ∀ y f, F y f → G y f) : Built B G h own t :=
  ⟨fun a n ha => hA _ (hb.areas a n ha), fun y tr hm hu => hF _ _ (hb.map y tr hm hu)⟩

theorem righted (hb : Built A F h own t) (hA : Areas h.lists own t) (hword : ∀ x, A x → x.va < wordCount)
    (hsame : ∀ x y f, A x → y < 2 ^ 39 → y / pageSize ∈ x.vpns → F y f → SameRights f x.flags) : Righted h t :=
  ⟨fun n hn => hword _ (hb.areas _ n (hn.area hA)),
    fun n hn y hy tr hm hu hin => hsame _ y _ (hb.areas _ n (hn.area hA)) hy hin (hb.map y tr hm hu)⟩

end Built

/-! ## load_elf -/

/-- whether a program header lets its pages be read, written and executed -/
def Phdr.rights (ph : Phdr) : Bool × Bool × Bool := (ph.pFlags &&& PF_R != 0, ph.pFlags &&& PF_W != 0, ph.pFlags &&& PF_X != 0)

/-- what loadSegments finds out about the stack, from the `i`-th program header on -/
def Elf.execstackFrom (e : Elf) : Nat → Nat → Bool → Bool
  | 0, _, execstack => execstack
  | n + 1, i, execstack =>
    let ph := e.phdr i
    if ph.pType = PT_LOAD then e.execstackFrom n (i + 1) execstack
    else if ph.pType = PT_DYNAMIC ∨ ph.pType = PT_INTERP then execstack
    else if ph.pType = PT_GNU_STACK then e.execstackFrom n (i + 1) (ph.pFlags &&& PF_X != 0)
    else e.execstackFrom n (i + 1) execstack

def Elf.execstack (e : Elf) : Bool := e.execstackFrom e.ePhnum 0 false

/-- segments that share a page have the same rights, and so have the stack and a segment that reaches into its page -/
structure Elf.SharesRights (e : Elf) : Prop where
  segments : ∀ ph ∈ e.loaded, ∀ ph' ∈ e.loaded, ∀ y < 2 ^ 39, y / pageSize ∈ ph.area.vpns → ph'.Covers y → ph'.rights = ph.rights
  stack : ∀ ph ∈ e.loaded, ∀ y < 2 ^ 39, y / pageSize ∈ ph.area.vpns → SamePage 0 y stackBegin → ph.rights = (true, true, e.execstack)

/-- from the `i`-th program header on -/
theorem Elf.execstackFrom_of_lt {i : Nat} (hi : i < e.ePhnum) (b : Bool) : e.execstackFrom (e.ePhnum - i) i b =
    if (e.phdr i).pType = PT_LOAD then e.execstackFrom (e.ePhnum - (i + 1)) (i + 1) b
    else if (e.phdr i).pType = PT_DYNAMIC ∨ (e.phdr i).pType = PT_INTERP then b
    else if (e.phdr i).pType = PT_GNU_STACK then e.execstackFrom (e.ePhnum - (i + 1)) (i + 1) ((e.phdr i).pFlags &&& PF_X != 0)
    else e.execstackFrom (e.ePhnum - (i + 1)) (i + 1) b := by
  have hn : e.ePhnum - i = e.ePhnum - (i + 1) + 1 := by omega
  rw [hn]
  rfl

theorem Elf.execstackFrom_of_ge {i : Nat} (hi : ¬ i < e.ePhnum) (b : Bool) : e.execstackFrom (e.ePhnum - i) i b = b := by
  have hn : e.ePhnum - i = 0 := by omega
  rw [hn]
  rfl

/-- the loop over the program headers finds out what the image says about its stack -/
theorem Elf.LiesIn.execstack {i : Nat} {b b' : Bool} (hin : e.LiesIn h.mm.mem) (hw : World h own q) (ht : t ∈ h.live)
    (hrun : h.loadSegments t e.program n i b = .ok (.ok b', h')) : b' = e.execstackFrom (e.ePhnum - i) i b := by
  induction n generalizing h own i b with
  | zero => exact nomatch hrun
  | succ n ih =>
    rw [hin.loadSegments] at hrun
    by_cases hi : i < e.ePhnum
    · rw [if_pos hi] at hrun
      rw [e.execstackFrom_of_lt hi]
      by_cases hload : (e.phdr i).pType = PT_LOAD
      · rw [if_pos hload] at hrun ⊢
        obtain ⟨h₁, hseg, hrun⟩ := Res.bind_eq_ok.mp hrun
        obtain ⟨own₁, hg⟩ := loadSegment_world hw ht hseg
        exact ih (hin.step hw hg) hg.world (hg.live ▸ ht) hrun
      rw [if_neg hload] at hrun ⊢
      by_cases hdyn : (e.phdr i).pType = PT_DYNAMIC ∨ (e.phdr i).pType = PT_INTERP
      · rw [if_pos hdyn] at hrun
        cases (Prod.mk.inj (Except.ok.inj hrun)).1
      rw [if_neg hdyn] at hrun ⊢
      by_cases hstack : (e.phdr i).pType = PT_GNU_STACK
      · rw [if_pos hstack] at hrun ⊢
        exact ih hin hw ht hrun
      · rw [if_neg hstack] at hrun ⊢
        exact ih hin hw ht hrun
    · rw [if_neg hi] at hrun
      rw [e.execstackFrom_of_ge hi]
      cases hrun
      rfl

theorem Phdr.pteFlags_rights (ph : Phdr) : (ph.pteFlags &&& pteRead ≠ 0 ↔ ph.rights.1 = true) ∧
    (ph.pteFlags &&& pteWrite ≠ 0 ↔ ph.rights.2.1 = true) ∧ (ph.pteFlags &&& pteExec ≠ 0 ↔ ph.rights.2.2 = true) := by
  unfold Phdr.pteFlags Phdr.rights
  by_cases hr : ph.pFlags &&& PF_R = 0 <;> by_cases hw : ph.pFlags &&& PF_W = 0 <;> by_cases hx : ph.pFlags &&& PF_X = 0 <;>
    simp only [hr, hw, hx, bne_iff_ne, ne_eq, not_true_eq_false, not_false_eq_true, if_true, if_false] <;> decide

theorem Phdr.areaFlags_rights (ph : Phdr) : (ph.areaFlags &&& vmRead ≠ 0 ↔ ph.rights.1 = true) ∧
    (ph.areaFlags &&& vmWrite ≠ 0 ↔ ph.rights.2.1 = true) ∧ (ph.areaFlags &&& vmExec ≠ 0 ↔ ph.rights.2.2 = true) := by
  unfold Phdr.areaFlags Phdr.rights
  by_cases hr : ph.pFlags &&& PF_R = 0 <;> by_cases hw : ph.pFlags &&& PF_W = 0 <;> by_cases hx : ph.pFlags &&& PF_X = 0 <;>
    simp only [hr, hw, hx, bne_iff_ne, ne_eq, not_true_eq_false, not_false_eq_true, if_true, if_false] <;> decide

theorem stackPteFlags_rights (b : Bool) : ((stackPteFlags b ||| pteUser) &&& pteRead ≠ 0 ↔ (true, true, b).1 = true) ∧
    ((stackPteFlags b ||| pteUser) &&& pteWrite ≠ 0 ↔ (true, true, b).2.1 = true) ∧
    ((stackPteFlags b ||| pteUser) &&& pteExec ≠ 0 ↔ (true, true, b).2.2 = true) := by
  cases b <;> decide

/-- the two encodings agree when the rights do -/
theorem SameRights.of_rights {pte vm : Nat} {r : Bool × Bool × Bool}
    (hp : (pte &&& pteRead ≠ 0 ↔ r.1 = true) ∧ (pte &&& pteWrite ≠ 0 ↔ r.2.1 = true) ∧ (pte &&& pteExec ≠ 0 ↔ r.2.2 = true))
    (hv : (vm &&& vmRead ≠ 0 ↔ r.1 = true) ∧ (vm &&& vmWrite ≠ 0 ↔ r.2.1 = true) ∧ (vm &&& vmExec ≠ 0 ↔ r.2.2 = true)) :
    SameRights pte vm := ⟨hp.1.trans hv.1.symm, hp.2.1.trans hv.2.1.symm, hp.2.2.trans hv.2.2.symm⟩

/-- the areas of segments of the image -/
def Elf.IsArea (e : Elf) (x : VmArea) : Prop := ∃ ph ∈ e.loaded, x = ph.area

/-- the flags that some segment gives to its pages -/
def Elf.IsPage (e : Elf) (y f : Nat) : Prop := ∃ ph ∈ e.loaded, ph.Covers y ∧ f = ph.pteFlags

theorem Elf.area_word (hp : ph ∈ e.loaded) : ph.area.va < wordCount := by
  obtain ⟨j, rfl⟩ := Elf.mem_loadedFrom hp
  exact setField_lt (n := 64) (by decide) (load_lt 8 _ _)

theorem loadSegment_built (hp : ph ∈ e.loaded) (hb : Built e.IsArea e.IsPage h own t) (hw : World h own q) (ht : t ∈ h.live)
    (hrun : h.loadSegment t e.program ph = .ok h') : ∃ own', Grown q t h own h' own' ∧ Built e.IsArea e.IsPage h' own' t := by
  obtain ⟨own₁, n, a, h₁, hat, hpages⟩ := loadSegment_turn hw ht hrun
  have ht₁ : t ∈ h₁.live := hat.grown.live ▸ ht
  obtain ⟨hdvd, hlt⟩ := endAddr_spec ph
  obtain ⟨own', _, hg, ⟨_, _, _, _, hb'⟩, _⟩ := loadPages_rule
    (I := fun addr h own => World h own q ∧ t ∈ h.live ∧ pageSize ∣ addr ∧ ph.addr ≤ addr ∧ Built e.IsArea e.IsPage h own t)
    (pteFlags_lt ph) ph.pteFlags_user
    (fun {addr h own h' own' p m} hI hend hpt hsame => by
      obtain ⟨hw, ht, ha, hle, hb⟩ := hI
      obtain ⟨c, hc⟩ := ha
      obtain ⟨d, hd⟩ := hdvd
      have hnext : (addr + pageSize) % wordCount = addr + pageSize := by
        apply Nat.mod_eq_of_lt
        unfold wordCount pageSize at *
        omega
      rw [hnext]
      refine ⟨hpt.grown.world, hpt.grown.live ▸ ht, ⟨c + 1, by rw [hc]; ring⟩, Nat.le_trans hle (Nat.le_add_right _ _), ?_⟩
      exact hb.addPage hpt hw ht hsame (fun y hy => ⟨ph, hp, ⟨addr, hle, hend, hy⟩, rfl⟩) fun y f _ hf => hf)
    ⟨hat.grown.world, ht₁, dvd_addr ph, Nat.le_refl _, hb.addArea hat hw ht ⟨ph, hp, rfl⟩⟩ hat.grown.world ht₁ rfl hat.obj.1 hpages
  exact ⟨own', hat.grown.trans hg, hb'⟩

/-- the page of the stack is mapped last -/
theorem loadStack_built {b : Bool} (hb : Built e.IsArea e.IsPage h own t) (hw : World h own q) (ht : t ∈ h.live)
    (hrun : h.loadStack t e.program b = .ok h') : ∃ own', Grown q t h own h' own' ∧ own'.Obj (h'.lists.list (.vmAreas t)).last t .vnode ∧
      Built (fun x => e.IsArea x ∨ x = stackArea b)
        (fun y f => if SamePage 0 y stackBegin then f = stackPteFlags b ||| pteUser else e.IsPage y f) h' own' t := by
  obtain ⟨p, n, a, m, own₁, own₂, h₁, h₂, h₃, hloose, hat, hpt, hsame, rfl⟩ := loadStack_turn hw ht hrun
  have ht₁ : t ∈ h₁.live := hloose.grown.live ▸ ht
  have ht₂ : t ∈ h₂.live := hat.grown.live ▸ ht₁
  have ht₃ : t ∈ h₃.live := hpt.grown.live ▸ ht₂
  have hb₁ := hb.untouched hw ht (hloose.untouched hw t)
  have hb₂ : Built (fun x => e.IsArea x ∨ x = stackArea b) e.IsPage h₂ own₁ t :=
    (hb₁.mono (fun _ => .inl) fun _ _ => id).addArea hat hloose.grown.world ht₁ (.inr rfl)
  have hb₃ := hb₂.addPage (G := fun y f => if SamePage 0 y stackBegin then f = stackPteFlags b ||| pteUser else e.IsPage y f)
    hpt hat.grown.world ht₂ hsame (fun y hy => by rw [if_pos hy]) fun y f hy hf => by rw [if_neg hy]; exact hf
  obtain ⟨hw', hq⟩ := hpt.grown.world.assignFrame t (startFrame (h₃.image e.program).eEntry)
  have hframe := hpt.grown.world.setFrame t t (startFrame (h₃.image e.program).eEntry)
  refine ⟨own₂, ((hloose.grown.trans hat.grown).trans hpt.grown).trans hframe, ?_, hb₃.untouched hpt.grown.world ht₃ (hq.untouched t ht₃)⟩
  show own₂.Obj (h₃.lists.list (.vmAreas t)).last t .vnode
  rw [hpt.vmList, hat.added.last]
  exact hpt.grown.mono.obj hat.obj.2 rfl

/-- load_elf gives the pages of a new task the rights of their areas -/
theorem loadElf_righted {err : Int} (he : e.SharesRights) (hl : e.LiesIn h.mm.mem) (hb : Built e.IsArea e.IsPage h own t)
    (hw : World h own q) (ht : t ∈ h.live) (hrun : h.loadElf t e.program = .ok (err, h')) : ∃ own', Grown q t h own h' own' ∧ Righted h' t ∧
      (err = 0 → own'.Obj (h'.lists.list (.vmAreas t)).last t .vnode) := by
  have hsegs : ∀ x y f, e.IsArea x → y < 2 ^ 39 → y / pageSize ∈ x.vpns → e.IsPage y f → SameRights f x.flags := by
    rintro x y f ⟨ph, hp, rfl⟩ hy hin ⟨ph', hp', hcov, rfl⟩
    have hr := ph'.pteFlags_rights
    rw [he.segments ph hp ph' hp' y hy hin hcov] at hr
    exact .of_rights hr ph.areaFlags_rights
  have hword : ∀ x, e.IsArea x → x.va < wordCount := by
    rintro x ⟨ph, hp, rfl⟩
    exact Elf.area_word hp
  unfold Heap.loadElf at hrun
  by_cases hmach : (h.image e.program).eMachine ≠ EM_RISCV
  · rw [if_pos hmach] at hrun
    cases hrun
    exact ⟨own, .refl hw t, hb.righted (hw.areas t ht) hword hsegs, fun h0 => absurd h0 (by decide)⟩
  rw [if_neg hmach] at hrun
  obtain ⟨⟨res, h₁⟩, hload, hrun⟩ := Res.bind_eq_ok.mp hrun
  obtain ⟨own₁, hg, ⟨_, hb₁⟩⟩ := loadSegments_image_rule (i := 0)
    (I := fun l h own => (∀ ph ∈ l, ph ∈ e.loaded) ∧ Built e.IsArea e.IsPage h own t)
    (fun {ph l h own h'} hI hw ht hseg => by
      obtain ⟨own', hg, hb'⟩ := loadSegment_built (hI.1 ph List.mem_cons_self) hI.2 hw ht hseg
      exact ⟨own', hg, fun ph' hin => hI.1 ph' (List.mem_cons_of_mem _ hin), hb'⟩)
    hl ⟨fun _ => id, hb⟩ hw ht hload
  have ht₁ : t ∈ h₁.live := hg.live ▸ ht
  cases res with
  | error err' =>
    cases hrun
    refine ⟨own₁, hg, hb₁.righted (hg.world.areas t ht₁) hword hsegs, fun h0 => ?_⟩
    rw [loadSegments_error hload] at h0
    exact absurd h0 (by decide)
  | ok b =>
    obtain ⟨h₂, hstack, hret⟩ := Res.bind_eq_ok.mp hrun
    cases hret
    obtain ⟨own₂, hg₂, hlast, hb₂⟩ := loadStack_built hb₁ hg.world ht₁ hstack
    have hexec : b = e.execstack := hl.execstack hw ht hload
    refine ⟨own₂, hg.trans hg₂, hb₂.righted (hg₂.world.areas t (hg₂.live ▸ ht₁)) ?_ ?_, fun _ => hlast⟩
    · intro x hx
      cases hx with
      | inl hseg => exact hword x hseg
      | inr hst =>
        rw [hst]
        exact (by decide : stackBegin < wordCount)
    · intro x y f hx hy hin hf
      have hstackFlags : SameRights (stackPteFlags b ||| pteUser) (stackArea b).flags :=
        .of_rights (stackPteFlags_rights b) (by cases b <;> decide)
      by_cases hpage : SamePage 0 y stackBegin
      · rw [if_pos hpage] at hf
        rw [hf]
        rcases hx with ⟨ph, hp, rfl⟩ | rfl
        · have hr := ph.areaFlags_rights
          rw [he.stack ph hp y hy hin hpage, ← hexec] at hr
          exact .of_rights (stackPteFlags_rights b) hr
        · exact hstackFlags
      · rw [if_neg hpage] at hf
        rcases hx with hseg | rfl
        · exact hsegs x y f hseg hy hin hf
        · refine absurd ?_ hpage
          have hin := Finset.mem_Ico.mp hin
          have hva : (stackArea b).va = stackBegin := rfl
          have hn : (stackArea b).nPages = 1 := rfl
          rw [hva, hn] at hin
          unfold SamePage stackBegin userStack pageSize at *
          omega

theorem taskInitElf_righted {argv envp : Nat} {ret : Int} (he : e.SharesRights) (hl : e.LiesIn h.mm.mem)
    (hb : Built e.IsArea e.IsPage h own t) (hw : World h own q) (ht : t ∈ h.live) (hrun : h.taskInitElf t e.program argv envp = .ok (ret, h')) : Righted h' t := by
  unfold Heap.taskInitElf at hrun
  obtain ⟨_, _, hrun⟩ := Res.bind_eq_ok.mp hrun
  obtain ⟨_, _, hrun⟩ := Res.bind_eq_ok.mp hrun
  obtain ⟨⟨ret₁, h₁⟩, hload, hrun⟩ := Res.bind_eq_ok.mp hrun
  simp only at hrun
  obtain ⟨own₁, hg, hr, hlast⟩ := loadElf_righted he hl hb hw ht hload
  by_cases h0 : ret₁ = 0
  · subst h0
    rw [if_neg (not_not.mpr rfl)] at hrun
    have ht₁ : t ∈ h₁.live := hg.live ▸ ht
    obtain ⟨_, p, m, v, mem, frame, hp, hmem, rfl⟩ := initArgs_spec hg.world ht₁ (hlast rfl) hrun
    obtain ⟨hw₁, hq₁⟩ := hg.world.store hp hmem
    obtain ⟨_, hq₂⟩ := hw₁.assignFrame t frame
    exact hr.untouched hg.world ht₁ ((hq₁.trans hq₂).untouched t ht₁)
  · rw [if_pos h0] at hrun
    cases hrun
    exact hr

/-! ## fork -/

/-- an area all of whose pages may have all rights -/
def OpenArea (x : VmArea) : Prop := x.va < wordCount ∧ (x.nPages ≠ 0 → AllRights x.flags)

/-- flags that pte_flags_from_vm_flags gives -/
def OpenFlags (_ f : Nat) : Prop := ∃ vm, f = pteFlagsFromVmFlags vm ||| pteUser

theorem Built.open_righted (hb : Built OpenArea OpenFlags h own t) (hA : Areas h.lists own t) : Righted h t := by
  refine hb.righted hA (fun x hx => hx.1) fun x y f hx _ hin ⟨vm, hf⟩ => ?_
  have hne : x.nPages ≠ 0 := fun h0 => by
    unfold VmArea.vpns at hin
    rw [h0, Nat.add_zero, Finset.Ico_self] at hin
    exact absurd hin (Finset.notMem_empty _)
  rw [hf]
  exact (hx.2 hne).same vm

theorem cloneArea_open {regs : Cpu} {area : Nat} (hb : Built OpenArea OpenFlags k.heap own t) (hw : World k.heap own q)
    (ht : t ∈ k.heap.live) (hva : pageSize ∣ (k.heap.area area).va) (ho : OpenArea (k.heap.area area))
    (hrun : k.cloneArea regs t area = .ok k') :
    ∃ own', Grown q t k.heap own k'.heap own' ∧ SameControl k k' ∧ Built OpenArea OpenFlags k'.heap own' t := by
  obtain ⟨own₁, n, a, h₁, hat, _, hpages⟩ := cloneArea_turn hw ht hva hrun
  have ht₁ : t ∈ h₁.live := hat.grown.live ▸ ht
  have ho' : OpenArea { k.heap.area area with refcount := 1 } := ho
  have hb₁ : Built OpenArea OpenFlags h₁ own₁ t := hb.addArea hat hw ht ho'
  obtain ⟨own₂, _, hg₂, hc₂, _, _, hb₂⟩ := clonePages_rule (k := k.setHeap h₁)
    (I := fun _ _ k own => World k.heap own q ∧ t ∈ k.heap.live ∧ Built OpenArea OpenFlags k.heap own t) pteFlags_user_lt
    (fun {i va k own k' own' p m} hI hct => by
      obtain ⟨hw, ht, hb⟩ := hI
      refine ⟨hct.page.grown.world, hct.page.grown.live ▸ ht, hb.addPage hct.page hw ht ?_ (fun _ _ => ⟨_, rfl⟩) fun _ _ _ hf => hf⟩
      rw [hct.areas])
    ⟨hat.grown.world, ht₁, hb₁⟩ hat.grown.world ht₁ hat.obj.1 hpages
  exact ⟨own₂, hat.grown.trans hg₂, (SameControl.of_heap k hat.added.task).trans hc₂, hb₂⟩

/-- the areas of the parent are cloned one after the other -/
theorem vmClone_open {regs : Cpu} {parent : Nat} (hb : Built OpenArea OpenFlags k.heap own t) (hw : World k.heap own q)
    (ht : t ∈ k.heap.live) (hp : parent ∈ k.heap.live) (hne : parent ≠ t)
    (ho : ∀ n, k.heap.AreaNode parent n → OpenArea (k.heap.areaOf n)) (hrun : k.vmClone regs (.vmAreas parent) t = .ok k') :
    ∃ own', Grown q t k.heap own k'.heap own' ∧ SameControl k k' ∧ Built OpenArea OpenFlags k'.heap own' t := by
  have hA := hw.areas parent hp
  obtain ⟨own', hg, hc, _, _, _, hb'⟩ := vmCloneFrom_rule
    (I := fun node k₁ own₁ => (node = 0 ∨ k.heap.AreaNode parent node) ∧ parent ∈ k₁.heap.live ∧
      Untouched k.heap k₁.heap own own₁ parent ∧ Built OpenArea OpenFlags k₁.heap own₁ t)
    (fun {node k₁ own₁ k₂} hz hI hw₁ ht₁ hrun₁ => by
      obtain ⟨hnode, hp₁, hu, hb₁⟩ := hI
      have hnode := hnode.resolve_left hz
      obtain ⟨_, hof⟩ := hu.areaOf hA (hnode.obj hA)
      have hobj : own₁.Obj (k₁.heap.node node).value parent (.area node) :=
        ((hu.areaNode hA).mpr hnode).area (hw₁.areas parent hp₁)
      have hopen : OpenArea (k₁.heap.areaOf node) := hof ▸ ho node hnode
      obtain ⟨own₂, hg, hc, hb₂⟩ := cloneArea_open hb₁ hw₁ ht₁ (hw₁.aligned parent _ node hobj) hopen hrun₁
      have hu₂ := hu.trans (hg.untouched hw₁.held hp₁ hne)
      refine ⟨own₂, hg, hc, ?_, hg.live ▸ hp₁, hu₂, hb₂⟩
      have he : k₂.heap.node node = k.heap.node node := (hu₂.areaOf hA (hnode.obj hA)).1
      rw [he]
      by_cases h0 : (k.heap.node node).next = 0
      · exact .inl h0
      · exact .inr (hnode.next h0))
    ⟨(em _).imp_right fun h0 => .first h0, hp, .refl _ _ _, hb⟩ hw ht hrun
  exact ⟨own', hg, hc, hb'⟩

/-- the child of a task whose areas have all rights -/
theorem taskClone_righted {regs : Cpu} {parent : Nat} (hw : World k.heap own q) (hp : parent ∈ k.heap.live)
    (ho : ∀ n, k.heap.AreaNode parent n → OpenArea (k.heap.areaOf n)) (hrun : k.taskClone regs parent = .ok (t, k')) :
    Righted k'.heap t := by
  obtain ⟨_, h₁, own₁, n, stack, root, k₁, ha, hclone, rfl⟩ := taskClone_added hw hp hrun
  have ht₁ : t ∈ h₁.live := ha.live ▸ List.mem_cons_self
  have hp₁ : parent ∈ h₁.live := ha.live ▸ List.mem_cons_of_mem _ hp
  have hne : parent ≠ t := fun he => ha.fresh (he ▸ hp)
  have hu := ha.untouched parent hp
  have hA := hw.areas parent hp
  obtain ⟨own', hg, _, hb⟩ := vmClone_open (k := k.setHeap h₁) (Built.start ha hw.held) ha.world ht₁ hp₁ hne (fun m hm => by
    have hm := (hu.areaNode hA).mp hm
    show OpenArea (h₁.areaOf m)
    rw [(hu.areaOf hA (hm.obj hA)).2]
    exact ho m hm) hclone
  have ht : t ∈ k₁.heap.live := hg.live ▸ ht₁
  have hr := hb.open_righted (hg.world.areas t ht)
  obtain ⟨_, hq⟩ := hg.world.assignFrame t (k₁.task parent).userFrame
  exact hr.untouched hg.world ht (hq.untouched t ht)

/-! ## the growth of the stack -/

/-- an area grows downwards only -/
theorem expandStack_stop {table fuel : Nat} (hw : WellFormed h.mm table) (ht : (h.task t).pageTable = table)
    (hva : pageSize ∣ (h.area a).va) (hlt : (h.area a).va < wordCount) (hstart : pageSize ∣ va)
    (hrun : h.expandStack t a va fuel = .ok h') : (h'.area a).stop ≤ (h.area a).stop := by
  induction fuel generalizing h with
  | zero => exact nomatch hrun
  | succ fuel ih =>
    unfold Heap.expandStack at hrun
    by_cases hgt : va < (h.area a).va
    · rw [if_pos hgt] at hrun
      obtain ⟨h₁, hgrow, hrun⟩ := Res.bind_eq_ok.mp hrun
      obtain ⟨_, hr, _, _, _, _, htask, harea⟩ := growStack_run hw (.refl h.mm) ht hgrow
      have hself : h₁.area a = (h.area a).grown := by rw [harea, Function.update_self]
      have hpage : pageSize ≤ (h.area a).va := by
        obtain ⟨i, hi⟩ := hstart
        obtain ⟨j, hj⟩ := hva
        unfold pageSize at *
        omega
      have hlow : (h₁.area a).va = (h.area a).va - pageSize := by
        rw [hself]
        exact lowerPage_of_le hpage hlt
      have hn : (h₁.area a).nPages ≤ (h.area a).nPages + 1 := by
        rw [hself]
        exact Nat.mod_le _ _
      have hle := ih (hr.inv hw).1 (by rw [htask, ht]) (by rw [hlow]; exact Nat.dvd_sub hva (Nat.dvd_refl _)) (by omega) hrun
      refine Nat.le_trans hle ?_
      unfold VmArea.stop
      have hmul := Nat.mul_le_mul_right pageSize hn
      rw [Nat.succ_mul] at hmul
      omega
    · rw [if_neg hgt] at hrun
      cases hrun
      exact Nat.le_refl _

/-- the areas into which the area at `a` grows have all rights, and so has it -/
def Heap.GrowsOpen (h : Heap) (t a va : Nat) : Prop :=
  ∀ n, h.AreaNode t n → ((h.node n).value = a ∨ ∃ y, va ≤ y ∧ y < (h.area a).va ∧ y / pageSize ∈ (h.areaOf n).vpns) →
    AllRights (h.areaOf n).flags

/-- the links of the areas stay -/
theorem expandStack_areaNode {fuel : Nat} (hw : World h own q) (ht : t ∈ h.live) (harea : own.Obj a t (.area n))
    (hrun : h.expandStack t a va fuel = .ok h') :
    (∀ m, h.AreaNode t m → h'.node m = h.node m) ∧ ∀ m, h'.AreaNode t m ↔ h.AreaNode t m := by
  have hnode : ∀ m, h.AreaNode t m → h'.node m = h.node m := fun m hm => by
    have hvm : ∀ x ∈ [m], own.Obj x t .vnode := fun x hx => List.mem_singleton.mp hx ▸ hm.obj (hw.areas t ht)
    exact (expandStack_nodes hw ht harea hvm hrun).1 m (List.mem_singleton_self m)
  have hnone : ∀ x ∈ ([] : List Nat), own.Obj x t .vnode := fun x hx => absurd hx List.not_mem_nil
  obtain ⟨_, hlist⟩ := expandStack_nodes hw ht harea hnone hrun
  exact ⟨hnode, fun m => areaNode_congr hlist hnode⟩

theorem expandStack_righted {fuel : Nat} (hr : Righted h t) (hw : World h own q) (ht : t ∈ h.live) (hn : h.AreaNode t n)
    (hva : (h.node n).value = a) (hstart : pageSize ∣ va) (hstack : va < userStack) (hle : va ≤ (h.area a).va)
    (ho : h.GrowsOpen t a va) (hrun : h.expandStack t a va fuel = .ok h') : Righted h' t := by
  have hA := hw.areas t ht
  have harea : own.Obj a t (.area n) := hva ▸ hn.area hA
  have halign := hw.aligned t a n harea
  have hword : (h.area a).va < wordCount := by
    have hlt := hr.word n hn
    unfold Heap.areaOf at hlt
    rw [hva] at hlt
    exact hlt
  obtain ⟨⟨page, hnew⟩, hkeep, htask, hother, hto⟩ :=
    expandStack_pages (hw.maps t ht).wf rfl halign hword hstart hstack hle hrun
  have hstop := expandStack_stop (hw.maps t ht).wf rfl halign hword hstart hrun
  obtain ⟨hnode, hlinks⟩ := expandStack_areaNode hw ht harea hrun
  have hself : ∀ m, h.AreaNode t m → (h.node m).value = a → h'.areaOf m = h'.area a ∧ h.areaOf m = h.area a := fun m hm he => by
    unfold Heap.areaOf
    rw [hnode m hm, he]
    exact ⟨rfl, rfl⟩
  have hrest : ∀ m, h.AreaNode t m → (h.node m).value ≠ a → h'.areaOf m = h.areaOf m := fun m hm hne => by
    unfold Heap.areaOf
    rw [hnode m hm]
    exact hother _ hne
  refine ⟨fun m hm => ?_, fun m hm y hy tr hmap hu hin => ?_⟩
  · have hm := (hlinks m).mp hm
    by_cases he : (h.node m).value = a
    · rw [(hself m hm he).1, hto.va]
      unfold userStack wordCount at *
      omega
    · rw [hrest m hm he]
      exact hr.word m hm
  · have hm := (hlinks m).mp hm
    rw [htask] at hmap
    by_cases hrange : va ≤ y ∧ y < (h.area a).va
    · have hall : AllRights (h'.areaOf m).flags := by
        by_cases he : (h.node m).value = a
        · have hopen := ho m hm (.inl he)
          rw [(hself m hm he).2] at hopen
          rw [(hself m hm he).1, hto.flags]
          exact hopen
        · rw [hrest m hm he] at hin ⊢
          exact ho m hm (.inr ⟨y, hrange.1, hrange.2, hin⟩)
      rw [hnew.mapped y hrange.1 hrange.2] at hmap
      rw [← Option.some.inj hmap]
      exact hall.same _
    · rw [hkeep y hy hrange] at hmap
      by_cases he : (h.node m).value = a
      · obtain ⟨hof', hof⟩ := hself m hm he
        have hold := hr.rights m hm y hy tr hmap hu
        rw [hof] at hold
        rw [hof'] at hin ⊢
        rw [hto.flags]
        refine hold ?_
        -- a page of the grown area that is not new was there before
        have hva' : pageSize ∣ (h'.area a).va := hto.va ▸ hstart
        obtain ⟨hlo, hhi⟩ := (VmArea.mem_vpns hva').mp hin
        refine (VmArea.mem_vpns halign).mpr ⟨?_, Nat.lt_of_lt_of_le hhi hstop⟩
        rw [hto.va] at hlo
        obtain ⟨c, hc⟩ := halign
        rw [hc] at hrange ⊢
        unfold pageSize at *
        omega
      · rw [hrest m hm he] at hin ⊢
        exact hr.rights m hm y hy tr hmap hu hin

/-! ## steps -/

/-- neither fork nor the growth of a stack can give a page rights that its area does not have -/
structure Kernel.GrantsNothing (k : Kernel) : Prop where
  /-- all areas with pages that fork clones have all rights -/
  fork : k.Forks → ∀ n, k.heap.AreaNode k.currentTask n → (k.heap.areaOf n).nPages ≠ 0 → AllRights (k.heap.areaOf n).flags
  /-- and so have those into which the stack grows -/
  grow : ∀ a, k.Grows a → k.heap.GrowsOpen k.currentTask a (k.stval / pageSize * pageSize)

theorem Kernel.Step.righted_forked (hs : Step k k') (hc : Consistent k own q) (hf : k.Forks)
    (ho : ∀ n, k.heap.AreaNode k.currentTask n → (k.heap.areaOf n).nPages ≠ 0 → AllRights (k.heap.areaOf n).flags)
    (hr : ∀ t ∈ k.heap.live, Righted k.heap t) : ∀ t ∈ k'.heap.live, Righted k'.heap t := by
  obtain ⟨own', regs, child, n, k₁, hb⟩ := hs.forked hc hf
  have hw : World k.heap own q := (hc.active (.inr hf.1)).world
  have hcur : k.currentTask ∈ k.heap.live := (hc.active (.inr hf.1)).live
  obtain ⟨_, hlive⟩ := hb.cloned.live
  have hold : ∀ t ∈ k.heap.live, Righted k.callFrame.heap t := fun t ht => (hr t ht).untouched hw ht (hb.before.untouched t ht)
  have hu := hb.before.untouched _ hcur
  have hA := hw.areas _ hcur
  intro t ht
  rw [hb.after.live, hlive] at ht
  have ht₁ : t ∈ k₁.heap.live := hlive ▸ ht
  refine Righted.untouched ?_ hb.cloned.world ht₁ (hb.after.untouched t ht₁)
  cases List.mem_cons.mp ht with
  | inl he =>
    rw [he]
    refine taskClone_righted hb.active.world hb.active.live (fun m hm => ?_) hb.clone
    have hm := (hu.areaNode hA).mp hm
    rw [(hu.areaOf hA (hm.obj hA)).2]
    exact ⟨(hr _ hcur).word m hm, ho m hm⟩
  | inr hin =>
    rw [hb.before.live] at hin
    have hin₁ : t ∈ k.callFrame.heap.live := hb.before.live ▸ hin
    exact (hold t hin).untouched hb.active.world hin₁ (hb.cloned.untouched hin₁)

theorem Kernel.Step.righted_grew (hs : Step k k') (hc : Consistent k own q) (hg : k.Grows a)
    (ho : k.heap.GrowsOpen k.currentTask a (k.stval / pageSize * pageSize))
    (hr : ∀ t ∈ k.heap.live, Righted k.heap t) : ∀ t ∈ k'.heap.live, Righted k'.heap t := by
  obtain ⟨h', hexp, rfl⟩ := hs.grew hg
  have ha := hc.active (.inr hg.ctl)
  obtain ⟨m, hm, hva⟩ := vmFindStack_node hg.area hg.found
  have harea := hva ▸ hm.area (ha.world.areas _ ha.live)
  have hlt := vmFindStack_lt hg.area hg.found
  have hround : k.stval / pageSize * pageSize ≤ k.stval := Nat.div_mul_le_self _ _
  obtain ⟨own', hgrown⟩ := expandStack_world ha.world ha.live harea hexp
  intro t ht
  have ht : t ∈ h'.live := ht
  have hrh : Righted h' t := by
    by_cases he : t = k.currentTask
    · rw [he]
      exact expandStack_righted (hr _ ha.live) ha.world ha.live hm hva (Nat.dvd_mul_left _ _)
        (Nat.lt_of_le_of_lt hround hg.stack.2) (by omega) ho hexp
    · rw [hgrown.live] at ht
      exact (hr t ht).untouched ha.world ht (hgrown.untouched ha.world.held ht he)
  have ha' : Active (k.setHeap h') own' q := ha.grown hgrown
  exact hrh.untouched hgrown.world ht (ha'.yieldToUser.quiet.untouched t ht)

/-- what a step keeps -/
theorem Kernel.Step.righted (hs : Step k k') (hc : Consistent k own q) (hg : k.GrantsNothing)
    (hr : ∀ t ∈ k.heap.live, Righted k.heap t) : ∀ t ∈ k'.heap.live, Righted k'.heap t := by
  by_cases hf : k.Forks
  · exact hs.righted_forked hc hf (hg.fork hf) hr
  by_cases hgr : ∃ a, k.Grows a
  · obtain ⟨a, ha⟩ := hgr
    exact hs.righted_grew hc ha (hg.grow a ha) hr
  obtain ⟨own', q', ho, hcalm⟩ := hs.calm hc hf fun a ha => hgr ⟨a, ha⟩
  have hw := hc.world
  intro t ht
  cases hcalm with
  | quiet hq he =>
    have ht := hq.live ▸ ht
    exact (hr t ht).untouched hw ht (hq.untouched t ht)
  | died hq hw₁ hd he =>
    rw [hd.live] at ht
    have hne : t ≠ k.currentTask := fun e => absurd (e ▸ ht) (List.Nodup.not_mem_erase hw₁.held.nodup.2)
    have ht₁ := List.mem_of_mem_erase ht
    have ht := hq.live ▸ ht₁
    exact ((hr t ht).untouched hw ht (hq.untouched t ht)).untouched hw₁ ht₁ (hd.untouched hw₁.held hne)

/-! ## from boot on -/

theorem init_righted {k₀ : Kernel} {argv envp : Nat} (hb : k₀.Blank) (hp : e.program = program) (hl : e.LiesIn k₀.heap.mm.mem)
    (he : e.SharesRights) (hrun : k₀.init argv envp = .ok k) : ∀ t ∈ k.heap.live, Righted k.heap t := by
  unfold Kernel.init at hrun
  obtain ⟨⟨t, h₁⟩, hcreate, hrun⟩ := Res.bind_eq_ok.mp hrun
  obtain ⟨⟨r, h₂⟩, helf, hret⟩ := Res.bind_eq_ok.mp hrun
  cases hret
  have hid : 0 < k₀.heap.nextTaskId := by
    rw [hb.pids]
    exact Nat.one_pos
  obtain ⟨own₁, n, stack, root, ha⟩ := taskCreate_added hb.world hid hcreate
  have hlive : h₁.live = [t] := by rw [ha.live, hb.live]
  have ht : t ∈ h₁.live := hlive ▸ List.mem_singleton_self t
  obtain ⟨own, hg⟩ := taskInitElf_world ha.world ht helf
  intro t' hin
  have hin : t' ∈ h₂.live := hin
  rw [hg.live, hlive, List.mem_singleton] at hin
  rw [hin]
  exact taskInitElf_righted he (hl.grown ha.mm) (Built.start ha hb.world.held) ha.world ht (hp ▸ helf)

/-- what a run keeps -/
theorem Kernel.steps_righted (hr : ∀ t ∈ k.heap.live, Righted k.heap t) (hc : Consistent k own q)
    (hs : Relation.ReflTransGen (fun k k' => k.GrantsNothing ∧ k.Step k') k k') : ∀ t ∈ k'.heap.live, Righted k'.heap t := by
  induction hs with
  | refl => exact hr
  | tail hs hstep ih =>
    have hsteps : Steps k _ := Relation.ReflTransGen.mono (fun _ _ h => h.2) _ _ hs
    obtain ⟨_, _, _, hc₁, _⟩ := Steps.consistent hsteps hc
    exact hstep.2.righted hc₁ hstep.1 ih

/-- **Rights.**  If the first program lies outside of the allocator's pages, its segments that share pages have the same rights,
and whatever fork clones and a stack grows into has all rights, then in every run the pages of all tasks can be read, written and
executed as their areas say. -/
theorem rights_kept {k₀ : Kernel} {argv envp : Nat} (hb : k₀.Blank) (hi : k₀.init argv envp = .ok k₁) (hp : e.program = program)
    (hl : e.LiesIn k₀.heap.mm.mem) (he : e.SharesRights)
    (hs : Relation.ReflTransGen (fun k k' => k.GrantsNothing ∧ k.Step k') k₁ k) : ∀ t ∈ k.heap.live, k.heap.RightsKept t := by
  have hbooted : k₁.Booted := ⟨k₀, argv, envp, hb, hi⟩
  obtain ⟨own, n, ha, hctl, _⟩ := hbooted.inactive
  exact fun t ht => (Kernel.steps_righted (init_righted hb hp hl he hi) (ha.consistent (.inl hctl)) hs t ht).kept

/-! ## a program with an executable stack -/

/-- one PT_LOAD segment at 0x10000, of eight bytes, with all rights, and a PT_GNU_STACK with all rights -/
def openImage : Elf where
  program := program
  mem := fun x =>
    if x = program + 18 then 0xf3
    else if x = program + 26 then 1
    else if x = program + 32 then 64
    else if x = program + 54 then 56
    else if x = program + 56 then 2
    else if x = program + 64 then 1
    else if x = program + 68 then 7
    else if x = program + 72 then 176
    else if x = program + 82 then 1
    else if x = program + 96 then 8
    else if x = program + 104 then 8
    else if x = program + 120 then 0x51
    else if x = program + 121 then 0xe5
    else if x = program + 122 then 0x74
    else if x = program + 123 then 0x64
    else if x = program + 124 then 7
    else if program + 176 ≤ x ∧ x < program + 184 then 0xff
    else 0

def openPhdr : Phdr :=
  { pType := PT_LOAD, pFlags := 7, pOffset := 176, pVaddr := 0x10000, pFilesz := 8, pMemsz := 8 }

theorem openImage_phdr : openImage.phdr 0 = openPhdr := by decide

theorem openImage_onePage : openImage.OnePage true := by
  refine ⟨⟨by decide, by decide, .inr ⟨by decide, by decide, by decide⟩⟩, ?_, ?_⟩
  · rw [openImage_phdr]
    exact ⟨by decide, by unfold Phdr.NoAccess; decide⟩
  · rw [openImage_phdr]
    decide

theorem openImage_placed : openImage.Placed :=
  ⟨rfl, openImage_onePage.bytes_within (by decide) (by decide) (by decide) (by decide) (by decide)⟩

theorem openImage_leavesPage : openImage.LeavesPage := by
  unfold Elf.LeavesPage
  rw [openImage_phdr]
  decide

/-- a segment below the page of the stack shares no page -/
theorem Elf.OnePage.sharesRights {b : Bool} (ho : e.OnePage b) : e.SharesRights := by
  have hlow := ho.fits.stop
  have hva : pageSize ∣ (e.phdr 0).area.va := dvd_addr (e.phdr 0)
  refine ⟨fun ph hp ph' hp' _ _ _ _ => ?_, fun ph hp y hy hin hpage => ?_⟩
  · rw [ho.loaded, List.mem_singleton] at hp hp'
    rw [hp, hp']
  · rw [ho.loaded, List.mem_singleton] at hp
    rw [hp] at hin
    have hlt := ((VmArea.mem_vpns hva).mp hin).2
    unfold SamePage stackBegin userStack pageSize at *
    omega

/-- all areas of that program have all rights -/
theorem FirstImage.allRights {ns : List Nat} {room : Nat} (hi : FirstImage openImage true h own t ns room) (hw : World h own q)
    (ht : t ∈ h.live) (hn : h.AreaNode t n) : AllRights (h.areaOf n).flags := by
  have hin : n ∈ ns := (hi.booked.vm.mem n).mpr (hn.obj (hw.areas t ht))
  have harea : h.areaOf n ∈ [(openImage.phdr 0).area, stackArea true] := by
    rw [← hi.areas]
    exact List.mem_map_of_mem hin
  rw [openImage_phdr] at harea
  unfold AllRights
  cases List.mem_cons.mp harea with
  | inl hcode =>
    rw [hcode]
    decide
  | inr hstack =>
    rw [List.mem_singleton.mp hstack]
    decide

/-- the theorem when the executable stack of the first task has grown -/
theorem rights_kept_growth : ∃ (k₁ k k' : Kernel) (a t : Nat), (bootKernel openImage).init initArgv initEnvp = .ok k₁ ∧
    Relation.ReflTransGen (fun k k' => k.GrantsNothing ∧ k.Step k') k₁ k' ∧ k.Grows a ∧ k.Step k' ∧ t ∈ k'.heap.live ∧
    k'.heap.RightsKept t := by
  obtain ⟨k₁, k₂, k₃, own, t, ns, hrun, hfirst, hu⟩ := user_run openImage_onePage openImage_placed
  obtain ⟨k, a, k', htrap, hf⟩ := hu.fault openImage_leavesPage
  have hw := hf.active.world
  have hgrows : k.Grows a := ⟨hf.ctl, hf.frame, .inr hf.scause, hf.below, hf.area, hf.found⟩
  -- only the last of the steps makes a stack grow, and none forks
  have hidle : ∀ {k : Kernel}, k.ctl ≠ .thread → k.GrantsNothing := fun hctl =>
    ⟨fun hfork => absurd hfork.1 hctl, fun _ hgrow => absurd hgrow.ctl hctl⟩
  have h₁ : k₁.GrantsNothing := hidle (by rw [hfirst.ctl]; decide)
  have h₂ : k₂.GrantsNothing :=
    ⟨fun hfork => (nomatch hfirst.frame.symm.trans hfork.2.frame), fun _ hgrow => (nomatch hfirst.frame.symm.trans hgrow.frame)⟩
  have h₃ : k₃.GrantsNothing := hidle (by rw [hu.ctl]; decide)
  have h₄ : k.GrantsNothing :=
    ⟨fun hfork => absurd (hf.scause.symm.trans hfork.2.cause) (by decide), fun _ _ n hn _ => hf.image.allRights hw hf.active.live hn⟩
  have hruns : Relation.ReflTransGen (fun k k' => k.GrantsNothing ∧ k.Step k') k₁ k' :=
    (((Relation.ReflTransGen.single ⟨h₁, hfirst.dispatched⟩).tail ⟨h₂, hfirst.step⟩).tail ⟨h₃, htrap⟩).tail ⟨h₄, hf.step⟩
  have hlive : k.currentTask ∈ k'.heap.live := by
    obtain ⟨h', hexp, hk'⟩ := hf.step.grew hgrows
    obtain ⟨m, hm, hva⟩ := vmFindStack_node hgrows.area hgrows.found
    obtain ⟨_, hgrown⟩ := expandStack_world hw hf.active.live (hva ▸ hm.area (hw.areas _ hf.active.live)) hexp
    rw [hk']
    show k.currentTask ∈ h'.live
    rw [hgrown.live]
    exact hf.active.live
  exact ⟨k₁, k, k', a, k.currentTask, hrun, hruns, hgrows, hf.step, hlive,
    rights_kept (bootKernel_blank openImage) hrun rfl openImage_placed.liesIn openImage_onePage.sharesRights hruns _ hlive⟩

/-- an area into which pages were added at the front has that many pages -/
theorem GrownTo.mem_vpns {x x' : VmArea} {start y : Nat} (hto : GrownTo x x' start) (hne : start % wordCount ≠ vmAreaEndVa x)
    (hy : y / pageSize = start / pageSize) : y / pageSize ∈ x'.vpns := by
  have hpages : x'.nPages ≠ 0 := fun h0 => by
    have hstop := hto.stop
    rw [vmAreaEndVa, h0, hto.va, Nat.zero_shiftLeft, Nat.zero_mod, Nat.add_zero] at hstop
    exact hne hstop
  refine Finset.mem_Ico.mpr ?_
  rw [hto.va, hy]
  exact ⟨Nat.le_refl _, Nat.lt_add_of_pos_right (Nat.pos_of_ne_zero hpages)⟩

/-- the page below the stack can be executed, though its area cannot -/
theorem rights_granted : ∃ k t, Kernel.Reachable k ∧ t ∈ k.heap.live ∧ ¬ k.heap.RightsKept t := by
  obtain ⟨k, own, ns, a, k', hf⟩ := first_fault
  have hw := hf.active.world
  have hlive := hf.active.live
  have hresume : k.resume quietOracle = .ok k' := by
    unfold Kernel.resume
    rw [hf.frame]
    exact hf.run
  have hexec : ¬ k.Execve := fun he => absurd (he.2.1.symm.trans hf.scause) (by decide)
  have hstep : k.Step k' := .resume _ hf.ctl hexec hresume
  obtain ⟨b, hb, hsteps⟩ := hf.reachable
  obtain ⟨h', hexp, rfl⟩ := hstep.grew ⟨hf.ctl, hf.frame, .inr hf.scause, hf.below, hf.area, hf.found⟩
  obtain ⟨m, hm, hva⟩ := vmFindStack_node hf.area hf.found
  have harea : own.Obj a k.currentTask (.area m) := hva ▸ hm.area (hw.areas _ hlive)
  have hlt := vmFindStack_lt hf.area hf.found
  have hround : k.stval / pageSize * pageSize ≤ k.stval := Nat.div_mul_le_self _ _
  obtain ⟨⟨page, hnew⟩, _, htask, _, hto⟩ := expandStack_pages (hw.maps _ hlive).wf rfl (hw.aligned _ a m harea)
    (by rw [hf.stack]; decide) (Nat.dvd_mul_left _ _) (Nat.lt_of_le_of_lt hround hf.below.2) (by omega) hexp
  obtain ⟨hnode, hlinks⟩ := expandStack_areaNode hw hlive harea hexp
  obtain ⟨own', hg⟩ := expandStack_world hw hlive harea hexp
  have hq := ((hf.active.grown hg).yieldToUser).quiet
  have hin : k.currentTask ∈ h'.live := hg.live ▸ hlive
  refine ⟨_, k.currentTask, ⟨b, hb, hsteps.tail hstep⟩, hq.live ▸ hin, fun hkept => ?_⟩
  have hkept : h'.RightsKept k.currentTask := (hq.untouched _ hin).rightsKept hg.world hq.live hkept
  have hof : h'.areaOf m = h'.area a := by
    unfold Heap.areaOf
    rw [hnode m hm, hva]
  have hvpn : k.stval / pageSize ∈ (h'.areaOf m).vpns := by
    rw [hof]
    refine hto.mem_vpns ?_ (Nat.mul_div_cancel _ (by decide : 0 < pageSize)).symm
    rw [hf.stack, hf.stval]
    decide
  have hmap := hnew.mapped k.stval hround hlt
  rw [← htask, pteFlagsFromVmFlags_eq] at hmap
  have huser : (pteValid ||| pteUser ||| pteRead ||| pteWrite ||| pteExec ||| pteUser) &&& pteUser ≠ 0 := by decide
  have hx : (pteValid ||| pteUser ||| pteRead ||| pteWrite ||| pteExec ||| pteUser) &&& pteExec ≠ 0 := by decide
  have hsame := hkept m ((hlinks m).mpr hm) k.stval _
    ⟨hin, Nat.lt_of_lt_of_le hf.below.2 (by decide), hmap, huser⟩ hvpn
  rw [hof, hto.flags, hf.stack] at hsame
  exact absurd (hsame.2.2.mp hx) (by decide)

end FakeKernel
