import FakeKernel.Kernel.Segment

/-!
# The first stack of a program

* `loadElf_stack`              the page that load_elf maps below the top of the stack;
* `WordAt`, `UserStrings`      what user code reads there;
* `InitStack`                  argument vectors that are in order;
* `init_stack`                 when task_init_elf makes them so.

The table of the environment begins one entry too early: its first entry is where the NULL of `argv` should be.
-/

namespace FakeKernel
open Bytes Bitfield Mm Heap

variable {h h' : Heap} {own own' : Owners} {q : TaskList → List Nat} {program : Nat} {m : Mem} {len len' : Nat → Nat}
  {t n a k x w w' root argv argc envp envc low off : Nat} {b : UInt8}

/-! ## the page of the stack -/

/-- a new area has no pages -/
theorem AreaTurn.noPages {y : VmArea} (hat : AreaTurn q t y h own h' own' n a) (hw : World h own q) (ht : t ∈ h.live) :
    (h'.lists.list (.pages a)).first = 0 := by
  have ht' : t ∈ h'.live := hat.grown.live ▸ ht
  refine ((hat.grown.world.areas t ht').pages a n hat.obj.1).first.resolve_right fun hm => ?_
  rcases (hat.obj_iff hw.held).mp hm with ⟨_, _, he⟩ | ⟨_, _, he⟩ | hold
  · exact nomatch he
  · exact nomatch he
  · obtain ⟨n', ha⟩ := (hw.areas t ht).parent a _ hold
    exact (hat.ne hw.held ha).1 rfl

/-- the last area has one page, which is mapped at the top of the stack -/
structure StackPage (h : Heap) (own : Owners) (t : Nat) : Prop where
  user : ∃ m v, own.Page (h.lastPage t) t (.user m v)
  map : ∀ x, SamePage 0 x stackBegin →
    ∃ flags, mapOf h (h.task t).pageTable x = some ⟨PA (h.lastPage t) % 2 ^ 56 + x % 2 ^ 12, flags⟩

theorem loadStack_page {b : Bool} (hw : World h own q) (ht : t ∈ h.live) (hrun : h.loadStack t program b = .ok h') :
    ∃ own', Grown q t h own h' own' ∧ StackPage h' own' t ∧ h'.StackReady t := by
  obtain ⟨p, n, a, m, own₁, own₂, h₁, h₂, h₃, hloose, hat, hpt, hsame, rfl⟩ := loadStack_turn hw ht hrun
  have ht₁ : t ∈ h₁.live := hloose.grown.live ▸ ht
  have ht₂ : t ∈ h₂.live := hat.grown.live ▸ ht₁
  have ht₃ : t ∈ h₃.live := hpt.grown.live ▸ ht₂
  have hA := hpt.grown.world.areas t ht₃
  have hm0 : m ≠ 0 := by
    have hm4 := hpt.node4
    omega
  have harea : own₂.Obj a t (.area n) := hpt.grown.mono.obj hat.obj.1 rfl
  have hlast : (h₃.lists.list (.vmAreas t)).last = n := by rw [hpt.vmList, hat.added.last]
  have hvalue : (h₃.node n).value = a := ((hA.area n a).mp harea).2
  have hsingle : h₃.lists.list (.pages a) = { first := m, last := m } := by
    rw [hpt.lists, Lists.list_listPush, if_pos rfl, Lists.list_setNode, hat.noPages hloose.grown.world ht₁]
    rfl
  have hfirst : (h₃.lists.list (.pages a)).first = m := by rw [hsingle]
  have hpage : (h₃.node m).value = p := by
    show (h₃.lists.node m).value = p
    rw [hpt.lists, Lists.value_listPush, Lists.node_setNode, if_pos rfl]
    rfl
  have hp : h₃.lastPage t = p := by
    unfold Heap.lastPage
    rw [hlast, hvalue, hfirst, hpage]
  have hpnode : own₂.Obj m t (.pnode a) := hfirst ▸ (hA.pages a n harea).first.resolve_left (hfirst ▸ hm0)
  have hframe := hpt.grown.world.setFrame t t (startFrame (h₃.image program).eEntry)
  have hroot : ((h₃.setFrame t (startFrame (h₃.image program).eEntry)).task t).pageTable = (h₂.task t).pageTable := by
    rw [hframe.pageTable ht₃, hpt.grown.pageTable ht₂]
  have hx : h₃.area (h₃.node (h₃.lists.list (.vmAreas t)).last).value =
      { va := stackBegin, nPages := 1, flags := stackVmFlags b, refcount := 1 } := by
    rw [hlast, hvalue, hsame, hat.area]
  refine ⟨own₂, ((hloose.grown.trans hat.grown).trans hpt.grown).trans hframe, ⟨?_, fun x hx => ?_⟩, ?_, ?_, ?_⟩
  · obtain ⟨v, hv⟩ := (hA.page m _).mpr ⟨⟨a, hpnode⟩, rfl⟩
    refine ⟨m, v, ?_⟩
    show own₂.Page (h₃.lastPage t) t _
    rw [hp, ← hpage]
    exact hv
  · refine ⟨stackPteFlags b ||| pteUser, ?_⟩
    rw [hroot]
    show mapOf h₃ _ x = some ⟨PA (h₃.lastPage t) % 2 ^ 56 + x % 2 ^ 12, _⟩
    rw [hpt.map, if_pos hx, hp]
    cases b <;> rfl
  · show ((h₃.area (h₃.node (h₃.lists.list (.vmAreas t)).last).value).flags &&& vmStack != 0) = true
    rw [hx]
    exact stackVmFlags_stack b
  · show (h₃.area (h₃.node (h₃.lists.list (.vmAreas t)).last).value).nPages = 1
    rw [hx]
  · refine ⟨m, ?_, hm0⟩
    show h₃.lists.list (.pages (h₃.node (h₃.lists.list (.vmAreas t)).last).value) = _
    rw [hlast, hvalue, hsingle]

/-- load_elf leaves a page of zeros for the stack -/
theorem loadElf_stack (hw : World h own q) (ht : t ∈ h.live) (hrun : h.loadElf t program = .ok (0, h')) :
    ∃ own', Grown q t h own h' own' ∧ StackPage h' own' t ∧ h'.StackReady t ∧
      ∀ k < pageSize, h'.mm.mem (h'.lastPage t + k) = 0 := by
  unfold loadElf at hrun
  split at hrun
  · exact absurd (Prod.mk.inj (Except.ok.inj hrun)).1 (by decide)
  obtain ⟨⟨r, h₁⟩, hsegs, hrun⟩ := Res.bind_eq_ok.mp hrun
  obtain ⟨own₁, hg, _, herr⟩ := loadSegments_rule (I := fun _ _ => True)
    (fun _ hw ht hseg => by
      obtain ⟨own', hg⟩ := loadSegment_world hw ht hseg
      exact ⟨own', hg, trivial⟩) trivial hw ht hsegs
  cases r with
  | error err =>
    have h0 : err = 0 := (Prod.mk.inj (Except.ok.inj hrun)).1
    rw [herr err rfl] at h0
    exact absurd h0 (by decide)
  | ok b =>
    obtain ⟨h₂, hstack, hret⟩ := Res.bind_eq_ok.mp hrun
    have hh : h₂ = h' := (Prod.mk.inj (Except.ok.inj hret)).2
    rw [hh] at hstack
    have ht₁ : t ∈ h₁.live := hg.live ▸ ht
    obtain ⟨own', hg', hp, hready⟩ := loadStack_page hg.world ht₁ hstack
    have hgrown := hg.trans hg'
    have hwf := (hg.world.maps t ht₁).wf
    obtain ⟨c, hr, hva, hzero, hflags, _⟩ := loadStack_run hwf (.refl h₁.mm) rfl hstack
    have hc := (hr.inv hwf).2 c List.mem_cons_self
    have hmap := hr.walk hwf stackBegin
    have hsame : SamePage 0 stackBegin c.va := by
      rw [hva]
      rfl
    have hleaf : pteIsLeaf c.flags = true := by
      rw [hflags]
      cases b <;> decide
    rw [lastCall_cons, if_pos hsame] at hmap
    refine ⟨own', hgrown, hp, hready, fun k hk => ?_⟩
    -- both descriptions of the page give its translation
    obtain ⟨m, v, huser⟩ := hp.user
    have husable : h'.lastPage t ∈ usable := hg'.world.held.ok.usable (hg'.world.held.out _ _ _ huser) (Tiling.base_mem (pageAt _))
    obtain ⟨flags, htr⟩ := hp.map stackBegin rfl
    rw [hg'.pageTable ht₁] at htr
    have hpa : setLeaf 0 (PA c.page) c.flags stackBegin = some ⟨PA (h'.lastPage t) % 2 ^ 56 + stackBegin % 2 ^ 12, flags⟩ :=
      hmap.symm.trans htr
    rw [setLeaf_eq (.inl hleaf)] at hpa
    split at hpa
    · exact nomatch hpa
    · have hpa := congrArg Translation.pa (Option.some.inj hpa)
      have hva := congrArg VA hpa
      have hva : VA (PA c.page % 2 ^ 56 + stackBegin % 2 ^ 12) = VA (PA (h'.lastPage t) % 2 ^ 56 + stackBegin % 2 ^ 12) := hva
      rw [VA_PA hc.usable, VA_PA husable, Nat.add_right_cancel_iff] at hva
      rw [← hva, hc.content k hk, hzero]

/-! ## what user code reads -/

/-- the eight bytes from `x` on are mapped, and make `w` -/
def WordAt (h : Heap) (root x w : Nat) : Prop :=
  ∃ bytes : Mem, (∀ k < 8, ByteAt h root (x + k) (bytes k)) ∧ load 8 bytes 0 = w

theorem ByteAt.unique {b' : UInt8} (hb : ByteAt h root x b) (hb' : ByteAt h root x b') : b = b' := by
  obtain ⟨tr, htr, rfl⟩ := hb
  obtain ⟨tr', htr', rfl⟩ := hb'
  rw [Option.some.inj (htr.symm.trans htr')]

theorem WordAt.unique (hx : WordAt h root x w) (hx' : WordAt h root x w') : w = w' := by
  obtain ⟨bytes, hb, rfl⟩ := hx
  obtain ⟨bytes', hb', rfl⟩ := hx'
  exact load_congr fun k _ hk => (hb k (by omega)).unique (hb' k (by omega))

/-- a vector at `x`: addresses of copies of the strings of `argv`, and a NULL -/
structure UserStrings (h : Heap) (root x : Nat) (m : Mem) (argv argc : Nat) (len : Nat → Nat) : Prop where
  copy : ∀ i < argc, ∃ s, s ≠ 0 ∧ WordAt h root (x + 8 * i) s ∧
    ∀ k ≤ len i, ByteAt h root (s + k) (m (load 8 m (argv + 8 * i) + k))
  stop : WordAt h root (x + 8 * argc) 0

/-- the arguments are in the registers and on the stack -/
structure InitStack (h : Heap) (t : Nat) (m : Mem) (argv argc : Nat) (len : Nat → Nat) (envp envc : Nat)
    (len' : Nat → Nat) : Prop where
  a0 : (h.task t).userFrame.registers REG_A0 = argc
  argv : UserStrings h (h.task t).pageTable ((h.task t).userFrame.registers REG_A1) m argv argc len
  envp : UserStrings h (h.task t).pageTable ((h.task t).userFrame.registers REG_A2) m envp envc len'

/-- the bytes on the page of the stack -/
def StackBytes (h : Heap) (root p : Nat) (m : Mem) : Prop :=
  ∀ off k, off ≤ pageSize → k < off → ByteAt h root (userStackAddr off + k) (m (p + pageSize - off + k))

theorem userStackAddr_eq (hoff : off ≤ pageSize) : userStackAddr off = userStack - off := by
  unfold userStackAddr
  have h1 : pageSize < userStack := by decide
  have h2 : userStack < wordCount := by decide
  by_cases h0 : off = 0
  · rw [h0, Nat.sub_zero, Nat.add_mod_right, Nat.mod_eq_of_lt h2]
    rfl
  · unfold wordCount at *
    omega

theorem StackBytes.word {p : Nat} (hb : StackBytes h root p m) (hoff : off ≤ pageSize) (hk : k + 8 ≤ off) :
    WordAt h root (userStackAddr off + k) (load 8 m (p + pageSize - off + k)) := by
  refine ⟨fun y => m (p + pageSize - off + k + y), fun y hy => ?_, ?_⟩
  · show ByteAt h root (userStackAddr off + k + y) (m (p + pageSize - off + k + y))
    rw [Nat.add_assoc, Nat.add_assoc (p + pageSize - off)]
    exact hb off (k + y) hoff (by omega)
  · rw [load_shift, Nat.add_zero]

theorem Table.congr {m₀ m₁ : Mem} {stack : Nat} (ht : Table m₁ m stack off low argv argc len)
    (hm : ∀ x ∈ argBytes m₀ argv argc len, m₁ x = m₀ x) : Table m₀ m stack off low argv argc len := by
  intro j hj
  obtain ⟨hword, hbytes⟩ := ht j hj
  refine ⟨hword, fun k hk => ?_⟩
  rw [hbytes k hk, slot_congr hm (Nat.le_of_lt hj)]
  exact hm _ (argBytes_string hj hk)

theorem userStackAddr_lt (hoff : off ≤ pageSize) : userStackAddr off < 256 ^ 8 := by
  have h1 : userStack < 256 ^ 8 := by decide
  rw [userStackAddr_eq hoff]
  omega

/-- the entries of a table are addresses of the copies -/
theorem Table.copyAt {m₀ : Mem} {p i : Nat} (ht : Table m₀ m (p + pageSize) off low argv argc len)
    (hb : StackBytes h root p m) (hoff : off ≤ pageSize) (htable : 8 * argc ≤ off)
    (hlow : argOff len argc low 0 ≤ pageSize) (hi : i < argc) :
    WordAt h root (userStackAddr off + 8 * i) (userStackAddr (argOff len argc low i)) ∧
    ∀ k ≤ len i, ByteAt h root (userStackAddr (argOff len argc low i) + k) (m₀ (load 8 m₀ (argv + 8 * i) + k)) := by
  obtain ⟨hword, hbytes⟩ := ht i hi
  have hstr : argOff len argc low i = argOff len argc low (i + 1) + (len i + 1) := argOff_succ hi
  have hle : argOff len argc low i ≤ argOff len argc low 0 := argOff_le (Nat.zero_le i) (Nat.le_of_lt hi)
  refine ⟨?_, fun k hk => ?_⟩
  · have hw := hb.word (k := 8 * i) hoff (by omega)
    rw [hword, Nat.mod_eq_of_lt (userStackAddr_lt (Nat.le_trans hle hlow))] at hw
    exact hw
  · rw [← hbytes k hk]
    exact hb _ k (Nat.le_trans hle hlow) (by omega)

theorem Table.copy {m₀ : Mem} {p i : Nat} (ht : Table m₀ m (p + pageSize) off low argv argc len)
    (hb : StackBytes h root p m) (hoff : off ≤ pageSize) (htable : 8 * argc ≤ off)
    (hlow : argOff len argc low 0 ≤ pageSize) (hi : i < argc) : ∃ s, s ≠ 0 ∧ WordAt h root (userStackAddr off + 8 * i) s ∧
      ∀ k ≤ len i, ByteAt h root (s + k) (m₀ (load 8 m₀ (argv + 8 * i) + k)) := by
  obtain ⟨hword, hbytes⟩ := ht.copyAt hb hoff htable hlow hi
  have hle : argOff len argc low i ≤ argOff len argc low 0 := argOff_le (Nat.zero_le i) (Nat.le_of_lt hi)
  have hstack : pageSize < userStack := by decide
  refine ⟨_, ?_, hword, hbytes⟩
  rw [userStackAddr_eq (Nat.le_trans hle hlow)]
  omega

/-! ## task_init_elf -/

/-- memory that is in use, and not by the task `t` -/
def Live (h : Heap) (own : Owners) (t x : Nat) : Prop := h.mm.Kept x ∧ ∀ s r, own.Page s t r → ¬ onPage s x

theorem Grown.sameByte (g : Grown q t h own h' own') (hx : Live h own t x) : h'.mm.mem x = h.mm.mem x := by
  obtain ⟨N, hs⟩ := g.step
  refine hs.mm.frame x hx.1 fun s hs' => ?_
  obtain ⟨_, r, hp, _⟩ := hs'
  exact hx.2 s r hp

theorem Grown.offPage {p : Nat} {r : Role} (g : Grown q t h own h' own') (hx : Live h own t x) (hp : own'.Page p t r) :
    ¬ onPage p x := by
  intro hon
  obtain ⟨N, hs⟩ := g.step
  rcases hs.taken p t r hp with hold | ⟨_, _, ⟨b, hold, _⟩ | hnew⟩
  · exact hx.2 p r hold hon
  · exact hx.2 p _ hold hon
  · exact hs.mm.fresh hnew hon hx.1

/-- a page that is mapped at the top of the stack is filled, and no table of the tree -/
theorem Spendable.stackBytes {p : Nat} {frame : Cpu} (hp : Spendable h.mm root p) (hwf : WellFormed h.mm root)
    (hmap : ∀ x, SamePage 0 x stackBegin → ∃ flags, mapOf h root x = some ⟨PA p % 2 ^ 56 + x % 2 ^ 12, flags⟩)
    (hm : ∀ x, ¬ onPage p x → m x = h.mm.mem x)
    (hh : h' = ({ h with mm := h.mm.setMem m } : Heap).setFrame t frame) : StackBytes h' root p m := by
  intro off k hoff hk
  have hx := hwf.ok.write_page hp.kept hp.dvd hm
  obtain ⟨_, hwalk, _⟩ := hwf.extends hx fun s hs he => hp.table (Set.mem_singleton_iff.mp he ▸ hs)
  have haddr := userStackAddr_eq hoff
  have hdvd : pageSize ∣ userStack := by decide
  have hpos : pageSize < userStack := by decide
  obtain ⟨y, hy⟩ : ∃ y, y = userStackAddr off + k := ⟨_, rfl⟩
  have hmod : y % pageSize = pageSize - off + k := by
    unfold pageSize at *
    omega
  have hsame : SamePage 0 y stackBegin := by
    unfold SamePage stackBegin pageSize at *
    omega
  obtain ⟨flags, htr⟩ := hmap y hsame
  rw [← hy]
  refine ⟨⟨PA p % 2 ^ 56 + y % 2 ^ 12, flags⟩, ?_, ?_⟩
  · rw [hh]
    show walk m 2 _ y = _
    exact (hwalk y).trans htr
  · rw [hh]
    show m (VA (PA p % 2 ^ 56 + y % 2 ^ 12)) = _
    rw [VA_PA hp.usable, hmod]
    congr 1
    omega

theorem StackPage.bytes {frame : Cpu} (hp : StackPage h own t) (hw : World h own q) (ht : t ∈ h.live)
    (hm : ∀ x, ¬ onPage (h.lastPage t) x → m x = h.mm.mem x)
    (hh : h' = ({ h with mm := h.mm.setMem m } : Heap).setFrame t frame) :
    (h'.task t).pageTable = (h.task t).pageTable ∧ StackBytes h' (h.task t).pageTable (h.lastPage t) m := by
  obtain ⟨n, v, huser⟩ := hp.user
  have hM := hw.maps t ht
  have husable : h.lastPage t ∈ usable := hw.held.ok.usable (hw.held.out _ _ _ huser) (Tiling.base_mem (pageAt _))
  have hspend : Spendable h.mm (h.task t).pageTable (h.lastPage t) :=
    ⟨hw.held.page huser, husable, hw.held.kept huser, fun hs => nomatch ((hM.tables _ hs).unique huser).2⟩
  refine ⟨?_, hspend.stackBytes hM.wf hp.map hm hh⟩
  rw [hh]
  show (Function.update h.task t { h.task t with userFrame := frame } t).pageTable = _
  rw [Function.update_self]

/-- what user code finds when task_init_elf has returned 0 -/
theorem taskInitElf_stack (hw : World h own q) (ht : t ∈ h.live) (hs : Strings h.mm.mem argv argc len)
    (hs' : Strings h.mm.mem envp envc len') (hlive : ∀ x ∈ argBytes h.mm.mem argv argc len, Live h own t x)
    (hlive' : ∀ x ∈ argBytes h.mm.mem envp envc len', Live h own t x)
    (hrun : h.taskInitElf t program argv envp = .ok (0, h')) : ∃ w, (w = 0 ↔ envc = 0) ∧
    WordAt h' (h'.task t).pageTable ((h'.task t).userFrame.registers REG_A1 + 8 * argc) w ∧
    (w = 0 → InitStack h' t h.mm.mem argv argc len envp envc len') := by
  unfold taskInitElf at hrun
  obtain ⟨_, _, hrun⟩ := Res.bind_eq_ok.mp hrun
  obtain ⟨_, _, hrun⟩ := Res.bind_eq_ok.mp hrun
  obtain ⟨⟨r, h₁⟩, hload, hrun⟩ := Res.bind_eq_ok.mp hrun
  simp only at hrun
  split at hrun
  · rename_i hne
    exact absurd (Prod.mk.inj (Except.ok.inj hrun)).1 hne
  rename_i hr
  rw [not_not.mp hr] at hload
  obtain ⟨own₁, hg, hp, _, hzero⟩ := loadElf_stack hw ht hload
  have hmem : ∀ x ∈ argBytes h.mm.mem argv argc len, h₁.mm.mem x = h.mm.mem x := fun x hx => hg.sameByte (hlive x hx)
  have hmem' : ∀ x ∈ argBytes h.mm.mem envp envc len', h₁.mm.mem x = h.mm.mem x := fun x hx => hg.sameByte (hlive' x hx)
  obtain ⟨n, v, huser⟩ := hp.user
  obtain ⟨low, hlow⟩ : ∃ low, low = 8 * (argc + envc + 2) := ⟨_, rfl⟩
  obtain ⟨mem, frame, hh, ha0, ha1, ha2, _, hsize, htable, htable', hrest, hout⟩ := initArgs_tables (hs.congr hmem)
    (hs'.congr hmem') (fun x hx => hg.offPage (hlive x (by rwa [argBytes_congr hmem] at hx)) huser)
    (fun x hx => hg.offPage (hlive' x (by rwa [argBytes_congr hmem'] at hx)) huser) hlow hrun
  obtain ⟨hroot, hbytes⟩ := hp.bytes hg.world (hg.live ▸ ht) hout hh
  have hframe : (h'.task t).userFrame = frame := by
    rw [hh]
    show (Function.update h₁.task t { h₁.task t with userFrame := frame } t).userFrame = _
    rw [Function.update_self]
  have hmid : argOff len' envc low 0 ≤ pageSize := Nat.le_trans low_le_argOff hsize
  have hlow' : low ≤ pageSize := Nat.le_trans low_le_argOff hmid
  have hnull : ∀ x, x = h₁.lastPage t + pageSize - 16 → load 8 mem x = 0 := by
    intro x hx
    refine load_eq_zero fun y h1 h2 => ?_
    have hy := hzero (y - h₁.lastPage t) (by omega)
    have he : h₁.lastPage t + (y - h₁.lastPage t) = y := by omega
    rw [he] at hy
    rw [hrest y (by omega) (by omega), hy]
  have hword := hbytes.word (k := 8 * argc) hlow' (by omega)
  have hword' := hbytes.word (k := 8 * envc) (by omega : 8 * (envc + 2) ≤ pageSize) (by omega)
  rw [hnull _ (by omega)] at hword'
  rw [← ha1, ← hframe, ← hroot] at hword
  refine ⟨_, ⟨fun hw0 => ?_, fun h0 => hnull _ (by omega)⟩, hword, fun hw0 => ?_⟩
  · by_contra hne
    obtain ⟨hfirst, _⟩ := htable' 0 (Nat.pos_of_ne_zero hne)
    have he : h₁.lastPage t + pageSize - 8 * (envc + 2) + 8 * 0 = h₁.lastPage t + pageSize - low + 8 * argc := by omega
    rw [he, hw0, userStackAddr_eq hmid] at hfirst
    have h1 : pageSize < userStack := by decide
    have h2 : userStack < 256 ^ 8 := by decide
    omega
  · rw [hw0] at hword
    refine ⟨hframe ▸ ha0, ⟨fun i hi => ?_, hword⟩, ⟨fun i hi => ?_, ?_⟩⟩
    · rw [hframe, ha1, hroot]
      exact (htable.congr hmem).copy hbytes hlow' (by omega) hsize hi
    · rw [hframe, ha2, hroot]
      exact (htable'.congr hmem').copy hbytes (by omega) (by omega) hmid hi
    · rw [hframe, ha2, hroot]
      exact hword'

/-- **The arguments of a program.**  When task_init_elf has returned 0 for NULL-terminated vectors in memory that it leaves
alone, the registers and the stack hold the arguments as they should exactly if the environment is empty: the first entry
of a longer one is where the NULL of `argv` should be. -/
theorem init_stack (hw : World h own q) (ht : t ∈ h.live) (hs : Strings h.mm.mem argv argc len)
    (hs' : Strings h.mm.mem envp envc len') (hlive : ∀ x ∈ argBytes h.mm.mem argv argc len, Live h own t x)
    (hlive' : ∀ x ∈ argBytes h.mm.mem envp envc len', Live h own t x)
    (hrun : h.taskInitElf t program argv envp = .ok (0, h')) :
    InitStack h' t h.mm.mem argv argc len envp envc len' ↔ envc = 0 := by
  obtain ⟨w, hnull, hword, hstack⟩ := taskInitElf_stack hw ht hs hs' hlive hlive' hrun
  constructor
  · intro hx
    exact hnull.mp (hword.unique hx.argv.stop)
  · intro h0
    exact hstack (hnull.mpr h0)

/-! ## the first task -/

/-- memory below the pages that are handed out belongs to no task -/
theorem Held.low_live (hh : Held h own) (hx : x ∉ usable) : Live h own t x := by
  refine ⟨.inl hx, fun s r hp hon => hx ?_⟩
  exact onPage_usable (hh.ok.usable (hh.out _ _ _ hp) (Tiling.base_mem (pageAt _))) (hh.page hp) hon

/-- task_init_elf returns 0 for the first task with an environment that fits -/
theorem boot_init_elf {e : Elf} {b : Bool} (ho : e.OnePage b) (hp : e.Placed) (envp : Nat) (henvp : envp ≠ 0)
    (hs : ∀ m, LowAsBooted e m → Strings m envp envc len)
    (hbytes : ∀ m, LowAsBooted e m → ∀ x ∈ argBytes m envp envc len, inDirectMap x = true ∧ x ∉ usable)
    (hsize : argOff (fun _ => 4) 1 (argOff len envc (8 * (1 + envc + 2)) 0) 0 ≤ pageSize) :
    ∃ t h own q h', (bootKernel e).heap.taskCreate 0 = .ok (t, h) ∧ World h own q ∧ t ∈ h.live ∧ LowAsBooted e h.mm.mem ∧
      h.taskInitElf t Kernel.program initArgv envp = .ok (0, h') := by
  obtain ⟨t, n, stack, root, h₁, own₁, h₂, own, n₁, n₂, hb⟩ := boot_elf ho hp
  have ht : t ∈ h₁.live := by
    rw [hb.added.live]
    exact List.mem_cons_self
  have hlow := hb.low.2
  obtain ⟨h₃, hargs⟩ := Strings.initArgs_ok hb.booked hb.grown.world (hb.grown.live ▸ ht) hb.stack hlow.argv (hs _ hlow)
    hlow.argBytes (hbytes _ hlow) hsize
  refine ⟨t, h₁, own₁, _, h₃, hb.create, hb.added.world, ht, hb.low.1, ?_⟩
  rw [taskInitElf_eq (by decide) henvp (by decide) hb.load]
  exact hargs

/-- with `{"init", NULL}` for the environment too, `argv` has no NULL behind its string -/
theorem init_stack_no_null : ∃ t h h' w, (bootKernel initImage).heap.taskCreate 0 = .ok (t, h) ∧
    Strings h.mm.mem initArgv 1 (fun _ => 4) ∧ h.taskInitElf t Kernel.program initArgv initArgv = .ok (0, h') ∧
    WordAt h' (h'.task t).pageTable ((h'.task t).userFrame.registers REG_A1 + 8 * 1) w ∧ w ≠ 0 ∧
    ¬ InitStack h' t h.mm.mem initArgv 1 (fun _ => 4) initArgv 1 (fun _ => 4) := by
  obtain ⟨t, h, own, q, h', hcreate, hw, ht, hlow, hrun⟩ := boot_init_elf initImage_onePage initImage_placed initArgv (by decide)
    (fun _ hm => hm.argv) (fun _ hm => hm.argBytes) (by decide)
  have hlive : ∀ x ∈ argBytes h.mm.mem initArgv 1 fun _ => 4, Live h own t x := fun x hx =>
    hw.held.low_live (hlow.argBytes x hx).2
  obtain ⟨w, hnull, hword, _⟩ := taskInitElf_stack hw ht hlow.argv hlow.argv hlive hlive hrun
  have hne : w ≠ 0 := fun h0 => absurd (hnull.mp h0) (by decide)
  exact ⟨t, h, h', w, hcreate, hlow.argv, hrun, hword, hne, fun hx => hne (hword.unique hx.argv.stop)⟩

/-- the theorem at the arguments of main -/
theorem init_stack_main : ∃ t h h', (bootKernel initImage).heap.taskCreate 0 = .ok (t, h) ∧
    h.taskInitElf t Kernel.program initArgv initEnvp = .ok (0, h') ∧
    (InitStack h' t h.mm.mem initArgv 1 (fun _ => 4) initEnvp 0 (fun _ => 0) ↔ 0 = 0) := by
  obtain ⟨t, h, own, q, h', hcreate, hw, ht, hlow, hrun⟩ := boot_init_elf initImage_onePage initImage_placed initEnvp (by decide)
    (fun _ hm => hm.envp) (fun _ _ => envpBytes) (by decide)
  exact ⟨t, h, h', hcreate, hrun, init_stack hw ht hlow.argv hlow.envp
    (fun x hx => hw.held.low_live (hlow.argBytes x hx).2) (fun x hx => hw.held.low_live (envpBytes x hx).2) hrun⟩

end FakeKernel
