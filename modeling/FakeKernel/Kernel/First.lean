import FakeKernel.Kernel.Arguments

/-!
# The first task

A kernel that has just been booted, and an image with one page that can be executed and nothing else.

* `bootKernel`, `initImage`   memory, image and arguments as main finds them;
* `boot_runs`                 the first task is created and its image is loaded;
* `FirstUser`, `first_user`   it gets to user mode.
-/

namespace FakeKernel
open Bytes Mm Heap Kernel

variable {h h' : Heap} {own own' : Owners} {q : TaskList → List Nat} {t n k : Nat} {m : Mem} {ns : List Nat} {e : Elf} {b : Bool}

/-! ## what main starts with -/

/-- one PT_LOAD segment at 0x10000, of eight bytes, that can only be executed -/
def initImage : Elf where
  program := program
  mem := fun x =>
    if x = program + 18 then 0xf3
    else if x = program + 26 then 1
    else if x = program + 32 then 64
    else if x = program + 54 then 56
    else if x = program + 56 then 1
    else if x = program + 64 then 1
    else if x = program + 68 then 1
    else if x = program + 72 then 120
    else if x = program + 82 then 1
    else if x = program + 96 then 8
    else if x = program + 104 then 8
    else if program + 120 ≤ x ∧ x < program + 128 then 0xff
    else 0

def initPhdr : Phdr :=
  { pType := PT_LOAD, pFlags := PF_X, pOffset := 120, pVaddr := 0x10000, pFilesz := 8, pMemsz := 8 }

theorem initImage_phdr : initImage.phdr 0 = initPhdr := by decide

theorem initImage_onePage : initImage.OnePage false := by
  refine ⟨⟨by decide, by decide, .inl ⟨by decide, rfl⟩⟩, ?_, ?_⟩
  · rw [initImage_phdr]
    exact ⟨by decide, by unfold Phdr.NoAccess; decide⟩
  · rw [initImage_phdr]
    decide

/-- an image where main looks for it, below the pages of the allocator -/
structure Elf.Placed (e : Elf) : Prop where
  place : e.program = Kernel.program
  within : ∀ x ∈ e.bytes, e.program ≤ x ∧ x < kernPhyBase + 2 ^ 20

theorem initImage_placed : initImage.Placed :=
  ⟨rfl, initImage_onePage.bytes_within (by decide) (by decide) (by decide) (by decide) (by decide)⟩

def initArgv : Nat := kernBase + 0x1000
def initName : Nat := kernBase + 0x1010
def initEnvp : Nat := kernBase + 0x1020
def initTable : Nat := kernBase + 0x2000

/-- the arguments of the first task: the string "init", and no environment -/
def argsMem : Mem := fun x =>
  if x = initArgv then 0x10
  else if x = initArgv + 1 then 0x10
  else if x = initArgv + 4 then 0x3f
  else if x = initName then 0x69
  else if x = initName + 1 then 0x6e
  else if x = initName + 2 then 0x69
  else if x = initName + 3 then 0x74
  else 0

/-- memory when main is called, with the image `e` -/
def bootMem (e : Elf) : Mem := fun x => if program ≤ x then e.mem x else argsMem x

theorem bootMem_table (e : Elf) : EarlyTable initTable (bootMem e) := by
  refine ⟨by decide, by decide, fun i hi => ?_⟩
  have hzero : load 8 (fun _ => 0) (initTable + 8 * i) = 0 := rfl
  refine Eq.trans (load_congr fun x h1 h2 => ?_) hzero
  have hlow : ¬ program ≤ x := by
    have h3 : initTable + 8 * entryCount ≤ program := by decide
    unfold entryCount at *
    omega
  unfold bootMem
  rw [if_neg hlow]
  have hname : initName + 4 ≤ initTable := by decide
  have hargv : initArgv + 5 ≤ initTable := by decide
  unfold argsMem
  rw [if_neg (by omega), if_neg (by omega), if_neg (by omega), if_neg (by omega), if_neg (by omega), if_neg (by omega), if_neg (by omega)]

/-- the memory management behind mm_init -/
def bootMm (e : Elf) : Mm :=
  match establishIdenticalMapping initTable (bootMem e) >>= mmInit initTable with
  | .ok a => a
  | .error _ => Mm.init (bootMem e)

theorem bootMm_init (e : Elf) : ∃ m, establishIdenticalMapping initTable (bootMem e) = .ok m ∧ mmInit initTable m = .ok (bootMm e) := by
  obtain ⟨m, a, hmap, hinit⟩ := mmInit_total (bootMem_table e)
  refine ⟨m, hmap, ?_⟩
  unfold bootMm
  rw [hmap, Res.ok_bind, hinit]

theorem bootMm_start (e : Elf) : MmStart initTable (bootMem e) (bootMm e) := by
  obtain ⟨m, hmap, hinit⟩ := bootMm_init e
  exact mmInit_spec (bootMem_table e) hmap hinit

/-- the state behind mm_init and sched_init -/
def bootKernel (e : Elf) : Kernel where
  heap :=
    { mm := bootMm e
      lists := { node := fun _ => { value := 0, list := none, prev := 0, next := 0 }
                 list := fun _ => { first := 0, last := 0 } }
      area := fun _ => { va := 0, nPages := 0, refcount := 0, flags := 0 }
      task := fun _ => { pid := 0, parent := 0, sched := 0, kernelStack := 0, pageTable := 0, mode := .supervisor,
                         kernelFrame := .taskEntry, userFrame := { registers := fun _ => 0, pc := 0 } }
      nextTaskId := 1
      live := []
      blocks := [] }
  uart := Uart.init
  currentTask := 0
  currentTaskNode := 0
  satp := 0
  trapframe := { registers := fun _ => 0, pc := 0 }
  mayPageFault := false
  sum := false
  scause := 0
  stval := 0
  ctl := .schedule
  cpu := { registers := fun _ => 0, pc := 0 }
  trace := []

theorem bootKernel_blank (e : Elf) : (bootKernel e).Blank := by
  obtain ⟨m, hmap, hinit⟩ := bootMm_init e
  exact ⟨⟨initTable, bootMem e, m, bootMem_table e, hmap, hinit⟩, fun _ => rfl, rfl, rfl, rfl, rfl, ⟨rfl, rfl⟩, ⟨rfl, rfl⟩, rfl⟩

/-! ## the arguments of the first task -/

/-- but for the early table, `m` is still what it was at boot below the pages that the allocator hands out -/
def LowAsBooted (e : Elf) (m : Mem) : Prop := ∀ x < kernPhyBase + 2 ^ 20, ¬ onPage initTable x → m x = bootMem e x

theorem LowAsBooted.image (hm : LowAsBooted e m) (hp : e.Placed) : e.LiesIn m := by
  refine Elf.liesIn_of_below hp.within fun x h1 h2 => ?_
  rw [hp.place] at h1
  have htop : initTable + pageSize ≤ program := by decide
  rw [hm x h2 fun hon => Nat.not_le.mpr hon.2 (Nat.le_trans htop h1)]
  exact if_pos h1

theorem boot_lowAsBooted (e : Elf) : LowAsBooted e (bootMm e).mem := (bootMm_start e).same

theorem Elf.Placed.liesIn (hp : e.Placed) : e.LiesIn (bootKernel e).heap.mm.mem := (boot_lowAsBooted e).image hp

theorem LowAsBooted.args (hm : LowAsBooted e m) {x : Nat} (hx : x < initTable) : m x = argsMem x := by
  have htop : initTable + pageSize ≤ program := by decide
  have hlow : program < kernPhyBase + 2 ^ 20 := by decide
  have hlt : ¬ program ≤ x := by omega
  have hboot := hm x (Nat.lt_trans (Nat.not_le.mp hlt) hlow) fun hon => Nat.not_le.mpr hx hon.1
  unfold bootMem at hboot
  rwa [if_neg hlt] at hboot

theorem LowAsBooted.load (hm : LowAsBooted e m) {x : Nat} (hx : x + 8 ≤ initTable) :
    Bytes.load 8 m x = Bytes.load 8 argsMem x :=
  load_congr fun y _ hy => hm.args (by omega)

theorem LowAsBooted.name (hm : LowAsBooted e m) : StringAt m initName 4 := by
  have hb : StringAt argsMem initName 4 := ⟨by decide, by decide⟩
  refine hb.congr fun i hi => hm.args ?_
  have hlt : initName + 5 < initTable := by decide
  omega

theorem LowAsBooted.extends {a a' : Mm} {W : Set Nat} {N : List Nat} (hm : LowAsBooted e a.mem) (hx : Extends a a' W N)
    (hW : ∀ s ∈ W, s ∈ usable) : LowAsBooted e a'.mem := by
  intro x hlt hon
  have hnot : x ∉ usable := fun hu => Nat.not_le.mpr hlt hu.1
  rw [hx.frame x (.inl hnot) fun s hs hon => ?_]
  · exact hm x hlt hon
  · have h1 := (hW s hs).1
    have h2 := hon.1
    omega

/-- `argv` of main -/
theorem LowAsBooted.argv (hm : LowAsBooted e m) : Strings m initArgv 1 fun _ => 4 := by
  have h0 : Bytes.load 8 m (initArgv + 8 * 0) = initName := by
    rw [hm.load (by decide)]
    decide
  have h1 : Bytes.load 8 m (initArgv + 8 * 1) = 0 := by
    rw [hm.load (by decide)]
    decide
  refine ⟨fun i hi => ?_, fun i hi => ?_, h1⟩
  · rw [Nat.lt_one_iff.mp hi, h0]
    decide
  · rw [Nat.lt_one_iff.mp hi, h0]
    exact hm.name

/-- `envp` of main -/
theorem LowAsBooted.envp (hm : LowAsBooted e m) : Strings m initEnvp 0 fun _ => 0 := by
  refine ⟨nofun, nofun, ?_⟩
  rw [hm.load (by decide)]
  decide

theorem low_not_usable {x : Nat} (h1 : kernBase ≤ x) (h2 : x < kernPhyBase + 2 ^ 20) :
    inDirectMap x = true ∧ x ∉ usable := by
  refine ⟨?_, fun hu => Nat.not_le.mpr h2 hu.1⟩
  have h3 : kernPhyBase + 2 ^ 20 < kernStop := by decide
  unfold inDirectMap
  rw [Bool.and_eq_true, decide_eq_true_eq, decide_eq_true_eq]
  exact ⟨h1, Nat.lt_trans h2 h3⟩

theorem LowAsBooted.argBytes (hm : LowAsBooted e m) : ∀ x ∈ argBytes m initArgv 1 fun _ => 4, inDirectMap x = true ∧ x ∉ usable := by
  intro x hx
  have hlow : kernBase ≤ initArgv ∧ initArgv + 8 * (1 + 1) ≤ kernPhyBase + 2 ^ 20 := by decide
  have hname : kernBase ≤ initName ∧ initName + 4 < kernPhyBase + 2 ^ 20 := by decide
  cases hx with
  | inl hx => exact low_not_usable (by omega) (by omega)
  | inr hx =>
    obtain ⟨i, hi, h1, h2⟩ := hx
    have h0 : Bytes.load 8 m (initArgv + 8 * i) = initName := by
      rw [Nat.lt_one_iff.mp hi, hm.load (by decide)]
      decide
    rw [h0] at h1 h2
    have h2 : x ≤ initName + 4 := h2
    exact low_not_usable (by omega) (by omega)

theorem envpBytes : ∀ x ∈ argBytes m initEnvp 0 fun _ => 0, inDirectMap x = true ∧ x ∉ usable := by
  intro x hx
  have hlow : kernBase ≤ initEnvp ∧ initEnvp + 8 * (0 + 1) ≤ kernPhyBase + 2 ^ 20 := by decide
  cases hx with
  | inl hx => exact low_not_usable (by omega) (by omega)
  | inr hx =>
    obtain ⟨i, hi, _⟩ := hx
    exact absurd hi (Nat.not_lt_zero i)

/-! ## the first task -/

/-- the code of the first task and its stack are its two areas -/
structure FirstImage (e : Elf) (b : Bool) (h : Heap) (own : Owners) (t : Nat) (ns : List Nat) (room : Nat) : Prop where
  booked : Booked h own t ns
  areas : ns.map h.areaOf = [(e.phdr 0).area, stackArea b]
  stack : h.StackOpen t
  room : h.mm.Room room
  low : LowAsBooted e h.mm.mem

/-- a step in which no block changes hands -/
theorem FirstImage.quiet {room : Nat} (hf : FirstImage e b h own t ns room) (hw : World h own q) (ht : t ∈ h.live)
    (hq : Quiet h h' own) (hok : h'.mm.Ok) : FirstImage e b h' own t ns room := by
  have hu := hq.untouched t ht
  refine ⟨hf.booked.untouched hw ht hu, ?_, hu.stackOpen (hw.maps t ht) hf.stack, ⟨hok, ?_, ?_⟩, fun x hx hon => ?_⟩
  · rw [← hf.areas]
    exact List.map_congr_left fun m hm => hf.booked.areaOf_untouched hw ht hu hm
  · rw [hq.out]
    exact hf.room.order
  · rw [hq.out]
    exact hf.room.length
  · rw [hq.outside x fun hu => Nat.not_le.mpr hx hu.1]
    exact hf.low x hx hon

/-- the first task is created, and its image is loaded -/
structure BootElf (e : Elf) (b : Bool) (t n stack root : Nat) (h₁ : Heap) (own₁ : Owners) (h₂ : Heap) (own : Owners) (n₁ n₂ : Nat) : Prop where
  create : (bootKernel e).heap.taskCreate 0 = .ok (t, h₁)
  added : TaskAdded (fun _ => []) 0 (bootKernel e).heap (fun _ => none) h₁ own₁ t n stack root
  load : h₁.loadElf t program = .ok (0, h₂)
  grown : Grown (pushed (fun _ => []) .tasks n) t h₁ own₁ h₂ own
  booked : Booked h₂ own t ([n₁] ++ [n₂])
  code : h₂.areaOf n₁ = (e.phdr 0).area
  stack : h₂.areaOf n₂ = stackArea b
  stackOpen : h₂.StackOpen t
  room : h₂.mm.Room 750
  task : h₂.task = (h₁.setFrame t (startFrame e.eEntry)).task
  low : LowAsBooted e h₁.mm.mem ∧ LowAsBooted e h₂.mm.mem

theorem boot_elf (ho : e.OnePage b) (hp : e.Placed) : ∃ t n stack root h₁ own₁ h₂ own n₁ n₂,
    BootElf e b t n stack root h₁ own₁ h₂ own n₁ n₂ := by
  have hblank := bootKernel_blank e
  have hroom : (bootKernel e).heap.mm.Room (762 + 4) := (bootMm_start e).room
  obtain ⟨⟨t, h₁⟩, hcreate, _⟩ := taskCreate_room hroom.free 0
  obtain ⟨own₁, n, stack, root, ha⟩ := taskCreate_added hblank.world (Nat.one_pos) hcreate
  have hr₁ : h₁.mm.Room 762 := hroom.step ha.mm (Nat.le_of_eq rfl)
  have hb₁ := ha.booked hblank.world.held
  have ht₁ : t ∈ h₁.live := by
    rw [ha.live]
    exact List.mem_cons_self
  have hlow₁ : LowAsBooted e h₁.mm.mem := (boot_lowAsBooted e).extends ha.mm nofun
  obtain ⟨h₂, own, n₁, n₂, hload, hr₂, hg, hb₂, hn₁, hn₂, hopen, htask₂⟩ :=
    loadElf_room (k := 750) ho (hlow₁.image hp) hb₁ ha.world ht₁ hr₁
  have hlow : LowAsBooted e h₂.mm.mem := fun x hx hon => by
    have hout : x ∉ usable := fun hu => Nat.not_le.mpr hx hu.1
    rw [hg.outside ha.world hout]
    exact hlow₁ x hx hon
  rw [hp.place] at hload
  exact ⟨t, n, stack, root, h₁, own₁, h₂, own, n₁, n₂, hcreate, ha, hload, hg, hb₂, hn₁, hn₂, hopen, hr₂, htask₂, hlow₁, hlow⟩

/-- init returns, and the first task is ready -/
theorem boot_runs (ho : e.OnePage b) (hp : e.Placed) : ∃ k own t n ns, (bootKernel e).init initArgv initEnvp = .ok k ∧
    Inactive k own (pushed (fun _ => []) .tasks n) ∧ k.ctl = .schedule ∧ k.heap.live = [t] ∧
    FirstImage e b k.heap own t ns 750 ∧ (k.task t).mode = .supervisor ∧ (k.task t).kernelFrame = .taskEntry := by
  obtain ⟨t, n, stack, root, h₁, own₁, h₂, own, n₁, n₂, hbe⟩ := boot_elf ho hp
  obtain ⟨hcreate, ha, hload, hg, hb₂, hn₁, hn₂, hopen, hr₂, htask₂, _, hlow⟩ := hbe
  have hlive₁ : h₁.live = [t] := ha.live
  have hw₂ := hg.world
  have ht₂ : t ∈ h₂.live := by
    rw [hg.live, hlive₁]
    exact List.mem_singleton_self t
  obtain ⟨h₃, hargs⟩ := Strings.initArgs_ok hb₂ hw₂ ht₂ hn₂ hlow.argv hlow.envp hlow.argBytes envpBytes (by decide)
  obtain ⟨hlast, hobj, _⟩ := hb₂.lastStack hw₂ ht₂ hn₂
  rw [← hlast] at hobj
  obtain ⟨_, p, m, v, mem, frame, hp, hmem, hh₃⟩ := initArgs_spec hw₂ ht₂ hobj hargs
  obtain ⟨hw', hq'⟩ := hw₂.store hp hmem
  obtain ⟨hw₃, hq₃⟩ := hw'.assignFrame t frame
  rw [← hh₃] at hw₃ hq₃
  have hq := hq'.trans hq₃
  have hareas : ([n₁] ++ [n₂]).map h₂.areaOf = [(e.phdr 0).area, stackArea b] := by
    show [h₂.areaOf n₁, h₂.areaOf n₂] = _
    rw [hn₁, hn₂]
  have hfirst := (FirstImage.mk hb₂ hareas hopen hr₂ hlow).quiet hw₂ ht₂ hq hw₃.held.ok
  have hlive₃ : h₃.live = [t] := by rw [hq.live, hg.live, hlive₁]
  have hnew : h₁.task t = newTask (bootKernel e).heap 0 t n stack root := by
    rw [ha.task, Function.update_self]
  have htask : h₃.task t = { newTask (bootKernel e).heap 0 t n stack root with userFrame := frame } := by
    rw [hh₃]
    show Function.update h₂.task t { h₂.task t with userFrame := frame } t = _
    rw [Function.update_self, htask₂]
    show { Function.update h₁.task t { h₁.task t with userFrame := _ } t with userFrame := frame } = _
    rw [Function.update_self, hnew]
  obtain ⟨k, hk⟩ : ∃ k : Kernel, k = { bootKernel e with heap := h₃, ctl := .schedule } := ⟨_, rfl⟩
  have hheap : k.heap = h₃ := by rw [hk]
  have htask' : k.task t = { newTask (bootKernel e).heap 0 t n stack root with userFrame := frame } := by
    rw [hk]
    exact htask
  refine ⟨k, own, t, n, [n₁] ++ [n₂], ?_, ⟨?_, ?_, fun t' ht' => ⟨.tasks, mem_pushed.mpr (.inr ⟨rfl, ?_⟩)⟩⟩, ?_, ?_, ?_, ?_, ?_⟩
  · have helf : h₁.taskInitElf t program initArgv initEnvp = .ok (0, h₃) := by
      rw [taskInitElf_eq (by decide) (by decide) (by decide) hload]
      exact hargs
    unfold Kernel.init
    rw [hcreate, Res.ok_bind]
    simp only [helf, Res.ok_bind]
    rw [hk]
  · rw [hheap]
    exact hw₃
  · rw [hk]
    exact ⟨rfl, rfl⟩
  · rw [hheap, hlive₃, List.mem_singleton] at ht'
    rw [ht', htask']
    rfl
  · rw [hk]
  · rw [hheap, hlive₃]
  · rw [hheap]
    exact hfirst
  · rw [htask']
    rfl
  · rw [htask']
    rfl

/-! ## the first task runs -/

/-- schedule() dispatches the first of the ready list -/
theorem Inactive.doSchedule_ok {k : Kernel} {n : Nat} {l : List Nat} (ha : Inactive k own q) (hg : q .tasks = n :: l) :
    ∃ k', k.doSchedule = .ok k' := by
  have hq : k.heap.lists.Queue (.queue .tasks) (n :: l) := hg ▸ ha.world.queues.queue .tasks
  obtain ⟨t, ht, hn⟩ := ha.world.queues.sched .tasks n (hg ▸ List.mem_cons_self)
  have hn0 : n ≠ 0 := ha.world.sched_ne_zero (g := .tasks) (hg ▸ List.mem_cons_self)
  have hvalue : ((k.heap.lists.listShift (.queue .tasks)).2.node n).value = t := by
    have hw := (ha.world.shift hg).1
    have hv : (({ k.heap with lists := (k.heap.lists.listShift (.queue .tasks)).2 } : Heap).node
      (({ k.heap with lists := (k.heap.lists.listShift (.queue .tasks)).2 } : Heap).task t).sched).value = t :=
      hw.queues.value t ht
    have hsched : (({ k.heap with lists := (k.heap.lists.listShift (.queue .tasks)).2 } : Heap).task t).sched = n :=
      hn.symm
    rw [hsched] at hv
    exact hv
  have hM := ha.world.maps t ht
  have hroot := hM.tables _ table_mem_tables
  have hoff : Sv39Pa.off (PA (k.heap.task t).pageTable) = 0 :=
    off_PA (ha.world.held.ok.usable (ha.world.held.out _ _ _ hroot) (Tiling.base_mem (pageAt _))) hM.wf.page
  have hnode : kassert (k.currentTaskNode == 0) "schedule: current_task_node not null" = .ok () := by
    rw [ha.nobody.2]
    rfl
  have hcurrent : kassert (k.currentTask == 0) "schedule: current_task not null" = .ok () := by
    rw [ha.nobody.1]
    rfl
  unfold Kernel.doSchedule
  rw [hnode, Res.ok_bind, hcurrent, Res.ok_bind]
  simp only [hq.shift_fst, hn0, if_false]
  have htable : ∀ node : Nat, node = n → Sv39Pa.off (PA (k.heap.task
      ((k.heap.lists.listShift (.queue .tasks)).2.node node).value).pageTable) = 0 := by
    intro node he
    rw [he, hvalue]
    exact hoff
  split
  · rename_i hne
    exact absurd (htable n rfl) hne
  · split
    · exact ⟨_, rfl⟩
    · exact ⟨_, rfl⟩

def quietOracle : Oracle := { lsr := fun _ => [], regs := { registers := fun _ => 0, pc := 0 }, text := [] }

/-- a new task is dispatched, and it goes to user mode -/
structure EntrySteps (k₀ k₁ k : Kernel) : Prop where
  ctl : k₀.ctl = .schedule
  dispatched : k₀.Step k₁
  frame : (k₁.task k₁.currentTask).kernelFrame = .taskEntry
  step : k₁.Step k
  entered : k = k₁.yieldToUser

theorem EntrySteps.steps {k₀ k₁ k : Kernel} (he : EntrySteps k₀ k₁ k) : Steps k₀ k := .tail (.single he.dispatched) he.step

theorem yieldToUser_frame (k : Kernel) : (k.yieldToUser.task k.currentTask).kernelFrame = .yieldToUser := by
  show (Function.update k.heap.task k.currentTask { k.task k.currentTask with kernelFrame := .yieldToUser } k.currentTask).kernelFrame = _
  rw [Function.update_self]

/-- the first of the ready list has not run yet -/
theorem Inactive.entry {k : Kernel} {n : Nat} {l : List Nat} (ha : Inactive k own q) (hctl : k.ctl = .schedule) (hg : q .tasks = n :: l)
    (hmode : (k.task k.dispatch.currentTask).mode = .supervisor) (hframe : (k.task k.dispatch.currentTask).kernelFrame = .taskEntry) :
    ∃ k₁, EntrySteps k k₁ k₁.yieldToUser ∧ Within (Function.update q .tasks l) k.dispatch own k₁ ∧ k₁.heap = k.dispatch.heap := by
  obtain ⟨k₁, hsched⟩ := ha.doSchedule_ok hg
  obtain ⟨ha₁, _⟩ := ha.dispatch hg
  have hfirst : (k.heap.lists.list (.queue .tasks)).first ≠ 0 := by
    have hc := (ha.world.queues.queue .tasks).chain
    rw [hg] at hc
    rw [hc.1]
    exact hc.2.1
  have hmode₁ : (k.dispatch.task k.dispatch.currentTask).mode = .supervisor := hmode
  have hk₁ : k₁ = { k.dispatch with ctl := .thread } := by
    cases doSchedule_cases hsched with
    | inl hidle => exact absurd hidle.1 hfirst
    | inr hdis =>
      cases hdis.2 with
      | inl hsup => exact hsup.1
      | inr huser =>
        rw [hmode₁] at huser
        exact nomatch huser.2
  have hi₁ : Within (Function.update q .tasks l) k.dispatch own k₁ := by
    rw [hk₁]
    exact ha₁.control rfl rfl rfl rfl ⟨[], (List.append_nil _).symm, rfl⟩
  have htask₁ : (k₁.task k₁.currentTask).kernelFrame = .taskEntry := by
    rw [hk₁]
    exact hframe
  have hctl₁ : k₁.ctl = .thread := by rw [hk₁]
  have hresume : k₁.resume quietOracle = .ok k₁.yieldToUser := by
    unfold Kernel.resume
    rw [htask₁]
  have hexec : ¬ k₁.Execve := fun he => by
    rw [Kernel.Execve, htask₁] at he
    exact nomatch he.1
  exact ⟨k₁, ⟨hctl, .schedule hctl hsched, htask₁, .resume _ hctl₁ hexec hresume, rfl⟩, hi₁, by rw [hk₁]⟩

/-- the first task is in user mode, and it is alone -/
structure FirstUser (e : Elf) (b : Bool) (k : Kernel) (own : Owners) (t : Nat) (ns : List Nat) (room : Nat) : Prop where
  reachable : k.Reachable
  ctl : k.ctl = .user
  active : Active k own fun _ => []
  current : k.currentTask = t
  live : k.heap.live = [t]
  image : FirstImage e b k.heap own t ns room
  frame : (k.task t).kernelFrame = .yieldToUser

theorem user_run (ho : e.OnePage b) (hp : e.Placed) : ∃ k₀ k₁ k own t ns, (bootKernel e).init initArgv initEnvp = .ok k₀ ∧
    EntrySteps k₀ k₁ k ∧ FirstUser e b k own t ns 750 := by
  obtain ⟨k₀, own, t, n, ns, hrun, ha, hctl, hlive, hf, hmode, hframe⟩ := boot_runs ho hp
  have hbooted : k₀.Booted := ⟨bootKernel e, initArgv, initEnvp, bootKernel_blank e, hrun⟩
  have hg : pushed (fun _ => []) TaskList.tasks n .tasks = [n] := Function.update_self _ _ _
  obtain ⟨ha₁, hq₁, _⟩ := ha.dispatch hg
  have hlive₁ : k₀.dispatch.heap.live = [t] := by rw [hq₁.live, hlive]
  have hcur : k₀.dispatch.currentTask = t := by
    have hin := ha₁.live
    rw [hlive₁, List.mem_singleton] at hin
    exact hin
  obtain ⟨k₁, hsteps, hi₁, _⟩ := ha.entry hctl hg (hcur.symm ▸ hmode) (hcur.symm ▸ hframe)
  have hnone : Function.update (pushed (fun _ => []) TaskList.tasks n) .tasks [] = fun _ => [] := by
    funext g
    unfold pushed
    by_cases he : g = .tasks
    · rw [he, Function.update_self]
    · rw [Function.update_of_ne he, Function.update_of_ne he]
  rw [hnone] at hi₁
  have hi₂ := hi₁.trans hi₁.active.yieldToUser
  have hcur₁ : k₁.currentTask = t := hi₁.current.trans hcur
  have hq := hq₁.trans hi₂.quiet
  have ht : t ∈ k₀.heap.live := hlive ▸ List.mem_singleton_self t
  refine ⟨k₀, k₁, k₁.yieldToUser, own, t, ns, hrun, hsteps, ⟨k₀, hbooted, hsteps.steps⟩, rfl, hi₂.active, hi₂.current.trans hcur, ?_,
    hf.quiet ha.world ht hq hi₂.active.world.held.ok, ?_⟩
  · rw [hi₂.quiet.live, hlive₁]
  · rw [← hcur₁]
    exact yieldToUser_frame k₁

theorem first_user_run : ∃ k₀ k own t ns, (bootKernel initImage).init initArgv initEnvp = .ok k₀ ∧ Steps k₀ k ∧
    FirstUser initImage false k own t ns 750 := by
  obtain ⟨k₀, _, k, own, t, ns, hrun, hfirst, hu⟩ := user_run initImage_onePage initImage_placed
  exact ⟨k₀, k, own, t, ns, hrun, hfirst.steps, hu⟩

theorem first_user : ∃ k own t ns, FirstUser initImage false k own t ns 750 := by
  obtain ⟨_, k, own, t, ns, _, _, hu⟩ := first_user_run
  exact ⟨k, own, t, ns, hu⟩

theorem user_pages_isolated_first : ∃ k t x tr p, UserMapped (Kernel.heap k) t x tr ∧ tr.pa = PA p + x % pageSize ∧
    UserPage k.heap t x p := by
  obtain ⟨k, own, t, ns, hf⟩ := first_user
  have ht : t ∈ k.heap.live := hf.live ▸ List.mem_singleton_self t
  have hA := hf.image.booked.agrees hf.active.world ht
  have hareas := hf.image.areas
  cases ns with
  | nil => exact nomatch hareas
  | cons n ns =>
    have hn : k.heap.area (k.heap.node n).value = initPhdr.area := by
      rw [← initImage_phdr]
      exact (List.cons.inj hareas).1
    obtain ⟨ms, page, ha⟩ := hA.area n List.mem_cons_self
    obtain ⟨flags, hflags, hmap⟩ := ha.mapped 0 (by rw [hn]; decide)
    have hmap := hmap 0 (by decide)
    have hm : UserMapped k.heap t _ _ := ⟨ht, by rw [hn]; decide, hmap, hflags.user⟩
    obtain ⟨p, hpa, hp⟩ := user_pages_isolated hf.reachable hm
    exact ⟨k, t, _, _, p, hm, hpa, hp⟩

end FakeKernel
