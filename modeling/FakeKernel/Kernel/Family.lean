import FakeKernel.Kernel.Execve
import FakeKernel.Kernel.Fork
import FakeKernel.Kernel.Growth
import FakeKernel.Kernel.Renewal

/-!
# Tasks whose images were loaded in order

* `Family`          what the kernel does to tasks and their memory, in any order, from the first task on;
* `AllBooked`       the invariant of all live tasks; one lemma for each step;
* `areas_agree`     the areas of every task agree with its page table.
-/

namespace FakeKernel
open Bytes Mm Kernel

variable {h h' : Heap} {own own' : Owners} {q q' : TaskList → List Nat} {t t' n a p x : Nat} {ns : List Nat}
  {k k' : Kernel} {e : Elf} {b : Bool} {ok : VmArea → Prop}

/-! ## what happens to tasks -/

/-- Every image is in order when it is loaded, and it lies outside of the allocator's pages; the areas that grow or are
cloned are `ok`.  The steps of different tasks may come in any order. -/
inductive Kernel.Family (ok : VmArea → Prop) : Kernel → Prop
  /-- init -/
  | start {k : Kernel} {h h' : Heap} {t argv envp : Nat} {e : Elf} (hb : k.Blank) (ho : e.Ordered)
      (hc : k.heap.taskCreate 0 = .ok (t, h)) (hin : e.LiesIn h.mm.mem) (hi : h.taskInitElf t e.program argv envp = .ok (0, h')) :
      Family ok (k.setHeap h')
  /-- what does not touch the heap, as a switch to another task -/
  | control {k k' : Kernel} (hf : Family ok k) (hheap : k'.heap = k.heap) : Family ok k'
  /-- the fields of a task that do not belong to its memory, as its frames -/
  | assign {k : Kernel} {t : Nat} {x : Task} (hf : Family ok k) (hx : SameBlocks (k.task t) x) : Family ok (k.setTask t x)
  /-- a store of user code -/
  | store {k : Kernel} {t x : Nat} {tr : Translation} (b : UInt8) (hf : Family ok k) (hm : UserMapped k.heap t x tr) :
      Family ok (k.setHeap { k.heap with mm := k.heap.mm.write (VA tr.pa) b })
  | shift {k : Kernel} (g : TaskList) (hf : Family ok k) (hne : (k.heap.lists.list (.queue g)).first ≠ 0) :
      Family ok (k.setHeap { k.heap with lists := (k.heap.lists.listShift (.queue g)).2 })
  | push {k : Kernel} {t : Nat} (g : TaskList) (hf : Family ok k) (ht : t ∈ k.heap.live)
      (hout : (k.heap.node (k.task t).sched).list = none) : Family ok (k.setHeap (k.heap.listPush (.queue g) (k.task t).sched))
  /-- task_entry makes a stack grow -/
  | grow {k : Kernel} {h' : Heap} {t a va : Nat} (hf : Family ok k) (ht : t ∈ k.heap.live)
      (hst : userStackMin ≤ va ∧ va < userStack) (hfind : k.heap.vmFindStack (.vmAreas t) va = .ok a) (h0 : a ≠ 0)
      (hok : ok (k.heap.area a))
      (hrun : k.heap.expandStack t a (va / pageSize * pageSize) wordCount = .ok h') : Family ok (k.setHeap h')
  | fork {k k' : Kernel} {regs : Cpu} {parent child : Nat} (hf : Family ok k) (hp : parent ∈ k.heap.live)
      (hok : ∀ ns, k.heap.AreaNodes parent ns → ∀ n ∈ ns, ok (k.heap.areaOf n))
      (hrun : k.taskClone regs parent = .ok (child, k')) : Family ok k'
  /-- execve up to the start of the new image -/
  | execve {k k₁ k₂ : Kernel} {h h' : Heap} {t a1 a2 argv envp : Nat} {regs : Cpu} {e : Elf} {ret : Int} (hf : Family ok k)
      (ht : t ∈ k.heap.live) (hout : (k.heap.node (k.task t).sched).list = none)
      (hargv : k.userCopyArgs regs a1 = .ok (argv, k₁)) (hgood : isErr argv = false)
      (henvp : k₁.userCopyArgs regs a2 = .ok (envp, k₂)) (hgood' : isErr envp = false)
      (hre : k₂.heap.taskReinit t = .ok (ret, h)) (ho : e.Ordered) (hin : e.LiesIn h.mm.mem)
      (hi : h.taskInitElf t e.program argv envp = .ok (0, h')) : Family ok (k₂.setHeap h')
  | exit {k : Kernel} {h' : Heap} {t : Nat} (hf : Family ok k) (ht : t ∈ k.heap.live)
      (hout : (k.heap.node (k.task t).sched).list = none) (hrun : k.heap.taskDestroy t = .ok h') : Family ok (k.setHeap h')

/-! ## the invariant -/

structure AllBooked (h : Heap) (own : Owners) (q : TaskList → List Nat) : Prop where
  world : World h own q
  booked : ∀ t ∈ h.live, ∃ ns, Booked h own t ns

/-- a sched node that is in no list is in no queue -/
theorem World.detached (hw : World h own q) (hout : (h.node n).list = none) : ∀ g, n ∉ q g := by
  intro g hn
  exact nomatch ((hw.queues.queue g).owner n hn).symm.trans hout

/-- a user page is written at its kernel address -/
theorem World.onUserPage (hw : World h own q) {tr : Translation} (hm : UserMapped h t x tr) :
    ∃ p m, own.Page p t (.user m (x / pageSize)) ∧ onPage p (VA tr.pa) := by
  obtain ⟨p, m, hp, hpa, _⟩ := hw.userMapped hm
  have hin := hw.held.ok.usable (hw.held.out _ _ _ hp) (Tiling.base_mem (pageAt p))
  have hva : VA tr.pa = p + x % pageSize := by
    have he := VA_PA (x := x) hin
    rw [Nat.mod_eq_of_lt (PA_usable hin).2] at he
    rw [hpa]
    exact he
  refine ⟨p, m, hp, ?_⟩
  rw [hva]
  exact ⟨Nat.le_add_right _ _, Nat.add_lt_add_left (Nat.mod_lt _ (by decide)) _⟩

/-- task_init_elf of a task without areas -/
theorem taskInitElf_booked {argv envp : Nat} (ho : e.Ordered) (hin : e.LiesIn h.mm.mem) (hb : Booked h own t [])
    (hw : World h own q) (ht : t ∈ h.live) (hrun : h.taskInitElf t e.program argv envp = .ok (0, h')) :
    ∃ own' ns, World h' own' q ∧ Booked h' own' t ns ∧ h'.live = h.live ∧ ∀ t' ∈ h.live, t' ≠ t → Untouched h h' own own' t' := by
  unfold Heap.taskInitElf at hrun
  obtain ⟨_, _, hrun⟩ := Res.bind_eq_ok.mp hrun
  obtain ⟨_, _, hrun⟩ := Res.bind_eq_ok.mp hrun
  obtain ⟨⟨ret, h₁⟩, hload, hrun⟩ := Res.bind_eq_ok.mp hrun
  simp only at hrun
  by_cases h0 : ret = 0
  · rw [if_neg (not_not.mpr h0)] at hrun
    subst h0
    obtain ⟨own₁, ns, b, hg, hb₁, hareas⟩ := loadElf_booked ho hin hb hw ht hload
    have ht₁ : t ∈ h₁.live := hg.live ▸ ht
    -- the node of the stack is the last one
    obtain ⟨ns₁, l, rfl, _, hl⟩ := List.map_eq_append_iff.mp hareas
    obtain ⟨n, rfl, hstack⟩ := List.map_eq_singleton_iff.mp hl
    obtain ⟨hlast, hobj, _⟩ := hb₁.lastStack hg.world ht₁ hstack
    obtain ⟨_, p, m, v, mem, frame, hp, hmem, rfl⟩ := initArgs_spec hg.world ht₁ (hlast ▸ hobj) hrun
    obtain ⟨hw', hq'⟩ := hg.world.store hp hmem
    obtain ⟨hw₂, hq₂⟩ := hw'.assignFrame t frame
    have hq := hq'.trans hq₂
    refine ⟨own₁, _, hw₂, hb₁.untouched hg.world ht₁ (hq.untouched t ht₁), hq.live.trans hg.live, fun t' ht' hne => ?_⟩
    exact (hg.untouched hw.held ht' hne).trans (hq.untouched t' (hg.live ▸ ht'))
  · rw [if_pos h0] at hrun
    cases hrun
    exact absurd rfl h0

namespace AllBooked

/-- no block changes hands -/
theorem quiet (ha : AllBooked h own q) (hw : World h' own q') (hq : Quiet h h' own) : AllBooked h' own q' := by
  refine ⟨hw, fun t ht => ?_⟩
  have ht' : t ∈ h.live := hq.live ▸ ht
  obtain ⟨ns, hb⟩ := ha.booked t ht'
  exact ⟨ns, hb.untouched ha.world ht' (hq.untouched t ht')⟩

/-- a step for the task `t` -/
theorem step (ha : AllBooked h own q) (hw : World h' own' q') (hb : ∃ ns, Booked h' own' t ns)
    (hlive : ∀ t' ∈ h'.live, t' = t ∨ t' ∈ h.live)
    (hu : ∀ t' ∈ h.live, t' ≠ t → Untouched h h' own own' t') : AllBooked h' own' q' := by
  refine ⟨hw, fun t' ht' => ?_⟩
  by_cases he : t' = t
  · exact he ▸ hb
  · have hin := (hlive t' ht').resolve_left he
    obtain ⟨ns, hb'⟩ := ha.booked t' hin
    exact ⟨ns, hb'.untouched ha.world hin (hu t' hin he)⟩

theorem grow {va fuel : Nat} (ha : AllBooked h own q) (ht : t ∈ h.live) (hst : userStackMin ≤ va)
    (hfind : h.vmFindStack (.vmAreas t) va = .ok a) (h0 : a ≠ 0)
    (hrun : h.expandStack t a (va / pageSize * pageSize) fuel = .ok h') : ∃ own', Grown q t h own h' own' ∧ AllBooked h' own' q := by
  obtain ⟨ns, hb⟩ := ha.booked t ht
  obtain ⟨own', hg, hb'⟩ := expandStack_booked hb ha.world ht hst hfind h0 hrun
  refine ⟨own', hg, ha.step hg.world ⟨ns, hb'⟩ (fun t' ht' => .inr (hg.live ▸ ht')) fun t' ht' hne => ?_⟩
  exact hg.untouched ha.world.held ht' hne

theorem fork {regs : Cpu} {parent child : Nat} (ha : AllBooked k.heap own q) (hp : parent ∈ k.heap.live)
    (hrun : k.taskClone regs parent = .ok (child, k')) :
    ∃ own' n, TaskCloned q regs parent k own k' own' child n ∧ AllBooked k'.heap own' (pushed q .tasks n) := by
  obtain ⟨ns, hb⟩ := ha.booked parent hp
  obtain ⟨own', n, ns', hc, hb', _⟩ := taskClone_booked ha.world hp hb hrun
  refine ⟨own', n, hc, ha.step hc.world ⟨ns', hb'⟩ (fun t' ht' => ?_) fun t' ht' _ => hc.untouched ht'⟩
  rw [hc.live.2] at ht'
  exact List.mem_cons.mp ht'

theorem exit (ha : AllBooked h own q) (ht : t ∈ h.live) (hnot : ∀ g, (h.task t).sched ∉ q g)
    (hrun : h.taskDestroy t = .ok h') : AllBooked h' (own.without t) q := by
  obtain ⟨D, hd⟩ := taskDestroy_destroyed ha.world ht hnot hrun
  have hin : ∀ t' ∈ h'.live, t' ≠ t ∧ t' ∈ h.live := fun t' ht' => by
    rw [hd.live] at ht'
    exact (List.Nodup.mem_erase_iff ha.world.held.nodup.2).mp ht'
  refine ⟨hd.world ha.world hnot, fun t' ht' => ?_⟩
  obtain ⟨hne, hl⟩ := hin t' ht'
  obtain ⟨ns, hb⟩ := ha.booked t' hl
  exact ⟨ns, hb.untouched ha.world hl (hd.untouched ha.world.held hne)⟩

/-- task_reinit leaves a task without areas -/
theorem reinit {ret : Int} (ha : AllBooked h own q) (ht : t ∈ h.live) (hnot : ∀ g, (h.task t).sched ∉ q g)
    (hrun : h.taskReinit t = .ok (ret, h')) : ∃ own' q', AllBooked h' own' q' ∧ Booked h' own' t [] ∧ h'.live = h.live := by
  obtain ⟨ns, hb⟩ := ha.booked t ht
  obtain ⟨_, n, h₁, mm, D₁, D₂, hi⟩ := taskReinit_spec ha.world ht hnot hrun
  have hflat := taskReinit_flat ha.world ht hnot hb.complete.flat hrun
  have hb' := hi.booked ha.world ht hb hflat
  have hlive := hi.fields.1
  refine ⟨_, _, ha.step (hi.world ha.world ht hb hnot) ⟨[], hb'⟩ (fun t' ht' => .inr (hlive ▸ ht')) fun t' _ hne => ?_, hb', hlive⟩
  exact hi.untouched ha.world ht hne

theorem load {argv envp : Nat} (ha : AllBooked h own q) (ht : t ∈ h.live) (ho : e.Ordered) (hin : e.LiesIn h.mm.mem)
    (hb : Booked h own t []) (hrun : h.taskInitElf t e.program argv envp = .ok (0, h')) : ∃ own', AllBooked h' own' q := by
  obtain ⟨own', ns, hw', hb', hlive, hu⟩ := taskInitElf_booked ho hin hb ha.world ht hrun
  exact ⟨own', ha.step hw' ⟨ns, hb'⟩ (fun t' ht' => .inr (hlive ▸ ht')) hu⟩

/-- a vector of arguments is copied -/
theorem copyArgs {regs : Cpu} {args buf : Nat} (ha : AllBooked k.heap own q) (hrun : k.userCopyArgs regs args = .ok (buf, k'))
    (hgood : isErr buf = false) : ∃ own', AllBooked k'.heap own' q ∧ k'.heap.live = k.heap.live ∧ k'.heap.task = k.heap.task ∧
      k'.heap.lists = k.heap.lists := by
  obtain ⟨argc, ptr, len, own', hc⟩ := userCopyArgs_buffer ha.world hrun hgood
  obtain ⟨mm, hk⟩ := hc.kernel
  have hlive : k'.heap.live = k.heap.live := by rw [hk]
  refine ⟨own', ⟨hc.world, fun t ht => ?_⟩, hlive, by rw [hk], by rw [hk]⟩
  have ht' : t ∈ k.heap.live := hlive ▸ ht
  obtain ⟨ns, hb⟩ := ha.booked t ht'
  exact ⟨ns, hb.untouched ha.world ht' (hc.untouched ha.world ht')⟩

end AllBooked

/-- the invariant holds whatever the tasks do -/
theorem Kernel.Family.allBooked (hf : k.Family ok) : ∃ own q, AllBooked k.heap own q := by
  induction hf with
  | start hb ho hc hin hi =>
    rename_i k h h' t argv envp e
    have hw := hb.world
    obtain ⟨own, n, stack, root, ha⟩ := taskCreate_added hw (by rw [hb.pids]; decide) hc
    have hb' := ha.booked hw.held
    have hlive : h.live = [t] := by rw [ha.live, hb.live]
    have hall : AllBooked h own (pushed (fun _ => []) .tasks n) := by
      refine ⟨ha.world, fun t' ht' => ⟨[], ?_⟩⟩
      rw [hlive] at ht'
      rw [List.mem_singleton.mp ht']
      exact hb'
    obtain ⟨own', hall'⟩ := hall.load (hlive ▸ List.mem_singleton_self t) ho hin hb' hi
    exact ⟨own', _, hall'⟩
  | control hf hheap ih =>
    obtain ⟨own, q, ha⟩ := ih
    exact ⟨own, q, hheap ▸ ha⟩
  | assign hf hx ih =>
    obtain ⟨own, q, ha⟩ := ih
    obtain ⟨hw, hq⟩ := ha.world.assign hx
    exact ⟨own, q, ha.quiet hw hq⟩
  | store b hf hm ih =>
    rename_i k t x tr
    obtain ⟨own, q, ha⟩ := ih
    obtain ⟨p, m, hp, hx⟩ := ha.world.onUserPage hm
    have hmem : ∀ y, ¬ onPage p y → Function.update k.heap.mm.mem (VA tr.pa) b y = k.heap.mm.mem y :=
      fun y hy => Function.update_of_ne (fun e => hy (by rw [e]; exact hx)) _ _
    obtain ⟨hw, hq⟩ := ha.world.store hp hmem
    exact ⟨own, q, ha.quiet hw hq⟩
  | shift g hf hne ih =>
    rename_i k
    obtain ⟨own, q, ha⟩ := ih
    obtain ⟨n, l, hg⟩ : ∃ n l, q g = n :: l := by
      have hchain := (ha.world.queues.queue g).chain
      cases hq : q g with
      | nil =>
        rw [hq] at hchain
        exact absurd hchain hne
      | cons n l => exact ⟨n, l, rfl⟩
    obtain ⟨hw, hq⟩ := ha.world.shift hg
    exact ⟨own, _, ha.quiet hw hq⟩
  | push g hf ht hout ih =>
    obtain ⟨own, q, ha⟩ := ih
    obtain ⟨hw, hq⟩ := ha.world.push ht (ha.world.detached hout) g
    exact ⟨own, _, ha.quiet hw hq⟩
  | grow hf ht hst hfind h0 _ hrun ih =>
    obtain ⟨own, q, ha⟩ := ih
    obtain ⟨own', _, ha'⟩ := ha.grow ht hst.1 hfind h0 hrun
    exact ⟨own', q, ha'⟩
  | fork hf hp _ hrun ih =>
    obtain ⟨own, q, ha⟩ := ih
    obtain ⟨own', n, _, ha'⟩ := ha.fork hp hrun
    exact ⟨own', _, ha'⟩
  | execve hf ht hout hargv hgood henvp hgood' hre ho hin hi ih =>
    rename_i k k₁ k₂ h h' t a1 a2 argv envp regs e ret
    obtain ⟨own, q, ha⟩ := ih
    obtain ⟨own₁, ha₁, hlive₁, htask₁, hlists₁⟩ := ha.copyArgs hargv hgood
    obtain ⟨own₂, ha₂, hlive₂, htask₂, hlists₂⟩ := ha₁.copyArgs henvp hgood'
    have ht₂ : t ∈ k₂.heap.live := by
      rw [hlive₂, hlive₁]
      exact ht
    have hout₂ : (k₂.heap.node (k₂.heap.task t).sched).list = none := by
      show (k₂.heap.lists.node _).list = none
      rw [hlists₂, hlists₁, htask₂, htask₁]
      exact hout
    obtain ⟨own₃, q', ha₃, hb₃, hlive₃⟩ := ha₂.reinit ht₂ (ha₂.world.detached hout₂) hre
    obtain ⟨own₄, ha₄⟩ := ha₃.load (hlive₃ ▸ ht₂) ho hin hb₃ hi
    exact ⟨own₄, q', ha₄⟩
  | exit hf ht hout hrun ih =>
    obtain ⟨own, q, ha⟩ := ih
    exact ⟨_, q, ha.exit ht (ha.world.detached hout) hrun⟩

/-- **Areas and page tables.**  Whatever the tasks do, in any order, each area of each task has as many pages in its list
as it says, each of its addresses is mapped for user code to another page of that list, and nothing else is mapped below
`SPLIT`. -/
theorem areas_agree (hf : k.Family ok) (ht : t ∈ k.heap.live) : ∃ ns, Agrees k.heap t ns := by
  obtain ⟨own, q, ha⟩ := hf.allBooked
  obtain ⟨ns, hb⟩ := ha.booked t ht
  exact ⟨ns, hb.agrees ha.world ht⟩

/-- init creates the first task and loads its image -/
theorem boot_load (ho : e.OnePage b) (hp : e.Placed) (hrun : (bootKernel e).init initArgv initEnvp = .ok k) : ∃ t h h',
    (bootKernel e).heap.taskCreate 0 = .ok (t, h) ∧ e.LiesIn h.mm.mem ∧ h.taskInitElf t program initArgv initEnvp = .ok (0, h') ∧
    k = { bootKernel e with heap := h', ctl := .schedule } := by
  obtain ⟨t, h, _, _, h', hcreate, _, _, hlow, hload⟩ := boot_init_elf ho hp initEnvp (by decide)
    (fun _ hm => hm.envp) (fun _ _ => envpBytes) (by decide)
  unfold Kernel.init at hrun
  simp only [hcreate, Res.ok_bind, hload] at hrun
  cases hrun
  exact ⟨t, h, h', hcreate, hlow.image hp, hload, rfl⟩

/-- the first task behind init -/
theorem first_family (ok : VmArea → Prop) : ∃ (k : Kernel) (own : Owners) (q : TaskList → List Nat) (t : Nat) (ns : List Nat),
    k.Family ok ∧ World k.heap own q ∧ t ∈ k.heap.live ∧ FirstImage initImage false k.heap own t ns 750 := by
  obtain ⟨k, own, t, n, ns, hrun, ha, _, hlive, hi, _⟩ := boot_runs initImage_onePage initImage_placed
  obtain ⟨t', h, h', hcreate, hin, hload, hk⟩ := boot_load initImage_onePage initImage_placed hrun
  have hstart : Family ok ((bootKernel initImage).setHeap h') :=
    .start (bootKernel_blank initImage) initImage_onePage.ordered hcreate hin hload
  have hheap : k.heap = ((bootKernel initImage).setHeap h').heap := by
    rw [hk]
    rfl
  exact ⟨k, own, _, t, ns, hstart.control hheap, ha.world, hlive ▸ List.mem_singleton_self t, hi⟩

/-- the theorem when its stack has grown by a page -/
theorem areas_agree_first : ∃ (k : Kernel) (t : Nat) (ns : List Nat), k.Family (fun _ => True) ∧ t ∈ k.heap.live ∧ Agrees k.heap t ns := by
  obtain ⟨k, own, q, t, ns, hf, hw, ht, hi⟩ := first_family fun _ => True
  obtain ⟨a, h', hfind, h0, _, _, hexp⟩ := hi.stackGrows (k := 746) initImage_leavesPage hw ht
  have hg := hf.grow ht (by decide) hfind h0 trivial hexp
  have ht' : t ∈ (k.setHeap h').heap.live := by
    obtain ⟨own', hgrown, _⟩ := expandStack_booked hi.booked hw ht (by decide) hfind h0 hexp
    exact hgrown.live ▸ ht
  obtain ⟨ns', hag⟩ := areas_agree hg ht'
  exact ⟨_, t, ns', hg, ht', hag⟩

end FakeKernel
