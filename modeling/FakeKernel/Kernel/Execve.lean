import FakeKernel.Kernel.ArgLayout
import FakeKernel.Kernel.Call
import FakeKernel.Kernel.Renewal
import FakeKernel.Mm.Accepted

/-!
# SYS_execve (kernel/syscall.c)

* `InBuffer`           a vector in a buffer of user_copy_args, as task_init_elf reads it;
* `ArgsAccepted`       what a copy that is accepted leaves;
* `ExecveLoads`        execve up to the call of task_init_elf;
* `execve_size`        two vectors that are accepted: when the new image is built;
* `longArgs_panics`    two vectors for which it is not.
-/

namespace FakeKernel
open Bytes Mm Heap Uaccess

variable {k k' k₁ k₂ : Kernel} {h h' h₁ : Heap} {own own' : Owners} {q : TaskList → List Nat} {e : Elf} {o : Oracle} {m : Mem}
  {ptr len ptr' len' : Nat → Nat} {t root p x argv argc envp envc args a1 a2 buf : Nat} {regs : Cpu} {b : Bool}

/-! ## the buffer -/

/-- a vector that lies in the buffer with its strings -/
structure InBuffer (m : Mem) (buf argc : Nat) (len : Nat → Nat) : Prop where
  strings : Strings m buf argc len
  inside : ∀ x ∈ argBytes m buf argc len, buf ≤ x ∧ x < buf + argMax

theorem InBuffer.congr {m' : Mem} (hb : InBuffer m buf argc len) (hm : ∀ x, buf ≤ x → x < buf + argMax → m' x = m x) :
    InBuffer m' buf argc len := by
  have hbytes : ∀ x ∈ argBytes m buf argc len, m' x = m x := fun x hx => hm x (hb.inside x hx).1 (hb.inside x hx).2
  refine ⟨hb.strings.congr hbytes, fun x hx => hb.inside x ?_⟩
  rwa [argBytes_congr hbytes] at hx

/-- what user_copy_args returns is such a vector -/
theorem inBuffer_of_copied {s s' : Uaccess} (ha : IsArgs s.user args argc ptr len) (hfit : copyOff len argc argc ≤ argMax)
    (hc : CopiedArgs s s' buf argc ptr len) : InBuffer s'.mm.mem buf argc len := by
  have htable : 8 * (argc + 1) ≤ copyOff len argc argc := Nat.le_add_right _ _
  refine ⟨⟨fun i hi => ?_, fun i hi => ?_, hc.stop⟩, fun x hx => ?_⟩
  · have hb := hc.behind i hi
    rw [hc.table i hi]
    omega
  · rw [hc.table i hi]
    refine ⟨fun j hj => ?_, ?_⟩
    · obtain ⟨b, hb, h0⟩ := (ha.string i hi).1 j hj
      rw [← hc.copy i hi j (Nat.le_of_lt hj)] at hb
      rw [Option.some.inj hb]
      exact h0
    · have hb := (ha.string i hi).2
      rw [← hc.copy i hi _ (Nat.le_refl _)] at hb
      exact Option.some.inj hb
  · rcases hx with hx | ⟨i, hi, h1, h2⟩
    · omega
    · have hfits := hc.fits i hi
      rw [hc.table i hi] at h1 h2
      omega

/-- the page behind a buffer belongs to no task -/
structure ArgsBuffer (h : Heap) (own : Owners) (t buf argc : Nat) (len : Nat → Nat) : Prop where
  vector : InBuffer h.mm.mem buf argc len
  page : pageAt (buf - 4) ∈ h.mm.out
  bytes : 4 ≤ buf
  free : ∀ r, ¬ own.Page (buf - 4) t r

theorem ArgsBuffer.inPage (hb : ArgsBuffer h own t buf argc len) (h1 : buf ≤ x) (h2 : x < buf + argMax) : onPage (buf - 4) x := by
  have h4 := hb.bytes
  have hmax : argMax + 16 = pageSize := by decide
  constructor
  · omega
  · omega

/-- a copy that is accepted: nothing but the memory has changed -/
structure ArgsAccepted (k k' : Kernel) (own own' : Owners) (q : TaskList → List Nat) (args buf argc : Nat) (ptr len : Nat → Nat) :
    Prop where
  args : IsArgs k.userByte args argc ptr len
  fits : copyOff len argc argc ≤ argMax
  kernel : ∃ mm, k' = { k with heap := { k.heap with mm := mm }, mayPageFault := false, sum := false }
  mm : Extends k.heap.mm k'.heap.mm ∅ [buf - 4]
  world : World k'.heap own' q
  buffer : ∀ t, t ≠ 0 → ArgsBuffer k'.heap own' t buf argc len
  own : own' = own.set (buf - 4) 0 (.loose false)

theorem accepted_of_copied (hw : World k.heap own q) (hgood : isErr buf = false) (ha : IsArgs k.userByte args argc ptr len)
    (hfit : copyOff len argc argc ≤ argMax) (hclear : (k.uaccess.userCopyArgs args).state.Clear)
    (hc : CopiedArgs k.uaccess (k.uaccess.userCopyArgs args).state buf argc ptr len)
    (hk' : k' = k.leaveAccess (k.uaccess.userCopyArgs args).state (accessOk args 8 && buf == ERR_PTR EFAULT) regs) :
    ArgsAccepted k k' own (own.set (buf - 4) 0 (.loose false)) q args buf argc ptr len := by
  have hok : k.uaccess.mm.Ok := hw.held.ok
  have hnofault : (accessOk args 8 && buf == ERR_PTR EFAULT) = false := by
    have hne : buf ≠ ERR_PTR EFAULT := by
      intro he
      rw [he] at hgood
      exact absurd hgood (by decide)
    rw [beq_eq_false_iff_ne.mpr hne, Bool.and_false]
  obtain ⟨s', hs'⟩ : ∃ s', s' = (k.uaccess.userCopyArgs args).state := ⟨_, rfl⟩
  rw [hnofault, ← hs'] at hk'
  rw [← hs'] at hclear hc
  have hk : k' = { k with heap := { k.heap with mm := s'.mm }, mayPageFault := false, sum := false } := by
    rw [hk']
    unfold Kernel.leaveAccess
    rw [hclear.1, hclear.2]
    rfl
  have hmm : k'.heap.mm = s'.mm := by rw [hk]
  have hx : Extends k.heap.mm s'.mm ∅ [buf - 4] := hc.block.extends rfl
  have hworld : World k'.heap (own.set (buf - 4) 0 (.loose false)) q := by
    have hheap : k'.heap = { k.heap with mm := s'.mm } := by rw [hk]
    rw [hheap]
    exact (hw.takePage hx 0).world
  refine ⟨ha, hfit, ⟨s'.mm, hk⟩, hmm ▸ hx, hworld, fun t ht => ⟨?_, ?_, ?_, fun r' hr' => ?_⟩, rfl⟩
  · rw [hmm]
    exact inBuffer_of_copied ha hfit hc
  · rw [hmm]
    exact hc.block.mem
  · obtain ⟨mm, halloc⟩ := hc.alloc
    exact (hok.kmalloc (show argMax ≤ 4092 by decide) halloc).2.2
  · exact ht (hr'.unique Owners.set_self).1

theorem userCopyArgs_buffer (hw : World k.heap own q) (hrun : k.userCopyArgs regs args = .ok (buf, k'))
    (hgood : isErr buf = false) : ∃ argc ptr len own', ArgsAccepted k k' own own' q args buf argc ptr len := by
  unfold Kernel.userCopyArgs at hrun
  obtain ⟨r, hres, hret⟩ := Res.bind_eq_ok.mp hrun
  obtain ⟨rfl, hk'⟩ := Prod.mk.inj (Except.ok.inj hret)
  obtain ⟨argc, ptr, len, ha, hfit, hclear, hc⟩ := userCopyArgs_accepted (show k.uaccess.mm.Ok from hw.held.ok) hres hgood
  exact ⟨argc, ptr, len, _, accepted_of_copied hw hgood ha hfit hclear hc hk'.symm⟩

/-- a vector that fits is accepted as long as a page is free -/
theorem accepted_of_isArgs (hw : World k.heap own q) (ha : IsArgs k.userByte args argc ptr len) (hacc : accessOk args 8 = true)
    (hfree : k.heap.mm.sparePages.Nonempty) (hfit : copyOff len argc argc ≤ argMax) (regs : Cpu) :
    ∃ buf k' own', k.userCopyArgs regs args = .ok (buf, k') ∧ isErr buf = false ∧
      ArgsAccepted k k' own own' q args buf argc ptr len := by
  have hok : k.uaccess.mm.Ok := hw.held.ok
  obtain ⟨buf, mm, halloc⟩ : ∃ buf mm, k.uaccess.mm.kmalloc argMax = .ok (buf, mm) :=
    Mm.Free.kmalloc (n := 0) ⟨hok, Finset.card_pos.mpr hfree⟩ (show argMax ≤ 4092 by decide)
  obtain ⟨s', hrun, hclear, _, hc⟩ := IsArgs.copies (s := k.uaccess) hok hacc halloc ha hfit
  obtain ⟨t, hb, _⟩ := userCopyArgs_vector (s := k.uaccess) hacc halloc ha.isVector
  have hgood := hb.not_err hok
  obtain ⟨k', hk'⟩ : ∃ k', k' = k.leaveAccess (k.uaccess.userCopyArgs args).state (accessOk args 8 && buf == ERR_PTR EFAULT) regs :=
    ⟨_, rfl⟩
  have hstate : (k.uaccess.userCopyArgs args).state = s' := by rw [hrun]
  refine ⟨buf, k', _, ?_, hgood, accepted_of_copied hw hgood ha hfit (hstate ▸ hclear) (hstate ▸ hc) hk'⟩
  have hres : (k.uaccess.userCopyArgs args).result = .ok buf := by rw [hrun]
  unfold Kernel.userCopyArgs
  simp only [hres, Res.ok_bind, ← hk']

/-- an accepted copy touches no task -/
theorem ArgsAccepted.untouched (hc : ArgsAccepted k k' own own' q args buf argc ptr len) (hw : World k.heap own q)
    (ht : t ∈ k.heap.live) : Untouched k.heap k'.heap own own' t := by
  obtain ⟨mm, hk⟩ := hc.kernel
  have hheap : k'.heap = { k.heap with mm := k'.heap.mm } := by rw [hk]
  rw [hheap, hc.own]
  exact (hw.takePage hc.mm 0).untouched hw.held ht fun h0 => hw.zero_not_live (h0 ▸ ht)

/-- a second buffer is another page -/
theorem ArgsBuffer.accepted {buf' argc' : Nat} (hb : ArgsBuffer k.heap own t buf argc len)
    (ha : ArgsAccepted k k' own own' q args buf' argc' ptr' len') (hw : World k.heap own q) (ht : t ≠ 0) :
    ArgsBuffer k'.heap own' t buf argc len := by
  refine ⟨hb.vector.congr fun x h1 h2 => ?_, ha.mm.old_mem hb.page, hb.bytes, fun r hr => ?_⟩
  · exact ha.mm.same (.of_mem hb.page) (hw.held.ok.page hb.page) (Set.notMem_empty _) (hb.inPage h1 h2)
  · rw [ha.own, Owners.page_set] at hr
    rcases hr with ⟨_, h0, _⟩ | ⟨_, hold⟩
    · exact ht h0
    · exact hb.free r hold

theorem usable_inDirectMap (hx : x ∈ usable) : inDirectMap x = true := by
  have h1 : kernPhyBase + 2 ^ 20 ≤ x := hx.1
  have h2 : x < kernPhyBase + 2 ^ 22 := hx.2
  have h3 : kernBase ≤ kernPhyBase + 2 ^ 20 := by decide
  have h4 : kernPhyBase + 2 ^ 22 ≤ kernStop := by decide
  unfold inDirectMap
  rw [Bool.and_eq_true, decide_eq_true_eq, decide_eq_true_eq]
  omega

/-- task_reinit leaves the buffers alone -/
theorem Reinit.argsKept {n : Nat} {mm : Mm} {D₁ D₂ : List Nat} (hi : Reinit h h' own t n h₁ mm D₁ D₂) (hw : World h own q)
    (ht : t ∈ h.live) (hb : ArgsBuffer h own t buf argc len) :
    Strings h'.mm.mem buf argc len ∧ ArgsKept h' (h'.task t).pageTable buf argc len := by
  obtain ⟨hout, _, hsame, htable⟩ := hi.page hw ht hb.page hb.free
  have hv := hb.vector.congr fun x h1 h2 => hsame x (hb.inPage h1 h2)
  refine ⟨hv.strings, fun x hx => ?_⟩
  obtain ⟨h1, h2⟩ := hv.inside x hx
  have hon := hb.inPage h1 h2
  have hok := hi.grow.ok
  refine ⟨usable_inDirectMap (hok.usable hout (mem_pageAt.mpr hon)), Mm.KeptPage.of_mem hout x hon, fun s hs hxs => ?_⟩
  rw [hi.pageTable] at hs
  obtain rfl := onPage_inj (hok.page hout) (tables_page hi.wf.page s hs) hon hxs
  exact htable hs

/-! ## the sizes of both vectors -/

theorem Active.sched_not_queued (ha : Active k own q) : ∀ g, (k.task k.currentTask).sched ∉ q g :=
  ha.node ▸ ha.detached

/-- two vectors are accepted, and the old image is gone -/
theorem ArgsAccepted.reinit {own₁ own₂ : Owners} {ret : Int} (ha : Active k own q)
    (hc : ArgsAccepted k k₁ own own₁ q a1 argv argc ptr len) (hc' : ArgsAccepted k₁ k₂ own₁ own₂ q a2 envp envc ptr' len')
    (hre : k₂.heap.taskReinit k.currentTask = .ok (ret, h)) : ret = 0 ∧ WellFormed h.mm (h.task k.currentTask).pageTable ∧
      Strings h.mm.mem argv argc len ∧ ArgsKept h (h.task k.currentTask).pageTable argv argc len ∧
      Strings h.mm.mem envp envc len' ∧ ArgsKept h (h.task k.currentTask).pageTable envp envc len' := by
  obtain ⟨mm₁, hk₁⟩ := hc.kernel
  obtain ⟨mm₂, hk₂⟩ := hc'.kernel
  have htask : k₂.heap.task = k.heap.task ∧ k₂.heap.live = k.heap.live := by
    rw [hk₂, hk₁]
    exact ⟨rfl, rfl⟩
  have ht0 : k.currentTask ≠ 0 := fun h0 => ha.world.zero_not_live (h0 ▸ ha.live)
  have hlive : k.currentTask ∈ k₂.heap.live := htask.2 ▸ ha.live
  have hnot : ∀ g, (k₂.heap.task k.currentTask).sched ∉ q g := htask.1 ▸ ha.sched_not_queued
  obtain ⟨rfl, n, h₁, mm, D₁, D₂, hi⟩ := taskReinit_spec hc'.world hlive hnot hre
  have hb := (hc.buffer _ ht0).accepted hc' hc.world ht0
  obtain ⟨hs, hin⟩ := hi.argsKept hc'.world hlive hb
  obtain ⟨hs', hin'⟩ := hi.argsKept hc'.world hlive (hc'.buffer _ ht0)
  exact ⟨rfl, hi.pageTable ▸ hi.wf, hs, hin, hs', hin'⟩

/-- execve up to the call of task_init_elf: `h` is what task_reinit leaves, and `h₁` what load_elf makes of it -/
structure ExecveLoads (o : Oracle) (a1 a2 : Nat) (k k₁ k₂ : Kernel) (argv envp : Nat) (h h₁ : Heap) : Prop where
  copyArgv : (k.log (.execve k.currentTask)).userCopyArgs o.regs a1 = .ok (argv, k₁)
  goodArgv : isErr argv = false
  copyEnvp : k₁.userCopyArgs o.regs a2 = .ok (envp, k₂)
  goodEnvp : isErr envp = false
  reinit : k₂.heap.taskReinit k.currentTask = .ok (0, h)
  load : h.loadElf k.currentTask Kernel.program = .ok (0, h₁)

theorem Active.log (ha : Active k own q) (ev : Event) : Active (k.log ev) own q :=
  ⟨ha.world, ha.live, ha.node, ha.satp, ha.detached, ha.queued⟩

/-- an accepted copy changes nothing but memory -/
theorem ArgsAccepted.control (hc : ArgsAccepted k k' own own' q args buf argc ptr len) :
    (k'.currentTask = k.currentTask ∧ k'.currentTaskNode = k.currentTaskNode) ∧
    k'.heap.live = k.heap.live ∧ k'.heap.task = k.heap.task ∧ k'.heap.lists = k.heap.lists := by
  obtain ⟨_, hk⟩ := hc.kernel
  rw [hk]
  exact ⟨⟨rfl, rfl⟩, rfl, rfl, rfl⟩

/-- execve from task_init_elf on -/
theorem ExecveLoads.run (hl : ExecveLoads o a1 a2 k k₁ k₂ argv envp h h₁) (hcur : k₂.currentTask = k.currentTask) :
    k.sysExecve o a1 a2 = (h.taskInitElf k.currentTask Kernel.program argv envp).bind fun r =>
      if r.1 ≠ 0 then (k₂.setHeap r.2).execveFailed argv envp else .ok { k₂ with heap := r.2, ctl := .thread } := by
  unfold Kernel.sysExecve
  simp only [hl.copyArgv, Res.ok_bind, hl.goodArgv, hl.copyEnvp, hcur, hl.reinit]
  rfl

/-- what task_init_elf makes of the two vectors -/
theorem ExecveLoads.sysExecve (hl : ExecveLoads o a1 a2 k k₁ k₂ argv envp h h₁) (ha : Active k own q)
    (hacc : ArgsAccepted (k.log (.execve k.currentTask)) k₁ own own₁ q a1 argv argc ptr len)
    (hacc' : ArgsAccepted k₁ k₂ own₁ own₂ q a2 envp envc ptr' len') :
    (argSize argc len envc len' ≤ pageSize → ∃ k', k.sysExecve o a1 a2 = .ok k' ∧ k'.ctl = .thread) ∧
    (pageSize < argSize argc len envc len' → k.sysExecve o a1 a2 = panic "argv too big") := by
  obtain ⟨_, hwf, hs, hin, hs', hin'⟩ := hacc.reinit (ha.log _) hacc' hl.reinit
  obtain ⟨helf, hfits, hbig⟩ := hin.initElf (t := k.currentTask) hwf hs hs' hin' (by decide) hl.load
  rw [hl.run (hacc'.control.1.1.trans hacc.control.1.1), helf]
  refine ⟨fun hsize => ?_, fun hlt => ?_⟩
  · obtain ⟨h', hargs⟩ := hfits hsize
    rw [hargs]
    exact ⟨{ k₂ with heap := h', ctl := .thread }, rfl, rfl⟩
  · rw [hbig hlt]
    rfl

/-- a table of one pointer, and a string of 3000 bytes behind it -/
def longArgs (j : Nat) : UInt8 :=
  if j < 8 then UInt8.ofNat ((stackBegin + 16) / 256 ^ j) else if 16 ≤ j ∧ j < 3016 then 65 else 0

theorem longArgs_isArgs {user : Nat → Option UInt8} (hu : ∀ j < pageSize, user (stackBegin + j) = some (longArgs j)) :
    IsArgs user stackBegin 1 (fun _ => stackBegin + 16) fun _ => 3000 := by
  have hbyte : ∀ j < pageSize, user (wrap (stackBegin + j)) = some (longArgs j) := fun j hj => by
    rw [show wrap (stackBegin + j) = stackBegin + j from Nat.mod_eq_of_lt (Nat.lt_trans (Nat.add_lt_add_left hj _) (by decide))]
    exact hu j hj
  have hslot : ∀ i ≤ 1, slot user stackBegin i = some (Bytes.load 8 longArgs (8 * i)) := fun i hi =>
    loadUser_bytes fun k hk => by
      rw [Nat.add_assoc]
      exact hbyte _ (Nat.lt_of_lt_of_le (Nat.add_lt_add_of_le_of_lt (Nat.mul_le_mul_left 8 hi) hk) (by decide))
  refine ⟨fun i hi => ⟨?_, by decide⟩, fun i hi => ⟨fun j hj => ?_, ?_⟩, ?_⟩
  · obtain rfl := Nat.lt_one_iff.mp hi
    rw [hslot 0 (Nat.zero_le 1), show Bytes.load 8 longArgs (8 * 0) = stackBegin + 16 by decide]
  · have hlt : 16 + j < pageSize := Nat.lt_trans (Nat.add_lt_add_left hj 16) (by decide)
    refine ⟨65, ?_, by decide⟩
    rw [Nat.add_assoc, hbyte _ hlt]
    unfold longArgs
    rw [if_neg (by omega), if_pos (by omega)]
  · rw [Nat.add_assoc, hbyte _ (by decide)]
    decide
  · rw [hslot 1 (Nat.le_refl 1), show Bytes.load 8 longArgs (8 * 1) = 0 by decide]

/-- an accepted copy leaves the stack as user code sees it -/
theorem ArgsAccepted.stackAt (hc : ArgsAccepted k k' own own' q args buf argc ptr len) (ha : Active k own q)
    (hs : StackAt k own p) : StackAt k' own' p ∧ ∀ j < pageSize, k'.userByte (stackBegin + j) = k.userByte (stackBegin + j) := by
  obtain ⟨mm, hk⟩ := hc.kernel
  have hs' := hs.untouched ha (hc.untouched ha.world ha.live) (by rw [hk]) (by rw [hk])
  obtain ⟨m, v, hp⟩ := hs.user
  have hout := ha.world.held.out _ _ _ hp
  refine ⟨hs', fun j hj => ?_⟩
  rw [hs'.userByte hj, hs.userByte hj]
  exact congrArg some (hc.mm.same (.of_mem hout) (ha.world.held.ok.page hout) (Set.notMem_empty _)
    ⟨Nat.le_add_right _ _, Nat.add_lt_add_left hj _⟩)

/-- the first task can call execve with that vector for argv, and it is accepted -/
theorem longArgs_argv (a2 : Nat) : ∃ (k k₁ : Kernel) (own own₁ : Owners) (t : Nat) (ns : List Nat) (argv : Nat),
    FirstCall initImage false k own t ns 750 Kernel.SYS_execve stackBegin a2 ∧
    (k.log (.execve k.currentTask)).userCopyArgs quietOracle.regs stackBegin = .ok (argv, k₁) ∧ isErr argv = false ∧
    ArgsAccepted (k.log (.execve k.currentTask)) k₁ own own₁ (fun _ => []) stackBegin argv 1 (fun _ => stackBegin + 16) (fun _ => 3000) ∧
    ∀ j < pageSize, k₁.userByte (stackBegin + j) = some (longArgs j) := by
  obtain ⟨k₀, own, t, ns, p, hf, hs₀, hfill⟩ := first_filled longArgs
  obtain ⟨k, hcall, hmm, hquiet, hsatp⟩ := hf.call Kernel.SYS_execve stackBegin a2
  have hcur : k.currentTask = k₀.currentTask := hcall.current.trans hf.current.symm
  have hs : StackAt k own p := hs₀.untouched hf.active (hquiet.untouched _ hf.active.live) hcur hsatp
  have hbytes : ∀ j < pageSize, k.userByte (stackBegin + j) = some (longArgs j) := fun j hj => by
    rw [hs.userByte hj, hmm, ← hs₀.userByte hj, hfill j hj]
  have ha := hcall.active.log (.execve k.currentTask)
  have hfree : k.heap.mm.sparePages.Nonempty := Finset.card_pos.mp (Nat.lt_of_lt_of_le (by decide) hcall.image.room.free.le)
  obtain ⟨argv, k₁, own₁, hrun, hgood, hacc⟩ := accepted_of_isArgs ha.world (longArgs_isArgs hbytes) (by decide) hfree
    (by decide) quietOracle.regs
  obtain ⟨_, hsame⟩ := hacc.stackAt ha (p := p) ⟨hs.user, hs.translate⟩
  exact ⟨k, k₁, own, own₁, t, ns, argv, hcall, hrun, hgood, hacc, fun j hj => (hsame j hj).trans (hbytes j hj)⟩

/-- when argv was accepted and envp is a vector that fits, the first task gets to task_init_elf -/
theorem FirstCall.loads {ns : List Nat} {a1 a2 : Nat} (hcall : FirstCall e b k own t ns 750 Kernel.SYS_execve a1 a2)
    (ho : e.OnePage b) (hp : e.Placed)
    (hrun₁ : (k.log (.execve k.currentTask)).userCopyArgs quietOracle.regs a1 = .ok (argv, k₁)) (hgood₁ : isErr argv = false)
    (hacc₁ : ArgsAccepted (k.log (.execve k.currentTask)) k₁ own own' (fun _ => []) a1 argv argc ptr len)
    (hargs : IsArgs k₁.userByte a2 envc ptr' len') (hok : accessOk a2 8 = true) (hfit : copyOff len' envc envc ≤ argMax) :
    ∃ (k₂ : Kernel) (own₂ : Owners) (envp : Nat) (h h₁ : Heap),
      ExecveLoads quietOracle a1 a2 k k₁ k₂ argv envp h h₁ ∧
      ArgsAccepted k₁ k₂ own' own₂ (fun _ => []) a2 envp envc ptr' len' := by
  have ha := hcall.active.log (.execve k.currentTask)
  have hroom₁ : k₁.heap.mm.Room 749 := hcall.image.room.step hacc₁.mm (Nat.le_refl _)
  have hfree₁ : k₁.heap.mm.sparePages.Nonempty := Finset.card_pos.mp (Nat.lt_of_lt_of_le (by decide) hroom₁.free.le)
  obtain ⟨envp, k₂, own₂, hrun₂, hgood₂, hacc₂⟩ := accepted_of_isArgs hacc₁.world hargs hok hfree₁ hfit quietOracle.regs
  have hroom₂ : k₂.heap.mm.Room 748 := hroom₁.step hacc₂.mm (Nat.le_refl _)
  have hlive₁ : k.currentTask ∈ k₁.heap.live := hacc₁.control.2.1 ▸ ha.live
  have hlive : k.currentTask ∈ k₂.heap.live := hacc₂.control.2.1 ▸ hlive₁
  have hb : Booked k.heap own k.currentTask ns := hcall.current ▸ hcall.image.booked
  have hb₁ := hb.untouched ha.world ha.live (hacc₁.untouched ha.world ha.live)
  have hb₂ := hb₁.untouched hacc₁.world hlive₁ (hacc₂.untouched hacc₁.world hlive₁)
  have hnot : ∀ g, (k₂.heap.task k.currentTask).sched ∉ (fun _ => [] : TaskList → List Nat) g := fun _ => List.not_mem_nil
  have hflat := hb₂.complete.flat
  obtain ⟨h, hreinit, hroom₃⟩ := taskReinit_room (k := 747) hacc₂.world hlive hnot (hb₂.complete.ends hacc₂.world hlive) hflat hroom₂
  obtain ⟨_, n, h', mm, D₁, D₂, hi⟩ := taskReinit_spec hacc₂.world hlive hnot hreinit
  have hb₃ := hi.booked hacc₂.world hlive hb₂ (taskReinit_flat hacc₂.world hlive hnot hflat hreinit)
  have hlow : LowAsBooted e h.mm.mem := fun x hx hon => by
    have hout : x ∉ usable := fun hu => Nat.not_le.mpr hx hu.1
    rw [hi.outside hacc₂.world hlive hout, hacc₂.mm.frame x (.inl hout) nofun, hacc₁.mm.frame x (.inl hout) nofun]
    exact hcall.image.low x hx hon
  obtain ⟨h₁, _, _, _, hload, _⟩ := loadElf_room (k := 735) ho (hlow.image hp) hb₃ (hi.world hacc₂.world hlive hb₂ hnot)
    (hi.fields.1 ▸ hlive) hroom₃
  rw [hp.place] at hload
  exact ⟨k₂, own₂, envp, h, h₁, ⟨hrun₁, hgood₁, hrun₂, hgood₂, hreinit, hload⟩, hacc₂⟩

end FakeKernel
