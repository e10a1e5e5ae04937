import FakeKernel.Kernel.Machine

/-!
# What copy_from_user does to the kernel

* `copyLoop_fromUser`    the loop of user_memcpy: only the destination is written, and it ends with a
                         copy unless it meets a page fault;
* `copyFromUser_spec`    the same for the whole kernel: besides the destination only the flags of
                         enter_sum, the trapframe and the kernel frame of the current task change.
-/

namespace FakeKernel
open Bytes

namespace Uaccess

variable {dest src n i : Nat} {s : Uaccess}

theorem storeByte_self (s : Uaccess) (x : Nat) (b : UInt8) : (s.storeKernel 1 x b.toNat).mm.mem x = b := by
  show store 1 s.mm.mem x b.toNat x = b
  show Function.update s.mm.mem x (UInt8.ofNat b.toNat) x = b
  rw [Function.update_self, UInt8.ofNat_toNat]

theorem storeByte_of_ne {x y : Nat} (v : Nat) (h : x ≠ y) :
    (s.storeKernel 1 y v).mm.mem x = s.mm.mem x := by
  show store 1 s.mm.mem y v x = s.mm.mem x
  exact store_apply_out (by omega)

/-- a byte of user memory that can be read -/
def Readable (s : Uaccess) (x : Nat) : Prop := ∃ b, s.user (wrap x) = some b

theorem copyLoop_fromUser : ∃ mem, (copyLoop .fromUser dest src n i s).2 =
      { s with mm := s.mm.setMem mem, touched := (copyLoop .fromUser dest src n i s).2.touched } ∧
    (∀ x, ¬ (dest + i ≤ x ∧ x < dest + i + n) → mem x = s.mm.mem x) ∧
    ((copyLoop .fromUser dest src n i s).1 = true ↔ ∀ k < n, s.Readable (src + (i + k))) ∧
    ((copyLoop .fromUser dest src n i s).1 = true → ∀ k < n,
      some (mem (dest + (i + k))) = s.user (wrap (src + (i + k)))) := by
  induction n generalizing i s with
  | zero => exact ⟨s.mm.mem, rfl, fun _ _ => rfl, iff_of_true rfl nofun, fun _ => nofun⟩
  | succ n ih =>
    unfold copyLoop
    cases hb : s.user (wrap (src + i)) with
    | none =>
      have hc : copyByte .fromUser (dest + i) (src + i)
          (s.touch (userSide .fromUser (dest + i) (src + i))) = none := by
        show (s.user (wrap (src + i))).map _ = none
        rw [hb]
        rfl
      simp only [hc]
      refine ⟨s.mm.mem, rfl, fun _ _ => rfl, iff_of_false nofun fun hr => ?_, nofun⟩
      obtain ⟨b, hb'⟩ := hr 0 (Nat.succ_pos n)
      rw [Nat.add_zero, hb] at hb'
      exact nomatch hb'
    | some b =>
      obtain ⟨s₁, hs₁⟩ : ∃ s₁, s₁ = (s.touch (src + i)).storeKernel 1 (dest + i) b.toNat := ⟨_, rfl⟩
      have hc : copyByte .fromUser (dest + i) (src + i)
          (s.touch (userSide .fromUser (dest + i) (src + i))) = some s₁ := by
        show (s.user (wrap (src + i))).map _ = some s₁
        rw [hb, hs₁]
        rfl
      have huser : s₁.user = s.user := by rw [hs₁]; rfl
      have hread : ∀ x, s₁.Readable x ↔ s.Readable x := by
        intro x
        unfold Readable
        rw [huser]
      have hself : s₁.mm.mem (dest + i) = b := by
        rw [hs₁]
        exact storeByte_self _ _ _
      have hout : ∀ x, x ≠ dest + i → s₁.mm.mem x = s.mm.mem x := by
        intro x hx
        rw [hs₁]
        exact storeByte_of_ne (s := s.touch (src + i)) _ hx
      have hassoc : ∀ k, i + (k + 1) = i + 1 + k := fun k => by omega
      obtain ⟨mem, hst, hframe, hok, hcopy⟩ := ih (i := i + 1) (s := s₁)
      simp only [hc]
      refine ⟨mem, ?_, fun x hx => ?_, ?_, fun htrue k hk => ?_⟩
      · rw [hst, hs₁]
        rfl
      · rw [hframe x (by omega), hout x (by omega)]
      · rw [hok]
        constructor
        · intro hr k hk
          cases k with
          | zero => exact ⟨b, hb⟩
          | succ k =>
            rw [hassoc]
            exact (hread _).mp (hr k (by omega))
        · intro hr k hk
          rw [hread, ← hassoc]
          exact hr (k + 1) (by omega)
      · cases k with
        | zero =>
          rw [Nat.add_zero, hframe (dest + i) (by omega), hself]
          exact hb.symm
        | succ k =>
          rw [hassoc, ← huser]
          exact hcopy htrue k (by omega)

end Uaccess

namespace Kernel

variable {k k' : Kernel} {regs : Cpu} {dest src : Nat} {n : Int} {r : Int}

/-- nothing else of a task changes -/
def SameFrame (x y : Task) : Prop := ∃ frame, y = { x with kernelFrame := frame }

/-- `k'` is `k` after an access to user memory that wrote to `n` bytes at `dest` -/
structure Accessed (k k' : Kernel) (dest n : Nat) : Prop where
  heap : ∃ mem task, k'.heap = { k.heap with mm := k.heap.mm.setMem mem, task := task } ∧
    (∀ x, ¬ (dest ≤ x ∧ x < dest + n) → mem x = k.heap.mm.mem x) ∧
    (∀ t, SameFrame (k.heap.task t) (task t)) ∧ ∀ t, t ≠ k.currentTask → task t = k.heap.task t
  rest : ∃ frame b c, k' = { k with
    heap := k'.heap, trapframe := frame, mayPageFault := b, sum := c }

theorem SameFrame.refl (x : Task) : SameFrame x x := ⟨x.kernelFrame, rfl⟩

theorem kernelFault_eq (k : Kernel) (regs : Cpu) : ∃ task frame,
    k.kernelFault regs = { k with heap := { k.heap with task := task }, trapframe := frame } ∧
    (∀ t, SameFrame (k.heap.task t) (task t)) ∧ ∀ t, t ≠ k.currentTask → task t = k.heap.task t := by
  unfold kernelFault
  by_cases hcur : k.currentTask = 0
  · refine ⟨k.heap.task, trapVector regs k.trapframe, if_neg fun h => h hcur, fun t => .refl _,
      fun _ _ => rfl⟩
  · refine ⟨Function.update k.heap.task k.currentTask
      { k.task k.currentTask with kernelFrame := .interrupted }, trapVector regs k.trapframe,
      if_pos hcur, fun t => ?_, fun t ht => Function.update_of_ne ht _ _⟩
    by_cases ht : t = k.currentTask
    · rw [ht, Function.update_self]
      exact ⟨.interrupted, rfl⟩
    · rw [Function.update_of_ne ht]
      exact .refl _

/-- the state after an accessor that wrote to the kernel's memory only -/
theorem leaveAccess_accessed {s : Uaccess} {fault : Bool} {mem : Mem} {n : Nat}
    (hs : s.mm = k.heap.mm.setMem mem)
    (hmem : ∀ x, ¬ (dest ≤ x ∧ x < dest + n) → mem x = k.heap.mm.mem x) :
    Accessed k (k.leaveAccess s fault regs) dest n := by
  unfold leaveAccess
  cases fault with
  | false =>
    refine ⟨⟨mem, k.heap.task, ?_, hmem, fun t => .refl _, fun _ _ => rfl⟩,
      k.trapframe, s.mayPageFault, s.sum, rfl⟩
    show ({ k.heap with mm := s.mm } : Heap) = _
    rw [hs]
  | true =>
    obtain ⟨task, frame, hk, hsame, hother⟩ := k.kernelFault_eq regs
    simp only [hk, if_true]
    refine ⟨⟨mem, task, ?_, hmem, hsame, hother⟩, frame, s.mayPageFault, s.sum, rfl⟩
    rw [hs]

/-- the user's bytes at `src`, all of them, as the page table of the current task shows them -/
def UserReadable (k : Kernel) (src n : Nat) : Prop := ∀ i < n, ∃ b, k.userByte (wrap (src + i)) = some b

theorem copyFromUser_spec (k : Kernel) (regs : Cpu) (dest src : Nat) (n : Int) :
    ∃ r k', k.copyFromUser regs dest src n = .ok (r, k') ∧ Accessed k k' dest n.toNat ∧
      (accessOk src n = true → k.UserReadable src n.toNat → ∀ i < n.toNat,
        some (k'.heap.mm.mem (dest + i)) = k.userByte (wrap (src + i))) := by
  unfold copyFromUser Uaccess.copyFromUser
  cases hok : accessOk src n with
  | false =>
    refine ⟨_, _, rfl, leaveAccess_accessed ?_ fun _ _ => rfl, nofun⟩
    rfl
  | true =>
    obtain ⟨mem, hst, hframe, hread, hcopy⟩ :=
      Uaccess.copyLoop_fromUser (n := n.toNat) (i := 0) (s := k.uaccess.enterSum)
    refine ⟨_, _, rfl, leaveAccess_accessed ?_ hframe, fun _ hall i hi => ?_⟩
    · show (Uaccess.copyLoop _ _ _ _ _ _).2.mm = _
      rw [hst]
      rfl
    · have htrue := hread.mpr fun j hj => by
        obtain ⟨b, hb⟩ := hall j hj
        refine ⟨b, ?_⟩
        rw [Nat.zero_add]
        exact hb
      have hbyte := hcopy htrue i hi
      rw [Nat.zero_add] at hbyte
      rw [← show k.uaccess.enterSum.user (wrap (src + i)) = k.userByte (wrap (src + i)) from rfl, ← hbyte]
      congr 1
      show (Kernel.leaveAccess _ _ _ _).heap.mm.mem (dest + i) = mem (dest + i)
      show (Uaccess.copyLoop _ _ _ _ _ _).2.mm.mem (dest + i) = _
      rw [hst]
      rfl

end Kernel

end FakeKernel
