import FakeKernel.Kernel.Segment

/-!
# A first task that has filled its stack

* `Active.stackPage`    the page of the stack, as user code reads and writes it;
* `FirstUser.store`     one byte is stored there;
* `first_filled`        the first task gets its stack to hold any bytes.
-/

namespace FakeKernel
open Bytes Mm Heap

variable {k k' : Kernel} {own own' : Owners} {q : TaskList → List Nat} {ns : List Nat} {t p j room : Nat} {e : Elf} {b : Bool}

/-- the page `p` is mapped below `USERSTACK`, and user code can read and write it -/
structure StackAt (k : Kernel) (own : Owners) (p : Nat) : Prop where
  user : ∃ m v, own.Page p k.currentTask (.user m v)
  translate : ∀ j < pageSize, ∃ pa b, VA pa = p + j ∧ k.translate (stackBegin + j) = some ⟨pa, stackPteFlags b ||| pteUser⟩

theorem Active.stackPage (ha : Active k own q) (ho : k.heap.StackOpen k.currentTask) : ∃ p, StackAt k own p := by
  obtain ⟨page, b, hmap⟩ := ho
  have hbelow : stackBegin + pageSize < 2 ^ 38 := by decide
  have htr : ∀ j < pageSize, k.translate (stackBegin + j)
      = some ⟨PA page % 2 ^ 56 + (stackBegin + j) % 2 ^ 12, stackPteFlags b ||| pteUser⟩ := by
    intro j hj
    have hcan : Kernel.canonical (stackBegin + j) = true := by
      unfold Kernel.canonical
      rw [Bool.or_eq_true, decide_eq_true_eq]
      exact .inl (by omega)
    have hsatp : k.satp = (k.heap.task k.currentTask).pageTable := ha.satp
    unfold Kernel.translate
    rw [if_pos hcan, hsatp]
    refine hmap _ ?_
    exact (samePage_of_mem (by decide) (Nat.le_add_right stackBegin j) (Nat.add_lt_add_left hj _)).mp rfl
  have huser : (stackPteFlags b ||| pteUser) &&& pteUser ≠ 0 := by
    cases b <;> decide
  obtain ⟨p, m, v, hp, hpa, _⟩ := ha.translate (htr 0 (by decide)) huser
  have hpage : PA page % 2 ^ 56 = PA p := by
    have hsum : PA page % 2 ^ 56 + (stackBegin + 0) % 2 ^ 12 = PA p + (stackBegin + 0) % 2 ^ 12 := hpa
    exact Nat.add_right_cancel hsum
  have husable := ha.world.held.ok.usable (ha.world.held.out _ _ _ hp) (Tiling.base_mem (pageAt p))
  have hoff : ∀ j < pageSize, (stackBegin + j) % pageSize = j := fun j hj => by
    rw [Nat.add_mod, (by decide : stackBegin % pageSize = 0), Nat.zero_add, Nat.mod_mod, Nat.mod_eq_of_lt hj]
  refine ⟨p, ⟨m, v, hp⟩, fun j hj => ⟨_, b, ?_, htr j hj⟩⟩
  have hva : VA (PA p % 2 ^ 56 + (stackBegin + j) % 2 ^ 12) = p + (stackBegin + j) % pageSize := VA_PA husable
  rw [← hpage, Nat.mod_mod, hoff j hj] at hva
  exact hva

/-- user code reads what the page holds -/
theorem StackAt.userByte (hs : StackAt k own p) (hj : j < pageSize) : k.userByte (stackBegin + j) = some (k.heap.mm.mem (p + j)) := by
  obtain ⟨pa, b, hva, htr⟩ := hs.translate j hj
  unfold Kernel.userByte
  rw [htr]
  show (if (stackPteFlags b ||| pteUser) &&& pteRead ≠ 0 then some (k.heap.mm.mem (VA pa)) else none) = _
  rw [if_pos (by cases b <;> decide), hva]

/-- the page stays where it is while nothing of the task changes -/
theorem StackAt.untouched (hs : StackAt k own p) (ha : Active k own q) (hu : Untouched k.heap k'.heap own own' k.currentTask)
    (hcur : k'.currentTask = k.currentTask) (hsatp : k'.satp = k.satp) : StackAt k' own' p := by
  obtain ⟨m, v, hp⟩ := hs.user
  refine ⟨⟨m, v, ?_⟩, fun j hj => ?_⟩
  · rw [hcur]
    exact (hu.agree p (.user m v) rfl).mpr hp
  · obtain ⟨pa, b, hva, htr⟩ := hs.translate j hj
    refine ⟨pa, b, hva, ?_⟩
    have hroot : k.satp = (k.heap.task k.currentTask).pageTable := ha.satp
    have hmap := hu.mapOf (ha.world.maps _ ha.live) (stackBegin + j)
    unfold mapOf at hmap
    unfold Kernel.translate at htr ⊢
    rw [hsatp, hroot, hmap, ← hroot]
    exact htr

/-- one byte of the stack is stored -/
theorem FirstUser.store (hf : FirstUser e b k own t ns room) (hs : StackAt k own p) (hj : j < pageSize) (v : UInt8) :
    ∃ k', FirstUser e b k' own t ns room ∧ StackAt k' own p ∧ k'.heap.mm.mem = Function.update k.heap.mm.mem (p + j) v := by
  obtain ⟨m, d, hp⟩ := hs.user
  obtain ⟨pa, x, hva, htr⟩ := hs.translate j hj
  have hon : onPage p (p + j) := ⟨Nat.le_add_right _ _, Nat.add_lt_add_left hj _⟩
  have hout : ∀ x, ¬ onPage p x → Function.update k.heap.mm.mem (p + j) v x = k.heap.mm.mem x := fun x hx =>
    Function.update_of_ne (fun he => hx (by rw [he]; exact hon)) _ _
  obtain ⟨hw', hq⟩ := hf.active.world.store hp hout
  obtain ⟨k', hk'⟩ : ∃ k', k' = k.setHeap { k.heap with mm := k.heap.mm.setMem (Function.update k.heap.mm.mem (p + j) v) } := ⟨_, rfl⟩
  have hstep : k.Step k' := by
    have huser : (stackPteFlags x ||| pteUser) &&& pteUser ≠ 0 := by
      cases x <;> decide
    have hwrite : (stackPteFlags x ||| pteUser) &&& pteWrite ≠ 0 := by
      cases x <;> decide
    have h := Kernel.Step.store (stackBegin + j) _ v hf.ctl htr huser hwrite
    rw [hva] at h
    rw [hk']
    exact h
  have hheap : k'.heap = { k.heap with mm := k.heap.mm.setMem (Function.update k.heap.mm.mem (p + j) v) } := by rw [hk']; rfl
  rw [← hheap] at hw' hq
  have ht : t ∈ k.heap.live := hf.live ▸ List.mem_singleton_self t
  obtain ⟨k₀, hboot, hsteps⟩ := hf.reachable
  refine ⟨k', ⟨⟨k₀, hboot, hsteps.tail hstep⟩, ?_, ⟨hw', ?_, ?_, ?_, ?_, ?_⟩, ?_, ?_, hf.image.quiet hf.active.world ht hq hw'.held.ok, ?_⟩,
    hs.untouched hf.active (hq.untouched _ hf.active.live) (by rw [hk']; rfl) (by rw [hk']; rfl), by rw [hheap]; rfl⟩
  · rw [hk']
    exact hf.ctl
  · rw [hk']
    exact hf.active.live
  · rw [hk']
    exact hf.active.node
  · rw [hk']
    exact hf.active.satp
  · rw [hk']
    exact hf.active.detached
  · rw [hk']
    exact hf.active.queued
  · rw [hk']
    exact hf.current
  · rw [hk']
    exact hf.live
  · rw [hk']
    exact hf.frame

/-- the first task fills its stack with any bytes -/
theorem first_filled (f : Nat → UInt8) : ∃ k own t ns p, FirstUser initImage false k own t ns 750 ∧ StackAt k own p ∧
    ∀ j < pageSize, k.userByte (stackBegin + j) = some (f j) := by
  have hfill : ∀ n ≤ pageSize, ∃ k own t ns p, FirstUser initImage false k own t ns 750 ∧ StackAt k own p ∧
      ∀ j < n, k.heap.mm.mem (p + j) = f j := by
    intro n
    induction n with
    | zero =>
      intro _
      obtain ⟨k, own, t, ns, hf⟩ := first_user
      obtain ⟨p, hs⟩ := hf.active.stackPage (hf.current ▸ hf.image.stack)
      exact ⟨k, own, t, ns, p, hf, hs, fun j hj => absurd hj (Nat.not_lt_zero j)⟩
    | succ n ih =>
      intro hn
      obtain ⟨k, own, t, ns, p, hf, hs, hdone⟩ := ih (Nat.le_of_succ_le hn)
      obtain ⟨k', hf', hs', hmem⟩ := hf.store hs hn (f n)
      refine ⟨k', own, t, ns, p, hf', hs', fun j hj => ?_⟩
      rw [hmem]
      by_cases he : j = n
      · rw [he, Function.update_self]
      · rw [Function.update_of_ne (by omega)]
        exact hdone j (by omega)
  obtain ⟨k, own, t, ns, p, hf, hs, hdone⟩ := hfill pageSize (Nat.le_refl _)
  exact ⟨k, own, t, ns, p, hf, hs, fun j hj => by rw [hs.userByte hj, hdone j hj]⟩

end FakeKernel
