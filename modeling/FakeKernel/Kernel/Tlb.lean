import FakeKernel.Kernel.Inherit
import FakeKernel.Lib.Cache

/-!
# The TLB

* `Kernel.Step.satp`      only do_schedule writes satp;
* `Kernel.Step.keptMap`   the table of a task loses nothing;
* `Kernel.paging`         the hart caches translations, and forgets them when do_schedule executes sfence.vma;
* `tlb_coherent`          what it has cached is what the page table says, whenever a task runs.
-/

namespace FakeKernel
open Bytes Mm Heap Kernel

variable {k k' k₀ k₁ : Kernel} {h h' : Heap} {own own' : Owners} {q q' : TaskList → List Nat} {e : Elf} {o : Oracle}
  {t a n p x : Nat} {tr : Translation}

/-! ## satp -/

namespace Kernel

theorem wait_satp {group : TaskList} {th : Thread} (hrun : k.wait group th = .ok k') : k'.satp = k.satp := by
  unfold Kernel.wait at hrun
  obtain ⟨_, _, hrun⟩ := Res.bind_eq_ok.mp hrun
  cases hrun
  rfl

theorem getchar_satp (hrun : k.getchar = .ok k') : k'.satp = k.satp := by
  unfold Kernel.getchar at hrun
  cases hget : k.uart.getchar with
  | none =>
    rw [hget] at hrun
    exact wait_satp hrun
  | some cu =>
    rw [hget] at hrun
    cases hrun
    rfl

theorem destroyCurrent_satp (hrun : k.destroyCurrent = .ok k') : k'.satp = k.satp := by
  unfold Kernel.destroyCurrent at hrun
  obtain ⟨h', _, hret⟩ := Res.bind_eq_ok.mp hrun
  cases hret
  rfl

theorem finish_satp {after : After} (hrun : k.finish after = .ok k') : k'.satp = k.satp := by
  cases after with
  | syscall v =>
    cases hrun
    rfl
  | fault => exact destroyCurrent_satp hrun

theorem putText_satp {lsr : Nat → List Bool} {text : List UInt8} {after : After} (hrun : k.putText lsr text after = .ok k') :
    k'.satp = k.satp := by
  induction text generalizing k with
  | nil => exact finish_satp hrun
  | cons c text ih =>
    unfold Kernel.putText at hrun
    cases hput : k.uart.uartputc c (lsr text.length) with
    | none =>
      rw [hput] at hrun
      exact wait_satp hrun
    | some u =>
      rw [hput] at hrun
      exact ih (k := { k with uart := u }) hrun

theorem sysFork_satp (ha : Active k own q) (hrun : k.sysFork o = .ok k') : k'.satp = k.satp := by
  unfold Kernel.sysFork at hrun
  obtain ⟨⟨child, k₁⟩, hclone, hrun⟩ := Res.bind_eq_ok.mp hrun
  obtain ⟨hgood, _, _, hcl⟩ := taskClone_cloned ha.world ha.live hclone
  obtain ⟨_, _, _, _, k₂, _, _, _, hcon, rfl⟩ := hcl.steps
  simp only [hgood, Bool.false_eq_true, if_false] at hrun
  cases hrun
  exact hcon.satp

theorem syscall_satp (ha : Active k own q) (hexec : (k.task k.currentTask).userFrame.registers REG_A7 ≠ SYS_execve)
    (hrun : k.syscall o = .ok k') : k'.satp = k.satp := by
  unfold Kernel.syscall at hrun
  simp only [hexec, if_false] at hrun
  split at hrun
  · exact getchar_satp hrun
  split at hrun
  · exact putText_satp hrun
  split at hrun
  · cases hrun
    rfl
  split at hrun
  · cases hrun
    rfl
  split at hrun
  · exact sysFork_satp ha hrun
  split at hrun
  · exact destroyCurrent_satp hrun
  split at hrun
  · exact putText_satp hrun
  · cases hrun
    rfl

theorem taskEntryTrap_satp (ha : Active k own q) (hth : (k.task k.currentTask).kernelFrame = .yieldToUser) (hexec : ¬ k.Execve)
    (hrun : k.taskEntryTrap o = .ok k') : k'.satp = k.satp := by
  unfold Kernel.taskEntryTrap at hrun
  simp only at hrun
  have hfault : k.taskFault o = .ok k' → k'.satp = k.satp := putText_satp
  split at hrun
  · rename_i hcall
    have hid : (k.callFrame.task k.callFrame.currentTask).userFrame.registers REG_A7 ≠ SYS_execve := fun hreg => by
      have hreg : (k.callFrame.task k.currentTask).userFrame.registers REG_A7 = SYS_execve := hreg
      rw [callFrame_frame] at hreg
      exact hexec ⟨hth, hcall, hreg⟩
    have hsame := syscall_satp ha.callFrame.active hid hrun
    exact hsame
  split at hrun
  · split at hrun
    · obtain ⟨a, _, hrun⟩ := Res.bind_eq_ok.mp hrun
      split at hrun
      · obtain ⟨h', _, hret⟩ := Res.bind_eq_ok.mp hrun
        cases hret
        rfl
      · exact hfault hrun
    · exact hfault hrun
  · exact hfault hrun

theorem resume_satp (ha : Active k own q) (hexec : ¬ k.Execve) (hrun : k.resume o = .ok k') : k'.satp = k.satp := by
  unfold Kernel.resume at hrun
  cases hth : (k.task k.currentTask).kernelFrame with
  | taskEntry =>
    rw [hth] at hrun
    cases hrun
    rfl
  | yieldToUser =>
    rw [hth] at hrun
    exact taskEntryTrap_satp ha hth hexec hrun
  | sysYield =>
    rw [hth] at hrun
    cases hrun
    rfl
  | getchar =>
    rw [hth] at hrun
    exact getchar_satp hrun
  | putchar c text after =>
    rw [hth] at hrun
    simp only at hrun
    cases hput : k.uart.uartputcWoken c (o.lsr text.length) with
    | none =>
      rw [hput] at hrun
      exact wait_satp hrun
    | some u =>
      rw [hput] at hrun
      exact putText_satp (k := { k with uart := u }) hrun
  | interrupted =>
    rw [hth] at hrun
    exact absurd hrun Res.panic_ne_ok

theorem handleInterrupt_satp {i : Interrupt} {mode : TaskMode} (hw : World k.heap own q) (hrun : k.handleInterrupt i mode = .ok k') :
    k'.satp = k.satp := by
  cases i with
  | timer =>
    unfold Kernel.handleInterrupt at hrun
    by_cases h0 : k.currentTask = 0
    · simp only [h0, if_true] at hrun
      cases hrun
      rfl
    · simp only [h0, if_false] at hrun
      cases mode with
      | supervisor =>
        cases hrun
        rfl
      | user =>
        cases hrun
        rfl
  | external irq rx lsr =>
    obtain ⟨u, L', _, _, rfl, _⟩ := external_spec hw hrun
    rfl

/-- only do_schedule writes satp -/
theorem Step.satp (hs : Step k k') (hc : Consistent k own q) (hctl : k.ctl ≠ .schedule) : k'.satp = k.satp := by
  cases hs with
  | compute cpu h => rfl
  | store va tr b h htr hu hw => rfl
  | interrupt i h hrun =>
    unfold Kernel.userInterrupt at hrun
    obtain ⟨k₁, hint, hrun⟩ := Res.bind_eq_ok.mp hrun
    have hw : World ({ k.log (.trapped k.currentTask k.cpu) with trapframe := trapVector k.cpu k.trapframe } : Kernel).heap own q :=
      hc.world
    have hsame := handleInterrupt_satp hw hint
    cases i with
    | timer =>
      cases hrun
      exact hsame
    | external irq rx lsr =>
      cases hrun
      exact hsame
  | exception code stval h => rfl
  | resume o h hexec hrun => exact resume_satp (hc.active (.inr h)) hexec hrun
  | schedule h hrun => exact absurd h hctl
  | idle regs i h hrun =>
    unfold Kernel.idleInterrupt at hrun
    obtain ⟨k₁, hint, hret⟩ := Res.bind_eq_ok.mp hrun
    cases hret
    have hw : World ({ k with trapframe := trapVector regs k.trapframe } : Kernel).heap own q := hc.world
    exact (handleInterrupt_satp hw hint :)

end Kernel

/-! ## what is mapped stays mapped -/

/-- a page table whose task is left alone -/
theorem Untouched.keeps (hu : Untouched h h' own own' t) (hw : World h own q) (ht : t ∈ h.live) :
    (h'.task t).pageTable = (h.task t).pageTable ∧ ∀ x tr, FakeKernel.mapOf h (h.task t).pageTable x = some tr →
      FakeKernel.mapOf h' (h'.task t).pageTable x = some tr := by
  have hroot := hu.task.2.2.1
  refine ⟨hroot, fun x tr htr => ?_⟩
  rw [hroot, hu.mapOf (hw.maps t ht) x]
  exact htr

/-- a stack grows where nothing is mapped -/
theorem Orderly.grows_unmapped (ho : Orderly k own q) (hg : k.Grows a)
    (hrun : k.heap.expandStack k.currentTask a (k.stval / pageSize * pageSize) wordCount = .ok h')
    (h1 : k.stval / pageSize * pageSize ≤ x) (h2 : x < (k.heap.area a).va) :
    mapOf k.heap (k.task k.currentTask).pageTable x = none := by
  have ha := ho.active (.inr hg.ctl)
  have hw := ho.world
  have hM := hw.maps _ ha.live
  obtain ⟨ns, hb⟩ := ho.booked.booked _ ha.live
  obtain ⟨n, harea⟩ := vmFindStack_area (hw.areas _ ha.live) hg.area hg.found
  have hlow : x < splitAddr := by
    have hstop := hb.area_stop (hw.areas _ ha.live) harea
    unfold VmArea.stop at hstop
    omega
  have hx : x < 2 ^ 39 := by
    unfold splitAddr at hlow
    omega
  cases hm : mapOf k.heap (k.task k.currentTask).pageTable x with
  | none => rfl
  | some tr =>
    by_cases hu : tr.flags &&& pteUser = 0
    · have hk := hM.kern x hx tr hm hu
      rw [kernelMap_low hlow] at hk
      exact nomatch hk
    · have hfree := hb.grows_free hw ha.live hg.stack.1 hg.stack.2 hg.area hg.found hrun h1 h2
      rw [UserMapped.view ⟨ha.live, hx, hm, hu⟩] at hfree
      exact nomatch hfree

theorem Orderly.grows_keeps (ho : Orderly k own q) (hg : k.Grows a)
    (hrun : k.heap.expandStack k.currentTask a (k.stval / pageSize * pageSize) wordCount = .ok h') :
    (h'.task k.currentTask).pageTable = (k.task k.currentTask).pageTable ∧
      ∀ x < 2 ^ 39, ∀ tr, mapOf k.heap (k.task k.currentTask).pageTable x = some tr →
        mapOf h' (h'.task k.currentTask).pageTable x = some tr := by
  have ha := ho.active (.inr hg.ctl)
  have hw := ho.world
  obtain ⟨ns, hb⟩ := ho.booked.booked _ ha.live
  obtain ⟨n, harea⟩ := vmFindStack_area (hw.areas _ ha.live) hg.area hg.found
  have hstop := hb.area_stop (hw.areas _ ha.live) harea
  have hword : (k.heap.area a).va < wordCount := by
    unfold VmArea.stop splitAddr at hstop
    unfold wordCount
    omega
  have hround : k.stval / pageSize * pageSize ≤ k.stval := Nat.div_mul_le_self _ _
  have hlt := vmFindStack_lt hg.area hg.found
  obtain ⟨_, hother, htask, _⟩ := expandStack_pages (hw.maps _ ha.live).wf rfl (hw.aligned _ a n harea) hword (Nat.dvd_mul_left _ _)
    (Nat.lt_of_le_of_lt hround hg.stack.2) (by omega) hrun
  have hroot : (h'.task k.currentTask).pageTable = (k.task k.currentTask).pageTable := by
    rw [htask]
    rfl
  refine ⟨hroot, fun x hx tr htr => ?_⟩
  rw [hroot]
  by_cases hin : k.stval / pageSize * pageSize ≤ x ∧ x < (k.heap.area a).va
  · rw [ho.grows_unmapped hg hrun hin.1 hin.2] at htr
    exact nomatch htr
  · exact (hother x hx hin).trans htr

/-- what is mapped in a table stays mapped, in each step of each task -/
structure KeptMap (k k' : Kernel) (t : Nat) : Prop where
  live : t ∈ k.heap.live
  root : (k'.task t).pageTable = (k.task t).pageTable
  map : ∀ x < 2 ^ 39, ∀ tr, mapOf k.heap (k.task t).pageTable x = some tr → mapOf k'.heap (k'.task t).pageTable x = some tr

theorem Untouched.keptMap (hu : Untouched k.heap k'.heap own own' t) (hw : World k.heap own q) (ht : t ∈ k.heap.live) : KeptMap k k' t := by
  obtain ⟨hroot, hmap⟩ := hu.keeps hw ht
  exact ⟨ht, hroot, fun x _ tr htr => hmap x tr htr⟩

theorem Kernel.Step.keptMap_forked (hs : Step k k') (ho : Orderly k own q) (hf : k.Forks) (ht : t ∈ k.heap.live) : KeptMap k k' t := by
  obtain ⟨own', regs, child, n, k₁, hb⟩ := hs.forked ho.consistent hf
  obtain ⟨_, hlive⟩ := hb.cloned.live
  have h₀ : t ∈ k.callFrame.heap.live := hb.before.live ▸ ht
  have h₁ : t ∈ k₁.heap.live := by
    rw [hlive]
    exact List.mem_cons_of_mem _ h₀
  exact (((hb.before.untouched t ht).trans (hb.cloned.untouched h₀)).trans (hb.after.untouched t h₁)).keptMap ho.world ht

theorem Kernel.Step.keptMap_grew (hs : Step k k') (ho : Orderly k own q) (hg : k.Grows a) (ht : t ∈ k'.heap.live) : KeptMap k k' t := by
  obtain ⟨h', hexp, rfl⟩ := hs.grew hg
  have ha := ho.active (.inr hg.ctl)
  obtain ⟨n, harea⟩ := vmFindStack_area (ho.world.areas _ ha.live) hg.area hg.found
  obtain ⟨own', hgrown⟩ := expandStack_world ha.world ha.live harea hexp
  have ha' : Active (k.setHeap h') own' q := ha.grown hgrown
  have hq := ha'.yieldToUser.quiet
  have ht₁ : t ∈ h'.live := hq.live ▸ ht
  have ht₀ : t ∈ k.heap.live := hgrown.live ▸ ht₁
  by_cases he : t = k.currentTask
  · obtain ⟨hroot, hmap⟩ := ho.grows_keeps hg hexp
    obtain ⟨hroot', hmap'⟩ := (hq.untouched t ht₁).keeps hgrown.world ht₁
    rw [← he] at hroot hmap
    exact ⟨ht₀, hroot'.trans hroot, fun x hx tr htr => hmap' x tr (hmap x hx tr htr)⟩
  · exact ((hgrown.untouched ha.world.held ht₀ he).trans (hq.untouched t ht₁)).keptMap ho.world ht₀

/-- a task that was there before -/
theorem Kernel.Step.keptMap_live (hs : Step k k') (ho : Orderly k own q) (ht : t ∈ k.heap.live) (ht' : t ∈ k'.heap.live) :
    KeptMap k k' t := by
  by_cases hf : k.Forks
  · exact hs.keptMap_forked ho hf ht
  by_cases hg : ∃ a, k.Grows a
  · obtain ⟨a, hg⟩ := hg
    exact hs.keptMap_grew ho hg ht'
  obtain ⟨own', q', _, hcalm⟩ := hs.calm ho.consistent hf fun a ha => hg ⟨a, ha⟩
  cases hcalm with
  | quiet hq he => exact (hq.untouched t ht).keptMap ho.world ht
  | died hq hw hd he =>
    rw [hd.live] at ht'
    have hne : t ≠ k.currentTask := fun e => absurd (e ▸ ht') (List.Nodup.not_mem_erase hw.held.nodup.2)
    exact ((hq.untouched t ht).trans (hd.untouched hw.held hne)).keptMap ho.world ht

/-- a new task is the child of a fork -/
theorem Kernel.Step.forks_of_new (hs : Step k k') (ho : Orderly k own q) (ht : t ∉ k.heap.live) (ht' : t ∈ k'.heap.live) : k.Forks := by
  by_contra hf
  refine ht ?_
  by_cases hg : ∃ a, k.Grows a
  · obtain ⟨a, hg⟩ := hg
    exact (hs.keptMap_grew ho hg ht').live
  · cases hs.settled ho.consistent hf fun a ha => hg ⟨a, ha⟩ with
    | inl hsame => exact hsame.2 ▸ ht'
    | inr hgone => exact List.mem_of_mem_erase (hgone.2 ▸ ht')

/-- its table is not the one in satp, which is its parent's -/
theorem Kernel.Step.child_root (hs : Step k k') (ho : Orderly k own q) (ht : t ∉ k.heap.live) (ht' : t ∈ k'.heap.live) :
    (k'.task t).pageTable ≠ k.satp := by
  have hf := hs.forks_of_new ho ht ht'
  have ha := ho.active (.inr hf.1)
  obtain ⟨own', regs, child, n, k₁, hb⟩ := hs.forked ho.consistent hf
  have hlive' : k'.heap.live = child :: k.heap.live := by rw [hb.after.live, hb.cloned.live.2, hb.before.live]
  intro hsame
  have hcur := hs.keptMap_forked ho hf ha.live
  obtain ⟨own₂, q₂, ho₂⟩ := hs.orderly ho
  have hp := (ho₂.world.maps t ht').tables _ table_mem_tables
  have hp' := (ho₂.world.maps k.currentTask (hlive' ▸ List.mem_cons_of_mem _ ha.live)).tables _ table_mem_tables
  have hroot : (k'.task k.currentTask).pageTable = (k'.task t).pageTable := hcur.root.trans (ha.satp.symm.trans hsame.symm)
  have heq : (k'.heap.task k.currentTask).pageTable = (k'.heap.task t).pageTable := hroot
  rw [heq] at hp'
  exact ht ((hp.unique hp').1 ▸ ha.live)

theorem Kernel.Step.keptMap (hs : Step k k') (ho : Orderly k own q) (ht : t ∈ k'.heap.live) :
    KeptMap k k' t ∨ (k'.task t).pageTable ≠ k.satp := by
  by_cases hin : t ∈ k.heap.live
  · exact .inl (hs.keptMap_live ho hin ht)
  · exact .inr (hs.child_root ho hin ht)

/-! ## the TLB -/

/-- do_schedule executes sfence.vma when it finds another table in satp -/
def Kernel.Fences (k k' : Kernel) : Prop := k.ctl = .schedule ∧ k'.satp ≠ k.satp

/-- the table in satp, as the hart walks it; it is in use when it belongs to a task -/
def Kernel.paging : CachedSystem Kernel Nat Translation where
  step := Step
  look k x := if x < 2 ^ 39 then mapOf k.heap k.satp x else none
  inUse k := ∃ t ∈ k.heap.live, (k.task t).pageTable = k.satp
  fence := Fences

theorem Kernel.paging_extending : paging.Extending fun k => ∃ own q, Orderly k own q where
  inv := fun ⟨_, _, ho⟩ hs => Step.orderly hs ho
  use := by
    intro k k' hinv hs hfence huse
    obtain ⟨own, q, ho⟩ := hinv
    obtain ⟨t, ht, hroot⟩ := huse
    have hs : Step k k' := hs
    have hsatp : k'.satp = k.satp := by
      by_cases hctl : k.ctl = .schedule
      · exact not_not.mp fun hne => hfence ⟨hctl, hne⟩
      · exact hs.satp ho.consistent hctl
    rw [hsatp] at hroot
    have hkept := (hs.keptMap ho ht).resolve_right fun hne => hne hroot
    have hroot₀ : (k.task t).pageTable = k.satp := hkept.root.symm.trans hroot
    refine ⟨⟨t, hkept.live, hroot₀⟩, fun x tr htr => ?_⟩
    show (if x < 2 ^ 39 then mapOf k'.heap k'.satp x else none) = some tr
    have htr : (if x < 2 ^ 39 then mapOf k.heap k.satp x else none) = some tr := htr
    by_cases hx : x < 2 ^ 39
    · rw [if_pos hx] at htr ⊢
      have hmap := hkept.map x hx tr
      rw [hroot₀, hroot] at hmap
      rw [hsatp]
      exact hmap htr
    · rw [if_neg hx] at htr
      exact nomatch htr

/-- **The TLB.**  If the first image is in order, then in every run, whatever the hart caches and forgets on the way, it holds no
stale translation when a task runs; at first the TLB may hold anything, if no task has the table that is in satp. -/
theorem tlb_coherent {T₀ T : Set (Nat × Translation)} (hb : k₀.BootedInOrder) (hsatp : ∀ t ∈ k₀.heap.live, (k₀.task t).pageTable ≠ k₀.satp)
    (hs : Relation.ReflTransGen (CachedSystem.Step paging) (k₀, T₀) (k, T)) (hctl : k.ctl = .user ∨ k.ctl = .thread) :
    ∀ e ∈ T, e.1 < 2 ^ 39 ∧ mapOf k.heap (k.task k.currentTask).pageTable e.1 = some e.2 := by
  obtain ⟨own₀, n, ho₀⟩ := hb.orderly
  obtain ⟨⟨own, q, ho⟩, hsound⟩ := paging_extending.run_sound
    (p := (k₀, T₀)) ⟨⟨own₀, _, ho₀⟩, fun ⟨t, ht, hroot⟩ => absurd hroot (hsatp t ht)⟩ hs
  have ha : Active k own q := ho.active hctl
  intro e he
  have hlook : (if e.1 < 2 ^ 39 then mapOf k.heap k.satp e.1 else none) = some e.2 := hsound ⟨k.currentTask, ha.live, ha.satp.symm⟩ e he
  by_cases hx : e.1 < 2 ^ 39
  · rw [if_pos hx, ha.satp] at hlook
    exact ⟨hx, hlook⟩
  · rw [if_neg hx] at hlook
    exact nomatch hlook

theorem tlb_coherent_first : ∃ (k : Kernel) (T : Set (Nat × Translation)), T.Nonempty ∧
    ∀ e ∈ T, e.1 < 2 ^ 39 ∧ mapOf k.heap (k.task k.currentTask).pageTable e.1 = some e.2 := by
  obtain ⟨k₀, k, own, t, ns, hrun, hsteps, hu⟩ := first_user_run
  have hb := boot_in_order initImage_onePage initImage_placed hrun
  have h0 : k₀.satp = 0 := by
    unfold Kernel.init at hrun
    obtain ⟨⟨t, h⟩, _, hrun⟩ := Res.bind_eq_ok.mp hrun
    obtain ⟨⟨r, h'⟩, _, hrun⟩ := Res.bind_eq_ok.mp hrun
    cases hrun
    rfl
  have hsatp : ∀ t ∈ k₀.heap.live, (k₀.task t).pageTable ≠ k₀.satp := by
    obtain ⟨own₀, n, ho₀⟩ := hb.orderly
    intro t ht
    rw [h0]
    have hroot := (ho₀.world.maps t ht).tables _ table_mem_tables
    have hin := ho₀.world.held.ok.usable (ho₀.world.held.out _ _ _ hroot) (Tiling.base_mem (pageAt _))
    exact Nat.ne_of_gt (Nat.lt_of_lt_of_le (by decide) hin.1)
  obtain ⟨p, b, hp⟩ := hu.image.stack
  have hmap := hp stackBegin rfl
  rw [← hu.current] at hmap
  have hlook : paging.look k stackBegin = some ⟨PA p % 2 ^ 56 + stackBegin % 2 ^ 12, stackPteFlags b ||| pteUser⟩ := by
    show (if stackBegin < 2 ^ 39 then mapOf k.heap k.satp stackBegin else none) = _
    rw [if_pos (by decide), hu.active.satp]
    exact hmap
  obtain ⟨T, hT⟩ := paging.run_exists (c := ∅) hsteps
  exact ⟨k, _, Set.insert_nonempty _ _, tlb_coherent hb hsatp (hT.tail (.fill stackBegin _ hlook)) (.inl hu.ctl)⟩

end FakeKernel
