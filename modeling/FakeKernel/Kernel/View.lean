import FakeKernel.Kernel.Rights
import FakeKernel.Kernel.Turns
import FakeKernel.Lib.Private

/-!
# What tasks see of memory

* `Heap.view`        the bytes that user code of a task can reach, with the flags of their pages;
* `SameUser`         the user pages of a task hold what they held;
* `Kernel.memories`  the live tasks, and what each of them sees;
* `Kernel.Step.memories_calm`, `memories_grew`, `memories_forked`   each step is a step of tasks with memories of their own;
* `suspended_memory` what the others do is never seen.
-/

namespace FakeKernel
open Bytes Mm Heap Kernel

variable {k k' k₁ : Kernel} {h h' : Heap} {own own' : Owners} {q q' : TaskList → List Nat} {o : Oracle}
  {t t' n a m p x y va flags : Nat} {tr : Translation}

/-! ## views -/

/-- a byte and the flags of its page -/
abbrev Cell := UInt8 × Nat

/-- what user code of `t` finds at the address `x` -/
def Heap.view (h : Heap) (t x : Nat) : Option Cell :=
  if x < 2 ^ 39 then
    match mapOf h (h.task t).pageTable x with
    | some tr => if tr.flags &&& pteUser ≠ 0 then some (h.mm.mem (VA tr.pa), tr.flags) else none
    | none => none
  else none

theorem Heap.view_eq_some {c : Cell} : h.view t x = some c ↔ x < 2 ^ 39 ∧ ∃ tr,
    mapOf h (h.task t).pageTable x = some tr ∧ tr.flags &&& pteUser ≠ 0 ∧ (h.mm.mem (VA tr.pa), tr.flags) = c := by
  unfold Heap.view
  by_cases hx : x < 2 ^ 39
  · rw [if_pos hx]
    cases hm : mapOf h (h.task t).pageTable x with
    | none => exact iff_of_false nofun fun ⟨_, _, he, _⟩ => nomatch he
    | some tr =>
      simp only
      by_cases hu : tr.flags &&& pteUser ≠ 0
      · rw [if_pos hu]
        constructor
        · intro he
          exact ⟨hx, tr, rfl, hu, Option.some.inj he⟩
        · rintro ⟨_, tr', he, _, hc⟩
          rw [← hc, ← Option.some.inj he]
      · rw [if_neg hu]
        refine iff_of_false nofun ?_
        rintro ⟨_, tr', he, hu', _⟩
        exact hu (Option.some.inj he ▸ hu')
  · rw [if_neg hx]
    exact iff_of_false nofun fun hc => hx hc.1

theorem UserMapped.view (hm : UserMapped h t x tr) : h.view t x = some (h.mm.mem (VA tr.pa), tr.flags) :=
  view_eq_some.mpr ⟨hm.lt, tr, hm.map, hm.user, rfl⟩

/-- the user pages of `t` have not been written -/
def SameUser (h h' : Heap) (own : Owners) (t : Nat) : Prop :=
  ∀ p m v, own.Page p t (.user m v) → ∀ x, onPage p x → h'.mm.mem x = h.mm.mem x

theorem SameUser.of_mem (he : h'.mm.mem = h.mm.mem) : SameUser h h' own t := fun _ _ _ _ _ _ => by rw [he]

/-- a byte of the old map that is still mapped -/
theorem SameUser.byte (hs : SameUser h h' own t) (hw : World h own q) (hm : UserMapped h t x tr) :
    h'.mm.mem (VA tr.pa) = h.mm.mem (VA tr.pa) := by
  obtain ⟨p, m, hp, hon⟩ := hw.onUserPage hm
  exact hs p m _ hp _ hon

theorem view_congr (hw : World h own q) (ht : t ∈ h.live) (hs : SameUser h h' own t)
    (hmap : mapOf h' (h'.task t).pageTable x = mapOf h (h.task t).pageTable x) : h'.view t x = h.view t x := by
  unfold Heap.view
  by_cases hx : x < 2 ^ 39
  · rw [if_pos hx, if_pos hx, hmap]
    cases hm : mapOf h (h.task t).pageTable x with
    | none => rfl
    | some tr =>
      simp only
      by_cases hu : tr.flags &&& pteUser ≠ 0
      · rw [if_pos hu, if_pos hu, hs.byte hw ⟨ht, hx, hm, hu⟩]
      · rw [if_neg hu, if_neg hu]
  · rw [if_neg hx, if_neg hx]

/-- a task that others have left alone sees what it saw -/
theorem Untouched.view (hu : Untouched h h' own own' t) (hw : World h own q) (ht : t ∈ h.live) (hs : SameUser h h' own t) :
    h'.view t = h.view t := by
  funext x
  refine view_congr hw ht hs ?_
  rw [hu.task.2.2.1]
  exact hu.mapOf (hw.maps t ht) x

/-! ## stores -/

/-- the kernel address of a byte that user code of `t` reaches -/
theorem World.userAddress (hw : World h own q) (hm : UserMapped h t x tr) :
    ∃ p m, own.Page p t (.user m (x / pageSize)) ∧ VA tr.pa = p + x % pageSize := by
  obtain ⟨p, m, hp, hpa, _⟩ := hw.userMapped hm
  have hin := hw.held.ok.usable (hw.held.out _ _ _ hp) (Tiling.base_mem (pageAt p))
  have he := VA_PA (x := x) hin
  rw [Nat.mod_eq_of_lt (PA_usable hin).2] at he
  rw [hpa]
  exact ⟨p, m, hp, he⟩

/-- no byte is reached by two tasks or at two addresses -/
theorem World.user_inj (hw : World h own q) {tr' : Translation} {t' x' : Nat} (hm : UserMapped h t x tr)
    (hm' : UserMapped h t' x' tr') (he : VA tr.pa = VA tr'.pa) : t = t' ∧ x = x' := by
  obtain ⟨p, m, hp, hva⟩ := hw.userAddress hm
  obtain ⟨p', m', hp', hva'⟩ := hw.userAddress hm'
  rw [hva, hva'] at he
  have hr : x % pageSize < pageSize := Nat.mod_lt _ (by decide)
  have hr' : x' % pageSize < pageSize := Nat.mod_lt _ (by decide)
  have hpp : p = p' := onPage_inj (hw.held.page hp) (hw.held.page hp')
    ⟨Nat.le_add_right p (x % pageSize), Nat.add_lt_add_left hr p⟩
    (he ▸ ⟨Nat.le_add_right p' (x' % pageSize), Nat.add_lt_add_left hr' p'⟩)
  subst hpp
  obtain ⟨ht, hrole⟩ := hp.unique hp'
  have hmod : x % pageSize = x' % pageSize := Nat.add_left_cancel he
  have hdiv : x / pageSize = x' / pageSize := (Role.user.inj hrole).2
  refine ⟨ht, ?_⟩
  rw [← Nat.div_add_mod x pageSize, ← Nat.div_add_mod x' pageSize, hmod, hdiv]

/-- a store of user code changes one cell of one task -/
theorem World.view_write (hw : World h own q) (hm : UserMapped h a x tr) (b : UInt8) (ht : t ∈ h.live) :
    Heap.view { h with mm := h.mm.write (VA tr.pa) b } t
      = if t = a then Function.update (h.view t) x (some (b, tr.flags)) else h.view t := by
  obtain ⟨p, m, hp, hon⟩ := hw.onUserPage hm
  have hmem : ∀ y, ¬ onPage p y → Function.update h.mm.mem (VA tr.pa) b y = h.mm.mem y :=
    fun y hy => Function.update_of_ne (fun e => hy (by rw [e]; exact hon)) _ _
  obtain ⟨_, hq⟩ := hw.store hp hmem
  obtain ⟨h₁, hh₁⟩ : ∃ h₁ : Heap, h₁ = { h with mm := h.mm.write (VA tr.pa) b } := ⟨_, rfl⟩
  have hmap : ∀ y, mapOf h₁ (h₁.task t).pageTable y = mapOf h (h.task t).pageTable y := by
    rw [hh₁]
    exact (hq.untouched t ht).mapOf (hw.maps t ht)
  have hbyte : h₁.mm.mem = Function.update h.mm.mem (VA tr.pa) b := by
    rw [hh₁]
    rfl
  rw [← hh₁]
  funext y
  -- what is found at `y`: the byte that was written, another one, or nothing
  have hcell : ∀ c, h₁.view t y = some c ↔
      (if t = a then Function.update (h.view t) x (some (b, tr.flags)) else h.view t) y = some c := by
    intro c
    rw [Heap.view_eq_some, hmap y, hbyte]
    by_cases hself : t = a ∧ y = x
    · obtain ⟨rfl, rfl⟩ := hself
      rw [if_pos rfl, Function.update_self]
      constructor
      · rintro ⟨_, tr', htr', _, hc⟩
        rw [Option.some.inj (htr'.symm.trans hm.map), Function.update_self] at hc
        rw [hc]
      · intro hc
        refine ⟨hm.lt, tr, hm.map, hm.user, ?_⟩
        rw [Function.update_self]
        exact Option.some.inj hc
    · have hold : (if t = a then Function.update (h.view t) x (some (b, tr.flags)) else h.view t) y = h.view t y := by
        by_cases hta : t = a
        · rw [if_pos hta, Function.update_of_ne fun hyx => hself ⟨hta, hyx⟩]
        · rw [if_neg hta]
      rw [hold, Heap.view_eq_some]
      refine and_congr_right fun hy => exists_congr fun tr' => and_congr_right fun htr' => and_congr_right fun hu' => ?_
      rw [Function.update_of_ne]
      intro he
      obtain ⟨hta, hyx⟩ := hw.user_inj ⟨ht, hy, htr', hu'⟩ hm he
      exact hself ⟨hta, hyx⟩
  exact Option.ext fun c => hcell c

/-! ## calm steps -/

def Kernel.memories (k : Kernel) : Memories Nat Nat Cell where
  live := {t | t ∈ k.heap.live}
  view := k.heap.view

/-- user code writes the bytes of pages that it may write -/
def Writes (c c' : Cell) : Prop := c.2 &&& pteWrite ≠ 0 ∧ c'.2 = c.2

/-- memory has not been written, and no blocks have changed hands -/
theorem Quiet.views (hq : Quiet h h' own) (hw : World h own q) (hmem : h'.mm = h.mm) : ∀ t ∈ h.live, h'.view t = h.view t :=
  fun t ht => (hq.untouched t ht).view hw ht (.of_mem (congrArg Mm.mem hmem))

/-- the pages of the other tasks are not written when a task is destroyed -/
theorem Destroyed.sameUser {D : List Nat} (hd : Destroyed h h' own a D) (hok : h.mm.Ok)
    (hout : ∀ p t r, own.Page p t r → pageAt p ∈ h.mm.out) (hne : t ≠ a) : SameUser h h' own t := by
  intro p m v hp x hx
  have hD : p ∉ D := fun hin => by
    obtain ⟨_, hr, _⟩ := hd.releases
    obtain ⟨r, hr⟩ := hr.owned p hin
    exact hne (hp.unique hr).1
  exact hd.shrinks.same hok (hout _ _ _ hp) hD nofun hx

/-- user code stores a byte -/
theorem Active.memories_store {R : MemoryRules Nat Cell} (ha : Active k own q) (hR : ∀ c c', Writes c c' → R.write c c')
    {b : UInt8} (htr : k.translate va = some tr) (hu : tr.flags &&& pteUser ≠ 0) (hwr : tr.flags &&& pteWrite ≠ 0) :
    Memories.Step R k.currentTask k.memories (k.setHeap { k.heap with mm := k.heap.mm.write (VA tr.pa) b }).memories := by
  have hm : UserMapped k.heap k.currentTask (va % 2 ^ 39) tr := by
    refine ⟨ha.live, Nat.mod_lt _ (by decide), ?_, hu⟩
    have hsatp : k.satp = (k.heap.task k.currentTask).pageTable := ha.satp
    unfold Kernel.translate at htr
    split at htr
    · show walk k.heap.mm.mem 2 (k.heap.task k.currentTask).pageTable (va % 2 ^ 39) = some tr
      rw [walk_mod _ (Nat.le_refl 2), ← hsatp]
      exact htr
    · exact nomatch htr
  refine .write (va % 2 ^ 39) (k.heap.mm.mem (VA tr.pa), tr.flags) (b, tr.flags) ha.live hm.view (hR _ _ ⟨hwr, rfl⟩) rfl ?_ ?_
  · show Heap.view { k.heap with mm := k.heap.mm.write (VA tr.pa) b } k.currentTask = _
    rw [ha.world.view_write hm b ha.live, if_pos rfl]
    rfl
  · intro t ht hne
    show Heap.view { k.heap with mm := k.heap.mm.write (VA tr.pa) b } t = _
    rw [ha.world.view_write hm b ht, if_neg hne]
    rfl

/-- a step that neither forks nor makes a stack grow -/
theorem Kernel.Step.memories_calm {R : MemoryRules Nat Cell} (hs : Step k k') (hc : Consistent k own q)
    (hR : ∀ c c', Writes c c' → R.write c c') (hfork : ¬ k.Forks) (hgrow : ∀ a, ¬ k.Grows a) :
    Memories.Step R k.currentTask k.memories k'.memories := by
  rcases hs.rests hc hfork hgrow with ⟨va, tr, b, hctl, htr, hu, hwr, rfl⟩ | hrest
  · exact (hc.active (.inl hctl)).memories_store hR htr hu hwr
  obtain ⟨own', q', ho, hcalm⟩ := hs.calm hc hfork hgrow
  have hw := hc.world
  cases hrest with
  | inl hsame =>
    cases hcalm with
    | quiet hq he =>
      refine .stay ?_ (hq.views hw hsame.1)
      show {t | t ∈ k'.heap.live} = {t | t ∈ k.heap.live}
      rw [hq.live]
    | died hq hw₁ hd he =>
      refine absurd ?_ (hd.mm_ne hw₁.held.ok)
      rw [hsame.1, hq.out]
  | inr hgone =>
    obtain ⟨hcur, h, D, hmm, hlive, hd⟩ := hgone
    have herase : k'.heap.live = k.heap.live.erase k.currentTask := hd.live.trans (by rw [hlive])
    cases hcalm with
    | quiet hq he => exact absurd (herase.symm.trans hq.live) (List.erase_ne_self hcur)
    | died hq hw₁ hd₁ he =>
      refine .exit hcur ?_ fun t ht hne => ?_
      · show {t | t ∈ k'.heap.live} = {t | t ∈ k.heap.live} \ {k.currentTask}
        rw [herase]
        ext t
        exact hw.held.nodup.2.mem_erase_iff.trans and_comm
      · have ht : t ∈ k.heap.live := ht
        have hu := (hq.untouched t ht).trans (hd₁.untouched hw₁.held hne)
        refine hu.view hw ht fun p m v hp x hx => ?_
        have hsame := hd.sameUser (t := t) (by rw [hmm]; exact hw.held.ok) (by rw [hmm]; exact hw.held.out) hne p m v hp x hx
        rwa [hmm] at hsame

/-! ## fork and the growth of a stack, seen by the others -/

/-- a step for one task is not seen by another -/
theorem Grown.view (hg : Grown q a h own h' own') (hw : World h own q) (ht : t ∈ h.live) (hne : t ≠ a) : h'.view t = h.view t := by
  obtain ⟨N, hs⟩ := hg.step
  exact (hg.untouched hw.held ht hne).view hw ht fun p m v hp x hx => hs.same hw.held hp (.inl hne) hx

theorem Kernel.Step.memories_grew {R : MemoryRules Nat Cell} (hs : Step k k') (hc : Consistent k own q) (hg : k.Grows a)
    (hR : R.extend (k.heap.view k.currentTask) (k'.heap.view k.currentTask)) :
    Memories.Step R k.currentTask k.memories k'.memories := by
  obtain ⟨h', hexp, rfl⟩ := hs.grew hg
  have ha := hc.active (.inr hg.ctl)
  obtain ⟨n, harea⟩ := vmFindStack_area (ha.world.areas _ ha.live) hg.area hg.found
  obtain ⟨own', hgrown⟩ := expandStack_world ha.world ha.live harea hexp
  have ha' : Active (k.setHeap h') own' q := ha.grown hgrown
  have hq := ha'.yieldToUser.quiet
  refine .extend ha.live hR ?_ fun t ht hne => ?_
  · show {t | t ∈ (k.setHeap h').yieldToUser.heap.live} = {t | t ∈ k.heap.live}
    rw [hq.live]
    show {t | t ∈ h'.live} = {t | t ∈ k.heap.live}
    rw [hgrown.live]
  · have ht : t ∈ k.heap.live := ht
    have ht' : t ∈ (k.setHeap h').heap.live := hgrown.live ▸ ht
    exact (hq.views hgrown.world rfl t ht').trans (hgrown.view ha.world ht hne)

/-- the tasks that there are do not see that a child is cloned -/
theorem TaskCloned.view {regs : Cpu} {parent : Nat} (hcl : TaskCloned q regs parent k own k' own' a n) (hw : World k.heap own q)
    (ht : t ∈ k.heap.live) : k'.heap.view t = k.heap.view t := by
  obtain ⟨h₁, own₁, stack, root, k₁, hadd, hclone, hg, hcon, rfl⟩ := hcl.steps
  have ht₁ : t ∈ h₁.live := hadd.live ▸ List.mem_cons_of_mem _ ht
  have hne : t ≠ a := fun e => hadd.fresh (e ▸ ht)
  have hbefore : h₁.view t = k.heap.view t := (hadd.untouched t ht).view hw ht fun p m v hp x hx =>
    hadd.mm.same (hw.held.kept hp) (hw.held.page hp) (Set.notMem_empty _) hx
  have hafter : k₁.heap.view t = h₁.view t := hg.view hadd.world ht₁ hne
  obtain ⟨_, hq⟩ := hg.world.assignFrame a (k₁.task parent).userFrame
  exact ((hq.views hg.world rfl t (hg.live ▸ ht₁)).trans hafter).trans hbefore

theorem Kernel.Step.memories_forked {R : MemoryRules Nat Cell} (hs : Step k k') (hc : Consistent k own q) (hf : k.Forks)
    (hR : ∀ t, k'.heap.live = t :: k.heap.live → R.copy (k.heap.view k.currentTask) (k'.heap.view t)) :
    Memories.Step R k.currentTask k.memories k'.memories := by
  obtain ⟨own', regs, child, n, k₁, hb⟩ := hs.forked hc hf
  have ha := hc.active (.inr hf.1)
  obtain ⟨hfresh, hlive⟩ := hb.cloned.live
  have hlive : k'.heap.live = child :: k.heap.live := by rw [hb.after.live, hlive, hb.before.live]
  have hfresh : child ∉ k.heap.live := hb.before.live ▸ hfresh
  refine .spawn child ha.live hfresh (hR child hlive) ?_ fun t ht => ?_
  · show {t | t ∈ k'.heap.live} = insert child {t | t ∈ k.heap.live}
    rw [hlive]
    ext t
    exact List.mem_cons
  · have ht : t ∈ k.heap.live := ht
    have ht₀ : t ∈ k.callFrame.heap.live := hb.before.live ▸ ht
    have ht₁ : t ∈ k₁.heap.live := by
      rw [hb.cloned.live.2]
      exact List.mem_cons_of_mem _ ht₀
    calc k'.heap.view t = k₁.heap.view t := hb.after.views hb.cloned.world hb.same t ht₁
      _ = k.callFrame.heap.view t := hb.cloned.view hb.active.world ht₀
      _ = k.heap.view t := hb.before.views ha.world rfl t ht

/-! ## runs -/

/-- user code writes what it may write; how stacks grow and what fork copies is left open -/
def openRules : MemoryRules Nat Cell where
  write := Writes
  extend _ _ := True
  copy _ _ := True

/-- each step is a step of the current task, in a system of tasks with memories of their own -/
theorem Kernel.Step.memories_open (hs : Step k k') (hc : Consistent k own q) :
    Memories.Step openRules k.currentTask k.memories k'.memories := by
  by_cases hf : k.Forks
  · exact hs.memories_forked hc hf fun _ _ => trivial
  by_cases hg : ∃ a, k.Grows a
  · obtain ⟨a, hg⟩ := hg
    exact hs.memories_grew hc hg trivial
  exact hs.memories_calm hc (fun _ _ hw => hw) hf fun a ha => hg ⟨a, ha⟩

/-- a run in which only tasks with `P` are current when a step is made -/
theorem Kernel.run_memories {P : Nat → Prop} (hc : Consistent k own q)
    (hs : Relation.ReflTransGen (fun k k' => P k.currentTask ∧ k.Step k') k k') :
    Memories.Run openRules P k.memories k'.memories := by
  induction hs with
  | refl => exact .refl
  | tail hs hstep ih =>
    have hsteps : Steps k _ := Relation.ReflTransGen.mono (fun _ _ h => h.2) _ _ hs
    obtain ⟨_, _, _, hc₁, _⟩ := Steps.consistent hsteps hc
    exact ih.tail ⟨_, hstep.1, hstep.2.memories_open hc₁⟩

/-- **Suspended tasks.**  From any reachable state on, as long as a task is not the current one, nothing that the other tasks, the
interrupts and the kernel do is seen in its memory: each of its addresses keeps its byte and the flags of its page. -/
theorem suspended_memory (hr : k.Reachable) (ht : t ∈ k.heap.live)
    (hs : Relation.ReflTransGen (fun k k' => k.currentTask ≠ t ∧ k.Step k') k k') :
    t ∈ k'.heap.live ∧ k'.heap.view t = k.heap.view t := by
  obtain ⟨k₀, hb, hsteps⟩ := hr
  obtain ⟨own₀, n, ha, hctl, _⟩ := hb.inactive
  obtain ⟨own, q, _, hc, _⟩ := Steps.consistent hsteps (ha.consistent (.inl hctl))
  exact Memories.Run.frame (P := fun a => a ≠ t) (run_memories hc hs) ht fun a hne => hne.symm

/-- the page below `USERSTACK` -/
theorem Active.stackWritable (ha : Active k own q) (ho : k.heap.StackOpen k.currentTask) : ∃ tr,
    UserMapped k.heap k.currentTask stackBegin tr ∧ k.translate stackBegin = some tr ∧ tr.flags &&& pteWrite ≠ 0 := by
  obtain ⟨p, b, hp⟩ := ho
  have hmap := hp stackBegin rfl
  have huser : (stackPteFlags b ||| pteUser) &&& pteUser ≠ 0 := by cases b <;> decide
  have hwrite : (stackPteFlags b ||| pteUser) &&& pteWrite ≠ 0 := by cases b <;> decide
  refine ⟨_, ⟨ha.live, by decide, hmap, huser⟩, ?_, hwrite⟩
  unfold Kernel.translate
  rw [if_pos (by decide), ha.satp]
  exact hmap

/-- the theorem when a task stores a byte to its stack while its child waits, which has a stack at the same address -/
theorem suspended_memory_child : ∃ (k k' : Kernel) (t c x : Nat), k.Reachable ∧ k.currentTask = t ∧ t ≠ c ∧ k.Step k' ∧
    k'.heap.view t x ≠ k.heap.view t x ∧ k.heap.view c x ≠ none ∧ k'.heap.view c = k.heap.view c := by
  obtain ⟨k, own, q, t, c, hf⟩ := first_child
  have ha := hf.two.calling.active
  have hcur := hf.two.current
  obtain ⟨tr, hm, htr, hwrite⟩ := ha.stackWritable (hcur.symm ▸ hf.stack.1)
  obtain ⟨v, hv⟩ : ∃ v : UInt8, v ≠ k.heap.mm.mem (VA tr.pa) := by
    by_cases hz : k.heap.mm.mem (VA tr.pa) = 0
    · exact ⟨1, hz ▸ by decide⟩
    · exact ⟨0, Ne.symm hz⟩
  have hs : k.Step _ := .store stackBegin tr v hf.two.calling.ctl htr hm.user hwrite
  have hne : k.currentTask ≠ c := hcur.symm ▸ hf.two.ne
  refine ⟨k, _, t, c, stackBegin, hf.two.calling.reachable, hcur, hf.two.ne, hs, ?_, ?_,
    (suspended_memory hf.two.calling.reachable hf.two.live.2 (.single ⟨hne, hs⟩)).2⟩
  · rw [← hcur]
    show Heap.view { k.heap with mm := k.heap.mm.write (VA tr.pa) v } k.currentTask stackBegin ≠ _
    rw [ha.world.view_write hm v ha.live, if_pos rfl, Function.update_self, hm.view]
    exact fun he => hv (congrArg Prod.fst (Option.some.inj he))
  · obtain ⟨_, p, flags, _, hleaf, hmap⟩ := hf.stack.2
    rw [(view_eq_some (c := (_, flags))).mpr ⟨by decide, _, hmap stackBegin rfl, hleaf.user, rfl⟩]
    exact Option.some_ne_none _

end FakeKernel
