import FakeKernel.Kernel.Progress
import FakeKernel.Kernel.Turns

/-!
# The serial port in a run of the kernel

* `inputNews`, `putcharBytes`           what the history tells: bytes delivered, answers of getchar, calls of putchar;
* `Wired`, `Heard`                      a stretch of kernel code as steps of the serial port, and what it answers meanwhile;
* `resume_heard`, `Kernel.Step.heard`   one for each kind of step;
* `serial_refined`                      the kernel refines the model of the serial port: getchar answers what was received, and what
                                        putchar was called for is sent.
-/

namespace FakeKernel
open Bytes Mm Heap Kernel

variable {k k' k₁ k₂ : Kernel} {h h' : Heap} {own own' : Owners} {q q' : TaskList → List Nat} {o : Oracle}
  {x : Cpu} {evs : List Event} {t n v : Nat} {th : Thread} {l l' : List InputEvent} {b b' w w' : List UInt8} {s s' : Serial}
  {g group : TaskList}

/-! ## what the history tells -/

/-- of the input: a byte that an interrupt delivered, or the answer of a getchar -/
inductive InputNews where
  | delivered (c : UInt8)
  | answered (v : Nat)
deriving DecidableEq, Repr

def InputEvent.news : InputEvent → InputNews
  | .received c => .delivered c
  | .returned c => .answered c.toNat

/-- the history tells all that happened to the input -/
theorem InputEvent.news_injective : Function.Injective InputEvent.news := by
  intro e e' he
  cases e with
  | received c =>
    cases e' with
    | received c' => exact congrArg _ (InputNews.delivered.inj he)
    | returned c' => exact nomatch he
  | returned c =>
    cases e' with
    | received c' => exact nomatch he
    | returned c' => exact congrArg _ (UInt8.toNat_inj.mp (InputNews.answered.inj he))

/-- `s.1` are the registers with which the tasks go on; `f` looks at those of the trap and at the answer, and `g` at the bytes that
an interrupt delivers -/
def collectStep {β : Type} (f : Cpu → Nat → List β) (g : List UInt8 → List β) (s : (Nat → Option Cpu) × List β) (ev : Event) :
    (Nat → Option Cpu) × List β :=
  (contextStep s.1 ev, match ev with
    | .returned t v => s.2 ++ (s.1 t).elim [] fun x => f x v
    | .received rx => s.2 ++ g rx
    | _ => s.2)

def collect {β : Type} (f : Cpu → Nat → List β) (g : List UInt8 → List β) (evs : List Event) : List β :=
  (evs.foldl (collectStep f g) (fun _ => none, [])).2

/-- the answer of getchar -/
def getcharAnswer (x : Cpu) (v : Nat) : List InputNews := if x.registers REG_A7 = SYS_getchar then [.answered v] else []

/-- the character that putchar was called for -/
def putcharByte (x : Cpu) (_ : Nat) : List UInt8 := if x.registers REG_A7 = SYS_putchar then [UInt8.ofNat (x.registers REG_A0)] else []

/-- the bytes that interrupts delivered and the answers of getchar, in the order in which they came -/
def inputNews (evs : List Event) : List InputNews := collect getcharAnswer (List.map .delivered) evs

/-- the characters of the completed calls of putchar -/
def putcharBytes (evs : List Event) : List UInt8 := collect putcharByte (fun _ => []) evs

/-- no call completes and no byte arrives -/
def Event.Mute : Event → Prop
  | .returned _ _ => False
  | .received _ => False
  | _ => True

theorem foldl_collectStep_fst {β : Type} (f : Cpu → Nat → List β) (g : List UInt8 → List β) (evs : List Event) :
    (evs.foldl (collectStep f g) (fun _ => none, [])).1 = context evs := by
  induction evs using List.reverseRecOn with
  | nil => rfl
  | append_singleton evs ev ih =>
    rw [List.foldl_append, context_snoc, ← ih]
    rfl

theorem collect_snoc {β : Type} (f : Cpu → Nat → List β) (g : List UInt8 → List β) (evs : List Event) (ev : Event) :
    collect f g (evs ++ [ev]) = (collectStep f g (context evs, collect f g evs) ev).2 := by
  unfold collect
  rw [List.foldl_append, ← foldl_collectStep_fst f g evs]
  rfl

theorem collect_returned {β : Type} (f : Cpu → Nat → List β) (g : List UInt8 → List β) (hx : context evs t = some x) (v : Nat) :
    collect f g (evs ++ [.returned t v]) = collect f g evs ++ f x v := by
  rw [collect_snoc]
  show collect f g evs ++ (context evs t).elim [] _ = _
  rw [hx]
  rfl

theorem collect_received {β : Type} (f : Cpu → Nat → List β) (g : List UInt8 → List β) (evs : List Event) (rx : List UInt8) :
    collect f g (evs ++ [.received rx]) = collect f g evs ++ g rx :=
  collect_snoc f g evs _

theorem collect_mute {β : Type} (f : Cpu → Nat → List β) (g : List UInt8 → List β) {ev : Event} (hev : ev.Mute) :
    collect f g (evs ++ [ev]) = collect f g evs := by
  rw [collect_snoc]
  cases ev with
  | returned t v => exact hev.elim
  | received rx => exact hev.elim
  | trapped t cpu => rfl
  | entered t cpu => rfl
  | forked parent child => rfl
  | dispatched n => rfl
  | execve t => rfl

theorem getcharAnswer_of (hid : x.registers REG_A7 = SYS_getchar) (v : Nat) : getcharAnswer x v = [.answered v] := if_pos hid

theorem getcharAnswer_of_ne (hid : x.registers REG_A7 ≠ SYS_getchar) (v : Nat) : getcharAnswer x v = [] := if_neg hid

theorem putcharByte_of (hid : x.registers REG_A7 = SYS_putchar) (v : Nat) : putcharByte x v = [UInt8.ofNat (x.registers REG_A0)] :=
  if_pos hid

theorem putcharByte_of_ne (hid : x.registers REG_A7 ≠ SYS_putchar) (v : Nat) : putcharByte x v = [] := if_neg hid

/-! ## steps of the serial port -/

/-- a stretch of kernel code is a run of the serial port, in which `l` happens to the input and uartputc puts the bytes `b` -/
def Wired (k k' : Kernel) (l : List InputEvent) (b : List UInt8) : Prop := ∀ s : Serial, s.uart = k.uart → s.lists = k.heap.lists →
  ∃ s', Serial.Runs (fun _ _ => True) s s' ∧ s'.uart = k'.uart ∧ s'.lists = k'.heap.lists ∧
    s'.input = s.input ++ l ∧ s'.puts = s.puts ++ b

/-- and the history tells of `l`, and of completed calls of putchar for the bytes `w` -/
structure Heard (k k' : Kernel) (l : List InputEvent) (b w : List UInt8) : Prop where
  port : Wired k k' l b
  told : inputNews k'.trace = inputNews k.trace ++ l.map InputEvent.news
  said : putcharBytes k'.trace = putcharBytes k.trace ++ w
  put : w.Sublist b

theorem Wired.step {op : SerialOp} (hs : Serial.Step s op s') (hu : s'.uart = k'.uart) (hl : s'.lists = k'.heap.lists)
    (hr : s'.input = s.input ++ l) (hp : s'.puts = s.puts ++ b) :
    ∃ s', Serial.Runs (fun _ _ => True) s s' ∧ s'.uart = k'.uart ∧ s'.lists = k'.heap.lists ∧
      s'.input = s.input ++ l ∧ s'.puts = s.puts ++ b :=
  ⟨s', .single ⟨op, trivial, hs⟩, hu, hl, hr, hp⟩

theorem Wired.trans (hw : Wired k k₁ l b) (hw' : Wired k₁ k' l' b') : Wired k k' (l ++ l') (b ++ b') := by
  intro s hu hl
  obtain ⟨s₁, hr₁, hu₁, hl₁, hi₁, hp₁⟩ := hw s hu hl
  obtain ⟨s₂, hr₂, hu₂, hl₂, hi₂, hp₂⟩ := hw' s₁ hu₁ hl₁
  refine ⟨s₂, hr₁.trans hr₂, hu₂, hl₂, ?_, ?_⟩
  · rw [hi₂, hi₁, List.append_assoc]
  · rw [hp₂, hp₁, List.append_assoc]

/-- the serial port is left alone, and so are the tasks that wait for it -/
theorem Wired.silent (hu : k'.uart = k.uart)
    (hlist : ∀ g, g ≠ .tasks → k'.heap.lists.list (.queue g) = k.heap.lists.list (.queue g)) : Wired k k' [] [] := by
  intro s hs hl
  rw [← hl] at hlist
  exact Wired.step (.kernel (hlist .waitIn nofun) (hlist .waitOut nofun)) (hs.trans hu.symm) rfl (List.append_nil _).symm
    (List.append_nil _).symm

theorem Lists.Queue.header {L L' : Lists} {r : ListRef} {ns : List Nat} (hq : L.Queue r ns) (hq' : L'.Queue r ns) :
    L'.list r = L.list r := by
  have hfirst : (L'.list r).first = (L.list r).first := by
    cases ns with
    | nil =>
      have h1 : (L.list r).first = 0 := hq.chain
      have h2 : (L'.list r).first = 0 := hq'.chain
      rw [h1, h2]
    | cons n ns => rw [hq.first_eq, hq'.first_eq]
  have hlast : (L'.list r).last = (L.list r).last := by rw [hq.last, hq'.last]
  cases h1 : L.list r with
  | mk f l =>
    cases h2 : L'.list r with
    | mk f' l' =>
      rw [h1, h2] at hfirst hlast
      obtain rfl : f' = f := hfirst
      obtain rfl : l' = l := hlast
      rfl

/-- what the kernel does with blocks and with the ready list -/
theorem Wired.world (hw : World k.heap own q) (hw' : World k'.heap own' q') (hq : ∀ g, g ≠ .tasks → q' g = q g) (hu : k'.uart = k.uart) :
    Wired k k' [] [] :=
  .silent hu fun g hg => (hw.queues.queue g).header (hq g hg ▸ hw'.queues.queue g)

namespace Heard

theorem trans (hh : Heard k k₁ l b w) (hh' : Heard k₁ k' l' b' w') : Heard k k' (l ++ l') (b ++ b') (w ++ w') := by
  refine ⟨hh.port.trans hh'.port, ?_, ?_, hh.put.append hh'.put⟩
  · rw [hh'.told, hh.told, List.map_append, List.append_assoc]
  · rw [hh'.said, hh.said, List.append_assoc]

/-- no call completes -/
theorem unanswered (hw : Wired k k' [] b) (htr : k'.trace = k.trace) : Heard k k' [] b [] := by
  refine ⟨hw, ?_, ?_, List.nil_sublist b⟩
  · rw [htr, List.map_nil, List.append_nil]
  · rw [htr, List.append_nil]

theorem event {ev : Event} (hw : Wired k k' [] []) (htr : k'.trace = k.trace ++ [ev]) (hev : ev.Mute) : Heard k k' [] [] [] := by
  refine ⟨hw, ?_, ?_, List.nil_sublist _⟩
  · rw [htr, inputNews, collect_mute _ _ hev, List.map_nil, List.append_nil]
    rfl
  · rw [htr, putcharBytes, collect_mute _ _ hev, List.append_nil]
    rfl

/-- bytes arrive -/
theorem received {rx : List UInt8} (hw : Wired k k' (rx.map .received) []) (htr : k'.trace = k.trace ++ [.received rx]) :
    Heard k k' (rx.map .received) [] [] := by
  refine ⟨hw, ?_, ?_, List.nil_sublist _⟩
  · rw [htr, inputNews, collect_received, List.map_map]
    rfl
  · rw [htr, putcharBytes, collect_received]
    rfl

/-- nothing happens that the serial port or a task could notice -/
theorem same (hu : k'.uart = k.uart) (hl : k'.heap.lists = k.heap.lists) (htr : k'.trace = k.trace) : Heard k k' [] [] [] := by
  refine unanswered (.silent hu fun g _ => ?_) htr
  rw [hl]

end Heard

/-! ## the end of a kernel thread -/

theorem setTask_heard (k : Kernel) (t : Nat) (z : Task) : Heard k (k.setTask t z) [] [] [] := .same rfl rfl rfl

theorem returnToUser_heard (k : Kernel) : Heard k k.returnToUser [] [] [] := .event (.silent rfl fun _ _ => rfl) rfl trivial

theorem yieldToUser_heard (k : Kernel) : Heard k k.yieldToUser [] [] [] := .event (.silent rfl fun _ _ => rfl) rfl trivial

theorem sysReturn_heard (hport : Wired k₁ k l b) (htr : k.trace = k₁.trace) (hx : context k.trace k.currentTask = some x) (v : Nat)
    (hl : getcharAnswer x v = l.map InputEvent.news) (hw : putcharByte x v = w) (hb : w.Sublist b) :
    Heard k₁ (k.sysReturn v) l b w := by
  have hport' : Wired k (k.sysReturn v) [] [] := .silent rfl fun _ _ => rfl
  have hret : ∀ {β : Type} (f : Cpu → Nat → List β) (g : List UInt8 → List β),
      collect f g (k.sysReturn v).trace = collect f g k₁.trace ++ f x v := by
    intro β f g
    have hentered : ∀ evs t cpu, collect f g (evs ++ [.entered t cpu]) = collect f g evs := fun _ _ _ => collect_mute f g trivial
    show collect f g ((k.trace ++ [.returned k.currentTask v]) ++ [.entered k.currentTask _]) = _
    rw [hentered, collect_returned f g hx, htr]
  refine ⟨?_, ?_, ?_, hb⟩
  · have h := hport.trans hport'
    rw [List.append_nil, List.append_nil] at h
    exact h
  · rw [inputNews, hret, hl]
    rfl
  · rw [putcharBytes, hret, hw]
    rfl

/-- the call has nothing to do with the serial port -/
theorem sysReturn_elsewhere (hx : context k.trace k.currentTask = some x) (hget : x.registers REG_A7 ≠ SYS_getchar)
    (hput : x.registers REG_A7 ≠ SYS_putchar) (v : Nat) : Heard k (k.sysReturn v) [] [] [] :=
  sysReturn_heard (.silent rfl fun _ _ => rfl) rfl hx v (getcharAnswer_of_ne hget v) (putcharByte_of_ne hput v) (List.nil_sublist _)

theorem wait_heard (hrun : k.wait g th = .ok k') (hs : ∀ s : Serial, s.uart = k.uart → k.currentTaskNode ≠ 0 →
    ∃ op, Serial.Step s op (s.wait g k.currentTaskNode)) : Heard k k' [] [] [] := by
  unfold Kernel.wait at hrun
  obtain ⟨_, hnode, hrun⟩ := Res.bind_eq_ok.mp hrun
  have hnode : k.currentTaskNode ≠ 0 := bne_iff_ne.mp (kassert_eq_ok.mp hnode)
  cases hrun
  refine .unanswered (fun s hu hl => ?_) rfl
  obtain ⟨op, hstep⟩ := hs s hu hnode
  refine Wired.step hstep hu ?_ (List.append_nil _).symm (List.append_nil _).symm
  show s.lists.listPush (.queue g) k.currentTaskNode = k.heap.lists.listPush (.queue g) k.currentTaskNode
  rw [hl]

theorem destroyCurrent_heard (ha : Active k own q) (hrun : k.destroyCurrent = .ok k') : Heard k k' [] [] [] := by
  unfold Kernel.destroyCurrent at hrun
  obtain ⟨h', hdes, hret⟩ := Res.bind_eq_ok.mp hrun
  cases hret
  have hnot : ∀ g, (k.heap.task k.currentTask).sched ∉ q g := ha.node ▸ ha.detached
  obtain ⟨D, hd⟩ := taskDestroy_destroyed ha.world ha.live hnot hdes
  have hw : World (k.setHeap h').leave.heap (own.without k.currentTask) q := hd.world ha.world hnot
  exact .unanswered (.world ha.world hw (fun _ _ => rfl) rfl) rfl

/-! ## the characters of a text -/

theorem put_wired {lsr : List Bool} {c : UInt8} {u : Uart}
    (hput : k.uart.uartputc c lsr = some u ∨ k.uart.uartputcWoken c lsr = some u) : Wired k { k with uart := u } [] [c] := by
  intro s hu hl
  cases hput with
  | inl hput =>
    have hstep : Serial.Step s (.uartputc 0 c lsr) (s.putDone u c) := .put (hu ▸ hput)
    exact Wired.step hstep rfl hl (List.append_nil _).symm rfl
  | inr hput =>
    have hstep : Serial.Step s (.uartputcWoken 0 c lsr) (s.putDone u c) := .putWoken (hu ▸ hput)
    exact Wired.step hstep rfl hl (List.append_nil _).symm rfl

/-- the text is not that of putchar -/
def After.Elsewhere (k : Kernel) : After → Prop
  | .syscall _ => ∃ x, context k.trace k.currentTask = some x ∧ x.registers REG_A7 ≠ SYS_getchar ∧ x.registers REG_A7 ≠ SYS_putchar
  | .fault => True

theorem After.Elsewhere.setUart {after : After} (he : after.Elsewhere k) (u : Uart) : after.Elsewhere { k with uart := u } := by
  cases after with
  | syscall v => exact he
  | fault => trivial

theorem putText_heard {lsr : Nat → List Bool} {text : List UInt8} {after : After} (ha : Active k own q) (he : after.Elsewhere k)
    (hrun : k.putText lsr text after = .ok k') : ∃ b, Heard k k' [] b [] := by
  induction text generalizing k with
  | nil =>
    have hrun : k.finish after = .ok k' := hrun
    cases after with
    | syscall v =>
      cases hrun
      obtain ⟨x, hx, hget, hput⟩ := he
      exact ⟨_, sysReturn_elsewhere hx hget hput v⟩
    | fault => exact ⟨_, destroyCurrent_heard ha hrun⟩
  | cons c text ih =>
    unfold Kernel.putText at hrun
    cases hput : k.uart.uartputc c (lsr text.length) with
    | none =>
      rw [hput] at hrun
      exact ⟨_, wait_heard hrun fun s hu hnode => ⟨_, .putWait (hu ▸ hput) hnode⟩⟩
    | some u =>
      rw [hput] at hrun
      obtain ⟨b, hh⟩ := ih (ha.setUart u) (he.setUart u) hrun
      exact ⟨_, (Heard.unanswered (put_wired (.inl hput)) rfl).trans hh⟩

/-- putchar puts the character that it was called for, and completes -/
theorem putchar_heard {lsr : List Bool} {c : UInt8} {u : Uart} (hx : context k.trace k.currentTask = some x)
    (hid : x.registers REG_A7 = SYS_putchar) (hc : UInt8.ofNat (x.registers REG_A0) = c)
    (hput : k.uart.uartputc c lsr = some u ∨ k.uart.uartputcWoken c lsr = some u) :
    Heard k (Kernel.sysReturn 0 { k with uart := u }) [] [c] [c] := by
  have hport := put_wired hput
  rw [← hc] at hport ⊢
  have hget : x.registers REG_A7 ≠ SYS_getchar := by
    rw [hid]
    decide
  exact sysReturn_heard hport rfl hx 0 (getcharAnswer_of_ne hget 0) (putcharByte_of hid 0) (List.Sublist.refl _)

/-- getchar returns a byte, and the task is answered it -/
theorem read_heard {c : UInt8} {u : Uart} (hx : context k.trace k.currentTask = some x) (hid : x.registers REG_A7 = SYS_getchar)
    (hget : k.uart.getchar = some (c, u)) : Heard k (Kernel.sysReturn c.toNat { k with uart := u }) [.returned c] [] [] := by
  have hport : Wired k { k with uart := u } [.returned c] [] := by
    intro s hu hl
    have hstep : Serial.Step s (.getchar 0) (s.getDone u c) := .get (hu ▸ hget)
    exact Wired.step hstep rfl hl rfl (List.append_nil _).symm
  have hput : x.registers REG_A7 ≠ SYS_putchar := by
    rw [hid]
    decide
  exact sysReturn_heard hport rfl hx c.toNat (getcharAnswer_of hid _) (putcharByte_of_ne hput _) (List.nil_sublist _)

theorem getchar_heard (hx : context k.trace k.currentTask = some x) (hid : x.registers REG_A7 = SYS_getchar)
    (hrun : k.getchar = .ok k') : ∃ l, Heard k k' l [] [] := by
  unfold Kernel.getchar at hrun
  cases hget : k.uart.getchar with
  | none =>
    rw [hget] at hrun
    exact ⟨_, wait_heard hrun fun s hu hnode => ⟨_, .getWait (hu ▸ hget) hnode⟩⟩
  | some cu =>
    obtain ⟨c, u⟩ := cu
    rw [hget] at hrun
    cases hrun
    exact ⟨_, read_heard hx hid hget⟩

theorem sysFork_heard (ha : Active k own q) (hx : context k.trace k.currentTask = some x) (hget : x.registers REG_A7 ≠ SYS_getchar)
    (hput : x.registers REG_A7 ≠ SYS_putchar) (hrun : k.sysFork o = .ok k') : Heard k k' [] [] [] := by
  unfold Kernel.sysFork at hrun
  obtain ⟨⟨child, k₁⟩, hclone, hrun⟩ := Res.bind_eq_ok.mp hrun
  obtain ⟨hgood, own', n, hc⟩ := taskClone_cloned ha.world ha.live hclone
  simp only [hgood, Bool.false_eq_true, if_false] at hrun
  obtain ⟨_, _, _, hk₁⟩ := hc.control
  obtain ⟨hfresh, _⟩ := hc.live
  have hcloned : Heard k k₁ [] [] [] := by
    refine .unanswered (.world ha.world hc.world (fun g hg => ?_) ?_) ?_
    · exact Function.update_of_ne hg _ _
    · rw [hk₁]
    · rw [hk₁]
  have hcur : k₁.currentTask = k.currentTask := by rw [hk₁]
  have htr : k₁.trace = k.trace := by rw [hk₁]
  obtain ⟨k₂, hk₂⟩ : ∃ k₂, k₂ = (k₁.setHeap (k₁.heap.setFrame child ((k₁.task child).userFrame.set REG_A0 0))).log
      (.forked k₁.currentTask child) := ⟨_, rfl⟩
  have hforked : Heard k₁ k₂ [] [] [] := by
    rw [hk₂]
    exact .event (.silent rfl fun _ _ => rfl) rfl trivial
  have hx₂ : context k₂.trace k₂.currentTask = some x := by
    have hne : k.currentTask ≠ child := fun he => hfresh (he ▸ ha.live)
    rw [hk₂]
    show context (k₁.trace ++ [.forked k₁.currentTask child]) k₁.currentTask = some x
    rw [hcur, htr, context_snoc]
    exact (Function.update_of_ne hne _ _).trans hx
  have hret : k' = k₂.sysReturn ((k₁.setHeap (k₁.heap.setFrame child ((k₁.task child).userFrame.set REG_A0 0))).task child).pid := by
    rw [hk₂]
    exact (Except.ok.inj hrun).symm
  rw [hret]
  exact (hcloned.trans hforked).trans (sysReturn_elsewhere hx₂ hget hput _)

/-! ## system calls -/

/-- a task that trapped goes on with the registers of the trap until its call completes -/
theorem context_of_phase {p : Phases} (hp : protocol evs = some p) (ht : p t = .kernel x) : context evs t = some x := by
  induction evs using List.reverseRecOn generalizing p t x with
  | nil =>
    cases hp
    exact nomatch ht
  | append_singleton evs ev ih =>
    unfold protocol at hp
    rw [List.foldlM_append] at hp
    obtain ⟨p₀, hp₀, hp⟩ := Option.bind_eq_some_iff.mp hp
    rw [List.foldlM_cons] at hp
    obtain ⟨p₁, hstep, hret⟩ := Option.bind_eq_some_iff.mp hp
    cases hret
    rw [context_snoc]
    have hother : ∀ {t' ph}, p = Function.update p₀ t' ph → (∀ y, ph ≠ .kernel y) → t ≠ t' ∧ context evs t = some x := by
      rintro t' ph rfl hph
      by_cases he : t = t'
      · rw [he, Function.update_self] at ht
        exact absurd ht (hph x)
      · rw [Function.update_of_ne he] at ht
        exact ⟨he, ih hp₀ ht⟩
    cases ev with
    | trapped t' cpu =>
      unfold protocolStep at hstep
      simp only at hstep
      split at hstep
      · cases hstep
        show Function.update (context evs) t' (some cpu) t = some x
        by_cases he : t = t'
        · rw [he, Function.update_self] at ht ⊢
          cases ht
          rfl
        · rw [Function.update_of_ne he] at ht ⊢
          exact ih hp₀ ht
      · cases hstep
    | returned t' v =>
      unfold protocolStep at hstep
      simp only at hstep
      split at hstep
      · obtain ⟨hne, hc⟩ := hother (Option.some.inj hstep).symm nofun
        exact (Function.update_of_ne hne _ _).trans hc
      · cases hstep
    | entered t' cpu =>
      unfold protocolStep at hstep
      simp only at hstep
      split at hstep
      · cases hstep
      · exact (hother (Option.some.inj hstep).symm nofun).2
    | forked parent child =>
      unfold protocolStep at hstep
      simp only at hstep
      split at hstep
      · split at hstep
        · obtain ⟨hne, hc⟩ := hother (Option.some.inj hstep).symm nofun
          exact (Function.update_of_ne hne _ _).trans hc
        · cases hstep
      · cases hstep
    | dispatched n =>
      cases hstep
      exact ih hp₀ ht
    | execve t' => cases hstep
    | received rx =>
      cases hstep
      exact ih hp₀ ht

theorem scheduleNext_heard (k : Kernel) : Heard k k.scheduleNext [] [] [] := by
  refine .unanswered (.silent rfl fun g hg => ?_) rfl
  show (k.heap.lists.listPush (.queue .tasks) k.currentTaskNode).list (.queue g) = _
  rw [Lists.list_listPush, if_neg fun he => hg (ListRef.queue.inj he)]

theorem syscall_heard (ha : Active k own q) (hx : context k.trace k.currentTask = some x)
    (h7 : (k.task k.currentTask).userFrame.registers REG_A7 = x.registers REG_A7)
    (h0 : (k.task k.currentTask).userFrame.registers REG_A0 = x.registers REG_A0)
    (hexec : x.registers REG_A7 ≠ SYS_execve) (hrun : k.syscall o = .ok k') : ∃ l b w, Heard k k' l b w := by
  unfold Kernel.syscall at hrun
  simp only [h7, h0, hexec, if_false] at hrun
  split at hrun
  · rename_i hid
    obtain ⟨l, hl⟩ := getchar_heard hx hid hrun
    exact ⟨_, _, _, hl⟩
  rename_i hget
  split at hrun
  · rename_i hid
    unfold Kernel.putText at hrun
    rw [List.length_nil] at hrun
    cases hput : k.uart.uartputc (UInt8.ofNat (x.registers REG_A0)) (o.lsr 0) with
    | none =>
      rw [hput] at hrun
      exact ⟨_, _, _, wait_heard hrun fun s hu hnode => ⟨_, .putWait (hu ▸ hput) hnode⟩⟩
    | some u =>
      rw [hput] at hrun
      cases hrun
      exact ⟨_, _, _, putchar_heard hx hid rfl (.inl hput)⟩
  rename_i hput
  split at hrun
  · cases hrun
    exact ⟨_, _, _, sysReturn_elsewhere hx hget hput _⟩
  split at hrun
  · cases hrun
    exact ⟨_, _, _, (setTask_heard k _ _).trans (scheduleNext_heard _)⟩
  split at hrun
  · exact ⟨_, _, _, sysFork_heard ha hx hget hput hrun⟩
  split at hrun
  · exact ⟨_, _, _, destroyCurrent_heard ha hrun⟩
  split at hrun
  · have he : After.Elsewhere k (.syscall 0) := ⟨x, hx, hget, hput⟩
    obtain ⟨b, hb⟩ := putText_heard ha he hrun
    exact ⟨_, _, _, hb⟩
  · cases hrun
    exact ⟨_, _, _, sysReturn_elsewhere hx hget hput _⟩

theorem taskEntryTrap_heard (ha : Active k own q) (hx : context k.trace k.currentTask = some x)
    (h7 : (k.task k.currentTask).userFrame.registers REG_A7 = x.registers REG_A7)
    (h0 : (k.task k.currentTask).userFrame.registers REG_A0 = x.registers REG_A0)
    (hexec : k.scause = 8 → x.registers REG_A7 ≠ SYS_execve) (hrun : k.taskEntryTrap o = .ok k') : ∃ l b w, Heard k k' l b w := by
  unfold Kernel.taskEntryTrap at hrun
  simp only at hrun
  have hfault : k.taskFault o = .ok k' → ∃ l b w, Heard k k' l b w := by
    intro hrun
    have he : After.Elsewhere k .fault := trivial
    obtain ⟨b, hb⟩ := putText_heard ha he hrun
    exact ⟨_, _, _, hb⟩
  split at hrun
  · rename_i hcall
    have hrun : k.callFrame.syscall o = .ok k' := hrun
    have h7' : (k.callFrame.task k.callFrame.currentTask).userFrame.registers REG_A7 = x.registers REG_A7 :=
      (congrFun (callFrame_frame k) REG_A7).trans h7
    have h0' : (k.callFrame.task k.callFrame.currentTask).userFrame.registers REG_A0 = x.registers REG_A0 :=
      (congrFun (callFrame_frame k) REG_A0).trans h0
    obtain ⟨_, _, _, hl⟩ := syscall_heard ha.callFrame.active hx h7' h0' (hexec hcall) hrun
    exact ⟨_, _, _, (setTask_heard k _ _).trans hl⟩
  split at hrun
  · split at hrun
    · obtain ⟨a, hfind, hrun⟩ := Res.bind_eq_ok.mp hrun
      split at hrun
      · rename_i h0
        obtain ⟨h', hexp, hret⟩ := Res.bind_eq_ok.mp hrun
        cases hret
        obtain ⟨_, harea⟩ := vmFindStack_area (ha.world.areas _ ha.live) hfind h0
        obtain ⟨_, hg⟩ := expandStack_world ha.world ha.live harea hexp
        have hgrown : Heard k (k.setHeap h') [] [] [] := .unanswered (.world ha.world hg.world (fun _ _ => rfl) rfl) rfl
        exact ⟨_, _, _, hgrown.trans (yieldToUser_heard _)⟩
      · exact hfault hrun
    · exact hfault hrun
  · exact hfault hrun

theorem resume_heard {p : Phases} (hf : Follows k p) (hk : Contexts k) (ha : Active k own q) (hctl : k.ctl = .thread)
    (hexec : ¬ k.Execve) (hrun : k.resume o = .ok k') : ∃ l b w, Heard k k' l b w := by
  have hs := hf.thread hctl
  unfold Kernel.resume at hrun
  cases hth : (k.task k.currentTask).kernelFrame with
  | taskEntry =>
    rw [hth] at hrun
    cases hrun
    exact ⟨_, _, _, yieldToUser_heard k⟩
  | yieldToUser =>
    rw [hth] at hrun
    obtain ⟨x, hp, hregs⟩ := hf.trapped hk hctl hth
    have h7 := hregs REG_A7 (by decide) (by decide)
    have h0 := hregs REG_A0 (by decide) (by decide)
    exact taskEntryTrap_heard ha (context_of_phase hf.phases hp) h7 h0 (fun h8 hid => hexec ⟨hth, h8, h7.trans hid⟩) hrun
  | sysYield =>
    rw [hth] at hrun hs
    cases hrun
    obtain ⟨x, hp, hid⟩ := hs
    exact ⟨_, _, _, sysReturn_elsewhere (context_of_phase hf.phases hp) (hid ▸ by decide) (hid ▸ by decide) 0⟩
  | getchar =>
    rw [hth] at hrun hs
    obtain ⟨x, hp, hid⟩ := hs
    obtain ⟨l, hl⟩ := getchar_heard (context_of_phase hf.phases hp) hid hrun
    exact ⟨_, _, _, hl⟩
  | putchar c text after =>
    rw [hth] at hrun hs
    simp only at hrun
    cases hput : k.uart.uartputcWoken c (o.lsr text.length) with
    | none =>
      rw [hput] at hrun
      exact ⟨_, _, _, wait_heard hrun fun s hu hnode => ⟨_, .putWokenWait (hu ▸ hput) hnode⟩⟩
    | some u =>
      rw [hput] at hrun
      have hput' : Heard k { k with uart := u } [] [c] [] := .unanswered (put_wired (.inr hput)) rfl
      have htext : after.Elsewhere k → ∃ l b w, Heard k k' l b w := by
        intro he
        obtain ⟨b, hb⟩ := putText_heard (ha.setUart u) (he.setUart u) hrun
        exact ⟨_, _, _, hput'.trans hb⟩
      cases after with
      | fault => exact htext trivial
      | syscall v =>
        obtain ⟨rfl, ⟨x, hp, hid, hc⟩, rfl⟩ | ⟨rfl, x, hp, hid⟩ := (and_or_left.mp hs : _ ∨ _)
        · cases hrun
          exact ⟨_, _, _, putchar_heard (context_of_phase hf.phases hp) hid hc (.inr hput)⟩
        · exact htext ⟨x, context_of_phase hf.phases hp, hid ▸ by decide, hid ▸ by decide⟩
  | interrupted =>
    rw [hth] at hs
    exact hs.elim

/-! ## traps and dispatching -/

theorem trapped_heard (k : Kernel) : Heard k (k.log (.trapped k.currentTask k.cpu)) [] [] [] :=
  .event (.silent rfl fun _ _ => rfl) rfl trivial

/-- what an interrupt delivers -/
def Kernel.Interrupt.input : Interrupt → List InputEvent
  | .timer => []
  | .external irq rx _ => if irq = UART0_IRQ then rx.map .received else []

theorem handleInterrupt_heard {i : Interrupt} {mode : TaskMode} (hrun : k.handleInterrupt i mode = .ok k') :
    Heard k k' i.input [] [] := by
  unfold Kernel.handleInterrupt at hrun
  cases i with
  | timer =>
    simp only at hrun
    split at hrun
    · cases hrun
      exact .same rfl rfl rfl
    · cases mode with
      | supervisor =>
        cases hrun
        exact (setTask_heard k _ _).trans (scheduleNext_heard _)
      | user =>
        cases hrun
        exact (setTask_heard k _ _).trans (scheduleNext_heard _)
  | external irq rx lsr =>
    simp only at hrun
    unfold Kernel.Interrupt.input
    simp only
    split at hrun
    · rename_i hirq
      rw [if_pos hirq]
      obtain ⟨⟨u, L⟩, hintr, hret⟩ := Res.bind_eq_ok.mp hrun
      cases hret
      refine .received (fun s hu hl => ?_) rfl
      rw [← hu, ← hl] at hintr
      exact Wired.step (.intr hintr) rfl rfl rfl (List.append_nil _).symm
    · rename_i hirq
      rw [if_neg hirq]
      split at hrun
      · exact absurd hrun Res.panic_ne_ok
      · cases hrun
        exact .same rfl rfl rfl

theorem userInterrupt_heard {i : Interrupt} (hrun : k.userInterrupt i = .ok k') : Heard k k' i.input [] [] := by
  unfold Kernel.userInterrupt at hrun
  obtain ⟨k₁, hint, hrun⟩ := Res.bind_eq_ok.mp hrun
  obtain ⟨k₀, hk₀⟩ : ∃ k₀, k₀ = { k.log (.trapped k.currentTask k.cpu) with trapframe := trapVector k.cpu k.trapframe } := ⟨_, rfl⟩
  have hint : k₀.handleInterrupt i .user = .ok k₁ := hk₀ ▸ hint
  have hframe : Heard (k.log (.trapped k.currentTask k.cpu)) k₀ [] [] [] := by
    rw [hk₀]
    exact .same rfl rfl rfl
  have htrap := ((trapped_heard k).trans hframe).trans (handleInterrupt_heard hint)
  cases i with
  | timer =>
    cases hrun
    exact htrap
  | external irq rx lsr =>
    cases hrun
    have hend := htrap.trans (returnToUser_heard k₁)
    rw [List.append_nil] at hend
    exact hend

theorem userException_heard (k : Kernel) (code stval : Nat) : Heard k (k.userException code stval) [] [] [] :=
  (trapped_heard k).trans (.same rfl rfl rfl)

theorem doSchedule_heard (hrun : k.doSchedule = .ok k') : Heard k k' [] [] [] := by
  have hdis : Heard k k.dispatch [] [] [] := by
    refine .event (.silent rfl fun g hg => ?_) rfl trivial
    exact Lists.list_listShift_of_ne fun he => hg (ListRef.queue.inj he)
  cases doSchedule_cases hrun with
  | inl hidle =>
    obtain ⟨_, rfl⟩ := hidle
    exact .same rfl rfl rfl
  | inr hrun =>
    obtain ⟨_, ⟨rfl, _⟩ | ⟨rfl, _⟩⟩ := hrun
    · exact hdis.trans (.same rfl rfl rfl)
    · have hframe : Heard k.dispatch { k.dispatch with trapframe := (k.dispatch.task k.dispatch.currentTask).userFrame } [] [] [] :=
        .same rfl rfl rfl
      exact (hdis.trans hframe).trans (returnToUser_heard _)

theorem idleInterrupt_heard {i : Interrupt} {regs : Cpu} (hrun : k.idleInterrupt regs i = .ok k') : Heard k k' i.input [] [] := by
  unfold Kernel.idleInterrupt at hrun
  obtain ⟨k₁, hint, hret⟩ := Res.bind_eq_ok.mp hrun
  cases hret
  have hframe : Heard k { k with trapframe := trapVector regs k.trapframe } [] [] [] := .same rfl rfl rfl
  have hend := (hframe.trans (handleInterrupt_heard hint)).trans (.same rfl rfl rfl : Heard k₁ k₁.schedule [] [] [])
  rw [List.append_nil] at hend
  exact hend

theorem Kernel.Step.heard {p : Phases} (hs : k.Step k') (hf : Follows k p) (hk : Contexts k) (hc : Consistent k own q) :
    ∃ l b w, Heard k k' l b w := by
  cases hs with
  | compute cpu h => exact ⟨_, _, _, .same rfl rfl rfl⟩
  | store va tr b h => exact ⟨_, _, _, .same rfl rfl rfl⟩
  | interrupt i h hrun => exact ⟨_, _, _, userInterrupt_heard hrun⟩
  | exception code stval h => exact ⟨_, _, _, userException_heard k code stval⟩
  | resume o h hexec hrun => exact resume_heard hf hk (hc.active (.inr h)) h hexec hrun
  | schedule h hrun => exact ⟨_, _, _, doSchedule_heard hrun⟩
  | idle regs i h hrun => exact ⟨_, _, _, idleInterrupt_heard hrun⟩

/-! ## runs -/

/-- `s` is the serial port of `k`: it received what interrupts delivered and returned what the calls of getchar answered, one as often
and in the same order as the other, and it has put what the completed calls of putchar were called for, in this order -/
structure PortOf (s : Serial) (k : Kernel) : Prop where
  reachable : s.Reachable
  uart : s.uart = k.uart
  lists : s.lists = k.heap.lists
  told : inputNews k.trace = s.input.map InputEvent.news
  said : (putcharBytes k.trace).Sublist s.puts

theorem PortOf.heard (hs : PortOf s k) (hh : Heard k k' l b w) : ∃ s', PortOf s' k' := by
  obtain ⟨L, hruns⟩ := hs.reachable
  obtain ⟨s', hruns', hu, hl, hin, hp⟩ := hh.port s hs.uart hs.lists
  refine ⟨s', ⟨L, hruns.trans hruns'⟩, hu, hl, ?_, ?_⟩
  · rw [hh.told, hs.told, hin, List.map_append]
  · rw [hh.said, hp]
    exact hs.said.append hh.put

theorem Kernel.Booted.portOf (hb : k.Booted) : ∃ s, PortOf s k := by
  obtain ⟨own, n, ha, _, htr⟩ := hb.inactive
  obtain ⟨k₀, argv, envp, hblank, hrun⟩ := hb
  have huart : k.uart = Uart.init := by
    unfold Kernel.init at hrun
    obtain ⟨_, _, hrun⟩ := Res.bind_eq_ok.mp hrun
    obtain ⟨_, _, hret⟩ := Res.bind_eq_ok.mp hrun
    cases hret
    exact hblank.uart
  have hempty : ∀ g, g ≠ .tasks → k.heap.lists.list (.queue g) = { first := 0, last := 0 } := by
    intro g hg
    have hq : k.heap.lists.Queue (.queue g) [] := by
      have hq := ha.world.queues.queue g
      rw [show pushed (fun _ => []) .tasks n g = [] from Function.update_of_ne hg _ _] at hq
      exact hq
    cases hlist : k.heap.lists.list (.queue g) with
    | mk f l =>
      have h1 := hq.chain
      have h2 := hq.last
      rw [hlist] at h1 h2
      obtain rfl : f = 0 := h1
      obtain rfl : l = 0 := h2
      rfl
  refine ⟨{ Serial.start k.heap.lists with lists := k.heap.lists }, ⟨k.heap.lists, .single ⟨.kernel _, trivial, .kernel ?_ ?_⟩⟩,
    huart.symm, rfl, ?_, ?_⟩
  · rw [hempty .waitIn nofun]
    rfl
  · rw [hempty .waitOut nofun]
    rfl
  · rw [htr]
    rfl
  · rw [htr]
    exact List.nil_sublist _

theorem Kernel.Steps.portOf {p : Phases} (hs : Steps k k') (hf : Follows k p) (hk : Contexts k) (hc : Consistent k own q)
    (hport : PortOf s k) : ∃ s', PortOf s' k' := by
  induction hs with
  | refl => exact ⟨s, hport⟩
  | tail hs hstep ih =>
    obtain ⟨s₁, hport₁⟩ := ih
    obtain ⟨p₁, hf₁⟩ := hf.steps hk hc hs
    obtain ⟨_, _, _, hc₁, _⟩ := Steps.consistent hs hc
    obtain ⟨_, _, _, hh⟩ := hstep.heard hf₁ (hk.steps hc hs) hc₁
    exact hport₁.heard hh

/-- what holds of the serial port in a run -/
structure SerialRefined (k : Kernel) (s : Serial) : Prop where
  /-- calls of uartputc, getchar and uartintr alone lead to the same registers, buffers and wait groups -/
  port : PortOf s k
  /-- the bytes put are those sent and those in the buffer, and the bytes delivered, but for those that found the buffer full, are
  those answered and, behind them, those in the buffer -/
  balanced : ∃ out inp, s.Balanced out inp
  /-- nobody sleeps while the condition holds that he waits for -/
  sound : s.Sound

/-- **The serial port.**  The kernel refines the model of the serial port, whatever tasks, interrupts and the scheduler do: the answers
of getchar are the bytes that interrupts delivered, each once and in this order, and each byte of a completed putchar is sent or waits
in the buffer, put in the order in which the calls completed. -/
theorem serial_refined (hr : k.Reachable) : ∃ s, SerialRefined k s := by
  obtain ⟨k₀, hb, hs⟩ := hr
  obtain ⟨own, n, ha, hctl, _⟩ := hb.inactive
  obtain ⟨s₀, hport₀⟩ := hb.portOf
  obtain ⟨s, hport⟩ := Steps.portOf hs hb.follows hb.contexts (ha.consistent (.inl hctl)) hport₀
  exact ⟨s, hport, hport.reachable.balanced, hport.reachable.sound⟩

/-! ## an echo -/

theorem EntrySteps.heard (he : EntrySteps k k₁ k') : Heard k k' [] [] [] := by
  have hdis : Heard k k₁ [] [] [] := by
    cases he.dispatched with
    | schedule _ hrun => exact doSchedule_heard hrun
    | compute _ h => exact nomatch h.symm.trans he.ctl
    | store _ _ _ h => exact nomatch h.symm.trans he.ctl
    | interrupt _ h => exact nomatch h.symm.trans he.ctl
    | exception _ _ h => exact nomatch h.symm.trans he.ctl
    | resume _ h => exact nomatch h.symm.trans he.ctl
    | idle _ _ h => exact nomatch h.symm.trans he.ctl
  rw [he.entered]
  exact hdis.trans (yieldToUser_heard k₁)

theorem Kernel.Reachable.calling (hr : k.Reachable) (hctl : k.ctl = .user) : ∃ own q, Calling k own q := by
  obtain ⟨own, q, hc⟩ := hr.consistent
  exact ⟨own, q, hr, hctl, hc.active (.inl hctl), (hr.contexts.user hctl).1⟩

theorem Called.heard {cpu : Cpu} (hc : Called k k' own q cpu) (ha : Active k own q) : Heard k k'.callFrame [] [] [] :=
  .event (.world ha.world hc.within.active.world (fun _ _ => rfl) hc.uart) hc.trace trivial

theorem Called.context {cpu : Cpu} (hc : Called k k' own q cpu) : context k'.callFrame.trace k'.callFrame.currentTask = some cpu := by
  have htr : k'.callFrame.trace = k.trace ++ [.trapped k.currentTask cpu] := hc.trace
  rw [htr, hc.within.current, context_snoc]
  exact Function.update_self _ _ _

/-- user code calls getchar while a byte is unread -/
theorem Calling.reads {c : UInt8} {u : Uart} (hk : Calling k own q) (hget : k.uart.getchar = some (c, u)) :
    ∃ k', k'.Reachable ∧ k'.ctl = .user ∧ Heard k k' [.returned c] [] [] := by
  obtain ⟨k₁, hc⟩ := hk.active.called hk.reachable hk.ctl hk.frame { registers := fun _ => SYS_getchar, pc := 0 }
  have hexec : ¬ k₁.Execve := fun he => absurd (hc.calls.id.symm.trans he.2.2) (by decide)
  have hget₁ : k₁.callFrame.uart.getchar = some (c, u) := by
    rw [← hc.uart] at hget
    exact hget
  have hrun : k₁.resume quietOracle = .ok (Kernel.sysReturn c.toNat { k₁.callFrame with uart := u }) := by
    rw [hc.calls.resume]
    unfold syscall
    simp only [hc.calls.callFrame_id]
    show k₁.callFrame.getchar = _
    unfold Kernel.getchar
    rw [hget₁]
  exact ⟨_, hc.reachable.steps (.single (.resume _ hc.ctl hexec hrun)), rfl, (hc.heard hk.active).trans (read_heard hc.context rfl hget₁)⟩

/-- user code calls putchar while the line is idle -/
theorem Calling.writes (hk : Calling k own q) (c : UInt8) : ∃ k', k'.Reachable ∧ k'.ctl = .user ∧ Heard k k' [] [c] [c] := by
  obtain ⟨cpu, hcpu⟩ : ∃ cpu : Cpu, cpu = { registers := fun r => if r = REG_A7 then SYS_putchar else c.toNat, pc := 0 } := ⟨_, rfl⟩
  obtain ⟨k₁, hc⟩ := hk.active.called hk.reachable hk.ctl hk.frame cpu
  have hid : cpu.registers REG_A7 = SYS_putchar := by
    rw [hcpu]
    rfl
  have hbyte : UInt8.ofNat (cpu.registers REG_A0) = c := by
    rw [hcpu]
    exact UInt8.ofNat_toNat
  have hcalls := hc.calls
  rw [hid] at hcalls
  have hexec : ¬ k₁.Execve := fun he => absurd (hcalls.id.symm.trans he.2.2) (by decide)
  obtain ⟨lsr, hlsr⟩ : ∃ lsr : List Bool, lsr = [true] := ⟨_, rfl⟩
  have hput : k₁.callFrame.uart.uartputc c lsr = some (k₁.callFrame.uart.writeThr c) := by
    rw [hlsr]
    rfl
  have hrun : k₁.resume { quietOracle with lsr := fun _ => lsr }
      = .ok (Kernel.sysReturn 0 { k₁.callFrame with uart := k₁.callFrame.uart.writeThr c }) := by
    rw [hcalls.resume]
    have ha0 : (k₁.callFrame.task k₁.callFrame.currentTask).userFrame.registers REG_A0 = cpu.registers REG_A0 :=
      (congrFun (callFrame_frame k₁) REG_A0).trans hc.a0
    unfold syscall
    simp only [hcalls.callFrame_id, ha0, hbyte]
    show k₁.callFrame.putText (fun _ => lsr) [c] (.syscall 0) = _
    unfold Kernel.putText
    rw [hput]
    rfl
  exact ⟨_, hc.reachable.steps (.single (.resume _ hc.ctl hexec hrun)), rfl,
    (hc.heard hk.active).trans (putchar_heard hc.context hid hbyte (.inl hput))⟩

/-- a byte arrives while the first task runs, which reads it and writes it again -/
theorem serial_refined_echo : ∃ (k : Kernel) (s : Serial), k.Reachable ∧ SerialRefined k s ∧
    inputNews k.trace = [.delivered 0x61, .answered 0x61] ∧ s.input = [.received 0x61, .returned 0x61] ∧
    putcharBytes k.trace = [0x61] ∧ [0x61].Sublist s.puts := by
  obtain ⟨k₀, _, k, own, t, ns, hboot, hentry, hf⟩ := user_run initImage_onePage initImage_placed
  have hbooted : k₀.Booted := ⟨bootKernel initImage, initArgv, initEnvp, bootKernel_blank initImage, hboot⟩
  obtain ⟨_, _, _, _, htr₀⟩ := hbooted.inactive
  -- the interrupt
  obtain ⟨k₁, hrun⟩ := hf.active.userInterrupt_returns (i := .external UART0_IRQ [0x61] []) (.inl rfl)
  have hr₁ : k₁.Reachable := hf.reachable.steps (.single (.interrupt _ hf.ctl hrun))
  have hctl₁ : k₁.ctl = .user := by
    obtain ⟨_, _, hret⟩ := Res.bind_eq_ok.mp hrun
    cases hret
    rfl
  have h₁ := hentry.heard.trans (userInterrupt_heard hrun)
  have hinput₁ : Interrupt.input (.external UART0_IRQ [0x61] []) = [.received 0x61] := rfl
  have htold₁ : inputNews k₁.trace = [.delivered 0x61] := by
    rw [h₁.told, hinput₁, htr₀]
    rfl
  have hsaid₁ : putcharBytes k₁.trace = [] := by
    rw [h₁.said, htr₀]
    rfl
  -- it has left the byte unread
  obtain ⟨s₁, hs₁⟩ := serial_refined hr₁
  obtain ⟨out, inp, hb⟩ := hs₁.balanced
  have hnews₁ : s₁.input = [.received 0x61] :=
    List.map_injective_iff.mpr InputEvent.news_injective (hs₁.port.told.symm.trans htold₁)
  have hinp : inp = [0x61] := by
    have hkept := congrArg Prod.fst hb.input
    rw [hnews₁] at hkept
    exact hkept.symm
  have hholds := hb.holds
  rw [hs₁.port.uart, hinp] at hholds
  obtain ⟨u, hget⟩ := hholds.getchar_ready
  -- getchar and putchar
  obtain ⟨_, _, hk₁⟩ := hr₁.calling hctl₁
  obtain ⟨k₂, hr₂, hctl₂, h₂⟩ := hk₁.reads hget
  obtain ⟨_, _, hk₂⟩ := hr₂.calling hctl₂
  obtain ⟨k₃, hr₃, _, h₃⟩ := hk₂.writes 0x61
  obtain ⟨s, hs⟩ := serial_refined hr₃
  have htold : inputNews k₃.trace = [.delivered 0x61, .answered 0x61] := by
    rw [h₃.told, h₂.told, htold₁]
    rfl
  have hsaid : putcharBytes k₃.trace = [0x61] := by
    rw [h₃.said, h₂.said, hsaid₁]
    rfl
  refine ⟨k₃, s, hr₃, hs, htold, ?_, hsaid, hsaid ▸ hs.port.said⟩
  exact List.map_injective_iff.mpr InputEvent.news_injective (hs.port.told.symm.trans htold)

end FakeKernel
