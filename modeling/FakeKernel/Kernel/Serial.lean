import FakeKernel.Kernel.Uart
import FakeKernel.Lib.RingBuffer
import Mathlib.Logic.Relation

/-!
# Runs of the serial port

`Serial` is the driver and its two wait groups, with histories of what went through it.  A step is a
call of uartputc or getchar by some task, up to its return or to the wait in it, an interrupt, or
whatever else the kernel does, which touches neither the buffers nor the two groups.  Kernel code runs
with interrupts off, so the steps are atomic; their order is arbitrary.

* `Uart.Holds`           the two buffers as queues, and one lemma for each function of the driver;
* `serial_output_order`  bytes leave in the order in which they were accepted as long as no byte is
                         written directly while others wait;
* `serial_output_exact`  no byte is lost, sent twice or overwritten;
* `serial_input_fifo`    what is read is what was received and found room;
* `no_lost_wakeup`       a task sleeps on a group only while its condition fails.
-/

namespace FakeKernel

/-! ## the driver -/

namespace Uart

theorem slots_eq {buf : Nat → UInt8} {w r : Nat} {l : List UInt8}
    (h : RingBuffer uartTxBufSize wordCount buf w r l) : slots buf w r = l := by
  have hle := h.length_le
  have hlen : (w + wordCount - r) % wordCount = l.length := by
    have hlt := h.lt
    rw [h.write]
    unfold uartTxBufSize wordCount at *
    omega
  unfold slots
  rw [hlen]
  refine List.ext_getElem? fun i => ?_
  rw [List.getElem?_map]
  by_cases hi : i < l.length
  · rw [List.getElem?_range hi, List.getElem?_eq_getElem hi]
    exact congrArg some (h.slot i _ (List.getElem?_eq_getElem hi))
  · rw [List.getElem?_eq_none (Nat.not_lt.mp hi),
      List.getElem?_eq_none (by rw [List.length_range]; exact Nat.not_lt.mp hi)]
    rfl

/-- the two buffers hold the queues `out` and `inp` -/
structure Holds (u : Uart) (out inp : List UInt8) : Prop where
  out : RingBuffer uartTxBufSize wordCount u.outBuf u.outW u.outR out
  inp : RingBuffer uartTxBufSize wordCount u.inBuf u.inW u.inR inp

variable {u u' : Uart} {out inp : List UInt8} {c : UInt8} {lsr : List Bool}

theorem init_holds : init.Holds [] [] :=
  ⟨RingBuffer.init (by decide), RingBuffer.init (by decide)⟩

namespace Holds

theorem pending (h : u.Holds out inp) : u.pending = out := slots_eq h.out

theorem unread (h : u.Holds out inp) : u.unread = inp := slots_eq h.inp

theorem outFull (h : u.Holds out inp) : u.outFull = true ↔ out.length = uartTxBufSize := by
  unfold Uart.outFull
  rw [beq_iff_eq]
  exact h.out.full_iff (by decide)

theorem inFull (h : u.Holds out inp) : u.inFull = true ↔ inp.length = uartTxBufSize := by
  unfold Uart.inFull
  rw [beq_iff_eq]
  exact h.inp.full_iff (by decide)

theorem outEmpty (h : u.Holds out inp) : u.outW = u.outR ↔ out = [] := h.out.empty_iff (by decide)

theorem inEmpty (h : u.Holds out inp) : u.inR = u.inW ↔ inp = [] := by
  rw [eq_comm]
  exact h.inp.empty_iff (by decide)

theorem writeThr (h : u.Holds out inp) : (u.writeThr c).Holds out inp := ⟨h.out, h.inp⟩

/-- uartstart sends a part of the queue, from its front on -/
theorem uartstart (h : u.Holds out inp) (lsr : List Bool) : ∃ sent rest, out = sent ++ rest ∧
    (uartstart lsr u).Holds rest inp ∧ (uartstart lsr u).thr = u.thr ++ sent ∧
    (uartstart lsr u).outBuf = u.outBuf ∧
    (uartstart lsr u).outR = (u.outR + sent.length) % wordCount := by
  induction lsr generalizing u out with
  | nil => exact ⟨[], out, rfl, h, (List.append_nil _).symm, rfl, (Nat.mod_eq_of_lt h.out.lt).symm⟩
  | cons idle lsr ih =>
    have hstay : ∃ sent rest, out = sent ++ rest ∧ u.Holds rest inp ∧ u.thr = u.thr ++ sent ∧
        u.outBuf = u.outBuf ∧ u.outR = (u.outR + sent.length) % wordCount :=
      ⟨[], out, rfl, h, (List.append_nil _).symm, rfl, (Nat.mod_eq_of_lt h.out.lt).symm⟩
    by_cases hempty : u.outW = u.outR
    · have heq : Uart.uartstart (idle :: lsr) u = u := if_pos hempty
      rw [heq]
      exact hstay
    · cases idle with
      | false =>
        have heq : Uart.uartstart (false :: lsr) u = u := if_neg hempty
        rw [heq]
        exact hstay
      | true =>
        cases out with
        | nil => exact absurd (h.outEmpty.mpr rfl) hempty
        | cons b out =>
          obtain ⟨hslot, hring⟩ := h.out.pop (by decide) (by decide)
          obtain ⟨v, hv⟩ : ∃ v : Uart, v = { u with
              outR := (u.outR + 1) % wordCount
              thr := u.thr ++ [b] } := ⟨_, rfl⟩
          have heq : Uart.uartstart (true :: lsr) u = Uart.uartstart lsr v := by
            rw [hv, ← hslot]
            exact if_neg hempty
          have hnext : v.Holds out inp := by
            rw [hv]
            exact ⟨hring, h.inp⟩
          obtain ⟨sent, rest, rfl, hholds, hthr, hbuf, hr⟩ := ih hnext
          rw [heq]
          refine ⟨b :: sent, rest, rfl, hholds, ?_, ?_, ?_⟩
          · rw [hthr, hv]
            exact (List.append_cons u.thr b sent).symm
          · rw [hbuf, hv]
          · rw [hr, hv, List.length_cons, Nat.mod_add_mod]
            congr 1
            omega

theorem put (h : u.Holds out inp) (hlen : out.length < uartTxBufSize) (lsr : List Bool) :
    ∃ sent rest, out ++ [c] = sent ++ rest ∧ (u.put c lsr).Holds rest inp ∧ (u.put c lsr).thr = u.thr ++ sent ∧
    (u.put c lsr).outBuf = Function.update u.outBuf (u.outW % uartTxBufSize) c ∧
    (u.put c lsr).outR = (u.outR + sent.length) % wordCount := by
  have hpush : Holds { u with
      outBuf := Function.update u.outBuf (u.outW % uartTxBufSize) c
      outW := (u.outW + 1) % wordCount } (out ++ [c]) inp :=
    ⟨h.out.push (by decide) hlen, h.inp⟩
  exact hpush.uartstart lsr

theorem getchar (h : u.Holds out inp) (hrun : u.getchar = some (c, u')) :
    ∃ rest, inp = c :: rest ∧ u'.Holds out rest ∧ u'.thr = u.thr ∧ u'.outBuf = u.outBuf ∧
      u'.outR = u.outR := by
  unfold Uart.getchar at hrun
  by_cases hempty : u.inR = u.inW
  · simp only [hempty, if_true] at hrun
    exact nomatch hrun
  · simp only [hempty, if_false] at hrun
    cases inp with
    | nil => exact absurd (h.inEmpty.mpr rfl) hempty
    | cons b rest =>
      obtain ⟨hslot, hring⟩ := h.inp.pop (by decide) (by decide)
      rw [hslot] at hrun
      cases hrun
      exact ⟨rest, rfl, ⟨h.out, hring⟩, rfl, rfl, rfl⟩

/-- getchar does not wait while a byte is unread -/
theorem getchar_ready (h : u.Holds out (c :: inp)) : ∃ u', u.getchar = some (c, u') := by
  have hne : u.inR ≠ u.inW := fun he => List.cons_ne_nil c inp (h.inEmpty.mp he)
  obtain ⟨hslot, _⟩ := h.inp.pop (by decide) (by decide)
  unfold Uart.getchar
  rw [if_neg hne, hslot]
  exact ⟨_, rfl⟩

theorem receive (h : u.Holds out inp) :
    (u.receive c).Holds out (if inp.length = uartTxBufSize then inp else inp ++ [c]) ∧
      (u.receive c).thr = u.thr ∧ (u.receive c).outBuf = u.outBuf ∧
      (u.receive c).outR = u.outR := by
  have hiff := h.inFull
  unfold Uart.receive
  by_cases hfull : inp.length = uartTxBufSize
  · rw [if_pos hfull, if_pos (hiff.mpr hfull)]
    exact ⟨h, rfl, rfl, rfl⟩
  · rw [if_neg hfull, if_neg fun h' => hfull (hiff.mp h')]
    have hle := h.inp.length_le
    exact ⟨⟨h.out, h.inp.push (by decide) (by omega)⟩, rfl, rfl, rfl⟩

end Holds

end Uart

/-! ## wait groups -/

namespace Lists
variable {L L' : Lists} {group : TaskList} {n : Nat} {r : ListRef}

theorem list_listShift_of_ne (hr : r ≠ .queue group) :
    (L.listShift (.queue group)).2.list r = L.list r := by
  by_cases h0 : (L.list (.queue group)).first = 0
  · rw [listShift_of_empty h0]
  · rw [list_listShift h0, if_neg hr]

/-- wakeup empties the group and touches no other list but the ready list -/
theorem wakeupLoop_list (hrun : wakeupLoop group n L = .ok L') :
    (L'.list (.queue group)).first = 0 ∧
      ∀ r, r ≠ .queue group → r ≠ .queue .tasks → L'.list r = L.list r := by
  induction n generalizing L with
  | zero => exact nomatch hrun
  | succ n ih =>
    unfold wakeupLoop at hrun
    simp only [listShift_fst] at hrun
    by_cases h0 : (L.list (.queue group)).first = 0
    · simp only [h0, if_true] at hrun
      cases hrun
      rw [listShift_of_empty h0]
      exact ⟨h0, fun _ _ _ => rfl⟩
    · simp only [h0, if_false] at hrun
      obtain ⟨hfirst, hother⟩ := ih hrun
      refine ⟨hfirst, fun r hr hr' => ?_⟩
      rw [hother r hr hr', list_listPush, if_neg hr', list_listShift_of_ne hr]

end Lists

/-! ## runs -/

inductive InputEvent where
  | received (c : UInt8)
  | returned (c : UInt8)
deriving DecidableEq, Repr

/-- `puts` and `input` are histories: the bytes whose uartputc has stored or sent them, and what
happened to the input -/
structure Serial where
  uart : Uart
  lists : Lists
  puts : List UInt8
  input : List InputEvent

inductive SerialOp where
  | uartputc (node : Nat) (c : UInt8) (lsr : List Bool)
  | uartputcWoken (node : Nat) (c : UInt8) (lsr : List Bool)
  | getchar (node : Nat)
  | uartintr (rx : List UInt8) (lsr : List Bool)
  | kernel (L : Lists)

namespace Serial

/-- when the kernel is initialized; uart_init has initialized the groups -/
def start (L : Lists) : Serial where
  uart := .init
  lists := (L.listInit (.queue .waitIn)).listInit (.queue .waitOut)
  puts := []
  input := []

def first (group : TaskList) (s : Serial) : Nat := (s.lists.list (.queue group)).first

/-- a task with the sched node `node` goes to sleep -/
def wait (group : TaskList) (node : Nat) (s : Serial) : Serial :=
  { s with lists := s.lists.listPush (.queue group) node }

/-- uartputc returned -/
def putDone (u : Uart) (c : UInt8) (s : Serial) : Serial :=
  { s with uart := u, puts := s.puts ++ [c] }

/-- getchar returned -/
def getDone (u : Uart) (c : UInt8) (s : Serial) : Serial :=
  { s with uart := u, input := s.input ++ [.returned c] }

/-- uartintr returned -/
def interrupted (u : Uart) (L : Lists) (rx : List UInt8) (s : Serial) : Serial :=
  { s with uart := u, lists := L, input := s.input ++ rx.map .received }

inductive Step (s : Serial) : SerialOp → Serial → Prop where
  | put {node c lsr u} (h : s.uart.uartputc c lsr = some u) :
      Step s (.uartputc node c lsr) (s.putDone u c)
  | putWait {node c lsr} (h : s.uart.uartputc c lsr = none) (hn : node ≠ 0) :
      Step s (.uartputc node c lsr) (s.wait .waitOut node)
  | putWoken {node c lsr u} (h : s.uart.uartputcWoken c lsr = some u) :
      Step s (.uartputcWoken node c lsr) (s.putDone u c)
  | putWokenWait {node c lsr} (h : s.uart.uartputcWoken c lsr = none) (hn : node ≠ 0) :
      Step s (.uartputcWoken node c lsr) (s.wait .waitOut node)
  | get {node c u} (h : s.uart.getchar = some (c, u)) : Step s (.getchar node) (s.getDone u c)
  | getWait {node} (h : s.uart.getchar = none) (hn : node ≠ 0) :
      Step s (.getchar node) (s.wait .waitIn node)
  | intr {rx lsr u L} (h : FakeKernel.uartintr rx lsr s.uart s.lists = .ok (u, L)) :
      Step s (.uartintr rx lsr) (s.interrupted u L rx)
  | kernel {L} (hin : L.list (.queue .waitIn) = s.lists.list (.queue .waitIn))
      (hout : L.list (.queue .waitOut) = s.lists.list (.queue .waitOut)) :
      Step s (.kernel L) { s with lists := L }

/-- runs whose steps are all `allowed` -/
def Runs (allowed : Serial → SerialOp → Prop) : Serial → Serial → Prop :=
  Relation.ReflTransGen fun s s' => ∃ op, allowed s op ∧ Step s op s'

/-- a run of any steps -/
def Reachable (s : Serial) : Prop := ∃ L, Runs (fun _ _ => True) (start L) s

/-! ## what one step does -/

/-- the bytes that getchar returned, in this order -/
def returned (l : List InputEvent) : List UInt8 :=
  l.filterMap fun e => match e with
    | .received _ => none
    | .returned c => some c

/-- the received bytes that find room while at most `uartTxBufSize` are unread, and the number of
unread bytes in the end -/
def keep : List UInt8 × Nat → InputEvent → List UInt8 × Nat
  | (l, n), .received c => if n = uartTxBufSize then (l, n) else (l ++ [c], n + 1)
  | (l, n), .returned _ => (l, n - 1)

def kept (l : List InputEvent) : List UInt8 × Nat := l.foldl keep ([], 0)

/-- a byte arrives at a queue that has room for `uartTxBufSize` -/
def offer (l : List UInt8) (c : UInt8) : List UInt8 :=
  if l.length = uartTxBufSize then l else l ++ [c]

variable {s s' : Serial} {op : SerialOp} {out inp : List UInt8}

theorem kept_append (l l' : List InputEvent) : kept (l ++ l') = l'.foldl keep (kept l) :=
  List.foldl_append

theorem returned_append (l l' : List InputEvent) : returned (l ++ l') = returned l ++ returned l' :=
  List.filterMap_append

end Serial

namespace Uart.Holds
variable {u u' : Uart} {out inp : List UInt8} {c : UInt8} {lsr : List Bool}

theorem uartputcWoken_some (h : u.Holds out inp) (hrun : u.uartputcWoken c lsr = some u') :
    ∃ sent rest, out ++ [c] = sent ++ rest ∧ u'.Holds rest inp ∧ u'.thr = u.thr ++ sent ∧
      u'.outR = (u.outR + sent.length) % wordCount := by
  unfold uartputcWoken at hrun
  cases hfull : u.outFull with
  | true =>
    rw [hfull] at hrun
    exact nomatch hrun
  | false =>
    rw [hfull] at hrun
    cases hrun
    have hlen : out.length < uartTxBufSize := by
      have hle := h.out.length_le
      have hne : out.length ≠ uartTxBufSize := fun he => by
        rw [h.outFull.mpr he] at hfull
        exact nomatch hfull
      omega
    obtain ⟨sent, rest, heq, hholds, hthr, _, hr⟩ := h.put hlen lsr
    exact ⟨sent, rest, heq, hholds, hthr, hr⟩

theorem uartputcWoken_none (hrun : u.uartputcWoken c lsr = none) : u.outFull = true := by
  unfold uartputcWoken at hrun
  cases hfull : u.outFull with
  | true => rfl
  | false =>
    rw [hfull] at hrun
    exact nomatch hrun

theorem receiveAll (h : u.Holds out inp) (rx : List UInt8) :
    (rx.foldl Uart.receive u).Holds out (rx.foldl Serial.offer inp) ∧
      (rx.foldl Uart.receive u).thr = u.thr ∧ (rx.foldl Uart.receive u).outR = u.outR := by
  induction rx generalizing u inp with
  | nil => exact ⟨h, rfl, rfl⟩
  | cons c rx ih =>
    obtain ⟨hc, hthr, _, hr⟩ := h.receive (c := c)
    obtain ⟨hholds, hthr', hr'⟩ := ih hc
    exact ⟨hholds, hthr'.trans hthr, hr'.trans hr⟩

end Uart.Holds

def SerialOp.Direct : SerialOp → Prop
  | .uartputc _ _ (true :: _) => True
  | _ => False

namespace Serial
variable {s s' : Serial} {op : SerialOp} {out inp : List UInt8}

theorem returned_received (rx : List UInt8) : returned (rx.map InputEvent.received) = [] := by
  induction rx with
  | nil => rfl
  | cons c rx ih => exact ih

theorem keep_offer (l inp : List UInt8) (c : UInt8) :
    keep (l ++ inp, inp.length) (.received c) = (l ++ offer inp c, (offer inp c).length) := by
  unfold keep offer
  by_cases hfull : inp.length = uartTxBufSize
  · simp only [hfull, if_true]
  · simp only [hfull, if_false, List.append_assoc, List.length_append, List.length_singleton]

theorem keep_foldl (l inp rx : List UInt8) : (rx.map InputEvent.received).foldl keep
    (l ++ inp, inp.length) = (l ++ rx.foldl offer inp, (rx.foldl offer inp).length) := by
  induction rx generalizing inp with
  | nil => rfl
  | cons c rx ih =>
    rw [List.map_cons, List.foldl_cons, keep_offer, ih, List.foldl_cons]

/-- what a step does to the output: it accepts the bytes `put`, sends `sent` -/
structure Output (s s' : Serial) (op : SerialOp) (out put sent out' : List UInt8) : Prop where
  puts : s'.puts = s.puts ++ put
  thr : s'.uart.thr = s.uart.thr ++ sent
  queue : (out ++ put = sent ++ out' ∧ s'.uart.outR = (s.uart.outR + sent.length) % wordCount) ∨
    (op.Direct ∧ put = sent ∧ out' = out ∧ s'.uart.outR = s.uart.outR)

theorem Output.none (h : s.uart.Holds out inp) (hputs : s'.puts = s.puts)
    (hthr : s'.uart.thr = s.uart.thr) (hr : s'.uart.outR = s.uart.outR) :
    Output s s' op out [] [] out where
  puts := by rw [hputs, List.append_nil]
  thr := by rw [hthr, List.append_nil]
  queue := .inl ⟨List.append_nil out, by rw [hr]; exact (Nat.mod_eq_of_lt h.out.lt).symm⟩

/-- what a step does to the input -/
def Input (s s' : Serial) (inp inp' : List UInt8) : Prop :=
  (s'.input = s.input ∧ inp' = inp) ∨ (∃ c, s'.input = s.input ++ [.returned c] ∧ inp = c :: inp') ∨
    ∃ rx : List UInt8, s'.input = s.input ++ rx.map .received ∧ inp' = rx.foldl offer inp

theorem Step.effect (h : s.uart.Holds out inp) (hs : Step s op s') : ∃ put sent out' inp',
    s'.uart.Holds out' inp' ∧ Output s s' op out put sent out' ∧ Input s s' inp inp' := by
  cases hs with
  | @put node c lsr u hrun =>
    unfold Uart.uartputc at hrun
    split at hrun
    · cases hrun
      exact ⟨[c], [c], out, inp, h.writeThr, ⟨rfl, rfl, .inr ⟨trivial, rfl, rfl, rfl⟩⟩, .inl ⟨rfl, rfl⟩⟩
    · obtain ⟨sent, rest, heq, hholds, hthr, hr⟩ := h.uartputcWoken_some hrun
      exact ⟨[c], sent, rest, inp, hholds, ⟨rfl, hthr, .inl ⟨heq, hr⟩⟩, .inl ⟨rfl, rfl⟩⟩
  | @putWoken node c lsr u hrun =>
    obtain ⟨sent, rest, heq, hholds, hthr, hr⟩ := h.uartputcWoken_some hrun
    exact ⟨[c], sent, rest, inp, hholds, ⟨rfl, hthr, .inl ⟨heq, hr⟩⟩, .inl ⟨rfl, rfl⟩⟩
  | putWait _ _ => exact ⟨[], [], out, inp, h, .none h rfl rfl rfl, .inl ⟨rfl, rfl⟩⟩
  | putWokenWait _ _ => exact ⟨[], [], out, inp, h, .none h rfl rfl rfl, .inl ⟨rfl, rfl⟩⟩
  | getWait _ _ => exact ⟨[], [], out, inp, h, .none h rfl rfl rfl, .inl ⟨rfl, rfl⟩⟩
  | kernel _ _ => exact ⟨[], [], out, inp, h, .none h rfl rfl rfl, .inl ⟨rfl, rfl⟩⟩
  | @get node c u hrun =>
    obtain ⟨rest, heq, hholds, hthr, _, hr⟩ := h.getchar hrun
    exact ⟨[], [], out, rest, hholds, .none h rfl hthr hr, .inr (.inl ⟨c, rfl, heq⟩)⟩
  | @intr rx lsr u L hrun =>
    unfold uartintr at hrun
    obtain ⟨L₁, _, hrun⟩ := Res.bind_eq_ok.mp hrun
    obtain ⟨L₂, _, hret⟩ := Res.bind_eq_ok.mp hrun
    cases hret
    obtain ⟨hholds, hthr, hr⟩ := h.receiveAll rx
    obtain ⟨sent, rest, heq, hholds', hthr', _, hr'⟩ := hholds.uartstart lsr
    refine ⟨[], sent, rest, rx.foldl offer inp, hholds', ⟨?_, ?_, .inl ⟨?_, ?_⟩⟩, .inr (.inr ⟨rx, rfl, rfl⟩)⟩
    · exact (List.append_nil _).symm
    · exact hthr'.trans (by rw [hthr])
    · rw [List.append_nil, heq]
    · exact hr'.trans (by rw [hr])

/-! ## invariants -/

/-- the histories agree with the buffers -/
structure Balanced (s : Serial) (out inp : List UInt8) : Prop where
  holds : s.uart.Holds out inp
  output : s.puts.Perm (s.uart.thr ++ out)
  input : kept s.input = (returned s.input ++ inp, inp.length)

theorem start_balanced (L : Lists) : (start L).Balanced [] [] := ⟨Uart.init_holds, .nil, rfl⟩

theorem Output.perm {put sent out' : List UInt8} (ho : Output s s' op out put sent out')
    (h : s.puts.Perm (s.uart.thr ++ out)) : s'.puts.Perm (s'.uart.thr ++ out') := by
  rw [ho.puts, ho.thr, List.append_assoc]
  cases ho.queue with
  | inl hqueue =>
    rw [← hqueue.1, ← List.append_assoc]
    exact h.append_right put
  | inr hdirect =>
    obtain ⟨_, rfl, rfl, _⟩ := hdirect
    refine (h.append_right put).trans ?_
    rw [List.append_assoc]
    exact List.perm_append_comm.append_left s.uart.thr

theorem Input.kept {inp' : List UInt8} (hi : Input s s' inp inp')
    (h : kept s.input = (returned s.input ++ inp, inp.length)) :
    Serial.kept s'.input = (returned s'.input ++ inp', inp'.length) := by
  rcases hi with ⟨he, rfl⟩ | ⟨c, he, rfl⟩ | ⟨rx, he, rfl⟩
  · rw [he, h]
  · rw [he, kept_append, returned_append, h]
    show (returned s.input ++ c :: inp', inp'.length + 1 - 1) = (returned s.input ++ [c] ++ inp', _)
    rw [List.append_assoc]
    rfl
  · rw [he, kept_append, returned_append, h, keep_foldl, returned_received, List.append_nil]

theorem Balanced.step (h : s.Balanced out inp) (hs : Step s op s') :
    ∃ out' inp', s'.Balanced out' inp' := by
  obtain ⟨put, sent, out', inp', hholds, ho, hi⟩ := hs.effect h.holds
  exact ⟨out', inp', hholds, ho.perm h.output, hi.kept h.input⟩

theorem Reachable.balanced (h : s.Reachable) : ∃ out inp, s.Balanced out inp := by
  obtain ⟨L, hrun⟩ := h
  induction hrun with
  | refl => exact ⟨[], [], start_balanced L⟩
  | tail _ hstep ih =>
    obtain ⟨out, inp, hb⟩ := ih
    obtain ⟨op, _, hs⟩ := hstep
    exact hb.step hs

/-- nobody sleeps on a group whose condition holds -/
structure Sound (s : Serial) : Prop where
  input : s.first .waitIn ≠ 0 → s.uart.inR = s.uart.inW
  output : s.first .waitOut ≠ 0 → s.uart.outFull = true

theorem uartstart_input (lsr : List Bool) (u : Uart) :
    (Uart.uartstart lsr u).inR = u.inR ∧ (Uart.uartstart lsr u).inW = u.inW := by
  induction lsr generalizing u with
  | nil => exact ⟨rfl, rfl⟩
  | cons idle lsr ih =>
    unfold Uart.uartstart
    split
    · exact ⟨rfl, rfl⟩
    · split
      · exact ih _
      · exact ⟨rfl, rfl⟩

theorem first_wait {group g : TaskList} {node : Nat} (hg : g ≠ group) :
    (s.wait group node).first g = s.first g := by
  show ((s.lists.listPush (.queue group) node).list (.queue g)).first = _
  rw [Lists.list_listPush, if_neg fun he => hg (ListRef.queue.inj he)]
  rfl

theorem Sound.putWoken (h : s.Sound) {c : UInt8} {lsr : List Bool} {u : Uart}
    (hrun : s.uart.uartputcWoken c lsr = some u) : (s.putDone u c).Sound := by
  unfold Uart.uartputcWoken at hrun
  cases hfull : s.uart.outFull with
  | true =>
    rw [hfull] at hrun
    exact nomatch hrun
  | false =>
    rw [hfull] at hrun
    cases hrun
    refine ⟨fun hne => ?_, fun hne => ?_⟩
    · obtain ⟨hr, hw⟩ := uartstart_input lsr { s.uart with
        outBuf := Function.update s.uart.outBuf (s.uart.outW % uartTxBufSize) c
        outW := (s.uart.outW + 1) % wordCount }
      exact hr.trans ((h.input hne).trans hw.symm)
    · rw [h.output hne] at hfull
      exact nomatch hfull

theorem Sound.putWait (h : s.Sound) (hfull : s.uart.outFull = true) (node : Nat) :
    (s.wait .waitOut node).Sound where
  input := fun hne => h.input (by rwa [first_wait (by decide)] at hne)
  output := fun _ => hfull

theorem Sound.step (h : s.Sound) (hs : Step s op s') : s'.Sound := by
  cases hs with
  | put hrun =>
    unfold Uart.uartputc at hrun
    split at hrun
    · cases hrun
      exact ⟨h.input, h.output⟩
    · exact h.putWoken hrun
  | putWoken hrun => exact h.putWoken hrun
  | @putWait node c lsr hrun _ =>
    unfold Uart.uartputc at hrun
    split at hrun
    · exact nomatch hrun
    · exact h.putWait (Uart.Holds.uartputcWoken_none hrun) node
  | @putWokenWait node c lsr hrun _ => exact h.putWait (Uart.Holds.uartputcWoken_none hrun) node
  | get hrun =>
    unfold Uart.getchar at hrun
    split at hrun
    · exact nomatch hrun
    · rename_i hne
      cases hrun
      exact ⟨fun hsleep => absurd (h.input hsleep) hne, h.output⟩
  | getWait hrun _ =>
    unfold Uart.getchar at hrun
    split at hrun
    · rename_i heq
      refine ⟨fun _ => heq, fun hne => h.output ?_⟩
      rwa [first_wait (by decide)] at hne
    · exact nomatch hrun
  | @intr rx lsr u L hrun =>
    unfold uartintr at hrun
    obtain ⟨L₁, hin, hrun⟩ := Res.bind_eq_ok.mp hrun
    obtain ⟨L₂, hout, hret⟩ := Res.bind_eq_ok.mp hrun
    cases hret
    obtain ⟨hr, hw⟩ := uartstart_input lsr (rx.foldl Uart.receive s.uart)
    have hin₂ : L.list (.queue .waitIn) = L₁.list (.queue .waitIn) := by
      split at hout
      · cases hout
        rfl
      · exact (Lists.wakeupLoop_list hout).2 _ (by decide) (by decide)
    refine ⟨fun hne => ?_, fun hne => ?_⟩
    · have hne₁ : (L₁.list (.queue .waitIn)).first ≠ 0 := by
        rw [← hin₂]
        exact hne
      split at hin
      · rename_i hrx
        cases hin
        rw [hrx] at hr hw ⊢
        exact hr.trans ((h.input hne₁).trans hw.symm)
      · exact absurd (Lists.wakeupLoop_list hin).1 hne₁
    · split at hout
      · rename_i hfull
        exact hfull
      · exact absurd (Lists.wakeupLoop_list hout).1 hne
  | kernel hin hout =>
    refine ⟨fun hne => h.input ?_, fun hne => h.output ?_⟩
    · unfold first at *
      rwa [← hin]
    · unfold first at *
      rwa [← hout]

theorem start_sound (L : Lists) : (start L).Sound := by
  have hout : ((start L).lists.list (.queue .waitOut)) = { first := 0, last := 0 } := by
    show (Lists.listInit _ _).list _ = _
    unfold Lists.listInit
    simp
  have hin : ((start L).lists.list (.queue .waitIn)) = { first := 0, last := 0 } := by
    show (Lists.listInit _ _).list _ = _
    unfold Lists.listInit
    simp
  refine ⟨fun hne => absurd ?_ hne, fun hne => absurd ?_ hne⟩
  · unfold first
    rw [hin]
  · unfold first
    rw [hout]

/-! ## results -/

theorem Reachable.sound (h : s.Reachable) : s.Sound := by
  obtain ⟨L, hrun⟩ := h
  induction hrun with
  | refl => exact start_sound L
  | tail _ hstep ih =>
    obtain ⟨op, _, hs⟩ := hstep
    exact ih.step hs

/-- a byte is written to THR directly only while none waits in the buffer -/
def Orderly (s : Serial) : SerialOp → Prop
  | .uartputc _ _ (true :: _) => s.uart.outW = s.uart.outR
  | _ => True

theorem Balanced.ordered (h : s.Balanced out inp) (hord : s.puts = s.uart.thr ++ out)
    (ha : s.Orderly op) (hs : Step s op s') :
    ∃ out' inp', s'.Balanced out' inp' ∧ s'.puts = s'.uart.thr ++ out' := by
  obtain ⟨put, sent, out', inp', hholds, ho, hi⟩ := hs.effect h.holds
  refine ⟨out', inp', ⟨hholds, ho.perm h.output, hi.kept h.input⟩, ?_⟩
  rw [ho.puts, ho.thr, hord, List.append_assoc, List.append_assoc]
  cases ho.queue with
  | inl hqueue => rw [hqueue.1]
  | inr hdirect =>
    obtain ⟨hd, rfl, rfl, _⟩ := hdirect
    have hempty : out' = [] := by
      cases op with
      | uartputc node c lsr =>
        cases lsr with
        | nil => exact nomatch hd
        | cons idle lsr =>
          cases idle with
          | false => exact nomatch hd
          | true => exact h.holds.outEmpty.mp ha
      | uartputcWoken _ _ _ => exact nomatch hd
      | getchar _ => exact nomatch hd
      | uartintr _ _ => exact nomatch hd
      | kernel _ => exact nomatch hd
    rw [hempty, List.nil_append, List.append_nil]

/-- **Output order.**  In every run in which uartputc writes to THR directly only while the buffer is
empty, the bytes sent so far and then the bytes that wait are the bytes that were accepted, in the
order in which they were accepted. -/
theorem serial_output_order {L : Lists} (h : Runs Orderly (start L) s) :
    s.uart.thr ++ s.uart.pending = s.puts := by
  have hinv : ∃ out inp, s.Balanced out inp ∧ s.puts = s.uart.thr ++ out := by
    induction h with
    | refl => exact ⟨[], [], start_balanced L, rfl⟩
    | tail _ hstep ih =>
      obtain ⟨out, inp, hb, hord⟩ := ih
      obtain ⟨op, ha, hs⟩ := hstep
      exact hb.ordered hord ha hs
  obtain ⟨out, inp, hb, hord⟩ := hinv
  rw [hord, hb.holds.pending]

def emptyLists : Lists where
  node := fun _ => { value := 0, list := none, prev := 0, next := 0 }
  list := fun _ => { first := 0, last := 0 }

/-- a byte that finds the line idle and nothing that waits -/
theorem serial_output_order_direct : ∃ s, Runs Orderly (start emptyLists) s ∧ s.puts = [0x61] ∧
    s.uart.thr ++ s.uart.pending = s.puts := by
  have hrun : Runs Orderly (start emptyLists)
      ((start emptyLists).putDone (Uart.init.writeThr 0x61) 0x61) :=
    .single ⟨.uartputc 4 0x61 [true], rfl, .put rfl⟩
  exact ⟨_, hrun, rfl, serial_output_order hrun⟩

/-- the second of two bytes overtakes the first when the line becomes idle between the calls -/
theorem serial_output_overtakes : ∃ s, Reachable s ∧ s.puts = [0x61, 0x62] ∧
    s.uart.thr = [0x62] ∧ s.uart.thr ++ s.uart.pending ≠ s.puts := by
  obtain ⟨u, hu⟩ : ∃ u, u = Uart.init.put 0x61 [] := ⟨_, rfl⟩
  have hfirst : Step (start emptyLists) (.uartputc 4 0x61 [false])
      ((start emptyLists).putDone u 0x61) := .put (by rw [hu]; rfl)
  have hsecond : Step ((start emptyLists).putDone u 0x61) (.uartputc 4 0x62 [true])
      (((start emptyLists).putDone u 0x61).putDone (u.writeThr 0x62) 0x62) := .put rfl
  refine ⟨_, ⟨emptyLists, .tail (.single ⟨_, trivial, hfirst⟩) ⟨_, trivial, hsecond⟩⟩, rfl, ?_, ?_⟩
  · rw [hu]
    rfl
  · rw [hu]
    decide

/-- the first `k` bytes that wait are sent, and no slot behind them is written -/
def Advances (u u' : Uart) (k : Nat) : Prop :=
  u'.outR = (u.outR + k) % wordCount ∧
    ∀ i, k ≤ i → i < u.pending.length →
      u'.outBuf ((u.outR + i) % uartTxBufSize) = u.outBuf ((u.outR + i) % uartTxBufSize)

theorem Output.advances {put sent out' inp' : List UInt8} (ho : Output s s' op out put sent out')
    (h : s.uart.Holds out inp) (h' : s'.uart.Holds out' inp') :
    (sent <+: out ++ put ∧ Advances s.uart s'.uart sent.length) ∨
      (op.Direct ∧ sent = put ∧ Advances s.uart s'.uart 0) := by
  unfold Advances
  rw [h.pending]
  cases ho.queue with
  | inl hqueue =>
    obtain ⟨heq, hr⟩ := hqueue
    refine .inl ⟨⟨out', heq.symm⟩, hr, fun i hk hi => ?_⟩
    have hget : out[i]? = out'[i - sent.length]? := by
      have hput : (out ++ put)[i]? = out[i]? := List.getElem?_append_left hi
      rw [← hput, heq, List.getElem?_append_right hk]
    have hx := List.getElem?_eq_getElem hi
    have hslot := h'.out.slot (i - sent.length) _ (hget.symm.trans hx)
    have hmod : (s'.uart.outR + (i - sent.length)) % uartTxBufSize
        = (s.uart.outR + i) % uartTxBufSize := by
      rw [hr]
      unfold wordCount uartTxBufSize
      omega
    rw [h.out.slot i _ hx, ← hmod, hslot]
  | inr hdirect =>
    obtain ⟨hd, hsent, rfl, hr⟩ := hdirect
    refine .inr ⟨hd, hsent.symm, ?_, fun i _ hi => ?_⟩
    · rw [hr]
      exact (Nat.mod_eq_of_lt h.out.lt).symm
    · have hx := List.getElem?_eq_getElem hi
      rw [h.out.slot i _ hx, ← hr, h'.out.slot i _ hx]

/-- **Output is exact.**  In every run, whatever the line does: the counters are at most
`uartTxBufSize` apart (modulo 2^64), and the bytes that were accepted are those that were sent and
those that wait.  What a step sends is a part of what waits, from its front on, or the byte of a call
that found the line idle, and no slot that it leaves unsent is overwritten. -/
theorem serial_output_exact (h : s.Reachable) :
    s.uart.outW = (s.uart.outR + s.uart.pending.length) % wordCount ∧
    s.uart.pending.length ≤ uartTxBufSize ∧
    s.puts.Perm (s.uart.thr ++ s.uart.pending) ∧
    ∀ op s', Step s op s' → ∃ put sent, s'.puts = s.puts ++ put ∧ s'.uart.thr = s.uart.thr ++ sent ∧
      ((sent <+: s.uart.pending ++ put ∧ Advances s.uart s'.uart sent.length) ∨
        (op.Direct ∧ sent = put ∧ Advances s.uart s'.uart 0)) := by
  obtain ⟨out, inp, hb⟩ := h.balanced
  rw [hb.holds.pending]
  refine ⟨hb.holds.out.write, hb.holds.out.length_le, hb.output, fun op s' hs => ?_⟩
  obtain ⟨put, sent, out', inp', hholds, ho, _⟩ := hs.effect hb.holds
  exact ⟨put, sent, ho.puts, ho.thr, ho.advances hb.holds hholds⟩

theorem start_reachable (L : Lists) : (start L).Reachable := ⟨L, .refl⟩

/-- nobody sleeps and both counters of the output buffer are `n` -/
def Idle (n : Nat) (s : Serial) : Prop :=
  s.first .waitIn = 0 ∧ s.first .waitOut = 0 ∧ s.uart.outW = n ∧ s.uart.outR = n

theorem outFull_of_eq {u : Uart} (h : u.outW = u.outR) (hr : u.outR < wordCount) :
    u.outFull = false := by
  have hne : u.outR ≠ (u.outR + uartTxBufSize) % wordCount := by
    have hlt : u.outR < 2 ^ 64 := hr
    unfold uartTxBufSize wordCount
    omega
  unfold Uart.outFull
  rw [h]
  exact beq_eq_false_iff_ne.mpr hne

theorem uartputc_busy {u : Uart} (h : u.outFull = false) (c : UInt8) :
    u.uartputc c [false] = some (u.put c []) := by
  unfold Uart.uartputc Uart.uartputcWoken
  rw [h]
  rfl

theorem wakeup_empty {group : TaskList} {L : Lists} (h : (L.list (.queue group)).first = 0) :
    L.wakeup group = .ok L := by
  show Lists.wakeupLoop group (wordCount - 1 + 1) L = _
  unfold Lists.wakeupLoop
  rw [Lists.listShift_of_empty h]
  rfl

/-- an interrupt while nobody sleeps that leaves room -/
theorem uartintr_quiet {rx : List UInt8} {lsr : List Bool} {u : Uart} {L : Lists}
    (hin : (L.list (.queue .waitIn)).first = 0) (hout : (L.list (.queue .waitOut)).first = 0)
    (h : (Uart.uartstart lsr (rx.foldl Uart.receive u)).outFull = false) :
    FakeKernel.uartintr rx lsr u L = .ok (Uart.uartstart lsr (rx.foldl Uart.receive u), L) := by
  have hwake : (if rx = [] then .ok L else L.wakeup .waitIn) = (.ok L : Res Lists) := by
    split
    · rfl
    · exact wakeup_empty hin
  unfold FakeKernel.uartintr
  simp only [hwake, Res.ok_bind, h, Bool.false_eq_true, if_false, wakeup_empty hout]

/-- two bytes find the line busy, and the first is sent at the next interrupt -/
theorem serial_output_exact_sent : ∃ s, Reachable s ∧ s.puts = [0x61, 0x62] ∧ s.uart.thr = [0x61] ∧
    s.uart.pending = [0x62] ∧ s.puts.Perm (s.uart.thr ++ s.uart.pending) ∧
    ∀ op s', Step s op s' → s'.puts = s.puts → ∃ sent, s'.uart.thr = s.uart.thr ++ sent ∧
      sent <+: [0x62] := by
  obtain ⟨u, hu⟩ : ∃ u, u = Uart.init.put 0x61 [] := ⟨_, rfl⟩
  obtain ⟨v, hv⟩ : ∃ v, v = u.put 0x62 [] := ⟨_, rfl⟩
  obtain ⟨w, hw⟩ : ∃ w, w = Uart.uartstart [true] v := ⟨_, rfl⟩
  have hfirst : Uart.init.uartputc 0x61 [false] = some u := by
    rw [hu]
    exact uartputc_busy (by decide) 0x61
  have hsecond : u.uartputc 0x62 [false] = some v := by
    rw [hv]
    exact uartputc_busy (by rw [hu]; decide) 0x62
  have hintr : FakeKernel.uartintr [] [true] v (start emptyLists).lists
      = .ok (w, (start emptyLists).lists) := by
    rw [hw]
    exact uartintr_quiet (by decide) (by decide) (by rw [hv, hu]; decide)
  have hrun₁ : Runs (fun _ _ => True) (start emptyLists) ((start emptyLists).putDone u 0x61) :=
    .single ⟨.uartputc 4 0x61 [false], trivial, .put hfirst⟩
  have hrun₂ : Runs (fun _ _ => True) (start emptyLists)
      (((start emptyLists).putDone u 0x61).putDone v 0x62) :=
    hrun₁.tail ⟨.uartputc 4 0x62 [false], trivial, .put hsecond⟩
  have hrun : ((((start emptyLists).putDone u 0x61).putDone v 0x62).interrupted w
      (start emptyLists).lists []).Reachable :=
    ⟨emptyLists, hrun₂.tail ⟨.uartintr [] [true], trivial, .intr hintr⟩⟩
  have hthr : w.thr = [0x61] := by
    rw [hw, hv, hu]
    rfl
  have hpending : w.pending = [0x62] := by
    rw [hw, hv, hu]
    decide
  obtain ⟨_, _, hperm, hstep⟩ := serial_output_exact hrun
  refine ⟨_, hrun, rfl, hthr, hpending, hperm, fun op s' hs hputs => ?_⟩
  obtain ⟨put, sent, hput, hsent, hcase⟩ := hstep op s' hs
  have hnone : put = [] := by
    rw [hputs] at hput
    exact List.append_right_eq_self.mp hput.symm
  rw [hnone, List.append_nil] at hcase
  refine ⟨sent, hsent, ?_⟩
  rcases hcase with ⟨hfront, _⟩ | ⟨_, rfl, _⟩
  · rw [← hpending]
    exact hfront
  · exact List.nil_prefix

/-- one byte goes through the buffer -/
theorem Idle.round {n : Nat} (h : s.Idle n) (hn : n < wordCount) (hr : s.Reachable) :
    ∃ s', Reachable s' ∧ Idle ((n + 1) % wordCount) s' := by
  obtain ⟨hin, hout, hW, hR⟩ := h
  obtain ⟨L, hrun⟩ := hr
  have hput := uartputc_busy (outFull_of_eq (hW.trans hR.symm) (hR ▸ hn)) 0x61
  obtain ⟨u, hu⟩ : ∃ u, u = s.uart.put 0x61 [] := ⟨_, rfl⟩
  rw [← hu] at hput
  have huW : u.outW = (n + 1) % wordCount := by
    rw [hu, ← hW]
    rfl
  have huR : u.outR = n := by
    rw [hu, ← hR]
    rfl
  have hne : u.outW ≠ u.outR := by
    rw [huW, huR]
    unfold wordCount at *
    omega
  obtain ⟨v, hv⟩ : ∃ v, v = Uart.uartstart [true] u := ⟨_, rfl⟩
  have hsend : v = Uart.writeThr (u.outBuf (u.outR % uartTxBufSize))
      { u with outR := (u.outR + 1) % wordCount } := by
    rw [hv]
    exact if_neg hne
  have hvW : v.outW = (n + 1) % wordCount := by
    rw [hsend, ← huW]
    rfl
  have hvR : v.outR = (n + 1) % wordCount := by
    rw [hsend, ← huR]
    rfl
  have hroom : v.outFull = false :=
    outFull_of_eq (hvW.trans hvR.symm) (hvR ▸ Nat.mod_lt _ (by decide))
  have hintr : FakeKernel.uartintr [] [true] u s.lists = .ok (v, s.lists) := by
    rw [hv] at hroom ⊢
    exact uartintr_quiet hin hout hroom
  have hstep₁ : Step s (.uartputc 4 0x61 [false]) (s.putDone u 0x61) := .put hput
  have hstep₂ : Step (s.putDone u 0x61) (.uartintr [] [true])
      ((s.putDone u 0x61).interrupted v s.lists []) := .intr hintr
  exact ⟨_, ⟨L, (hrun.tail ⟨_, trivial, hstep₁⟩).tail ⟨_, trivial, hstep₂⟩⟩, hin, hout, hvW, hvR⟩

theorem idle_reachable (n : Nat) : ∃ s, Reachable s ∧ Idle (n % wordCount) s := by
  induction n with
  | zero =>
    refine ⟨start emptyLists, start_reachable _, ?_, ?_, rfl, rfl⟩ <;> decide
  | succ n ih =>
    obtain ⟨s, hr, hi⟩ := ih
    obtain ⟨s', hr', hi'⟩ := hi.round (Nat.mod_lt _ (by decide)) hr
    rw [Nat.mod_add_mod] at hi'
    exact ⟨s', hr', hi'⟩

/-- the counters have 64 bits: after 2^64 bytes the write counter is 0 again while a byte waits -/
theorem serial_counters_wrap : ∃ s, Reachable s ∧ s.uart.outW < s.uart.outR := by
  obtain ⟨s, ⟨L, hrun⟩, _, _, hW, hR⟩ := idle_reachable (wordCount - 1)
  have hput := uartputc_busy (outFull_of_eq (hW.trans hR.symm) (hR ▸ Nat.mod_lt _ (by decide))) 0x61
  refine ⟨s.putDone (s.uart.put 0x61 []) 0x61,
    ⟨L, hrun.tail ⟨.uartputc 4 0x61 [false], trivial, .put hput⟩⟩, ?_⟩
  show (s.uart.outW + 1) % wordCount < s.uart.outR
  rw [hW, hR]
  decide

/-- **Input is an exactly-once queue.**  In every run the bytes that getchar returned and then the
unread ones are the received bytes, without those that arrived while the buffer was full. -/
theorem serial_input_fifo (h : s.Reachable) :
    returned s.input ++ s.uart.unread = (kept s.input).1 ∧
      (kept s.input).2 = s.uart.unread.length := by
  obtain ⟨out, inp, hb⟩ := h.balanced
  rw [hb.input, hb.holds.unread]
  exact ⟨rfl, rfl⟩

/-- two bytes arrive and the first one is read -/
theorem serial_input_fifo_two : ∃ s : Serial, s.Reachable ∧ returned s.input = [0x61] ∧
    returned s.input ++ s.uart.unread = [0x61, 0x62] := by
  obtain ⟨u, hu⟩ : ∃ u, u = Uart.uartstart [] ([0x61, 0x62].foldl Uart.receive Uart.init) := ⟨_, rfl⟩
  have hintr : FakeKernel.uartintr [0x61, 0x62] [] Uart.init (start emptyLists).lists
      = .ok (u, (start emptyLists).lists) := by
    rw [hu]
    exact uartintr_quiet (by decide) (by decide) (by decide)
  obtain ⟨v, hv⟩ : ∃ v, u.getchar = some (0x61, v) := ⟨_, by rw [hu]; rfl⟩
  have hrun : (((start emptyLists).interrupted u (start emptyLists).lists [0x61, 0x62]).getDone v
      0x61).Reachable := by
    refine ⟨emptyLists, .tail (.single ⟨.uartintr [0x61, 0x62] [], trivial, .intr hintr⟩) ?_⟩
    exact ⟨.getchar 4, trivial, .get hv⟩
  exact ⟨_, hrun, rfl, (serial_input_fifo hrun).1⟩

/-- **No lost wake-up.**  Between the steps of every run: while a task sleeps on `wait_in` nothing is
unread, and while one sleeps on `wait_out` the output buffer is full. -/
theorem no_lost_wakeup (h : s.Reachable) :
    (s.first .waitIn ≠ 0 → s.uart.inR = s.uart.inW ∧ s.uart.unread = []) ∧
      (s.first .waitOut ≠ 0 → s.uart.outFull = true ∧ s.uart.pending.length = uartTxBufSize) := by
  obtain ⟨out, inp, hb⟩ := h.balanced
  refine ⟨fun hne => ?_, fun hne => ?_⟩
  · have heq := h.sound.input hne
    rw [hb.holds.unread]
    exact ⟨heq, hb.holds.inEmpty.mp heq⟩
  · have hfull := h.sound.output hne
    rw [hb.holds.pending]
    exact ⟨hfull, hb.holds.outFull.mp hfull⟩

/-- a task that finds nothing to read goes to sleep -/
theorem no_lost_wakeup_sleeper :
    ((start emptyLists).wait .waitIn 4).first .waitIn ≠ 0 ∧
      ((start emptyLists).wait .waitIn 4).uart.unread = [] := by
  have hne : ((start emptyLists).wait .waitIn 4).first .waitIn ≠ 0 := by decide
  have hrun : ((start emptyLists).wait .waitIn 4).Reachable :=
    ⟨emptyLists, .single ⟨.getchar 4, trivial, .getWait rfl (by decide)⟩⟩
  exact ⟨hne, ((no_lost_wakeup hrun).1 hne).2⟩

end Serial

end FakeKernel
