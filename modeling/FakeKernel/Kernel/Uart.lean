import FakeKernel.Kernel.Heap

/-!
# The serial port (kernel/uart.c)

The two ring buffers of the driver.  What the device answers is an input: the bits of LSR that the
driver reads one after the other (as if busy when there are no more), and the bytes it receives.
Of the device it is assumed that an idle line stays idle until THR is written, so that the second loop
of uartputc, which waits for the line behind an idle answer, ends with its first read of LSR.
`thr` is a history of the bytes that were written to THR; the counters have 64 bits.

* `uartputc`, `uartputcWoken`   uartputc when it is called, and when it goes on behind the call of wait;
* `uartstart`, `getchar`, `uartintr`.
-/

namespace FakeKernel

def uartTxBufSize : Nat := 32

@[ext] structure Uart where
  outBuf : Nat → UInt8
  outW : Nat
  outR : Nat
  inBuf : Nat → UInt8
  inW : Nat
  inR : Nat
  thr : List UInt8

namespace Uart

/-- the variables of the driver at boot -/
def init : Uart where
  outBuf := fun _ => 0
  outW := 0
  outR := 0
  inBuf := fun _ => 0
  inW := 0
  inR := 0
  thr := []

def outFull (u : Uart) : Bool := u.outW == (u.outR + uartTxBufSize) % wordCount

def inFull (u : Uart) : Bool := u.inW == (u.inR + uartTxBufSize) % wordCount

def writeThr (c : UInt8) (u : Uart) : Uart := { u with thr := u.thr ++ [c] }

def uartstart : List Bool → Uart → Uart
  | [], u => u
  | idle :: lsr, u =>
    if u.outW = u.outR then u
    else if idle then
      uartstart lsr (Uart.writeThr (u.outBuf (u.outR % uartTxBufSize))
        { u with outR := (u.outR + 1) % wordCount })
    else u

/-- the end of uartputc, when the buffer has room -/
def put (c : UInt8) (lsr : List Bool) (u : Uart) : Uart :=
  uartstart lsr { u with
    outBuf := Function.update u.outBuf (u.outW % uartTxBufSize) c
    outW := (u.outW + 1) % wordCount }

/-- uartputc behind the call of wait; `none` means that it waits again -/
def uartputcWoken (c : UInt8) (lsr : List Bool) (u : Uart) : Option Uart :=
  if u.outFull then none else some (u.put c lsr)

/-- `uartputc` once the kernel is initialized; `none` means that it calls wait -/
def uartputc (c : UInt8) (lsr : List Bool) (u : Uart) : Option Uart :=
  match lsr with
  -- the line is still idle when the loop in front of the write reads LSR again
  | true :: _ => some (u.writeThr c)
  | answers => u.uartputcWoken c answers.tail

/-- `getchar`; `none` means that it waits -/
def getchar (u : Uart) : Option (UInt8 × Uart) :=
  if u.inR = u.inW then none
  else some (u.inBuf (u.inR % uartTxBufSize), { u with inR := (u.inR + 1) % wordCount })

/-- one turn of the receiving loop of uartintr -/
def receive (u : Uart) (c : UInt8) : Uart :=
  if u.inFull then u
  else
    { u with
      inBuf := Function.update u.inBuf (u.inW % uartTxBufSize) c
      inW := (u.inW + 1) % wordCount }

/-! ## the queues in the two buffers -/

/-- the slots of a buffer from the counter `r` up to the counter `w` -/
def slots (buf : Nat → UInt8) (w r : Nat) : List UInt8 :=
  (List.range ((w + wordCount - r) % wordCount)).map fun i => buf ((r + i) % uartTxBufSize)

/-- the bytes that wait to be sent -/
def pending (u : Uart) : List UInt8 := slots u.outBuf u.outW u.outR

/-- the bytes that were received and not read -/
def unread (u : Uart) : List UInt8 := slots u.inBuf u.inW u.inR

end Uart

/-! ## wait groups -/

namespace Lists

/-- the loop of wakeup -/
def wakeupLoop (group : TaskList) : Nat → Lists → Res Lists
  | 0, _ => .error .hang
  | n + 1, L =>
    let (node, L) := L.listShift (.queue group)
    if node = 0 then .ok L else wakeupLoop group n (L.listPush (.queue .tasks) node)

def wakeup (group : TaskList) (L : Lists) : Res Lists := wakeupLoop group wordCount L

end Lists

/-- `uartintr`; it receives the bytes `rx` -/
def uartintr (rx : List UInt8) (lsr : List Bool) (u : Uart) (L : Lists) : Res (Uart × Lists) := do
  let u := rx.foldl Uart.receive u
  let L ← (if rx = [] then .ok L else L.wakeup .waitIn)
  let u := u.uartstart lsr
  let L ← (if u.outFull then .ok L else L.wakeup .waitOut)
  .ok (u, L)

end FakeKernel
