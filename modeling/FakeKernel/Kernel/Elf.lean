import FakeKernel.Kernel.Vm

/-!
# Loading a program (kernel/elf.c)

An `Elf` is an image at an address of the kernel; the fields of its headers are read where
/usr/include/elf.h puts them.  The loader reads them, and the bytes of the segments, from memory as it is
by then: `Heap.image`.  The pages of the allocator are part of it, so a large image may be overwritten
while it is loaded.

Pointers into the kernel that the code dereferences without a check (`argv`, `envp`) are looked up in
the direct map first; what a dereference outside of it does is `wildRead`.
-/

namespace FakeKernel
open Bytes

structure Phdr where
  pType : Nat
  pFlags : Nat
  pOffset : Nat
  pVaddr : Nat
  pFilesz : Nat
  pMemsz : Nat
deriving DecidableEq, Repr

/-- an image at `program` in `mem` -/
structure Elf where
  mem : Mem
  program : Nat

def EM_RISCV : Nat := 0xf3
def PT_LOAD : Nat := 1
def PT_DYNAMIC : Nat := 2
def PT_INTERP : Nat := 3
def PT_GNU_STACK : Nat := 0x6474e551
def PF_X : Nat := 1
def PF_W : Nat := 2
def PF_R : Nat := 4

/-- a 32-bit `int` as a 64-bit number -/
def ofInt32 (x : Nat) : Nat :=
  if x % 2 ^ 32 < 2 ^ 31 then x % 2 ^ 32 else x % 2 ^ 32 + (wordCount - 2 ^ 32)

namespace Elf

def eMachine (e : Elf) : Nat := load 2 e.mem (e.program + 18)
def eEntry (e : Elf) : Nat := load 8 e.mem (e.program + 24)
def ePhoff (e : Elf) : Nat := load 8 e.mem (e.program + 32)
def ePhentsize (e : Elf) : Nat := load 2 e.mem (e.program + 54)
def ePhnum (e : Elf) : Nat := load 2 e.mem (e.program + 56)

def phdrAddr (e : Elf) (i : Nat) : Nat := (e.program + e.ePhoff + ofInt32 (i * e.ePhentsize)) % wordCount

def phdr (e : Elf) (i : Nat) : Phdr :=
  let p := e.phdrAddr i
  { pType := load 4 e.mem p
    pFlags := load 4 e.mem (p + 4)
    pOffset := load 8 e.mem (p + 8)
    pVaddr := load 8 e.mem (p + 16)
    pFilesz := load 8 e.mem (p + 32)
    pMemsz := load 8 e.mem (p + 40) }

end Elf

namespace Phdr

def addr (ph : Phdr) : Nat := Sv39Va.setOff 0 ph.pVaddr

/-- the first byte of the segment within its first page -/
def off (ph : Phdr) : Nat := Sv39Va.off ph.pVaddr

def endAddr (ph : Phdr) : Nat :=
  let endAddr := (ph.pVaddr + ph.pMemsz) % wordCount
  if Sv39Va.off endAddr ≠ 0 then
    let endAddr := Sv39Va.setOff 0 endAddr
    Sv39Va.setVpn (Sv39Va.vpn endAddr + 1) endAddr
  else endAddr

def pteFlags (ph : Phdr) : Nat :=
  let f := pteValid ||| pteUser
  let f := if ph.pFlags &&& PF_R ≠ 0 then f ||| pteRead else f
  let f := if ph.pFlags &&& PF_W ≠ 0 then f ||| pteWrite else f
  if ph.pFlags &&& PF_X ≠ 0 then f ||| pteExec else f

def areaFlags (ph : Phdr) : Nat :=
  let f := 0
  let f := if ph.pFlags &&& PF_R ≠ 0 then f ||| vmRead else f
  let f := if ph.pFlags &&& PF_W ≠ 0 then f ||| vmWrite else f
  if ph.pFlags &&& PF_X ≠ 0 then f ||| vmExec else f

def nPages (ph : Phdr) : Nat :=
  (Sv39Va.vpn ph.endAddr + wordCount - Sv39Va.vpn ph.addr) % wordCount

end Phdr

namespace Heap

/-- what `program` points to -/
def image (h : Heap) (program : Nat) : Elf := { mem := h.mm.mem, program := program }

/-- the loop that fills a page from byte `k` on, `n` bytes; `src` is `from`, 0 when the file part of
the segment has been copied -/
def fillPage (toAddr page : Nat) : Nat → Nat → Nat → Nat → Mem → Nat × Nat × Mem
  | 0, _, off, src, m => (off, src, m)
  | n + 1, k, off, src, m =>
    if 0 < off then fillPage toAddr page n (k + 1) (off - 1) src (Function.update m (page + k) 0)
    else
      let b := if src ≠ 0 then m src else 0
      let src := if src ≠ 0 then (src + 1) % wordCount else src
      let src := if toAddr ≤ src then 0 else src
      fillPage toAddr page n (k + 1) off src (Function.update m (page + k) b)

/-- the loop over the pages of a segment -/
def loadPages (toAddr table flags area endAddr : Nat) :
    Nat → Nat → Nat → Nat → Heap → Res Heap
  | 0, _, _, _, _ => .error .hang
  | n + 1, addr, off, src, h =>
    if addr < endAddr then do
      let (page, h) ← h.allocPage
      if page = 0 then panic "out of memory"
      else
        let (err, h) ← h.vmAreaAddPage area page
        if err ≠ 0 then panic "out of memory"
        else
          let (err, h) ← h.setPage table addr (PA page) flags
          if err ≠ 0 then panic "set_page"
          else
            let filled := fillPage toAddr page pageSize 0 off src h.mm.mem
            loadPages toAddr table flags area endAddr n ((addr + pageSize) % wordCount)
              filled.1 filled.2.1 { h with mm := h.mm.setMem filled.2.2 }
    else .ok h

def loadSegment (task program : Nat) (ph : Phdr) (h : Heap) : Res Heap := do
  let (area, h) ← h.vmAreaCreate ph.addr ph.nPages ph.areaFlags
  let (err, h) ← h.vmAddArea (.vmAreas task) area
  if err ≠ 0 then panic "out of memory"
  else
    let src := (program + ph.pOffset) % wordCount
    let toAddr := (src + ph.pFilesz) % wordCount
    loadPages toAddr (h.task task).pageTable ph.pteFlags area ph.endAddr wordCount ph.addr ph.off
      src h

/-- the loop over the program headers from the `i`-th on; the result is `-EINVAL`, or whether the stack is
executable.  Each round reads `e_phnum` and its program header anew. -/
def loadSegments (task program : Nat) : Nat → Nat → Bool → Heap → Res (Except Int Bool × Heap)
  | 0, _, _, _ => .error .hang
  | n + 1, i, execstack, h =>
    let e := h.image program
    if i < e.ePhnum then
      let ph := e.phdr i
      if ph.pType = PT_LOAD then do
        let h ← h.loadSegment task program ph
        loadSegments task program n (i + 1) execstack h
      else if ph.pType = PT_DYNAMIC ∨ ph.pType = PT_INTERP then .ok (.error (-EINVAL), h)
      else if ph.pType = PT_GNU_STACK then
        loadSegments task program n (i + 1) (ph.pFlags &&& PF_X != 0) h
      else loadSegments task program n (i + 1) execstack h
    else .ok (.ok execstack, h)

/-- the registers at the start of a program -/
def startFrame (entry : Nat) : Cpu :=
  Cpu.set REG_SP userStack { registers := fun _ => 0, pc := entry }

/-- the part of load_elf behind the loop -/
def loadStack (task program : Nat) (execstack : Bool) (h : Heap) : Res Heap := do
  let vmFlags := vmRead ||| vmWrite ||| vmStack ||| (if execstack then vmExec else 0)
  let ptFlags := pteValid ||| pteUser ||| pteRead ||| pteWrite ||| (if execstack then pteExec else 0)
  let table := (h.task task).pageTable
  let (page, h) ← h.allocPage
  if page = 0 then panic "out of memory"
  else
    let h := h.clearPage page
    let stackBegin := userStack - pageSize
    let (area, h) ← h.vmAreaCreate stackBegin 1 vmFlags
    let (err, h) ← h.vmAddArea (.vmAreas task) area
    if err ≠ 0 then panic "out of memory"
    else
      let (err, h) ← h.vmAreaAddPage area page
      if err ≠ 0 then panic "out of memory"
      else
        let (err, h) ← h.setPageUser table stackBegin (PA page) ptFlags
        if err ≠ 0 then panic "set_page"
        else
          .ok (h.setFrame task (startFrame (h.image program).eEntry))

def loadElf (task program : Nat) (h : Heap) : Res (Int × Heap) :=
  if (h.image program).eMachine ≠ EM_RISCV then .ok (-EINVAL, h)
  else do
    let (r, h) ← h.loadSegments task program wordCount 0 false
    match r with
    | .error err => .ok (err, h)
    | .ok execstack =>
      let h ← h.loadStack task program execstack
      .ok (0, h)

/-! ## arguments of a program -/

def inDirectMap (x : Nat) : Bool := kernBase ≤ x && x < kernStop

/-- a kernel page fault outside of the user accesses -/
def badPointer {α : Type} : Res α := panic "unable to handle kernel interrupt"

/-- `strlen`; `size` bytes have been looked at -/
def strlenFrom (m : Mem) (s : Nat) : Nat → Nat → Res Nat
  | 0, _ => .error .hang
  | n + 1, size =>
    if inDirectMap (s + size) then
      if m (s + size) = 0 then .ok size else strlenFrom m s n (size + 1)
    else badPointer

/-- one of the two loops of task_init_elf that count the arguments and add up their sizes -/
def countArgs (m : Mem) (argv : Nat) : Nat → Nat → Nat → Res (Nat × Nat)
  | 0, _, _ => .error .hang
  | n + 1, argc, argSize =>
    if inDirectMap (argv + 8 * argc) then
      let s := load 8 m (argv + 8 * argc)
      if s = 0 then .ok (argc, argSize)
      else do
        let size ← strlenFrom m s wordCount 0
        countArgs m argv n (argc + 1) (argSize + (size + 1))
    else badPointer

/-- the loop of strlcpy, `r` bytes from the `i`-th on -/
def strlcpyFrom (dest src n : Nat) : Nat → Nat → Mem → Nat × Mem
  | 0, _, m => (n, Function.update m (dest + (n - 1)) 0)
  | r + 1, i, m =>
    let m := Function.update m (dest + i) (m (src + i))
    if m (src + i) = 0 then (i, m) else strlcpyFrom dest src n r (i + 1) m

/-- `strlcpy`; sizes are signed -/
def strlcpy (dest src n : Nat) (m : Mem) : Res (Nat × Mem) :=
  if 0 < n ∧ n < wordCount / 2 then .ok (strlcpyFrom dest src n n 0 m)
  else panic "assertion failed: strlcpy: bad n"

def userStackAddr (off : Nat) : Nat := (userStack + wordCount - off) % wordCount

/-- one of the two loops of task_init_elf that copy the arguments, `n` of them from the `i`-th on,
and fill the table at `table` -/
def copyArgs (argv stack table : Nat) : Nat → Nat → Nat → Mem → Res (Nat × Mem)
  | 0, _, off, m => .ok (off, m)
  | n + 1, i, off, m => do
    let m := store 8 m (table + 8 * i) (userStackAddr off)
    let (length, m) ← strlcpy (stack - off) (load 8 m (argv + 8 * i)) off m
    copyArgs argv stack table n (i + 1) ((off + wordCount - (length + 1)) % wordCount) m

/-- the part of task_init_elf behind load_elf -/
def initArgs (task argv envp : Nat) (h : Heap) : Res (Int × Heap) := do
  let (argc, argSize) ← countArgs h.mm.mem argv wordCount 0 0
  let (envc, argSize) ← countArgs h.mm.mem envp wordCount 0 argSize
  let argSize := argSize + 8 * (argc + envc + 2)
  if pageSize < argSize then panic "argv too big"
  else
    let area := (h.node (h.lists.list (.vmAreas task)).last).value
    kassert ((h.area area).flags &&& vmStack != 0) "fixme"
    kassert ((h.area area).nPages == 1) "fixme"
    let pages := h.lists.list (.pages area)
    kassert (pages.first == pages.last && pages.first != 0) "fixme"
    let stack := (h.node pages.first).value + pageSize
    let argvOff := 8 * (argc + envc + 2)
    let envpOff := 8 * (envc + 2)
    let (off, m) ← copyArgs argv stack (stack - argvOff) argc 0 argSize h.mm.mem
    let (off, m) ← copyArgs envp stack (stack - envpOff) envc 0 off m
    kassert (off == argvOff) "stack size mismatch"
    let h := { h with mm := h.mm.setMem m }
    let frame := (h.task task).userFrame
    let frame := (frame.set REG_A0 argc).set REG_A1 (userStackAddr argvOff)
    let frame := frame.set REG_A2 (userStackAddr envpOff)
    let alignedOff := (argSize + 15) / 16 * 16
    .ok (0, h.setFrame task (frame.set REG_SP (userStack - alignedOff)))

def taskInitElf (task program argv envp : Nat) (h : Heap) : Res (Int × Heap) := do
  kassert (argv != 0 && envp != 0) "task_init_elf with NULL argv or envp"
  kassert (program != 0) "task_init_elf with NULL program"
  let (retval, h) ← h.loadElf task program
  if retval ≠ 0 then .ok (retval, h) else h.initArgs task argv envp

end Heap

end FakeKernel
