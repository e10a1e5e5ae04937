import FakeKernel.Memlayout

/-!
# The buddy allocator (kernel/mm.c)

`Buddy` is the memory together with the heads `buddy_pages[]`.  The free areas of one order form a
chain whose links are stored in the first eight bytes of each free area.  The functions below are
those of mm.c; `Mm` adds the blocks that are outstanding, as a record that no function reads.
-/

namespace FakeKernel
open Bytes

structure Page where
  address : Nat
  order : Nat
deriving DecidableEq, Repr

structure Buddy where
  mem : Mem
  buddyPages : Nat → Nat

/-- `*(void **) p` -/
def link (m : Mem) (p : Nat) : Nat := load 8 m p

/-- `*(void **) p = v` -/
def setLink (m : Mem) (p v : Nat) : Mem := store 8 m p v

namespace Buddy

def setHead (s : Buddy) (order : Nat) (p : Nat) : Buddy :=
  { s with buddyPages := Function.update s.buddyPages order p }

def setLink (s : Buddy) (p v : Nat) : Buddy := { s with mem := FakeKernel.setLink s.mem p v }

def splitArea (order : Nat) (s : Buddy) : Res Buddy :=
  let area1 := s.buddyPages order
  if area1 = 0 then
    panic "invalid split_area - no pages of order"
  else
    let s := s.setHead order (link s.mem area1)
    let area2 := area1 + pageSize <<< (order - 1)
    let s := s.setLink area1 area2
    let s := s.setLink area2 (s.buddyPages (order - 1))
    .ok (s.setHead (order - 1) area1)

/-- the loop of page_allocator_init that links the areas of the highest order -/
def linkAreas (areaSize : Nat) : Nat → Nat → Mem → Mem
  | 0, _, m => m
  | n + 1, page, m =>
    if page < kernPhyStop then
      linkAreas areaSize n (page + areaSize) (FakeKernel.setLink m page (page + areaSize))
    else m

/-- the loop of page_allocator_init from `order` down to SKIP_ORDER -/
def resetHeads : Nat → Nat → Buddy → Buddy
  | 0, _, s => s
  | n + 1, order, s =>
    if skipOrder ≤ order then
      let page := kernPhyBase + pageSize <<< order
      resetHeads n (order - 1) ((s.setHead order page).setLink page 0)
    else s

def pageAllocatorInit (m : Mem) : Buddy :=
  let order := maxOrder - 1
  let areaSize := pageSize <<< order
  let page := kernPhyBase + areaSize
  let m := linkAreas areaSize (phySize / areaSize) page m
  let m := FakeKernel.setLink m (kernPhyStop - areaSize) 0
  let s : Buddy := { mem := m, buddyPages := Function.update (fun _ => 0) order page }
  resetHeads maxOrder order s

/-- the first order from `order` on, at most `MAX_ORDER`, whose list is not empty -/
def promotedOrder (s : Buddy) : Nat → Nat → Nat
  | 0, order => order
  | n + 1, order =>
    if order < maxOrder ∧ s.buddyPages order = 0 then promotedOrder s n (order + 1) else order

/-- `n` calls of split_area, on the orders `order + n`, ..., `order + 1` -/
def splitDown : Nat → Nat → Buddy → Res Buddy
  | 0, _, s => .ok s
  | n + 1, order, s => do
    let s ← splitArea (order + (n + 1)) s
    splitDown n order s

def allocPages (order : Nat) (s : Buddy) : Res (Page × Buddy) :=
  if maxOrder ≤ order then
    panic "bad alloc_pages"
  else
    let promoted := promotedOrder s maxOrder order
    if promoted = maxOrder then
      panic "out of memory"
    else do
      let s ← splitDown (promoted - order) order s
      let page := s.buddyPages order
      .ok ({ address := page, order := order }, s.setHead order (link s.mem page))

/-- the `void **prev` of free_pages: a list head or the link of a free area -/
inductive Slot where
  | head (order : Nat)
  | area (p : Nat)

def setSlot (s : Buddy) : Slot → Nat → Buddy
  | .head order, v => s.setHead order v
  | .area p, v => s.setLink p v

/-- the loop of free_pages that looks for `buddy` -/
def findBuddy (m : Mem) (buddy : Nat) : Nat → Slot → Nat → Res (Slot × Nat)
  | 0, _, _ => .error .hang
  | n + 1, prev, free =>
    if free = 0 then .ok (prev, free)
    else if free = buddy then .ok (prev, free)
    else findBuddy m buddy n (.area free) (link m free)

/-- free_pages, with the depth of the recursion as its first argument -/
def freePagesAt : Nat → Page → Buddy → Res Buddy
  | 0, _, _ => .error .hang
  | n + 1, page, s =>
    if maxOrder ≤ page.order then
      panic "bad free_pages"
    else if page.order = maxOrder - 1 then
      .ok ((s.setLink page.address (s.buddyPages page.order)).setHead page.order page.address)
    else do
      let areaSize := pageSize <<< page.order
      let buddy := page.address ^^^ areaSize
      let (prev, free) ← findBuddy s.mem buddy wordCount (.head page.order)
        (s.buddyPages page.order)
      if free = buddy then
        freePagesAt n
          { address := page.address &&& (wordCount - 1 - areaSize), order := page.order + 1 }
          (s.setSlot prev (link s.mem free))
      else
        .ok ((s.setLink page.address (s.buddyPages page.order)).setHead page.order page.address)

/-- each call that recurses raises the order, so `MAX_ORDER` calls are all there can be -/
def freePages (page : Page) (s : Buddy) : Res Buddy := freePagesAt maxOrder page s

end Buddy

/-- The allocator together with its outstanding blocks.  `out` is a history record: it is written
by `allocPages` and `freePages` and read by neither. -/
structure Mm where
  buddy : Buddy
  out : List Page

namespace Mm

def init (m : Mem) : Mm := { buddy := Buddy.pageAllocatorInit m, out := [] }

def allocPages (order : Nat) (a : Mm) : Res (Page × Mm) := do
  let (page, b) ← a.buddy.allocPages order
  .ok (page, { buddy := b, out := page :: a.out })

def freePages (page : Page) (a : Mm) : Res Mm := do
  let b ← a.buddy.freePages page
  .ok { buddy := b, out := a.out.erase page }

abbrev mem (a : Mm) : Mem := a.buddy.mem

/-- the same allocator after its clients changed the memory -/
def setMem (m : Mem) (a : Mm) : Mm := { a with buddy := { a.buddy with mem := m } }

@[simp] theorem setMem_mem (m : Mem) (a : Mm) : (a.setMem m).mem = m := rfl

@[simp] theorem setMem_out (m : Mem) (a : Mm) : (a.setMem m).out = a.out := rfl

/-- a client stores one byte -/
def write (x : Nat) (v : UInt8) (a : Mm) : Mm := a.setMem (Function.update a.mem x v)

end Mm

end FakeKernel
