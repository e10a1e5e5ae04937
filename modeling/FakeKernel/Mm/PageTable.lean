import FakeKernel.Mm.Kmalloc
import FakeKernel.Mm.Mmdefs

/-!
# Page tables (kernel/mm.c)

The functions of mm.c that build, change and destroy a page table.  A table lives in a page of the
byte memory, so every one of them acts on `Mm`; a `sv39_pte *` is the pair of a table and an index.
-/

namespace FakeKernel
open Bytes Bitfield

def Mm.setEntry (table i pte : Nat) (a : Mm) : Mm := a.setMem (FakeKernel.setEntry a.mem table i pte)

def checkVa1g (va : Nat) : Res Unit :=
  if Sv39Va.off va ≠ 0 ∨ Sv39Va.vpn0 va ≠ 0 ∨ Sv39Va.vpn1 va ≠ 0 then
    panic "misaligned 1G superpage virtual address"
  else .ok ()

def checkVa2m (va : Nat) : Res Unit :=
  if Sv39Va.off va ≠ 0 ∨ Sv39Va.vpn0 va ≠ 0 then
    panic "misaligned 2M superpage virtual address"
  else .ok ()

def checkVa (va : Nat) : Res Unit :=
  if Sv39Va.off va ≠ 0 then panic "misaligned page virtual address" else .ok ()

/-- `pte->flags = flags; pte->ppn = sv_pa.ppn` -/
def updatePte (pa flags pte : Nat) : Nat :=
  Sv39Pte.setPpn (Sv39Pa.ppn pa) (Sv39Pte.setFlags flags pte)

def setPage1g (table va pa flags : Nat) (a : Mm) : Res (Int × Mm) := do
  checkVa1g va
  if Sv39Pa.off pa ≠ 0 ∨ (Sv39Pa.ppn0 pa ≠ 0 ∨ Sv39Pa.ppn1 pa ≠ 0) ∧ pteIsLeaf flags then
    panic "misaligned superpage pa"
  else
    let i := Sv39Va.vpn2 va
    .ok (0, a.setEntry table i (updatePte pa flags (entry a.mem table i)))

/-- the entry `i` of the table that stands for the superpage `pte` -/
def expandPte (pte level i : Nat) : Nat :=
  if level = 1 then Sv39Pte.setPpn1 i pte
  else if level = 0 then Sv39Pte.setPpn0 i pte
  else pte

/-- the loop of expand_superpage, up to entry `n` -/
def fillTable (table : Nat) (f : Nat → Nat) : Nat → Mem → Mem
  | 0, m => m
  | n + 1, m => setEntry (fillTable table f n m) table n (f n)

def expandSuperpage (pte level : Nat) (a : Mm) : Res (Nat × Mm) := do
  let (page, a) ← a.allocPages 0
  let subtable := page.address
  if subtable = 0 then .ok (0, a)
  else .ok (subtable, a.setMem (fillTable subtable (expandPte pte level) entryCount a.mem))

def ensurePage2m (table va : Nat) (a : Mm) : Res (Option (Nat × Nat) × Mm) := do
  checkVa2m va
  let pte2 := entry a.mem table (Sv39Va.vpn2 va)
  if pteInvalidOrLeaf pte2 then
    let (subtable, a) ← expandSuperpage pte2 1 a
    if subtable = 0 then .ok (none, a)
    else
      let (_, a) ← setPage1g table (Sv39Va.setVpn1 0 va) (PA subtable) pteValid a
      .ok (some (subtable, Sv39Va.vpn1 va), a)
  else
    .ok (some (subtableFromPte pte2, Sv39Va.vpn1 va), a)

def setPage2m (table va pa flags : Nat) (a : Mm) : Res (Int × Mm) :=
  if Sv39Pa.off pa ≠ 0 ∨ Sv39Pa.ppn0 pa ≠ 0 ∧ pteIsLeaf flags then
    panic "misaligned superpage pa"
  else do
    let (pte1, a) ← ensurePage2m table va a
    match pte1 with
    | none => .ok (-ENOMEM, a)
    | some (t, i) => .ok (0, a.setEntry t i (updatePte pa flags (entry a.mem t i)))

/-- the part of set_page that finds or makes the table of level 0 that `pte1` leads to -/
def ensureSubtable (table va : Nat) (pte1 : Nat) (a : Mm) : Res (Option Nat × Mm) :=
  if pteInvalidOrLeaf pte1 then do
    let (subtable, a) ← expandSuperpage pte1 0 a
    if subtable = 0 then .ok (none, a)
    else
      let (_, a) ← setPage2m table va (PA subtable) pteValid a
      .ok (some subtable, a)
  else .ok (some (subtableFromPte pte1), a)

def setPage (table va pa flags : Nat) (a : Mm) : Res (Int × Mm) :=
  if Sv39Va.off va ≠ 0 ∨ Sv39Pa.off pa ≠ 0 then
    panic "misaligned page"
  else do
    let subtableVa := Sv39Va.setVpn0 0 va
    let (pte1, a) ← ensurePage2m table subtableVa a
    match pte1 with
    | none => .ok (-ENOMEM, a)
    | some (t, i) =>
      let (subtable, a) ← ensureSubtable table subtableVa (entry a.mem t i) a
      match subtable with
      | none => .ok (-ENOMEM, a)
      | some subtable =>
        let j := Sv39Va.vpn0 va
        .ok (0, a.setEntry subtable j (updatePte pa flags (entry a.mem subtable j)))

def setPage1gUser (table va pa flags : Nat) (a : Mm) : Res (Int × Mm) :=
  setPage1g table va pa (flags ||| pteUser) a

def setPage2mUser (table va pa flags : Nat) (a : Mm) : Res (Int × Mm) :=
  setPage2m table va pa (flags ||| pteUser) a

def setPageUser (table va pa flags : Nat) (a : Mm) : Res (Int × Mm) :=
  setPage table va pa (flags ||| pteUser) a

/-- `pte->flags &= ~PTE_VALID` -/
def clearValid (pte : Nat) : Nat :=
  Sv39Pte.setFlags (Sv39Pte.flags pte &&& (2 ^ 32 - 1 - pteValid)) pte

def unsetPage (table va : Nat) (a : Mm) : Res (Int × Mm) := do
  checkVa va
  let pte2 := entry a.mem table (Sv39Va.vpn2 va)
  if pteInvalidOrLeaf pte2 then .ok (-ENOENT, a)
  else
    let subtable1 := subtableFromPte pte2
    let pte1 := entry a.mem subtable1 (Sv39Va.vpn1 va)
    if pteInvalidOrLeaf pte1 then .ok (-ENOENT, a)
    else
      let subtable0 := subtableFromPte pte1
      let i := Sv39Va.vpn0 va
      .ok (0, a.setEntry subtable0 i (clearValid (entry a.mem subtable0 i)))

def unsetPage2m (table va : Nat) (a : Mm) : Res (Int × Mm) := do
  checkVa2m va
  let pte2 := entry a.mem table (Sv39Va.vpn2 va)
  if pteInvalidOrLeaf pte2 then .ok (-ENOENT, a)
  else
    let subtable1 := subtableFromPte pte2
    let i := Sv39Va.vpn1 va
    let pte1 := entry a.mem subtable1 i
    if pteInvalidOrLeaf pte1 then .ok (0, a.setEntry subtable1 i (clearValid pte1))
    else .ok (-EINVAL, a)

/-- the root is indexed with `vpn1`, as the source has it -/
def unsetPage1g (table va : Nat) (a : Mm) : Res (Int × Mm) := do
  checkVa1g va
  let i := Sv39Va.vpn1 va
  let pte := entry a.mem table i
  if pteInvalidOrLeaf pte then .ok (0, a.setEntry table i (clearValid pte))
  else .ok (-EINVAL, a)

/-! ## creating and destroying a table -/

def mapKernelPages (table : Nat) (a : Mm) : Res Mm := do
  let (_, a) ← setPage1g table mmioBase mmioPhy (pteValid ||| pteRead ||| pteWrite ||| pteGlobal) a
  let (_, a) ← setPage1g table kernBase kernPhy
    (pteValid ||| pteRead ||| pteWrite ||| pteExec ||| pteGlobal) a
  .ok a

def createPageTable (a : Mm) : Res (Nat × Mm) := do
  let (page, a) ← a.allocPages 0
  let table := page.address
  if table = 0 then .ok (0, a)
  else
    let a ← mapKernelPages table (a.setMem (fillTable table (fun _ => 0) entryCount a.mem))
    .ok (table, a)

/-- the loop of do_destroy_page_table from entry `i` on, `n` entries -/
def forEntries (f : Nat → Mm → Res Mm) : Nat → Nat → Mm → Res Mm
  | 0, _, a => .ok a
  | n + 1, i, a => do
    let a ← f i a
    forEntries f n (i + 1) a

def doDestroyPageTable : Nat → Nat → Mm → Res Mm
  | 0, table, a => do
    let a ← forEntries (fun i a =>
      if pteInvalidOrLeaf (entry a.mem table i) then .ok a
      else panic "invalid page table - too deep") entryCount 0 a
    a.freePages { address := table, order := 0 }
  | depth + 1, table, a => do
    let a ← forEntries (fun i a =>
      let pte := entry a.mem table i
      if pteInvalidOrLeaf pte then .ok a
      else doDestroyPageTable depth (subtableFromPte pte) a) entryCount 0 a
    a.freePages { address := table, order := 0 }

/-- the loop of unset_user_pages from entry `i` on, `n` entries -/
def unsetUserPagesFrom (table : Nat) : Nat → Nat → Nat → Mm → Res Mm
  | 0, _, _, a => .ok a
  | n + 1, i, va, a =>
    let va := Sv39Va.setVpn2 i va
    if splitAddr ≤ va then .ok a
    else do
      let pte := entry a.mem table i
      let a ← if pteInvalidOrLeaf pte then .ok a else doDestroyPageTable 1 (subtableFromPte pte) a
      unsetUserPagesFrom table n (i + 1) va (a.setEntry table i 0)

def unsetUserPages (table : Nat) (a : Mm) : Res Mm := unsetUserPagesFrom table entryCount 0 0 a

def destroyPageTable (table : Nat) (a : Mm) : Res Mm := doDestroyPageTable 2 table a

end FakeKernel
