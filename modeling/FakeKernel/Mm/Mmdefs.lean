import FakeKernel.Lib.Bitfield
import FakeKernel.Memlayout

/-!
# Sv39 addresses and page-table entries (kernel/mmdefs.h)

The three unions of mmdefs.h are 64-bit words with bit fields.  A page table is a page of 512
words; `entry m table i` reads one of them.

* `walk`       the three-level translation of a virtual address;
* `tables`     the tables of a tree, by the entries that point to them;
* `Aligned`    superpage leaves are aligned.
-/

namespace FakeKernel
open Bytes Bitfield

def pageIndexBits : Nat := 12

namespace Sv39Va

def off (va : Nat) : Nat := field 0 12 va
def vpn0 (va : Nat) : Nat := field 12 9 va
def vpn1 (va : Nat) : Nat := field 21 9 va
def vpn2 (va : Nat) : Nat := field 30 9 va
def vpn (va : Nat) : Nat := field 12 27 va

def setOff (x va : Nat) : Nat := setField 0 12 x va
def setVpn0 (x va : Nat) : Nat := setField 12 9 x va
def setVpn1 (x va : Nat) : Nat := setField 21 9 x va
def setVpn2 (x va : Nat) : Nat := setField 30 9 x va
def setVpn (x va : Nat) : Nat := setField 12 27 x va

end Sv39Va

def paFromPpn (ppn : Nat) : Nat := ppn <<< pageIndexBits

namespace Sv39Pa

def off (pa : Nat) : Nat := field 0 12 pa
def ppn0 (pa : Nat) : Nat := field 12 9 pa
def ppn1 (pa : Nat) : Nat := field 21 9 pa
def ppn (pa : Nat) : Nat := field 12 44 pa

end Sv39Pa

def pteValid : Nat := 1
def pteRead : Nat := 2
def pteWrite : Nat := 4
def pteExec : Nat := 8
def pteUser : Nat := 16
def pteGlobal : Nat := 32

namespace Sv39Pte

def flags (pte : Nat) : Nat := field 0 8 pte
def ppn (pte : Nat) : Nat := field 10 44 pte

def setFlags (x pte : Nat) : Nat := setField 0 8 x pte
def setPpn0 (x pte : Nat) : Nat := setField 10 9 x pte
def setPpn1 (x pte : Nat) : Nat := setField 19 9 x pte
def setPpn (x pte : Nat) : Nat := setField 10 44 x pte

end Sv39Pte

def pteIsLeaf (flags : Nat) : Bool := flags &&& (pteRead ||| pteWrite ||| pteExec) != 0

def pteInvalidOrLeaf (pte : Nat) : Bool :=
  !(Sv39Pte.flags pte &&& pteValid != 0) || pteIsLeaf (Sv39Pte.flags pte)

def subtableFromPte (pte : Nat) : Nat := VA (paFromPpn (Sv39Pte.ppn pte))

/-! ## the entries of a table -/

def entryCount : Nat := 512

def entry (m : Mem) (table i : Nat) : Nat := load 8 m (table + 8 * i)

def setEntry (m : Mem) (table i pte : Nat) : Mem := store 8 m (table + 8 * i) pte

theorem entry_lt (m : Mem) (table i : Nat) : entry m table i < 2 ^ 64 := load_lt 8 m _

theorem entry_setEntry_self {m : Mem} {table i pte : Nat} (h : pte < 2 ^ 64) :
    entry (setEntry m table i pte) table i = pte := load_store_lt h

theorem entry_setEntry_of_ne {m : Mem} {table i pte s j : Nat} (ht : pageSize ∣ table)
    (hs : pageSize ∣ s) (hi : i < entryCount) (hj : j < entryCount) (h : s ≠ table ∨ j ≠ i) :
    entry (setEntry m table i pte) s j = entry m s j := by
  apply load_store_disj
  obtain ⟨t, rfl⟩ := ht
  obtain ⟨s, rfl⟩ := hs
  unfold pageSize entryCount at *
  omega

theorem setEntry_apply_out {m : Mem} {table i pte x : Nat} (hi : i < entryCount)
    (hx : x < table ∨ table + pageSize ≤ x) : setEntry m table i pte x = m x := by
  apply store_apply_out
  unfold pageSize entryCount at *
  omega

theorem entry_congr {m m' : Mem} {table i : Nat} (hi : i < entryCount)
    (h : ∀ x, table ≤ x → x < table + pageSize → m' x = m x) :
    entry m' table i = entry m table i := by
  apply load_congr
  intro x hx hx'
  unfold pageSize entryCount at *
  exact h x (by omega) (by omega)

/-! ## translation -/

/-- what the walk returns for a leaf: the physical address and the flags of the entry -/
structure Translation where
  pa : Nat
  flags : Nat
deriving DecidableEq, Repr

/-- the field of `va` that selects an entry of a table of `level` -/
def vpnAt (level va : Nat) : Nat := field (12 + 9 * level) 9 va

theorem vpnAt_lt (level va : Nat) : vpnAt level va < entryCount := field_lt _ _ _

def leafAt (level pte va : Nat) : Option Translation :=
  if Sv39Pte.flags pte &&& pteValid != 0 && pteIsLeaf (Sv39Pte.flags pte) then
    some
      { pa := Sv39Pte.ppn pte / 2 ^ (9 * level) * 2 ^ (12 + 9 * level) + va % 2 ^ (12 + 9 * level)
        flags := Sv39Pte.flags pte }
  else none

/-- the walk from a table of `level`; the root has level 2 -/
def walk (m : Mem) : Nat → Nat → Nat → Option Translation
  | 0, table, va => leafAt 0 (entry m table (vpnAt 0 va)) va
  | level + 1, table, va =>
    let pte := entry m table (vpnAt (level + 1) va)
    if pteInvalidOrLeaf pte then leafAt (level + 1) pte va
    else walk m level (subtableFromPte pte) va

/-- the tables that `table`, of `level`, leads to; an entry of a table of level 0 leads nowhere -/
def tables (m : Mem) : Nat → Nat → List Nat
  | 0, table => [table]
  | level + 1, table => table :: (List.range entryCount).flatMap fun i =>
    let pte := entry m table i
    if pteInvalidOrLeaf pte then [] else tables m level (subtableFromPte pte)

/-- every superpage leaf has a physical address that is a multiple of its size -/
def Aligned (m : Mem) : Nat → Nat → Prop
  | 0, _ => True
  | level + 1, table => ∀ i < entryCount,
    let pte := entry m table i
    if pteInvalidOrLeaf pte then
      Sv39Pte.flags pte &&& pteValid ≠ 0 → 2 ^ (9 * (level + 1)) ∣ Sv39Pte.ppn pte
    else Aligned m level (subtableFromPte pte)

end FakeKernel
