import FakeKernel.Kernel.Heap

/-!
# Areas of an address space (kernel/vm.c, kernel/vm.h)

The functions of vm.c on the heap, except vm_clone, which reads user memory.  `list` is the area
list of a task.  The loops follow the links of the list as they are stored: on a list that leads back
into itself they do not return.
-/

namespace FakeKernel

def vmRead : Nat := 1
def vmWrite : Nat := 2
def vmExec : Nat := 4
def vmStack : Nat := 1 <<< 10

def pteFlagsFromVmFlags (vmFlags : Nat) : Nat :=
  let f := pteValid ||| pteUser
  let f := if vmFlags ||| vmRead ≠ 0 then f ||| pteRead else f
  let f := if vmFlags ||| vmWrite ≠ 0 then f ||| pteWrite else f
  if vmFlags ||| vmExec ≠ 0 then f ||| pteExec else f

namespace Heap

def vmAreaCheckAlignment (a : Nat) (h : Heap) : Res Unit :=
  if (h.area a).va % pageSize ≠ 0 then panic "misaligned va" else .ok ()

def vmAreaCreate (va nPages flags : Nat) (h : Heap) : Res (Nat × Heap) := do
  let (a, h) ← h.kmalloc sizeofVmArea
  let h := h.setArea a { va := va, nPages := nPages, flags := flags, refcount := 0 }
  let h := h.listInit (.pages a)
  h.vmAreaCheckAlignment a
  .ok (a, h)

def vmAreaAddPage (a page : Nat) (h : Heap) : Res (Int × Heap) := do
  let (n, h) ← h.listNodeCreate page
  if n = 0 then .ok (-ENOMEM, h) else .ok (0, h.listPush (.pages a) n)

/-- the list_foreach of vm_area_destroy -/
def freePagesFrom : Nat → Nat → Heap → Res Heap
  | 0, _, _ => .error .hang
  | n + 1, node, h =>
    if node = 0 then .ok h
    else do
      let h ← h.freePage (h.node node).value
      freePagesFrom n (h.node node).next h

def vmAreaDestroy (a : Nat) (h : Heap) : Res Heap := do
  let h ← freePagesFrom wordCount (h.lists.list (.pages a)).first h
  let h ← h.listDestroy (.pages a)
  h.kfree a

/-- reference counts have 32 bits -/
def refcountMod : Nat := 2 ^ 32

def vmAreaIncref (a : Nat) (h : Heap) : Res Heap := do
  h.vmAreaCheckAlignment a
  let x := h.area a
  let h := h.setArea a { x with refcount := (x.refcount + 1) % refcountMod }
  kassert (0 < (h.area a).refcount) "vm_area_incref: refcount overflow"
  .ok h

def vmAreaDecref (a : Nat) (h : Heap) : Res Heap := do
  h.vmAreaCheckAlignment a
  let x := h.area a
  let h := h.setArea a { x with refcount := (x.refcount + refcountMod - 1) % refcountMod }
  if (h.area a).refcount = 0 then h.vmAreaDestroy a else .ok h

/-- the loop of vm_add_area: the new node is inserted before every area that lies above the new
area, not before the first one only -/
def vmInsertFrom (r : ListRef) (a new : Nat) : Nat → Nat → Heap → Res Heap
  | 0, _, _ => .error .hang
  | n + 1, node, h =>
    if node = 0 then .ok h
    else
      let h := if (h.area a).va < (h.area (h.node node).value).va then
          { h with lists := h.lists.listInsertBefore r new node }
        else h
      vmInsertFrom r a new n (h.node node).next h

def vmAddArea (r : ListRef) (a : Nat) (h : Heap) : Res (Int × Heap) := do
  let (new, h) ← h.listNodeCreate a
  if new = 0 then .ok (-ENOMEM, h)
  else
    let h ← h.vmAreaIncref a
    let h ← vmInsertFrom r a new wordCount (h.lists.list r).first h
    .ok (0, h.listPush r new)

def vmAreaIn (x : VmArea) (va : Nat) : Bool :=
  let size := (x.nPages <<< pageIndexBits) % wordCount
  x.va ≤ va && va ≤ (x.va + size) % wordCount

/-- the list_foreach of vm_find; 0 is NULL -/
def vmFindFrom (h : Heap) (va : Nat) : Nat → Nat → Res Nat
  | 0, _ => .error .hang
  | n + 1, node =>
    if node = 0 then .ok 0
    else
      let a := (h.node node).value
      if vmAreaIn (h.area a) va then .ok a else vmFindFrom h va n (h.node node).next

def vmFind (h : Heap) (r : ListRef) (va : Nat) : Res Nat :=
  vmFindFrom h va wordCount (h.lists.list r).first

/-- the list_foreach of vm_find_stack; 0 is NULL -/
def vmFindStackFrom (h : Heap) (va : Nat) : Nat → Nat → Res Nat
  | 0, _ => .error .hang
  | n + 1, node =>
    if node = 0 then .ok 0
    else
      let a := (h.node node).value
      if vmAreaIn (h.area a) va then .ok 0
      else if va < (h.area a).va then
        .ok (if (h.area a).flags &&& vmStack ≠ 0 then a else 0)
      else vmFindStackFrom h va n (h.node node).next

def vmFindStack (h : Heap) (r : ListRef) (va : Nat) : Res Nat :=
  vmFindStackFrom h va wordCount (h.lists.list r).first

/-- the list_foreach of vm_decref_all -/
def vmDecrefFrom : Nat → Nat → Heap → Res Heap
  | 0, _, _ => .error .hang
  | n + 1, node, h =>
    if node = 0 then .ok h
    else do
      let h ← h.vmAreaDecref (h.node node).value
      vmDecrefFrom n (h.node node).next h

def vmDecrefAll (r : ListRef) (h : Heap) : Res Heap := do
  let h ← vmDecrefFrom wordCount (h.lists.list r).first h
  h.listDestroy r

end Heap

end FakeKernel
