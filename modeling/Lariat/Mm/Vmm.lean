import Lariat.Mm.Pmm
import Mathlib.Data.List.FinRange

/-! Page tables and the functions of kernel/vmm.c over them. Physical addresses are frame
numbers, so the flag bits of an entry stand beside the frame it points to. -/
namespace Lariat.Mm
open Function

/-- The flag bits of an entry. `rest` holds those that are only carried along. -/
structure Flags where
  present : Bool := false
  writable : Bool := false
  user : Bool := false
  huge : Bool := false
  rest : Nat := 0
deriving DecidableEq

structure Entry where
  frame : Nat := 0
  flags : Flags := {}
deriving DecidableEq

abbrev Table := Fin 512 → Entry

def emptyTable : Table := fun _ => {}

def ptIsPresent (e : Entry) : Bool := e.flags.present

def ptIsHuge (e : Entry) : Bool := e.flags.huge

instance neZero_entries : @NeZero Nat Zero.ofOfNat0 512 := Nat.instNeZeroSucc

def ptIndex (virt level : Nat) : Fin 512 := Fin.ofNat 512 (virt >>> (12+level * 9))

/-- Physical memory, each frame read as a page table and as bytes, with the allocator and the
frame of the kernel's own top-level table. -/
structure Mem where
  table : Nat → Table
  byte : Nat → Nat → UInt8
  pmm : Pmm
  kernelPml4 : Nat

namespace Mem

variable (m : Mem)

def setEntry (t : Nat) (i : Fin 512) (e : Entry) : Mem :=
  { m with table := update m.table t (update (m.table t) i e) }

def setTable (t : Nat) (z : Table) : Mem := { m with table := update m.table t z }

def setPage (f : Nat) (b : Nat → UInt8) : Mem := { m with byte := update m.byte f b }

def alloc : Mem × Nat := ({ m with pmm := (pmmAllocPage m.pmm).1 },(pmmAllocPage m.pmm).2)

def freePage (f : Nat) : Mem := { m with pmm := pmmFreePage m.pmm f }

end Mem

/-- The flags of an entry that points to a lower table. -/
def tableFlags : Flags := { present := true, writable := true, user := true }

def allocPtPage (m : Mem) : Mem × Nat :=
  if m.alloc.2 = 0 then m.alloc else (m.alloc.1.setTable m.alloc.2 emptyTable,m.alloc.2)

/-- The table below a slot, allocated and linked in when the slot is empty. -/
def tableBelow (m : Mem) (t : Nat) (i : Fin 512) : Mem × Option Nat :=
  if ptIsPresent (m.table t i) then (m,some (m.table t i).frame)
  else if (allocPtPage m).2 = 0 then ((allocPtPage m).1,none)
  else ((allocPtPage m).1.setEntry t i ⟨(allocPtPage m).2,tableFlags⟩,some (allocPtPage m).2)

def vmmMapPageIn (m : Mem) (pml4 virt phys : Nat) (flags : Flags) : Mem × Bool :=
  match tableBelow m pml4 (ptIndex virt 3) with
  | (m,none) => (m,false)
  | (m,some pdpt) =>
    match tableBelow m pdpt (ptIndex virt 2) with
    | (m,none) => (m,false)
    | (m,some pd) =>
      if ptIsPresent (m.table pd (ptIndex virt 1)) && ptIsHuge (m.table pd (ptIndex virt 1)) then
        (m,false)
      else
        match tableBelow m pd (ptIndex virt 1) with
        | (m,none) => (m,false)
        | (m,some pt) =>
          (m.setEntry pt (ptIndex virt 0) ⟨phys,{ flags with present := true }⟩,true)

def vmmUnmapPageIn (m : Mem) (pml4 virt : Nat) : Mem :=
  let e3 := m.table pml4 (ptIndex virt 3)
  if !ptIsPresent e3 then m else
  let e2 := m.table e3.frame (ptIndex virt 2)
  if !ptIsPresent e2 then m else
  let e1 := m.table e2.frame (ptIndex virt 1)
  if !ptIsPresent e1 then m else
  if ptIsHuge e1 then m else
  m.setEntry e1.frame (ptIndex virt 0) {}

def vmmVirtToPhysIn (m : Mem) (pml4 virt : Nat) : Nat :=
  let e3 := m.table pml4 (ptIndex virt 3)
  if !ptIsPresent e3 then 0 else
  let e2 := m.table e3.frame (ptIndex virt 2)
  if !ptIsPresent e2 then 0 else
  let e1 := m.table e2.frame (ptIndex virt 1)
  if !ptIsPresent e1 then 0 else
  if ptIsHuge e1 then e1.frame * 4096 ||| virt % 0x200000 else
  let e0 := m.table e1.frame (ptIndex virt 0)
  if !ptIsPresent e0 then 0 else e0.frame * 4096 ||| virt % 4096

/-- The address of the `i`-th page from `virt`, in 64-bit arithmetic. -/
def pageAt (virt i : Nat) : Nat := (virt+i * 4096) % 0x10000000000000000

def vmmUnmapRangeIn (m : Mem) (pml4 virt : Nat) : Nat → Mem
  | 0 => m
  | n+1 => vmmUnmapPageIn (vmmUnmapRangeIn m pml4 virt n) pml4 (pageAt virt n)

/-- The entry leads to what the kernel's table has in the same slot. -/
def sameSlot (m : Mem) (k : Nat) (i : Fin 512) (e : Entry) : Bool :=
  ptIsPresent (m.table k i) && (m.table k i).frame == e.frame

/-- `sameSlot` against a kernel table that may be missing, frame 0. -/
def sharedWith (m : Mem) (kphys : Nat) (i : Fin 512) (e : Entry) : Bool :=
  kphys != 0 && sameSlot m kphys i e

/-- The kernel's table below slot `i` of its top-level table, or 0. -/
def kernelBelow (m : Mem) (i : Fin 512) : Nat :=
  if ptIsPresent (m.table m.kernelPml4 i) then (m.table m.kernelPml4 i).frame else 0

/-- One pass over the slots of a table that drops every present entry not to be skipped. -/
def freeSlots (skip : Mem → Fin 512 → Entry → Bool) (drop : Mem → Fin 512 → Entry → Mem)
    (phys : Nat) (m : Mem) : Mem :=
  (List.finRange 512).foldl (fun m i =>
    if !ptIsPresent (m.table phys i) || skip m i (m.table phys i) then m
    else drop m i (m.table phys i)) m

def freeUserTable : Nat → Mem → Nat → Nat → Mem
  | 0, m, phys, kphys =>
    (freeSlots (fun m i e => sharedWith m kphys i e || ptIsHuge e)
      (fun m _ e => m.freePage e.frame) phys m).freePage phys
  | level+1, m, phys, kphys =>
    (freeSlots (fun m i e => sharedWith m kphys i e || ptIsHuge e)
      (fun m _ e => freeUserTable level m e.frame 0) phys m).freePage phys

def vmmDestroyPagetable (m : Mem) (pml4 : Nat) : Mem :=
  if pml4 = 0 then m else
  (freeSlots (fun m i e => sameSlot m m.kernelPml4 i e)
    (fun m i e => freeUserTable 2 m e.frame (kernelBelow m i)) pml4 m).freePage pml4

/-- One pass that fills table `phys` from table `src`: shared entries are taken over, the others
copied by `copy`. The flag tells whether every copy was made. -/
def cloneSlots (shared : Mem → Fin 512 → Entry → Bool)
    (copy : Mem → Fin 512 → Entry → Mem × Option Entry) (src phys : Nat) :
    List (Fin 512) → Mem → Mem × Bool
  | [], m => (m,true)
  | i :: is, m =>
    if !ptIsPresent (m.table src i) then cloneSlots shared copy src phys is m
    else if shared m i (m.table src i) then
      cloneSlots shared copy src phys is (m.setEntry phys i (m.table src i))
    else
      match copy m i (m.table src i) with
      | (m,none) => (m,false)
      | (m,some e) => cloneSlots shared copy src phys is (m.setEntry phys i e)

/-- A user page copied to a fresh frame. -/
def copyPage (m : Mem) (e : Entry) : Mem × Option Entry :=
  if m.alloc.2 = 0 then (m.alloc.1,none)
  else (m.alloc.1.setPage m.alloc.2 (m.alloc.1.byte e.frame),some ⟨m.alloc.2,e.flags⟩)

/-- The entry for a copied table, if the copy was made. -/
def copiedTable (e : Entry) (r : Mem × Nat) : Mem × Option Entry :=
  (r.1,if r.2 = 0 then none else some ⟨r.2,e.flags⟩)

/-- A fresh empty table filled by `fill`, or undone by `undo`; frame 0 when there is no memory. -/
def cloneTable (fill : Nat → Mem → Mem × Bool) (undo : Mem → Nat → Mem) (m : Mem) : Mem × Nat :=
  if (allocPtPage m).2 = 0 then allocPtPage m
  else
    let phys := (allocPtPage m).2
    match fill phys (allocPtPage m).1 with
    | (m,true) => (m,phys)
    | (m,false) => (undo m phys,0)

def cloneUserTable : Nat → Mem → Nat → Nat → Mem × Nat
  | 0, m, src, kphys =>
    cloneTable (fun phys => cloneSlots (fun m i e => sharedWith m kphys i e)
        (fun m _ e => copyPage m e) src phys (List.finRange 512))
      (fun m phys => freeUserTable 0 m phys kphys) m
  | level+1, m, src, kphys =>
    cloneTable (fun phys => cloneSlots (fun m i e => sharedWith m kphys i e)
        (fun m _ e => if ptIsHuge e then (m,some e)
          else copiedTable e (cloneUserTable level m e.frame 0)) src phys (List.finRange 512))
      (fun m phys => freeUserTable (level+1) m phys kphys) m

def vmmClonePagetable (m : Mem) (src : Nat) : Mem × Nat :=
  cloneTable (fun phys => cloneSlots (fun m i e => sameSlot m m.kernelPml4 i e)
      (fun m i e => copiedTable e (cloneUserTable 2 m e.frame (kernelBelow m i))) src phys
      (List.finRange 512))
    vmmDestroyPagetable m

/-- The present entries of a table. -/
def presentSlots (z : Table) : Table := fun i => if ptIsPresent (z i) then z i else {}

def vmmCloneKernelPagetable (m : Mem) : Mem × Nat :=
  if (allocPtPage m).2 = 0 then allocPtPage m
  else
    let m1 := (allocPtPage m).1
    let phys := (allocPtPage m).2
    let k := m1.table m1.kernelPml4
    if ptIsPresent (k 0) then
      if m1.alloc.2 = 0 then (vmmDestroyPagetable m1.alloc.1 phys,0)
      else
        ((m1.alloc.1.setTable m1.alloc.2 (presentSlots (m1.table (k 0).frame))).setTable phys
          (update (presentSlots k) 0 ⟨m1.alloc.2,tableFlags⟩),phys)
    else (m1.setTable phys (presentSlots k),phys)

/-- What the processor makes of a virtual address: the physical address, and whether the page may
be written and reached from user mode, which every level has to allow. -/
structure Mapping where
  phys : Nat
  writable : Bool
  user : Bool
deriving DecidableEq

/-- The processor's walk from the table of a level, given what the levels above allow. -/
def walk (table : Nat → Table) (virt : Nat) : Nat → Nat → Bool → Bool → Option Mapping
  | 0, t, w, u =>
    let e := table t (ptIndex virt 0)
    if !ptIsPresent e then none
    else some ⟨e.frame * 4096 ||| virt % 4096,w && e.flags.writable,u && e.flags.user⟩
  | level+1, t, w, u =>
    let e := table t (ptIndex virt (level+1))
    if !ptIsPresent e then none
    else if level = 0 ∧ ptIsHuge e then
      some ⟨e.frame * 4096 ||| virt % 0x200000,w && e.flags.writable,u && e.flags.user⟩
    else walk table virt level e.frame (w && e.flags.writable) (u && e.flags.user)

def mapping (table : Nat → Table) (pml4 virt : Nat) : Option Mapping :=
  walk table virt 3 pml4 true true

theorem vmmVirtToPhysIn_eq (m : Mem) (pml4 virt : Nat) :
    vmmVirtToPhysIn m pml4 virt = (mapping m.table pml4 virt).elim 0 (·.phys) := by
  simp only [vmmVirtToPhysIn,mapping,walk]
  grind

end Lariat.Mm
