import Lariat.Foundation.ByteStore
import Lariat.Mm.Vmm
import Mathlib.Data.Finset.Insert

/-! The memory calls of cpu/syscall.c, the loader of kernel/elf.c and the life of an address
space, as steps of a system of processes. -/
namespace Lariat.Mm
open Foundation.ByteStore Function

def EBADF : Int := 9

def ENOEXEC : Int := 8

def ENOMEM : Int := 12

def EINVAL : Int := 22

def USER_HEAP_BASE : Nat := 0x50000000

def USER_MMAP_BASE : Nat := 0x70000000

def USER_CODE_START : Nat := 0x40000000

def USER_DYN_BASE : Nat := 0x40000000

def INTERP_BASE : Nat := 0x4000000000

def USER_STACK_TOP : Nat := 0x7FC0000000

def USER_STACK_PAGES : Nat := 256

/-- 64-bit wrap-around. -/
def wrap (n : Nat) : Nat := n % 0x10000000000000000

/-- The number of pages a length takes, as the calls compute it. -/
def pagesOf (length : Nat) : Nat := wrap (length+4095) / 4096

def roundUp (addr : Nat) : Nat := wrap (addr+4095) / 4096*4096

def roundDown (addr : Nat) : Nat := addr / 4096*4096

def userFlags (writable : Bool) : Flags := { present := true, user := true, writable := writable }

/-- A fresh frame holding `bytes`, mapped for the user; the frame goes back if it cannot be. -/
def mapPage (m : Mem) (cr3 virt : Nat) (bytes : Nat → UInt8) (writable : Bool) : Mem × Bool :=
  if m.alloc.2 = 0 then (m.alloc.1,false)
  else
    let r := vmmMapPageIn (m.alloc.1.setPage m.alloc.2 bytes) cr3 virt m.alloc.2 (userFlags writable)
    if r.2 then r else (r.1.freePage m.alloc.2,false)

/-- The first `n` pages from `virt`, mapped one after the other up to the first failure, whose
number is returned. -/
def mapPages (m : Mem) (cr3 virt : Nat) (bytes : Nat → Nat → UInt8) (writable : Bool) :
    Nat → Mem × Option Nat
  | 0 => (m,none)
  | n+1 =>
    match mapPages m cr3 virt bytes writable n with
    | (m,some i) => (m,some i)
    | (m,none) =>
      let r := mapPage m cr3 (pageAt virt n) (bytes n) writable
      (r.1,if r.2 then none else some n)

/-- The memory side of a thread. `mmCount` names the counter of a shared address space. -/
structure Proc where
  cr3 : Nat
  mmCount : Option Nat := none
  brkStart : Nat := 0
  brkCur : Nat := 0
  mmapNext : Nat := 0
  zombie : Bool := false

structure Sys where
  mem : Mem
  live : Finset Nat
  proc : Nat → Proc
  counts : Nat → Int
  nextTid : Nat
  nextCount : Nat := 0
  live_lt : ∀ t ∈ live, t < nextTid

def Sys.setMem (s : Sys) (m : Mem) : Sys := { s with mem := m }

def Sys.setProc (s : Sys) (t : Nat) (p : Proc) : Sys :=
  { s with proc := update s.proc t p }

/-- The heap is set up by the first call. -/
def Proc.withHeap (p : Proc) : Proc :=
  if p.brkStart = 0 then { p with brkStart := USER_HEAP_BASE, brkCur := USER_HEAP_BASE } else p

def sysBrk (s : Sys) (t addr : Nat) : Sys × Int :=
  if (s.proc t).cr3 = 0 then (s,-ENOMEM)
  else
    let p := (s.proc t).withHeap
    if addr = 0 ∨ addr < p.brkStart then (s.setProc t p,p.brkCur)
    else if roundUp p.brkCur < roundUp addr then
      match mapPages s.mem p.cr3 (roundUp p.brkCur) (fun _ _ => 0) true
          ((roundUp addr - roundUp p.brkCur) / 4096) with
      | (m,some _) => ((s.setMem m).setProc t p,p.brkCur)
      | (m,none) => ((s.setMem m).setProc t { p with brkCur := addr },addr)
    else
      ((s.setMem (vmmUnmapRangeIn s.mem p.cr3 (roundUp addr)
        ((roundUp p.brkCur - roundUp addr) / 4096))).setProc t { p with brkCur := addr },addr)

/-- What a mapping is made of: zero pages, the `n` bytes a file read returns, a device's own
frames, or a descriptor that is not open. -/
inductive Backing
  | anonymous
  | file (n : Nat) (bytes : Nat → UInt8)
  | device (frame size : Nat)
  | badFd

/-- The read into the pages just mapped: `n` bytes from `base` on. -/
def readInto (m : Mem) (cr3 base n : Nat) (bytes : Nat → UInt8) : Nat → Mem
  | 0 => m
  | j+1 =>
    let m := readInto m cr3 base n bytes j
    let f := vmmVirtToPhysIn m cr3 (pageAt base j) / 4096
    m.setPage f fun o => if j * 4096+o < n then bytes (j*4096 + o) else m.byte f o

/-- `fb_mmap`: the device's frames one after the other; a failure leaves the first pages mapped. -/
def deviceMmap (m : Mem) (cr3 virt frame : Nat) : Nat → Mem × Bool
  | 0 => (m,true)
  | n+1 =>
    match deviceMmap m cr3 virt frame n with
    | (m,false) => (m,false)
    | (m,true) => vmmMapPageIn m cr3 (pageAt virt n) (frame+n) (userFlags true)

def Proc.withArena (p : Proc) : Proc :=
  if p.mmapNext = 0 then { p with mmapNext := USER_MMAP_BASE } else p

/-- The arena's next address after a mapping at `base`. -/
def Proc.bump (p : Proc) (base pages : Nat) : Proc :=
  if p.mmapNext < wrap (base+pages * 4096) then { p with mmapNext := wrap (base+pages * 4096) }
  else p

/-- The outcome of mapping pages for `mmap`: they are unmapped again if one fails. -/
def mmapPages (s : Sys) (t base pages : Nat) (p : Proc) (writable : Bool) (fill : Mem → Mem) :
    Sys × Int :=
  match mapPages s.mem p.cr3 base (fun _ _ => 0) writable pages with
  | (m,some i) => ((s.setMem (vmmUnmapRangeIn m p.cr3 base i)).setProc t p,-ENOMEM)
  | (m,none) => ((s.setMem (fill m)).setProc t (p.bump base pages),base)

def sysMmap (s : Sys) (t addr length : Nat) (write fixed : Bool) (src : Backing) : Sys × Int :=
  if (s.proc t).cr3 = 0 then (s,-ENOMEM)
  else if length = 0 then (s,-EINVAL)
  else
    let p := (s.proc t).withArena
    let pages := pagesOf length
    if fixed ∧ addr ≠ 0 ∧ addr % 4096 ≠ 0 then (s.setProc t p,-EINVAL)
    else
      let base := if fixed ∧ addr ≠ 0 then addr else p.mmapNext
      match src with
      | .badFd => (s.setProc t p,-EBADF)
      | .device frame size =>
        match deviceMmap s.mem p.cr3 base frame (pagesOf (min length size)) with
        | (m,false) => ((s.setMem m).setProc t p,-ENOMEM)
        | (m,true) => ((s.setMem m).setProc t (p.bump base pages),base)
      | .file n bytes =>
        mmapPages s t base pages p true fun m => readInto m p.cr3 base (min n length) bytes pages
      | .anonymous => mmapPages s t base pages p write id

def sysMunmap (s : Sys) (t addr length : Nat) : Sys × Int :=
  if (s.proc t).cr3 = 0 then (s,-EINVAL)
  else if length = 0 ∨ addr % 4096 ≠ 0 then (s,-EINVAL)
  else (s.setMem (vmmUnmapRangeIn s.mem (s.proc t).cr3 addr (pagesOf length)),0)

/-- Each page of the range that is mapped, mapped again with the new permission. -/
def protectPages (m : Mem) (cr3 virt : Nat) (writable : Bool) : Nat → Mem
  | 0 => m
  | n+1 =>
    let m := protectPages m cr3 virt writable n
    let phys := vmmVirtToPhysIn m cr3 (pageAt virt n)
    if phys = 0 then m
    else (vmmMapPageIn m cr3 (pageAt virt n) (phys / 4096) (userFlags writable)).1

def sysMprotect (s : Sys) (t addr length : Nat) (write : Bool) : Sys × Int :=
  if (s.proc t).cr3 = 0 then (s,-EINVAL)
  else if addr % 4096 ≠ 0 then (s,-EINVAL)
  else (s.setMem (protectPages s.mem (s.proc t).cr3 addr write (pagesOf length)),0)

/-- A loadable segment: where it goes, its bytes in the file, and the page at which reading the
file fails, if it does. -/
structure Segment where
  vaddr : Nat
  filesz : Nat
  memsz : Nat
  writable : Bool
  data : Nat → UInt8
  unreadable : Option Nat := none

def Segment.start (g : Segment) : Nat := roundDown g.vaddr

def Segment.pages (g : Segment) : Nat := (roundUp (g.vaddr+g.memsz) - g.start) / 4096

/-- The bytes of one page of a segment: the slice of the file that falls on it, zeros around. -/
def Segment.bytes (g : Segment) (i o : Nat) : UInt8 :=
  let v := pageAt g.start i
  let copyEnd := min (v+4096) (wrap (g.vaddr+g.filesz))
  if max v g.vaddr ≤ v+o ∧ v+o < copyEnd then g.data (v+o - g.vaddr) else 0

/-- `map_and_fill` and its streaming twin. -/
def mapAndFill (m : Mem) (cr3 : Nat) (g : Segment) : Mem × Bool :=
  let n := min g.pages (g.unreadable.getD g.pages)
  match mapPages m cr3 g.start g.bytes g.writable n with
  | (m,some _) => (m,false)
  | (m,none) => (m,n = g.pages)

def loadSegments (cr3 : Nat) : List Segment → Mem → Mem × Bool
  | [], m => (m,true)
  | g :: gs, m =>
    match mapAndFill m cr3 g with
    | (m,false) => (m,false)
    | (m,true) => loadSegments cr3 gs m

def Segment.shift (g : Segment) (base : Nat) : Segment := { g with vaddr := wrap (g.vaddr+base) }

/-- The program a path names: an ELF image with its interpreter, if that can be read, and the words
its relocation stores, or a flat binary. `streamed` images are not held in memory as a whole. -/
inductive Program
  | elf (dyn streamed : Bool) (loads : List Segment) (interp : Option (List Segment))
    (relocs : List (Nat × Nat))
  | flat (len : Nat) (data : Nat → UInt8)

/-- A position-independent image linked at 0 is loaded at a fixed address. -/
def loadBias (dyn : Bool) (loads : List Segment) : Nat :=
  if dyn ∧ (∃ g ∈ loads, g.vaddr = 0) then USER_DYN_BASE else 0

/-- Loads the image into an address space. Only an image held in memory can do without its
interpreter, since the kernel then relocates it itself. -/
def Program.load (cr3 : Nat) (m : Mem) : Program → Mem × Int
  | .elf dyn streamed loads interp _ =>
    match loadSegments cr3 (loads.map (·.shift (loadBias dyn loads))) m with
    | (m,false) => (m,-ENOMEM)
    | (m,true) =>
      match interp with
      | none => (m,if streamed then -ENOEXEC else 0)
      | some gs =>
        let r := loadSegments cr3 (gs.map (·.shift INTERP_BASE)) m
        (r.1,if !r.2 && streamed then -ENOEXEC else 0)
  | .flat len data =>
    let r := mapAndFill m cr3 ⟨USER_CODE_START,len,len,true,data,none⟩
    (r.1,if r.2 then 0 else -ENOMEM)

/-- The interpreter of a program gets loaded, the program itself having been. -/
def interpLoaded (r : Nat) (m : Mem) : Program → Bool
  | .elf dyn _ loads (some gs) _ =>
    (loadSegments r (gs.map (·.shift INTERP_BASE))
      (loadSegments r (loads.map (·.shift (loadBias dyn loads))) m).1).2
  | _ => false

/-- What a store through table `pml4` does. -/
def storeByte (m : Mem) (pml4 virt : Nat) (b : UInt8) : Mem :=
  (mapping m.table pml4 virt).elim m fun a =>
    m.setPage (a.phys / 4096) (update (m.byte (a.phys / 4096)) (a.phys % 4096) b)

/-- A copy to an address, byte by byte. -/
def storeBytes (m : Mem) (r a : Nat) : List UInt8 → Mem
  | [] => m
  | b :: bs => storeBytes (storeByte m r (wrap a) b) r (a+1) bs

def applyRelocations (cr3 : Nat) (m : Mem) (relocs : List (Nat × Nat)) : Mem :=
  relocs.foldl (fun m w => storeBytes m cr3 w.1 (le 8 w.2)) m

/-- The memory with the program relocated, `m` being the memory before it was loaded: the kernel
relocates what it holds in memory and has loaded no interpreter for. -/
def Program.relocate (cr3 : Nat) (m m' : Mem) : Program → Mem
  | .elf dyn streamed loads interp relocs =>
    if streamed || interpLoaded cr3 m (.elf dyn streamed loads interp relocs) then m'
    else applyRelocations cr3 m' relocs
  | .flat _ _ => m'

/-- The fallback when there is no memory for a fresh table. -/
def resetAddressSpace (m : Mem) (cr3 : Nat) : Mem :=
  vmmUnmapRangeIn (vmmUnmapPageIn m cr3 USER_CODE_START) cr3
    (USER_STACK_TOP-USER_STACK_PAGES * 4096) USER_STACK_PAGES

def Proc.resetHeap (p : Proc) : Proc := { p with brkStart := 0, brkCur := 0, mmapNext := 0 }

/-- The address space execve loads into, and the old table to destroy afterwards, or 0. -/
def execSpace (s : Sys) (t : Nat) : Sys × Nat :=
  let p := s.proc t
  let r := vmmCloneKernelPagetable s.mem
  if r.2 = 0 then
    ((s.setMem (resetAddressSpace r.1 p.cr3)).setProc t p.resetHeap,0)
  else
    match p.mmCount with
    | some c =>
      ({ (s.setMem r.1).setProc t { p with cr3 := r.2, mmCount := none } with
        counts := update s.counts c (s.counts c - 1) },0)
    | none => ((s.setMem r.1).setProc t { p with cr3 := r.2 },p.cr3)

/-- execve of the program found at a path, or of one that cannot be read. The frames its buffers
take on the way are back when it returns, and not counted. -/
def elfExecve (s : Sys) (t : Nat) (prog : Except Int Program) : Sys × Int :=
  if (s.proc t).cr3 = 0 then (s,-EINVAL)
  else
    match prog with
    | .error e => (s,e)
    | .ok prog =>
      let (s,old) := execSpace s t
      let cr3 := (s.proc t).cr3
      let r := prog.load cr3 s.mem
      if r.2 < 0 then (s.setMem (vmmDestroyPagetable r.1 old),r.2)
      else
        match mapPages (vmmDestroyPagetable (prog.relocate cr3 s.mem r.1) old) cr3 (USER_STACK_TOP-USER_STACK_PAGES * 4096)
            (fun _ _ => 0) true USER_STACK_PAGES with
        | (m,some _) => (s.setMem m,-ENOMEM)
        | (m,none) => (s.setMem m,0)

/-- A new live thread. -/
def Sys.spawn (s : Sys) (p : Proc) : Sys where
  mem := s.mem
  live := insert s.nextTid s.live
  proc := update s.proc s.nextTid p
  counts := s.counts
  nextTid := s.nextTid+1
  nextCount := s.nextCount
  live_lt t ht := by
    rcases Finset.mem_insert.mp ht with rfl | ht
    · exact Nat.lt_succ_self _
    · exact Nat.lt_succ_of_lt (s.live_lt t ht)

/-- `process_create_user`; `ok` tells whether the kernel's own allocations succeed. -/
def processCreateUser (s : Sys) (ok : Bool) : Sys :=
  let r := vmmCloneKernelPagetable s.mem
  if r.2 = 0 then s.setMem r.1
  else if ok then (s.setMem r.1).spawn { cr3 := r.2 }
  else s.setMem (vmmDestroyPagetable r.1 r.2)

/-- A child with a copy of the address space and the counter `mm`. If the kernel's own allocations
after the copy do not succeed the copy is destroyed, or only its top-level table given back. -/
def Sys.copied (s : Sys) (t : Nat) (mm : Option Nat) (ok clean : Bool) : Sys :=
  let r := vmmClonePagetable s.mem (s.proc t).cr3
  if r.2 = 0 then s.setMem r.1
  else if ok then (s.setMem r.1).spawn { s.proc t with cr3 := r.2, mmCount := mm }
  else if clean then s.setMem (vmmDestroyPagetable r.1 r.2)
  else s.setMem (r.1.freePage r.2)

/-- `process_fork`. The child is a copy of the parent's thread, its counter included. -/
def processFork (s : Sys) (t : Nat) (ok : Bool) : Sys :=
  if (s.proc t).cr3 = 0 then s else s.copied t (s.proc t).mmCount ok false

/-- Which of the kernel's own allocations for a new thread succeed: the counter of its address
space, the kernel stack, the thread and the descriptor table. -/
structure Luck where
  counter : Bool := true
  kstack : Bool := true
  thread : Bool := true
  fdt : Bool := true
deriving DecidableEq

def Luck.all (luck : Luck) : Bool := luck.kstack && luck.thread && luck.fdt

/-- The parent's counter, made when it first shares its address space. -/
def Sys.promote (s : Sys) (t : Nat) : Sys :=
  { s with
    counts := update s.counts s.nextCount 1
    nextCount := s.nextCount+1 }.setProc t { s.proc t with mmCount := some s.nextCount }

/-- A child in the address space that `c` counts the users of; a failure takes the count back. -/
def Sys.share (s : Sys) (t c : Nat) (luck : Luck) : Sys :=
  if luck.all then
    { s with counts := update s.counts c (s.counts c + 1) }.spawn { s.proc t with mmCount := some c }
  else s

/-- `process_clone`, with CLONE_VM or without. -/
def processClone (s : Sys) (t : Nat) (shareVm : Bool) (luck : Luck) : Sys :=
  if (s.proc t).cr3 = 0 then s
  else if shareVm then
    match (s.proc t).mmCount with
    | some c => s.share t c luck
    | none => if luck.counter then (s.promote t).share t s.nextCount luck else s
  else s.copied t none luck.all (luck.kstack && luck.thread)

/-- The part of `sys_waitpid` that reaps a zombie: its address space goes with its last user. -/
def reap (s : Sys) (t : Nat) : Sys :=
  let p := s.proc t
  let gone : Sys := { s with
    live := s.live.erase t
    live_lt := fun u hu => s.live_lt u (Finset.mem_of_mem_erase hu) }
  if p.cr3 = 0 then gone
  else
    match p.mmCount with
    | none => gone.setMem (vmmDestroyPagetable s.mem p.cr3)
    | some c =>
      if s.counts c = 1 then
        { gone.setMem (vmmDestroyPagetable s.mem p.cr3) with
          counts := update s.counts c 0 }
      else { gone with counts := update s.counts c (s.counts c - 1) }

inductive Event
  | create (ok : Bool)
  | brk (t addr : Nat)
  | mmap (t addr length : Nat) (write fixed : Bool) (src : Backing)
  | munmap (t addr length : Nat)
  | mprotect (t addr length : Nat) (write : Bool)
  | execve (t : Nat) (prog : Except Int Program)
  | fork (t : Nat) (ok : Bool)
  | clone (t : Nat) (shareVm : Bool) (luck : Luck)
  | exit (t : Nat)
  | reap (t : Nat)

/-- The thread runs, so it can make calls. -/
def Sys.Runs (s : Sys) (t : Nat) : Prop := t ∈ s.live ∧ (s.proc t).zombie = false

instance (s : Sys) (t : Nat) : Decidable (s.Runs t) := inferInstanceAs (Decidable (_ ∧ _))

def step (s : Sys) : Event → Option Sys
  | .create ok => some (processCreateUser s ok)
  | .brk t addr => if s.Runs t then some (sysBrk s t addr).1 else none
  | .mmap t addr length write fixed src =>
    if s.Runs t then some (sysMmap s t addr length write fixed src).1 else none
  | .munmap t addr length => if s.Runs t then some (sysMunmap s t addr length).1 else none
  | .mprotect t addr length write =>
    if s.Runs t then some (sysMprotect s t addr length write).1 else none
  | .execve t prog => if s.Runs t then some (elfExecve s t prog).1 else none
  | .fork t ok => if s.Runs t then some (processFork s t ok) else none
  | .clone t shareVm luck => if s.Runs t then some (processClone s t shareVm luck) else none
  | .exit t =>
    if s.Runs t then some (s.setProc t { s.proc t with zombie := true }) else none
  | .reap t => if t ∈ s.live ∧ (s.proc t).zombie then some (reap s t) else none

end Lariat.Mm
