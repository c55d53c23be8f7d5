import Lariat.Elf.Relocation
import Lariat.Mm.Spawn

/-! `elf_execve` as a whole: the thread's record, its address space and its descriptors, and the
buffers and files the call holds on the way. -/
namespace Lariat.Elf

open Foundation.ByteStore Function
open Mm

/-- The fields of a thread that execve reads or sets. -/
structure ThreadInfo where
  name : List UInt8 := []
  sigHandlers : Fin 32 → Nat := fun _ => 0
  sigPending : Nat := 0
  sigMask : Nat := 0
  sigRestorer : Nat := 0
  clearChildTid : Nat := 0
  uid : Nat := 0
  gid : Nat := 0
  euid : Nat := 0
  egid : Nat := 0
  suid : Nat := 0
  sgid : Nat := 0
  userRsp : Nat := 0
  tmpRip : Nat := 0
  tmpRsp : Nat := 0
  tmpRflags : Nat := 0

/-- Each thread's descriptor table, and the reference counts of the open files in the tables. -/
structure Files where
  fdt : Nat → Option Nat
  table : Nat → FdTable
  refCount : Nat → Int
  opened : Nat → Bool

/-- A file is torn down with its last reference. -/
def Files.vfsClose (s : Files) (f : Nat) : Files :=
  if 1 < s.refCount f then
    { s with refCount := update s.refCount f (s.refCount f - 1) }
  else { s with opened := update s.opened f false }

def Files.clearSlot (s : Files) (o : Nat) (i : Fin FD_MAX) : Files :=
  { s with table := update s.table o { s.table o with
    files := update (s.table o).files i none } }

def Files.closeSlot (s : Files) (o : Nat) (i : Fin FD_MAX) : Files :=
  ((s.table o).files i).elim s fun f => (s.vfsClose f).clearSlot o i

/-- The descriptors execve closes. -/
def execFds : List (Fin FD_MAX) := (List.finRange FD_MAX).filter fun i => 3 ≤ i.val

def Files.closeFds (s : Files) (t : Nat) : Files :=
  (s.fdt t).elim s fun o => execFds.foldl (fun s i => s.closeSlot o i) s

structure State where
  sys : Sys
  info : Nat → ThreadInfo
  files : Files

def State.setMem (s : State) (m : Mem) : State := { s with sys := s.sys.setMem m }

def State.setInfo (s : State) (t : Nat) (f : ThreadInfo → ThreadInfo) : State :=
  { s with info := update s.info t (f (s.info t)) }

structure Outcome where
  state : State
  rc : Int
  held : Multiset Resource

/-- The last component of the path, as far as there is room for it. -/
def progName (path : CString) : List UInt8 :=
  (path.bytes.reverse.takeWhile (· != 47)).reverse.take 31

def ThreadInfo.resetSignals (i : ThreadInfo) : ThreadInfo :=
  { i with
    sigHandlers := fun _ => 0
    sigPending := 0
    sigMask := 0
    sigRestorer := 0
    clearChildTid := 0 }

def S_ISUID : Nat := 0x800
def S_ISGID : Nat := 0x400

/-- The ids of a program that runs with its owner's. -/
def ThreadInfo.setIds (i : ThreadInfo) (f : ExecFile) : ThreadInfo :=
  let i := if f.mode / S_ISUID % 2 = 1 then { i with euid := f.uid, suid := f.uid } else i
  if f.mode / S_ISGID % 2 = 1 then { i with egid := f.gid, sgid := f.gid } else i

def Found.setIds : Found → ThreadInfo → ThreadInfo
  | .file f, i => i.setIds f
  | _, i => i

section Auxv

/-- An entry of the auxiliary vector with a 64-bit value. -/
def mkAux (key value : Nat) (hne : key ≠ AT_NULL) (hlt : key < 0x10000000000000000) : AuxVal :=
  ⟨key,wrap value,hne,hlt,Nat.mod_lt _ (by decide)⟩

def Image.phdrUser (g : Image) : Nat :=
  match g.loads.find? fun p => p.offset ≤ g.ehdr.phoff ∧ g.ehdr.phoff < wrap (p.offset+p.filesz) with
  | some p => p.vaddr+g.bias + (g.ehdr.phoff-p.offset)
  | none => g.bias+g.ehdr.phoff

/-- The entries of an ELF program, `base` being where its interpreter is, or else itself. -/
def Image.elfAux (g : Image) (base : Nat) : List AuxVal :=
  [mkAux 3 g.phdrUser (by decide) (by decide),
    mkAux 4 g.ehdr.phentsize (by decide) (by decide),
    mkAux 5 g.ehdr.phnum (by decide) (by decide),
    mkAux 7 base (by decide) (by decide),
    mkAux 9 (g.ehdr.entry+g.bias) (by decide) (by decide),
    mkAux 8 0 (by decide) (by decide)]

def ThreadInfo.aux (i : ThreadInfo) : List AuxVal :=
  [mkAux 6 4096 (by decide) (by decide),
    mkAux 17 100 (by decide) (by decide),
    mkAux 11 i.uid (by decide) (by decide),
    mkAux 12 i.euid (by decide) (by decide),
    mkAux 13 i.gid (by decide) (by decide),
    mkAux 14 i.egid (by decide) (by decide),
    mkAux 23 0 (by decide) (by decide),
    mkAux AT_RANDOM 0 (by decide) (by decide)]

end Auxv

/-- What the image holds until it is loaded. -/
def Image.held : Image → Multiset Resource
  | .whole _ true => {.heapBuf}
  | .whole _ false => 0
  | .streamed _ _ => {.hdrbuf,.streamFile}

section

variable (c : ExecCall) (g : Image) (r : Nat)

def ExecCall.usesInterp (m : Mem) : Bool :=
  interpLoaded r m (g.program c)

/-- A program that is held in memory and has no interpreter is relocated, `m` being the memory
before it was loaded and `m'` the memory with it. -/
def ExecCall.relocated (m m' : Mem) :
    List Access × Option Mem :=
  match g with
  | .whole b _ =>
    if g.isElf && !c.usesInterp g r m then applyRelocations b m' r g.bias else ([],some m')
  | .streamed _ _ => ([],some m')

def ExecCall.entry (m : Mem) : Nat :=
  if g.isElf then
    if c.usesInterp g r m then ((g.interp c).map (·.1)).getD 0 else wrap (g.ehdr.entry+g.bias)
  else USER_CODE_START

def ExecCall.aux (m : Mem) (i : ThreadInfo) : List AuxVal :=
  (if g.isElf then g.elfAux (if c.usesInterp g r m then INTERP_BASE else g.bias) else []) ++ i.aux

end

def stackBase : Nat := USER_STACK_TOP-USER_STACK_PAGES * 4096

/-- The thread is about to run the program. -/
def ThreadInfo.started (i : ThreadInfo) (entry rsp : Nat) : ThreadInfo :=
  { i with userRsp := rsp, tmpRip := entry, tmpRsp := rsp, tmpRflags := 0x202 }

section

variable (s : State) (t : Nat) (c : ExecCall)

/-- What comes of mapping the stack. If there was no page for it the argument buffer stays behind;
if there was none for its tables it does not. -/
def execStack (entry : Nat) (aux : List AuxVal) :
    Mem × Option Nat → Outcome
  | (m,some _) => ⟨s.setMem m,-ENOMEM,if m.alloc.2 = 0 then {.argbuf} else 0⟩
  | (m,none) =>
    let st := setupUserStack (fun m a bs => storeBytes m (s.sys.proc t).cr3 a bs) m USER_STACK_TOP
      c.argvAt c.kargv c.kenvp aux c.argp c.envpp
    ⟨({ s.setMem st.1 with files := s.files.closeFds t }).setInfo t (·.started entry st.2),0,0⟩

/-- The last part: the stack and the descriptors. -/
def execFinish (entry : Nat) (aux : List AuxVal) (m : Mem) :
    Outcome :=
  execStack s t c entry aux
    (mapPages m (s.sys.proc t).cr3 stackBase (fun _ _ => 0) true USER_STACK_PAGES)

/-- The part that can no longer be undone. The kernel may come to a halt in it. The frames of its
buffers, at most `EXEC_FRAMES` with the page table, are not counted. -/
def execLoad (g : Image) : Option Outcome :=
  let x := execSpace s.sys t
  let s := ({ s with sys := x.1 }).setInfo t fun i =>
    { i.resetSignals with name := progName c.path }
  let r := (x.1.proc t).cr3
  let o := (g.program c).load r x.1.mem
  if o.2 < 0 then some ⟨s.setMem (vmmDestroyPagetable o.1 x.2),o.2,0⟩
  else
    let s := s.setInfo t c.found.setIds
    (c.relocated g r x.1.mem o.1).2.map fun m =>
      execFinish s t c (c.entry g r x.1.mem) (c.aux g r x.1.mem (s.info t))
        (vmmDestroyPagetable m x.2)

def elfExecve : Option Outcome :=
  if (s.sys.proc t).cr3 = 0 then some ⟨s,-EINVAL,0⟩
  else
    match c.acquire with
    | .error (e,held) => some ⟨s,e,held⟩
    | .ok g =>
      if !c.argbuf then some ⟨s,-ENOMEM,g.held - {.heapBuf}⟩
      else execLoad s t c g

end

end Lariat.Elf
