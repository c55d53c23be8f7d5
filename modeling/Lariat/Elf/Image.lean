import Lariat.Elf.InitialStack
import Lariat.Mm.Calls

/-! Program files: how execve gets hold of one, and the program it finds in it. -/
namespace Lariat.Elf

open Foundation.ByteStore Nat
open Mm

def ENOENT : Int := 2
def EACCES : Int := 13

def ELF_MAGIC : Nat := 0x464C457F
def PT_LOAD : Nat := 1
def PT_DYNAMIC : Nat := 2
def PT_INTERP : Nat := 3
def ET_EXEC : Nat := 2
def ET_DYN : Nat := 3

/-- Larger files are not read as a whole. -/
def ELF_STREAM_THRESHOLD : Nat := 0x1000000

def EXEC_ARGBUF : Nat := 128*1024

/-- Bytes in a buffer of the kernel, and the memory around them. -/
structure Buffer where
  bytes : List UInt8
  beyond : Nat → UInt8

/-- What is read at a distance from the start of the buffer. -/
def Buffer.view (b : Buffer) (i : Nat) : UInt8 :=
  if wrap i < b.bytes.length then b.bytes.getD (wrap i) 0 else b.beyond (wrap i)

structure Ehdr where
  magic : Nat
  type : Nat
  entry : Nat
  phoff : Nat
  phentsize : Nat
  phnum : Nat

def EHDR_SIZE : Nat := 64

def readEhdr (m : Nat → UInt8) : Ehdr :=
  ⟨val m 4 0,val m 2 16,val m 8 24,val m 8 32,val m 2 54,val m 2 56⟩

structure Phdr where
  type : Nat
  flags : Nat
  offset : Nat
  vaddr : Nat
  filesz : Nat
  memsz : Nat
  deriving DecidableEq

def PHDR_SIZE : Nat := 56

def readPhdr (m : Nat → UInt8) (a : Nat) : Phdr :=
  ⟨val m 4 a,val m 4 (a+4),val m 8 (a+8),val m 8 (a+16),val m 8 (a+32),val m 8 (a+40)⟩

/-- The program headers, whatever size the file gives for one. -/
def phdrs (m : Nat → UInt8) : List Phdr :=
  (List.range (readEhdr m).phnum).map fun i => readPhdr m ((readEhdr m).phoff + PHDR_SIZE*i)

def Phdr.segment (p : Phdr) (data : Nat → UInt8) : Segment where
  vaddr := p.vaddr
  filesz := p.filesz
  memsz := p.memsz
  writable := p.flags / 2 % 2 = 1
  data := data

/-- A file of the file system. The whole file may be delivered in part; of its parts each read is
complete or fails. -/
structure ExecFile where
  mode : Nat
  uid : Nat
  gid : Nat
  executable : Bool
  size : Nat
  contents : List UInt8
  delivers : Nat
  reads : Nat → Nat → Bool

/-- A seek and a read of `n` bytes. -/
def ExecFile.complete (f : ExecFile) (pos n : Nat) : Bool :=
  pos < 0x8000000000000000 && pos+n ≤ f.contents.length && f.reads pos n

/-- What stands at the path: nothing, a program in the kernel image, or a file. -/
inductive Found
  | missing
  | embedded (bytes : List UInt8)
  | file (f : ExecFile)

/-- A call of execve: what its path names, its vectors, and the answers the kernel's allocations
and the opening of an interpreter get. -/
structure ExecCall where
  path : CString
  found : Found
  argv : List CString
  envp : List CString
  interp : List UInt8 → Option Buffer := fun _ => none
  beyond : Nat → UInt8 := fun _ => 0
  heapBuf : Bool := true
  hdrbuf : Bool := true
  argbuf : Bool := true
  argp : Bool := true
  envpp : Bool := true
  argvAt : Nat := 0

/-- The image as a whole, in a heap buffer unless it is part of the kernel, or the headers of a
file that stays open. -/
inductive Image
  | whole (b : Buffer) (onHeap : Bool)
  | streamed (hdr : Buffer) (f : ExecFile)

/-- What a call may still hold when it returns. -/
inductive Resource
  | heapBuf
  | hdrbuf
  | streamFile
  | argbuf
  deriving DecidableEq

/-- An error return, with what the call has taken and what it gives back. -/
def refuse (rc : Int) (taken back : Multiset Resource) : Except (Int × Multiset Resource) Image :=
  .error (rc,taken-back)

/-- The file has been opened. -/
def ExecFile.acquire (f : ExecFile) (c : ExecCall) : Except (Int × Multiset Resource) Image :=
  if !f.executable then refuse (-EACCES) {.streamFile} {.streamFile}
  else if f.size = 0 then refuse (-ENOEXEC) {.streamFile} {.streamFile}
  else if f.size ≤ ELF_STREAM_THRESHOLD then
    if !c.heapBuf then refuse (-ENOMEM) {.streamFile} {.streamFile}
    else
      let bytes := (f.contents.take f.size).take f.delivers
      if bytes = [] then refuse (-ENOEXEC) {.streamFile,.heapBuf} {.streamFile,.heapBuf}
      else .ok (.whole ⟨bytes,c.beyond⟩ true)
  else
    let eh := readEhdr fun i => f.contents.getD i 0
    let phsz := wrap (eh.phoff+eh.phnum * eh.phentsize)
    if !f.complete 0 EHDR_SIZE || eh.magic != ELF_MAGIC then
      refuse (-ENOEXEC) {.streamFile} {.streamFile}
    else if phsz < EHDR_SIZE ∨ 0x100000 < phsz then refuse (-ENOEXEC) {.streamFile} {.streamFile}
    else if !c.hdrbuf then refuse (-ENOMEM) {.streamFile} {.streamFile}
    else if !f.complete 0 phsz then refuse (-ENOEXEC) {.streamFile,.hdrbuf} {.streamFile,.hdrbuf}
    else .ok (.streamed ⟨f.contents.take phsz,c.beyond⟩ f)

/-- The first part of `elf_execve`. -/
def ExecCall.acquire (c : ExecCall) : Except (Int × Multiset Resource) Image :=
  match c.found with
  | .missing => refuse (-ENOENT) 0 0
  | .embedded bytes => .ok (.whole ⟨bytes,c.beyond⟩ false)
  | .file f => f.acquire c

theorem acquire_error {c : ExecCall} {rc : Int} {held : Multiset Resource} (h : c.acquire = .error (rc,held)) :
    rc < 0 ∧ held = 0 := by
  rw [ExecCall.acquire] at h
  split at h
  · cases h
    decide
  · cases h
  · rw [ExecFile.acquire] at h
    dsimp only at h
    split_ifs at h <;> cases h <;> decide

section Copying

/-- The loop that copies a vector, `boff` bytes of the buffer being taken. -/
def takeArgs (boff : Nat) : Nat → List CString → List CString × Nat
  | 0, _ => ([],boff)
  | _+1, [] => ([],boff)
  | n+1, s :: ss =>
    if EXEC_ARGBUF < boff + s.size then ([],boff)
    else
      let r := takeArgs (boff+s.size) n ss
      (s :: r.1,r.2)

def ExecCall.kargv (c : ExecCall) : List CString := (takeArgs 0 EXEC_MAXARG c.argv).1

def ExecCall.kenvp (c : ExecCall) : List CString :=
  (takeArgs (takeArgs 0 EXEC_MAXARG c.argv).2 EXEC_MAXARG c.envp).1

variable {boff : Nat} (n : Nat) (ss : List CString)

/-- What is taken is counted, and is no more than there is room for. -/
theorem takeArgs_room (h : boff ≤ EXEC_ARGBUF) :
    (takeArgs boff n ss).2 = boff + total (takeArgs boff n ss).1 ∧
      (takeArgs boff n ss).2 ≤ EXEC_ARGBUF ∧ (takeArgs boff n ss).1.length ≤ n := by
  induction n generalizing boff ss with
  | zero => exact ⟨rfl,h,le_refl 0⟩
  | succ n ih =>
    cases ss with
    | nil => exact ⟨rfl,h,zero_le _⟩
    | cons s ss =>
      rw [takeArgs]
      split_ifs with hfull
      · exact ⟨rfl,h,zero_le _⟩
      · obtain ⟨h1,h2,h3⟩ := ih ss (not_lt.mp hfull)
        refine ⟨?_,h2,succ_le_succ h3⟩
        rw [h1,total_cons,add_assoc]

/-- A vector is taken as a whole if it is short enough and there is room for all of it. -/
theorem takeArgs_eq_iff (h : boff ≤ EXEC_ARGBUF) :
    (takeArgs boff n ss).1 = ss ↔ ss.length ≤ n ∧ boff + total ss ≤ EXEC_ARGBUF := by
  constructor
  · intro heq
    obtain ⟨h1,h2,h3⟩ := takeArgs_room n ss h
    rw [heq] at h1 h3
    exact ⟨h3,h1 ▸ h2⟩
  · rintro ⟨hlen,hroom⟩
    induction n generalizing boff ss with
    | zero => rw [List.length_eq_zero_iff.mp (le_zero.mp hlen)]; rfl
    | succ n ih =>
      cases ss with
      | nil => rfl
      | cons s ss =>
        rw [total_cons,← add_assoc] at hroom
        have hs : boff + s.size ≤ EXEC_ARGBUF := le_trans (le_add_right _ _) hroom
        rw [takeArgs,if_neg (not_lt.mpr hs)]
        exact congrArg (s :: ·) (ih ss hs (le_of_succ_le_succ hlen) hroom)

theorem ExecCall.copied_room (c : ExecCall) : c.kargv.length ≤ EXEC_MAXARG ∧
    c.kenvp.length ≤ EXEC_MAXARG ∧ total c.kargv + total c.kenvp ≤ EXEC_ARGBUF := by
  obtain ⟨h1,h2,h3⟩ := takeArgs_room EXEC_MAXARG c.argv (zero_le EXEC_ARGBUF)
  obtain ⟨h4,h5,h6⟩ := takeArgs_room EXEC_MAXARG c.envp h2
  refine ⟨h3,h6,?_⟩
  rw [zero_add] at h1
  rw [ExecCall.kargv,ExecCall.kenvp,← h1,← h4]
  exact h5

/-- Both vectors are copied as they are. -/
def ExecCall.ArgumentsFit (c : ExecCall) : Prop :=
  c.argv.length ≤ EXEC_MAXARG ∧ c.envp.length ≤ EXEC_MAXARG ∧
    total c.argv + total c.envp ≤ EXEC_ARGBUF

theorem ExecCall.copied_eq_iff (c : ExecCall) :
    c.kargv = c.argv ∧ c.kenvp = c.envp ↔ c.ArgumentsFit := by
  obtain ⟨h1,h2,-⟩ := takeArgs_room EXEC_MAXARG c.argv (zero_le EXEC_ARGBUF)
  have harg := takeArgs_eq_iff EXEC_MAXARG c.argv (zero_le EXEC_ARGBUF)
  have henv := takeArgs_eq_iff EXEC_MAXARG c.envp h2
  rw [zero_add] at harg h1
  rw [ExecCall.kargv,ExecCall.kenvp,ExecCall.ArgumentsFit]
  constructor
  · rintro ⟨ha,he⟩
    have hroom := (henv.mp he).2
    rw [h1,ha] at hroom
    exact ⟨(harg.mp ha).1,(henv.mp he).1,hroom⟩
  · rintro ⟨ha,he,hroom⟩
    have hall := harg.mpr ⟨ha,le_trans (le_add_right _ _) hroom⟩
    refine ⟨hall,henv.mpr ⟨he,?_⟩⟩
    rw [h1,hall]
    exact hroom

end Copying

section Parsing

/-- The buffer with the headers. -/
def Image.header : Image → Buffer
  | .whole b _ => b
  | .streamed hdr _ => hdr

def Image.isStreamed : Image → Bool
  | .whole _ _ => false
  | .streamed _ _ => true

def Image.ehdr (g : Image) : Ehdr := readEhdr g.header.view

def Image.phdrs (g : Image) : List Phdr := Elf.phdrs g.header.view

/-- The image is taken for an ELF program. -/
def Image.isElf (g : Image) : Bool :=
  EHDR_SIZE ≤ g.header.bytes.length && g.ehdr.magic == ELF_MAGIC &&
    (g.ehdr.type == ET_EXEC || g.ehdr.type == ET_DYN)

def Image.loads (g : Image) : List Phdr := g.phdrs.filter (·.type == PT_LOAD)

/-- The part of the file on a page of a segment: its offset in the segment and its length. -/
def slice (g : Segment) (i : Nat) : Option (Nat × Nat) :=
  let v := pageAt g.start i
  let fileEnd := wrap (g.vaddr+g.filesz)
  let copyStart := max v g.vaddr
  let copyEnd := min (v+4096) fileEnd
  if g.filesz ≠ 0 ∧ v < fileEnd ∧ copyStart < copyEnd then
    some (copyStart-g.vaddr,copyEnd-copyStart)
  else none

/-- The first page of a segment that cannot be read from the file. -/
def ExecFile.unreadable (f : ExecFile) (offset : Nat) (g : Segment) : Option Nat :=
  (List.range g.pages).find? fun i =>
    (slice g i).elim false fun x => !f.complete (wrap (offset+x.1)) x.2

def Image.bias (g : Image) : Nat :=
  if g.ehdr.type = ET_DYN ∧ ∃ p ∈ g.loads, p.vaddr = 0 then USER_DYN_BASE else 0

/-- A segment of the program, with its bytes as they are found where the loader looks for them. -/
def Image.segment (g : Image) (p : Phdr) : Segment :=
  match g with
  | .whole b _ => p.segment fun j => b.view (p.offset+j)
  | .streamed _ f =>
    let s := p.segment fun j => f.contents.getD (wrap (p.offset+j)) 0
    { s with unreadable := f.unreadable p.offset (s.shift g.bias) }

/-- The path in the last header that names an interpreter. -/
def Image.interpPath (g : Image) : Option (List UInt8) :=
  let ps := g.phdrs.filter fun p => p.type == PT_INTERP && p.filesz != 0
  match g with
  | .whole b _ => ps.getLast?.map fun p => string b.view 0x10000000000000000 p.offset
  | .streamed _ f =>
    ((ps.filter fun p => f.complete p.offset (min p.filesz 255)).getLast?).map fun p =>
      string (fun i => if i < min p.filesz 255 then f.contents.getD (p.offset+i) 0 else 0) 256 0

/-- The interpreter in a buffer: its entry and its segments. -/
def interpreter (b : Buffer) : Option (Nat × List Segment) :=
  if b.bytes.length < EHDR_SIZE ∨ (readEhdr b.view).magic ≠ ELF_MAGIC then none
  else some (wrap ((readEhdr b.view).entry + INTERP_BASE),
    ((phdrs b.view).filter (·.type == PT_LOAD)).map fun p =>
      p.segment fun j => b.view (p.offset+j))

def Image.interp (g : Image) (c : ExecCall) : Option (Nat × List Segment) :=
  (g.interpPath.bind c.interp).bind interpreter

/-- The program in the image. A file that is not held in memory is loaded as zeros if it is not
taken for an ELF program. -/
def Image.program (g : Image) (c : ExecCall) : Program :=
  if g.isElf then
    .elf (g.ehdr.type == ET_DYN) g.isStreamed (g.loads.map g.segment) ((g.interp c).map (·.2)) []
  else
    match g with
    | .whole b _ => .flat b.bytes.length fun j => b.view j
    | .streamed _ f => .flat f.size fun _ => 0

end Parsing

end Lariat.Elf
