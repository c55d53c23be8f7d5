import Lariat.Foundation.Runs
import Lariat.Ext4.Extents

/-! One open ext4 file: write, seek and truncate through its handle. -/
namespace Lariat.Ext4
open Foundation.Runs

variable (g : Geometry)

/-- Back a hole with a run of fresh blocks: the first block of the run. -/
def backHole (ino : Inode) (d : Fs) (lblk want : Nat) : Option (Option Nat × Inode × Fs) :=
  match allocBlockRun g d want with
  | ((nb,got),d) =>
    if nb = 0 ∨ got = 0 then some (none,ino,d)
    else match treeEnd d ino with
      | (none,_) => none
      | (some tend,d) =>
        match (if tend ≤ lblk then extentAppend g ino d ⟨lblk,got,.ofNat _ nb⟩
          else extentMap g ino d ⟨lblk,got,.ofNat _ nb⟩) with
        | (false,ino,d) => some (none,ino,freeRun g d nb got)
        | (true,ino,d) => some (some nb,ino.charge g got,d)

/-- The locals of `ext4_file_write`. -/
structure Writer where
  ino : Inode
  fs : Fs
  pos : Nat
  written : Nat := 0
  size : Nat
  buf : Bytes := fun _ => 0

/-- The block the next bytes go to, and the buffer filled with what is to be kept of it. -/
def writeTarget (count : Nat) (w : Writer) : Option (Option Nat × Writer) :=
  let lblk := u32 (w.pos / g.blockSize)
  let boff := w.pos % g.blockSize
  let chunk := min (count-w.written) (g.blockSize-boff)
  match findExtentBlock w.fs w.ino lblk with
  | (none,_) => none
  | (some phys,d) =>
    if phys = 0 then
      let lastb := u32 ((w.pos+(count-w.written)-1) / g.blockSize)
      match backHole g w.ino d lblk (min (u32 (lastb+0x100000000-lblk+1)) 2048) with
      | none => none
      | some (none,ino,d) => some (none,{ w with ino := ino, fs := d })
      | some (some nb,ino,d) => some (some nb,{ w with ino := ino, fs := d, buf := fun _ => 0 })
    else if boff ≠ 0 ∨ chunk ≠ g.blockSize then
      match d.readBlock phys with
      | (none,d) => some (none,{ w with fs := d })
      | (some c,d) => some (some phys,{ w with fs := d, buf := c.bytes })
    else some (some phys,{ w with fs := d, buf := fun _ => 0 })

/-- The loop of `ext4_file_write`; each round writes a byte at least. -/
def writeLoop (src : Bytes) (count : Nat) : Nat → Writer → Option Writer
  | 0, w => some w
  | fuel+1, w =>
    if count ≤ w.written then some w
    else match writeTarget g count w with
      | none => none
      | some (none,w) => some w
      | some (some phys,w) =>
        let boff := w.pos % g.blockSize
        let chunk := min (count-w.written) (g.blockSize-boff)
        let buf := fun i => if boff ≤ i ∧ i < boff+chunk then src (w.written+(i-boff)) else w.buf i
        match w.fs.writeBlock phys (.data buf) with
        | (false,d) => some { w with fs := d, buf := buf }
        | (true,d) => writeLoop src count fuel
            { w with fs := d, pos := w.pos+chunk, written := w.written+chunk
                     size := max w.size (w.pos+chunk), buf := buf }

/-- A volume and one open handle; `saved` is the inode as the inode table has it. -/
structure File where
  fs : Fs
  ino : Inode
  saved : Inode
  pos : Int := 0

/-- `ext4_write_inode`. -/
def writeInode (f : File) : Bool × File :=
  match f.fs.kzalloc with
  | (false,d) => (false,{ f with fs := d })
  | (true,d) =>
    match d.transfer with
    | (false,d) => (false,{ f with fs := d })
    | (true,d) =>
      match d.transfer with
      | (false,d) => (false,{ f with fs := d })
      | (true,d) => (true,{ f with fs := d, saved := f.ino })

/-- `ext4_file_write`. -/
def fileWrite (f : File) (src : Bytes) (count : Nat) : Option (Int × File) :=
  match f.fs.kzalloc with
  | (false,d) => some (-1,{ f with fs := d })
  | (true,d) =>
    match writeLoop g src count count
        { ino := f.ino, fs := d, pos := f.pos.toNat, size := f.ino.size } with
    | none => none
    | some w =>
      if w.written = 0 then some (-1,{ f with ino := w.ino, fs := w.fs })
      else some (w.written,{ (writeInode
        { f with ino := { w.ino with size := w.size }, fs := w.fs }).2 with pos := w.pos })

/-- `ext4_file_lseek`. -/
def fileLseek (f : File) (offset : Int) (whence : Nat) : Int × File :=
  let move (pos : Int) : Int × File := (max pos 0,{ f with pos := max pos 0 })
  match whence with
  | 0 => move offset
  | 1 => move (f.pos+offset)
  | 2 => move (f.ino.size+offset)
  | _ => (-1,f)

/-- `ext4_file_truncate`. -/
def fileTruncate (f : File) (length : Int) : Option (Int × File) :=
  if length < 0 then some (-1,f)
  else match freeBlocksFrom g f.ino f.fs (u32 ((length.toNat+g.blockSize-1) / g.blockSize)) with
    | none => none
    | some (ino,d) =>
      match writeInode { f with ino := { ino with size := length.toNat }, fs := d
                                pos := min f.pos length } with
      | (ok,f) => some (if ok then 0 else -1,f)

/-- A call through the handle, or memory running short for the allocations to come. -/
inductive Event where
  | write (src : Bytes) (count : Nat)
  | lseek (offset : Int) (whence : Nat)
  | truncate (length : Int)
  | shortage (heap : List Bool)

def step (f : File) : Event → Option File
  | .write src count => (fileWrite g f src count).map Prod.snd
  | .lseek offset whence => some (fileLseek f offset whence).2
  | .truncate length => (fileTruncate g f length).map Prod.snd
  | .shortage heap => some { f with fs := { f.fs with heap := heap } }

/-- A file just created on a volume, opened at its start. -/
def opened (d : Fs) : File := { fs := d, ino := initExtentInode, saved := initExtentInode }

/-- The extents below a node of depth `k`, in the order the tree has them. -/
def extentsBelow (blocks : Nat → Block) : Nat → Node → List Extent
  | 0, n => n.extents
  | k+1, n => n.index.flatMap fun x => extentsBelow blocks k (blocks x.leaf).asNode

/-- The extents of a file. -/
def File.extents (f : File) : List Extent := extentsBelow f.fs.blocks f.ino.root.depth f.ino.root

end Lariat.Ext4
