import Mathlib.Data.List.Range
import Mathlib.Logic.Function.Basic

/-! The ext4 volume as the driver sees it: extent-tree nodes and data blocks, the
block bitmap with its counters, and the allocator over them. -/
namespace Lariat.Ext4
open Function

/-- What the superblock fixes at mount. -/
structure Geometry where
  blockSize : Nat
  blocksPerGroup : Nat
  groupsCount : Nat
  firstDataBlock : Nat
  -- each is a `uint32_t`
  words : [blockSize,blocksPerGroup,groupsCount,firstDataBlock].all (· < 0x100000000)
  -- the block size is 1024 shifted by `s_log_block_size`
  blockSize_ge : 1024 ≤ blockSize
  -- the mount divides by it
  blocksPerGroup_pos : 0 < blocksPerGroup
  -- a record has 48 bits for the number of a block
  blocks_le : groupsCount*blocksPerGroup+firstDataBlock ≤ 0x1000000000000

instance instNeZeroBlocks : @NeZero Nat Zero.ofOfNat0 0x1000000000000 := ⟨by decide⟩

/-- A run of `len` blocks from logical `block` on, at physical `start` (`ee_block`,
`ee_len`, and the 48 bits of `ee_start_hi` with `ee_start_lo`). -/
structure Extent where
  block : Nat
  len : Nat
  start : Fin 0x1000000000000
  deriving DecidableEq, Repr

/-- An index record: `ei_block` and the two halves of `ei_leaf`. -/
structure Index where
  block : Nat
  leaf : Nat
  deriving DecidableEq, Repr

def extentMagic : BitVec 16 := 0xF30A

/-- An extent node. A node of depth 0 holds extents, any other holds index records;
`eh_entries` is the number of the records it holds. -/
structure Node where
  magic : BitVec 16 := extentMagic
  max : Nat
  depth : Nat
  extents : List Extent := []
  index : List Index := []
  deriving DecidableEq, Repr

def Node.entries (n : Node) : Nat := if n.depth = 0 then n.extents.length else n.index.length

abbrev Bytes := Nat → BitVec 8

def u32 (n : Nat) : Nat := n % 0x100000000

/-- The low `w` bytes of a number, least significant first. -/
def littleEndian : Nat → Nat → List (BitVec 8)
  | 0, _ => []
  | w+1, n => .ofNat 8 n :: littleEndian w (n / 256)

def ofLittleEndian (f : Bytes) (at_ : Nat) : Nat → Nat
  | 0 => 0
  | w+1 => (f at_).toNat+256*ofLittleEndian f (at_+1) w

/-- The on-disk layout of a node: a 12-byte header, then 12 bytes a record. -/
def Node.bytes (n : Node) : Bytes := fun i =>
  (littleEndian 2 n.magic.toNat ++ littleEndian 2 n.entries ++ littleEndian 2 n.max ++
    littleEndian 2 n.depth ++ littleEndian 4 0 ++
    (if n.depth = 0 then n.extents.flatMap fun e =>
      littleEndian 4 e.block ++ littleEndian 2 e.len ++ littleEndian 2 (e.start / 0x100000000) ++
        littleEndian 4 e.start
    else n.index.flatMap fun x =>
      littleEndian 4 x.block ++ littleEndian 4 x.leaf ++ littleEndian 2 (x.leaf / 0x100000000) ++
        littleEndian 2 0)).getD i 0

def Node.ofBytes (f : Bytes) : Node :=
  let depth := ofLittleEndian f 6 2
  let records := List.range (ofLittleEndian f 2 2)
  { magic := .ofNat 16 (ofLittleEndian f 0 2)
    max := ofLittleEndian f 4 2
    depth := depth
    extents := if depth ≠ 0 then [] else records.map fun i =>
      { block := ofLittleEndian f (12+12*i) 4
        len := ofLittleEndian f (16+12*i) 2
        start := .ofNat _ (ofLittleEndian f (20+12*i) 4+0x100000000*ofLittleEndian f (18+12*i) 2) }
    index := if depth = 0 then [] else records.map fun i =>
      { block := ofLittleEndian f (12+12*i) 4
        leaf := ofLittleEndian f (16+12*i) 4+0x100000000*ofLittleEndian f (20+12*i) 2 } }

/-- What a disk block was last written with. -/
inductive Block where
  | data (f : Bytes)
  | node (n : Node)

def Block.bytes : Block → Bytes
  | .data f => f
  | .node n => n.bytes

def Block.asNode : Block → Node
  | .data f => .ofBytes f
  | .node n => n

def zeroBlock : Block := .data fun _ => 0

/-- A mounted volume. The block bitmaps are one predicate on block numbers; `heap` and
`io` say which of the coming allocations and transfers fail, none once they run out. -/
structure Fs where
  used : Nat → Bool
  freeBlocks : Nat → BitVec 16
  sbFreeBlocks : BitVec 32
  blocks : Nat → Block
  heap : List Bool := []
  io : List Bool := []

namespace Fs

def kzalloc (d : Fs) : Bool × Fs :=
  match d.heap with
  | [] => (true,d)
  | f :: fs => (!f,{ d with heap := fs })

def transfer (d : Fs) : Bool × Fs :=
  match d.io with
  | [] => (true,d)
  | f :: fs => (!f,{ d with io := fs })

def readBlock (d : Fs) (b : Nat) : Option Block × Fs :=
  match d.transfer with
  | (false,d) => (none,d)
  | (true,d) => (some (d.blocks b),d)

def writeBlock (d : Fs) (b : Nat) (c : Block) : Bool × Fs :=
  match d.transfer with
  | (false,d) => (false,d)
  | (true,d) => (true,{ d with blocks := update d.blocks b c })

/-- Mark `n` blocks from `b` on used and take them off the counters of group `bg`. -/
def grab (d : Fs) (bg b n : Nat) : Fs :=
  { d with
    used := fun x => if b ≤ x ∧ x < b+n then true else d.used x
    freeBlocks := update d.freeBlocks bg (d.freeBlocks bg-.ofNat 16 n)
    sbFreeBlocks := if n ≤ d.sbFreeBlocks.toNat then d.sbFreeBlocks-.ofNat 32 n
      else d.sbFreeBlocks }

end Fs

variable (g : Geometry)

def Geometry.blockOf (bg bit : Nat) : Nat := bg*g.blocksPerGroup+g.firstDataBlock+bit

/-- The first clear bit in the bitmap of a group. -/
def firstFree (d : Fs) (bg : Nat) : Option Nat :=
  (List.range g.blocksPerGroup).find? fun bit => !d.used (g.blockOf bg bit)

def allocBlockIn : List Nat → Fs → Nat × Fs
  | [], d => (0,d)
  | bg :: bgs, d =>
    if d.freeBlocks bg = 0 then allocBlockIn bgs d
    else match d.transfer with
      | (false,d) => (0,d)
      | (true,d) =>
        match firstFree g d bg with
        | none => allocBlockIn bgs d
        | some bit =>
          match d.transfer with
          | (false,d) => (0,d)
          | (true,d) =>
            let b := g.blockOf bg bit
            (b,((d.grab bg b 1).writeBlock b zeroBlock).2)

/-- `ext4_alloc_block`: the block handed out, zero-filled, or 0. -/
def allocBlock (d : Fs) : Nat × Fs :=
  match d.kzalloc with
  | (false,d) => (0,d)
  | (true,d) => allocBlockIn g (List.range g.groupsCount) d

/-- How many blocks from bit `bit` of a group on are free, `want` at most. -/
def runLength (d : Fs) (bg bit want : Nat) : Nat :=
  ((List.range (min want (g.blocksPerGroup-bit))).takeWhile fun k =>
    !d.used (g.blockOf bg (bit+k))).length

def allocRunIn (want : Nat) : List Nat → Fs → (Nat × Nat) × Fs
  | [], d => ((0,0),d)
  | bg :: bgs, d =>
    if d.freeBlocks bg = 0 then allocRunIn want bgs d
    else match d.transfer with
      | (false,d) => ((0,0),d)
      | (true,d) =>
        match firstFree g d bg with
        | none => allocRunIn want bgs d
        | some bit =>
          let run := runLength g d bg bit want
          match d.transfer with
          | (false,d) => ((0,0),d)
          | (true,d) => ((g.blockOf bg bit,run),d.grab bg (g.blockOf bg bit) run)

/-- `ext4_alloc_block_run`: the first block of the run and its length. -/
def allocBlockRun (d : Fs) (want : Nat) : (Nat × Nat) × Fs :=
  match d.kzalloc with
  | (false,d) => ((0,0),d)
  | (true,d) =>
    allocRunIn g (min (if want = 0 then 1 else want) 32768) (List.range g.groupsCount) d

/-- `ext4_free_block`. A bitmap that could not be written back keeps its bit. -/
def freeBlock (d : Fs) (b : Nat) : Fs :=
  let bg := (b-g.firstDataBlock) / g.blocksPerGroup
  if b < g.firstDataBlock then d
  else if g.groupsCount ≤ bg then d
  else match d.kzalloc with
    | (false,d) => d
    | (true,d) =>
      match d.transfer with
      | (false,d) => d
      | (true,d) =>
        if d.used b then
          match d.transfer with
          | (ok,d) =>
            { d with
              used := if ok then update d.used b false else d.used
              freeBlocks := update d.freeBlocks bg (d.freeBlocks bg+1)
              sbFreeBlocks := d.sbFreeBlocks+1 }
        else d

def freeRun (d : Fs) (b : Nat) : Nat → Fs
  | 0 => d
  | n+1 => freeRun (freeBlock g d b) (b+1) n

/-- A volume of one group of 64 blocks of 1024 bytes, the first ten of them in use. -/
def smallGeometry : Geometry := ⟨1024,64,1,1,rfl,by decide,by decide,by decide⟩

def smallVolume : Fs :=
  { used := fun b => b < 10, freeBlocks := fun _ => 55, sbFreeBlocks := 55
    blocks := fun _ => zeroBlock }

end Lariat.Ext4
