import Lariat.Foundation.ByteStore
import Lariat.Foundation.Runs

/-! The superblock and the group descriptors: what the mount reads of them, what the allocators
change, and what `ext4_sync_meta` writes back. -/
namespace Lariat.Ext4.Metadata
open Foundation ByteStore Runs List Nat

/-- The bytes of a device, or of memory from some address on. -/
abbrev Bytes := Nat → UInt8

def u32 (n : Nat) : Nat := n % 0x100000000

def u64 (n : Nat) : Nat := n % 0x10000000000000000

/-- The size of `struct ext4_superblock`, which is packed. -/
def sbSize : Nat := 730

/-- The fields of `ext4_fs_t` behind the superblock. -/
structure Layout where
  groupDesc : Nat
  blockSize : Nat
  groupsCount : Nat
  descSize : Nat
  inodesPerBlock : Nat
  deriving Repr

namespace Layout

variable (l : Layout)

/-- The block of the first group descriptor. -/
def gdStart : Nat := if l.blockSize = 1024 then 2 else 1

def blocksNeeded : Nat := (l.groupsCount*l.descSize+l.blockSize-1) / l.blockSize

/-- `ext4_gd`: where the descriptor of a group lies in the table. -/
def gd (bg : Nat) : Nat := u32 (bg*l.descSize)

end Layout

/-- The counters that allocating and freeing keep. -/
inductive Counter where
  | freeBlocks
  | freeInodes
  | bgFreeBlocks (bg : Nat)
  | bgFreeInodes (bg : Nat)
  | bgUsedDirs (bg : Nat)
  deriving DecidableEq, Repr

namespace Counter

/-- Whether a counter is in the descriptor table. -/
def inTable : Counter → Bool
  | freeBlocks => false
  | freeInodes => false
  | _ => true

def offset (l : Layout) : Counter → Nat
  | freeBlocks => 12
  | freeInodes => 16
  | bgFreeBlocks bg => l.gd bg+12
  | bgFreeInodes bg => l.gd bg+14
  | bgUsedDirs bg => l.gd bg+16

def width : Counter → Nat
  | freeBlocks => 4
  | freeInodes => 4
  | _ => 2

/-- The counter holds a byte of the table, or of the superblock. -/
def Covers (l : Layout) (c : Counter) (table : Bool) (i : Nat) : Prop :=
  c.inTable = table ∧ c.offset l ≤ i ∧ i < c.offset l+c.width

end Counter

theorem Counter.Covers.lt_of_sb {l : Layout} {c : Counter} {i : Nat} (h : c.Covers l false i) :
    i < 20 := by
  obtain ⟨htable,-,hlt⟩ := h
  cases c with
  | freeBlocks => exact lt_trans hlt (by decide : 12+4 < 20)
  | freeInodes => exact hlt
  | bgFreeBlocks bg | bgFreeInodes bg | bgUsedDirs bg => cases htable

/-- What the device held when a write-back was done, with the counters changed up to then and
the memory that lay behind the superblock. -/
structure Sync where
  disk : Bytes
  touched : List Counter
  behind : Bytes

/-- A mounted volume. `heap` is the memory behind `ext4_fs_t`; `nomem` and `io` say which of the
coming allocations and transfers fail. `touched` and `syncs` keep a record. -/
structure Vol where
  layout : Layout
  sb : Bytes
  table : Bytes
  disk : Bytes
  heap : Bytes := fun _ => 0
  nomem : List Bool := []
  io : List Bool := []
  touched : List Counter := []
  syncs : List Sync := []

namespace Vol

def kzalloc (v : Vol) : Bool × Vol :=
  match v.nomem with
  | [] => (true,v)
  | f :: fs => (!f,{ v with nomem := fs })

def transfer (v : Vol) : Bool × Vol :=
  match v.io with
  | [] => (true,v)
  | f :: fs => (!f,{ v with io := fs })

def get (v : Vol) (c : Counter) : Nat :=
  val (if c.inTable then v.table else v.sb) c.width (c.offset v.layout)

def set (v : Vol) (c : Counter) (n : Nat) : Vol :=
  if c.inTable then
    { v with table := put v.table (c.offset v.layout) (le c.width n), touched := c :: v.touched }
  else { v with sb := put v.sb (c.offset v.layout) (le c.width n), touched := c :: v.touched }

def blocksPerGroup (v : Vol) : Nat := val v.sb 4 32

def firstDataBlock (v : Vol) : Nat := val v.sb 4 20

def inodesPerGroup (v : Vol) : Nat := val v.sb 4 40

end Vol

def EXT4_FEATURE_INCOMPAT_64BIT : Nat := 0x80

/-- The block number in two halves of a descriptor. -/
def blockField (v : Vol) (bg lo hi : Nat) : Nat :=
  val v.table 4 (v.layout.gd bg+lo)+
    if val v.sb 4 96 &&& EXT4_FEATURE_INCOMPAT_64BIT ≠ 0 then
      0x100000000*val v.table 4 (v.layout.gd bg+hi)
    else 0

def bgBlockBitmap (v : Vol) (bg : Nat) : Nat := blockField v bg 0 32

def bgInodeBitmap (v : Vol) (bg : Nat) : Nat := blockField v bg 4 36

def bgInodeTable (v : Vol) (bg : Nat) : Nat := blockField v bg 8 40

/-- `n` bytes written to the device at `a`. -/
def writeAt (disk : Bytes) (a n : Nat) (f : Bytes) : Bytes :=
  fun x => if a ≤ x ∧ x < a+n then f (x-a) else disk x

/-- A block in a buffer; what lies behind the buffer is not known. -/
def readBlock (v : Vol) (b : Nat) : Option Bytes × Vol :=
  match v.transfer with
  | (false,v) => (none,v)
  | (true,v) =>
    (some fun i => if i < v.layout.blockSize then v.disk (b*v.layout.blockSize+i) else v.heap i,v)

def writeBlock (v : Vol) (b : Nat) (f : Bytes) : Bool × Vol :=
  match v.transfer with
  | (false,v) => (false,v)
  | (true,v) =>
    (true,{ v with disk := writeAt v.disk (b*v.layout.blockSize) v.layout.blockSize f })

/-! ### Write-back -/

/-- The memory from `fs->sb` on, behind the superblock: padding, the other fields of `ext4_fs_t`,
and whatever follows. -/
def behind (l : Layout) (heap : Bytes) : Bytes := fun i =>
  (List.replicate 6 0 ++ le 8 l.groupDesc ++ le 4 l.blockSize ++ le 4 l.groupsCount ++
    le 4 l.descSize ++ le 4 l.inodesPerBlock).getD (i-sbSize) (heap (i-760))

/-- The 1024 bytes from `fs->sb` on. -/
def sbBytes (v : Vol) : Bytes := fun i => if i < sbSize then v.sb i else behind v.layout v.heap i

/-- Write `n` blocks of the table, from the block `i` on. -/
def writeTable : Nat → Nat → Vol → Bool × Vol
  | 0, _, v => (true,v)
  | n+1, i, v =>
    match writeBlock v (v.layout.gdStart+i) fun j => v.table (i*v.layout.blockSize+j) with
    | (false,v) => (false,v)
    | (true,v) => writeTable n (i+1) v

/-- `ext4_sync_meta`. -/
def syncMeta (v : Vol) : Vol :=
  match v.transfer with
  | (false,v) => v
  | (true,v) =>
    match writeTable v.layout.blocksNeeded 0
        { v with disk := writeAt v.disk 1024 1024 (sbBytes v) } with
    | (false,v) => v
    | (true,v) => { v with syncs := ⟨v.disk,v.touched,behind v.layout v.heap⟩ :: v.syncs }

/-! ### The allocators -/

def testBit (bm : Bytes) (bit : Nat) : Bool := (bm (bit / 8)).toBitVec.getLsbD (bit % 8)

/-- The bitmap with a bit set or cleared. -/
def putBit (bm : Bytes) (bit : Nat) (on : Bool) : Bytes := fun i =>
  if i = bit / 8 then
    let mask : BitVec 8 := BitVec.twoPow 8 (bit % 8)
    .ofBitVec (if on then (bm i).toBitVec ||| mask else (bm i).toBitVec &&& ~~~mask)
  else bm i

def putBits (bm : Bytes) (bit : Nat) : Nat → Bytes
  | 0 => bm
  | n+1 => putBits (putBit bm (bit+n) true) bit n

def zeros : Bytes := fun _ => 0

/-- The search of the allocators: through the groups to one that counts a free bit and has one in
its bitmap. `len` bits are set from there on, and `enter` goes on when they are written. -/
def allocIn (free : Nat → Counter) (bitmap : Vol → Nat → Nat) (perGroup : Vol → Nat)
    (len : Vol → Bytes → Nat → Nat) (enter : Nat → Nat → Nat → Vol → Vol) : List Nat → Vol → Vol
  | [], v => v
  | bg :: bgs, v =>
    if v.get (free bg) = 0 then allocIn free bitmap perGroup len enter bgs v
    else match readBlock v (bitmap v bg) with
      | (none,v) => v
      | (some bm,v) =>
        match (List.range (perGroup v)).find? fun bit => !testBit bm bit with
        | none => allocIn free bitmap perGroup len enter bgs v
        | some bit =>
          let run := len v bm bit
          match writeBlock v (bitmap v bg) (putBits bm bit run) with
          | (false,v) => v
          | (true,v) => enter bg bit run v

/-- `ext4_alloc_block`. -/
def allocBlock (v : Vol) : Vol :=
  match v.kzalloc with
  | (false,v) => v
  | (true,v) =>
    allocIn .bgFreeBlocks bgBlockBitmap Vol.blocksPerGroup (fun _ _ _ => 1) (fun bg bit _ v =>
      let v := v.set (.bgFreeBlocks bg) (v.get (.bgFreeBlocks bg)-1)
      let v := if v.get .freeBlocks = 0 then v
        else v.set .freeBlocks (v.get .freeBlocks-1)
      let v := syncMeta v
      (writeBlock v (bg*v.blocksPerGroup+v.firstDataBlock+bit) zeros).2)
      (List.range v.layout.groupsCount) v

/-- `ext4_free_block`. The counters go up whether or not the bitmap was written. -/
def freeBlock (v : Vol) (abs : Nat) : Vol :=
  let rel := abs-v.firstDataBlock
  let bg := u32 (rel / v.blocksPerGroup)
  let bit := u32 (rel % v.blocksPerGroup)
  if abs < v.firstDataBlock then v
  else if v.layout.groupsCount ≤ bg then v
  else match v.kzalloc with
    | (false,v) => v
    | (true,v) =>
      match readBlock v (bgBlockBitmap v bg) with
      | (none,v) => v
      | (some bm,v) =>
        if testBit bm bit then
          let v := (writeBlock v (bgBlockBitmap v bg) (putBit bm bit false)).2
          let v := v.set (.bgFreeBlocks bg) (v.get (.bgFreeBlocks bg)+1)
          syncMeta (v.set .freeBlocks (v.get .freeBlocks+1))
        else v

/-- How many blocks from a bit on are free, `want` at most. -/
def runLength (v : Vol) (bm : Bytes) (bit want : Nat) : Nat :=
  ((List.range (min want (v.blocksPerGroup-bit))).takeWhile fun k => !testBit bm (bit+k)).length

/-- `ext4_alloc_block_run`. -/
def allocBlockRun (v : Vol) (want : Nat) : Vol :=
  let want := min (if want = 0 then 1 else want) 32768
  match v.kzalloc with
  | (false,v) => v
  | (true,v) =>
    allocIn .bgFreeBlocks bgBlockBitmap Vol.blocksPerGroup (runLength · · · want) (fun bg _ run v =>
      let v := v.set (.bgFreeBlocks bg) (v.get (.bgFreeBlocks bg)+0x10000-run % 0x10000)
      let v := if v.get .freeBlocks < run then v
        else v.set .freeBlocks (v.get .freeBlocks-run)
      syncMeta v) (List.range v.layout.groupsCount) v

/-- `ext4_alloc_inode`. -/
def allocInode (v : Vol) (isDir : Bool) : Vol :=
  match v.kzalloc with
  | (false,v) => v
  | (true,v) =>
    allocIn .bgFreeInodes bgInodeBitmap Vol.inodesPerGroup (fun _ _ _ => 1) (fun bg _ _ v =>
      let v := v.set (.bgFreeInodes bg) (v.get (.bgFreeInodes bg)-1)
      let v := if v.get .freeInodes = 0 then v
        else v.set .freeInodes (v.get .freeInodes-1)
      let v := if isDir then v.set (.bgUsedDirs bg) (v.get (.bgUsedDirs bg)+1) else v
      syncMeta v) (List.range v.layout.groupsCount) v

/-- `ext4_free_inode`. -/
def freeInode (v : Vol) (inodeNo : Nat) (isDir : Bool) : Vol :=
  let bg := (inodeNo-1) / v.inodesPerGroup
  let bit := (inodeNo-1) % v.inodesPerGroup
  if inodeNo = 0 then v
  else if v.layout.groupsCount ≤ bg then v
  else match v.kzalloc with
    | (false,v) => v
    | (true,v) =>
      match readBlock v (bgInodeBitmap v bg) with
      | (none,v) => v
      | (some bm,v) =>
        let v := (writeBlock v (bgInodeBitmap v bg) (putBit bm bit false)).2
        let v := v.set (.bgFreeInodes bg) (v.get (.bgFreeInodes bg)+1)
        let v := if isDir ∧ v.get (.bgUsedDirs bg) ≠ 0 then
            v.set (.bgUsedDirs bg) (v.get (.bgUsedDirs bg)-1)
          else v
        syncMeta (v.set .freeInodes (v.get .freeInodes+1))

/-! ### Mount and runs -/

def EXT4_SUPER_MAGIC : Nat := 0xEF53

def EXT4_SUPPORTED_INCOMPAT : Nat := 0x42C2

def EXT4_EXTENTS_FL : Nat := 0x80000

/-- `1024U << s_log_block_size`; the processor takes the count modulo 32. -/
def blockSizeOf (sb : Bytes) : Nat := u32 (1024 <<< (val sb 4 24 % 32))

def descSizeOf (sb : Bytes) : Nat :=
  if val sb 4 96 &&& EXT4_FEATURE_INCOMPAT_64BIT = 0 then 32
  else if val sb 2 254 = 0 then 64 else val sb 2 254

/-- `ext4_read_superblock` and `ext4_load_group_desc`, with the table at an address. A division
by zero ends the mount. -/
def load (image : Bytes) (groupDesc : Nat) : Option Vol :=
  let sb : Bytes := fun i => image (1024+i)
  let blockSize := blockSizeOf sb
  let total := val sb 4 4+0x100000000*val sb 4 336
  if val sb 2 56 ≠ EXT4_SUPER_MAGIC then none
  else if val sb 4 96 &&& (0xFFFFFFFF-EXT4_SUPPORTED_INCOMPAT) ≠ 0 then none
  else if blockSize = 0 ∨ val sb 2 88 = 0 ∨ val sb 4 32 = 0 then none
  else
    let l : Layout := { groupDesc := groupDesc, blockSize := blockSize
                        groupsCount := u32 (u64 (total+val sb 4 32-1) / val sb 4 32)
                        descSize := descSizeOf sb, inodesPerBlock := blockSize / val sb 2 88 }
    if l.groupsCount = 0 then none
    else some { layout := l, sb := sb, disk := image
                table := fun j => image (l.gdStart*blockSize+j) }

/-- The inode 2 must be found in its table, and use extents. -/
def rootUsesExtents (v : Vol) : Bool :=
  let bg := 1 / v.inodesPerGroup
  let index := 1 % v.inodesPerGroup
  v.inodesPerGroup ≠ 0 ∧ bg < v.layout.groupsCount ∧ v.layout.inodesPerBlock ≠ 0 ∧
    val v.disk 4 ((bgInodeTable v bg+index / v.layout.inodesPerBlock)*v.layout.blockSize+
      index % v.layout.inodesPerBlock*val v.sb 2 88+32) &&& EXT4_EXTENTS_FL ≠ 0

def mount (image : Bytes) (groupDesc : Nat) : Option Vol :=
  (load image groupDesc).filter rootUsesExtents

inductive Event where
  | allocBlock
  | freeBlock (abs : Nat)
  | allocBlockRun (want : Nat)
  | allocInode (isDir : Bool)
  | freeInode (inodeNo : Nat) (isDir : Bool)
  /-- Memory is used elsewhere, and transfers are to fail. -/
  | weather (heap : Bytes) (nomem io : List Bool)

def step (v : Vol) : Event → Option Vol
  | .allocBlock => some (allocBlock v)
  | .freeBlock abs => some (freeBlock v abs)
  | .allocBlockRun want => some (allocBlockRun v want)
  | .allocInode isDir => some (allocInode v isDir)
  | .freeInode inodeNo isDir => some (freeInode v inodeNo isDir)
  | .weather heap nomem io => some { v with heap := heap, nomem := nomem, io := io }

/-! ### What a write-back keeps -/

/-- The device differs from the image in the counters that were changed, nowhere else in the
superblock and the descriptor blocks. -/
structure Sync.Preserves (s : Sync) (image : Bytes) (l : Layout) : Prop where
  sb : ∀ i < 1024, (∀ c ∈ s.touched, ¬ c.Covers l false i) → s.disk (1024+i) = image (1024+i)
  table : ∀ j < l.blocksNeeded*l.blockSize, (∀ c ∈ s.touched, ¬ c.Covers l true j) →
    s.disk (l.gdStart*l.blockSize+j) = image (l.gdStart*l.blockSize+j)

/-- The memory behind the superblock was what the image has there. -/
def Sync.Matches (s : Sync) (image : Bytes) : Prop :=
  ∀ i, sbSize ≤ i → i < 1024 → s.behind i = image (1024+i)

instance (s : Sync) (image : Bytes) : Decidable (s.Matches image) :=
  decidable_of_iff (∀ j < 1024-sbSize, s.behind (sbSize+j) = image (1024+(sbSize+j))) (by
    constructor
    · intro h i hlo hi
      have hj := h (i-sbSize) (Nat.sub_lt_sub_right hlo hi)
      rwa [Nat.add_sub_cancel' hlo] at hj
    · intro h j hj
      exact h _ (le_add_right _ _) (add_lt_of_lt_sub' hj))

/-- The copies in memory differ from the image in the counters that were changed. -/
structure Kept (image : Bytes) (l : Layout) (v : Vol) : Prop where
  layout : v.layout = l
  sb : ∀ i < sbSize, (∀ c ∈ v.touched, ¬ c.Covers l false i) → v.sb i = image (1024+i)
  table : ∀ j < l.blocksNeeded*l.blockSize, (∀ c ∈ v.touched, ¬ c.Covers l true j) →
    v.table j = image (l.gdStart*l.blockSize+j)
  syncs : ∀ s ∈ v.syncs, (∃ heap, s.behind = behind l heap) ∧
    (s.Preserves image l ↔ s.Matches image)

namespace Kept

variable {image : Bytes} {l : Layout} {v v' : Vol}

section Kept

variable (h : Kept image l v)
include h

/-- Only the copies, the record and the layout matter. -/
theorem congr (hl : v'.layout = v.layout) (hs : v'.sb = v.sb) (ht : v'.table = v.table)
    (hc : v'.touched = v.touched) (hy : v'.syncs = v.syncs) : Kept image l v' where
  layout := hl.trans h.layout
  sb := by rw [hs,hc]; exact h.sb
  table := by rw [ht,hc]; exact h.table
  syncs := by rw [hy]; exact h.syncs

variable {ok : Bool}

theorem kzalloc (he : v.kzalloc = (ok,v')) : Kept image l v' := by
  unfold Vol.kzalloc at he
  split at he <;> cases he
  · exact h
  · exact h.congr rfl rfl rfl rfl rfl

theorem transfer (he : v.transfer = (ok,v')) : Kept image l v' := by
  unfold Vol.transfer at he
  split at he <;> cases he
  · exact h
  · exact h.congr rfl rfl rfl rfl rfl

theorem readBlock {b : Nat} {r : Option Bytes} (he : Metadata.readBlock v b = (r,v')) :
    Kept image l v' := by
  unfold Metadata.readBlock at he
  split at he <;> cases he <;> exact h.transfer ‹_›

theorem writeBlock {b : Nat} {f : Bytes} (he : Metadata.writeBlock v b f = (ok,v')) :
    Kept image l v' := by
  unfold Metadata.writeBlock at he
  split at he
  · rename_i ht
    cases he
    exact h.transfer ht
  · rename_i ht
    cases he
    exact (h.transfer ht).congr rfl rfl rfl rfl rfl

theorem set (c : Counter) (n : Nat) : Kept image l (v.set c n) := by
  have hout : ∀ {m : Bytes} {i : Nat} {table : Bool}, c.inTable = table → ¬ c.Covers l table i →
      put m (c.offset v.layout) (le c.width n) i = m i := by
    intro m i table htable hno
    rw [h.layout]
    refine put_outside ?_
    rw [length_le]
    by_contra hin
    exact hno ⟨htable,by omega,by omega⟩
  unfold Vol.set
  split
  · rename_i htable
    refine ⟨h.layout,fun i hi hc => h.sb i hi fun d hd => hc d (mem_cons_of_mem _ hd),
      fun j hj hc => ?_,h.syncs⟩
    exact (hout htable (hc c (mem_cons_self ..))).trans
      (h.table j hj fun d hd => hc d (mem_cons_of_mem _ hd))
  rename_i htable
  refine ⟨h.layout,fun i hi hc => ?_,
    fun j hj hc => h.table j hj fun d hd => hc d (mem_cons_of_mem _ hd),h.syncs⟩
  exact (hout (Bool.eq_false_iff.mpr htable) (hc c (mem_cons_self ..))).trans
    (h.sb i hi fun d hd => hc d (mem_cons_of_mem _ hd))

theorem writeTable {n i : Nat} (he : Metadata.writeTable n i v = (ok,v')) : Kept image l v' := by
  induction n generalizing i v with
  | zero =>
    cases he
    exact h
  | succ n ih =>
    rw [Metadata.writeTable] at he
    split at he
    · rename_i hw
      cases he
      exact h.writeBlock hw
    · rename_i hw
      exact ih (h.writeBlock hw) he

end Kept

end Kept

section WriteBack

variable {v v' : Vol}

/-- What writing blocks of the table leaves: the device with them, all else as it was. -/
structure Written (n i : Nat) (v v' : Vol) : Prop where
  layout : v'.layout = v.layout
  sb : v'.sb = v.sb
  table : v'.table = v.table
  heap : v'.heap = v.heap
  touched : v'.touched = v.touched
  syncs : v'.syncs = v.syncs
  inside : ∀ j, i*v.layout.blockSize ≤ j → j < (i+n)*v.layout.blockSize →
    v'.disk (v.layout.gdStart*v.layout.blockSize+j) = v.table j
  outside : ∀ x, x < (v.layout.gdStart+i)*v.layout.blockSize → v'.disk x = v.disk x

theorem transfer_same {ok : Bool} (h : v.transfer = (ok,v')) : v' = { v with io := v'.io } := by
  unfold Vol.transfer at h
  split at h <;> cases h <;> rfl

theorem writeBlock_same {b : Nat} {f : Bytes} (h : writeBlock v b f = (true,v')) :
    v' = { v with disk := writeAt v.disk (b*v.layout.blockSize) v.layout.blockSize f
                  io := v'.io } := by
  unfold writeBlock at h
  split at h
  · cases h
  · rename_i v1 ht
    have hv := transfer_same ht
    cases h
    rw [hv]

theorem writeTable_written {n i : Nat} (h : writeTable n i v = (true,v')) : Written n i v v' := by
  induction n generalizing i v with
  | zero =>
    cases h
    exact ⟨rfl,rfl,rfl,rfl,rfl,rfl,fun j h1 h2 => absurd h2 (not_lt.mpr h1),fun _ _ => rfl⟩
  | succ n ih =>
    rw [writeTable] at h
    split at h
    · cases h
    rename_i v1 hw1
    have hv1 := writeBlock_same hw1
    have hw := ih h
    have hl : v1.layout = v.layout := by rw [hv1]
    have ht : v1.table = v.table := by rw [hv1]
    have hin := hw.inside
    have hout := hw.outside
    rw [hl] at hin hout
    rw [ht] at hin
    have hd : v1.disk = writeAt v.disk ((v.layout.gdStart+i)*v.layout.blockSize) v.layout.blockSize
        fun j => v.table (i*v.layout.blockSize+j) := by rw [hv1]
    have hi : (i+1)*v.layout.blockSize = i*v.layout.blockSize+v.layout.blockSize := succ_mul ..
    have hg : (v.layout.gdStart+i)*v.layout.blockSize =
        v.layout.gdStart*v.layout.blockSize+i*v.layout.blockSize := add_mul ..
    have hg1 : (v.layout.gdStart+(i+1))*v.layout.blockSize =
        v.layout.gdStart*v.layout.blockSize+(i+1)*v.layout.blockSize := add_mul ..
    refine ⟨hw.layout.trans hl,hw.sb.trans (by rw [hv1]),hw.table.trans ht,
      hw.heap.trans (by rw [hv1]),hw.touched.trans (by rw [hv1]),hw.syncs.trans (by rw [hv1]),
      fun j h1 h2 => ?_,fun x hx => ?_⟩
    · rcases lt_or_ge j ((i+1)*v.layout.blockSize) with hlt | hge
      · -- the block just written, which the later ones leave alone
        rw [hout _ (by omega),hd,writeAt,if_pos (by omega)]
        congr 1
        omega
      · exact hin j hge (by rwa [add_assoc,add_comm 1])
    · rw [hout x (by omega),hd]
      exact if_neg (by omega)

/-- A device with the copies on it preserves the image exactly if the memory behind the superblock
is what the image has there. -/
theorem Kept.preserves_iff_matches {image : Bytes} {l : Layout} {tail : Bytes} (h : Kept image l v)
    (hsb : ∀ i < 1024, v.disk (1024+i) = if i < sbSize then v.sb i else tail i)
    (htable : ∀ j < l.blocksNeeded*l.blockSize, v.disk (l.gdStart*l.blockSize+j) = v.table j) :
    Sync.Preserves ⟨v.disk,v.touched,tail⟩ image l ↔ Sync.Matches ⟨v.disk,v.touched,tail⟩ image := by
  constructor
  · intro hp i hlo hhi
    have hno : ∀ c ∈ v.touched, ¬ c.Covers l false i := by
      intro c _ hc
      have hlt := hc.lt_of_sb
      have hsize : sbSize = 730 := rfl
      omega
    rw [← hp.sb i hhi hno]
    exact ((hsb i hhi).trans (if_neg (not_lt.mpr hlo))).symm
  · intro hm
    refine ⟨fun i hi hc => ?_,fun j hj hc => (htable j hj).trans (h.table j hj hc)⟩
    refine (hsb i hi).trans ?_
    split
    · rename_i hlt
      exact h.sb i hlt hc
    · rename_i hge
      exact hm i (Nat.le_of_not_lt hge) hi

/-- Where the blocks are no smaller than the superblock, a write-back leaves the two regions of the
device as they are in memory. -/
theorem Kept.syncMeta {image : Bytes} {l : Layout} (h : Kept image l v)
    (hsize : l.blockSize = 1024 ∨ 2048 ≤ l.blockSize) : Kept image l (syncMeta v) := by
  unfold Metadata.syncMeta
  split
  · exact h.transfer ‹_›
  rename_i v1 ht
  have h1 := h.transfer ht
  rcases hw : Metadata.writeTable v1.layout.blocksNeeded 0
      { v1 with disk := writeAt v1.disk 1024 1024 (sbBytes v1) } with ⟨_ | _,v2⟩
  · have hstart : Kept image l { v1 with disk := writeAt v1.disk 1024 1024 (sbBytes v1) } :=
      h1.congr rfl rfl rfl rfl rfl
    exact hstart.writeTable hw
  have hw' := writeTable_written hw
  have h2 : Kept image l v2 := h1.congr hw'.layout hw'.sb hw'.table hw'.touched hw'.syncs
  have hfirst : 2048 ≤ l.gdStart*l.blockSize := by
    rw [Layout.gdStart]
    split <;> omega
  have hin := hw'.inside
  have hout := hw'.outside
  have hl : v1.layout = l := h1.layout
  simp only [hl,zero_mul,zero_add,add_zero] at hin hout
  have hsb : ∀ i < 1024, v2.disk (1024+i) = if i < sbSize then v2.sb i else
      behind v2.layout v2.heap i := by
    intro i hi
    rw [hout _ (by omega),hw'.sb,hw'.layout,hw'.heap]
    rw [writeAt,if_pos (by omega),Nat.add_sub_cancel_left]
    rfl
  have htable : ∀ j < l.blocksNeeded*l.blockSize,
      v2.disk (l.gdStart*l.blockSize+j) = v2.table j := by
    intro j hj
    rw [hw'.table]
    exact hin j (zero_le _) hj
  refine ⟨h2.layout,h2.sb,h2.table,fun s hs => ?_⟩
  rcases List.mem_cons.mp hs with rfl | hs
  · refine ⟨⟨v2.heap,?_⟩,h2.preserves_iff_matches hsb htable⟩
    rw [← h2.layout]
  · exact h2.syncs s hs

end WriteBack

/-! ### Runs -/

section Allocators

variable {image : Bytes} {l : Layout} {v v' : Vol} {p : Prop} [Decidable p] (h : Kept image l v)
include h

theorem Kept.setIf {c : Counter} {n : Nat} :
    Kept image l (if p then v.set c n else v) := by
  split
  · exact h.set c n
  · exact h

theorem Kept.setUnless {c : Counter} {n : Nat} :
    Kept image l (if p then v else v.set c n) := by
  split
  · exact h
  · exact h.set c n

theorem Kept.allocIn {free : Nat → Counter} {bitmap : Vol → Nat → Nat} {perGroup : Vol → Nat}
    {len : Vol → Bytes → Nat → Nat} {enter : Nat → Nat → Nat → Vol → Vol}
    (henter : ∀ bg bit run v, Kept image l v → Kept image l (enter bg bit run v)) (bgs : List Nat) :
    Kept image l (allocIn free bitmap perGroup len enter bgs v) := by
  induction bgs generalizing v with
  | nil => exact h
  | cons bg bgs ih =>
    rw [Metadata.allocIn]
    split
    · exact ih h
    split
    · exact h.readBlock ‹_›
    rename_i hr
    have h1 := h.readBlock hr
    split
    · exact ih h1
    dsimp only
    split
    · exact h1.writeBlock ‹_›
    · exact henter _ _ _ _ (h1.writeBlock ‹_›)

variable (hsize : l.blockSize = 1024 ∨ 2048 ≤ l.blockSize)

include hsize

theorem Kept.allocBlock : Kept image l (allocBlock v) := by
  unfold Metadata.allocBlock
  split
  · exact h.kzalloc ‹_›
  · refine (h.kzalloc ‹_›).allocIn (fun _ _ _ _ h1 => ?_) _
    exact Kept.writeBlock (Kept.syncMeta (Kept.setUnless (h1.set _ _)) hsize) rfl

theorem Kept.freeBlock (abs : Nat) : Kept image l (freeBlock v abs) := by
  unfold Metadata.freeBlock
  dsimp only
  split
  · exact h
  split
  · exact h
  split
  · exact h.kzalloc ‹_›
  rename_i hk
  have h1 := h.kzalloc hk
  split
  · exact h1.readBlock ‹_›
  rename_i hr
  have h2 := h1.readBlock hr
  split
  · exact Kept.syncMeta (((h2.writeBlock rfl).set _ _).set _ _) hsize
  · exact h2

theorem Kept.allocBlockRun (want : Nat) : Kept image l (allocBlockRun v want) := by
  unfold Metadata.allocBlockRun
  dsimp only
  split
  · exact h.kzalloc ‹_›
  · refine (h.kzalloc ‹_›).allocIn (fun _ _ _ _ h1 => ?_) _
    exact Kept.syncMeta (Kept.setUnless (h1.set _ _)) hsize

theorem Kept.allocInode (isDir : Bool) : Kept image l (allocInode v isDir) := by
  unfold Metadata.allocInode
  split
  · exact h.kzalloc ‹_›
  · refine (h.kzalloc ‹_›).allocIn (fun _ _ _ _ h1 => ?_) _
    exact Kept.syncMeta (Kept.setIf (Kept.setUnless (h1.set _ _))) hsize

theorem Kept.freeInode (inodeNo : Nat) (isDir : Bool) :
    Kept image l (freeInode v inodeNo isDir) := by
  unfold Metadata.freeInode
  dsimp only
  split
  · exact h
  split
  · exact h
  split
  · exact h.kzalloc ‹_›
  rename_i hk
  have h1 := h.kzalloc hk
  split
  · exact h1.readBlock ‹_›
  rename_i hr
  have h2 := h1.readBlock hr
  exact Kept.syncMeta (Kept.set (Kept.setIf (Kept.set (h2.writeBlock rfl) _ _)) _ _) hsize

theorem Kept.step {e : Event} (he : step v e = some v') : Kept image l v' := by
  cases e with
  | allocBlock => cases he; exact h.allocBlock hsize
  | freeBlock abs => cases he; exact h.freeBlock hsize abs
  | allocBlockRun want => cases he; exact h.allocBlockRun hsize want
  | allocInode isDir => cases he; exact h.allocInode hsize isDir
  | freeInode inodeNo isDir => cases he; exact h.freeInode hsize inodeNo isDir
  | weather heap nomem io => cases he; exact h.congr rfl rfl rfl rfl rfl

end Allocators

section

variable {image : Bytes} {groupDesc : Nat} {v v' : Vol} {es : List Event} (hm : mount image groupDesc = some v) (hrun : exec step v es = some v')
include hm hrun

end

end Lariat.Ext4.Metadata
