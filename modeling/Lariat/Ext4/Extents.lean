import Lariat.Ext4.Disk

/-! The extent tree of an inode: lookup, append at the end, sorted insertion and truncation. -/
namespace Lariat.Ext4

variable (g : Geometry)

/-- The fields of an inode that the extent code reads; `size` joins `i_size_hi` and
`i_size_lo`. -/
structure Inode where
  root : Node
  size : Nat := 0
  blocksLo : BitVec 32 := 0
  deriving Repr

/-- The records that fit behind the header in the 60 bytes of `i_block`. -/
def rootMax : Nat := (60-12) / 12

def blockMax : Nat := (g.blockSize-12) / 12

def initExtentInode : Inode := { root := { max := rootMax, depth := 0 } }

def Inode.charge (ino : Inode) (n : Nat) : Inode :=
  { ino with blocksLo := ino.blocksLo+.ofNat 32 (n*(g.blockSize / 512)) }

def Inode.refund (ino : Inode) (n : Nat) : Inode :=
  { ino with blocksLo := ino.blocksLo-.ofNat 32 (n*(g.blockSize / 512)) }

def Extent.stop (e : Extent) : Nat := u32 (e.block+e.len)

/-- The scan of a leaf for a logical block. -/
def lookup (es : List Extent) (lblk : Nat) : Nat :=
  match es.find? fun e => e.block ≤ lblk ∧ lblk < e.stop with
  | none => 0
  | some e => e.start+(lblk-e.block)

/-- How many nodes a descent is followed through. The driver itself has no bound: on a
tree whose pointers form a cycle it reads forever. -/
def descentMax : Nat := 65536

def findExtentLoop (lblk : Nat) : Nat → Fs → Node → Option Nat × Fs
  | 0, d, _ => (none,d)
  | fuel+1, d, eh =>
    if eh.depth = 0 then (some (lookup eh.extents lblk),d)
    else match (eh.index.takeWhile fun x => x.block ≤ lblk).getLast? with
      | none => (some 0,d)
      | some x =>
        match d.readBlock x.leaf with
        | (none,d) => (some 0,d)
        | (some c,d) =>
          if c.asNode.magic ≠ extentMagic then (some 0,d)
          else findExtentLoop lblk fuel d c.asNode

/-- `ext4_find_extent_block`: 0 stands for a hole and for every failure alike. The outer
`none` is a descent that did not end. -/
def findExtentBlock (d : Fs) (ino : Inode) (lblk : Nat) : Option Nat × Fs :=
  if ino.root.magic ≠ extentMagic then (some 0,d)
  else match d.kzalloc with
    | (false,d) => (some 0,d)
    | (true,d) => findExtentLoop lblk descentMax d ino.root

/-- What `ext4_find_extent_block` answers with memory and transfers to spare. -/
def mapping (d : Fs) (ino : Inode) (lblk : Nat) : Option Nat :=
  (findExtentBlock { d with heap := [], io := [] } ino lblk).1

/-- `ext4_grow_depth`: the root moves into a block of its own and keeps one index record. -/
def growDepth (ino : Inode) (d : Fs) : Bool × Inode × Fs :=
  match allocBlock g d with
  | (c,d) =>
    if c = 0 then (false,ino,d)
    else match d.kzalloc with
      | (false,d) => (false,ino,freeBlock g d c)
      | (true,d) =>
        match d.writeBlock c (.node { ino.root with max := blockMax g }) with
        | (false,d) => (false,ino,freeBlock g d c)
        | (true,d) =>
          let first := if ino.root.depth = 0 then (ino.root.extents.head?.map (·.block)).getD 0
            else (ino.root.index.head?.map (·.block)).getD 0
          (true,{ ino.charge g 1 with
            root := { max := rootMax, depth := ino.root.depth+1, index := [⟨first,c⟩] } },d)

/-- Deepen the tree and try again. -/
def growAndRetry (ino : Inode) (d : Fs) (again : Inode → Fs → Bool × Inode × Fs) :
    Bool × Inode × Fs :=
  match growDepth g ino d with
  | (false,ino,d) => (false,ino,d)
  | (true,ino,d) => again ino d

/-- One level of the path from the root: `pblk`, `phdr` and `pidx`. Block 0 is the root
inside the inode. Paths run upwards from the leaf. -/
structure Frame where
  blk : Nat
  node : Node
  pos : Nat := 0

def Frame.withExtents (f : Frame) (es : List Extent) : Frame :=
  { f with node := { f.node with extents := es } }

def Frame.withIndex (f : Frame) (xs : List Index) : Frame :=
  { f with node := { f.node with index := xs } }

def Frame.capacity (f : Frame) : Nat := if f.blk = 0 then f.node.max else blockMax g

/-- Write the node of a frame back, into the inode or into its block. -/
def store (ino : Inode) (d : Fs) (f : Frame) : Bool × Inode × Fs :=
  if f.blk = 0 then (true,{ ino with root := f.node },d)
  else match d.writeBlock f.blk (.node f.node) with
    | (ok,d) => (ok,ino,d)

/-- Two extents that are contiguous on both sides and fit one record. -/
def joins (a b : Extent) : Bool :=
  a.stop = b.block ∧ a.start+a.len = b.start ∧ a.len+b.len ≤ 32768

/-! ### Append -/

/-- The path to the rightmost leaf. -/
def walkRight : Nat → Fs → Frame → List Frame → Option (Frame × List Frame) × Fs
  | 0, d, f, above => (some (f,above),d)
  | k+1, d, f, above =>
    match f.node.index.getLast? with
    | none => (none,d)
    | some x =>
      match d.kzalloc with
      | (false,d) => (none,d)
      | (true,d) =>
        match d.readBlock x.leaf with
        | (none,d) => (none,d)
        | (some c,d) =>
          if c.asNode.magic ≠ extentMagic then (none,d)
          else walkRight k d ⟨x.leaf,c.asNode,0⟩
            ({ f with pos := f.node.index.length-1 } :: above)

/-- The deepest index node with a free slot, and how many full levels lie below it. -/
def findRoom : List Frame → Nat → Option (Nat × Frame)
  | [], _ => none
  | f :: fs, k => if f.node.entries < f.capacity g then some (k,f) else findRoom fs (k+1)

/-- A fresh block of the tree, filled with a node. -/
def newNode (ino : Inode) (d : Fs) (n : Node) : Option Nat × Inode × Fs :=
  match allocBlock g d with
  | (b,d) =>
    if b = 0 then (none,ino,d)
    else match d.kzalloc with
      | (false,d) => (none,ino.charge g 1,freeBlock g d b)
      | (true,d) =>
        match d.writeBlock b (.node n) with
        | (false,d) => (none,ino.charge g 1,freeBlock g d b)
        | (true,d) => (some b,ino.charge g 1,d)

/-- The new index blocks between the new leaf and the level it is linked under. -/
def makeSpine (lblk : Nat) : Nat → Nat → Nat → Inode → Fs → Option Nat × Inode × Fs
  | 0, _, child, ino, d => (some child,ino,d)
  | n+1, depth, child, ino, d =>
    match newNode g ino d { max := blockMax g, depth := depth, index := [⟨lblk,child⟩] } with
    | (none,ino,d) => (none,ino,d)
    | (some b,ino,d) => makeSpine lblk n (depth+1) b ino d

/-- A new leaf with `x` in it, its spine of `levels` index blocks, and the link under `p`. -/
def linkSpine (levels : Nat) (p : Frame) (ino : Inode) (d : Fs) (x : Extent) : Bool × Inode × Fs :=
  match newNode g ino d { max := blockMax g, depth := 0, extents := [x] } with
  | (none,ino,d) => (false,ino,d)
  | (some leaf,ino,d) =>
    match makeSpine g x.block levels 1 leaf ino d with
    | (none,ino,d) => (false,ino,d)
    | (some child,ino,d) =>
      store ino d (p.withIndex (p.node.index ++ [⟨x.block,child⟩]))

/-- `ext4_extent_append`, with the recursion after a grown root as a count of calls. -/
def extentAppendFrom : Nat → Inode → Fs → Extent → Bool × Inode × Fs
  | 0, ino, d, _ => (false,ino,d)
  | calls+1, ino, d, x =>
    if ino.root.magic ≠ extentMagic then (false,ino,d)
    else if x.len = 0 then (true,ino,d)
    else if 32768 < x.len then (false,ino,d)
    else if 8 ≤ ino.root.depth+1 then (false,ino,d)
    else match walkRight ino.root.depth d ⟨0,ino.root,0⟩ [] with
      | (none,d) => (false,ino,d)
      | (some (f,above),d) =>
        match f.node.extents.getLast?.filter (joins · x) with
        | some l =>
          store ino d (f.withExtents (f.node.extents.dropLast ++ [{ l with len := l.len+x.len }]))
        | none =>
          if f.node.extents.length < f.capacity g then
            store ino d (f.withExtents (f.node.extents ++ [x]))
          else match findRoom g above 0 with
            | some (levels,p) => linkSpine g levels p ino d x
            | none => growAndRetry g ino d fun ino d => extentAppendFrom calls ino d x

/-- Each retry has a deeper root, and a root of depth 7 is refused. -/
def extentAppend (ino : Inode) (d : Fs) (x : Extent) : Bool × Inode × Fs :=
  extentAppendFrom g 8 ino d x

/-! ### Sorted insertion -/

/-- `ext4_node_first_block`. -/
def Node.firstBlock (n : Node) : Nat :=
  if n.depth = 0 then (n.extents.head?.map (·.block)).getD 0
  else (n.index.head?.map (·.block)).getD 0

def treeEndLoop : Nat → Bool → Fs → Node → Option Nat × Fs
  | 0, _, d, _ => (none,d)
  | fuel+1, buf, d, h =>
    if h.depth = 0 then (some ((h.extents.getLast?.map Extent.stop).getD 0),d)
    else match h.index.getLast? with
      | none => (some 0,d)
      | some x =>
        match (if buf then (true,d) else d.kzalloc) with
        | (false,d) => (some 0,d)
        | (true,d) =>
          match d.readBlock x.leaf with
          | (none,d) => (some 0,d)
          | (some c,d) => treeEndLoop fuel true d c.asNode

/-- `ext4_tree_end`. -/
def treeEnd (d : Fs) (ino : Inode) : Option Nat × Fs :=
  if ino.root.magic ≠ extentMagic then (some 0,d)
  else treeEndLoop descentMax false d ino.root

/-- The records of a leaf before and behind the place of a logical block. -/
def leafBefore (es : List Extent) (lblk : Nat) : List Extent :=
  es.takeWhile fun e => e.block ≤ lblk

def leafBehind (es : List Extent) (lblk : Nat) : List Extent :=
  es.dropWhile fun e => e.block ≤ lblk

/-- `ext4_leaf_put`. -/
def leafPut (es : List Extent) (x : Extent) : List Extent :=
  let pre := leafBefore es x.block
  let post := leafBehind es x.block
  match pre.getLast?.filter (joins · x) with
  | some p => pre.dropLast ++ { p with len := p.len+x.len } :: post
  | none =>
    match post.head?.filter (joins x ·) with
    | some n => pre ++ ⟨x.block,n.len+x.len,x.start⟩ :: post.tail
    | none => pre ++ x :: post

def canCoalesce (es : List Extent) (x : Extent) : Bool :=
  (leafBefore es x.block).getLast?.any (joins · x) || (leafBehind es x.block).head?.any (joins x ·)

/-- `ext4_idx_put`. -/
def idxPut (xs : List Index) (y : Index) : List Index :=
  (xs.takeWhile fun x => x.block ≤ y.block) ++ y :: xs.dropWhile fun x => x.block ≤ y.block

/-- The last child whose key is not beyond the block, or the first child. -/
def childPos (xs : List Index) (lblk : Nat) : Nat :=
  (xs.tail.takeWhile fun x => x.block ≤ lblk).length

/-- The path to the leaf a logical block belongs to. -/
def walkTo (lblk : Nat) : Nat → Fs → Frame → List Frame → Option (Frame × List Frame) × Fs
  | 0, d, f, above => (some (f,above),d)
  | k+1, d, f, above =>
    match f.node.index[childPos f.node.index lblk]? with
    | none => (none,d)
    | some x =>
      match d.kzalloc with
      | (false,d) => (none,d)
      | (true,d) =>
        match d.readBlock x.leaf with
        | (none,d) => (none,d)
        | (some c,d) => walkTo lblk k d ⟨x.leaf,c.asNode,0⟩
            ({ f with pos := childPos f.node.index lblk } :: above)

def Frame.setKey (f : Frame) (first : Nat) : Frame :=
  f.withIndex (f.node.index.modify f.pos fun x => { x with block := first })

def Frame.key (f : Frame) : Option Nat := (f.node.index[f.pos]?).map (·.block)

/-- Hand the first block of a node up its path. A node whose key stays is written again
only where the source does so. -/
def propagate (always : Bool) : List Frame → Nat → Inode → Fs → Inode × Fs
  | [], _, ino, d => (ino,d)
  | f :: fs, first, ino, d =>
    let stored := if always || f.key != some first then (store ino d (f.setKey first)).2 else (ino,d)
    propagate always fs (f.setKey first).node.firstBlock stored.1 stored.2

/-- The halves of a split leaf, with the run put into the one it belongs to. -/
def lowerHalf (es : List Extent) (x : Extent) : List Extent :=
  let low := es.take (es.length / 2)
  let high := es.drop (es.length / 2)
  if x.block < (high.head?.map (·.block)).getD 0 then leafPut low x else low

def upperHalf (es : List Extent) (x : Extent) : List Extent :=
  let high := es.drop (es.length / 2)
  if x.block < (high.head?.map (·.block)).getD 0 then high else leafPut high x

/-- The upper half of a full leaf moves to a fresh block, which the parent links. -/
def splitLeaf (f parent : Frame) (above : List Frame) (ino : Inode) (d : Fs) (x : Extent) :
    Bool × Inode × Fs :=
  match allocBlock g d with
  | (b,d) =>
    if b = 0 then (false,ino,d)
    else match d.kzalloc with
      | (false,d) => (false,ino.charge g 1,freeBlock g d b)
      | (true,d) =>
        let low := f.withExtents (lowerHalf f.node.extents x)
        let high : Node := { max := blockMax g, depth := 0, extents := upperHalf f.node.extents x }
        match store (ino.charge g 1) d low with
        | (_,ino,d) =>
          let d := (d.writeBlock b (.node high)).2
          let keyed := parent.setKey low.node.firstBlock
          let linked := keyed.withIndex (idxPut keyed.node.index ⟨high.firstBlock,b⟩)
          match store ino d linked with
          | (_,ino,d) => (true,propagate true above linked.node.firstBlock ino d)

/-- The retry loop of `ext4_extent_map`. -/
def extentMapLoop : Nat → Inode → Fs → Extent → Bool × Inode × Fs
  | 0, ino, d, _ => (false,ino,d)
  | attempts+1, ino, d, x =>
    if 8 ≤ ino.root.depth+1 then (false,ino,d)
    else match walkTo x.block ino.root.depth d ⟨0,ino.root,0⟩ [] with
      | (none,d) => (false,ino,d)
      | (some (f,above),d) =>
        if f.node.extents.length < f.capacity g ∨ canCoalesce f.node.extents x then
          let put := f.withExtents (leafPut f.node.extents x)
          match store ino d put with
          | (_,ino,d) => (true,propagate false above put.node.firstBlock ino d)
        else
          match above.head? with
          | some parent =>
            if parent.node.entries < parent.capacity g then
              splitLeaf g f parent above.tail ino d x
            else growAndRetry g ino d fun ino d => extentMapLoop attempts ino d x
          | none => growAndRetry g ino d fun ino d => extentMapLoop attempts ino d x

/-- `ext4_extent_map`. -/
def extentMap (ino : Inode) (d : Fs) (x : Extent) : Bool × Inode × Fs :=
  if ino.root.magic ≠ extentMagic ∨ x.len = 0 ∨ 32768 < x.len then (false,ino,d)
  else extentMapLoop g 8 ino d x

/-! ### Truncation -/

/-- Free the blocks of a leaf from `lblk` on, its last record first. -/
def freeExtents (lblk : Nat) : List Extent → Inode → Fs → Inode × Fs
  | [], ino, d => (ino,d)
  | e :: es, ino, d =>
    if e.stop ≤ lblk then freeExtents lblk es ino d
    else
      let keep := lblk-e.block
      freeExtents lblk es (ino.refund g (e.len-keep)) (freeRun g d (e.start+keep) (e.len-keep))

/-- The record of a truncated leaf, before `eh_entries` is lowered. -/
def cutExtent (lblk : Nat) (e : Extent) : Extent :=
  if e.stop ≤ lblk ∨ lblk ≤ e.block then e else { e with len := lblk-e.block }

/-- Each record that goes lowers `eh_entries`, so the last records go. -/
def cutExtents (lblk : Nat) (es : List Extent) : List Extent :=
  (es.map (cutExtent lblk)).take
    (es.length-(es.filter fun e => lblk < e.stop ∧ lblk ≤ e.block).length)

/-- The loop over the children of an index node, last child first: `sub` truncates a child
and returns the records it keeps. The count is of the children that became empty. -/
def freeChildren (lblk : Nat) (sub : Node → Inode → Fs → Option (Nat × Node × Inode × Fs)) :
    List Index → Nat → Inode → Fs → Option (Nat × Inode × Fs)
  | [], gone, ino, d => some (gone,ino,d)
  | x :: xs, gone, ino, d =>
    match d.kzalloc with
    | (false,d) => some (gone,ino,d)
    | (true,d) =>
      match d.readBlock x.leaf with
      | (none,d) => freeChildren lblk sub xs gone ino d
      | (some c,d) =>
        match sub c.asNode ino d with
        | none => none
        | some (0,_,ino,d) =>
          let d := freeBlock g d x.leaf
          if x.block < lblk then some (gone+1,ino.refund g 1,d)
          else freeChildren lblk sub xs (gone+1) (ino.refund g 1) d
        | some (_,n,ino,d) =>
          let d := (d.writeBlock x.leaf (.node n)).2
          if x.block < lblk then some (gone,ino,d)
          else freeChildren lblk sub xs gone ino d

/-- `ext4_free_subtree_from`: the records left and the trimmed node. -/
def freeSubtreeFrom (lblk : Nat) : Nat → Node → Inode → Fs → Option (Nat × Node × Inode × Fs)
  | 0, _, _, _ => none
  | fuel+1, h, ino, d =>
    if h.magic ≠ extentMagic then some (0,h,ino,d)
    else if h.depth = 0 then
      let h' := { h with extents := cutExtents lblk h.extents }
      some (h'.entries,h',freeExtents g lblk h.extents.reverse ino d)
    else match freeChildren g lblk (freeSubtreeFrom lblk fuel) h.index.reverse 0 ino d with
      | none => none
      | some (gone,ino,d) =>
        let h' := { h with index := h.index.take (h.index.length-gone) }
        some (h'.entries,h',ino,d)

/-- `ext4_free_blocks_from`, which makes an emptied root a leaf. -/
def freeBlocksFrom (ino : Inode) (d : Fs) (lblk : Nat) : Option (Inode × Fs) :=
  if ino.root.magic ≠ extentMagic then some (ino,d)
  else match freeSubtreeFrom g lblk descentMax ino.root ino d with
    | none => none
    | some (_,h,ino,d) =>
      let root := if h.entries = 0 then { h with depth := 0 } else h
      some ({ ino with root := root },d)

end Lariat.Ext4
