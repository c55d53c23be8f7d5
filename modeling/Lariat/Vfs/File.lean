import Lariat.Vfs.Inode

/-! Directory operations and open files: what `vfs_open`, `vfs_read`, `vfs_write` and the
operations behind them do, when they succeed, fail or fall short. -/
namespace Lariat.Vfs
open Foundation.NameTree

def EPERM : BitVec 64 := 1
def ENOENT : BitVec 64 := 2
def EIO : BitVec 64 := 5
def ENOMEM : BitVec 64 := 12
def EACCES : BitVec 64 := 13
def EFAULT : BitVec 64 := 14
def EEXIST : BitVec 64 := 17
def EISDIR : BitVec 64 := 21
def EINVAL : BitVec 64 := 22
def EFBIG : BitVec 64 := 27

/-- A new node; a directory has no file operations. -/
def newInode (mode : BitVec 32) : Inode := { mode := mode, fileOps := !isDir mode }

def newLink (target : Path) : Inode := { mode := S_IFLNK ||| 0o777, target := some target, fileOps := true }

theorem newInode_entries (mode : BitVec 32) : (newInode mode).entries = [] := rfl
theorem newLink_entries (target : Path) : (newLink target).entries = [] := rfl

namespace Fs

section

variable (s : Fs) (d : Nat) (name : Name)

/-- `create` of a file system; `mkdir` is the same with another type. -/
def create (mode : BitVec 32) (ok : Bool) : Except (BitVec 64) Fs :=
  if hfree : s.tree.child d name = none then
    if ok then .ok (s.addChild d name (newInode mode) (newInode_entries mode) hfree)
    else .error (-1)
  else .error (-EEXIST)

def symlink (target : Path) (ok : Bool) : Except (BitVec 64) Fs :=
  if hfree : s.tree.child d name = none then
    if ok then .ok (s.addChild d name (newLink target) (newLink_entries target) hfree)
    else .error (-1)
  else .error (-EEXIST)

def unlink (ok : Bool) : Except (BitVec 64) Fs :=
  match s.tree.child d name with
  | none => .error (-1)
  | some i =>
    if isDir (s.inode i).mode then .error (-1)
    else if ok then .ok (s.removeChild d name)
    else .error (-1)

def rmdir (ok : Bool) : Except (BitVec 64) Fs :=
  match s.tree.child d name with
  | none => .error (-1)
  | some i =>
    if isDir (s.inode i).mode ∧ (s.inode i).entries = [] then
      if ok then .ok (s.removeChild d name) else .error (-1)
    else .error (-1)

end

end Fs

/-- An open file handle. -/
structure File where
  inode : Nat
  pos : Nat := 0
  flags : BitVec 32 := 0
  deriving DecidableEq, Repr

/-- Which steps of an open succeed: the `create` operation, the allocation of the handle
and the `truncate` operation. -/
structure OpenLuck where
  create : Bool := true
  handle : Bool := true
  truncate : Bool := true

/-- The rest of `vfs_open` once the node is known. -/
def openNode (s : Fs) (i : Nat) (flags : BitVec 32) (l : OpenLuck) : Fs × Option File :=
  if l.handle then
    let s' := if flags &&& O_TRUNC ≠ 0 ∧ (s.inode i).fileOps ∧ l.truncate then s.setData i [] else s
    (s',some { inode := i, flags := flags
               pos := if flags &&& O_APPEND ≠ 0 then (s'.inode i).size else 0 })
  else (s,none)

/-- The branch of `vfs_open` that enters a new file. -/
def openNew (s : Fs) (path : Path) (flags : BitVec 32) (l : OpenLuck) : Fs × Option File :=
  match vfsLookupParent s.tree path with
  | none => (s,none)
  | some (d,name) =>
    match s.create d.node name (S_IFREG ||| 0o644) l.create with
    | .error _ => (s,none)
    | .ok s' =>
      match vfsLookupPath s'.tree path with
      | none => (s',none)
      | some e => openNode s' e.node flags l

def vfsOpen (s : Fs) (path : Path) (flags : BitVec 32) (l : OpenLuck) : Fs × Option File :=
  match vfsLookupPath s.tree path with
  | some e => openNode s e.node flags l
  | none => if flags &&& O_CREAT ≠ 0 then openNew s path flags l else (s,none)

section Open

variable {s s' : Fs} {i j d : Nat} {path : Path} {name : Name} {mode flags : BitVec 32} {l : OpenLuck}

variable {ok : Bool} {f : File}

section

variable (h : s.create d name mode ok = .ok s')
include h

theorem create_ok :
    ok ∧ ∃ hfree, s' = s.addChild d name (newInode mode) (newInode_entries mode) hfree := by
  unfold Fs.create at h
  split_ifs at h with hfree hok
  cases h
  exact ⟨hok,hfree,rfl⟩

theorem create_extends (hd : d < s.fresh) : s.tree.Extends s'.tree := by
  obtain ⟨_,_,rfl⟩ := create_ok h
  exact Fs.addChild_extends hd

/-- A node in use gets at most an entry. -/
theorem create_field {α : Type*} (hd : d < s.fresh) (g : Inode → α)
    (hg : ∀ x es, g { x with entries := es } = g x) (hj : j < s.fresh) :
    g (s'.inode j) = g (s.inode j) := by
  obtain ⟨_,_,rfl⟩ := create_ok h
  by_cases hjd : j = d
  · subst hjd
    rw [Fs.addChild_dir hd]
    exact hg _ _
  · rw [Fs.addChild_of_ne hjd (by omega)]

end

theorem unlink_ok (h : s.unlink d name ok = .ok s') :
    ∃ i, s.tree.child d name = some i ∧ isDir (s.inode i).mode = false ∧ ok ∧ s' = s.removeChild d name := by
  unfold Fs.unlink at h
  split at h
  · cases h
  · rename_i i hc
    split_ifs at h with hi hok
    cases h
    exact ⟨i,hc,by simpa using hi,hok,rfl⟩

/-- What an open can do to the file systems, by how far it gets. -/
inductive Opened (s : Fs) (path : Path) (flags : BitVec 32) (l : OpenLuck) : Fs × Option File → Prop where
  | found {e : Dentry} : vfsLookupPath s.tree path = some e →
      Opened s path flags l (openNode s e.node flags l)
  | refused : vfsLookupPath s.tree path = none → Opened s path flags l (s,none)
  | lost {d : Dentry} {name : Name} {s' : Fs} : vfsLookupPath s.tree path = none →
      flags &&& O_CREAT ≠ 0 → vfsLookupParent s.tree path = some (d,name) →
      s.create d.node name (S_IFREG ||| 0o644) l.create = .ok s' →
      vfsLookupPath s'.tree path = none → Opened s path flags l (s',none)
  | entered {d e : Dentry} {name : Name} {s' : Fs} : vfsLookupPath s.tree path = none →
      flags &&& O_CREAT ≠ 0 → vfsLookupParent s.tree path = some (d,name) →
      s.create d.node name (S_IFREG ||| 0o644) l.create = .ok s' →
      vfsLookupPath s'.tree path = some e → Opened s path flags l (openNode s' e.node flags l)

theorem vfsOpen_opened {r : Fs × Option File} (h : vfsOpen s path flags l = r) :
    Opened s path flags l r := by
  subst h
  unfold vfsOpen
  cases hp : vfsLookupPath s.tree path with
  | some e => exact .found hp
  | none =>
    split_ifs with hc
    · unfold openNew
      cases hd : vfsLookupParent s.tree path with
      | none => exact .refused hp
      | some dn =>
        obtain ⟨d,name⟩ := dn
        dsimp only
        cases he : s.create d.node name (S_IFREG ||| 0o644) l.create with
        | error err => exact .refused hp
        | ok s' =>
          dsimp only
          cases hp' : vfsLookupPath s'.tree path with
          | none => exact .lost hp hc hd he hp'
          | some e => exact .entered hp hc hd he hp'
    · exact .refused hp

theorem openNode_fst (s : Fs) (i : Nat) (flags : BitVec 32) (l : OpenLuck) :
    (openNode s i flags l).1 =
      if l.handle ∧ flags &&& O_TRUNC ≠ 0 ∧ (s.inode i).fileOps ∧ l.truncate then s.setData i [] else s := by
  unfold openNode
  by_cases hh : l.handle
  · simp only [hh,true_and,if_true]
  · simp only [hh,Bool.false_eq_true,false_and,if_false]

theorem openNode_field {α : Type*} (g : Inode → α) (hg : ∀ x bs, g { x with data := bs } = g x) (j : Nat) :
    g ((openNode s i flags l).1.inode j) = g (s.inode j) := by
  rw [openNode_fst]
  split
  · exact Fs.setData_field g hg s i [] j
  · rfl

theorem openNode_of_ne (hj : j ≠ i) : (openNode s i flags l).1.inode j = s.inode j := by
  rw [openNode_fst]
  split
  · exact Fs.setData_of_ne hj
  · rfl

@[simp] theorem openNode_tree : (openNode s i flags l).1.tree = s.tree := by
  rw [openNode_fst]
  split
  · exact Fs.tree_setData ..
  · rfl

@[simp] theorem openNode_fresh : (openNode s i flags l).1.fresh = s.fresh := by
  rw [openNode_fst]
  split
  · exact Fs.setInode_fresh
  · rfl

theorem openNode_file (h : (openNode s i flags l).2 = some f) : f.inode = i ∧ l.handle := by
  unfold openNode at h
  split at h
  · rename_i hl
    cases h
    exact ⟨rfl,hl⟩
  · cases h

theorem openNode_none (h : (openNode s i flags l).2 = none) : openNode s i flags l = (s,none) := by
  unfold openNode at h ⊢
  split at h
  · cases h
  · rename_i hl
    rw [if_neg hl]

theorem openNode_pos (hf : flags &&& O_APPEND = 0) (h : (openNode s i flags l).2 = some f) :
    f.pos = 0 := by
  unfold openNode at h
  split at h
  · cases h
    exact if_neg (not_not_intro hf)
  · cases h

theorem openNode_data (hi : i < s.fresh) : ((openNode s i flags l).1.inode i).data =
    if l.handle ∧ flags &&& O_TRUNC ≠ 0 ∧ (s.inode i).fileOps ∧ l.truncate then [] else (s.inode i).data := by
  rw [openNode_fst]
  split
  · rw [Fs.setData,Fs.setInode_self hi]
  · rfl

theorem vfsOpen_some (h : vfsOpen s path flags l = (s',some f)) :
    ∃ t e, vfsLookupPath t.tree path = some e ∧ s' = (openNode t e.node flags l).1 ∧
      (openNode t e.node flags l).2 = some f ∧ (t = s ∨ vfsLookupPath s.tree path = none ∧ flags &&& O_CREAT ≠ 0 ∧ ∃ d name,
        vfsLookupParent s.tree path = some (d,name) ∧
          s.create d.node name (S_IFREG ||| 0o644) l.create = .ok t) := by
  generalize hr : (s',some f) = r at h
  obtain ⟨rfl,hf⟩ := Prod.ext_iff.mp hr
  cases vfsOpen_opened h with
  | found he => exact ⟨s,_,he,rfl,hf.symm,.inl rfl⟩
  | refused | lost => cases hf
  | entered hnone hcreat hp hc he => exact ⟨_,_,he,rfl,hf.symm,.inr ⟨hnone,hcreat,_,_,hp,hc⟩⟩

theorem vfsOpen_file (h : vfsOpen s path flags l = (s',some f)) :
    ∃ e, vfsLookupPath s'.tree path = some e ∧ f.inode = e.node := by
  obtain ⟨t,e,he,rfl,hf,-⟩ := vfsOpen_some h
  exact ⟨e,by rw [openNode_tree,he],(openNode_file hf).1⟩

section Result

variable {r : Fs × Option File}

theorem vfsOpen_extends (h : vfsOpen s path flags l = r) : s.tree.Extends r.1.tree := by
  cases vfsOpen_opened h with
  | found =>
    rw [openNode_tree]
    exact .refl _
  | refused => exact .refl _
  | lost _ _ hp hc _ => exact create_extends hc (Fs.parent_lt hp)
  | entered _ _ hp hc _ =>
    rw [openNode_tree]
    exact create_extends hc (Fs.parent_lt hp)

/-- What opening does to a node in use: bytes may go and an entry may come. -/
theorem vfsOpen_field {α : Type*} (h : vfsOpen s path flags l = r) (g : Inode → α)
    (hdata : ∀ x bs, g { x with data := bs } = g x) (hentries : ∀ x es, g { x with entries := es } = g x)
    (hj : j < s.fresh) : g (r.1.inode j) = g (s.inode j) := by
  cases vfsOpen_opened h with
  | found => exact openNode_field g hdata j
  | refused => rfl
  | lost _ _ hp hc _ => exact create_field hc (Fs.parent_lt hp) g hentries hj
  | entered _ _ hp hc _ =>
    exact (openNode_field g hdata j).trans (create_field hc (Fs.parent_lt hp) g hentries hj)

theorem vfsOpen_none_data (h : vfsOpen s path flags l = r) (hr : r.2 = none) (hj : j < s.fresh) :
    (r.1.inode j).data = (s.inode j).data := by
  cases vfsOpen_opened h with
  | found => rw [openNode_none hr]
  | refused => rfl
  | lost _ _ hp hc _ => exact create_field hc (Fs.parent_lt hp) Inode.data (fun _ _ => rfl) hj
  | entered _ _ hp hc _ =>
    rw [openNode_none hr]
    exact create_field hc (Fs.parent_lt hp) Inode.data (fun _ _ => rfl) hj

end Result

end Open

/-- What an open asks for. -/
def accessWanted (flags : BitVec 32) : BitVec 32 :=
  let acc := flags &&& 3
  (if acc = O_RDONLY ∨ acc = O_RDWR then MAY_READ else 0) |||
    (if acc = O_WRONLY ∨ acc = O_RDWR then MAY_WRITE else 0) |||
    (if flags &&& O_TRUNC ≠ 0 then MAY_WRITE else 0)

def vfsAccessCheck (s : Fs) (c : Cred) (path : Path) (flags : BitVec 32) : BitVec 64 :=
  match vfsLookupPath s.tree path with
  | some e => if vfsPermission c (s.inode e.node) (accessWanted flags) then 0 else -EACCES
  | none =>
    if flags &&& O_CREAT ≠ 0 then
      match vfsLookupParent s.tree path with
      | none => -ENOENT
      | some (d,_) =>
        if vfsPermission c (s.inode d.node) (MAY_WRITE ||| MAY_EXEC) then 0 else -EACCES
    else -ENOENT

/-- Read at the position; `limit` is how much the file system gives, if it does not fail. -/
def vfsRead (s : Fs) (f : File) (count : Nat) (limit : Option Nat) : Option (List Byte × File) :=
  if (s.inode f.inode).fileOps then limit.map fun n =>
    let bs := ((s.inode f.inode).data.drop f.pos).take (min count n)
    (bs,{ f with pos := f.pos+bs.length })
  else none

/-- Bytes put over the old ones at a position, with zeros up to it. -/
def overwrite (old : List Byte) (pos : Nat) (bs : List Byte) : List Byte :=
  old.take pos ++ List.replicate (pos-old.length) 0 ++ bs ++ old.drop (pos+bs.length)

/-- Write at the position; `limit` is how much the file system takes, if it does not fail. -/
def vfsWrite (s : Fs) (f : File) (bs : List Byte) (limit : Option Nat) : Option (Nat × Fs × File) :=
  if (s.inode f.inode).fileOps then limit.map fun n =>
    let bs := bs.take n
    (bs.length,s.setData f.inode (overwrite (s.inode f.inode).data f.pos bs),
      { f with pos := f.pos+bs.length })
  else none

/-- A relative path is joined to the working directory, in a buffer of 1024 bytes. -/
def cwdJoin (cwd p : Path) : Option Path :=
  let cwd := if cwd = [] then ['/'] else cwd
  if isAbsolute p then some p
  else if cwd.length+1+p.length+1 > 1024 then none
  else some (cwd ++ (if cwd.getLast? = some '/' then [] else ['/']) ++ p)

end Lariat.Vfs
