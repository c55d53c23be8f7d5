import Lariat.Vfs.Path

/-! The nodes of the file systems as the VFS sees them, permissions, and the operations
on directories and open files. An operation that a file system lacks, or that runs out of
memory or space, is one that fails. -/
namespace Lariat.Vfs
open Foundation.NameTree List Function Nat

def S_IFMT : BitVec 32 := 0xF000
def S_IFREG : BitVec 32 := 0x8000
def S_IFDIR : BitVec 32 := 0x4000
def S_IFLNK : BitVec 32 := 0xA000
def S_ISUID : BitVec 32 := 0x800
def S_ISGID : BitVec 32 := 0x400
def S_IRWXU : BitVec 32 := 0x1C0
def S_IRWXG : BitVec 32 := 0x038
def S_IRWXO : BitVec 32 := 0x007
def S_IXUSR : BitVec 32 := 0x040
def S_IXGRP : BitVec 32 := 0x008
def S_IXOTH : BitVec 32 := 0x001

def MAY_EXEC : BitVec 32 := 1
def MAY_WRITE : BitVec 32 := 2
def MAY_READ : BitVec 32 := 4

def O_RDONLY : BitVec 32 := 0
def O_WRONLY : BitVec 32 := 1
def O_RDWR : BitVec 32 := 2
def O_CREAT : BitVec 32 := 0x40
def O_TRUNC : BitVec 32 := 0x200
def O_APPEND : BitVec 32 := 0x400

def isReg (mode : BitVec 32) : Bool := mode &&& S_IFREG == S_IFREG
def isDir (mode : BitVec 32) : Bool := mode &&& S_IFDIR == S_IFDIR
def isLnk (mode : BitVec 32) : Bool := mode &&& S_IFMT == S_IFLNK

abbrev Byte := BitVec 8

/-- A dentry and its inode. `target` is what `readlink` gives, if it gives anything;
`fileOps` says that there are file operations, which a directory is made without, and
`selfMapped` that they map the device's own pages. -/
structure Inode where
  mode : BitVec 32 := 0
  uid : BitVec 32 := 0
  gid : BitVec 32 := 0
  data : List Byte := []
  target : Option Path := none
  entries : List (Name × Nat) := []
  fileOps : Bool := false
  selfMapped : Bool := false
  deriving DecidableEq, Repr

/-- The size that the VFS has for a node, in 32 bits. -/
def Inode.size (x : Inode) : Nat := x.data.length % 0x100000000

/-- All nodes, the directory tree over them and the mounts. Only nodes below `fresh`
are in use, and no directory has two entries of one name. Names can also be entered below a node
that is no directory, but are not found there. -/
structure Fs where
  inode : Nat → Inode
  mount : Nat → Option Nat
  mounts : Nat
  root : Nat
  fresh : Nat
  entry_lt : ∀ d, ∀ e ∈ (inode d).entries, e.2 < fresh
  mount_lt : ∀ n m, mount n = some m → n < fresh ∧ m < fresh
  root_lt : root < fresh
  unused : ∀ n, fresh ≤ n → inode n = {}
  names : ∀ d, isDir (inode d).mode → ((inode d).entries.map Prod.fst).Nodup

/-- The credentials of a thread. -/
structure Cred where
  uid : BitVec 32
  euid : BitVec 32
  suid : BitVec 32
  gid : BitVec 32 := 0
  egid : BitVec 32 := 0
  sgid : BitVec 32 := 0
  groups : List (BitVec 32) := []
  deriving DecidableEq, Repr

/-- The permission bits that apply to a thread other than root. -/
def permBits (c : Cred) (i : Inode) : BitVec 32 :=
  if c.euid = i.uid then (i.mode &&& S_IRWXU) >>> 6
  else if c.egid = i.gid ∨ i.gid ∈ c.groups then (i.mode &&& S_IRWXG) >>> 3
  else i.mode &&& S_IRWXO

def wantBits (mask : BitVec 32) : BitVec 32 :=
  (if mask &&& MAY_READ ≠ 0 then 4 else 0) ||| (if mask &&& MAY_WRITE ≠ 0 then 2 else 0) |||
    (if mask &&& MAY_EXEC ≠ 0 then 1 else 0)

/-- Whether `vfs_permission` returns 0; it returns `-EACCES` otherwise. -/
def vfsPermission (c : Cred) (i : Inode) (mask : BitVec 32) : Bool :=
  if mask = 0 then true
  else if c.euid = 0 then
    if mask &&& MAY_EXEC ≠ 0 then i.mode &&& (S_IXUSR ||| S_IXGRP ||| S_IXOTH) != 0 else true
  else permBits c i &&& wantBits mask == wantBits mask

namespace Fs

/-- The tree that paths are resolved in; `child` is `vfs_dentry_find_child`. -/
def tree (s : Fs) : Tree Nat Name where
  root := s.root
  isDir n := isDir (s.inode n).mode
  child d k := if isDir (s.inode d).mode then (s.inode d).entries.lookup k else none
  isLink n := isLnk (s.inode n).mode
  target n := (s.inode n).target.map fun p => ⟨isAbsolute (p.take PATH_LEN),hops (p.take PATH_LEN)⟩
  mount := s.mount
  mounts := s.mounts

variable {s : Fs} {d : Nat} {name : Name}

theorem child_eq_some {i : Nat} : s.tree.child d name = some i ↔
    isDir (s.inode d).mode ∧ (s.inode d).entries.lookup name = some i := by
  simp only [tree,Option.ite_none_right_eq_some]

theorem name_notMem (hd : isDir (s.inode d).mode) (h : s.tree.child d name = none) :
    name ∉ (s.inode d).entries.map Prod.fst := by
  simp only [tree,if_pos hd] at h
  intro hmem
  obtain ⟨e,he,rfl⟩ := mem_map.mp hmem
  exact absurd (lookup_eq_none_iff.mp h e he) (by simp)

theorem entry_mem {i : Nat} (h : s.tree.child d name = some i) :
    (name,i) ∈ (s.inode d).entries := by
  obtain ⟨_,_,hl,_⟩ := lookup_eq_some_iff.mp (child_eq_some.mp h).2
  rw [hl]
  exact mem_append_right _ mem_cons_self

section Update

variable {α : Type*} {f : Nat → α} {a b : Nat} {x y : α} (p : α → Prop)

theorem update_all (hx : p x) (h : ∀ n, p (f n)) : ∀ n, p (update f a x n) :=
  (forall_update_iff f fun _ => p).mpr ⟨hx,fun n _ => h n⟩

theorem updates_all (hx : p x) (hy : p y) (h : ∀ n, p (f n)) :
    ∀ n, p (update (update f a x) b y n) := update_all p hy (update_all p hx h)

end Update

/-- Change a node in use, without entering anything in it or making a directory of it. -/
def setInode (s : Fs) (i : Nat) (x : Inode) (h : x.entries.Sublist (s.inode i).entries)
    (hdir : isDir x.mode → isDir (s.inode i).mode) : Fs :=
  if hi : i < s.fresh then
    { s with
      inode := update s.inode i x
      entry_lt := update_all (fun x : Inode => ∀ e ∈ x.entries, e.2 < s.fresh)
        (fun e he => s.entry_lt i e (h.subset he)) s.entry_lt
      unused := by
        intro n hn
        rw [update_of_ne (by omega)]
        exact s.unused n hn
      names := update_all (fun x : Inode => isDir x.mode → (x.entries.map Prod.fst).Nodup)
        (fun hx => (s.names i (hdir hx)).sublist (h.map Prod.fst)) s.names }
  else s

def setData (s : Fs) (i : Nat) (bs : List Byte) : Fs :=
  s.setInode i { s.inode i with data := bs } (List.Sublist.refl _) id

def setMode (s : Fs) (i : Nat) (mode : BitVec 32) (h : isDir mode → isDir (s.inode i).mode) : Fs :=
  s.setInode i { s.inode i with mode := mode } (List.Sublist.refl _) h

def setOwner (s : Fs) (i : Nat) (uid gid : BitVec 32) : Fs :=
  s.setInode i { s.inode i with uid := uid, gid := gid } (List.Sublist.refl _) id

/-- Take the first entry of this name out of a directory. -/
def removeChild (s : Fs) (d : Nat) (name : Name) : Fs :=
  s.setInode d { s.inode d with entries := (s.inode d).entries.eraseP (·.1 == name) }
    eraseP_sublist id

/-- Enter a new node in a directory in use that has no such name. -/
def addChild (s : Fs) (d : Nat) (name : Name) (x : Inode) (h : x.entries = [])
    (hfree : s.tree.child d name = none) : Fs :=
  if hd : d < s.fresh then
    { s with
      inode := update (update s.inode s.fresh x) d
        { s.inode d with entries := (name,s.fresh) :: (s.inode d).entries }
      fresh := s.fresh+1
      entry_lt := by
        have hold (n : Nat) (e) (he : e ∈ (s.inode n).entries) := lt_succ_of_lt (s.entry_lt n e he)
        refine updates_all (fun x : Inode => ∀ e ∈ x.entries, e.2 < s.fresh+1) ?_
          (forall_mem_cons.mpr ⟨lt_succ_self _,hold d⟩) hold
        rw [h]
        exact nofun
      mount_lt := fun n m hm => by
        obtain ⟨h1,h2⟩ := s.mount_lt n m hm
        exact ⟨lt_succ_of_lt h1,lt_succ_of_lt h2⟩
      root_lt := lt_succ_of_lt s.root_lt
      unused := by
        intro n hn
        rw [update_of_ne (by omega),update_of_ne (by omega)]
        exact s.unused n (by omega)
      names := by
        refine updates_all (fun x : Inode => isDir x.mode → (x.entries.map Prod.fst).Nodup) ?_
          (fun hd => nodup_cons.mpr ⟨name_notMem hd hfree,s.names d hd⟩) s.names
        rw [h]
        exact fun _ => nodup_nil }
  else s

section SetInode

variable {s : Fs} {i j : Nat} {x : Inode} {h : x.entries.Sublist (s.inode i).entries}
  {hdir : isDir x.mode → isDir (s.inode i).mode}

@[simp] theorem setInode_fresh : (s.setInode i x h hdir).fresh = s.fresh := by
  unfold setInode
  split <;> rfl
@[simp] theorem setInode_mount : (s.setInode i x h hdir).mount = s.mount := by
  unfold setInode
  split <;> rfl
@[simp] theorem setInode_mounts : (s.setInode i x h hdir).mounts = s.mounts := by
  unfold setInode
  split <;> rfl
@[simp] theorem setInode_root : (s.setInode i x h hdir).root = s.root := by
  unfold setInode
  split <;> rfl

theorem setInode_self (hi : i < s.fresh) : (s.setInode i x h hdir).inode i = x := by
  rw [setInode,dif_pos hi]
  exact update_self ..

theorem setInode_of_ne (hj : j ≠ i) : (s.setInode i x h hdir).inode j = s.inode j := by
  unfold setInode
  split
  · exact update_of_ne hj ..
  · rfl

theorem setInode_field {α : Type*} (g : Inode → α) (hg : g x = g (s.inode i)) (j : Nat) :
    g ((s.setInode i x h hdir).inode j) = g (s.inode j) := by
  by_cases hj : j = i
  · subst hj
    by_cases hi : j < s.fresh
    · rw [setInode_self hi,hg]
    · rw [setInode,dif_neg hi]
  · rw [setInode_of_ne hj]

/-- What paths are resolved in depends on types, entries, links and mounts only. -/
theorem tree_eq {s s' : Fs} (hr : s'.root = s.root) (hm : s'.mount = s.mount) (hn : s'.mounts = s.mounts)
    (hd : ∀ n, isDir (s'.inode n).mode = isDir (s.inode n).mode)
    (hl : ∀ n, isLnk (s'.inode n).mode = isLnk (s.inode n).mode)
    (he : ∀ n, (s'.inode n).entries = (s.inode n).entries)
    (ht : ∀ n, (s'.inode n).target = (s.inode n).target) : s'.tree = s.tree := by
  simp only [tree,hr,hm,hn,hd,hl,he,ht]

@[simp] theorem tree_setData (s : Fs) (i : Nat) (bs : List Byte) : (s.setData i bs).tree = s.tree :=
  tree_eq setInode_root setInode_mount setInode_mounts
    (setInode_field (fun x => isDir x.mode) rfl) (setInode_field (fun x => isLnk x.mode) rfl)
    (setInode_field Inode.entries rfl) (setInode_field Inode.target rfl)

theorem setData_field {α : Type*} (g : Inode → α) (hg : ∀ x bs, g { x with data := bs } = g x) (s : Fs)
    (i : Nat) (bs : List Byte) (j : Nat) : g ((s.setData i bs).inode j) = g (s.inode j) :=
  setInode_field g (hg _ _) j

theorem setMode_field {α : Type*} (g : Inode → α) (hg : ∀ x m, g { x with mode := m } = g x) (s : Fs)
    (i : Nat) (m : BitVec 32) (h : isDir m → isDir (s.inode i).mode) (j : Nat) :
    g ((s.setMode i m h).inode j) = g (s.inode j) :=
  setInode_field g (hg _ _) j

theorem setInode_eq_self (s : Fs) (i : Nat) {h hdir} : s.setInode i (s.inode i) h hdir = s := by
  unfold setInode
  split
  · cases s
    simp only [update_eq_self]
  · rfl

theorem setData_of_ne {bs : List Byte} (hj : j ≠ i) : (s.setData i bs).inode j = s.inode j :=
  setInode_of_ne hj

end SetInode

section AddChild

variable {s : Fs} {d n : Nat} {name : Name} {x : Inode} {h : x.entries = []}
  {hfree : s.tree.child d name = none}

theorem addChild_dir (hd : d < s.fresh) : (s.addChild d name x h hfree).inode d =
    { s.inode d with entries := (name,s.fresh) :: (s.inode d).entries } := by
  rw [addChild,dif_pos hd]
  exact update_self ..

theorem addChild_new (hd : d < s.fresh) : (s.addChild d name x h hfree).inode s.fresh = x := by
  rw [addChild,dif_pos hd]
  exact (update_of_ne (by omega) ..).trans (update_self ..)

theorem addChild_of_ne (hn : n ≠ d) (hf : n ≠ s.fresh) :
    (s.addChild d name x h hfree).inode n = s.inode n := by
  unfold addChild
  split
  · exact (update_of_ne hn ..).trans (update_of_ne hf ..)
  · rfl

/-- A new name leaves every path that led somewhere leading there. -/
theorem addChild_extends (hd : d < s.fresh) :
    s.tree.Extends (s.addChild d name x h hfree).tree := by
  have hold : ∀ n, n ≠ s.fresh → ((s.addChild d name x h hfree).inode n).mode = (s.inode n).mode ∧
      ((s.addChild d name x h hfree).inode n).target = (s.inode n).target := by
    intro n hn
    by_cases he : n = d
    · subst he
      rw [addChild_dir hd]
      exact ⟨rfl,rfl⟩
    · rw [addChild_of_ne he hn]
      exact ⟨rfl,rfl⟩
  have hunused : s.inode s.fresh = {} := s.unused _ (le_refl _)
  have hrest : (s.addChild d name x h hfree).root = s.root ∧ (s.addChild d name x h hfree).mount = s.mount ∧
      (s.addChild d name x h hfree).mounts = s.mounts := by
    unfold addChild
    split <;> exact ⟨rfl,rfl,rfl⟩
  refine ⟨hrest.1,hrest.2.1,hrest.2.2,fun a ha => ?_,fun a k b hb => ?_⟩
  · have hne : a ≠ s.fresh := by
      rintro rfl
      simp only [tree,hunused] at ha
      exact absurd ha (by decide)
    simp only [tree,(hold a hne).1] at ha ⊢
    exact ha
  · have hblt : b < s.fresh := s.entry_lt a (k,b) (entry_mem hb)
    obtain ⟨hdir,hb⟩ := child_eq_some.mp hb
    have hne : a ≠ s.fresh := by
      rintro rfl
      rw [hunused] at hb
      cases hb
    refine ⟨child_eq_some.mpr ⟨by rw [(hold a hne).1]; exact hdir,?_⟩,?_,?_⟩
    · by_cases he : a = d
      · subst he
        rw [addChild_dir hd]
        rw [lookup_cons]
        have hk : (k == name) = false := by
          rw [beq_eq_false_iff_ne]
          rintro rfl
          exact absurd (hfree.symm.trans (child_eq_some.mpr ⟨hdir,hb⟩)) (by simp)
        rw [hk]
        exact hb
      · rw [addChild_of_ne he hne]
        exact hb
    · simp only [tree,(hold b (by omega)).1]
    · simp only [tree,(hold b (by omega)).2]

/-- The new node is what its name stands for, where names are found. -/
theorem addChild_child (hd : d < s.fresh) {i : Nat}
    (hi : (s.addChild d name x h hfree).tree.child d name = some i) : i = s.fresh := by
  have hl := (child_eq_some.mp hi).2
  rw [addChild_dir hd,lookup_cons_self] at hl
  exact (Option.some.inj hl).symm

end AddChild

theorem lookup_eraseP {L : List (Name × Nat)} (h : (L.map Prod.fst).Nodup) (name k : Name) :
    (L.eraseP (·.1 == name)).lookup k = if k = name then none else L.lookup k := by
  induction L with
  | nil =>
    split <;> rfl
  | cons e L ih =>
    obtain ⟨hnot,hL⟩ := nodup_cons.mp h
    by_cases he : e.1 = name
    · subst he
      rw [eraseP_cons_of_pos (by simp)]
      split
      · rename_i hk
        subst hk
        refine lookup_eq_none_iff.mpr fun p hp => ?_
        rw [bne_iff_ne]
        rintro hpe
        exact hnot (hpe ▸ mem_map_of_mem hp)
      · rename_i hk
        rw [lookup_cons,beq_eq_false_iff_ne.mpr hk]
    · rw [eraseP_cons_of_neg (by simpa using he),lookup_cons,lookup_cons,ih hL]
      by_cases hk : k = e.1
      · subst hk
        simp [he]
      · rw [beq_eq_false_iff_ne.mpr hk]

theorem tree_removeChild (hd : d < s.fresh) (name : Name) :
    (s.removeChild d name).tree = s.tree.without d name := by
  have hfield : ∀ {α : Type} (g : Inode → α), (∀ x es, g { x with entries := es } = g x) →
      ∀ n, g ((s.removeChild d name).inode n) = g (s.inode n) :=
    fun g hg n => setInode_field g (hg _ _) n
  have hchild : ∀ a k, (if isDir (s.inode a).mode then
      ((s.removeChild d name).inode a).entries.lookup k else none) =
      if a = d ∧ k = name then none else
        if isDir (s.inode a).mode then (s.inode a).entries.lookup k else none := by
    intro a k
    by_cases hdir : isDir (s.inode a).mode
    · rw [if_pos hdir,if_pos hdir]
      by_cases ha : a = d
      · subst ha
        rw [removeChild,setInode_self hd]
        simp only [true_and]
        exact lookup_eraseP (s.names a hdir) name k
      · rw [removeChild,setInode_of_ne ha,if_neg fun h => ha h.1]
    · rw [if_neg hdir,if_neg hdir,ite_self]
  simp only [tree,Tree.without,hfield Inode.mode fun _ _ => rfl,hfield Inode.target fun _ _ => rfl,
    hchild]
  simp only [removeChild,setInode_root,setInode_mount,setInode_mounts]

section Lookup

variable {s : Fs} {path : Path} {d : Dentry} {name : Name}

theorem holds_lt (s : Fs) : s.tree.Holds (· < s.fresh) where
  root := s.root_lt
  mount a b hb := (s.mount_lt a b hb).2
  child a k b hb _ := s.entry_lt a (k,b) (entry_mem hb)

theorem lookup_lt (hd : vfsLookupPath s.tree path = some d) : d.node < s.fresh :=
  (vfsLookupPath_all s.holds_lt hd).1

theorem parent_lt (hd : vfsLookupParent s.tree path = some (d,name)) : d.node < s.fresh :=
  (vfsLookupParent_all s.holds_lt hd).1

end Lookup

/-- A root directory with a directory open to all, `/tmp`, and a file of root's, `/key`. -/
def sampleInode : Nat → Inode
  | 0 => { mode := S_IFDIR ||| 0o755, entries := [(['t','m','p'],1),(['k','e','y'],2)] }
  | 1 => { mode := S_IFDIR ||| 0o777 }
  | 2 => { mode := S_IFREG ||| 0o600, data := [7], fileOps := true }
  | _+3 => {}

def sample : Fs where
  inode := sampleInode
  mount _ := none
  mounts := 0
  root := 0
  fresh := 3
  entry_lt := by
    intro d e he
    match d with
    | 0 => revert e; decide
    | 1 | 2 | _+3 => cases he
  mount_lt := by
    intro n m h
    cases h
  root_lt := by decide
  unused := by
    intro n hn
    obtain ⟨k,rfl⟩ := Nat.exists_eq_add_of_le hn
    rw [Nat.add_comm]
    rfl
  names := by
    intro d
    match d with
    | 0 => decide
    | 1 | 2 | _+3 => exact fun _ => nodup_nil

end Fs

end Lariat.Vfs
