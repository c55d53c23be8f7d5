import Lariat.Vfs.File

/-! The system calls that open files and change directories. Results are the values
returned to user mode, and the file systems afterwards. -/
namespace Lariat.Vfs
open Foundation.NameTree List Option

/-- What the path calls read of the calling thread. -/
structure Caller where
  cred : Cred
  cwd : Path := []

/-- A user who is not root. -/
def someUser : Caller := { cred := { uid := 1000, euid := 1000, suid := 1000, gid := 1000, egid := 1000, sgid := 1000 } }

section

variable (s : Fs)

/-- `sys_open` up to the allocation of a descriptor. -/
def openFile (c : Caller) (path : Path) (flags : BitVec 32) (l : OpenLuck) :
    Fs × Except (BitVec 64) File :=
  match cwdJoin c.cwd path with
  | none => (s,.error (-ENOENT))
  | some p =>
    if vfsAccessCheck s c.cred p flags = -EACCES then (s,.error (-EACCES))
    else
      let existed := flags &&& O_CREAT ≠ 0 ∧ (vfsLookupPath s.tree p).isSome
      match vfsOpen s p flags l with
      | (s,none) => (s,.error (-ENOENT))
      | (s,some f) =>
        -- a new file belongs to the user who creates it
        (if flags &&& O_CREAT ≠ 0 ∧ ¬ existed then s.setOwner f.inode c.cred.euid c.cred.egid else s,.ok f)

/-- What an open comes to: nothing done, no handle, or a file opened, a new one given to the caller. -/
theorem openFile_cases (c : Caller) (path : Path) (flags : BitVec 32) (l : OpenLuck) :
    (∃ err, openFile s c path flags l = (s,.error err)) ∨ ∃ q, cwdJoin c.cwd path = some q ∧
      vfsAccessCheck s c.cred q flags ≠ -EACCES ∧ ∃ t,
        (vfsOpen s q flags l = (t,none) ∧ openFile s c path flags l = (t,.error (-ENOENT)) ∨
          ∃ f, vfsOpen s q flags l = (t,some f) ∧ openFile s c path flags l =
            (if flags &&& O_CREAT ≠ 0 ∧ vfsLookupPath s.tree q = none then
              t.setOwner f.inode c.cred.euid c.cred.egid else t,.ok f)) := by
  unfold openFile
  cases hj : cwdJoin c.cwd path with
  | none => exact .inl ⟨_,rfl⟩
  | some q =>
    dsimp only
    by_cases hacc : vfsAccessCheck s c.cred q flags = -EACCES
    · rw [if_pos hacc]
      exact .inl ⟨_,rfl⟩
    rw [if_neg hacc]
    refine .inr ⟨q,rfl,hacc,?_⟩
    cases hv : vfsOpen s q flags l with
    | mk t g =>
      cases g with
      | none => exact ⟨t,.inl ⟨rfl,rfl⟩⟩
      | some f =>
        refine ⟨t,.inr ⟨f,rfl,?_⟩⟩
        cases vfsLookupPath s.tree q with
        | none | some e => simp

/-- What the operations on a path's last component have in common: they act on the
directory the rest leads to. -/
def inParent (path : Path) (op : Dentry → Name → Except (BitVec 64) Fs) : Except (BitVec 64) Fs :=
  match vfsLookupParent s.tree path with
  | none => .error (-1)
  | some (d,name) => op d name

def vfsMkdir (path : Path) (mode : BitVec 32) (ok : Bool) : Except (BitVec 64) Fs :=
  inParent s path fun d name => s.create d.node name (mode ||| S_IFDIR) ok

def vfsUnlink (path : Path) (ok : Bool) : Except (BitVec 64) Fs :=
  inParent s path fun d name => s.unlink d.node name ok

def vfsRmdir (path : Path) (ok : Bool) : Except (BitVec 64) Fs :=
  inParent s path fun d name => s.rmdir d.node name ok

/-- The only one of these that crosses a mount at the directory itself. -/
def vfsSymlink (target linkpath : Path) (ok : Bool) : Except (BitVec 64) Fs :=
  inParent s linkpath fun d name => s.symlink (s.tree.cross d).node name target ok

def sysMkdir (c : Caller) (path : Path) (mode : BitVec 32) (ok : Bool) : BitVec 64 × Fs :=
  match cwdJoin c.cwd path with
  | none => (-ENOENT,s)
  | some p =>
    match vfsMkdir s p mode ok with
    | .ok s =>
      match vfsLookupPath s.tree p with
      | some e => (0,s.setOwner e.node c.cred.euid c.cred.egid)
      | none => (0,s)
    | .error e => (if e = -EEXIST then -EEXIST else -ENOENT,s)

/-- The calls that only report whether they succeeded. -/
def replyAt (c : Caller) (path : Path) (missing err : BitVec 64)
    (op : Path → Except (BitVec 64) Fs) : BitVec 64 × Fs :=
  match cwdJoin c.cwd path with
  | none => (-missing,s)
  | some p =>
    match op p with
    | .ok s => (0,s)
    | .error _ => (-err,s)

def sysRmdir (c : Caller) (path : Path) (ok : Bool) : BitVec 64 × Fs :=
  replyAt s c path ENOENT ENOENT fun p => vfsRmdir s p ok

def sysUnlink (c : Caller) (path : Path) (ok : Bool) : BitVec 64 × Fs :=
  replyAt s c path ENOENT ENOENT fun p => vfsUnlink s p ok

def sysSymlink (c : Caller) (target linkpath : Path) (ok : Bool) : BitVec 64 × Fs :=
  replyAt s c linkpath EFAULT EIO fun p => vfsSymlink s target p ok

end

variable {s : Fs} {path : Path}

theorem inParent_ok {s' : Fs} {op : Dentry → Name → Except (BitVec 64) Fs}
    (h : inParent s path op = .ok s') :
    ∃ d name, vfsLookupParent s.tree path = some (d,name) ∧ op d name = .ok s' := by
  unfold inParent at h
  split at h
  · cases h
  · rename_i hp
    exact ⟨_,_,hp,h⟩

theorem inParent_eq {op : Dentry → Name → Except (BitVec 64) Fs} {d : Dentry} {name : Name}
    (h : vfsLookupParent s.tree path = some (d,name)) : inParent s path op = op d name := by
  rw [inParent,h]

/-- Which steps of a rename succeed, and how much is read and written. -/
structure RenameLuck where
  src : OpenLuck := {}
  dst : OpenLuck := {}
  buffer : Bool := true
  read : Option Nat := some 0x100000
  write : Option Nat := some 0x100000
  unlink : Bool := true

def RENAME_MAX : Nat := 0x100000

/-- The copy of a rename, once both files are open: read, write what was read, take over
the mode. Short or failed transfers are not noticed. -/
def copyFile (s : Fs) (src dst : File) (mode : BitVec 32) (hmode : ¬isDir mode) (size : Nat)
    (l : RenameLuck) : Fs :=
  let bytes := (vfsRead s src size l.read).elim [] (·.1)
  let s := if bytes = [] then s else (vfsWrite s dst bytes l.write).elim s (·.2.1)
  s.setMode dst.inode mode fun h => absurd h hmode

section CopyFile

variable {s : Fs} {src dst : File} {mode : BitVec 32} {hmode : ¬isDir mode} {size j : Nat}
  {l : RenameLuck}

theorem copyFile_eq (s : Fs) (src dst : File) (size : Nat) (l : RenameLuck) :
    ∃ bs, copyFile s src dst mode hmode size l =
      (s.setData dst.inode bs).setMode dst.inode mode fun h => absurd h hmode := by
  have hid : s = s.setData dst.inode (s.inode dst.inode).data := (Fs.setInode_eq_self s dst.inode).symm
  have hwrite (bytes : List Byte) : ∃ bs, (if bytes = [] then s else
      (vfsWrite s dst bytes l.write).elim s (·.2.1)) = s.setData dst.inode bs := by
    split
    · exact ⟨_,hid⟩
    unfold vfsWrite
    split
    · cases l.write with
      | none => exact ⟨_,hid⟩
      | some n => exact ⟨_,rfl⟩
    · exact ⟨_,hid⟩
  obtain ⟨bs,h⟩ := hwrite ((vfsRead s src size l.read).elim [] (·.1))
  refine ⟨bs,?_⟩
  simp only [copyFile,h]

theorem copyFile_field {α : Type*} (g : Inode → α) (hdata : ∀ x bs, g { x with data := bs } = g x)
    (hmode' : ∀ x m, g { x with mode := m } = g x) (j : Nat) :
    g ((copyFile s src dst mode hmode size l).inode j) = g (s.inode j) := by
  obtain ⟨bs,h⟩ := copyFile_eq s src dst size l
  rw [h]
  exact (Fs.setMode_field g hmode' _ _ _ _ j).trans (Fs.setData_field g hdata s _ bs j)

theorem copyFile_of_ne (hj : j ≠ dst.inode) : (copyFile s src dst mode hmode size l).inode j = s.inode j := by
  obtain ⟨bs,h⟩ := copyFile_eq s src dst size l
  rw [h,Fs.setMode,Fs.setInode_of_ne hj,Fs.setData_of_ne hj]

theorem copyFile_mode (hd : dst.inode < s.fresh) :
    ((copyFile s src dst mode hmode size l).inode dst.inode).mode = mode := by
  obtain ⟨bs,h⟩ := copyFile_eq s src dst size l
  rw [h,Fs.setMode,Fs.setInode_self (by rw [Fs.setData,Fs.setInode_fresh]; exact hd)]

theorem copyFile_rest (s : Fs) (src dst : File) (size : Nat) (l : RenameLuck) :
    (copyFile s src dst mode hmode size l).root = s.root ∧ (copyFile s src dst mode hmode size l).mount = s.mount ∧
      (copyFile s src dst mode hmode size l).mounts = s.mounts ∧ (copyFile s src dst mode hmode size l).fresh = s.fresh := by
  obtain ⟨bs,h⟩ := copyFile_eq s src dst size l
  rw [h]
  simp only [Fs.setMode,Fs.setData,Fs.setInode_root,Fs.setInode_mount,Fs.setInode_mounts,Fs.setInode_fresh,and_self]

theorem copyFile_mode_field (hd : dst.inode < s.fresh) {α : Type*} (g : BitVec 32 → α)
    (hg : g mode = g (s.inode dst.inode).mode) (a : Nat) :
    g ((copyFile s src dst mode hmode size l).inode a).mode = g (s.inode a).mode := by
  by_cases ha : a = dst.inode
  · rw [ha,copyFile_mode hd,hg]
  · rw [copyFile_of_ne ha]

section

variable (hd : dst.inode < s.fresh) (hlink : isLnk mode = isLnk (s.inode dst.inode).mode)
include hd hlink

/-- Where neither file is a link, no path is gained. -/
theorem copyFile_extends :
    (copyFile s src dst mode hmode size l).tree.Extends s.tree := by
  obtain ⟨hroot,hmount,hmounts,_⟩ := copyFile_rest s src dst size l
  have hdirs (a : Nat) (ha : isDir ((copyFile s src dst mode hmode size l).inode a).mode) :
      isDir (s.inode a).mode := by
    by_cases had : a = dst.inode
    · rw [had,copyFile_mode hd] at ha
      exact absurd ha hmode
    · rwa [copyFile_of_ne had] at ha
  refine ⟨hroot.symm,hmount.symm,hmounts.symm,fun a ha => ?_,fun a k b hb => ⟨?_,?_,?_⟩⟩
  · exact hdirs a ha
  · obtain ⟨ha,hb⟩ := Fs.child_eq_some.mp hb
    rw [copyFile_field Inode.entries (fun _ _ => rfl) (fun _ _ => rfl)] at hb
    exact Fs.child_eq_some.mpr ⟨hdirs a ha,hb⟩
  · exact (copyFile_mode_field hd isLnk hlink b).symm
  · simp only [Fs.tree]
    rw [copyFile_field Inode.target (fun _ _ => rfl) (fun _ _ => rfl)]

/-- Where both are plain files, no path is affected. -/
theorem copyFile_tree (hdir : isDir mode = isDir (s.inode dst.inode).mode) :
    (copyFile s src dst mode hmode size l).tree = s.tree := by
  obtain ⟨hroot,hmount,hmounts,_⟩ := copyFile_rest s src dst size l
  exact Fs.tree_eq hroot hmount hmounts (copyFile_mode_field hd isDir hdir)
    (copyFile_mode_field hd isLnk hlink)
    (copyFile_field Inode.entries (fun _ _ => rfl) (fun _ _ => rfl))
    (copyFile_field Inode.target (fun _ _ => rfl) (fun _ _ => rfl))

end

theorem copyFile_data (hd : dst.inode < s.fresh) (hpos : src.pos = 0) (hpos' : dst.pos = 0)
    (hops : (s.inode src.inode).fileOps) (hops' : (s.inode dst.inode).fileOps)
    (hempty : (s.inode dst.inode).data = []) :
    ((copyFile s src dst mode hmode size l).inode dst.inode).data =
      (s.inode src.inode).data.take (min (l.write.getD 0) (min size (l.read.getD 0))) := by
  have hread : (vfsRead s src size l.read).elim [] (·.1) =
      (s.inode src.inode).data.take (min size (l.read.getD 0)) := by
    rw [vfsRead,if_pos hops]
    cases l.read with
    | none => simp
    | some r =>
      simp only [map_some,elim_some,hpos,drop_zero,getD_some]
  rw [← take_take,← hread]
  unfold copyFile
  rw [Fs.setMode_field Inode.data (fun _ _ => rfl)]
  split
  · rename_i hnil
    rw [hnil,hempty,take_nil]
  rw [vfsWrite,if_pos hops']
  cases l.write with
  | none => exact hempty
  | some w =>
    simp only [map_some,elim_some,getD_some]
    rw [Fs.setData,Fs.setInode_self hd,hempty,hpos']
    simp [overwrite]

end CopyFile

/-- `sys_rename` once the paths are joined and the old node is known. -/
def renameNode (s : Fs) (o n : Path) (d : Nat) (l : RenameLuck) : BitVec 64 × Fs :=
  let mode := (s.inode d).mode
  let size := (s.inode d).size
  if hdir : isDir mode then (-EISDIR,s)
  else if RENAME_MAX < size then (-EFBIG,s)
  else match vfsOpen s o O_RDONLY l.src with
    | (s,none) => (-ENOENT,s)
    | (s,some src) =>
      match vfsOpen s n (O_CREAT ||| O_WRONLY ||| O_TRUNC) l.dst with
      | (s,none) => (-EACCES,s)
      | (s,some dst) =>
        if l.buffer then
          let s := copyFile s src dst mode hdir size l
          -- whether the old name goes away is not looked at
          (0,(vfsUnlink s o l.unlink).toOption.getD s)
        else (-ENOMEM,s)

def sysRename (s : Fs) (c : Caller) (oldp newp : Path) (l : RenameLuck) : BitVec 64 × Fs :=
  match cwdJoin c.cwd oldp, cwdJoin c.cwd newp with
  | some o, some n =>
    match vfsLookupPath s.tree o with
    | none => (-ENOENT,s)
    | some e => renameNode s o n e.node l
  | _, _ => (-EFAULT,s)

section Rename

variable {s : Fs} {c : Caller} {oldp newp o n : Path} {e : Dentry} {l : RenameLuck}

/-- How a rename opens the new path. -/
def O_NEW : BitVec 32 := O_CREAT ||| O_WRONLY ||| O_TRUNC

/-- The rename gets as far as opening the new path. -/
structure Renaming (s : Fs) (c : Caller) (oldp newp : Path) (l : RenameLuck) (o n : Path) (e : Dentry) :
    Prop where
  joinOld : cwdJoin c.cwd oldp = some o
  joinNew : cwdJoin c.cwd newp = some n
  found : vfsLookupPath s.tree o = some e
  notDir : ¬isDir (s.inode e.node).mode
  small : (s.inode e.node).size ≤ RENAME_MAX
  src : l.src.handle

/-- The old file as the rename reads it. -/
def oldFile (e : Dentry) : File := { inode := e.node, flags := O_RDONLY }

/-- How a rename can end. -/
inductive Renamed (s : Fs) (c : Caller) (oldp newp : Path) (l : RenameLuck) : BitVec 64 × Fs → Prop where
  | refused {err : BitVec 64} : err ≠ 0 → (∀ o n e, ¬ Renaming s c oldp newp l o n e) →
      Renamed s c oldp newp l (err,s)
  | unopened {o n : Path} {e : Dentry} {s' : Fs} : Renaming s c oldp newp l o n e →
      vfsOpen s n O_NEW l.dst = (s',none) → Renamed s c oldp newp l (-EACCES,s')
  | unbuffered {o n : Path} {e : Dentry} {s' : Fs} {dst : File} : Renaming s c oldp newp l o n e →
      vfsOpen s n O_NEW l.dst = (s',some dst) → l.buffer = false → Renamed s c oldp newp l (-ENOMEM,s')
  | copied {o n : Path} {e : Dentry} {s' s'' : Fs} {dst : File}
      (hr : Renaming s c oldp newp l o n e) :
      vfsOpen s n O_NEW l.dst = (s',some dst) → l.buffer = true →
      s'' = copyFile s' (oldFile e) dst (s.inode e.node).mode hr.notDir (s.inode e.node).size l →
      Renamed s c oldp newp l (0,(vfsUnlink s'' o l.unlink).toOption.getD s'')

theorem vfsOpen_rdonly {l : OpenLuck} (h : vfsLookupPath s.tree o = some e) :
    vfsOpen s o O_RDONLY l = (s,if l.handle then some (oldFile e) else none) := by
  rw [vfsOpen,h]
  dsimp only
  unfold openNode
  split <;> rfl

theorem sysRename_renamed (s : Fs) (c : Caller) (oldp newp : Path) (l : RenameLuck) :
    Renamed s c oldp newp l (sysRename s c oldp newp l) := by
  unfold sysRename
  cases ho : cwdJoin c.cwd oldp with
  | none => exact .refused (by decide) fun o n e h => nomatch ho.symm.trans h.joinOld
  | some o =>
    cases hn : cwdJoin c.cwd newp with
    | none => exact .refused (by decide) fun o n e h => nomatch hn.symm.trans h.joinNew
    | some n =>
      dsimp only
      cases he : vfsLookupPath s.tree o with
      | none =>
        refine .refused (by decide) fun o' n' e h => ?_
        cases ho.symm.trans h.joinOld
        exact nomatch he.symm.trans h.found
      | some e =>
        unfold renameNode
        dsimp only
        have hsame : ∀ {o' n' e'}, Renaming s c oldp newp l o' n' e' → e' = e := by
          intro o' n' e' h
          cases ho.symm.trans h.joinOld
          exact some.inj (h.found.symm.trans he)
        by_cases hdir : isDir (s.inode e.node).mode
        · rw [dif_pos hdir]
          refine .refused (by decide) fun o' n' e' h => ?_
          rw [← hsame h] at hdir
          exact h.notDir hdir
        rw [dif_neg hdir]
        by_cases hbig : RENAME_MAX < (s.inode e.node).size
        · rw [if_pos hbig]
          refine .refused (by decide) fun o' n' e' h => ?_
          rw [← hsame h] at hbig
          exact Nat.not_le.mpr hbig h.small
        rw [if_neg hbig,vfsOpen_rdonly he]
        by_cases hsrc : l.src.handle
        · rw [if_pos hsrc]
          have hr : Renaming s c oldp newp l o n e := ⟨ho,hn,he,hdir,Nat.not_lt.mp hbig,hsrc⟩
          dsimp only
          cases hopen : vfsOpen s n (O_CREAT ||| O_WRONLY ||| O_TRUNC) l.dst with
          | mk s' f =>
            cases f with
            | none => exact .unopened hr hopen
            | some dst =>
              dsimp only
              split_ifs with hb
              · exact .copied hr hopen hb rfl
              · exact .unbuffered hr hopen (by simpa using hb)
        · rw [if_neg hsrc]
          exact .refused (by decide) fun o' n' e' h => hsrc h.src

theorem Renaming.unique {o' n' : Path} {e' : Dentry} (h : Renaming s c oldp newp l o n e)
    (h' : Renaming s c oldp newp l o' n' e') : o = o' ∧ n = n' ∧ e = e' := by
  obtain rfl := some.inj (h.joinOld.symm.trans h'.joinOld)
  obtain rfl := some.inj (h.joinNew.symm.trans h'.joinNew)
  exact ⟨rfl,rfl,some.inj (h.found.symm.trans h'.found)⟩

end Rename

end Lariat.Vfs
