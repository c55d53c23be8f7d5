import Lariat.Vfs.Calls

/-! Which directories the path calls change, and whether those let the caller write. -/
namespace Lariat.Vfs
open Foundation.NameTree

/-- A call that can change a directory, with what its steps meet. -/
inductive Request where
  | openFile (path : Path) (flags : BitVec 32) (l : OpenLuck)
  | mkdir (path : Path) (mode : BitVec 32) (ok : Bool)
  | rmdir (path : Path) (ok : Bool)
  | unlink (path : Path) (ok : Bool)
  | symlink (target linkpath : Path) (ok : Bool)
  | rename (oldp newp : Path) (l : RenameLuck)

/-- Whether the call succeeds, and the file systems after it. -/
def Request.run (s : Fs) (c : Caller) : Request → Bool × Fs
  | .openFile path flags l => ((Vfs.openFile s c path flags l).2.isOk,(Vfs.openFile s c path flags l).1)
  | .mkdir path mode ok => ((sysMkdir s c path mode ok).1 == 0,(sysMkdir s c path mode ok).2)
  | .rmdir path ok => ((sysRmdir s c path ok).1 == 0,(sysRmdir s c path ok).2)
  | .unlink path ok => ((sysUnlink s c path ok).1 == 0,(sysUnlink s c path ok).2)
  | .symlink target linkpath ok =>
    ((sysSymlink s c target linkpath ok).1 == 0,(sysSymlink s c target linkpath ok).2)
  | .rename oldp newp l => ((sysRename s c oldp newp l).1 == 0,(sysRename s c oldp newp l).2)

/-- A directory lets the caller write and search. -/
def Grants (s : Fs) (c : Caller) (d : Nat) : Prop :=
  vfsPermission c.cred (s.inode d) (MAY_WRITE ||| MAY_EXEC)

instance (s : Fs) (c : Caller) (d : Nat) : Decidable (Grants s c d) :=
  inferInstanceAs (Decidable (_ = true))

section

variable (s : Fs) (c : Caller)

/-- No file system's root is a link, and the directory of an old path that leads
somewhere is found. -/
structure Fs.Plain (oldp : Path) : Prop where
  root : isLnk (s.inode s.root).mode = false
  mount : ∀ a b, s.mount a = some b → isLnk (s.inode b).mode = false
  parent : ∀ o, cwdJoin c.cwd oldp = some o → (vfsLookupPath s.tree o).isSome →
    (vfsLookupParent s.tree o).isSome

end

section Entries

variable {s s' : Fs} {c : Caller} {d n i : Nat} {name : Name} {mode flags : BitVec 32} {ok : Bool}

end Entries

section Calls

variable {s : Fs} {c : Caller} {n : Nat} {path : Path} {mode : BitVec 32} {ok : Bool}

end Calls

section Rename

variable {s s' : Fs} {c : Caller} {oldp newp o n : Path} {l : RenameLuck} {e : Dentry} {k : Nat}

theorem Fs.Plain.holds (h : s.Plain c oldp) : s.tree.Holds fun a => isLnk (s.inode a).mode = false :=
  ⟨h.root,h.mount,fun _ _ _ _ hl => hl⟩

/-- The old name is looked for where it was, in spite of what has been entered and
copied. -/
theorem Renaming.parent {dst : File} {size : Nat} {D D' : Dentry} {N N' : Name} (hs : s.Plain c oldp)
    (hr : Renaming s c oldp newp l o n e) (hopen : vfsOpen s n O_NEW l.dst = (s',some dst))
    (h : vfsLookupParent
      (copyFile s' (oldFile e) dst (s.inode e.node).mode hr.notDir size l).tree o = some (D,N))
    (h' : vfsLookupParent s.tree o = some (D',N')) : (D,N) = (D',N') := by
  have hext : s.tree.Extends s'.tree := vfsOpen_extends hopen
  have hmode (j : Nat) (hj : j < s.fresh) : (s'.inode j).mode = (s.inode j).mode :=
    vfsOpen_field hopen Inode.mode (fun _ _ => rfl) (fun _ _ => rfl) hj
  obtain ⟨x,hx,hdst⟩ := vfsOpen_file hopen
  have holdlink : isLnk (s.inode e.node).mode = false := (vfsLookupPath_all hs.holds hr.found).1
  -- no path leads to a link after the open either
  have hnolink : s'.tree.Holds fun a => isLnk (s'.inode a).mode = false := by
    refine ⟨?_,fun a b hb => ?_,fun _ _ _ _ hl => hl⟩
    · have hroot : s'.root = s.root := hext.root
      simp only [Fs.tree,hroot,hmode _ s.root_lt,hs.root]
    · have hb' : s.mount a = some b := by
        have hmount : s'.mount = s.mount := hext.mount
        rw [← hmount]
        exact hb
      rw [hmode _ (s.mount_lt a b hb').2,hs.mount a b hb']
  have hnewlink : isLnk (s'.inode dst.inode).mode = false := hdst ▸ (vfsLookupPath_all hnolink hx).1
  have hback : (copyFile s' (oldFile e) dst (s.inode e.node).mode hr.notDir size l).tree.Extends s'.tree := by
    apply copyFile_extends
    · rw [hdst]
      exact Fs.lookup_lt hx
    · rw [holdlink,hnewlink]
  have h1 := vfsLookupParent_extends hback h
  have h2 := vfsLookupParent_extends hext h'
  exact Option.some.inj (h1.symm.trans h2)

end Rename

end Lariat.Vfs
