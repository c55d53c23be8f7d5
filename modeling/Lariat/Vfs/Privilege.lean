import Lariat.Foundation.Runs
import Lariat.Vfs.Rename

/-! User ids: the calls that change them, the set-user-ID bit of files, and who can come
to act as root. -/
namespace Lariat.Vfs.Privilege
open Foundation.NameTree Foundation.Runs Function List

def NGROUPS_MAX : Nat := 16
def ENOEXEC : BitVec 64 := 8

def sysSetuid (c : Cred) (u : BitVec 32) : Cred × BitVec 64 :=
  if c.euid = 0 then ({ c with uid := u, euid := u, suid := u },0)
  else if u = c.uid ∨ u = c.suid then ({ c with euid := u },0)
  else (c,-EPERM)

def sysSetgid (c : Cred) (g : BitVec 32) : Cred × BitVec 64 :=
  if c.euid = 0 then ({ c with gid := g, egid := g, sgid := g },0)
  else if g = c.gid ∨ g = c.sgid then ({ c with egid := g },0)
  else (c,-EPERM)

/-- The id `-1` leaves the old one. -/
def pick (cur new : BitVec 32) : BitVec 32 := if new = -1 then cur else new

/-- Whether an id is `-1` or one of the three current ones. -/
def mayPick (cur : List (BitVec 32)) (new : BitVec 32) : Bool := new == -1 || cur.contains new

def sysSetresuid (c : Cred) (r e s : BitVec 32) : Cred × BitVec 64 :=
  if c.euid ≠ 0 ∧ ¬ [r,e,s].all (mayPick [c.uid,c.euid,c.suid]) then (c,-EPERM)
  else ({ c with uid := pick c.uid r, euid := pick c.euid e, suid := pick c.suid s },0)

def sysSetresgid (c : Cred) (r e s : BitVec 32) : Cred × BitVec 64 :=
  if c.euid ≠ 0 ∧ ¬ [r,e,s].all (mayPick [c.gid,c.egid,c.sgid]) then (c,-EPERM)
  else ({ c with gid := pick c.gid r, egid := pick c.egid e, sgid := pick c.sgid s },0)

def sysSetgroups (c : Cred) (list : List (BitVec 32)) : Cred × BitVec 64 :=
  if c.euid ≠ 0 then (c,-EPERM)
  else if NGROUPS_MAX < list.length then (c,-EINVAL)
  else ({ c with groups := list },0)

/-- The mode that `chmod` stores. -/
def chmodMode (old mode : BitVec 32) : BitVec 32 := old &&& S_IFMT ||| mode &&& 0o7777

theorem chmodMode_and (old mode b : BitVec 32) :
    chmodMode old mode &&& b = old &&& (S_IFMT &&& b) ||| mode &&& (0o7777 &&& b) := by
  rw [chmodMode,BitVec.and_or_distrib_right,BitVec.and_assoc,BitVec.and_assoc]

/-- The type of the file stays. -/
theorem isDir_chmodMode (old mode : BitVec 32) : isDir (chmodMode old mode) = isDir old := by
  unfold isDir
  rw [chmodMode_and,show S_IFMT &&& S_IFDIR = S_IFDIR from rfl,show 0o7777 &&& S_IFDIR = 0 from rfl]
  simp

def chmodNode (s : Fs) (i : Nat) (mode : BitVec 32) : Fs :=
  s.setMode i (chmodMode (s.inode i).mode mode) fun h => isDir_chmodMode (s.inode i).mode mode ▸ h

/-- The node a `chmod` finds. -/
def chmodTarget (s : Fs) (c : Caller) (path : Path) : Except (BitVec 64) Nat :=
  match cwdJoin c.cwd path with
  | none => .error (-EFAULT)
  | some p =>
    match vfsLookupPath s.tree p with
    | none => .error (-ENOENT)
    | some e => .ok e.node

/-- What `execve` meets: whether the file can be opened, whether there is a built-in
program to fall back to, and whether the image can be loaded. -/
structure ExecLuck where
  handle : Bool := true
  embedded : Bool := false
  loaded : Bool := true

/-- The file that `execve` takes the ids from. -/
def execFile (s : Fs) (c : Caller) (path : Path) (l : ExecLuck) : Except (BitVec 64) (Option Nat) :=
  match cwdJoin c.cwd path with
  | none => .error (-EINVAL)
  | some p =>
    match (vfsOpen s p O_RDONLY { handle := l.handle }).2 with
    | none => if l.embedded then .ok none else .error (-ENOENT)
    | some f =>
      if vfsPermission c.cred (s.inode f.inode) MAY_EXEC then
        if (s.inode f.inode).data = [] then .error (-ENOEXEC) else .ok (some f.inode)
      else .error (-EACCES)

/-- The ids after a file has been loaded. -/
def execCred (c : Cred) (x : Inode) : Cred :=
  let c := if x.mode &&& S_ISUID ≠ 0 then { c with euid := x.uid, suid := x.uid } else c
  if x.mode &&& S_ISGID ≠ 0 then { c with egid := x.gid, sgid := x.gid } else c

/-- All threads and the file systems. On record: whether the set-user-ID bit of a node
was last set by a thread acting as root, and which threads are entitled to act as root,
because they have executed such a file of root's or come from one that was entitled. -/
structure Sys where
  fs : Fs
  thread : Nat → Caller
  byRoot : Nat → Bool
  entitled : Nat → Bool

inductive Act where
  | setuid (u : BitVec 32)
  | setgid (g : BitVec 32)
  | setresuid (r e s : BitVec 32)
  | setresgid (r e s : BitVec 32)
  | setgroups (list : List (BitVec 32))
  | chmod (path : Path) (mode : BitVec 32)
  | fchmod (node : Option Nat) (mode : BitVec 32)
  | openFile (path : Path) (flags : BitVec 32) (l : OpenLuck)
  | rename (oldp newp : Path) (l : RenameLuck)
  | execve (path : Path) (l : ExecLuck)
  | fork (child : Nat)

namespace Sys

def setCred (m : Sys) (t : Nat) (c : Cred) : Sys :=
  { m with thread := update m.thread t { m.thread t with cred := c } }

/-- The file systems after a call of the thread: it is on record as the one that set the bit on
each node whose mode it changed to one with the bit. -/
def setFs (m : Sys) (t : Nat) (fs : Fs) : Sys :=
  { m with
    fs := fs
    byRoot := fun i => if (fs.inode i).mode ≠ (m.fs.inode i).mode ∧ (fs.inode i).mode &&& S_ISUID ≠ 0 then
      (m.thread t).cred.euid == 0 else m.byRoot i }

def exec (m : Sys) (t i : Nat) : Sys :=
  { m.setCred t (execCred (m.thread t).cred (m.fs.inode i)) with
    entitled := if (m.fs.inode i).mode &&& S_ISUID ≠ 0 ∧ (m.fs.inode i).uid = 0 ∧ m.byRoot i then
      update m.entitled t true else m.entitled }

def act (m : Sys) (t : Nat) : Act → Sys
  | .setuid u => m.setCred t (sysSetuid (m.thread t).cred u).1
  | .setgid g => m.setCred t (sysSetgid (m.thread t).cred g).1
  | .setresuid r e s => m.setCred t (sysSetresuid (m.thread t).cred r e s).1
  | .setresgid r e s => m.setCred t (sysSetresgid (m.thread t).cred r e s).1
  | .setgroups list => m.setCred t (sysSetgroups (m.thread t).cred list).1
  | .chmod path mode =>
    match chmodTarget m.fs (m.thread t) path with
    | .error _ => m
    | .ok i => m.setFs t (chmodNode m.fs i mode)
  | .fchmod none _ => m
  | .fchmod (some i) mode => m.setFs t (chmodNode m.fs i mode)
  | .openFile path flags l => m.setFs t (openFile m.fs (m.thread t) path flags l).1
  | .rename oldp newp l => m.setFs t (sysRename m.fs (m.thread t) oldp newp l).2
  | .execve path l =>
    match execFile m.fs (m.thread t) path l with
    | .ok (some i) => if l.loaded then m.exec t i else m
    | _ => m
  | .fork child =>
    { m with
      thread := update m.thread child (m.thread t)
      entitled := update m.entitled child (m.entitled t) }

def step (m : Sys) (e : Nat × Act) : Option Sys := some (m.act e.1 e.2)

end Sys

/-- No thread that does not act as root puts the set-user-ID bit on a file of root's, be it with
the mode that a rename copies; root itself renames no such file of another user to one of root's, as
are those a rename makes; and what root creates has a path that fits the buffers. -/
def Careful (m : Sys) (e : Nat × Act) : Prop :=
  match e.2 with
  | .chmod path mode => mode &&& S_ISUID ≠ 0 → (m.thread e.1).cred.euid ≠ 0 →
    ∀ i, chmodTarget m.fs (m.thread e.1) path = .ok i → (m.fs.inode i).uid ≠ 0
  | .fchmod (some i) mode => mode &&& S_ISUID ≠ 0 → (m.thread e.1).cred.euid ≠ 0 → (m.fs.inode i).uid ≠ 0
  | .openFile path flags _ => (m.thread e.1).cred.euid = 0 → ∀ q, cwdJoin (m.thread e.1).cwd path = some q →
    flags &&& O_CREAT ≠ 0 → vfsLookupPath m.fs.tree q = none → Fits m.fs.tree q
  | .rename oldp newp l => ∀ o n d s f, Renaming m.fs (m.thread e.1) oldp newp l o n d →
    (m.fs.inode d.node).mode &&& S_ISUID ≠ 0 → vfsOpen m.fs n O_NEW l.dst = (s,some f) →
    (s.inode f.inode).uid = 0 → (m.thread e.1).cred.euid = 0 ∧ (m.fs.inode d.node).uid = 0
  | _ => True

/-- No id of the three is root's. -/
def Cred.Plain (c : Cred) : Prop := c.uid ≠ 0 ∧ c.euid ≠ 0 ∧ c.suid ≠ 0

/-- Threads that are not entitled have no id of root's, and what runs as root was made so
by root. -/
structure Sound (m : Sys) : Prop where
  thread : ∀ t, m.entitled t = false → Cred.Plain (m.thread t).cred
  file : ∀ i, (m.fs.inode i).mode &&& S_ISUID ≠ 0 → (m.fs.inode i).uid = 0 → m.byRoot i

section Cred

variable {c : Cred}

theorem Cred.Plain.setuid (h : Cred.Plain c) (u : BitVec 32) : Cred.Plain (sysSetuid c u).1 := by
  obtain ⟨hu,he,hs⟩ := h
  unfold sysSetuid
  rw [if_neg he]
  split
  · rename_i hpick
    refine ⟨hu,?_,hs⟩
    rcases hpick with rfl | rfl
    · exact hu
    · exact hs
  · exact ⟨hu,he,hs⟩

theorem Cred.Plain.setgid (h : Cred.Plain c) (g : BitVec 32) : Cred.Plain (sysSetgid c g).1 := by
  unfold sysSetgid
  split_ifs <;> exact h

/-- What may be picked is one of the current ids or leaves one. -/
theorem pick_ne_zero {a b d cur new : BitVec 32} (ha : a ≠ 0) (hb : b ≠ 0) (hd : d ≠ 0) (hcur : cur ≠ 0)
    (h : mayPick [a,b,d] new) : pick cur new ≠ 0 := by
  unfold pick
  split
  · exact hcur
  · rename_i hne
    simp only [mayPick,Bool.or_eq_true,beq_iff_eq,hne,false_or,contains_cons,contains_nil,
      Bool.or_false] at h
    rcases h with rfl | rfl | rfl <;> assumption

theorem Cred.Plain.setresuid (h : Cred.Plain c) (r e s : BitVec 32) : Cred.Plain (sysSetresuid c r e s).1 := by
  obtain ⟨hu,he,hs⟩ := h
  unfold sysSetresuid
  split
  · exact ⟨hu,he,hs⟩
  rename_i hall
  have hall' : [r,e,s].all (mayPick [c.uid,c.euid,c.suid]) := by
    by_contra hn
    exact hall ⟨he,hn⟩
  simp only [all_cons,all_nil,Bool.and_true,Bool.and_eq_true] at hall'
  exact ⟨pick_ne_zero hu he hs hu hall'.1,pick_ne_zero hu he hs he hall'.2.1,
    pick_ne_zero hu he hs hs hall'.2.2⟩

theorem Cred.Plain.setresgid (h : Cred.Plain c) (r e s : BitVec 32) : Cred.Plain (sysSetresgid c r e s).1 := by
  unfold sysSetresgid
  split <;> exact h

theorem Cred.Plain.setgroups (h : Cred.Plain c) (list : List (BitVec 32)) : Cred.Plain (sysSetgroups c list).1 := by
  unfold sysSetgroups
  split_ifs <;> exact h

/-- Executing a file whose set-user-ID bit does not lead to root leads no id there. -/
theorem Cred.Plain.execCred {x : Inode} (h : Cred.Plain c) (hx : ¬ (x.mode &&& S_ISUID ≠ 0 ∧ x.uid = 0)) :
    Cred.Plain (execCred c x) := by
  have hids : ∀ d : Cred, Cred.Plain d → Cred.Plain
      (if x.mode &&& S_ISGID ≠ 0 then { d with egid := x.gid, sgid := x.gid } else d) := by
    intro d hd
    split <;> exact hd
  refine hids _ ?_
  split
  · rename_i hbit
    have hne : x.uid ≠ 0 := fun h0 => hx ⟨hbit,h0⟩
    exact ⟨h.1,hne,hne⟩
  · exact h

end Cred

theorem chmodMode_setuid (old mode : BitVec 32) : chmodMode old mode &&& S_ISUID = mode &&& S_ISUID := by
  rw [chmodMode_and,show S_IFMT &&& S_ISUID = 0 from rfl,show 0o7777 &&& S_ISUID = S_ISUID from rfl]
  simp

section Steps

variable {m : Sys} {t : Nat}

theorem Sound.setCred (h : Sound m) {c : Cred} (hc : Cred.Plain (m.thread t).cred → Cred.Plain c) :
    Sound (m.setCred t c) := by
  refine ⟨fun u hu => ?_,h.file⟩
  by_cases hut : u = t
  · subst hut
    simp only [Sys.setCred,update_self]
    exact hc (h.thread u hu)
  · simp only [Sys.setCred,update_of_ne hut]
    exact h.thread u hu

/-- Whoever has the bit and belongs to root afterwards did so before, or root has set the bit. -/
theorem Sound.setFs (h : Sound m) {fs : Fs} (hfs : ∀ i, (fs.inode i).mode &&& S_ISUID ≠ 0 →
    (fs.inode i).uid = 0 → (fs.inode i).mode = (m.fs.inode i).mode ∧ (m.fs.inode i).uid = 0 ∨
      (fs.inode i).mode ≠ (m.fs.inode i).mode ∧ (m.thread t).cred.euid = 0) : Sound (m.setFs t fs) := by
  refine ⟨h.thread,fun i (hbit : (fs.inode i).mode &&& S_ISUID ≠ 0) huid => ?_⟩
  rcases hfs i hbit huid with ⟨hmode,hold⟩ | ⟨hmode,hroot⟩
  · simp only [Sys.setFs,hmode,ne_eq,not_true_eq_false,false_and,if_false]
    exact h.file i (hmode ▸ hbit) hold
  · simp only [Sys.setFs,if_pos (And.intro hmode hbit),hroot,beq_self_eq_true]

theorem Sound.chmod (h : Sound m) {i : Nat} {mode : BitVec 32}
    (hg : mode &&& S_ISUID ≠ 0 → (m.thread t).cred.euid ≠ 0 → (m.fs.inode i).uid ≠ 0) :
    Sound (m.setFs t (chmodNode m.fs i mode)) := by
  refine h.setFs fun j hbit huid => ?_
  have huid' : (m.fs.inode j).uid = 0 := by
    rw [← huid]
    exact (Fs.setMode_field Inode.uid (fun _ _ => rfl) ..).symm
  by_cases hmode : ((chmodNode m.fs i mode).inode j).mode = (m.fs.inode j).mode
  · exact .inl ⟨hmode,huid'⟩
  refine .inr ⟨hmode,?_⟩
  -- only the node that was aimed at has another mode
  have hj : j = i := by
    by_contra hne
    exact hmode (by rw [chmodNode,Fs.setMode,Fs.setInode_of_ne hne])
  subst hj
  have hlt : j < m.fs.fresh := by
    by_contra hge
    exact hmode (by rw [chmodNode,Fs.setMode,Fs.setInode,dif_neg hge])
  rw [chmodNode,Fs.setMode,Fs.setInode_self hlt,chmodMode_setuid] at hbit
  by_contra hne
  exact hg hbit hne huid'

theorem Sound.exec (h : Sound m) (i : Nat) : Sound (m.exec t i) := by
  refine ⟨fun u hu => ?_,h.file⟩
  have hold : m.entitled u = false ∧ (u = t → ¬ ((m.fs.inode i).mode &&& S_ISUID ≠ 0 ∧ (m.fs.inode i).uid = 0)) := by
    simp only [Sys.exec] at hu
    split at hu
    · have hut : u ≠ t := by
        rintro rfl
        rw [update_self] at hu
        cases hu
      rw [update_of_ne hut] at hu
      exact ⟨hu,fun h => absurd h hut⟩
    · rename_i hno
      exact ⟨hu,fun _ hx => hno ⟨hx.1,hx.2,h.file i hx.1 hx.2⟩⟩
  by_cases hut : u = t
  · subst hut
    simp only [Sys.exec,Sys.setCred,update_self]
    exact Cred.Plain.execCred (h.thread u hold.1) (hold.2 rfl)
  · simp only [Sys.exec,Sys.setCred,update_of_ne hut]
    exact h.thread u hold.1

variable {flags : BitVec 32} {l : OpenLuck}

theorem vfsOpen_setuid {s : Fs} {path : Path} {i : Nat} {r : Fs × Option File}
    (h : vfsOpen s path flags l = r) (hbit : (r.1.inode i).mode &&& S_ISUID ≠ 0) :
    i < s.fresh ∧ (r.1.inode i).mode = (s.inode i).mode ∧ (r.1.inode i).uid = (s.inode i).uid := by
  by_cases hlt : i < s.fresh
  · exact ⟨hlt,vfsOpen_field h Inode.mode (fun _ _ => rfl) (fun _ _ => rfl) hlt,
      vfsOpen_field h Inode.uid (fun _ _ => rfl) (fun _ _ => rfl) hlt⟩
  exfalso
  have hunused : s.inode i = {} := s.unused i (not_lt.mp hlt)
  have hnew : ∀ {d : Nat} {name : Name} {s' : Fs}, d < s.fresh →
      s.create d name (S_IFREG ||| 0o644) l.create = .ok s' → (s'.inode i).mode &&& S_ISUID = 0 := by
    intro d name s' hd hc
    by_cases hi : i = s.fresh
    · rw [hi,(entered_inode hd hc).1]
      decide
    · obtain ⟨_,_,rfl⟩ := create_ok hc
      rw [Fs.addChild_of_ne (by omega) hi,hunused]
      decide
  have hsame : ∀ (t : Fs) (x : Nat), ((openNode t x flags l).1.inode i).mode = (t.inode i).mode :=
    fun t x => openNode_field Inode.mode (fun _ _ => rfl) i
  cases vfsOpen_opened h with
  | found =>
    rw [hsame,hunused] at hbit
    exact absurd hbit (by decide)
  | refused =>
    rw [hunused] at hbit
    exact absurd hbit (by decide)
  | lost _ _ hp hc _ => exact hbit (hnew (Fs.parent_lt hp) hc)
  | entered _ _ hp hc _ =>
    rw [hsame] at hbit
    exact hbit (hnew (Fs.parent_lt hp) hc)

theorem created_node {s : Fs} {q : Path} {f : File} (hfit : Fits s.tree q)
    (hnone : vfsLookupPath s.tree q = none) {s' : Fs} (hv : vfsOpen s q flags l = (s',some f)) :
    f.inode = s.fresh := by
  obtain ⟨t,e,he,-,hf,rfl | ⟨-,-,d,name,hp,hc⟩⟩ := vfsOpen_some hv
  · exact nomatch he.symm.trans hnone
  · exact (openNode_file hf).1.trans (entered_node hfit hnone hp hc he).2

theorem Sound.openFile (h : Sound m) {path : Path} (hg : Careful m (t,.openFile path flags l)) :
    Sound (m.act t (.openFile path flags l)) := by
  refine h.setFs fun i hbit huid => .inl ?_
  rcases openFile_cases m.fs (m.thread t) path flags l with ⟨err,he⟩ | ⟨q,hj,-,s,⟨hv,he⟩ | ⟨f,hv,he⟩⟩
  · rw [he] at hbit huid ⊢
    exact ⟨rfl,huid⟩
  · rw [he] at hbit huid ⊢
    obtain ⟨-,hmode,hu⟩ := vfsOpen_setuid hv hbit
    exact ⟨hmode,hu ▸ huid⟩
  rw [he] at hbit huid ⊢
  by_cases hnew : flags &&& O_CREAT ≠ 0 ∧ vfsLookupPath m.fs.tree q = none
  · simp only [if_pos hnew] at hbit huid ⊢
    have hmode : ((s.setOwner f.inode (m.thread t).cred.euid (m.thread t).cred.egid).inode i).mode =
        (s.inode i).mode := Fs.setInode_field Inode.mode (by rfl) i
    rw [hmode] at hbit ⊢
    obtain ⟨hlt,hm,hu⟩ := vfsOpen_setuid hv hbit
    by_cases hi : i = f.inode
    · obtain ⟨e,he,hfe⟩ := vfsOpen_file hv
      have hlt' : f.inode < s.fresh := by
        rw [hfe]
        exact Fs.lookup_lt he
      rw [hi,Fs.setOwner,Fs.setInode_self hlt'] at huid
      -- only root gives files to root, and a new one has no such bit
      have hfresh := created_node (hg huid q hj hnew.1 hnew.2) hnew.2 hv
      exact absurd hlt (by omega)
    · rw [Fs.setOwner,Fs.setInode_of_ne hi] at huid
      exact ⟨hm,hu ▸ huid⟩
  · simp only [if_neg hnew] at hbit huid ⊢
    obtain ⟨-,hmode,hu⟩ := vfsOpen_setuid hv hbit
    exact ⟨hmode,hu ▸ huid⟩

theorem Sound.rename (h : Sound m) {oldp newp : Path} {l : RenameLuck}
    (hg : Careful m (t,.rename oldp newp l)) : Sound (m.act t (.rename oldp newp l)) := by
  refine h.setFs fun i hbit huid => ?_
  have hren := sysRename_renamed m.fs (m.thread t) oldp newp l
  generalize sysRename m.fs (m.thread t) oldp newp l = r at hbit huid hren ⊢
  cases hren with
  | refused => exact .inl ⟨rfl,huid⟩
  | unopened _ ho | unbuffered _ ho _ =>
    obtain ⟨-,hmode,hu⟩ := vfsOpen_setuid ho hbit
    exact .inl ⟨hmode,hu ▸ huid⟩
  | @copied o n e s' s'' f hr ho _ hs'' =>
    -- taking the old name away changes no mode and no owner
    have hkeep : ∀ {α : Type} (g : Inode → α), (∀ x es, g { x with entries := es } = g x) →
        g (((vfsUnlink s'' o l.unlink).toOption.getD s'').inode i) = g (s''.inode i) := by
      intro α g hentries
      cases hu : vfsUnlink s'' o l.unlink with
      | error err => rfl
      | ok s =>
        obtain ⟨D,N,_,hc⟩ := inParent_ok hu
        obtain ⟨_,_,_,_,rfl⟩ := unlink_ok hc
        rw [Except.toOption,Option.getD_some,Fs.removeChild]
        exact Fs.setInode_field g (hentries _ _) i
    dsimp only at hbit huid ⊢
    rw [hkeep Inode.mode fun _ _ => rfl] at hbit ⊢
    rw [hkeep Inode.uid fun _ _ => rfl] at huid
    subst hs''
    rw [copyFile_field Inode.uid (fun _ _ => rfl) fun _ _ => rfl] at huid
    by_cases hi : i = f.inode
    · subst hi
      obtain ⟨x,hx,hfx⟩ := vfsOpen_file ho
      have hlt : f.inode < s'.fresh := hfx ▸ Fs.lookup_lt hx
      rw [copyFile_mode hlt] at hbit ⊢
      by_cases hsame : (m.fs.inode e.node).mode = (m.fs.inode f.inode).mode
      · have hold : f.inode < m.fs.fresh := by
          by_contra hge
          rw [hsame,m.fs.unused _ (not_lt.mp hge)] at hbit
          exact hbit (by decide)
        have hu : (s'.inode f.inode).uid = (m.fs.inode f.inode).uid :=
          vfsOpen_field ho Inode.uid (fun _ _ => rfl) (fun _ _ => rfl) hold
        exact .inl ⟨hsame,hu ▸ huid⟩
      · exact .inr ⟨hsame,(hg o n e s' f hr hbit ho huid).1⟩
    · rw [copyFile_of_ne hi] at hbit ⊢
      obtain ⟨-,hmode,hu⟩ := vfsOpen_setuid ho hbit
      exact .inl ⟨hmode,hu ▸ huid⟩

theorem Sound.act (h : Sound m) {a : Act} (hg : Careful m (t,a)) : Sound (m.act t a) := by
  cases a with
  | setuid u => exact h.setCred fun hc => hc.setuid u
  | setgid g => exact h.setCred fun hc => hc.setgid g
  | setresuid r e s => exact h.setCred fun hc => hc.setresuid r e s
  | setresgid r e s => exact h.setCred fun hc => hc.setresgid r e s
  | setgroups list => exact h.setCred fun hc => hc.setgroups list
  | chmod path mode =>
    simp only [Sys.act]
    cases ht : chmodTarget m.fs (m.thread t) path with
    | error err => exact h
    | ok i => exact h.chmod fun hb hne => hg hb hne i ht
  | fchmod node mode =>
    cases node with
    | none => exact h
    | some i => exact h.chmod hg
  | openFile path flags l => exact h.openFile hg
  | rename oldp newp l => exact h.rename hg
  | execve path l =>
    simp only [Sys.act]
    split
    · split
      · exact h.exec _
      · exact h
    · exact h
  | fork child =>
    refine ⟨fun u hu => ?_,h.file⟩
    by_cases huc : u = child
    · subst huc
      simp only [Sys.act,update_self] at hu ⊢
      exact h.thread t hu
    · simp only [Sys.act,update_of_ne huc] at hu ⊢
      exact h.thread u hu

end Steps

/-- Root is thread 0, an ordinary user thread 1. -/
def twoThreads : Sys where
  fs := Fs.sample
  thread t := if t = 0 then { cred := { uid := 0, euid := 0, suid := 0 } } else someUser
  byRoot _ := false
  entitled t := t == 0

end Lariat.Vfs.Privilege
