import Lariat.Vfs.Fat32
import Lariat.Vfs.Inode

/-! Creating a file, a directory or a link by its path, on the file systems that implement it, and
looking the path up afterwards. -/
namespace Lariat.Vfs
open Foundation.NameTree List Function Option

/-! ### Names in directories -/

/-- The file systems that create. -/
inductive Kind where
  | ramfs
  | ext4
  | fat32
  deriving DecidableEq, Repr

def padTo (n : Nat) (s : List Char) : List Char := s ++ List.replicate (n-s.length) ' '

/-- `fat32_make_short_name` -/
def makeShortName (name : Name) : Option Name :=
  let base := name.takeWhile (· != '.')
  let ext := (name.dropWhile (· != '.')).drop 1
  if 8 < base.length ∨ 3 < ext.length ∨ base = [] then none
  else some (padTo 8 (base.map Char.toUpper) ++ padTo 3 (ext.map Char.toUpper))

/-- `fat32_parse_short_name` -/
def parseShortName (s : Name) : Name := (Fat32.joinShort ' ' '.' s).map Char.toLower

/-- `fat32_name_match` -/
def nameMatch (s user : Name) : Bool := (parseShortName s).map Char.toLower == user.map Char.toLower

/-- The first byte of a deleted entry. -/
def DELETED : Char := Char.ofNat 0xE5

/-- What a file system puts in a directory for a name, if it takes the name. -/
def Kind.store : Kind → Name → Option Name
  | ramfs, name => some (name.take NAME_LEN)
  | ext4, name => some name
  | fat32, name => makeShortName name

/-- Whether a lookup of `name` takes the entry with the stored name `s`. -/
def Kind.sees : Kind → Name → Name → Bool
  | fat32, s, name => s.head? != some DELETED && nameMatch s name
  | _, s, name => s == name

/-- The name that reading the directory shows. -/
def Kind.shown : Kind → Name → Name
  | fat32, s => parseShortName s
  | _, s => s

/-! ### Mounted file systems -/

inductive FileType where
  | reg
  | dir
  /-- With what `readlink` gives, where the file system has it. -/
  | link (target : Option Path)
  deriving DecidableEq, Repr

structure Node where
  kind : Kind := .ramfs
  type : FileType := .reg
  entries : List (Name × Nat) := []
  deriving DecidableEq, Repr

structure Forest where
  node : Nat → Node
  mount : Nat → Option Nat
  mounts : Nat
  root : Nat
  fresh : Nat

/-- `ramfs` looks for a name only in a directory; the others read whatever the node holds. -/
def Node.find (x : Node) (name : Name) : Option Nat :=
  if x.kind = .ramfs ∧ x.type ≠ .dir then none
  else (x.entries.find? fun e => x.kind.sees e.1 name).map Prod.snd

def Node.target (x : Node) : Option Path :=
  match x.type with
  | .link target => target
  | _ => none

def Node.isLink (x : Node) : Bool :=
  match x.type with
  | .link _ => true
  | _ => false

def Forest.tree (f : Forest) : Tree Nat Name where
  root := f.root
  isDir n := (f.node n).type == .dir
  child d k := (f.node d).find k
  isLink n := (f.node n).isLink
  target n := (f.node n).target.map fun p => ⟨isAbsolute (p.take PATH_LEN),hops (p.take PATH_LEN)⟩
  mount := f.mount
  mounts := f.mounts

/-- Only nodes below `fresh` are in use, what is mounted is a directory, and mounts do not go
round. -/
structure Volumes extends Forest where
  entry_lt : ∀ d, ∀ e ∈ (node d).entries, e.2 < fresh
  mount_lt : ∀ n m, mount n = some m → n < fresh ∧ m < fresh
  mount_dir : ∀ n m, mount n = some m → (node m).type = .dir
  root_lt : root < fresh
  unused : ∀ n, fresh ≤ n → node n = {}
  ends : toForest.tree.Ends

/-- The node of the directory with a new entry at a position that the file system chooses. -/
def Node.insert (x : Node) (pos : Nat) (e : Name × Nat) : Node :=
  { x with entries := x.entries.take pos ++ e :: x.entries.drop pos }

theorem Node.mem_insert {x : Node} {pos : Nat} {e e' : Name × Nat} :
    e' ∈ (x.insert pos e).entries ↔ e' = e ∨ e' ∈ x.entries := by
  rw [insert,mem_append,mem_cons]
  conv_rhs => rw [← take_append_drop pos x.entries,mem_append]
  tauto

/-- Enter a new node under a name. -/
def Volumes.add (v : Volumes) (d : Nat) (s : Name) (x : Node) (hx : x.entries = []) (pos : Nat)
    (hd : d < v.fresh) : Volumes :=
  { v with
    node := update (update v.node v.fresh x) d ((v.node d).insert pos (s,v.fresh))
    fresh := v.fresh+1
    entry_lt := by
      have hold (n : Nat) (e) (he : e ∈ (v.node n).entries) := Nat.lt_succ_of_lt (v.entry_lt n e he)
      refine Fs.updates_all (fun x : Node => ∀ e ∈ x.entries, e.2 < v.fresh+1) ?_ (fun e he => ?_) hold
      · rw [hx]
        exact forall_mem_nil _
      · rcases Node.mem_insert.mp he with rfl | he
        · exact Nat.lt_succ_self _
        · exact hold d e he
    mount_lt := fun n m hm =>
      ⟨Nat.lt_succ_of_lt (v.mount_lt n m hm).1,Nat.lt_succ_of_lt (v.mount_lt n m hm).2⟩
    mount_dir := by
      intro n m hm
      have hlt := (v.mount_lt n m hm).2
      by_cases hmd : m = d
      · subst hmd
        rw [update_self]
        exact v.mount_dir n m hm
      · rw [update_of_ne hmd,update_of_ne (ne_of_lt hlt)]
        exact v.mount_dir n m hm
    root_lt := Nat.lt_succ_of_lt v.root_lt
    unused := by
      intro n hn
      rw [update_of_ne (by omega),update_of_ne (by omega)]
      exact v.unused n (by omega)
    ends := v.ends.congr rfl rfl }

/-- The create operation of the file system of the directory. -/
def Volumes.enter (v : Volumes) (d : Nat) (name : Name) (x : Node) (hx : x.entries = []) (pos : Nat) :
    Option (Volumes × Name) :=
  if hd : d < v.fresh then
    if ((v.node d).find name).isSome then none
    else ((v.node d).kind.store name).map fun s => (v.add d s x hx pos hd,s)
  else none

/-- A call that creates. -/
inductive Creation where
  /-- `vfs_open` with `O_CREAT` -/
  | file (path : Path)
  | directory (path : Path)
  | link (target path : Path)
  deriving DecidableEq, Repr

namespace Creation

def path : Creation → Path
  | file path => path
  | directory path => path
  | link _ path => path

def type : Creation → FileType
  | file _ => .reg
  | directory _ => .dir
  | link target _ => .link (some target)

/-- The directory a call works in and the name it enters there. `vfs_open` creates only what it
does not find, and only `vfs_symlink` crosses mounts at the directory. -/
def parent (T : Tree Nat Name) (c : Creation) : Option (Nat × Name) :=
  match c with
  | file path => if (vfsLookupPath T path).isSome then none
      else (vfsLookupParent T path).map fun p => (p.1.node,p.2)
  | directory path => (vfsLookupParent T path).map fun p => (p.1.node,p.2)
  | link _ path => (vfsLookupParent T path).map fun p => ((T.cross p.1).node,p.2)

/-- Only `ramfs` has links. -/
def implemented (c : Creation) (kind : Kind) : Bool :=
  match c with
  | link _ _ => kind == .ramfs
  | _ => true

/-- A call that enters a name: the file systems afterwards, the directory and the stored name. -/
def run (c : Creation) (v : Volumes) (pos : Nat) : Option (Volumes × Nat × Name) :=
  (c.parent v.tree).bind fun p =>
    if c.implemented (v.node p.1).kind then
      (v.enter p.1 p.2 { kind := (v.node p.1).kind, type := c.type } rfl pos).map fun r => (r.1,p.1,r.2)
    else none

end Creation

/-! ### What is to hold -/

/-- The preceding components, as a path. -/
def dirPath (path : Path) : Path := if dirName path = [] then ['/'] else dirName path

/-- The walk of the path comes to the node as its last step. -/
def Comes (T : Tree Nat Name) (path : Path) (x : Nat) : Prop :=
  ∃ q, T.go (T.walk VFS_SYMLINK_MAX_DEPTH) ⟨T.root,[]⟩ (hops (dirPath path)) = some q ∧
    T.isDir q.node ∧ T.child (T.cross q).node (baseName path) = some x

/-- Looking the path up gives the new node; for a link, what its text leads to. -/
def Creation.Reached (c : Creation) (T : Tree Nat Name) (x : Nat) : Prop :=
  match c with
  | .file path => ∃ r, vfsLookupPath T path = some r ∧ r.node = x
  | .directory path => ∃ r, vfsLookupPath T path = some r ∧ r.node = x
  | .link target path => Comes T path x ∧ ∀ q,
      T.go (T.walk VFS_SYMLINK_MAX_DEPTH) ⟨T.root,[]⟩ (hops (dirPath path)) = some q →
      vfsLookupPath T path =
        T.walk VFS_SYMLINK_MAX_DEPTH (if isAbsolute target then ⟨T.root,[]⟩ else T.cross q) (hops target)

/-- A name was entered as it should: it is a component, the last one of the path, in the
directory that the preceding ones lead to, and the path leads to the new node. -/
structure Entered (c : Creation) (v v' : Volumes) (d : Nat) (s : Name) : Prop where
  component : (v.node d).kind.shown s ≠ [] ∧ '/' ∉ (v.node d).kind.shown s ∧
    (v.node d).kind.shown s ≠ ['.'] ∧ (v.node d).kind.shown s ≠ ['.','.']
  last : (v.node d).kind.sees s (baseName c.path)
  dir : ∃ D, vfsLookupPath v.tree (dirPath c.path) = some D ∧ D.node = d
  reached : c.Reached v'.tree v.fresh

/-- The path ends in a name that fits, in a directory that is found by as much of its path as
fits, and the file system's form of the name stands for it. -/
structure Sane (c : Creation) (v : Volumes) : Prop where
  name : baseName c.path ≠ [] ∧ baseName c.path ≠ ['.'] ∧ baseName c.path ≠ ['.','.'] ∧
    (baseName c.path).length ≤ NAME_LEN
  cut : (vfsLookupPath v.tree (dirPath c.path)).map Place.node =
    (vfsLookupPath v.tree ((dirPath c.path).take PATH_LEN)).map Place.node
  -- nothing hides the root directory, unless mounts are crossed there
  root : dirName c.path = [] → (∃ target path, c = .link target path) ∨ v.mount v.root = none
  isDir : ∀ q, v.tree.go (v.tree.walk VFS_SYMLINK_MAX_DEPTH) ⟨v.tree.root,[]⟩
    (hops (dirPath c.path)) = some q → v.tree.isDir q.node
  stands : ∀ d name s, c.parent v.tree = some (d,name) →
    (v.node d).kind.store (baseName c.path) = some s → (v.node d).kind.sees s (baseName c.path)

/-- As much of the text of a link as fits the buffer it is read into leads where all of it does. -/
def Creation.TextStands (c : Creation) (T : Tree Nat Name) : Prop :=
  ∀ target path q, c = .link target path →
    T.go (T.walk VFS_SYMLINK_MAX_DEPTH) ⟨T.root,[]⟩ (hops (dirPath path)) = some q →
    T.walk VFS_SYMLINK_MAX_DEPTH (if isAbsolute target then ⟨T.root,[]⟩ else T.cross q)
        (hops (target.take PATH_LEN)) =
      T.walk VFS_SYMLINK_MAX_DEPTH (if isAbsolute target then ⟨T.root,[]⟩ else T.cross q) (hops target)

/-! ### Names -/

section Names

variable {kind : Kind} {s k j e name : Name}

/-- Names that find one entry find the same entries. -/
theorem Kind.sees_congr (hk : kind.sees s k) (hj : kind.sees s j) (e : Name) :
    kind.sees e k = kind.sees e j := by
  cases kind with
  | ramfs | ext4 =>
    rw [← eq_of_beq hk,← eq_of_beq hj]
  | fat32 =>
    have hk' := eq_of_beq (Bool.and_eq_true_iff.mp hk).2
    have hj' := eq_of_beq (Bool.and_eq_true_iff.mp hj).2
    show (_ && (parseShortName e).map Char.toLower == k.map Char.toLower) =
      (_ && (parseShortName e).map Char.toLower == j.map Char.toLower)
    rw [← hk',← hj']

theorem toLower_eq {c x : Char} (hx : x.toNat < 97) (h : c.toLower = x) : c = x := by
  unfold Char.toLower at h
  split at h
  · rename_i hc
    have h1 : 65 ≤ c.val.toNat := UInt32.le_iff_toNat_le.mp hc.1
    have h2 : c.val.toNat ≤ 90 := UInt32.le_iff_toNat_le.mp hc.2
    have hsum : (c.val + ('a'.val - 'A'.val)).toNat = (c.val.toNat+32)%2^32 := UInt32.toNat_add ..
    have hnat : (c.val + ('a'.val - 'A'.val)).toNat = x.toNat := congrArg Char.toNat h
    omega
  · exact h

theorem map_toLower_eq {a b : Name} (hb : ∀ c ∈ b, c.toNat < 97) (h : a.map Char.toLower = b) : a = b := by
  induction a generalizing b with
  | nil => exact h
  | cons c a ih =>
    cases b with
    | nil => cases h
    | cons x b =>
      obtain ⟨hx,hb⟩ := forall_mem_cons.mp hb
      obtain ⟨h1,h2⟩ := List.cons.inj h
      rw [toLower_eq hx h1,ih hb h2]

/-- The name shown for an entry is a component exactly when a name that finds it is one. -/
theorem Kind.shown_component (h : kind.sees s name) :
    (kind.shown s ≠ [] ↔ name ≠ []) ∧ ('/' ∈ kind.shown s → '/' ∈ name) ∧
      (kind.shown s = ['.'] ↔ name = ['.']) ∧ (kind.shown s = ['.','.'] ↔ name = ['.','.']) := by
  cases kind with
  | ramfs | ext4 =>
    obtain rfl : s = name := eq_of_beq h
    exact ⟨.rfl,id,.rfl,.rfl⟩
  | fat32 =>
    have hlow : (parseShortName s).map Char.toLower = name.map Char.toLower :=
      eq_of_beq (Bool.and_eq_true_iff.mp h).2
    have hdots : ∀ b : Name, (∀ c ∈ b, c.toNat < 97) → b.map Char.toLower = b →
        (parseShortName s = b ↔ name = b) := by
      intro b hb hself
      constructor
      · intro he
        rw [he,hself] at hlow
        exact map_toLower_eq hb hlow.symm
      · intro he
        rw [he,hself] at hlow
        exact map_toLower_eq hb hlow
    have hdot : '.'.toNat < 97 := by decide
    refine ⟨not_congr (hdots [] (by simp) rfl),fun hmem => ?_,
      hdots _ (forall_mem_singleton.mpr hdot) rfl,
      hdots _ (forall_mem_cons.mpr ⟨hdot,forall_mem_singleton.mpr hdot⟩) rfl⟩
    have hmem' : '/' ∈ name.map Char.toLower := hlow ▸ mem_map_of_mem hmem
    obtain ⟨c,hc,he⟩ := mem_map.mp hmem'
    exact toLower_eq (by decide) he ▸ hc

/-- What is stored for a name cut at the buffer stands for the whole only if nothing was cut. -/
theorem Kind.fits_of_sees (hstore : kind.store (name.take NAME_LEN) = some s) (h : kind.sees s name) :
    name.length ≤ NAME_LEN := by
  have hcut : ∀ n : Name, n.take NAME_LEN = n → n.length ≤ NAME_LEN := fun n hn => by
    rw [← hn]
    exact length_take_le ..
  cases kind with
  | ramfs =>
    cases hstore
    have hsame : (name.take NAME_LEN).take NAME_LEN = name := eq_of_beq h
    rw [take_take,min_self] at hsame
    exact hcut name hsame
  | ext4 =>
    cases hstore
    exact hcut name (eq_of_beq h)
  | fat32 =>
    -- a short name is made of twelve characters at most
    rw [Kind.store,makeShortName] at hstore
    split at hstore
    · cases hstore
    rename_i hlen
    simp only [not_or,not_lt] at hlen
    obtain ⟨h1,h2,-⟩ := hlen
    have hsplit : ((name.take NAME_LEN).takeWhile (· != '.') ++
        (name.take NAME_LEN).dropWhile (· != '.')).length = (name.take NAME_LEN).length := by
      rw [takeWhile_append_dropWhile]
    rw [length_append] at hsplit
    rw [length_drop] at h2
    rw [length_take] at hsplit
    have hbig : 63 = NAME_LEN := rfl
    omega

end Names

section Find

variable {x : Node} {s k name : Name} {n b pos : Nat}

theorem Node.find_insert_of_some (hfree : x.find name = none) (hsee : x.kind.sees s name)
    (hb : x.find k = some b) : (x.insert pos (s,n)).find k = some b := by
  unfold Node.find at hfree hb ⊢
  show (if x.kind = .ramfs ∧ x.type ≠ .dir then none else _) = _
  split at hb
  · cases hb
  rename_i hdir
  rw [if_neg hdir] at hfree ⊢
  have hk : x.kind.sees s k = false := by
    by_contra hk
    have hsame : (fun e : Name × Nat => x.kind.sees e.1 k) = fun e => x.kind.sees e.1 name :=
      funext fun e => Kind.sees_congr (Bool.not_eq_false _ ▸ hk) hsee e.1
    rw [hsame,hfree] at hb
    cases hb
  show Option.map Prod.snd (List.find? (fun e => x.kind.sees e.1 k) (_ ++ _ :: _)) = _
  rw [find?_append,find?_cons_of_neg (by simpa using hk),← find?_append,
    take_append_drop]
  exact hb

theorem Node.find_insert_self (hfree : x.find name = none) (hsee : x.kind.sees s name)
    (hdir : x.kind = .ramfs → x.type = .dir) : (x.insert pos (s,n)).find name = some n := by
  have hok : ¬ (x.kind = .ramfs ∧ x.type ≠ .dir) := fun h => h.2 (hdir h.1)
  unfold Node.find at hfree ⊢
  show (if x.kind = .ramfs ∧ x.type ≠ .dir then none else _) = _
  rw [if_neg hok] at hfree ⊢
  have hnone : (x.entries.take pos).find? (fun e => x.kind.sees e.1 name) = none := by
    rw [find?_eq_none]
    intro e he
    exact find?_eq_none.mp (map_eq_none_iff.mp hfree) e (mem_of_mem_take he)
  show Option.map Prod.snd (List.find? (fun e => x.kind.sees e.1 name) (_ ++ _ :: _)) = _
  have hfirst : List.find? (fun e : Name × Nat => x.kind.sees e.1 name) ((s,n) :: x.entries.drop pos) =
      some (s,n) := find?_cons_of_pos hsee
  rw [find?_append,hnone,hfirst]
  rfl

end Find

namespace Volumes

variable {v : Volumes} {d n pos : Nat} {s name : Name} {x : Node} {hx : x.entries = []}
  {hd : d < v.fresh}

theorem find_lt {a b : Nat} {k : Name} (h : (v.node a).find k = some b) : b < v.fresh := by
  unfold Node.find at h
  split at h
  · cases h
  · obtain ⟨e,he,rfl⟩ := map_eq_some_iff.mp h
    exact v.entry_lt a e (mem_of_find?_eq_some he)

theorem holds_lt (v : Volumes) : v.tree.Holds (· < v.fresh) where
  root := v.root_lt
  mount a b hb := (v.mount_lt a b hb).2
  child _ _ _ hb _ := find_lt hb

theorem mount_fresh (v : Volumes) : v.mount v.fresh = none := by
  cases hm : v.mount v.fresh with
  | none => rfl
  | some m => exact absurd (v.mount_lt _ m hm).1 (lt_irrefl _)

theorem add_new : (v.add d s x hx pos hd).node v.fresh = x :=
  (update_of_ne (ne_of_gt hd) _ _).trans (update_self ..)

theorem add_dir : (v.add d s x hx pos hd).node d = (v.node d).insert pos (s,v.fresh) :=
  update_self ..

theorem add_other (hn : n ≠ d) (hf : n ≠ v.fresh) : (v.add d s x hx pos hd).node n = v.node n :=
  (update_of_ne hn _ _).trans (update_of_ne hf _ _)

theorem add_type (hf : n ≠ v.fresh) : ((v.add d s x hx pos hd).node n).type = (v.node n).type := by
  by_cases hn : n = d
  · subst hn
    rw [add_dir]
    rfl
  · rw [add_other hn hf]

/-- A node that stands for its name leaves every path that led somewhere leading there. -/
theorem add_extends (hfree : (v.node d).find name = none) (hsee : (v.node d).kind.sees s name) :
    v.tree.Extends (v.add d s x hx pos hd).tree := by
  have hunused : v.node v.fresh = {} := v.unused _ (le_refl _)
  refine ⟨rfl,rfl,rfl,fun a ha => ?_,fun a k b hb => ?_⟩
  · have hne : a ≠ v.fresh := by
      rintro rfl
      simp only [Forest.tree,hunused] at ha
      exact absurd ha (by decide)
    show ((v.add d s x hx pos hd).node a).type == _
    rw [add_type hne]
    exact ha
  · have hblt : b < v.fresh := find_lt hb
    have hne : a ≠ v.fresh := by
      rintro rfl
      simp only [Forest.tree,hunused] at hb
      cases hb
    have htype : ((v.add d s x hx pos hd).node b).type = (v.node b).type :=
      add_type (ne_of_lt hblt)
    refine ⟨?_,?_,?_⟩
    · show ((v.add d s x hx pos hd).node a).find k = some b
      by_cases had : a = d
      · subst had
        rw [add_dir]
        exact Node.find_insert_of_some hfree hsee hb
      · rw [add_other had hne]
        exact hb
    · simp only [Forest.tree,Node.isLink,htype]
    · simp only [Forest.tree,Node.target,htype]

theorem cross_isDir {q : Dentry} (h : v.tree.isDir q.node) : v.tree.isDir (v.tree.cross q).node := by
  have hup : ∀ k (q : Dentry), v.tree.isDir q.node → v.tree.isDir (v.tree.crossUpTo k q).node := by
    intro k
    induction k with
    | zero => exact fun _ h => h
    | succ k ih =>
      intro q hq
      rw [Tree.crossUpTo]
      cases hm : v.tree.mount q.node with
      | none => exact hq
      | some r =>
        refine ih ⟨r,[]⟩ ?_
        show ((v.node r).type == .dir) = true
        rw [v.mount_dir _ r hm]
        rfl
  exact hup _ q h

end Volumes

/-! ### The directory -/

section Parent

variable {T : Tree Nat Name} {c : Creation} {path : Path} {d : Nat} {name : Name} {D : Dentry}

theorem hops_dirPath (path : Path) : hops (dirPath path) = hops (dirName path) := by
  unfold dirPath
  split
  · rename_i h
    rw [h]
    rfl
  · rfl

theorem isAbsolute_dirPath (h : isAbsolute path) : isAbsolute (dirPath path) := by
  unfold dirPath
  split
  · rfl
  · exact isAbsolute_dirName h ‹_›

/-- Where a path leads: to where the walk of its directory part stands, and the last name there. -/
theorem vfsLookupPath_last (h : isAbsolute path) (hname : EndsInName path) :
    vfsLookupPath T path =
      (T.go (T.walk VFS_SYMLINK_MAX_DEPTH) ⟨T.root,[]⟩ (hops (dirPath path))).bind fun q =>
        (T.go (T.walk VFS_SYMLINK_MAX_DEPTH) q [.into (baseName path)]).map T.cross := by
  rw [vfsLookupPath_eq h,hops_split h,hname,hops_dirPath]
  show (T.go (T.walk 8) _ (_ ++ _)).map T.cross = _
  rw [Tree.go_append,map_bind]
  rfl

theorem lookup_crossed (hends : T.Ends) (h : vfsLookupPath T path = some D) : T.cross D = D := by
  unfold vfsLookupPath at h
  split at h
  · obtain ⟨q,_,rfl⟩ := map_eq_some_iff.mp h
    exact hends.cross_cross q
  · cases h

theorem Creation.parent_spec (hends : T.Ends) (h : c.parent T = some (d,name)) :
    isAbsolute c.path ∧ name = (baseName c.path).take NAME_LEN ∧
      ((dirName c.path = [] ∧
          ((∃ target path, c = .link target path) ∧ d = (T.cross ⟨T.root,[]⟩).node ∨
            (¬ (∃ target path, c = .link target path) ∧ d = T.root))) ∨
        (dirName c.path ≠ [] ∧
          ∃ D, vfsLookupPath T ((dirName c.path).take PATH_LEN) = some D ∧ D.node = d)) := by
  have hp : ∃ P, vfsLookupParent T c.path = some (P,name) ∧
      ((∃ target path, c = .link target path) ∧ d = (T.cross P).node ∨
        (¬ (∃ target path, c = .link target path) ∧ d = P.node)) := by
    cases c with
    | file path =>
      simp only [Creation.parent] at h
      split at h
      · cases h
      · obtain ⟨P,hP,⟨⟩⟩ := map_eq_some_iff.mp h
        exact ⟨P.1,hP,.inr ⟨by rintro ⟨_,_,⟨⟩⟩,rfl⟩⟩
    | directory path =>
      obtain ⟨P,hP,⟨⟩⟩ := map_eq_some_iff.mp h
      exact ⟨P.1,hP,.inr ⟨by rintro ⟨_,_,⟨⟩⟩,rfl⟩⟩
    | link target path =>
      obtain ⟨P,hP,⟨⟩⟩ := map_eq_some_iff.mp h
      exact ⟨P.1,hP,.inl ⟨⟨target,path,rfl⟩,rfl⟩⟩
  obtain ⟨P,hP,hd⟩ := hp
  unfold vfsLookupParent at hP
  split_ifs at hP with habs hdir
  · cases hP
    exact ⟨habs,rfl,.inl ⟨hdir,hd⟩⟩
  obtain ⟨D,hD,⟨⟩⟩ := map_eq_some_iff.mp hP
  refine ⟨habs,rfl,.inr ⟨hdir,P,hD,?_⟩⟩
  rcases hd with ⟨-,rfl⟩ | ⟨-,rfl⟩
  · rw [lookup_crossed hends hD]
  · rfl

/-- The directory is the one that the preceding components lead to exactly if as many of them as
fit lead there too, and nothing hides the root. -/
theorem Creation.parent_dir_iff (hends : T.Ends) (h : c.parent T = some (d,name)) :
    (∃ D, vfsLookupPath T (dirPath c.path) = some D ∧ D.node = d) ↔
      (vfsLookupPath T (dirPath c.path)).map Place.node =
          (vfsLookupPath T ((dirPath c.path).take PATH_LEN)).map Place.node ∧
        (dirName c.path = [] → (∃ target path, c = .link target path) ∨ T.mount T.root = none) := by
  obtain ⟨habs,-,⟨hdir,hd⟩ | ⟨hdir,P,hP,rfl⟩⟩ := c.parent_spec hends h
  · have hroot : vfsLookupPath T ['/'] = some (T.cross ⟨T.root,[]⟩) := rfl
    rw [dirPath,if_pos hdir,hroot]
    constructor
    · rintro ⟨_,⟨⟩,hnode⟩
      refine ⟨hroot ▸ rfl,fun _ => ?_⟩
      rcases hd with ⟨hlink,-⟩ | ⟨-,rfl⟩
      · exact .inl hlink
      · exact .inr (hnode ▸ hends ⟨T.root,[]⟩)
    · rintro ⟨-,hmount⟩
      refine ⟨_,rfl,?_⟩
      rcases hd with ⟨-,rfl⟩ | ⟨hlink,rfl⟩
      · rfl
      · have hnone : T.mount T.root = none := (hmount hdir).resolve_left hlink
        rw [Tree.cross_of_none hnone]
  · rw [dirPath,if_neg hdir,hP,map_some,map_eq_some_iff]
    exact ⟨fun h => ⟨h,fun he => absurd he hdir⟩,And.left⟩

theorem endsInName_of_name (h : baseName path ≠ [] ∧ baseName path ≠ ['.'] ∧
    baseName path ≠ ['.','.'] ∧ (baseName path).length ≤ NAME_LEN) : EndsInName path := by
  obtain ⟨hne,hdot,hdots,hlen⟩ := h
  rw [EndsInName,hops,components_name hne (slash_notMem_baseName path) hlen]
  exact congrArg (· :: []) (hop_name hdot hdots)

end Parent

/-! ### The path afterwards -/

section Reached

variable {T : Tree Nat Name} {c : Creation} {x : Nat}

theorem vfsLookupPath_of_comes {path : Path} (habs : isAbsolute path) (hname : EndsInName path)
    (hmount : T.mount x = none) (hcomes : Comes T path x) (hlink : T.isLink x = false) :
    ∃ r, vfsLookupPath T path = some r ∧ r.node = x := by
  obtain ⟨q,hq,hdir,hchild⟩ := hcomes
  refine ⟨⟨x,(T.cross q).node :: (T.cross q).up⟩,?_,rfl⟩
  rw [vfsLookupPath_last habs hname,hq,bind_some,Tree.go,if_pos hdir,hchild,
    bind_some,hlink]
  exact congrArg some (Tree.cross_of_none hmount)

/-- A path whose walk comes to a link leads where its text does. -/
theorem vfsLookupPath_of_link {path : Path} {q : Dentry} {tgt : Target Name} (hends : T.Ends)
    (habs : isAbsolute path) (hname : EndsInName path) (hcomes : Comes T path x)
    (hlink : T.isLink x) (htarget : T.target x = some tgt)
    (hq : T.go (T.walk VFS_SYMLINK_MAX_DEPTH) ⟨T.root,[]⟩ (hops (dirPath path)) = some q) :
    vfsLookupPath T path = T.walk VFS_SYMLINK_MAX_DEPTH
      (if tgt.absolute then ⟨T.root,[]⟩ else T.cross q) tgt.hops := by
  obtain ⟨q',hq',hdir,hchild⟩ := hcomes
  obtain rfl := some.inj (hq'.symm.trans hq)
  rw [vfsLookupPath_last habs hname,hq',bind_some,Tree.go,if_pos hdir,hchild,
    bind_some,if_pos hlink,htarget,bind_some,map_bind]
  -- a walk has crossed the mounts where it ended
  show ((T.go (T.walk 7) _ tgt.hops).map T.cross).bind _ = (T.go (T.walk 7) _ _).map T.cross
  cases T.go (T.walk 7) (if tgt.absolute then ⟨T.root,[]⟩ else T.cross q') tgt.hops with
  | none => rfl
  | some r => exact congrArg some (hends.cross_cross r)

theorem isAbsolute_take (p : Path) : isAbsolute (p.take PATH_LEN) = isAbsolute p := by
  cases p with
  | nil => rfl
  | cons a p => rfl

theorem Creation.Reached.isDir (h : c.Reached T x) (habs : isAbsolute c.path)
    (hname : EndsInName c.path) {q : Dentry}
    (hq : T.go (T.walk VFS_SYMLINK_MAX_DEPTH) ⟨T.root,[]⟩ (hops (dirPath c.path)) = some q) :
    T.isDir q.node := by
  have hplain : (∃ r, vfsLookupPath T c.path = some r ∧ r.node = x) → T.isDir q.node := by
    rintro ⟨r,hr,-⟩
    by_contra hno
    rw [vfsLookupPath_last habs hname,hq,bind_some,Tree.go,if_neg hno] at hr
    cases hr
  cases c with
  | file path | directory path => exact hplain h
  | link target path =>
    obtain ⟨q',hq',hdir,-⟩ := h.1
    obtain rfl := some.inj (hq.symm.trans hq')
    exact hdir

end Reached

section Run

variable {c : Creation} {v v' : Volumes} {pos d : Nat} {s : Name}

theorem Creation.run_spec (h : c.run v pos = some (v',d,s)) :
    ∃ name, ∃ hd : d < v.fresh, c.parent v.tree = some (d,name) ∧ (v.node d).find name = none ∧
      (v.node d).kind.store name = some s ∧
      v' = v.add d s { kind := (v.node d).kind, type := c.type } rfl pos hd := by
  obtain ⟨⟨d',name⟩,hp,h⟩ := bind_eq_some_iff.mp h
  split at h
  · obtain ⟨⟨w,s'⟩,he,⟨⟩⟩ := map_eq_some_iff.mp h
    unfold Volumes.enter at he
    split_ifs at he with hd hfree
    obtain ⟨s'',hs,⟨⟩⟩ := map_eq_some_iff.mp he
    exact ⟨name,hd,hp,by simpa using hfree,hs,rfl⟩
  · cases h

/-- Where the walk of the directory part stands is a node in use. -/
theorem Volumes.go_lt (v : Volumes) {hs : List (Hop Name)} {k : Nat} {q : Dentry}
    (h : v.tree.go (v.tree.walk k) ⟨v.tree.root,[]⟩ hs = some q) : q.node < v.fresh :=
  (v.holds_lt.go (fun _ _ _ hp hf => v.holds_lt.walk hp hf)
    ⟨v.root_lt,fun _ ha => absurd ha not_mem_nil⟩ h).1

/-- The tree with the new name in it leads there from the directory. -/
theorem Creation.comes (hsane : Sane c v) {hd : d < v.fresh} {x : Node} {hx : x.entries = []}
    (habs : isAbsolute c.path)
    (hdir : ∃ D, vfsLookupPath v.tree (dirPath c.path) = some D ∧ D.node = d)
    (hfree : (v.node d).find (baseName c.path) = none)
    (hsee : (v.node d).kind.sees s (baseName c.path)) :
    Comes (v.add d s x hx pos hd).tree c.path v.fresh := by
  have hext : v.tree.Extends (v.add d s x hx pos hd).tree := Volumes.add_extends hfree hsee
  obtain ⟨D,hD,rfl⟩ := hdir
  rw [vfsLookupPath_eq (isAbsolute_dirPath habs)] at hD
  obtain ⟨q,hq,rfl⟩ := map_eq_some_iff.mp hD
  have hqdir : v.tree.isDir q.node := hsane.isDir q hq
  have hddir : v.tree.isDir (v.tree.cross q).node := Volumes.cross_isDir hqdir
  refine ⟨q,hext.go (fun _ _ _ hf => hext.walk hf) hq,hext.dir _ hqdir,?_⟩
  rw [hext.cross]
  show ((v.add _ s x hx pos hd).node _).find _ = _
  rw [Volumes.add_dir]
  exact Node.find_insert_self hfree hsee fun _ => eq_of_beq hddir

/-- The new node is reached once the walk comes to it, a link if its text stands. -/
theorem Creation.reached_iff {x : Nat} {kind : Kind} (habs : isAbsolute c.path)
    (hname : EndsInName c.path) (hnew : v.node x = { kind := kind, type := c.type })
    (hmount : v.mount x = none) (hcomes : Comes v.tree c.path x) :
    c.Reached v.tree x ↔ c.TextStands v.tree := by
  have hlink : v.tree.isLink x = (⟨kind,c.type,[]⟩ : Node).isLink := congrArg Node.isLink hnew
  cases c with
  | file path | directory path =>
    refine iff_of_true (vfsLookupPath_of_comes habs hname hmount hcomes hlink) ?_
    rintro _ _ _ ⟨⟩
  | link target path =>
    have htarget : v.tree.target x = some ⟨isAbsolute target,hops (target.take PATH_LEN)⟩ := by
      show (v.node x).target.map _ = _
      rw [hnew,← isAbsolute_take target]
      rfl
    constructor
    · rintro ⟨-,hsame⟩ target' path' q ⟨⟩ hq
      exact (vfsLookupPath_of_link v.ends habs hname hcomes hlink htarget hq).symm.trans (hsame q hq)
    · intro hstands
      refine ⟨hcomes,fun q hq => ?_⟩
      exact (vfsLookupPath_of_link v.ends habs hname hcomes hlink htarget hq).trans
        (hstands target path q rfl hq)

/-- Creation enters the last component of the path in the directory that the rest leads to, and
the path leads to what was created, for the paths that are sane and for no others. -/
theorem create_then_lookup (hrun : c.run v pos = some (v',d,s)) :
    Entered c v v' d s ↔ Sane c v ∧ c.TextStands v'.tree := by
  obtain ⟨name,hd,hp,hfree,hstore,hv'⟩ := Creation.run_spec hrun
  obtain ⟨habs,hname,-⟩ := c.parent_spec v.ends hp
  have hdir := c.parent_dir_iff v.ends hp
  have hnew : v'.node v.fresh = { kind := (v.node d).kind, type := c.type } := by
    rw [hv',Volumes.add_new]
  have hmount : v'.mount v.fresh = none := by
    rw [hv']
    exact v.mount_fresh
  constructor
  · intro he
    obtain ⟨hne,-,hdot,hdots⟩ := Kind.shown_component he.last
    have hfits : (baseName c.path).length ≤ NAME_LEN := Kind.fits_of_sees (hname ▸ hstore) he.last
    obtain rfl : name = baseName c.path := hname.trans (take_of_length_le hfits)
    have hgood : _ ∧ _ ∧ _ ∧ _ := ⟨hne.mp he.component.1,mt hdot.mpr he.component.2.2.1,
      mt hdots.mpr he.component.2.2.2,hfits⟩
    have hends : EndsInName c.path := endsInName_of_name hgood
    obtain ⟨hcut,hroot⟩ := hdir.mp he.dir
    have hext : v.tree.Extends v'.tree := hv' ▸ Volumes.add_extends hfree he.last
    have hsane : Sane c v := by
      refine ⟨hgood,hcut,hroot,fun q hq => ?_,fun d' name' s' hp' hs' => ?_⟩
      · have hdir' := he.reached.isDir habs hends
          (by rw [hext.root]; exact hext.go (fun _ _ _ hf => hext.walk hf) hq)
        have htype : (v'.node q.node).type = (v.node q.node).type := by
          rw [hv',Volumes.add_type (ne_of_lt (v.go_lt hq))]
        exact (congrArg (· == FileType.dir) htype).symm.trans hdir'
      · obtain ⟨rfl,rfl⟩ := Prod.mk.inj (some.inj (hp.symm.trans hp'))
        obtain rfl := some.inj (hstore.symm.trans hs')
        exact he.last
    have hcomes : Comes v'.tree c.path v.fresh := hv' ▸ c.comes hsane habs he.dir hfree he.last
    exact ⟨hsane,(c.reached_iff habs hends hnew hmount hcomes).mp he.reached⟩
  · rintro ⟨hsane,htext⟩
    obtain rfl : name = baseName c.path := hname.trans (take_of_length_le hsane.name.2.2.2)
    have hsee := hsane.stands d _ s hp hstore
    obtain ⟨hne,hslash,hdot,hdots⟩ := Kind.shown_component hsee
    have hat := hdir.mpr ⟨hsane.cut,hsane.root⟩
    have hcomes : Comes v'.tree c.path v.fresh := hv' ▸ c.comes hsane habs hat hfree hsee
    exact ⟨⟨hne.mpr hsane.name.1,fun h => slash_notMem_baseName c.path (hslash h),
      mt hdot.mp hsane.name.2.1,mt hdots.mp hsane.name.2.2.1⟩,hsee,hat,
      (c.reached_iff habs (endsInName_of_name hsane.name) hnew hmount hcomes).mpr htext⟩

end Run

/-- A `ramfs` with an empty directory `a` in its root. -/
def oneDirectory : Volumes where
  node n := if n = 0 then { type := .dir, entries := [(['a'],1)] }
    else if n = 1 then { type := .dir } else {}
  mount _ := none
  mounts := 0
  root := 0
  fresh := 2
  entry_lt d e he := by
    split_ifs at he
    · rw [mem_singleton.mp he]
      decide
    · cases he
    · cases he
  mount_lt _ _ h := by cases h
  mount_dir _ _ h := by cases h
  root_lt := by decide
  unused n hn := by
    rw [if_neg (by omega),if_neg (by omega)]
  ends _ := rfl

/-- `mkdir` of `/a/b` is sane there. -/
theorem create_then_lookup_ab :
    ∃ v' s, (Creation.directory ['/','a','/','b']).run oneDirectory 0 = some (v',1,s) ∧
      Entered (.directory ['/','a','/','b']) oneDirectory v' 1 s := by
  refine ⟨_,['b'],rfl,(create_then_lookup rfl).mpr ⟨⟨by decide,rfl,fun h => ?_,fun q hq => ?_,
    fun d name s hp hs => ?_⟩,?_⟩⟩
  · exact absurd h (by decide)
  · obtain rfl := some.inj hq
    rfl
  · obtain ⟨rfl,rfl⟩ := Prod.mk.inj (some.inj hp)
    obtain rfl := some.inj hs
    rfl
  · rintro _ _ _ ⟨⟩

/-- `mkdir` of `/a/` enters an empty name in the directory. -/
theorem trailing_slash_enters_empty :
    ∃ v', (Creation.directory ['/','a','/']).run oneDirectory 0 = some (v',1,[]) ∧
      ¬ Entered (.directory ['/','a','/']) oneDirectory v' 1 [] :=
  ⟨_,rfl,fun h => h.component.1 rfl⟩

end Lariat.Vfs
