import Mathlib.Data.List.TakeWhile
import Lariat.Foundation.NameTree

/-! Paths as the VFS splits them, and their resolution: `path_component`, `vfs_walk`,
`vfs_lookup_path` and `vfs_lookup_parent`. -/
namespace Lariat.Vfs
open Foundation.NameTree List Option

abbrev Name := List Char
abbrev Path := List Char

/-- The characters a name buffer holds. -/
def NAME_LEN : Nat := 63

/-- The characters the buffer of a directory part or a link target holds. -/
def PATH_LEN : Nat := 255

def VFS_SYMLINK_MAX_DEPTH : Nat := 8

/-- The next component of a path and what is left of it. A longer component than the
buffer holds is cut there, and the next one starts at the cut. -/
def pathComponent (p : Path) : Option (Name × Path) :=
  let q := p.dropWhile (· == '/')
  let n := (q.takeWhile (· != '/')).take NAME_LEN
  if q = [] then none else some (n,q.drop n.length)

/-- All components. Each takes at least one character. -/
def componentsUpTo : Nat → Path → List Name
  | 0, _ => []
  | k+1, p => (pathComponent p).elim [] fun c => c.1 :: componentsUpTo k c.2

def components (p : Path) : List Name := componentsUpTo p.length p

def hop (n : Name) : Hop Name :=
  if n = ['.'] then .stay
  else if n = ['.','.'] then .up
  else .into n

def hops (p : Path) : List (Hop Name) := (components p).map hop

def isAbsolute (p : Path) : Bool := p.head? == some '/'

abbrev Dentry := Place Nat

/-- `vfs_walk` from a place, with the depth it starts at. -/
def vfsWalk (T : Tree Nat Name) (start : Dentry) (path : Path) (depth : Nat) : Option Dentry :=
  T.walk (VFS_SYMLINK_MAX_DEPTH+1-depth) start (hops path)

def vfsLookupPath (T : Tree Nat Name) (path : Path) : Option Dentry :=
  if isAbsolute path then vfsWalk T ⟨T.root,[]⟩ path 0 else none

/-- What follows the last slash. -/
def baseName (p : Path) : Path := (p.reverse.takeWhile (· != '/')).reverse

/-- What stands before the last slash. -/
def dirName (p : Path) : Path := p.take (p.length - (baseName p).length - 1)

/-- The directory of a path, and the name in it cut to the caller's buffer. -/
def vfsLookupParent (T : Tree Nat Name) (path : Path) : Option (Dentry × Name) :=
  if isAbsolute path then
    if dirName path = [] then some (⟨T.root,[]⟩,(baseName path).take NAME_LEN)
    else (vfsLookupPath T ((dirName path).take PATH_LEN)).map fun d => (d,(baseName path).take NAME_LEN)
  else none

theorem hop_name {n : Name} (h1 : n ≠ ['.']) (h2 : n ≠ ['.','.']) : hop n = .into n := by
  rw [hop,if_neg h1,if_neg h2]

variable {p : Path}

theorem isAbsolute_iff : isAbsolute p ↔ ∃ q, p = '/' :: q := by
  cases p with
  | nil | cons c q => simp [isAbsolute]

theorem slash_notMem_baseName (p : Path) : '/' ∉ baseName p := by
  intro h
  simpa using mem_takeWhile_imp (mem_reverse.mp h)

/-- A path with a slash is its two parts joined by one. -/
theorem dirName_append_baseName (h : '/' ∈ p) : dirName p ++ '/' :: baseName p = p := by
  have hsplit := takeWhile_append_dropWhile (p := (· != '/')) (l := p.reverse)
  cases hd : p.reverse.dropWhile (· != '/') with
  | nil =>
    have hall : ∀ c ∈ p.reverse, (c != '/') = true := dropWhile_eq_nil_iff.mp hd
    exact absurd (hall '/' (mem_reverse.mpr h)) (by simp)
  | cons c rest =>
    have hc : c = '/' := by
      have := head?_dropWhile_not (fun c : Char => c != '/') p.reverse
      rw [hd] at this
      simpa using this
    rw [hd,hc] at hsplit
    have hp : p = rest.reverse ++ '/' :: baseName p := by
      have hrev := congrArg List.reverse hsplit
      rw [reverse_reverse,reverse_append,reverse_cons,append_assoc] at hrev
      exact hrev.symm
    have hlen : p.length = rest.length+1 + (baseName p).length := by
      conv_lhs => rw [hp]
      simp; omega
    have hdir : dirName p = rest.reverse := by
      rw [dirName,show p.length - (baseName p).length - 1 = rest.reverse.length by simp; omega]
      conv_lhs => rw [hp]
      simp
    rw [hdir]
    exact hp.symm

theorem pathComponent_append (dir last : Path) :
    pathComponent (dir ++ '/' :: last) =
      (pathComponent dir).elim (pathComponent last) fun c => some (c.1,c.2 ++ '/' :: last) := by
  unfold pathComponent
  rw [dropWhile_append]
  cases hd : dir.dropWhile (· == '/') with
  | nil => rfl
  | cons c q =>
    have htake : ((c :: q) ++ '/' :: last).takeWhile (· != '/') = (c :: q).takeWhile (· != '/') := by
      rw [takeWhile_append]
      split
      · rename_i h
        rw [(List.takeWhile_prefix _).eq_of_length h,takeWhile_cons_of_neg (by simp),
          append_nil]
      · rfl
    have hlen : (((c :: q).takeWhile (· != '/')).take NAME_LEN).length ≤ (c :: q).length :=
      (length_take_le' _ _).trans (List.takeWhile_prefix _).length_le
    simp only [isEmpty_cons,Bool.false_eq_true,if_false,htake,drop_append_of_le_length hlen]
    rw [if_neg (append_ne_nil_of_left_ne_nil (cons_ne_nil c q) _),if_neg (cons_ne_nil c q)]
    rfl

theorem pathComponent_lt {c : Name × Path} (h : pathComponent p = some c) :
    c.2.length < p.length := by
  unfold pathComponent at h
  dsimp only at h
  split_ifs at h with hq
  cases h
  have hle := (dropWhile_suffix (l := p) (· == '/')).length_le
  cases hd : p.dropWhile (· == '/') with
  | nil => exact absurd hd hq
  | cons a q =>
    rw [hd] at hle
    have ha : (a != '/') = true := by
      have := head?_dropWhile_not (· == '/') p
      rw [hd] at this
      simpa using this
    rw [takeWhile_cons_of_pos (p := (· != '/')) ha]
    simp only [NAME_LEN,take_succ_cons,length_cons,length_drop] at hle ⊢
    omega

theorem componentsUpTo_nil (k : Nat) : componentsUpTo k [] = [] := by
  cases k <;> rfl

theorem componentsUpTo_eq {k j : Nat} (hk : p.length ≤ k) (hj : p.length ≤ j) :
    componentsUpTo k p = componentsUpTo j p := by
  induction k generalizing j p with
  | zero =>
    obtain rfl := length_eq_zero_iff.mp (Nat.le_zero.mp hk)
    rw [componentsUpTo_nil,componentsUpTo_nil]
  | succ k ih =>
    cases j with
    | zero =>
      obtain rfl := length_eq_zero_iff.mp (Nat.le_zero.mp hj)
      rw [componentsUpTo_nil,componentsUpTo_nil]
    | succ j =>
      rw [componentsUpTo,componentsUpTo]
      cases hc : pathComponent p with
      | none => rfl
      | some c =>
        have hlt := pathComponent_lt hc
        exact congrArg (c.1 :: ·) (ih (by omega) (by omega))

theorem components_of_component {c : Name × Path} (h : pathComponent p = some c) :
    components p = c.1 :: components c.2 := by
  have hlt := pathComponent_lt h
  obtain ⟨k,hk⟩ : ∃ k, p.length = k+1 := ⟨p.length-1,by omega⟩
  rw [components,hk,componentsUpTo,h]
  exact congrArg (c.1 :: ·) (componentsUpTo_eq (by omega) (Nat.le_refl _))

theorem components_of_none (h : pathComponent p = none) : components p = [] := by
  unfold components
  cases p.length with
  | zero => rfl
  | succ k => rw [componentsUpTo,h]; rfl

theorem components_append (dir last : Path) :
    components (dir ++ '/' :: last) = components dir ++ components last := by
  induction hn : dir.length using Nat.strong_induction_on generalizing dir with
  | _ n ih =>
    have hsplit := pathComponent_append dir last
    cases hc : pathComponent dir with
    | none =>
      rw [hc] at hsplit
      rw [components_of_none hc,nil_append]
      cases hl : pathComponent last with
      | none => rw [components_of_none hl,components_of_none (hsplit.trans hl)]
      | some c => rw [components_of_component hl,components_of_component (hsplit.trans hl)]
    | some c =>
      rw [hc] at hsplit
      rw [components_of_component hc,components_of_component hsplit,cons_append]
      exact congrArg (c.1 :: ·) (ih _ (hn ▸ pathComponent_lt hc) _ rfl)

theorem components_name {n : Name} (hne : n ≠ []) (hs : '/' ∉ n) (hl : n.length ≤ NAME_LEN) :
    components n = [n] := by
  have hdrop : n.dropWhile (· == '/') = n := by
    cases n with
    | nil => rfl
    | cons c q =>
      refine dropWhile_cons_of_neg ?_
      intro hc
      exact hs (by simp [beq_iff_eq.mp hc])
  have htake : n.takeWhile (· != '/') = n := by
    rw [takeWhile_eq_self_iff]
    intro c hc
    simpa using fun he : c = '/' => hs (he ▸ hc)
  have hcomp : pathComponent n = some (n,[]) := by
    unfold pathComponent
    dsimp only
    rw [hdrop,htake,take_of_length_le hl,if_neg hne,drop_length]
  rw [components_of_component hcomp]
  rfl

/-- A path that fits the buffers of `vfs_lookup_parent`. In the root directory it must
not be hidden by a mount, which that function does not cross. -/
structure Fits (T : Tree Nat Name) (path : Path) : Prop where
  dir : (dirName path).length ≤ PATH_LEN
  name : (baseName path).length ≤ NAME_LEN
  root : dirName path = [] → T.cross ⟨T.root,[]⟩ = ⟨T.root,[]⟩

section Parent

variable {T T' : Tree Nat Name} {path : Path} {D r : Dentry} {N : Name} {x : Nat}

theorem fits_iff_of_extends (hx : T.Extends T') : Fits T' path ↔ Fits T path := by
  have hroot : T'.cross ⟨T'.root,[]⟩ = ⟨T'.root,[]⟩ ↔ T.cross ⟨T.root,[]⟩ = ⟨T.root,[]⟩ := by
    rw [hx.cross,hx.root]
  exact ⟨fun h => ⟨h.dir,h.name,fun hd => hroot.mp (h.root hd)⟩,
    fun h => ⟨h.dir,h.name,fun hd => hroot.mpr (h.root hd)⟩⟩

theorem hops_split {p : Path} (h : isAbsolute p) : hops p = hops (dirName p) ++ hops (baseName p) := by
  obtain ⟨q,rfl⟩ := isAbsolute_iff.mp h
  have hmem : '/' ∈ '/' :: q := mem_cons_self ..
  conv_lhs => rw [← dirName_append_baseName hmem]
  rw [hops,components_append,map_append]
  rfl

theorem vfsLookupPath_eq (h : isAbsolute path) :
    vfsLookupPath T path = T.walk 9 ⟨T.root,[]⟩ (hops path) := by
  rw [vfsLookupPath,if_pos h]
  rfl

theorem isAbsolute_dirName (h : isAbsolute path) (hd : dirName path ≠ []) : isAbsolute (dirName path) := by
  obtain ⟨q,rfl⟩ := isAbsolute_iff.mp h
  have hsplit := dirName_append_baseName (mem_cons_self (l := q))
  cases hd' : dirName ('/' :: q) with
  | nil => exact absurd hd' hd
  | cons c rest =>
    rw [hd'] at hsplit
    obtain ⟨rfl,_⟩ := List.cons.inj hsplit
    rfl

/-- What holds of the root, of what is mounted and of all entries but links holds of whatever a
path leads to. -/
theorem vfsLookupPath_all {P : Nat → Prop} (h : T.Holds P) (hd : vfsLookupPath T path = some D) :
    D.All P := by
  unfold vfsLookupPath at hd
  split at hd
  · refine h.walk ⟨h.root,?_⟩ hd
    intro a ha
    cases ha
  · cases hd

theorem vfsLookupParent_all {P : Nat → Prop} (h : T.Holds P) (hd : vfsLookupParent T path = some (D,N)) :
    D.All P := by
  unfold vfsLookupParent at hd
  split_ifs at hd with habs hdir
  · cases hd
    refine ⟨h.root,?_⟩
    intro a ha
    cases ha
  · obtain ⟨e,he,heq⟩ := map_eq_some_iff.mp hd
    cases heq
    exact vfsLookupPath_all h he

theorem vfsLookupPath_extends (hx : T.Extends T') (h : vfsLookupPath T path = some r) :
    vfsLookupPath T' path = some r := by
  unfold vfsLookupPath at h ⊢
  split at h
  · rename_i habs
    rw [if_pos habs,hx.root]
    exact hx.walk h
  · cases h

theorem vfsLookupParent_extends (hx : T.Extends T') (h : vfsLookupParent T path = some (D,N)) :
    vfsLookupParent T' path = some (D,N) := by
  unfold vfsLookupParent at h ⊢
  rw [hx.root]
  split_ifs at h ⊢ with habs hdir
  · exact h
  · obtain ⟨d,hd,he⟩ := map_eq_some_iff.mp h
    rw [vfsLookupPath_extends hx hd]
    exact congrArg some he

/-- Where a path fits, its directory is where its directory part leads. -/
theorem vfsLookupParent_fits (hf : Fits T path) (h : vfsLookupParent T path = some (D,N)) :
    isAbsolute path ∧ N = baseName path ∧ T.walk 9 ⟨T.root,[]⟩ (hops (dirName path)) = some D := by
  unfold vfsLookupParent at h
  split_ifs at h with habs hdir
  · obtain ⟨rfl,rfl⟩ := Prod.mk.inj (Option.some.inj h)
    refine ⟨habs,take_of_length_le hf.name,?_⟩
    rw [hdir]
    exact congrArg some (hf.root hdir)
  · obtain ⟨d,hd,he⟩ := map_eq_some_iff.mp h
    obtain ⟨rfl,rfl⟩ := Prod.mk.inj he
    rw [take_of_length_le hf.dir,vfsLookupPath_eq (isAbsolute_dirName habs hdir)] at hd
    exact ⟨habs,take_of_length_le hf.name,hd⟩

/-- A path ends in a name, not in a slash or a dot. -/
def EndsInName (p : Path) : Prop := hops (baseName p) = [.into (baseName p)]

/-- A path whose directory is there and that leads nowhere ends in a name. -/
theorem endsInName_of_missing (hf : Fits T path) (hp : vfsLookupParent T path = some (D,N))
    (hnone : vfsLookupPath T path = none) : EndsInName path := by
  obtain ⟨habs,rfl,hdir⟩ := vfsLookupParent_fits hf hp
  rw [vfsLookupPath_eq habs,hops_split habs] at hnone
  obtain ⟨q,hq,hcross⟩ := map_eq_some_iff.mp hdir
  -- a last component that names no entry would have led to the directory itself
  have hstay : ∀ h : Hop Name, h = .stay ∨ h = .up → hops (baseName path) ≠ [h] := by
    rintro h (rfl | rfl) he
    all_goals
      rw [he,Tree.walk,Tree.go_append,hq] at hnone
      cases hnone
  have hne : baseName path ≠ [] := by
    intro he
    rw [he] at hnone
    rw [show hops [] = [] from rfl,append_nil,hdir] at hnone
    cases hnone
  have hcomp := components_name hne (slash_notMem_baseName path) hf.name
  have hhop : hops (baseName path) = [hop (baseName path)] := by rw [hops,hcomp]; rfl
  have hinto : hop (baseName path) = .into (baseName path) := by
    refine hop_name (fun h1 => ?_) (fun h2 => ?_)
    · exact hstay .stay (.inl rfl) (by rw [hhop,h1]; rfl)
    · exact hstay .up (.inr rfl) (by rw [hhop,h2]; rfl)
  rw [EndsInName,hhop,hinto]

section

variable (hx : T.Extends T') (hf : Fits T path) (hp : vfsLookupParent T path = some (D,N))
include hx hf hp

/-- A path that led nowhere leads to the file entered for it, if anywhere. -/
theorem vfsLookupPath_created (hnone : vfsLookupPath T path = none)
    (hchild : ∀ y, T'.child D.node N = some y → y = x) (hlink : T'.isLink x = false)
    (hmount : T.mount x = none) (hr : vfsLookupPath T' path = some r) :
    T'.child D.node N = some x ∧ r.node = x := by
  have hname := endsInName_of_missing hf hp hnone
  obtain ⟨habs,rfl,hdir⟩ := vfsLookupParent_fits hf hp
  rw [vfsLookupPath_eq habs,hops_split habs,hname,hx.root] at hr
  exact hx.walk_leaf hdir hchild hlink hmount hr

/-- Once its last name is taken away a path leads nowhere. -/
theorem vfsLookupPath_removed (hname : EndsInName path) :
    vfsLookupPath (T'.without D.node N) path = none := by
  obtain ⟨habs,rfl,hdir⟩ := vfsLookupParent_fits hf hp
  rw [vfsLookupPath_eq habs,hops_split habs,hname,show (T'.without D.node (baseName path)).root = T.root from hx.root]
  exact hx.walk_without hdir

end

/-- In a smaller tree that has its directory and its last name, a path leads where it
leads in the larger one. -/
theorem vfsLookupPath_same (hx : T.Extends T') (hdirs : T.isDir = T'.isDir) (hf : Fits T path)
    (hp : vfsLookupParent T path = some (D,N)) (hname : EndsInName path) (hchild : T.child D.node N = some x)
    (hlink : T.isLink x = false) : vfsLookupPath T path = vfsLookupPath T' path := by
  obtain ⟨habs,rfl,hdir⟩ := vfsLookupParent_fits hf hp
  rw [vfsLookupPath_eq habs,vfsLookupPath_eq habs,hops_split habs,hname,hx.root]
  exact hx.walk_same hdirs hdir hchild hlink

/-- If a path leads somewhere in a larger tree without a name, its directory is found in
the tree without that name. -/
theorem vfsLookupParent_without (hx : T.Extends T') {a : Nat} {k : Name} (hf : Fits T path)
    (hp : vfsLookupParent T path = some (D,N)) (hr : vfsLookupPath (T'.without a k) path = some r) :
    vfsLookupParent (T.without a k) path = some (D,N) := by
  obtain ⟨habs,rfl,hdir⟩ := vfsLookupParent_fits hf hp
  rw [vfsLookupPath_eq habs,hops_split habs,show (T'.without a k).root = T.root from hx.root] at hr
  have hdir' := (hx.meet_without a k).walk_of_append hdir hr
  unfold vfsLookupParent at hp ⊢
  rw [if_pos habs] at hp ⊢
  split_ifs at hp ⊢ with hnil
  · exact hp
  · rw [take_of_length_le hf.dir,vfsLookupPath_eq (isAbsolute_dirName habs hnil),
      take_of_length_le hf.name]
    exact congrArg (Option.map _) hdir'

end Parent

end Lariat.Vfs
