import Mathlib.Data.List.Basic

/-! Walking a tree of names with links and mounts, and what a walk still finds when
the tree has grown. -/
namespace Lariat.Foundation.NameTree
open Option List

variable {ν κ : Type*}

/-- One component of a path. -/
inductive Hop (κ : Type*) where
  | stay
  | up
  | into (k : κ)
  deriving DecidableEq, Repr

/-- Where a link leads, from the root or from the place of the link. -/
structure Target (κ : Type*) where
  absolute : Bool
  hops : List (Hop κ)

/-- A tree of names. No chain of mounts is longer than `mounts`. -/
structure Tree (ν κ : Type*) where
  root : ν
  isDir : ν → Bool
  child : ν → κ → Option ν
  isLink : ν → Bool
  target : ν → Option (Target κ)
  mount : ν → Option ν
  mounts : Nat

/-- A node with the nodes above it on the way it was reached, the nearest first. -/
structure Place (ν : Type*) where
  node : ν
  up : List ν := []
  deriving DecidableEq, Repr

def Place.parent : Place ν → Place ν
  | ⟨_,p :: ps⟩ => ⟨p,ps⟩
  | ⟨n,[]⟩ => ⟨n,[]⟩

/-- Every node of a place has a property. -/
def Place.All (P : ν → Prop) (p : Place ν) : Prop := P p.node ∧ ∀ a ∈ p.up, P a

theorem Place.All.parent {P : ν → Prop} {p : Place ν} (h : p.All P) : p.parent.All P := by
  obtain ⟨n,up⟩ := p
  cases up with
  | nil => exact h
  | cons a up => exact ⟨h.2 a (mem_cons_self ..),fun b hb => h.2 b (mem_cons_of_mem _ hb)⟩

namespace Tree

variable (T : Tree ν κ)

def crossUpTo : Nat → Place ν → Place ν
  | 0, p => p
  | k+1, p => (T.mount p.node).elim p fun r => crossUpTo k ⟨r,[]⟩

/-- The root of what is mounted here, if anything is. -/
def cross (p : Place ν) : Place ν := T.crossUpTo T.mounts p

/-- Take the hops one by one. A link is followed by `follow`. -/
def go (follow : Place ν → List (Hop κ) → Option (Place ν)) :
    Place ν → List (Hop κ) → Option (Place ν)
  | p, [] => some p
  | p, .stay :: hs => go follow p hs
  | p, .up :: hs => go follow p.parent hs
  | p, .into k :: hs =>
    if T.isDir p.node then
      (T.child (T.cross p).node k).bind fun n =>
        if T.isLink n then
          (T.target n).bind fun tgt =>
            (follow (if tgt.absolute then ⟨T.root,[]⟩ else T.cross p) tgt.hops).bind fun q =>
              go follow q hs
        else go follow ⟨n,(T.cross p).node :: (T.cross p).up⟩ hs
    else none

/-- A walk through at most `d - 1` nested links, mounts crossed at its end. -/
def walk : Nat → Place ν → List (Hop κ) → Option (Place ν)
  | 0, _, _ => none
  | d+1, p, hs => (T.go (walk d) p hs).map T.cross

variable {T} {T' : Tree ν κ} {follow follow' : Place ν → List (Hop κ) → Option (Place ν)}

theorem go_append (p : Place ν) (hs ts : List (Hop κ)) :
    T.go follow p (hs ++ ts) = (T.go follow p hs).bind fun q => T.go follow q ts := by
  induction hs generalizing p with
  | nil => rfl
  | cons h hs ih =>
    cases h with
    | stay => exact ih p
    | up => exact ih p.parent
    | into k =>
      simp only [cons_append,go]
      split
      · simp only [bind_assoc]
        congr 1
        funext n
        split
        · simp only [bind_assoc]
          congr 1
          funext tgt
          congr 1
          funext q
          exact ih q
        · exact ih _
      · rfl

variable {p q : Place ν} {k : κ} {hs : List (Hop κ)} {d : Nat}

theorem crossUpTo_of_none (h : T.mount p.node = none) (n : Nat) : T.crossUpTo n p = p := by
  cases n with
  | zero => rfl
  | succ n => rw [crossUpTo,h]; rfl

theorem cross_of_none (h : T.mount p.node = none) : T.cross p = p := crossUpTo_of_none h _

/-- How a walk takes a name: it is there in a directory, and the walk goes on from it, or from
where it leads if it is a link. -/
theorem go_into_iff :
    T.go follow p (.into k :: hs) = some q ↔ T.isDir p.node ∧ ∃ n, T.child (T.cross p).node k = some n ∧
      (T.isLink n ∧ (∃ tgt r, T.target n = some tgt ∧
          follow (if tgt.absolute then ⟨T.root,[]⟩ else T.cross p) tgt.hops = some r ∧
          T.go follow r hs = some q) ∨
        T.isLink n = false ∧ T.go follow ⟨n,(T.cross p).node :: (T.cross p).up⟩ hs = some q) := by
  rw [go,ite_none_right_eq_some,bind_eq_some_iff]
  refine and_congr_right fun _ => exists_congr fun n => and_congr_right fun _ => ?_
  cases T.isLink n with
  | true => simp [bind_eq_some_iff]
  | false => simp

/-- What holds of the root, of all that is mounted and of every child that is no link
holds of all nodes a walk stays at. -/
structure Holds (T : Tree ν κ) (P : ν → Prop) : Prop where
  root : P T.root
  mount : ∀ a b, T.mount a = some b → P b
  child : ∀ a k b, T.child a k = some b → T.isLink b = false → P b

section Holds

variable {P : ν → Prop} {p q : Place ν} {hs : List (Hop κ)}

theorem Holds.cross (h : T.Holds P) (hp : p.All P) : (T.cross p).All P := by
  unfold Tree.cross
  generalize T.mounts = k
  induction k generalizing p with
  | zero => exact hp
  | succ k ih =>
    rw [crossUpTo]
    cases hm : T.mount p.node with
    | none => exact hp
    | some r => exact ih ⟨h.mount _ _ hm,fun a ha => nomatch ha⟩

theorem Holds.go (h : T.Holds P) (hf : ∀ p hs q, p.All P → follow p hs = some q → q.All P)
    (hp : p.All P) (hgo : T.go follow p hs = some q) : q.All P := by
  induction hs generalizing p with
  | nil =>
    cases hgo
    exact hp
  | cons hop hs ih =>
    cases hop with
    | stay => exact ih hp hgo
    | up => exact ih hp.parent hgo
    | into k =>
      obtain ⟨-,n,hn,⟨-,tgt,r,-,hr,hgo⟩ | ⟨hlink,hgo⟩⟩ := go_into_iff.mp hgo
      · refine ih (hf _ _ _ ?_ hr) hgo
        split
        · exact ⟨h.root,fun a ha => nomatch ha⟩
        · exact h.cross hp
      · exact ih ⟨h.child _ _ _ hn hlink,forall_mem_cons.mpr (h.cross hp)⟩ hgo

theorem Holds.walk (h : T.Holds P) {d : Nat} (hp : p.All P) (hw : T.walk d p hs = some q) : q.All P := by
  induction d generalizing p q hs with
  | zero => cases hw
  | succ d ih =>
    obtain ⟨r,hr,rfl⟩ := map_eq_some_iff.mp hw
    exact h.cross (h.go (fun _ _ _ hp hf => ih hp hf) hp hr)

end Holds

/-- The tree has grown: what a walk passes through is still there. -/
structure Extends (T T' : Tree ν κ) : Prop where
  root : T'.root = T.root
  mount : T'.mount = T.mount
  mounts : T'.mounts = T.mounts
  dir : ∀ a, T.isDir a → T'.isDir a
  child : ∀ a k b, T.child a k = some b → T'.child a k = some b ∧
    T'.isLink b = T.isLink b ∧ T'.target b = T.target b

theorem Extends.refl (T : Tree ν κ) : Extends T T :=
  ⟨rfl,rfl,rfl,fun _ h => h,fun _ _ _ h => ⟨h,rfl,rfl⟩⟩

theorem cross_congr (hm : T'.mount = T.mount) (hn : T'.mounts = T.mounts) : T'.cross = T.cross := by
  have hup : ∀ k, T'.crossUpTo k = T.crossUpTo k := by
    intro k
    induction k with
    | zero => rfl
    | succ k ih =>
      funext p
      rw [crossUpTo,crossUpTo,ih,hm]
  funext p
  rw [Tree.cross,Tree.cross,hup,hn]

theorem Extends.cross (h : Extends T T') : T'.cross = T.cross := cross_congr h.mount h.mounts

theorem Extends.go (h : Extends T T') (hf : ∀ p hs q, follow p hs = some q → follow' p hs = some q)
    (hgo : T.go follow p hs = some q) : T'.go follow' p hs = some q := by
  induction hs generalizing p with
  | nil => exact hgo
  | cons hop hs ih =>
    cases hop with
    | stay | up => exact ih hgo
    | into k =>
      obtain ⟨hdir,n,hn,hgo⟩ := go_into_iff.mp hgo
      obtain ⟨hn',hl,ht⟩ := h.child _ _ _ hn
      rw [go_into_iff,h.cross,h.root]
      refine ⟨h.dir _ hdir,n,hn',?_⟩
      rw [hl,ht]
      rcases hgo with ⟨hlink,tgt,r,htgt,hr,hgo⟩ | ⟨hlink,hgo⟩
      · exact .inl ⟨hlink,tgt,r,htgt,hf _ _ _ hr,ih hgo⟩
      · exact .inr ⟨hlink,ih hgo⟩

theorem Extends.walk (h : Extends T T') (hw : T.walk d p hs = some q) :
    T'.walk d p hs = some q := by
  induction d generalizing p q hs with
  | zero => cases hw
  | succ d ih =>
    obtain ⟨r,hr,rfl⟩ := map_eq_some_iff.mp hw
    rw [Tree.walk,h.go (fun _ _ _ hf => ih hf) hr,h.cross]
    rfl

/-- A path to a leaf that the tree has grown where its directory part leads. -/
theorem Extends.walk_leaf (h : Extends T T') {r : Place ν} {x : ν} (hw : T.walk d p hs = some q)
    (hx : ∀ y, T'.child q.node k = some y → y = x) (hl : T'.isLink x = false) (hm : T.mount x = none)
    (hr : T'.walk d p (hs ++ [.into k]) = some r) : T'.child q.node k = some x ∧ r.node = x := by
  cases d with
  | zero => cases hw
  | succ d =>
    obtain ⟨q',hq,rfl⟩ := map_eq_some_iff.mp hw
    have hq' : T'.go (T'.walk d) p hs = some q' := h.go (fun _ _ _ hf => h.walk hf) hq
    obtain ⟨r',hgo,rfl⟩ := map_eq_some_iff.mp hr
    rw [go_append,hq',bind_some,Tree.go] at hgo
    split at hgo
    · rw [h.cross] at hgo
      obtain ⟨y,hy,hgo⟩ := bind_eq_some_iff.mp hgo
      obtain rfl := hx y hy
      rw [hl] at hgo
      cases hgo
      refine ⟨hy,?_⟩
      rw [h.cross,cross_of_none hm]
    · cases hgo

/-- A tree with what two trees agree on. -/
structure Meet (M T U : Tree ν κ) : Prop where
  root : M.root = T.root
  root' : U.root = T.root
  mount : M.mount = T.mount
  mount' : U.mount = T.mount
  mounts : M.mounts = T.mounts
  mounts' : U.mounts = T.mounts
  dir : ∀ a, M.isDir a = T.isDir a
  dir' : ∀ a, T.isDir a → U.isDir a
  child : ∀ a k b b', T.child a k = some b → U.child a k = some b' → b' = b ∧ M.child a k = some b ∧
    M.isLink b = T.isLink b ∧ M.target b = T.target b ∧ U.isLink b = T.isLink b ∧ U.target b = T.target b

section Meet

variable {M U : Tree ν κ} {follow'' : Place ν → List (Hop κ) → Option (Place ν)} {p q q' : Place ν}
  {hs : List (Hop κ)}

/-- A path that leads somewhere in both trees leads there in what they agree on. -/
theorem Meet.go (h : Meet M T U)
    (hf : ∀ p hs q q', follow p hs = some q → follow' p hs = some q' → q' = q ∧ follow'' p hs = some q)
    (hgo : T.go follow p hs = some q) (hgo' : U.go follow' p hs = some q') :
    q' = q ∧ M.go follow'' p hs = some q := by
  induction hs generalizing p with
  | nil =>
    cases hgo
    cases hgo'
    exact ⟨rfl,rfl⟩
  | cons hop hs ih =>
    cases hop with
    | stay | up => exact ih hgo hgo'
    | into j =>
      rw [go_into_iff] at hgo hgo' ⊢
      rw [cross_congr h.mount' h.mounts',h.root'] at hgo'
      rw [cross_congr h.mount h.mounts,h.root,h.dir]
      obtain ⟨hdir,n,hn,hgo⟩ := hgo
      obtain ⟨-,m,hm,hgo'⟩ := hgo'
      obtain ⟨rfl,hchild,hl,ht,hl',ht'⟩ := h.child _ _ _ _ hn hm
      rw [hl',ht'] at hgo'
      rcases hgo with ⟨hlink,tgt,r,htgt,hr,hgo⟩ | ⟨hlink,hgo⟩
      · obtain ⟨-,tgt',r',htgt',hr',hgo'⟩ := hgo'.resolve_right fun hno => by simp [hlink] at hno
        obtain rfl := some.inj (htgt.symm.trans htgt')
        obtain ⟨rfl,hr''⟩ := hf _ _ _ _ hr hr'
        obtain ⟨hq,hM⟩ := ih hgo hgo'
        exact ⟨hq,hdir,m,hchild,.inl ⟨hl.trans hlink,tgt,r',ht.trans htgt,hr'',hM⟩⟩
      · obtain ⟨-,hgo'⟩ := hgo'.resolve_left fun hno => by simp [hlink] at hno
        obtain ⟨hq,hM⟩ := ih hgo hgo'
        exact ⟨hq,hdir,m,hchild,.inr ⟨hl.trans hlink,hM⟩⟩

theorem Meet.walk (h : Meet M T U) {d : Nat} (hw : T.walk d p hs = some q) (hw' : U.walk d p hs = some q') :
    q' = q ∧ M.walk d p hs = some q := by
  induction d generalizing p q q' hs with
  | zero => cases hw
  | succ d ih =>
    obtain ⟨r,hr,rfl⟩ := map_eq_some_iff.mp hw
    obtain ⟨r',hr',rfl⟩ := map_eq_some_iff.mp hw'
    obtain ⟨rfl,hm⟩ := h.go (fun _ _ _ _ hf hf' => ih hf hf') hr hr'
    rw [Tree.walk,hm,cross_congr h.mount h.mounts,cross_congr h.mount' h.mounts']
    exact ⟨rfl,rfl⟩

/-- If a longer path leads somewhere in one tree, the part that leads somewhere in the
other leads there in what they agree on. -/
theorem Meet.walk_of_append (h : Meet M T U) {d : Nat} {ts : List (Hop κ)} (hw : T.walk d p hs = some q)
    (hw' : U.walk d p (hs ++ ts) = some q') : M.walk d p hs = some q := by
  cases d with
  | zero => cases hw
  | succ d =>
    obtain ⟨r,hr,_⟩ := map_eq_some_iff.mp hw'
    rw [go_append] at hr
    obtain ⟨r',hr',_⟩ := bind_eq_some_iff.mp hr
    have hU : U.walk (d+1) p hs = some (U.cross r') := by
      rw [Tree.walk,hr']
      rfl
    exact (h.walk hw hU).2

end Meet

section Without

variable [DecidableEq ν] [DecidableEq κ]

/-- The tree without one name. -/
def without (T : Tree ν κ) (d : ν) (k : κ) : Tree ν κ :=
  { T with child := fun a j => if a = d ∧ j = k then none else T.child a j }

theorem without_extends (T : Tree ν κ) (d : ν) (k : κ) : (T.without d k).Extends T := by
  refine ⟨rfl,rfl,rfl,fun _ h => h,fun a j b hb => ?_⟩
  simp only [without] at hb
  split_ifs at hb
  exact ⟨hb,rfl,rfl⟩

theorem Extends.without (h : Extends T T') (d : ν) (k : κ) : Extends (T.without d k) (T'.without d k) := by
  refine ⟨h.root,h.mount,h.mounts,h.dir,fun a j b hb => ?_⟩
  simp only [Tree.without] at hb ⊢
  split_ifs at hb ⊢
  exact h.child a j b hb

/-- Without the name its path ends in, a path leads nowhere. -/
theorem Extends.walk_without (h : Extends T T') {d : Nat} {p q : Place ν} {hs : List (Hop κ)} {k : κ}
    (hw : T.walk d p hs = some q) : (T'.without q.node k).walk d p (hs ++ [.into k]) = none := by
  cases d with
  | zero => cases hw
  | succ d =>
    obtain ⟨q',hq,rfl⟩ := map_eq_some_iff.mp hw
    have hq' : T'.go (T'.walk d) p hs = some q' := h.go (fun _ _ _ hf => h.walk hf) hq
    have hsub := without_extends T' (T.cross q').node k
    rw [Tree.walk,go_append]
    cases hgo : (T'.without (T.cross q').node k).go ((T'.without (T.cross q').node k).walk d) p hs with
    | none => rfl
    | some r =>
      -- where the walk without the name gets, the walk with it gets too
      have hr := hsub.go (fun _ _ _ hf => hsub.walk hf) hgo
      obtain rfl := some.inj (hr.symm.trans hq')
      have hnone : (T'.without (T.cross r).node k).child ((T'.without (T.cross r).node k).cross r).node k = none := by
        rw [← hsub.cross,h.cross]
        exact if_pos ⟨rfl,rfl⟩
      rw [bind_some,Tree.go,hnone]
      split <;> rfl

theorem Extends.meet_without (h : Extends T T') (d : ν) (k : κ) : Meet (T.without d k) T (T'.without d k) := by
  refine ⟨rfl,h.root,rfl,h.mount,rfl,h.mounts,fun _ => rfl,h.dir,fun a j b b' hb hb' => ?_⟩
  obtain ⟨hT',hl,ht⟩ := h.child _ _ _ hb
  simp only [Tree.without] at hb'
  split_ifs at hb' with hak
  exact ⟨some.inj (hb'.symm.trans hT'),(if_neg hak).trans hb,rfl,rfl,hl,ht⟩

end Without

/-- Two trees, one inside the other, that agree at the end of a path. -/
theorem Extends.walk_same (h : Extends T T') (hdir : T.isDir = T'.isDir) {x : ν}
    (hw : T.walk d p hs = some q) (hx : T.child q.node k = some x) (hl : T.isLink x = false) :
    T.walk d p (hs ++ [.into k]) = T'.walk d p (hs ++ [.into k]) := by
  cases d with
  | zero => cases hw
  | succ d =>
    obtain ⟨q',hq,rfl⟩ := map_eq_some_iff.mp hw
    have hq' : T'.go (T'.walk d) p hs = some q' := h.go (fun _ _ _ hf => h.walk hf) hq
    obtain ⟨hx',hl',_⟩ := h.child _ _ _ hx
    rw [Tree.walk,Tree.walk,go_append,go_append,hq,hq',bind_some,bind_some,Tree.go,Tree.go,h.cross,hx,hx',
      hdir,bind_some,bind_some,hl',hl]
    rfl

/-- No chain of mounts is longer than the bound of the tree. -/
def Ends (T : Tree ν κ) : Prop := ∀ p, T.mount (T.cross p).node = none

theorem Ends.congr (h : T.Ends) (hm : T'.mount = T.mount) (hn : T'.mounts = T.mounts) :
    T'.Ends := fun p => by
  rw [hm,cross_congr hm hn]
  exact h p

theorem Ends.cross_cross (h : T.Ends) (p : Place ν) : T.cross (T.cross p) = T.cross p :=
  cross_of_none (h p)

end Tree

/-- The names of a path after `..` was cancelled with the name before it, the last first. -/
def lexical : List κ → List (Hop κ) → List κ
  | s, [] => s
  | s, .stay :: hs => lexical s hs
  | s, .up :: hs => lexical s.tail hs
  | s, .into k :: hs => lexical (k :: s) hs

end Lariat.Foundation.NameTree
