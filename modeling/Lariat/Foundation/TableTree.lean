import Mathlib.Algebra.BigOperators.Group.Finset.Basic
import Mathlib.Algebra.Order.BigOperators.Group.Finset
import Mathlib.Algebra.Order.Group.Multiset
import Mathlib.Data.Multiset.UnionInter
import Mathlib.Tactic.Abel

/-! Trees of tables in a heap. The nodes of a tree are counted as a multiset, so that one
equation says that no node is shared, none is lost and none is both free and in use. -/
namespace Lariat.Foundation.TableTree
open Finset Multiset Option

/-- How the cells of a tree are read: the node a cell leads to, the value it holds as the last
cell of a path, and what may stand there. Paths are written from the deepest index up. -/
structure Reader (ι Cell Val : Type*) where
  next : List ι → Cell → Option Nat
  val : Cell → Option Val
  ok : List ι → Cell → Prop

/-- Tables by node number, and the nodes nobody uses. -/
structure Store (ι Cell : Type*) where
  heap : Nat → ι → Cell
  free : Multiset Nat

namespace Reader

variable {ι Cell Val : Type*} (R : Reader ι Cell Val)

/-- Every cell of the tree holds what may stand at its path. -/
def Sane (h : Nat → ι → Cell) : Nat → List ι → Nat → Prop
  | 0, _, _ => True
  | d+1, p, t =>
    ∀ i, R.ok (i :: p) (h t i) ∧ ∀ c, R.next (i :: p) (h t i) = some c → Sane h d (i :: p) c

/-- The value at the end of a path, given from node `t` downwards. -/
def find (h : Nat → ι → Cell) : List ι → Nat → List ι → Option Val
  | _, _, [] => none
  | _, t, [i] => R.val (h t i)
  | p, t, i :: j :: q => (R.next (i :: p) (h t i)).bind fun c => find h (i :: p) c (j :: q)

/-- A table none of whose cells leads on or holds a value. -/
structure Bare (p : List ι) (z : ι → Cell) : Prop where
  next : ∀ j, R.next (j :: p) (z j) = none
  val : ∀ j, R.val (z j) = none
  ok : ∀ j, R.ok (j :: p) (z j)

variable {R} {h h' : Nat → ι → Cell} {d : Nat} {p : List ι} {t c : Nat} {i j : ι}

variable (R) in
/-- The value at the end of a path that starts with a cell. -/
def findBelow (h : Nat → ι → Cell) (p : List ι) (i : ι) (e : Cell) : List ι → Option Val
  | [] => R.val e
  | j :: q => (R.next (i :: p) e).bind fun c => R.find h (i :: p) c (j :: q)

theorem find_cons (q : List ι) : R.find h p t (i :: q) = R.findBelow h p i (h t i) q := by
  cases q with
  | nil => rfl
  | cons j q => rfl

variable {q : List ι} {e : Cell} {f : Nat}

theorem find_of_some (hc : R.next (i :: p) (h t i) = some c) :
    R.find h p t (i :: j :: q) = R.find h (i :: p) c (j :: q) := by
  rw [find,hc,bind_some]

theorem find_of_none (hc : R.next (i :: p) (h t i) = none) : R.find h p t (i :: j :: q) = none := by
  rw [find,hc,bind_none]

theorem exists_next {v : Val} (hf : R.find h p t (i :: j :: q) = some v) :
    ∃ c, R.next (i :: p) (h t i) = some c ∧ R.find h (i :: p) c (j :: q) = some v :=
  bind_eq_some_iff.mp hf

theorem findBelow_of_none (hc : R.next (i :: p) e = none) : R.findBelow h p i e (j :: q) = none := by
  rw [findBelow,hc,bind_none]

theorem mem_val_left {s : Finset Nat} {x y : Multiset Nat} (hs : s.val = x+y) (hf : f ∈ x) :
    f ∈ s := by
  rw [← mem_val,hs]
  exact mem_add.mpr (.inl hf)

theorem Bare.sane (hz : R.Bare p (h t)) : R.Sane h (d+1) p t := by
  intro j
  refine ⟨hz.ok j,fun c hc => ?_⟩
  rw [hz.next j] at hc
  cases hc

theorem Bare.find (hz : R.Bare p (h t)) (q : List ι) : R.find h p t q = none := by
  match q with
  | [] => rfl
  | [j] => exact hz.val j
  | j :: k :: q => rw [Reader.find,hz.next,bind_none]

variable [Fintype ι]

variable (R) in
/-- The nodes of the tree of depth `d` below node `t`, which stands at path `p`. -/
def owned (h : Nat → ι → Cell) : Nat → List ι → Nat → Multiset Nat
  | 0, _, t => {t}
  | d+1, p, t => {t} + ∑ i, (R.next (i :: p) (h t i)).elim 0 (owned h d (i :: p))

variable (R) in
/-- The nodes below a cell. -/
def branch (h : Nat → ι → Cell) (d : Nat) (p : List ι) (i : ι) (e : Cell) : Multiset Nat :=
  (R.next (i :: p) e).elim 0 (R.owned h d (i :: p))

theorem owned_zero : R.owned h 0 p t = {t} := rfl

theorem owned_succ : R.owned h (d+1) p t = {t} + ∑ i, R.branch h d p i (h t i) := rfl

theorem branch_some (hc : R.next (i :: p) e = some c) :
    R.branch h d p i e = R.owned h d (i :: p) c := by
  rw [branch,hc]
  rfl

theorem branch_none (hc : R.next (i :: p) e = none) : R.branch h d p i e = 0 := by
  rw [branch,hc]
  rfl

theorem self_mem_owned : t ∈ R.owned h d p t := by
  cases d with
  | zero => exact Multiset.mem_singleton_self t
  | succ d => exact Multiset.mem_add.mpr (.inl (Multiset.mem_singleton_self t))

theorem mem_owned_succ : f ∈ R.owned h (d+1) p t ↔ f = t ∨ ∃ i, f ∈ R.branch h d p i (h t i) := by
  rw [owned_succ,Multiset.mem_add,Multiset.mem_singleton,Multiset.mem_sum]
  simp

theorem mem_branch :
    f ∈ R.branch h d p i e ↔ ∃ c, R.next (i :: p) e = some c ∧ f ∈ R.owned h d (i :: p) c := by
  rw [branch]
  cases R.next (i :: p) e with
  | none => simp
  | some c => simp

theorem mem_owned_child (hc : R.next (i :: p) (h t i) = some c) (hf : f ∈ R.owned h d (i :: p) c) :
    f ∈ R.owned h (d+1) p t :=
  mem_owned_succ.mpr (.inr ⟨i,mem_branch.mpr ⟨c,hc,hf⟩⟩)

theorem owned_of_none (hz : ∀ j, R.next (j :: p) (h t j) = none) :
    R.owned h (d+1) p t = {t} := by
  rw [owned_succ,Finset.sum_eq_zero,add_zero]
  exact fun j _ => branch_none (hz j)

theorem owned_congr (hh : ∀ f ∈ R.owned h d p t, h' f = h f) :
    R.owned h' d p t = R.owned h d p t := by
  induction d generalizing p t with
  | zero => rfl
  | succ d ih =>
    rw [owned_succ,owned_succ,hh t self_mem_owned]
    congr 1
    apply sum_congr rfl
    intro i _
    rw [branch,branch]
    cases hc : R.next (i :: p) (h t i) with
    | none => rfl
    | some c => exact ih fun f hf => hh f (mem_owned_child hc hf)

theorem branch_congr (hh : ∀ f ∈ R.branch h d p i e, h' f = h f) :
    R.branch h' d p i e = R.branch h d p i e := by
  cases hc : R.next (i :: p) e with
  | none => rw [branch_none hc,branch_none hc]
  | some c =>
    rw [branch_some hc] at hh
    rw [branch_some hc,branch_some hc,owned_congr hh]

theorem Sane.congr (hh : ∀ f ∈ R.owned h d p t, h' f = h f) (hs : R.Sane h d p t) :
    R.Sane h' d p t := by
  induction d generalizing p t with
  | zero => trivial
  | succ d ih =>
    intro i
    rw [hh t self_mem_owned]
    exact ⟨(hs i).1,fun c hc => ih (fun f hf => hh f (mem_owned_child hc hf)) ((hs i).2 c hc)⟩

theorem find_congr (hq : q.length ≤ d) (hh : ∀ f ∈ R.owned h d p t, h' f = h f) :
    R.find h' p t q = R.find h p t q := by
  induction q generalizing d p t with
  | nil => rfl
  | cons i q ih =>
    obtain ⟨d,rfl⟩ : ∃ e, d = e + 1 := Nat.exists_eq_add_one.mpr (by simp at hq; omega)
    have ht := hh t self_mem_owned
    cases q with
    | nil => rw [find,find,ht]
    | cons j q =>
      rw [find,find,ht]
      cases hc : R.next (i :: p) (h t i) with
      | none => rfl
      | some c =>
        exact ih (by simpa using hq) fun f hf => hh f (mem_owned_child hc hf)

section Slots

variable [DecidableEq ι]

theorem owned_split (i : ι) :
    R.owned h (d+1) p t =
      {t} + R.branch h d p i (h t i) + ∑ j ∈ Finset.univ.erase i, R.branch h d p j (h t j) := by
  rw [owned_succ,← add_sum_erase _ _ (mem_univ i),add_assoc]

/-- When only what hangs below slot `i` changes, the tree changes by just that. -/
theorem owned_slot (hrest : ∀ j, j ≠ i → R.branch h' d p j (h' t j) = R.branch h d p j (h t j)) :
    R.owned h' (d+1) p t + R.branch h d p i (h t i) =
      R.owned h (d+1) p t + R.branch h' d p i (h' t i) := by
  have hsum : ∑ j ∈ Finset.univ.erase i, R.branch h' d p j (h' t j) =
      ∑ j ∈ Finset.univ.erase i, R.branch h d p j (h t j) :=
    sum_congr rfl fun j hj => hrest j (ne_of_mem_erase hj)
  rw [owned_split i,owned_split i,hsum]
  abel

variable {fr : Multiset Nat}

theorem self_notMem_branch (hn : (R.owned h (d+1) p t).Nodup) (i : ι) :
    t ∉ R.branch h d p i (h t i) := by
  rw [owned_split i,add_assoc,nodup_add] at hn
  intro ht
  exact Multiset.disjoint_left.mp hn.2.2 (Multiset.mem_singleton_self t)
    (Multiset.mem_add.mpr (.inl ht))

theorem branch_disjoint (hn : (R.owned h (d+1) p t).Nodup) (hij : j ≠ i) {f : Nat}
    (hf : f ∈ R.branch h d p j (h t j)) : f ∉ R.branch h d p i (h t i) := by
  rw [owned_split i,nodup_add] at hn
  intro hi
  apply disjoint_left.mp hn.2.2 (mem_add.mpr (.inr hi))
  exact mem_sum.mpr ⟨j,mem_erase.mpr ⟨hij,mem_univ j⟩,hf⟩

theorem branch_nodup (hn : (R.owned h (d+1) p t).Nodup) (i : ι) :
    (R.branch h d p i (h t i)).Nodup := by
  rw [owned_split i,nodup_add,nodup_add] at hn
  exact hn.1.2.1

theorem branch_le_owned (i : ι) : R.branch h d p i (h t i) ≤ R.owned h (d+1) p t := by
  rw [owned_split i,add_assoc,add_left_comm]
  exact le_add_right _ _

theorem owned_child_nodup (hn : (R.owned h (d+1) p t + fr).Nodup)
    (hc : R.next (i :: p) (h t i) = some c) : (R.owned h d (i :: p) c + fr).Nodup := by
  rw [← branch_some hc]
  exact nodup_of_le (Multiset.add_le_add_right (branch_le_owned i)) hn

end Slots

section Changes

variable [DecidableEq ι]

/-- A change of the tree below `t` that writes its own tables and free nodes only, sets the value
at the end of path `q`, and takes the nodes `x` in for the nodes `x'` it lets go. -/
structure Local (R : Reader ι Cell Val) (s s' : Store ι Cell) (d : Nat) (p : List ι) (t : Nat)
    (q : List ι) (v : Option Val) (x x' : Multiset Nat) : Prop where
  keeps : ∀ f, f ∉ R.owned s.heap d p t → f ∉ s.free → s'.heap f = s.heap f
  ledger : R.owned s'.heap d p t + s'.free+x' = R.owned s.heap d p t + s.free+x
  sane : R.Sane s.heap d p t → R.Sane s'.heap d p t
  finds : ∀ w, w.length = d →
    R.find s'.heap p t w = if w = q then v else R.find s.heap p t w

variable {s s' s'' : Store ι Cell} {q : List ι} {v : Option Val} {x x' : Multiset Nat}

theorem Local.refl (s : Store ι Cell) (q : List ι) :
    Local R s s d p t q (R.find s.heap p t q) 0 0 where
  keeps _ _ _ := rfl
  ledger := rfl
  sane hs := hs
  finds w _ := by
    by_cases hw : w = q
    · rw [if_pos hw,hw]
    · rw [if_neg hw]

/-- Nodes taken in and let go again do not count. -/
theorem Local.cancel {y : Multiset Nat} (h : Local R s s' d p t q v (x+y) (x'+y)) :
    Local R s s' d p t q v x x' where
  keeps := h.keeps
  ledger := by
    have hl := h.ledger
    rw [← add_assoc,← add_assoc] at hl
    exact add_right_cancel hl
  sane := h.sane
  finds := h.finds

/-- A change that moves no value, followed by another. -/
theorem Local.trans (h1 : Local R s s' d p t q (R.find s.heap p t q) 0 0)
    (h2 : Local R s' s'' d p t q v x x') : Local R s s'' d p t q v x x' where
  keeps f hf hfree := by
    have hmem : f ∉ R.owned s'.heap d p t + s'.free := by
      rw [← add_zero (R.owned s'.heap d p t + s'.free),h1.ledger,add_zero]
      exact fun hm => (mem_add.mp hm).elim hf hfree
    rw [h2.keeps f (fun hm => hmem (mem_add.mpr (.inl hm)))
      (fun hm => hmem (mem_add.mpr (.inr hm))),h1.keeps f hf hfree]
  ledger := by
    have := h1.ledger
    rw [add_zero,add_zero] at this
    rw [h2.ledger,this]
  sane hs := h2.sane (h1.sane hs)
  finds w hw := by
    rw [h2.finds w hw,h1.finds w hw]
    by_cases hwq : w = q
    · rw [if_pos hwq,if_pos hwq]
    · rw [if_neg hwq,if_neg hwq,if_neg hwq]

theorem Local.write {e : Cell} (he : R.ok (i :: p) e) (hfree : s'.free = s.free)
    (hslot : s'.heap t i = e) (hother : ∀ j, j ≠ i → s'.heap t j = s.heap t j)
    (hsame : ∀ f, f ≠ t → s'.heap f = s.heap f) :
    Local R s s' 1 p t [i] (R.val e) (R.branch s.heap 0 p i e)
      (R.branch s.heap 0 p i (s.heap t i)) where
  keeps f hf _ := hsame f fun hft => hf (hft ▸ self_mem_owned)
  ledger := by
    have hrest : ∀ j, j ≠ i → R.branch s'.heap 0 p j (s'.heap t j) =
        R.branch s.heap 0 p j (s.heap t j) := by
      intro j hj
      rw [hother j hj]
      rfl
    have h0 := owned_slot hrest
    rw [hslot] at h0
    have hpage : R.branch s'.heap 0 p i e = R.branch s.heap 0 p i e := rfl
    rw [add_right_comm,h0,hpage,hfree,add_right_comm]
  sane hs j := by
    refine ⟨?_,fun _ _ => trivial⟩
    by_cases hj : j = i
    · rw [hj,hslot]
      exact he
    · rw [hother j hj]
      exact (hs j).1
  finds w hw := by
    obtain ⟨j,rfl⟩ := List.length_eq_one_iff.mp hw
    by_cases hj : j = i
    · rw [hj,if_pos rfl,find,hslot]
    · rw [if_neg fun hji => hj (List.singleton_inj.mp hji),find,find,hother j hj]

/-- A change below one slot is a change of the whole tree. -/
theorem Local.lift (hn : (R.owned s.heap (d+2) p t + s.free).Nodup)
    (hc : R.next (i :: p) (s.heap t i) = some c)
    (hl : Local R s s' (d+1) (i :: p) c q v x x') :
    Local R s s' (d+2) p t (i :: q) v x x' := by
  have hno := nodup_add.mp hn
  have hfree {f : Nat} (hf : f ∈ R.owned s.heap (d+2) p t) : f ∉ s.free :=
    fun hff => disjoint_left.mp hno.2.2 hf hff
  have ht : s'.heap t = s.heap t := by
    apply hl.keeps t
    · rw [← branch_some hc]
      exact self_notMem_branch hno.1 i
    · exact hfree self_mem_owned
  have hbelow {j : ι} (hj : j ≠ i) {f : Nat} (hf : f ∈ R.branch s.heap (d+1) p j (s.heap t j)) :
      s'.heap f = s.heap f := by
    apply hl.keeps f
    · rw [← branch_some hc]
      exact branch_disjoint hno.1 hj hf
    · exact hfree (mem_of_le (branch_le_owned j) hf)
  refine ⟨?_,?_,?_,?_⟩
  · intro f hf hff
    exact hl.keeps f (fun hm => hf (mem_owned_child hc hm)) hff
  · have hslot : R.owned s'.heap (d+2) p t + R.owned s.heap (d+1) (i :: p) c =
        R.owned s.heap (d+2) p t + R.owned s'.heap (d+1) (i :: p) c := by
      have hrest : ∀ j, j ≠ i → R.branch s'.heap (d+1) p j (s'.heap t j) =
          R.branch s.heap (d+1) p j (s.heap t j) := by
        intro j hj
        rw [ht]
        exact branch_congr fun f hf => hbelow hj hf
      have h0 := owned_slot hrest
      rwa [ht,branch_some hc,branch_some hc] at h0
    apply add_right_cancel
    calc R.owned s'.heap (d+2) p t + s'.free+x' + R.owned s.heap (d+1) (i :: p) c
        = R.owned s'.heap (d+2) p t + R.owned s.heap (d+1) (i :: p) c + s'.free + x' := by
          abel
      _ = R.owned s.heap (d+2) p t + (R.owned s'.heap (d+1) (i :: p) c + s'.free+x') := by
          rw [hslot]
          abel
      _ = R.owned s.heap (d+2) p t + s.free+x + R.owned s.heap (d+1) (i :: p) c := by
          rw [hl.ledger]
          abel
  · intro hs j
    rw [ht]
    refine ⟨(hs j).1,fun b hb => ?_⟩
    by_cases hj : j = i
    · subst hj
      rw [hc] at hb
      cases hb
      exact hl.sane ((hs j).2 c hc)
    · exact ((hs j).2 b hb).congr fun f hf => hbelow hj (mem_branch.mpr ⟨b,hb,hf⟩)
  · intro w hw
    match w, hw with
    | j :: k :: w, hw =>
      rw [find,find,ht]
      by_cases hj : j = i
      · subst hj
        rw [hc,bind_some,bind_some,hl.finds (k :: w) (by simpa using hw)]
        by_cases hk : k :: w = q
        · rw [if_pos hk,if_pos (by rw [hk])]
        · rw [if_neg hk,if_neg fun hjk => hk (List.cons_inj_right j |>.mp hjk)]
      rw [if_neg fun hji => hj (List.cons.inj hji).1]
      cases hb : R.next (j :: p) (s.heap t j) with
      | none => rfl
      | some b =>
        exact find_congr (by simpa using hw.le) fun f hf =>
          hbelow hj (mem_branch.mpr ⟨b,hb,hf⟩)

/-- A free node, made a bare table and hung below an empty slot. -/
theorem Local.link {f : Nat} {e : Cell} (hn : (R.owned s.heap (d+2) p t + s.free).Nodup)
    (hfr : s.free = {f} + s'.free) (hold : R.next (i :: p) (s.heap t i) = none)
    (hnew : R.next (i :: p) e = some f) (he : R.ok (i :: p) e) (hz : R.Bare (i :: p) (s'.heap f))
    (hslot : s'.heap t i = e) (hother : ∀ j, j ≠ i → s'.heap t j = s.heap t j)
    (hsame : ∀ g, g ≠ t → g ≠ f → s'.heap g = s.heap g) (q : List ι) :
    Local R s s' (d+2) p t q (R.find s.heap p t q) 0 0 := by
  have hno := nodup_add.mp hn
  have hf : f ∈ s.free := by
    rw [hfr]
    exact Multiset.mem_add.mpr (.inl (Multiset.mem_singleton_self f))
  have hbelow {j : ι} {g : Nat} (hg : g ∈ R.branch s.heap (d+1) p j (s.heap t j)) :
      s'.heap g = s.heap g := by
    apply hsame
    · rintro rfl
      exact self_notMem_branch hno.1 j hg
    · rintro rfl
      exact disjoint_left.mp hno.2.2 (mem_of_le (branch_le_owned j) hg) hf
  refine ⟨?_,?_,?_,?_⟩
  · intro g hg hgf
    exact hsame g (fun hgt => hg (hgt ▸ self_mem_owned)) (fun h0 => hgf (h0 ▸ hf))
  · have hrest : ∀ j, j ≠ i → R.branch s'.heap (d+1) p j (s'.heap t j) =
        R.branch s.heap (d+1) p j (s.heap t j) := by
      intro j hj
      rw [hother j hj]
      exact branch_congr fun g hg => hbelow hg
    have h0 := owned_slot hrest
    rw [hslot,branch_none hold,branch_some hnew,owned_of_none hz.next,add_zero] at h0
    rw [h0,hfr]
    abel
  · intro hs j
    by_cases hj : j = i
    · subst hj
      rw [hslot]
      refine ⟨he,fun b hb => ?_⟩
      rw [hnew] at hb
      cases hb
      exact hz.sane
    · rw [hother j hj]
      exact ⟨(hs j).1,fun b hb => ((hs j).2 b hb).congr fun g hg =>
        hbelow (mem_branch.mpr ⟨b,hb,hg⟩)⟩
  · intro w hw
    have hmain : R.find s'.heap p t w = R.find s.heap p t w := by
      match w, hw with
      | j :: k :: w, hw =>
        rw [find,find]
        by_cases hj : j = i
        · subst hj
          rw [hslot,hold,hnew,bind_some,bind_none,hz.find]
        rw [hother j hj]
        cases hb : R.next (j :: p) (s.heap t j) with
        | none => rfl
        | some b =>
          exact find_congr (by simpa using hw.le) fun g hg => hbelow (mem_branch.mpr ⟨b,hb,hg⟩)
    rw [hmain]
    by_cases hwq : w = q
    · rw [if_pos hwq,hwq]
    · rw [if_neg hwq]

end Changes

/-- Trees of depth `d` with no node in common: together with the free nodes and the nodes in
nobody's tree they make up the pool. -/
structure Forest (R : Reader ι Cell Val) (d : Nat) (pool : Finset Nat) (s : Store ι Cell)
    (roots : Finset Nat) (lost : Multiset Nat) : Prop where
  ledger : ∑ r ∈ roots, R.owned s.heap d [] r + s.free+lost = pool.val
  sane : ∀ r ∈ roots, R.Sane s.heap d [] r

section Forests

variable {pool roots : Finset Nat} {s s' : Store ι Cell} {lost x x' : Multiset Nat} {r : Nat}

section Trees

variable (hf : R.Forest d pool s roots lost)
include hf

variable {f : Nat}

theorem Forest.mem_pool_of_owned (hr : r ∈ roots) (hm : f ∈ R.owned s.heap d [] r) : f ∈ pool := by
  rw [← mem_val,← hf.ledger]
  exact mem_add.mpr (.inl (mem_add.mpr (.inl (mem_sum.mpr ⟨r,hr,hm⟩))))

theorem Forest.mem_pool_of_free (hm : f ∈ s.free) : f ∈ pool := by
  rw [← mem_val,← hf.ledger]
  exact mem_add.mpr (.inl (mem_add.mpr (.inr hm)))

theorem Forest.split (hr : r ∈ roots) :
    R.owned s.heap d [] r + ∑ u ∈ roots.erase r, R.owned s.heap d [] u + s.free+lost =
      pool.val := by
  rw [add_sum_erase roots (fun u => R.owned s.heap d [] u) hr]
  exact hf.ledger

theorem Forest.nodup (hr : r ∈ roots) : (R.owned s.heap d [] r + s.free).Nodup := by
  have hsum : R.owned s.heap d [] r + s.free +
      (∑ u ∈ roots.erase r, R.owned s.heap d [] u + lost) = pool.val := by
    rw [← hf.split hr]
    abel
  exact nodup_of_le (hsum ▸ le_add_right _ _) pool.nodup

theorem Forest.apart (hr : r ∈ roots) {u : Nat} (hu : u ∈ roots) (hur : u ≠ r)
    (hm : f ∈ R.owned s.heap d [] u) : f ∉ R.owned s.heap d [] r ∧ f ∉ s.free := by
  have hsum : ∑ u ∈ roots.erase r, R.owned s.heap d [] u + (R.owned s.heap d [] r + s.free) +
      lost = pool.val := by
    rw [← hf.split hr]
    abel
  have hno := nodup_of_le (hsum ▸ le_add_right _ _) pool.nodup
  have hd := disjoint_left.mp (nodup_add.mp hno).2.2
    (mem_sum.mpr ⟨u,mem_erase.mpr ⟨hur,hu⟩,hm⟩)
  exact ⟨fun h0 => hd (mem_add.mpr (.inl h0)),
    fun h0 => hd (mem_add.mpr (.inr h0))⟩

end Trees

/-- A change of one tree, paid for with nodes in nobody's tree. -/
theorem Forest.change [DecidableEq ι] {q : List ι} {v : Option Val}
    (hf : R.Forest d pool s roots (x+lost)) (hr : r ∈ roots)
    (hl : R.Local s s' d [] r q v x x') : R.Forest d pool s' roots (x'+lost) := by
  have hother {u : Nat} (hu : u ∈ roots) (hur : u ≠ r) :
      ∀ f ∈ R.owned s.heap d [] u, s'.heap f = s.heap f := by
    intro f hm
    obtain ⟨h1,h2⟩ := hf.apart hr hu hur hm
    exact hl.keeps f h1 h2
  constructor
  · have hsum : ∑ u ∈ roots.erase r, R.owned s'.heap d [] u =
        ∑ u ∈ roots.erase r, R.owned s.heap d [] u := by
      apply sum_congr rfl
      intro u hu
      exact owned_congr (hother (Finset.mem_of_mem_erase hu) (Finset.ne_of_mem_erase hu))
    rw [← add_sum_erase roots (fun u => R.owned s'.heap d [] u) hr,hsum,← hf.split hr]
    calc R.owned s'.heap d [] r + ∑ u ∈ roots.erase r, R.owned s.heap d [] u + s'.free +
          (x'+lost)
        = R.owned s'.heap d [] r + s'.free+x' +
          (∑ u ∈ roots.erase r, R.owned s.heap d [] u + lost) := by abel
      _ = R.owned s.heap d [] r + ∑ u ∈ roots.erase r, R.owned s.heap d [] u + s.free +
          (x+lost) := by
        rw [hl.ledger]
        abel
  · intro u hu
    by_cases hur : u = r
    · rw [hur]
      exact hl.sane (hf.sane r hr)
    · exact (hf.sane u hu).congr (hother hu hur)

theorem Forest.take (hf : R.Forest d pool s roots lost) (hfree : s.free = x+s'.free)
    (hk : ∀ f, f ∉ s.free → s'.heap f = s.heap f) : R.Forest d pool s' roots (x+lost) := by
  have hsame {u : Nat} (hu : u ∈ roots) : ∀ f ∈ R.owned s.heap d [] u, s'.heap f = s.heap f := by
    intro f hm
    apply hk
    exact fun h0 => disjoint_left.mp (nodup_add.mp (hf.nodup hu)).2.2 hm h0
  constructor
  · rw [sum_congr rfl fun u hu => owned_congr (hsame hu),← hf.ledger,hfree]
    abel
  · intro u hu
    exact (hf.sane u hu).congr (hsame hu)

theorem Forest.give (hf : R.Forest d pool s roots (x+lost)) (hfree : s'.free = x+s.free)
    (hheap : s'.heap = s.heap) : R.Forest d pool s' roots lost := by
  constructor
  · rw [← hf.ledger,hfree,hheap]
    abel
  · rw [hheap]
    exact hf.sane

theorem Forest.plant (hf : R.Forest d pool s roots (R.owned s.heap d [] r + lost))
    (hs : R.Sane s.heap d [] r) : r ∉ roots ∧ R.Forest d pool s (insert r roots) lost := by
  have hnew : r ∉ roots := by
    intro hr
    have hsum := hf.split hr
    have hle : R.owned s.heap d [] r + R.owned s.heap d [] r ≤ pool.val := by
      rw [← hsum]
      apply le_iff_exists_add.mpr
      exact ⟨∑ u ∈ roots.erase r, R.owned s.heap d [] u + s.free+lost,by abel⟩
    have hno := nodup_add.mp (nodup_of_le hle pool.nodup)
    exact disjoint_left.mp hno.2.2 self_mem_owned self_mem_owned
  refine ⟨hnew,?_,?_⟩
  · rw [sum_insert hnew,← hf.ledger]
    abel
  · intro u hu
    rcases mem_insert.mp hu with rfl | hu
    · exact hs
    · exact hf.sane u hu

theorem Forest.uproot (hf : R.Forest d pool s roots lost) (hr : r ∈ roots) :
    R.Forest d pool s (roots.erase r) (R.owned s.heap d [] r + lost) := by
  constructor
  · rw [← hf.split hr]
    abel
  · intro u hu
    exact hf.sane u (Finset.mem_of_mem_erase hu)

end Forests

attribute [irreducible] owned

end Reader

end Lariat.Foundation.TableTree
