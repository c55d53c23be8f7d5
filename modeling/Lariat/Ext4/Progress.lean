import Lariat.Ext4.Memory
import Lariat.Ext4.SortedInsertion

/-! When an insertion into an extent tree goes through: the allocator has the blocks, and
deepening the root makes room where the run belongs; and what it does to the mapping of the
inode. -/
namespace Lariat.Ext4
open Foundation.BlockTree List Option Nat

section

variable {g : Geometry} {d d' : Fs} {ino ino' : Inode} {root : Node} {H : Nat} {t : Tree Extent H}
  {x : Extent} {lblk : Nat}

/-- A run that went into the tree is found there, and every other block where it was. -/
theorem Grafted.mapping_eq {H' : Nat} {t' : Tree Extent H'} {fresh : List Nat}
    (hg : Grafted g x d ino t d' ino' t' fresh) (hr : Rooted g d ino.root H t) (hH : H < 8)
    (lblk : Nat) :
    mapping d' ino' lblk =
      if x.Covers lblk then some (x.start+(lblk-x.block)) else mapping d ino lblk := by
  have h8 : 8 < descentMax := by decide
  rw [hg.rooted.mapping_eq (lt_trans hg.height h8),hr.mapping_eq (lt_trans hH h8),
    hg.inserted.lookup_eq hr.sorted hg.rooted.sorted,apply_ite some]

/-- An inode with one extent, at logical block 5, two levels below its root. -/
def deepInode : Inode := { root := { max := rootMax, depth := 2, index := [⟨5,4⟩] } }

def deepTree : Tree Extent 2 := inner [(4,inner [(6,leaf [⟨5,1,10⟩])])]

def deepVolume : Fs := (smallVolume.put 4 (nodeBlock smallGeometry 1 (inner [(6,leaf [⟨5,1,10⟩])]))).put 6
  (nodeBlock smallGeometry 0 (leaf [⟨5,1,10⟩]))

theorem deepTree_wellFormed : WellFormed smallGeometry deepVolume deepInode.root 2 deepTree where
  root := rfl
  stored := (stored_inner _).mpr (forall_mem_singleton.mpr ⟨rfl,
    (stored_inner _).mpr (forall_mem_singleton.mpr ⟨rfl,trivial⟩)⟩)
  full := .inr (full_inner.mpr ⟨cons_ne_nil _ _,forall_mem_singleton.mpr
    (full_inner.mpr ⟨cons_ne_nil _ _,forall_mem_singleton.mpr (cons_ne_nil _ _)⟩)⟩)
  sorted := sorted_cons.mpr ⟨⟨by decide,by decide⟩,sorted_nil,by simp⟩
  nodup := (by decide : [4,6].Nodup)
  held := (by decide : ∀ b ∈ [4,6], b ≠ 0 ∧ decide (b < 10) = true)
  capped := capped_inner.mpr ⟨by decide,forall_mem_singleton.mpr
    (capped_inner.mpr ⟨by decide,forall_mem_singleton.mpr (by decide : 1 ≤ 84)⟩)⟩

end

variable {g : Geometry} {d d' : Fs} {ino : Inode} {root : Node} {h H : Nat} {x : Extent}
  {es : List Extent}

/-! ### Steps that have the blocks they ask for -/

theorem store_done (hd : Calm d) (ino : Inode) (f : Frame) : (store ino d f).1 = true := by
  rw [store]
  split
  · rfl
  · rw [hd.writeBlock]

theorem makeSpine_done (n lblk depth child : Nat) (ino : Inode) (hd : Calm d)
    (hs : Supplies g n d) :
    ∃ c ino' d', makeSpine g lblk n depth child ino d = (some c,ino',d') ∧ Calm d' := by
  induction n generalizing depth child ino d with
  | zero => exact ⟨child,ino,d,rfl,hd⟩
  | succ n ih =>
    have ht := allocBlock_took hd hs.1
    rw [makeSpine,newNode_eq ino hd,if_neg hs.1]
    exact ih _ _ _ (ht.calm.put _ _) (hs.2.put ht.calm _ _)

theorem linkSpine_done (m : Nat) (p : Frame) (hd : Calm d) (hs : Supplies g (m+1) d) :
    (linkSpine g m p ino d x).1 = true := by
  have ht := allocBlock_took hd hs.1
  rw [linkSpine,newNode_eq ino hd,if_neg hs.1]
  obtain ⟨c,ino',d',hspine,hd'⟩ := makeSpine_done m x.block 1 (allocBlock g d).1 (ino.charge g 1)
    (ht.calm.put _ _) (hs.2.put ht.calm _ (.node { max := blockMax g, depth := 0, extents := [x] }))
  dsimp only
  rw [hspine]
  exact store_done hd' ino' _

theorem splitLeaf_done (f parent : Frame) (above : List Frame) (ino : Inode) (x : Extent)
    (hd : Calm d)
    (h0 : (allocBlock g d).1 ≠ 0) : (splitLeaf g f parent above ino d x).1 = true := by
  have hcalm := (allocBlock_granted (g := g) hd).calm
  rcases halloc : allocBlock g d with ⟨c,d1⟩
  rw [halloc] at hcalm h0
  simp only [splitLeaf,halloc]
  rw [if_neg h0,hcalm.kzalloc]

theorem growAndRetry_eq {t : Tree Extent H} (again : Inode → Fs → Bool × Inode × Fs) (hd : Calm d)
    (hr : Rooted g d ino.root H t) (hf : Full H t) (h0 : (allocBlock g d).1 ≠ 0) :
    ∃ ino' d' c, growAndRetry g ino d again = again ino' d' ∧ Took g d d' [c] ∧
      ino' = { ino.charge g 1 with root := content rootMax (H+1) (inner [(c,t)]) } ∧
      Rooted g d' ino'.root (H+1) (inner [(c,t)]) := by
  obtain ⟨ino',d',c,h1,h2,h3,h4⟩ := growDepth_spec hd hr hf h0
  exact ⟨ino',d',c,by rw [growAndRetry,h1],h2,h3,h4⟩

/-! ### Append -/

variable (g) in
/-- A node on the right edge has a free slot, or the run joins the last record. -/
def EdgeRoom (t : Tree Extent H) (x : Extent) : Prop :=
  ¬ Saturated (blockMax g) rootMax H t ∨ ∃ l ∈ (flat H t).getLast?, joins l x = true

theorem edgeRoom_grown (c : Nat) (t : Tree Extent H) : EdgeRoom g (inner [(c,t)]) x :=
  .inl fun h => absurd h.1 (show ¬ rootMax ≤ 1 by decide)

theorem appendLeaf_none {mx : Nat} (h : appendLeaf mx es x = none) :
    ∀ l ∈ es.getLast?, joins l x = false := by
  intro l hl
  rw [appendLeaf] at h
  split at h
  · cases h
  · rename_i hnone
    simpa using filter_eq_none_iff.mp hnone l hl

/-- Growth is the last resort: the right edge is full. -/
theorem not_edgeRoom {D : Ctx Extent H 0} (hE : D.Edge)
    (hnone : appendLeaf (nodeMax g D) es x = none)
    (hS : Saturated (blockMax g) rootMax H (D.plug (leaf es))) :
    ¬ EdgeRoom g (D.plug (leaf es)) x := by
  rintro (hn | ⟨l,hl,hj⟩)
  · exact hn hS
  · have hlen := le_trans (four_le_nodeMax D) (appendLeaf_full hnone)
    have hne : es ≠ [] := ne_nil_of_length_pos (by omega)
    rw [Ctx.flat_plug,hE.right_eq,append_nil,flat_leaf,getLast?_append_of_ne_nil _ hne] at hl
    rw [appendLeaf_none hnone l hl] at hj
    cases hj

section Append

variable {t : Tree Extent H}

variable (g) in
/-- What an append with room on the right edge makes of the tree. -/
inductive Appended (x : Extent) : Tree Extent H → Tree Extent H → Prop
  | inLeaf {D : Ctx Extent H 0} {es es' : List Extent} : D.Edge →
      appendLeaf (nodeMax g D) es x = some es' → Appended x (D.plug (leaf es)) (D.plug (leaf es'))
  | inChild {m c : Nat} {U : Ctx Extent H (m+1)} {cs : List (Nat × Tree Extent m)}
      {t : Tree Extent m} : U.Edge →
      (∀ y ∈ cs.getLast?, Saturated (blockMax g) (blockMax g) m y.2) → Capped 1 1 m t →
      flat m t = [x] → Appended x (U.plug (inner cs)) (U.plug (inner (cs ++ [(c,t)])))

section

variable (calls : Nat) (hd : Calm d) (hr : Rooted g d ino.root H t) (hx : x.Sane)
  (hlen : x.len ≤ 32768) (hH : H+1 < 8)
include hd hr hx hlen hH

theorem extentAppendFrom_room (hb : ∀ e ∈ flat H t, e.Before x) (hs : Supplies g H d)
    (hroom : EdgeRoom g t x) : ∃ ino' d', ∃ t' : Tree Extent H, ∃ fresh,
      extentAppendFrom g (calls+1) ino d x = (true,ino',d') ∧
      Grafted g x d ino t d' ino' t' fresh ∧ Appended g x t t' := by
  obtain ⟨D,es,rfl,hE,hw⟩ := hr.walkRight_eq hd
  have hH8 : H < 8 := lt_of_succ_lt hH
  have hstep := extentAppendFrom_step calls hr hE hw hx.1 hlen hH
  generalize extentAppendFrom g (calls+1) ino d x = r at hstep ⊢
  cases hstep with
  | leaf h =>
    obtain ⟨ino',d',hstore,hg⟩ := appendLeaf_grafted hd hr hH8 hE.right_eq hb hx h
    exact ⟨ino',d',_,_,hstore,hg,.inLeaf hE h⟩
  | @spine m U cs pos _ h2 h3 h4 h5 =>
    have hdone : (linkSpine g m (frameAt g U (inner cs) pos) ino d x).1 = true :=
      linkSpine_done m _ hd (hs.mono U.height_le)
    rw [← h2] at hr hb ⊢
    rcases linkSpine_spec hr hH8 h3.right_eq hb hx h4 hd pos with
      ⟨ino',d',hl,-⟩ | ⟨ino',d',c,t,hl,hthin,hflat,hg⟩
    · rw [hl] at hdone
      cases hdone
    · exact ⟨ino',d',_,_,hl,hg,.inChild h3 h5 hthin hflat⟩
  | grow h1 h2 => exact absurd hroom (not_edgeRoom hE h1 h2)

theorem extentAppendFrom_grow (h0 : (allocBlock g d).1 ≠ 0) (hroom : ¬ EdgeRoom g t x) :
    ∃ ino' d' c, extentAppendFrom g (calls+1) ino d x = extentAppendFrom g calls ino' d' x ∧
      Took g d d' [c] ∧
      ino' = { ino.charge g 1 with root := content rootMax (H+1) (inner [(c,t)]) } ∧
      Rooted g d' ino'.root (H+1) (inner [(c,t)]) := by
  obtain ⟨hS,hj⟩ := not_or.mp hroom
  rw [not_not] at hS
  obtain ⟨D,es,rfl,hE,hw⟩ := hr.walkRight_eq hd
  have hes : nodeMax g D ≤ es.length := by
    have := hE.saturated hS
    rwa [← nodeMax_eq_capAt] at this
  have hne : es ≠ [] := ne_nil_of_length_pos (by have := four_le_nodeMax (g := g) D; omega)
  have hflat : flat H (D.plug (leaf es)) ≠ [] := by simp [Ctx.flat_plug,hne]
  have hstep := extentAppendFrom_step calls hr hE hw hx.1 hlen hH
  generalize extentAppendFrom g (calls+1) ino d x = r at hstep ⊢
  cases hstep with
  | leaf h =>
    rw [appendLeaf] at h
    split at h
    · rename_i l hl
      obtain ⟨hl,hlx⟩ := filter_eq_some_iff.mp hl
      refine absurd ⟨l,?_,hlx⟩ hj
      rw [Ctx.flat_plug,hE.right_eq,append_nil,flat_leaf,getLast?_append_of_ne_nil _ hne]
      exact hl
    · rw [if_neg (not_lt.mpr hes)] at h
      cases h
  | spine _ h2 h3 h4 _ =>
    rw [← h2] at hS
    rw [nodeMax_eq_capAt] at h4
    exact absurd (h3.saturated hS).1 (not_le.mpr h4)
  | grow _ _ => exact growAndRetry_eq _ hd hr (hr.full_of_flat hflat) h0

end

/-- A tree that `ext4_extent_append` can still append to: the path of a deeper tree would be
too long for the driver. -/
def AppendFits (g : Geometry) (t : Tree Extent H) (x : Extent) : Prop :=
  H ≤ 5 ∨ H = 6 ∧ EdgeRoom g t x

theorem extentAppendFrom_deep (calls : Nat) (hr : Rooted g d ino.root H t) (hx : x.Sane)
    (hH : 7 ≤ H) : (extentAppendFrom g calls ino d x).1 = false := by
  cases calls with
  | zero => rfl
  | succ calls =>
    rw [extentAppendFrom,if_neg (not_not.mpr hr.magic),if_neg (ne_of_gt hx.1),hr.root,
      content_depth]
    split
    · rfl
    · rw [if_pos (by omega)]

theorem extentAppend_done_iff (hd : Calm d) (hr : Rooted g d ino.root H t)
    (hb : ∀ e ∈ flat H t, e.Before x) (hx : x.Sane) (hlen : x.len ≤ 32768)
    (hs : Supplies g (H+2) d) :
    ((extentAppend g ino d x).1 = true ∧ (extentAppend g ino d x).2.1.root.depth ≤ H+1) ↔
      AppendFits g t x := by
  rw [extentAppend]
  rcases lt_or_ge H 7 with hH | hH
  · by_cases hroom : EdgeRoom g t x
    · obtain ⟨ino',d',t',fresh,heq,hg,-⟩ := extentAppendFrom_room 7 hd hr hx hlen (by omega) hb
        (hs.mono (Nat.le_add_right ..)) hroom
      rw [heq]
      refine iff_of_true ⟨rfl,hg.depth.trans_le (le_succ H)⟩ ?_
      rcases lt_or_ge H 6 with h6 | h6
      · exact .inl (by omega)
      · exact .inr ⟨by omega,hroom⟩
    · obtain ⟨ino1,d1,c,heq,ht,-,hr1⟩ := extentAppendFrom_grow 7 hd hr hx hlen (by omega) hs.1 hroom
      rw [heq]
      rcases lt_or_ge H 6 with h6 | h6
      · obtain ⟨ino',d',t',fresh,heq,hg,-⟩ := extentAppendFrom_room 6 ht.calm hr1 hx hlen
          (by omega) (by simpa using hb) (ht.supply _ hs) (edgeRoom_grown c t)
        rw [heq]
        exact iff_of_true ⟨rfl,hg.depth.le⟩ (.inl (by omega))
      refine iff_of_false (fun h => ?_) ?_
      · rw [extentAppendFrom_deep 7 hr1 hx (by omega)] at h
        cases h.1
      · rintro (h5 | ⟨-,h⟩)
        · omega
        · exact hroom h
  · refine iff_of_false (fun h => ?_) ?_
    · rw [extentAppendFrom_deep 8 hr hx hH] at h
      cases h.1
    · rintro (h5 | ⟨h5,-⟩) <;> omega

end Append

/-! ### Sorted insertion -/

section Map

variable {t : Tree Extent H} {D : Ctx Extent H 0}

theorem Place.full_of_crowded (hp : Place g x.block t D es) (hr : Rooted g d root H t)
    (hfull : ¬ LeafTakes (nodeMax g D) es x) : Full H t := by
  have hne : es ≠ [] := ne_nil_of_length_pos (by have := four_le_of_full hfull; omega)
  refine hr.full_of_flat ?_
  rw [← hp.plug,Ctx.flat_plug]
  simp [hne]

/-- A place in the blocks of the volume where neither the leaf nor its parent has room. A new
root does not change that: it lies above them both. -/
def Stuck (g : Geometry) (x : Extent) (D : Ctx Extent H 0) (es : List Extent) : Prop :=
  ∃ b pre post b' pre' post', ∃ up : Ctx Extent H 2,
    D = .step b pre post (.step b' pre' post' up) ∧ ¬ LeafTakes (blockMax g) es x ∧
      blockMax g ≤ pre.length+1+post.length

theorem Stuck.grown (hs : Stuck g x D es) (c : Nat) :
    Stuck g x ((Ctx.step c [] [] (.top : Ctx Extent (H+1) (H+1))).comp D) es := by
  obtain ⟨b,pre,post,b',pre',post',up,rfl,h1,h2⟩ := hs
  exact ⟨b,pre,post,b',pre',post',_,rfl,h1,h2⟩

/-- The path of the run in the tree of the inode ends at a leaf that takes the run, or below
an index node with a free slot, or in a tree so low that a new root gives such a slot. -/
def MapFits (g : Geometry) (ino : Inode) (d : Fs) (x : Extent) : Prop :=
  ino.root.depth ≤ 6 ∧ ∃ f above d',
    walkTo x.block ino.root.depth d ⟨0,ino.root,0⟩ [] = (some (f,above),d') ∧
    (LeafTakes (f.capacity g) f.node.extents x ∨ ino.root.depth ≤ 1 ∨
      ∃ p ∈ above.head?, p.node.entries < p.capacity g)

theorem parentRoom_iff (hr : Rooted g d root H (D.plug (leaf es))) :
    (∃ p ∈ (frames g D (leaf es)).head?, p.node.entries < p.capacity g) ↔ ParentRoom g D := by
  cases D with
  | top => simp [frames,ParentRoom]
  | step b pre post up =>
    have hlen : (frameAt g up (inner (pre ++ (b,leaf es) :: post)) pre.length).node.entries =
        pre.length+1+post.length := by
      simp [frameAt,Node.entries]
      omega
    have hcap := frameAt_capacity (g := g) (inner (pre ++ (b,leaf es) :: post)) pre.length
      (forall_mem_cons.mp hr.spine_ne_zero).2
    simp only [frames,head?_cons,mem_some_iff,exists_eq_left',hlen,hcap,ParentRoom]

variable (hd : Calm d) (hr : Rooted g d ino.root H t) (hp : Place g x.block t D es)
include hd hr hp

/-- A run goes through where its leaf takes it or the parent can link one more leaf. -/
theorem extentMapLoop_room (attempts : Nat) (ha : Apart x (flat H t)) (hx : x.Sane) (hH : H+1 < 8)
    (h0 : (allocBlock g d).1 ≠ 0) (hroom : LeafTakes (nodeMax g D) es x ∨ ParentRoom g D) :
    (extentMapLoop g (attempts+1) ino d x).1 = true ∧
      (extentMapLoop g (attempts+1) ino d x).2.1.root.depth = H := by
  have hplug := hp.plug
  subst hplug
  have hH8 : H < 8 := lt_of_succ_lt hH
  have hstep := extentMapLoop_step attempts hr (hr.walkTo_eq hd hp.leads) hH
  generalize extentMapLoop g (attempts+1) ino d x = r at hstep ⊢
  cases hstep with
  | leaf htakes => exact ⟨rfl,(mapLeaf_insertion hd hr hp hH8 hx ha htakes).depth rfl⟩
  | @split b pre post up hfull hD hlt =>
    have h4 := four_le_of_full hfull
    subst hD
    have hi := splitLeaf_insertion hr hp hH8 hx ha hlt hd (by omega)
    have hdone := splitLeaf_done (frameAt g (.step b pre post up) (leaf es) 0)
      (frameAt g up (inner (pre ++ (b,leaf es) :: post)) pre.length)
      (frames g up (inner (pre ++ (b,leaf es) :: post))) ino x hd h0
    exact ⟨hdone,hi.depth hdone⟩
  | grow hfull hno => exact absurd hroom (not_or.mpr ⟨hfull,hno⟩)

/-- Where there is no such room the root grows, and the loop tries again. -/
theorem extentMapLoop_grow (attempts : Nat) (hH : H+1 < 8)
    (hfull : ¬ LeafTakes (nodeMax g D) es x) (hno : ¬ ParentRoom g D) :
    extentMapLoop g (attempts+1) ino d x =
      growAndRetry g ino d fun ino d => extentMapLoop g attempts ino d x := by
  obtain ⟨rfl,-,-,hleads⟩ := hp
  have hstep := extentMapLoop_step attempts hr (hr.walkTo_eq hd hleads) hH
  generalize extentMapLoop g (attempts+1) ino d x = r at hstep ⊢
  cases hstep with
  | leaf htakes => exact absurd htakes hfull
  | split _ hD hlt =>
    subst hD
    exact absurd hlt hno
  | grow _ _ => rfl

/-- From such a place the retry loop never gets away. -/
theorem extentMapLoop_stuck (attempts : Nat) (hs : Stuck g x D es) :
    (extentMapLoop g attempts ino d x).1 = false := by
  induction attempts generalizing ino d H with
  | zero => rfl
  | succ attempts ih =>
    by_cases hH : H+1 < 8
    · obtain ⟨b,pre,post,b',pre',post',up,hD,hfull,hlen⟩ := id hs
      have hfull' : ¬ LeafTakes (nodeMax g D) es x := by
        rw [hD]
        exact hfull
      have hno : ¬ ParentRoom g D := by
        rw [hD]
        exact not_lt.mpr hlen
      rw [extentMapLoop_grow hd hr hp attempts hH hfull' hno]
      by_cases h0 : (allocBlock g d).1 = 0
      · rw [growAndRetry,growDepth_eq hd hr (hp.full_of_crowded hr hfull'),if_pos h0]
      · obtain ⟨ino1,d1,c,heq,ht,-,hr1⟩ := growAndRetry_eq
          (fun ino d => extentMapLoop g attempts ino d x) hd hr (hp.full_of_crowded hr hfull') h0
        rw [heq]
        exact ih ht.calm hr1 (hp.grown c) (hs.grown c)
    · rw [extentMapLoop,hr.root,content_depth,if_pos (by omega)]

theorem mapFits_iff :
    MapFits g ino d x ↔ H ≤ 6 ∧ (LeafTakes (nodeMax g D) es x ∨ H ≤ 1 ∨ ParentRoom g D) := by
  have hdepth : ino.root.depth = H := by rw [hr.root,content_depth]
  have hw := hr.walkTo_eq hd hp.leads
  obtain ⟨rfl,-,-,-⟩ := hp
  rw [← parentRoom_iff hr]
  have hcap := frameAt_capacity (g := g) (leaf es) 0 hr.spine_ne_zero
  rw [MapFits,hw,hdepth]
  constructor
  · rintro ⟨h6,f,above,d',heq,h⟩
    cases heq
    rw [hcap] at h
    exact ⟨h6,h⟩
  · rintro ⟨h6,h⟩
    refine ⟨h6,_,_,_,rfl,?_⟩
    rw [hcap]
    exact h

theorem extentMapLoop_low (hcap : Capped (blockMax g) rootMax H t) (ha : Apart x (flat H t))
    (hx : x.Sane) (hH : H ≤ 1) (hs : Supplies g 2 d) (hfull : ¬ LeafTakes (nodeMax g D) es x) (hno : ¬ ParentRoom g D) (attempts : Nat) :
    (extentMapLoop g (attempts+2) ino d x).1 = true ∧
      (extentMapLoop g (attempts+2) ino d x).2.1.root.depth = H+1 := by
  have h84 : rootMax < blockMax g := by
    have := g.blockSize_ge
    simp only [rootMax,blockMax]
    omega
  rw [extentMapLoop_grow hd hr hp (attempts+1) (by omega) hfull hno]
  obtain ⟨ino1,d1,c,heq,ht,-,hr1⟩ := growAndRetry_eq
    (fun ino d => extentMapLoop g (attempts+1) ino d x) hd hr (hp.full_of_crowded hr hfull) hs.1
  rw [heq]
  refine extentMapLoop_room ht.calm hr1 (hp.grown c) attempts (by simpa using ha) hx (by omega)
    (ht.supply 1 hs).1 ?_
  rw [← hp.plug] at hcap
  cases D with
  | top => exact .inl (.inl (lt_of_le_of_lt hcap h84))
  | step b pre post up =>
    cases up with
    | top =>
      obtain ⟨-,hlen,-⟩ := Ctx.capped_plug.mp hcap
      exact .inr (lt_of_le_of_lt hlen h84)
    | step b' pre' post' up' => exact absurd up'.height_le (by omega)

omit hr hp in
theorem extentMap_done_iff (hw : WellFormed g d ino.root H t)
    (ha : Apart x (flat H t)) (hx : x.Sane) (hlen : x.len ≤ 32768) (hs : Supplies g (H+2) d) :
    ((extentMap g ino d x).1 = true ∧ (extentMap g ino d x).2.1.root.depth ≤ H+1) ↔
      MapFits g ino d x := by
  have hr := hw.toRooted
  obtain ⟨D,es,hp⟩ := exists_place x.block hr.full hr.sorted
  have hok : ¬ (ino.root.magic ≠ extentMagic ∨ x.len = 0 ∨ 32768 < x.len) := by
    rintro (h | h | h)
    · exact h hr.magic
    · exact absurd hx.1 (by omega)
    · omega
  rw [mapFits_iff hd hr hp,extentMap,if_neg hok]
  by_cases h6 : H ≤ 6
  · by_cases hroom : LeafTakes (nodeMax g D) es x ∨ ParentRoom g D
    · obtain ⟨h1,h2⟩ := extentMapLoop_room hd hr hp 7 ha hx (by omega) hs.1 hroom
      exact iff_of_true ⟨h1,h2.trans_le (le_succ H)⟩ ⟨h6,hroom.imp_right .inr⟩
    · obtain ⟨hfull,hno⟩ := not_or.mp hroom
      by_cases h1 : H ≤ 1
      · obtain ⟨h2,h3⟩ := extentMapLoop_low hd hr hp hw.capped ha hx h1
          (hs.mono (Nat.le_add_left ..)) hfull hno 6
        exact iff_of_true ⟨h2,h3.le⟩ ⟨h6,.inr (.inl h1)⟩
      have hstuck : Stuck g x D es := by
        cases D with
        | top => exact absurd h1 (by omega)
        | step b pre post up =>
          cases up with
          | top => exact absurd h1 (by omega)
          | step b' pre' post' up' =>
            exact ⟨b,pre,post,b',pre',post',up',rfl,hfull,not_lt.mp hno⟩
      refine iff_of_false (fun h => ?_) ?_
      · rw [extentMapLoop_stuck hd hr hp 8 hstuck] at h
        cases h.1
      · rintro ⟨-,h | h | h⟩
        · exact hfull h
        · exact h1 h
        · exact hno h
  · refine iff_of_false (fun h => ?_) fun h => h6 h.1
    rw [extentMapLoop,hr.root,content_depth,if_pos (by omega)] at h
    cases h.1

end Map

/-- While the allocator has the blocks, `ext4_extent_map` of an unmapped run goes through, with
one new level at most, exactly where its path has room; `ext4_extent_append` goes through
wherever the driver can follow the path of the deeper tree. -/
theorem insertion_progress_iff {t : Tree Extent H} (hw : WellFormed g d ino.root H t) (hd : Calm d)
    (hs : Supplies g (H+2) d) (hend : x.block+x.len < 0x100000000)
    (hfree : ∀ l, x.Covers l → ¬ Mapped (flat H t) l) :
    ((extentMap g ino d x).1 = true ∧ (extentMap g ino d x).2.1.root.depth ≤ H+1 ↔
      0 < x.len ∧ x.len ≤ 32768 ∧ MapFits g ino d x) ∧
    ((∀ e ∈ flat H t, e.Before x) →
      ((extentAppend g ino d x).1 = true ∧ (extentAppend g ino d x).2.1.root.depth ≤ H+1 ↔
        x.len = 0 ∨ x.len ≤ 32768 ∧ AppendFits g t x)) := by
  have hr := hw.toRooted
  rcases Nat.eq_zero_or_pos x.len with h0 | hpos
  · refine ⟨iff_of_false ?_ (by omega),fun _ => iff_of_true ?_ (.inl h0)⟩
    · rw [extentMap,if_pos (.inr (.inl h0))]
      simp
    · rw [extentAppend,extentAppendFrom,if_neg (not_not.mpr hr.magic),if_pos h0]
      refine ⟨rfl,?_⟩
      rw [hr.root,content_depth]
      exact le_succ H
  have hx : x.Sane := ⟨hpos,hend⟩
  rcases lt_or_ge 32768 x.len with hlong | hlen
  · refine ⟨iff_of_false ?_ (by omega),fun _ => iff_of_false ?_ (by omega)⟩
    · rw [extentMap,if_pos (.inr (.inr hlong))]
      simp
    · rw [extentAppend,extentAppendFrom,if_neg (not_not.mpr hr.magic),if_neg (ne_of_gt hpos),
        if_pos hlong]
      simp
  refine ⟨?_,fun hb => ?_⟩
  · rw [extentMap_done_iff hd hw (apart_of_unmapped hpos hr.sorted.sane hfree) hx hlen hs]
    exact ⟨fun h => ⟨hpos,hlen,h⟩,fun h => h.2.2⟩
  · rw [extentAppend_done_iff hd hr hb hx hlen hs]
    exact ⟨fun h => .inr ⟨hlen,h⟩,fun h => (h.resolve_left (ne_of_gt hpos)).2⟩

theorem insertion_progress_deep :
    ((extentMap smallGeometry deepInode deepVolume ⟨6,2,12⟩).1 = true ∧
      (extentMap smallGeometry deepInode deepVolume ⟨6,2,12⟩).2.1.root.depth ≤ 2+1 ↔
      0 < 2 ∧ 2 ≤ 32768 ∧ MapFits smallGeometry deepInode deepVolume ⟨6,2,12⟩) ∧
    ((extentAppend smallGeometry deepInode deepVolume ⟨6,2,12⟩).1 = true ∧
      (extentAppend smallGeometry deepInode deepVolume ⟨6,2,12⟩).2.1.root.depth ≤ 2+1 ↔
      2 = 0 ∨ 2 ≤ 32768 ∧ AppendFits smallGeometry deepTree ⟨6,2,12⟩) := by
  have hfree : ∀ l, (Extent.mk 6 2 12).Covers l → ¬ Mapped (flat 2 deepTree) l := by
    intro l hl
    simp only [Extent.Covers] at hl
    simp [deepTree,Mapped,Extent.Covers]
    omega
  obtain ⟨h1,h2⟩ := insertion_progress_iff deepTree_wellFormed ⟨rfl,rfl⟩
    ⟨by decide,by decide,by decide,by decide,trivial⟩ (by decide) hfree
  exact ⟨h1,h2 (by simp [deepTree,Extent.Before])⟩

end Lariat.Ext4
