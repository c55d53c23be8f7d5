import Lariat.Ext4.Insertion

/-! Sorted insertion of a run that no extent overlaps, with leaf splits. -/
namespace Lariat.Ext4
open Foundation.BlockTree List Function

variable {g : Geometry} {d d' : Fs} {ino : Inode} {root : Node} {h H : Nat} {x : Extent}
  {es es' : List Extent}

/-- The two halves of a split leaf are its records with the run among them. -/
theorem halves_inserted (hs : Sorted es) (hx : x.Sane) (hlen : 2 ≤ es.length) :
    Inserted x es (lowerHalf es x ++ upperHalf es x) ∧ lowerHalf es x ≠ [] ∧
      upperHalf es x ≠ [] := by
  have hsplit := take_append_drop (es.length / 2) es
  have hlow : es.take (es.length / 2) ≠ [] := by
    refine ne_nil_of_length_pos ?_
    rw [length_take]
    omega
  have hhigh : es.drop (es.length / 2) ≠ [] := by
    refine ne_nil_of_length_pos ?_
    rw [length_drop]
    omega
  have hs' := hs
  rw [← hsplit] at hs'
  obtain ⟨hsl,hsh,hlh⟩ := sorted_append.mp hs'
  simp only [lowerHalf,upperHalf]
  split
  · rename_i hlt
    have hi := leafPut_inserted hsl hx
    have hw := hi.within (l := []) (by simp) fun e he =>
      lt_of_lt_of_le hlt (firstKey_le hsh he)
    rw [nil_append,nil_append,hsplit] at hw
    exact ⟨hw,hi.ne_nil,hhigh⟩
  rename_i hge
  have hi := leafPut_inserted hsh hx
  obtain ⟨f,hf,hfk⟩ := exists_firstKey hhigh
  have hle : ∀ e ∈ es.take (es.length / 2), e.block ≤ x.block := by
    intro e he
    have hef := hlh e he f hf
    have hfx : f.block ≤ x.block := hfk.trans_le (not_lt.mp hge)
    simp only [Extent.Before] at hef
    omega
  have hw := hi.within (r := []) hle (by simp)
  rw [append_nil,append_nil,hsplit] at hw
  exact ⟨hw,hlow,hi.ne_nil⟩

/-- Neither half of a split leaf is full again. -/
theorem halves_length {n : Nat} (hs : Sorted es) (hx : x.Sane) (hlen : es.length ≤ n) (hn : 4 ≤ n) :
    (lowerHalf es x).length ≤ n ∧ (upperHalf es x).length ≤ n := by
  have hs' := hs
  rw [← take_append_drop (es.length / 2) es] at hs'
  obtain ⟨hsl,hsh,-⟩ := sorted_append.mp hs'
  have h1 := (leafPut_inserted hsl hx).length_le
  have h2 := (leafPut_inserted hsh hx).length_le
  rw [length_take] at h1
  rw [length_drop] at h2
  simp only [lowerHalf,upperHalf]
  split
  · rw [length_drop]
    omega
  · rw [length_take]
    omega

theorem idxPut_append {l r : List Index} {y : Index} (hl : ∀ a ∈ l, a.block ≤ y.block)
    (hr : ∀ a ∈ r.head?, y.block < a.block) : idxPut (l ++ r) y = l ++ y :: r := by
  have hr' : r.takeWhile (fun a => decide (a.block ≤ y.block)) = [] ∧
      r.dropWhile (fun a => decide (a.block ≤ y.block)) = r := by
    cases r with
    | nil => exact ⟨rfl,rfl⟩
    | cons a r =>
      have hn : ¬ decide (a.block ≤ y.block) = true := by simpa using hr a rfl
      exact ⟨takeWhile_cons_of_neg hn,dropWhile_cons_of_neg hn⟩
  have hl' : ∀ a ∈ l, decide (a.block ≤ y.block) = true := fun a ha => decide_eq_true (hl a ha)
  rw [idxPut,takeWhile_append_of_pos hl',dropWhile_append_of_pos hl',hr'.1,hr'.2,
    append_nil]

/-- `ext4_idx_put` puts the new child right behind the one it was split from. -/
theorem idxPut_children {pre post : List (Nat × Tree Extent h)} {b c : Nat} {t t' : Tree Extent h}
    (hs : Sorted (flat (h+1) (inner (pre ++ (b,t) :: (c,t') :: post))))
    (hf : Full (h+1) (inner (pre ++ (b,t) :: (c,t') :: post))) :
    idxPut ((pre ++ (b,t) :: post).map fun c => ⟨firstKey (flat h c.2),c.1⟩)
        ⟨firstKey (flat h t'),c⟩ =
      (pre ++ (b,t) :: (c,t') :: post).map fun c => ⟨firstKey (flat h c.2),c.1⟩ := by
  obtain ⟨-,hf⟩ := full_inner.mp hf
  have hsplit : pre ++ (b,t) :: (c,t') :: post = (pre ++ [(b,t)]) ++ (c,t') :: post := by simp
  rw [hsplit] at hs hf ⊢
  rw [flat_inner,flatMap_append,flatMap_cons,sorted_append,sorted_append] at hs
  obtain ⟨-,⟨hst',-,hpost⟩,hpre⟩ := hs
  obtain ⟨f,hfm,hfk⟩ : ∃ f ∈ flat h t', f.block = firstKey (flat h t') :=
    exists_firstKey (hf (c,t') (by simp)).flat_ne_nil
  rw [append_cons,map_append]
  conv_rhs => rw [map_append,map_cons]
  apply idxPut_append
  · intro a ha
    obtain ⟨y,hy,rfl⟩ := mem_map.mp ha
    obtain ⟨e,he,hek⟩ := exists_firstKey (hf y (mem_append_left _ hy)).flat_ne_nil
    have hef := hpre e (mem_flatMap.mpr ⟨y,hy,he⟩) f (mem_append_left _ hfm)
    simp only [Extent.Before] at hef ⊢
    omega
  · intro a ha
    rw [head?_map] at ha
    obtain ⟨y,hy,rfl⟩ := Option.map_eq_some_iff.mp ha
    have hym := mem_of_mem_head? hy
    obtain ⟨e,he,hek⟩ := exists_firstKey (hf y (by simp [hym])).flat_ne_nil
    have hfe := hpost f hfm e (mem_flatMap.mpr ⟨y,hym,he⟩)
    have hpos := (hst'.sane f hfm).1
    simp only [Extent.Before] at hfe ⊢
    omega

section Split

variable {b c : Nat} {pre post : List (Nat × Tree Extent 0)} {up : Ctx Extent H 1}
  {low high : List Extent}

/-- The volume once both halves of a split leaf are written. -/
def putHalves (g : Geometry) (d : Fs) (b c : Nat) (low high : List Extent) : Fs :=
  (d.put b (nodeBlock g 0 (leaf low))).put c (nodeBlock g 0 (leaf high))

/-- Neither the siblings of the split leaf nor the nodes above it are touched. -/
theorem Rooted.putHalves_agree
    (hr : Rooted g d root H ((Ctx.step b pre post up).plug (leaf es))) (ht : Took g d d' [c]) :
    ∀ a ∈ (Ctx.step b pre post up).sideAddrs ++ up.spineAddrs,
      (putHalves g d' b c low high).blocks a = d.blocks a := by
  intro a ha
  have hperm := (Ctx.step b pre post up).addrs_plug_perm (leaf es)
  have hmem : a ∈ addrs H ((Ctx.step b pre post up).plug (leaf es)) :=
    hperm.mem_iff.mpr (by simp only [Ctx.spineAddrs]; simp at ha ⊢; tauto)
  have hac : a ∉ [c] := ht.notMem (hr.held a hmem).2
  have hab : a ≠ b := by
    have hn := hr.nodup
    rw [hperm.nodup_iff,addrs_leaf,nil_append,Ctx.spineAddrs] at hn
    have hn' := (perm_middle.nodup_iff.mp hn)
    rintro rfl
    exact (nodup_cons.mp hn').1 ha
  exact (update_of_ne (by simpa using hac) _ _).trans ((update_of_ne hab _ _).trans
    (ht.blocks a hac))

variable {t : Tree Extent H} (hr : Rooted g d ino.root H t)
  (hp : Place g x.block t (.step b pre post up) es) (hH : H < 8) (hx : x.Sane)
  (ha : Apart x (flat H t)) (hroom : pre.length+1+post.length < nodeMax g up)
include hr hp hH hx ha hroom

theorem Rooted.graftSplit (ht : Took g d d' [c]) (hi : Inserted x es (low ++ high)) (hlow : low ≠ [])
    (hhigh : high ≠ [])
    (hcap : es.length ≤ blockMax g → low.length ≤ blockMax g ∧ high.length ≤ blockMax g) :
    Grafted g x d ino t
      { putHalves g d' b c low high with
        blocks := up.respine (nodeBlock g) (putHalves g d' b c low high).blocks
          (inner (pre ++ (b,leaf low) :: (c,leaf high) :: post)) }
      { ino.charge g 1 with
        root := content rootMax H (up.plug (inner (pre ++ (b,leaf low) :: (c,leaf high) :: post))) }
      (up.plug (inner (pre ++ (b,leaf low) :: (c,leaf high) :: post))) [c] := by
  obtain ⟨rfl,hl,hright,-⟩ := hp
  obtain ⟨hpre,hpost,hup⟩ : (Ctx.step b pre post up).Sides (nodeBlock g)
      (putHalves g d' b c low high).blocks :=
    hr.sides.congr fun a ha => hr.putHalves_agree ht a (mem_append_left _ ha)
  have hbmem : b ∈ addrs H ((Ctx.step b pre post up).plug (leaf es)) :=
    ((Ctx.step b pre post up).addrs_plug_perm (leaf es)).mem_iff.mpr (by simp [Ctx.spineAddrs])
  have hbc : b ≠ c := by simpa using ht.notMem (hr.held b hbmem).2
  have hins : Inserted x (flat H ((Ctx.step b pre post up).plug (leaf es)))
      (flat H (up.plug (inner (pre ++ (b,leaf low) :: (c,leaf high) :: post)))) := by
    have hw := hi.within hl hright
    rw [Ctx.flat_plug,Ctx.flat_plug]
    simpa [Ctx.left,Ctx.right] using hw
  have haddrs : (addrs 1 (inner (pre ++ (b,leaf low) :: (c,leaf high) :: post))).Perm
      ([c] ++ addrs 1 (inner (pre ++ (b,leaf es) :: post))) := by
    refine perm_iff_count.mpr fun a => ?_
    simp only [addrs_inner,flatMap_append,flatMap_cons,addrs_leaf,count_append,
      count_cons,count_nil]
    omega
  have hperm := Rooted.addrs_perm up haddrs
  obtain ⟨-,hfull⟩ := full_inner.mp (hr.full_node (U := up))
  obtain ⟨hfpre,hfpost⟩ := forall_mem_append.mp hfull
  rw [nodeMax_eq_capAt] at hroom
  refine Rooted.graft (C := up) _ _ hr hH ((ht.calm.put _ _).put _ _) ht.used (fun a ha => ?_) hup ?_ ?_
    hins hx ‹_› haddrs ht.nodup ht.free
    (fun n hn => ((ht.supply n hn).put ht.calm _ _).put (ht.calm.put _ _) _ _) ?_
  · have hac : a ∉ [c] := fun h0 => ha (hperm.mem_iff.mpr (mem_append_left _ h0))
    have hab : a ≠ b := by
      rintro rfl
      exact ha (hperm.mem_iff.mpr (mem_append_right _ hbmem))
    exact (update_of_ne (by simpa using hac) _ _).trans
      ((update_of_ne hab _ _).trans (ht.blocks a hac))
  · refine (stored_inner _).mpr (forall_mem_append.mpr ⟨(stored_inner _).mp hpre,?_⟩)
    refine forall_mem_cons.mpr ⟨⟨?_,trivial⟩,forall_mem_cons.mpr ⟨⟨?_,trivial⟩,
      (stored_inner _).mp hpost⟩⟩
    · exact (update_of_ne hbc _ _).trans (update_self ..)
    · exact update_self ..
  · refine full_inner.mpr ⟨by simp,forall_mem_append.mpr ⟨hfpre,?_⟩⟩
    exact forall_mem_cons.mpr ⟨full_leaf.mpr hlow,forall_mem_cons.mpr
      ⟨full_leaf.mpr hhigh,(forall_mem_cons.mp hfpost).2⟩⟩
  · rintro ⟨-,hc⟩
    obtain ⟨hcpre,hcpost⟩ := forall_mem_append.mp hc
    obtain ⟨hces,hcpost⟩ := forall_mem_cons.mp hcpost
    obtain ⟨hclow,hchigh⟩ := hcap hces
    refine capped_inner.mpr ⟨?_,forall_mem_append.mpr ⟨hcpre,forall_mem_cons.mpr
      ⟨hclow,forall_mem_cons.mpr ⟨hchigh,hcpost⟩⟩⟩⟩
    simp only [length_append,length_cons]
    omega

theorem splitLeaf_insertion (hd : Calm d) (hlen : 2 ≤ es.length) :
    Insertion g x d ino t 0
      (splitLeaf g (frameAt g (.step b pre post up) (leaf es) 0)
        (frameAt g up (inner (pre ++ (b,leaf es) :: post)) pre.length)
        (frames g up (inner (pre ++ (b,leaf es) :: post))) ino d x) := by
  have hplug := hp.plug
  subst hplug
  have hsorted : Sorted es := hr.sorted_node
  obtain ⟨hi,hlow,hhigh⟩ := halves_inserted hsorted hx hlen
  have hg := allocBlock_granted (g := g) hd
  rcases halloc : allocBlock g d with ⟨c,d1⟩
  rw [halloc] at hg
  simp only [splitLeaf,halloc]
  by_cases hc : c = 0
  · rw [if_pos hc]
    exact .failed (.of_keeps hr hg.keeps)
  have ht : Took g d d1 [c] := by
    have h0 : (allocBlock g d).1 ≠ 0 := by rwa [halloc]
    have := allocBlock_took hd h0
    rwa [halloc] at this
  have hgraft := hr.graftSplit hp hH hx ha hroom ht hi hlow hhigh fun hcap =>
    halves_length hsorted hx hcap (four_le_blockMax g)
  have hb0 : b ≠ 0 := hr.spine_ne_zero b (mem_cons_self ..)
  have hfull : Full 1 (inner (pre ++ (b,leaf (lowerHalf es x)) :: (c,leaf (upperHalf es x)) :: post)) :=
    hgraft.rooted.full_node
  have hspine : up.Spine (nodeBlock g)
      (putHalves g d1 b c (lowerHalf es x) (upperHalf es x)).blocks
      (inner (pre ++ (b,leaf es) :: post)) :=
    hr.spine.2.congr fun a ha => hr.putHalves_agree ht a (mem_append_right _ ha)
  have hroot : (ino.charge g 1).root = content rootMax H (up.plug (inner (pre ++ (b,leaf es) :: post))) :=
    hr.root
  have hcalm : Calm (putHalves g d1 b c (lowerHalf es x) (upperHalf es x)) :=
    (hg.calm.put _ _).put _ _
  have hprop := store_propagate up pre.length hcalm hroot hspine (forall_mem_cons.mp hr.spine_ne_zero).2
    true (nodup_cons.mp hr.spine_nodup).2 hfull hr.fullSides.2.2
  have hwrite : ((d1.put b (nodeBlock g 0 (leaf (lowerHalf es x)))).writeBlock c
      (.node { max := blockMax g, depth := 0, extents := upperHalf es x })).2 =
      putHalves g d1 b c (lowerHalf es x) (upperHalf es x) := by
    rw [(hg.calm.put _ _).writeBlock]
    rfl
  have hlow1 : (frameAt g (.step b pre post up) (leaf (lowerHalf es x)) 0).node.firstBlock =
      firstKey (flat 0 (leaf (lowerHalf es x))) := rfl
  have hhigh1 : ({ max := blockMax g, depth := 0, extents := upperHalf es x } : Node).firstBlock =
      firstKey (flat 0 (leaf (upperHalf es x))) := rfl
  rw [if_neg hc,hg.calm.kzalloc]
  simp only [frameAt_extents,frameAt_withExtents,store_step hg.calm hb0,hwrite,hlow1,hhigh1,
    setKey_inner,frameAt_index,idxPut_children hgraft.rooted.sorted_node hfull,frameAt_withIndex,hprop]
  exact .done rfl hgraft

end Split

/-- The leaf takes the run: it has room, or the run merges with a neighbour. -/
def LeafTakes (mx : Nat) (es : List Extent) (x : Extent) : Prop :=
  es.length < mx ∨ canCoalesce es x = true

variable (g) in
/-- The node above the place has a free slot. -/
def ParentRoom : {H h : Nat} → Ctx Extent H h → Prop
  | _, _, .top => False
  | _, _, .step _ pre post up => pre.length+1+post.length < nodeMax g up

variable (g) in
/-- What one attempt of `ext4_extent_map` does at the leaf of the block. -/
inductive MapStep (x : Extent) (ino : Inode) (d : Fs) (again : Inode → Fs → Bool × Inode × Fs)
    (D : Ctx Extent H 0) (es : List Extent) : Bool × Inode × Fs → Prop
  | leaf : LeafTakes (nodeMax g D) es x → MapStep x ino d again D es
      (true,propagate false (frames g D (leaf es)) (frameAt g D (leaf (leafPut es x)) 0).node.firstBlock
        (store ino d (frameAt g D (leaf (leafPut es x)) 0)).2.1
        (store ino d (frameAt g D (leaf (leafPut es x)) 0)).2.2)
  | split {b : Nat} {pre post : List (Nat × Tree Extent 0)} {up : Ctx Extent H 1} :
      ¬ LeafTakes (nodeMax g D) es x → D = .step b pre post up →
      pre.length+1+post.length < nodeMax g up → MapStep x ino d again D es
        (splitLeaf g (frameAt g (.step b pre post up) (leaf es) 0)
          (frameAt g up (inner (pre ++ (b,leaf es) :: post)) pre.length)
          (frames g up (inner (pre ++ (b,leaf es) :: post))) ino d x)
  | grow : ¬ LeafTakes (nodeMax g D) es x → ¬ ParentRoom g D →
      MapStep x ino d again D es (growAndRetry g ino d again)

variable {D : Ctx Extent H 0}

theorem extentMapLoop_step (attempts : Nat) (hr : Rooted g d ino.root H (D.plug (leaf es)))
    (hw : walkTo x.block ino.root.depth d ⟨0,ino.root,0⟩ [] =
      (some (frameAt g D (leaf es) 0,frames g D (leaf es)),d)) (hdepth : H+1 < 8) :
    MapStep g x ino d (fun ino d => extentMapLoop g attempts ino d x) D es
      (extentMapLoop g (attempts+1) ino d x) := by
  have hd8 : ¬ 8 ≤ ino.root.depth+1 := by
    rw [hr.root,content_depth]
    omega
  rw [extentMapLoop,if_neg hd8]
  simp only [hw,frameAt_extents,frameAt_withExtents,frameAt_capacity _ _ hr.spine_ne_zero]
  split
  · rename_i htakes
    exact .leaf htakes
  rename_i htakes
  cases D with
  | top => exact .grow htakes fun h => h
  | step b pre post up =>
    have hlen : (frameAt g up (inner (pre ++ (b,leaf es) :: post)) pre.length).node.entries =
        pre.length+1+post.length := by
      simp [frameAt,Node.entries]
      omega
    simp only [frames,head?_cons,tail_cons]
    rw [frameAt_capacity _ _ (forall_mem_cons.mp hr.spine_ne_zero).2,hlen]
    split
    · rename_i hroom
      exact .split htakes rfl hroom
    · rename_i hfull
      exact .grow htakes hfull

/-- The leaf of the run takes it, and the keys above follow. -/
theorem mapLeaf_insertion {t : Tree Extent H} (hd : Calm d) (hr : Rooted g d ino.root H t)
    (hp : Place g x.block t D es) (hH : H < 8) (hx : x.Sane) (ha : Apart x (flat H t))
    (htakes : LeafTakes (nodeMax g D) es x) : Insertion g x d ino t 0
      (true,propagate false (frames g D (leaf es)) (frameAt g D (leaf (leafPut es x)) 0).node.firstBlock
        (store ino d (frameAt g D (leaf (leafPut es x)) 0)).2.1
        (store ino d (frameAt g D (leaf (leafPut es x)) 0)).2.2) := by
  obtain ⟨rfl,hl,hright,-⟩ := hp
  have hsorted : Sorted es := hr.sorted_node
  have hi := leafPut_inserted hsorted hx
  have hg := hr.graftLeaf hd hH hi hl hright hx ha fun hcap => by
    rcases htakes with hroom | hjoin
    · exact le_trans hi.length_le hroom
    · exact (leafPut_length hjoin).trans_le hcap
  rw [store_propagate D 0 hd hr.root hr.spine hr.spine_ne_zero false hr.spine_nodup
    (full_leaf.mpr hi.ne_nil) hr.fullSides]
  exact .done rfl hg

theorem four_le_of_full (h : ¬ LeafTakes (nodeMax g D) es x) : 4 ≤ es.length :=
  le_trans (four_le_nodeMax D) (not_lt.mp (not_or.mp h).1)

/-- The retry loop of `ext4_extent_map`, for a run that no extent overlaps. -/
theorem extentMapLoop_insertion (attempts : Nat) {t : Tree Extent H} (hd : Calm d)
    (hr : Rooted g d ino.root H t) (ha : Apart x (flat H t)) (hx : x.Sane) :
    ∃ k, Insertion g x d ino t k (extentMapLoop g attempts ino d x) := by
  induction attempts generalizing ino d H with
  | zero => exact ⟨0,.failed (.of_keeps hr (.refl hd))⟩
  | succ attempts ih =>
    by_cases hdepth : H+1 < 8
    · obtain ⟨D,es,hp⟩ := exists_place (g := g) x.block hr.full hr.sorted
      have hplug := hp.plug
      subst hplug
      have hH : H < 8 := Nat.lt_of_succ_lt hdepth
      have hstep := extentMapLoop_step attempts hr (hr.walkTo_eq hd hp.leads) hdepth
      generalize extentMapLoop g (attempts+1) ino d x = r at hstep ⊢
      cases hstep with
      | leaf htakes => exact ⟨0,mapLeaf_insertion hd hr hp hH hx ha htakes⟩
      | split hfull hD hroom =>
        have h4 := four_le_of_full hfull
        subst hD
        exact ⟨0,splitLeaf_insertion hr hp hH hx ha hroom hd (by omega)⟩
      | grow hfull _ =>
        have hne : es ≠ [] := ne_nil_of_length_pos (by have := four_le_of_full hfull; omega)
        exact growAndRetry_insertion hd hr (by simp [Ctx.flat_plug,hne]) hdepth
          fun ino1 d1 c h1 h2 => ih h1 h2 (by simpa using ha)
    · have hno : extentMapLoop g (attempts+1) ino d x = (false,ino,d) := by
        rw [extentMapLoop,hr.root,content_depth]
        exact if_pos (by omega)
      rw [hno]
      exact ⟨0,.failed (.of_keeps hr (.refl hd))⟩

theorem extentMap_insertion {t : Tree Extent H} (hd : Calm d) (hr : Rooted g d ino.root H t)
    (ha : Apart x (flat H t)) (hx : x.Sane) : ∃ k, Insertion g x d ino t k (extentMap g ino d x) := by
  rw [extentMap]
  split
  · exact ⟨0,.failed (.of_keeps hr (.refl hd))⟩
  · exact extentMapLoop_insertion 8 hd hr ha hx

end Lariat.Ext4
