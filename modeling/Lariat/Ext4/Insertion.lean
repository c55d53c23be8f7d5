import Lariat.Ext4.Update

/-! New blocks of an extent tree, a deeper root or a spine for a new leaf; and the insertion of a
run of blocks: append and sorted insertion put it into the tree, or leave the extents. -/
namespace Lariat.Ext4
open Foundation.BlockTree List Option Nat

variable {g : Geometry} {d d' : Fs} {ino : Inode} {root : Node} {h H : Nat} {extra : List Nat}

variable {t : Tree Extent H}

theorem Rep.notMem (hr : Rep g d root H t extra) {b : Nat} (hb : d.used b = false) :
    b ∉ addrs H t ++ physBlocks (flat H t) ++ extra := by
  intro hmem
  have := (hr.held b hmem).2
  rw [hb] at this
  cases this

theorem content_max (mx mx' : Nat) (t : Tree Extent h) :
    { content mx h t with max := mx' } = content mx' h t := by
  cases h <;> rfl

theorem charge_charge (ino : Inode) (m n : Nat) :
    (ino.charge g m).charge g n = ino.charge g (n+m) := by
  simp only [Inode.charge,BitVec.add_assoc,Nat.add_mul,← BitVec.ofNat_add,Nat.add_comm (n*_)]

theorem growDepth_eq (hd : Calm d) (hr : Rooted g d ino.root H t) (hf : Full H t) :
    growDepth g ino d = if (allocBlock g d).1 = 0 then (false,ino,(allocBlock g d).2)
      else (true,{ ino.charge g 1 with
          root := content rootMax (H+1) (inner [((allocBlock g d).1,t)]) },
        (allocBlock g d).2.put (allocBlock g d).1 (nodeBlock g H t)) := by
  have hcalm := (allocBlock_granted (g := g) hd).calm
  rcases halloc : allocBlock g d with ⟨c,d1⟩
  rw [halloc] at hcalm
  have hfirst : ino.root.firstBlock = firstKey (flat H t) := by
    rw [hr.root,content_firstBlock _ (.inr hf)]
  have hnode : Block.node { ino.root with max := blockMax g } = nodeBlock g H t := by
    rw [hr.root,content_max,nodeBlock]
  have hroot : Node.mk extentMagic rootMax (ino.root.depth+1) [] [⟨ino.root.firstBlock,c⟩] =
      content rootMax (H+1) (inner [(c,t)]) := by
    rw [hfirst,hr.root,content_depth]
    rfl
  simp only [growDepth,halloc,hcalm.kzalloc,hnode,hcalm.writeBlock]
  split
  · rfl
  · rw [← hroot]
    rfl

theorem growDepth_spec (hd : Calm d) (hr : Rooted g d ino.root H t) (hf : Full H t)
    (h0 : (allocBlock g d).1 ≠ 0) :
    ∃ ino' d' c, growDepth g ino d = (true,ino',d') ∧ Took g d d' [c] ∧
      ino' = { ino.charge g 1 with root := content rootMax (H+1) (inner [(c,t)]) } ∧
      Rooted g d' ino'.root (H+1) (inner [(c,t)]) := by
  have hg := allocBlock_granted (g := g) hd
  have ht := (allocBlock_took hd h0).put (mem_singleton_self _) (nodeBlock g H t)
  have hca := hr.notMem (hg.free h0)
  have hr1 := hr.keeps hg.keeps
  refine ⟨_,_,(allocBlock g d).1,(growDepth_eq hd hr hf).trans (if_neg h0),ht,rfl,rfl,?_,?_,?_,?_,?_⟩
  · refine (stored_inner _).mpr (forall_mem_singleton.mpr ⟨Function.update_self .., ?_⟩)
    exact hr1.stored.update hca _
  · exact .inr (full_inner.mpr ⟨by simp,forall_mem_singleton.mpr hf⟩)
  · simpa using hr.sorted
  · simpa using ⟨hca,hr.nodup⟩
  · intro b hb
    have hb' : b = (allocBlock g d).1 ∨ b ∈ addrs H t := by simpa using hb
    rcases hb' with rfl | hb'
    · exact ⟨h0,hg.taken h0⟩
    · exact hr1.held b hb'

theorem newNode_eq (ino : Inode) (hd : Calm d) (n : Node) :
    newNode g ino d n = if (allocBlock g d).1 = 0 then (none,ino,(allocBlock g d).2)
      else (some (allocBlock g d).1,ino.charge g 1,
        (allocBlock g d).2.put (allocBlock g d).1 (.node n)) := by
  have hcalm := (allocBlock_granted (g := g) hd).calm
  rcases halloc : allocBlock g d with ⟨b,d1⟩
  rw [halloc] at hcalm
  simp only [newNode,halloc,hcalm.kzalloc,hcalm.writeBlock]

theorem newNode_spec (ino : Inode) (hd : Calm d) (n : Node) :
    (∃ d', newNode g ino d n = (none,ino,d') ∧ Keeps d d') ∨
    ∃ b d', newNode g ino d n = (some b,ino.charge g 1,d') ∧ Took g d d' [b] ∧
      d'.blocks b = .node n := by
  have hg := allocBlock_granted (g := g) hd
  rw [newNode_eq ino hd n]
  split
  · exact .inl ⟨_,rfl,hg.keeps⟩
  · rename_i h0
    exact .inr ⟨_,_,rfl,(allocBlock_took hd h0).put (mem_singleton_self _) _,Function.update_self ..⟩

variable (g)

/-- A subtree in blocks that were free on the volume `d`; block `b` holds its root. -/
structure Planted (d d' : Fs) (b h : Nat) (t : Tree Extent h) : Prop where
  took : Took g d d' (b :: addrs h t)
  root : d'.blocks b = nodeBlock g h t
  stored : Stored (nodeBlock g) d'.blocks h t
  full : Full h t
  thin : Capped 1 1 h t

variable {g}

theorem Planted.above {d1 : Fs} {b c : Nat} {t : Tree Extent h} (hp : Planted g d d1 c h t)
    (ht : Took g d1 d' [b]) (hblock : d'.blocks b = nodeBlock g (h+1) (inner [(c,t)])) :
    Planted g d d' b (h+1) (inner [(c,t)]) := by
  have hsame : ∀ a ∈ c :: addrs h t, d'.blocks a = d1.blocks a := fun a ha =>
    ht.blocks a (ht.notMem (hp.took.taken ha))
  have haddrs : addrs (h+1) (inner [(c,t)]) = c :: addrs h t := by simp
  refine ⟨haddrs ▸ hp.took.trans ht,hblock,
    (stored_inner _).mpr (forall_mem_singleton.mpr ⟨?_,?_⟩),
    full_inner.mpr ⟨by simp,forall_mem_singleton.mpr hp.full⟩,
    capped_inner.mpr ⟨le_refl _,forall_mem_singleton.mpr hp.thin⟩⟩
  · exact (hsame c (mem_cons_self ..)).trans hp.root
  · exact hp.stored.congr fun a ha => hsame a (mem_cons_of_mem _ ha)

/-- The spine above a new leaf, or a failure that leaves the volume as good as it was. -/
theorem makeSpine_spec (n : Nat) {d1 : Fs} {lblk child : Nat} {t : Tree Extent h}
    (hp : Planted g d d1 child h t) (hkey : firstKey (flat h t) = lblk) (ino : Inode) :
    (∃ ino' d', makeSpine g lblk n (h+1) child ino d1 = (none,ino',d') ∧ ino'.root = ino.root ∧
      Keeps d d') ∨
    ∃ c d' k, ∃ t' : Tree Extent k, k = h+n ∧
      makeSpine g lblk n (h+1) child ino d1 = (some c,ino.charge g n,d') ∧
      flat k t' = flat h t ∧ (addrs k t').length = (addrs h t).length+n ∧ Planted g d d' c k t' := by
  induction n generalizing h d1 child ino with
  | zero => exact .inr ⟨child,d1,h,t,rfl,by simp [makeSpine,Inode.charge],rfl,rfl,hp⟩
  | succ n ih =>
    have hnode : Node.mk extentMagic (blockMax g) (h+1) [] [⟨lblk,child⟩] =
        content (blockMax g) (h+1) (inner [(child,t)]) := by rw [← hkey]; rfl
    rw [makeSpine,hnode]
    rcases newNode_spec ino hp.took.calm (content (blockMax g) (h+1) (inner [(child,t)]))
      with ⟨d2,h1,h2⟩ | ⟨b,d2,h1,h2,h3⟩
    · exact .inl ⟨ino,d2,by rw [h1],rfl,hp.took.keeps.trans h2⟩
    have hp2 := hp.above h2 h3
    have hkey2 : firstKey (flat (h+1) (inner [(child,t)])) = lblk := by simpa using hkey
    rw [h1]
    rcases ih hp2 hkey2 (ino.charge g 1) with ⟨ino2,d3,i1,i2,i3⟩ | ⟨c,d3,k,t',i1,i2,i3,i4,i5⟩
    · exact .inl ⟨ino2,d3,i1,i2,i3⟩
    refine .inr ⟨c,d3,k,t',by omega,?_,i3.trans (by simp),?_,i5⟩
    · rw [charge_charge] at i2
      exact i2
    · rw [i4]
      simp
      omega

variable {x : Extent} {es es' : List Extent}

theorem four_le_blockMax (g : Geometry) : 4 ≤ blockMax g := by
  have := g.blockSize_ge
  simp only [blockMax]
  omega

variable (g)

/-- What an insertion of the run `x` into a tree with the extents `es` ends in. -/
inductive Outcome (x : Extent) (es : List Extent) : Bool × Inode × Fs → Prop
  | done {ino : Inode} {d : Fs} {H : Nat} {t : Tree Extent H} :
      Rep g d ino.root H t [] → Inserted x es (flat H t) → Outcome x es (true,ino,d)
  | failed {ino : Inode} {d : Fs} {H : Nat} {t : Tree Extent H} :
      Rep g d ino.root H t (List.range' x.start x.len) → flat H t = es → Outcome x es (false,ino,d)

/-- The run `x` went into the tree `t` of the inode; the nodes in `fresh` are new. -/
structure Grafted (x : Extent) (d : Fs) (ino : Inode) (t : Tree Extent H) (d' : Fs) (ino' : Inode)
    {H' : Nat} (t' : Tree Extent H') (fresh : List Nat) : Prop where
  calm : Calm d'
  height : H' < 8
  rooted : Rooted g d' ino'.root H' t'
  inserted : Inserted x (flat H t) (flat H' t')
  nodes : (addrs H' t').Perm (fresh ++ addrs H t)
  free : ∀ b ∈ fresh, d.used b = false
  used : ∀ b, d'.used b = (d.used b || decide (b ∈ fresh))
  blocks : ∀ b, b ∉ addrs H' t' → d'.blocks b = d.blocks b
  charged : ino' = { ino.charge g fresh.length with root := ino'.root }
  capped : Capped (blockMax g) rootMax H t → Capped (blockMax g) rootMax H' t'
  supply : ∀ n, Supplies g (n+fresh.length) d → Supplies g n d'

/-- The tree `t` kept its extents; the nodes in `fresh` are new. -/
structure Spared (d : Fs) (t : Tree Extent H) (d' : Fs) (root : Node) {H' : Nat}
    (t' : Tree Extent H') (fresh : List Nat) : Prop where
  keeps : Keeps d d'
  height : H < 8 → H' < 8
  rooted : Rooted g d' root H' t'
  same : flat H' t' = flat H t
  nodes : (addrs H' t').Perm (fresh ++ addrs H t)
  free : ∀ b ∈ fresh, d.used b = false

/-- What an insertion of the run `x` into the tree `t` ends in, with `k` new levels if it
went in. -/
inductive Insertion (x : Extent) (d : Fs) (ino : Inode) (t : Tree Extent H) :
    Nat → Bool × Inode × Fs → Prop
  | done {k : Nat} {ino' : Inode} {d' : Fs} {H' : Nat} {t' : Tree Extent H'} {fresh : List Nat} :
      H' = H+k → Grafted g x d ino t d' ino' t' fresh → Insertion x d ino t k (true,ino',d')
  | failed {k : Nat} {ino' : Inode} {d' : Fs} {H' : Nat} {t' : Tree Extent H'} {fresh : List Nat} :
      Spared g d t d' ino'.root t' fresh → Insertion x d ino t k (false,ino',d')

variable {g}

variable {C : Ctx Extent H h} {c : Nat}

theorem Spared.of_keeps (hr : Rooted g d root H t) (hk : Keeps d d') : Spared g d t d' root t [] :=
  ⟨hk,fun h => h,hr.keeps hk,rfl,List.Perm.refl _,by simp⟩

/-! ### The blocks of the inode -/

section Owned

variable {H' : Nat} {t : Tree Extent H} {t' : Tree Extent H'} {ino' : Inode} {fresh : List Nat}

theorem Rep.regrown {root' : Node} {extra extra' : List Nat} (hr : Rep g d root H t extra)
    (hd : Calm d') (hH : H' < 8) (hrt : Rooted g d' root' H' t')
    (hp : (addrs H' t').Perm (fresh ++ addrs H t)) (hfree : ∀ b ∈ fresh, d.used b = false)
    (hphys : (physBlocks (flat H' t') ++ extra').Perm (physBlocks (flat H t) ++ extra))
    (hused : ∀ b, b ≠ 0 → d.used b = true → d'.used b = true) : Rep g d' root' H' t' extra' := by
  have hperm : (addrs H' t' ++ physBlocks (flat H' t') ++ extra').Perm
      (fresh ++ (addrs H t ++ physBlocks (flat H t) ++ extra)) := by
    rw [append_assoc,append_assoc (addrs H t),← append_assoc fresh]
    exact hp.append hphys
  refine ⟨hd,hH,hrt.root,hrt.stored,hrt.full,hrt.sorted,hperm.nodup_iff.mpr ?_,fun b hb => ?_⟩
  · refine nodup_append.mpr ⟨?_,hr.nodup,fun a ha b hb hab => hr.notMem (hfree a ha) (hab ▸ hb)⟩
    exact (nodup_append.mp (hp.nodup_iff.mp hrt.nodup)).1
  · rcases mem_append.mp (hperm.mem_iff.mp hb) with hb | hb
    · exact hrt.held b (hp.mem_iff.mpr (mem_append_left _ hb))
    · obtain ⟨h0,hu⟩ := hr.held b hb
      exact ⟨h0,hused b h0 hu⟩

/-- The tree with the run in it owns the blocks of the run, and the fresh ones. -/
theorem Grafted.rep (hg : Grafted g x d ino t d' ino' t' fresh)
    (hr : Rep g d root H t (List.range' x.start x.len)) : Rep g d' ino'.root H' t' [] := by
  refine hr.regrown hg.calm hg.height hg.rooted hg.nodes hg.free ?_ fun b _ hu => ?_
  · rw [append_nil]
    exact hg.inserted.phys
  · rw [hg.used,hu,Bool.true_or]

theorem Spared.rep {root' : Node} {extra : List Nat} (hs : Spared g d t d' root' t' fresh)
    (hr : Rep g d root H t extra) : Rep g d' root' H' t' extra :=
  hr.regrown hs.keeps.calm (hs.height hr.height) hs.rooted hs.nodes hs.free (by rw [hs.same])
    hs.keeps.used

theorem Insertion.outcome {k : Nat} {r : Bool × Inode × Fs} (hi : Insertion g x d ino t k r)
    (hr : Rep g d root H t (List.range' x.start x.len)) : Outcome g x (flat H t) r := by
  cases hi with
  | done _ hg => exact .done (hg.rep hr) hg.inserted
  | failed hs => exact .failed (hs.rep hr) hs.same

theorem Grafted.depth (hg : Grafted g x d ino t d' ino' t' fresh) : ino'.root.depth = H' := by
  rw [hg.rooted.root,content_depth]

theorem Insertion.depth {k : Nat} {r : Bool × Inode × Fs} (hi : Insertion g x d ino t k r)
    (hr : r.1 = true) : r.2.1.root.depth = H+k := by
  cases hi with
  | done hk hg => exact hg.depth.trans hk
  | failed hs => cases hr

end Owned

/-! ### One change of the tree -/

/-- A node with its way up is written, and the tree has the run. -/
theorem Rooted.graft {t : Tree Extent h} (t' : Tree Extent h) (fresh : List Nat)
    (hr : Rooted g d ino.root H (C.plug t)) (hH : H < 8) (hd' : Calm d')
    (hused : ∀ b, d'.used b = (d.used b || decide (b ∈ fresh)))
    (hblocks : ∀ b, b ∉ addrs H (C.plug t') → d'.blocks b = d.blocks b)
    (hsides : C.Sides (nodeBlock g) d'.blocks) (hst : Stored (nodeBlock g) d'.blocks h t')
    (hf : Full h t') (hi : Inserted x (flat H (C.plug t)) (flat H (C.plug t'))) (hx : x.Sane)
    (ha : Apart x (flat H (C.plug t))) (haddrs : (addrs h t').Perm (fresh ++ addrs h t))
    (hn : fresh.Nodup) (hfree : ∀ b ∈ fresh, b ≠ 0 ∧ d.used b = false)
    (hsupply : ∀ n, Supplies g (n+fresh.length) d → Supplies g n d')
    (hcap : Capped (blockMax g) (C.capAt (blockMax g) rootMax) h t →
      Capped (blockMax g) (C.capAt (blockMax g) rootMax) h t') :
    Grafted g x d ino (C.plug t) { d' with blocks := C.respine (nodeBlock g) d'.blocks t' }
      { ino.charge g fresh.length with root := content rootMax H (C.plug t') } (C.plug t')
      fresh where
  calm := ⟨hd'.heap,hd'.io⟩
  height := hH
  rooted := hr.replace hused hsides hst hf (hi.sorted hr.sorted hx ha) haddrs hn hfree
  inserted := hi
  nodes := Rooted.addrs_perm C haddrs
  free := fun b hb => (hfree b hb).2
  used := hused
  blocks := by
    intro b hb
    have hspine : b ∉ C.spineAddrs := fun h0 =>
      hb ((C.addrs_plug_perm t').mem_iff.mpr (by simp [h0]))
    exact (Ctx.respine_of_notMem _ C t' hspine).trans (hblocks b hb)
  charged := rfl
  capped := fun hc => by
    obtain ⟨h1,h2⟩ := Ctx.capped_plug.mp hc
    exact Ctx.capped_plug.mpr ⟨hcap h1,h2⟩
  supply := fun n hn => (hsupply n hn).congr hd' ⟨hd'.heap,hd'.io⟩ ⟨rfl,rfl⟩

theorem charge_zero (ino : Inode) : ino.charge g 0 = ino := by simp [Inode.charge]

theorem Rooted.graftLeaf {C : Ctx Extent H 0} (hd : Calm d)
    (hr : Rooted g d ino.root H (C.plug (leaf es))) (hH : H < 8) (hi : Inserted x es es')
    (hl : ∀ e ∈ C.left, e.block ≤ x.block) (hright : ∀ e ∈ C.right, x.block < e.block)
    (hx : x.Sane) (ha : Apart x (flat H (C.plug (leaf es))))
    (hcap : es.length ≤ nodeMax g C → es'.length ≤ nodeMax g C) :
    Grafted g x d ino (C.plug (leaf es))
      { d with blocks := C.respine (nodeBlock g) d.blocks (leaf es') }
      { ino with root := content rootMax H (C.plug (leaf es')) } (C.plug (leaf es')) [] := by
  have hw : Inserted x (flat H (C.plug (leaf es))) (flat H (C.plug (leaf es'))) := by
    rw [Ctx.flat_plug,Ctx.flat_plug]
    exact hi.within hl hright
  rw [nodeMax_eq_capAt] at hcap
  have hg := hr.graft (leaf es') [] hH hd (by simp) (fun _ _ => rfl) hr.sides
    (stored_leaf _ _) (full_leaf.mpr hi.ne_nil) hw hx ha (List.Perm.refl _) nodup_nil (by simp)
    (fun _ hn => hn) hcap
  rwa [length_nil,charge_zero] at hg

theorem Took.free_grown {d1 : Fs} {fresh : List Nat} (ht : Took g d d1 [c])
    (hf : ∀ b ∈ fresh, d1.used b = false) (b : Nat) (hb : b ∈ fresh ++ [c]) : d.used b = false := by
  rcases mem_append.mp hb with hb | hb
  · have hf := hf b hb
    rw [ht.used,Bool.or_eq_false_iff] at hf
    exact hf.1
  · exact (ht.free b hb).2

theorem Grafted.grown {d1 : Fs} {ino1 ino' : Inode} {H' : Nat} {t' : Tree Extent H'}
    {fresh : List Nat} (ht : Took g d d1 [c]) (h1 : ino1 = { ino.charge g 1 with root := root })
    (hg : Grafted g x d1 ino1 (inner [(c,t)]) d' ino' t' fresh) :
    Grafted g x d ino t d' ino' t' (fresh ++ [c]) where
  calm := hg.calm
  height := hg.height
  rooted := hg.rooted
  inserted := by simpa using hg.inserted
  nodes := by simpa using hg.nodes
  free := ht.free_grown hg.free
  used := fun b => by
    rw [hg.used,ht.used,Bool.or_assoc]
    simp only [mem_append,Bool.decide_or,Bool.or_comm]
  blocks := fun b hb => by
    have hc : b ∉ [c] := fun h0 => hb (hg.nodes.mem_iff.mpr (by
      rw [mem_singleton.mp h0]
      simp))
    exact (hg.blocks b hb).trans (ht.blocks b hc)
  charged := by
    rw [hg.charged,h1,length_append,length_singleton,← charge_charge]
    rfl
  capped := fun hc => hg.capped (capped_inner.mpr ⟨show 1 ≤ rootMax by decide,forall_mem_singleton.mpr
    (hc.mono (le_refl _) (four_le_blockMax g))⟩)
  supply := fun n hn => by
    rw [length_append,← Nat.add_assoc] at hn
    exact hg.supply n (ht.supply _ hn)

theorem Spared.grown {d1 : Fs} {root' : Node} {H' : Nat} {t' : Tree Extent H'} {fresh : List Nat}
    (ht : Took g d d1 [c]) (hH : H+1 < 8) (hs : Spared g d1 (inner [(c,t)]) d' root' t' fresh) :
    Spared g d t d' root' t' (fresh ++ [c]) where
  keeps := ht.keeps.trans hs.keeps
  height := fun _ => hs.height hH
  rooted := hs.rooted
  same := by simpa using hs.same
  nodes := by simpa using hs.nodes
  free := ht.free_grown hs.free

/-! ### Append -/

theorem before_of_end (hs : Sorted es) (h : ((es.getLast?.map Extent.stop).getD 0) ≤ x.block) :
    ∀ e ∈ es, e.Before x := by
  intro e he
  obtain ⟨init,l,rfl⟩ := (eq_nil_or_concat' es).resolve_left (ne_nil_of_mem he)
  have hl := (hs.sane l (by simp)).stop_eq
  rw [getLast?_concat,map_some,getD_some,hl] at h
  rcases mem_append.mp he with hi | hi
  · have hb := (sorted_append.mp hs).2.2 e hi l (by simp)
    simp only [Extent.Before] at hb ⊢
    omega
  · rw [mem_singleton.mp hi]
    exact h

theorem four_le_nodeMax (C : Ctx Extent H h) : 4 ≤ nodeMax g C := by
  cases C with
  | top => exact le_refl 4
  | step b pre post up => exact four_le_blockMax g

theorem frameAt_capacity (t : Tree Extent h) (pos : Nat) (h0 : ∀ b ∈ C.spineAddrs, b ≠ 0) :
    (frameAt g C t pos).capacity g = nodeMax g C := by
  cases C with
  | top => cases h <;> rfl
  | step b pre post up => exact if_neg (h0 b (mem_cons_self ..))

/-- The deepest node with a free slot on the right edge: below it the edge is full. -/
theorem findRoom_edge {t : Tree Extent h} (k : Nat) (hE : C.Edge) (h0 : ∀ b ∈ C.spineAddrs, b ≠ 0)
    (hS : Saturated (blockMax g) (nodeMax g C) h t) :
    (findRoom g (frames g C t) k = none ∧ Saturated (blockMax g) rootMax H (C.plug t)) ∨
    ∃ m, ∃ U : Ctx Extent H (m+1), ∃ cs pos, findRoom g (frames g C t) k =
        some (k+m-h,frameAt g U (inner cs) pos) ∧ h ≤ m ∧
      U.plug (inner cs) = C.plug t ∧ U.Edge ∧ cs.length < nodeMax g U ∧
      ∀ c ∈ cs.getLast?, Saturated (blockMax g) (blockMax g) m c.2 := by
  induction C generalizing k with
  | top => exact .inl ⟨rfl,hS⟩
  | @step h b pre post up ih =>
    obtain ⟨rfl,hE⟩ := hE
    obtain ⟨-,h0⟩ := forall_mem_cons.mp h0
    have hlast : ∀ c ∈ (pre ++ [(b,t)]).getLast?, Saturated (blockMax g) (blockMax g) h c.2 := by
      rw [getLast?_concat]
      rintro c ⟨⟩
      exact hS
    have hentries : (frameAt g up (inner (pre ++ [(b,t)])) pre.length).node.entries =
        (pre ++ [(b,t)]).length := by simp [frameAt,Node.entries]
    rw [frames,findRoom,frameAt_capacity _ _ h0,hentries]
    split
    · rename_i hroom
      exact .inr ⟨h,up,_,_,by rw [Nat.add_sub_cancel],Nat.le_refl _,rfl,hE,hroom,hlast⟩
    rename_i hfull
    rcases ih (k+1) hE h0 (saturated_inner.mpr ⟨not_lt.mp hfull,hlast⟩) with hn | hs
    · exact .inl hn
    obtain ⟨m,U,cs,pos,h1,h2,h3⟩ := hs
    refine .inr ⟨m,U,cs,pos,?_,le_of_succ_le h2,h3⟩
    rw [h1]
    congr 2
    omega

theorem headKey_append_of_ne_nil {l : List Extent} (hl : l ≠ []) (r : List Extent) :
    headKey (l ++ r) = headKey l := by
  cases l with
  | nil => exact absurd rfl hl
  | cons e l => rfl

section Last

variable {m : Nat} {U : Ctx Extent H (m+1)} {cs : List (Nat × Tree Extent m)}
  (hr : Rooted g d ino.root H (U.plug (inner cs))) (hH : H < 8) (hright : U.right = [])
  (hb : ∀ e ∈ flat H (U.plug (inner cs)), e.Before x) (hx : x.Sane) (hroom : cs.length < nodeMax g U)
include hr hH hright hb hx hroom

/-- A planted subtree with the run in it becomes the last child of a node on the right
edge that has room. -/
theorem Rooted.graftLast {t : Tree Extent m} (hp : Planted g d d' c m t) (ht : flat m t = [x]) :
    Grafted g x d ino (U.plug (inner cs))
      { d' with blocks := U.respine (nodeBlock g) d'.blocks (inner (cs ++ [(c,t)])) }
      { ino.charge g (c :: addrs m t).length with
        root := content rootMax H (U.plug (inner (cs ++ [(c,t)]))) }
      (U.plug (inner (cs ++ [(c,t)]))) (c :: addrs m t) := by
  have hr' := hr.keeps hp.took.keeps
  have hins : Inserted x (flat H (U.plug (inner cs))) (flat H (U.plug (inner (cs ++ [(c,t)])))) := by
    have happ := append_inserted hb
    rw [Ctx.flat_plug,hright,append_nil] at happ ⊢
    rw [Ctx.flat_plug,hright,append_nil]
    simpa [ht] using happ
  have haddrs : (addrs (m+1) (inner (cs ++ [(c,t)]))).Perm ((c :: addrs m t) ++ addrs (m+1) (inner cs)) := by
    rw [addrs_concat]
    exact perm_append_comm
  have hperm := Rooted.addrs_perm U haddrs
  rw [nodeMax_eq_capAt] at hroom
  refine hr.graft _ _ hH hp.took.calm hp.took.used (fun b hb => hp.took.blocks b fun h0 =>
    hb (hperm.mem_iff.mpr (mem_append_left _ h0))) hr'.sides ?_ ?_ hins hx
    (fun e he => .inl (hb e he)) haddrs hp.took.nodup hp.took.free hp.took.supply ?_
  · refine (stored_inner _).mpr (forall_mem_append.mpr ⟨?_,?_⟩)
    · exact (stored_inner _).mp (Ctx.stored_plug.mp hr'.stored).1
    · exact forall_mem_singleton.mpr ⟨hp.root,hp.stored⟩
  · obtain ⟨-,hc⟩ := full_inner.mp hr.full_node
    exact full_inner.mpr
      ⟨by simp,forall_mem_append.mpr ⟨hc,forall_mem_singleton.mpr hp.full⟩⟩
  · rintro ⟨-,hcs⟩
    have h4 := four_le_blockMax g
    refine capped_inner.mpr ⟨by simpa using succ_le_of_lt hroom,forall_mem_append.mpr ⟨hcs,
      forall_mem_singleton.mpr (hp.thin.mono (by omega) (by omega))⟩⟩

/-- The link of a new leaf under a node of the right edge that has room. -/
theorem linkSpine_spec (hd : Calm d) (pos : Nat) :
    (∃ ino' d', linkSpine g m (frameAt g U (inner cs) pos) ino d x = (false,ino',d') ∧
      Spared g d (U.plug (inner cs)) d' ino'.root (U.plug (inner cs)) []) ∨
    ∃ ino' d' c, ∃ t : Tree Extent m,
      linkSpine g m (frameAt g U (inner cs) pos) ino d x = (true,ino',d') ∧ Capped 1 1 m t ∧
      flat m t = [x] ∧
      Grafted g x d ino (U.plug (inner cs)) d' ino' (U.plug (inner (cs ++ [(c,t)])))
        (c :: addrs m t) := by
  rw [linkSpine]
  rcases newNode_spec ino hd { max := blockMax g, depth := 0, extents := [x] }
    with ⟨d1,h1,h2⟩ | ⟨b,d1,h1,h2,h3⟩
  · rw [h1]
    exact .inl ⟨ino,d1,rfl,.of_keeps hr h2⟩
  rw [h1]
  have hleaf : Planted g d d1 b 0 (leaf [x]) :=
    ⟨h2,h3,trivial,full_leaf.mpr (by simp),le_refl 1⟩
  rcases makeSpine_spec m hleaf rfl (ino.charge g 1) with ⟨ino2,d2,i1,i2,i3⟩ | ⟨c,d2,k,t,hk,i1,i2,i3,i4⟩
  · have hi : makeSpine g x.block m 1 b (ino.charge g 1) d1 = (none,ino2,d2) := i1
    simp only [hi]
    refine .inl ⟨ino2,d2,rfl,.of_keeps ?_ i3⟩
    rw [i2]
    exact hr
  obtain rfl : k = m := by omega
  have hi : makeSpine g x.block k 1 b (ino.charge g 1) d1 = (some c,(ino.charge g 1).charge g k,d2) :=
    i1
  have hr2 := hr.keeps i4.took.keeps
  have hg := hr.graftLast hH hright hb hx hroom i4 i2
  have hcharge : (ino.charge g 1).charge g k = ino.charge g (c :: addrs k t).length := by
    rw [charge_charge,length_cons,i3,addrs_leaf,length_nil,Nat.zero_add]
  have hhead : headKey (flat (k+1) (inner (cs ++ [(c,t)]))) = headKey (flat (k+1) (inner cs)) := by
    have := headKey_append_of_ne_nil hr.full_node.flat_ne_nil (flat k t)
    simpa using this
  have hroot : (ino.charge g (c :: addrs k t).length).root = content rootMax H (U.plug (inner cs)) :=
    hr.root
  have hstore := store_keyed U pos i4.took.calm hroot hr2.spine hr2.spine_ne_zero hr2.spine_nodup
    fun _ => hhead
  have hindex : (frameAt g U (inner cs) pos).node.index ++ [⟨x.block,c⟩] =
      (cs ++ [(c,t)]).map fun c => ⟨firstKey (flat k c.2),c.1⟩ := by
    simp [frameAt_index,i2,firstKey]
  simp only [hi,hindex,frameAt_withIndex,hcharge,hstore]
  exact .inr ⟨_,_,c,t,rfl,i4.thin,i2,hg⟩

end Last

theorem growAndRetry_insertion {again : Inode → Fs → Bool × Inode × Fs} (hd : Calm d)
    (hr : Rooted g d ino.root H t) (hne : flat H t ≠ []) (hh : H+1 < 8)
    (hagain : ∀ ino' d' c, Calm d' → Rooted g d' ino'.root (H+1) (inner [(c,t)]) →
      ∃ k, Insertion g x d' ino' (inner [(c,t)]) k (again ino' d')) :
    ∃ k, Insertion g x d ino t k (growAndRetry g ino d again) := by
  have hf := hr.full_of_flat hne
  rw [growAndRetry]
  by_cases h0 : (allocBlock g d).1 = 0
  · rw [growDepth_eq hd hr hf,if_pos h0]
    exact ⟨0,.failed (.of_keeps hr (allocBlock_granted hd).keeps)⟩
  obtain ⟨ino1,d1,c,h1,h2,h3,h4⟩ := growDepth_spec hd hr hf h0
  rw [h1]
  obtain ⟨k,hi⟩ := hagain ino1 d1 c h2.calm h4
  change ∃ k, Insertion g x d ino t k (again ino1 d1)
  generalize again ino1 d1 = r at hi ⊢
  cases hi with
  | done hk hg => exact ⟨k+1,.done (by omega) (hg.grown h2 h3)⟩
  | failed hs => exact ⟨0,.failed (hs.grown h2 hh)⟩

/-- What the rightmost leaf takes: the run joins its last record, or fits behind it. -/
def appendLeaf (mx : Nat) (es : List Extent) (x : Extent) : Option (List Extent) :=
  match es.getLast?.filter (joins · x) with
  | some l => some (es.dropLast ++ [{ l with len := l.len+x.len }])
  | none => if es.length < mx then some (es ++ [x]) else none

theorem appendLeaf_spec {mx : Nat} (h : appendLeaf mx es x = some es') (hs : Sorted es)
    (hb : ∀ e ∈ es, e.Before x) :
    Inserted x es es' ∧ (es ≠ [] → headKey es' = headKey es) ∧ (es.length ≤ mx → es'.length ≤ mx) := by
  rw [appendLeaf] at h
  split at h
  · rename_i l hj
    cases h
    obtain ⟨hlast,-⟩ := filter_eq_some_iff.mp hj
    have hes := dropLast_append_getLast? l hlast
    have hhead : headKey (es.dropLast ++ [{ l with len := l.len+x.len }]) = headKey es := by
      conv_rhs => rw [← hes]
      rw [headKey_append,headKey_append]
      rfl
    have hlen : (es.dropLast ++ [{ l with len := l.len+x.len }]).length = es.length := by
      conv_rhs => rw [← hes]
      simp
    exact ⟨appendJoin_inserted hs hj,fun _ => hhead,fun hc => hlen ▸ hc⟩
  · split at h
    · rename_i hroom
      cases h
      exact ⟨append_inserted hb,fun hne => headKey_append_of_ne_nil hne _,fun _ => by
        simpa using succ_le_of_lt hroom⟩
    · cases h

theorem appendLeaf_grafted {C : Ctx Extent H 0} (hd : Calm d)
    (hr : Rooted g d ino.root H (C.plug (leaf es))) (hH : H < 8)
    (hright : C.right = []) (hb : ∀ e ∈ flat H (C.plug (leaf es)), e.Before x) (hx : x.Sane)
    (h : appendLeaf (nodeMax g C) es x = some es') :
    ∃ ino' d', store ino d (frameAt g C (leaf es') 0) = (true,ino',d') ∧
      Grafted g x d ino (C.plug (leaf es)) d' ino' (C.plug (leaf es')) [] := by
  obtain ⟨hi,hk,hcap⟩ := appendLeaf_spec h hr.sorted_node fun e he => hb e (by simp [Ctx.flat_plug,he])
  have hl : ∀ e ∈ C.left, e.block ≤ x.block := fun e he =>
    Nat.le_trans (Nat.le_add_right ..) (hb e (by simp [Ctx.flat_plug,he]))
  have hg := hr.graftLeaf hd hH hi hl (by simp [hright]) hx (fun e he => .inl (hb e he)) hcap
  refine ⟨_,_,store_keyed C 0 hd hr.root hr.spine hr.spine_ne_zero hr.spine_nodup fun hsp => ?_,hg⟩
  -- below the root no leaf is empty
  cases C with
  | top => exact absurd rfl hsp
  | step b pre post up =>
    obtain ⟨-,hc⟩ := full_inner.mp (hr.full_node (U := up))
    exact hk (full_leaf.mp (hc (b,leaf es) (by simp)))

theorem appendLeaf_full {mx : Nat} (h : appendLeaf mx es x = none) : mx ≤ es.length := by
  rw [appendLeaf] at h
  split at h
  · cases h
  · split at h
    · cases h
    · rename_i hfull
      exact not_lt.mp hfull

variable (g) in
/-- What one call of `ext4_extent_append` does at the rightmost leaf. -/
inductive AppendStep (x : Extent) (ino : Inode) (d : Fs) (again : Inode → Fs → Bool × Inode × Fs)
    (D : Ctx Extent H 0) (es : List Extent) : Bool × Inode × Fs → Prop
  | leaf {es' : List Extent} : appendLeaf (nodeMax g D) es x = some es' →
      AppendStep x ino d again D es (store ino d (frameAt g D (leaf es') 0))
  | spine {m : Nat} {U : Ctx Extent H (m+1)} {cs : List (Nat × Tree Extent m)} {pos : Nat} :
      appendLeaf (nodeMax g D) es x = none → U.plug (inner cs) = D.plug (leaf es) → U.Edge →
      cs.length < nodeMax g U → (∀ c ∈ cs.getLast?, Saturated (blockMax g) (blockMax g) m c.2) →
      AppendStep x ino d again D es (linkSpine g m (frameAt g U (inner cs) pos) ino d x)
  | grow : appendLeaf (nodeMax g D) es x = none →
      Saturated (blockMax g) rootMax H (D.plug (leaf es)) →
      AppendStep x ino d again D es (growAndRetry g ino d again)

theorem Rooted.walkRight_eq (hd : Calm d) (hr : Rooted g d root H t) :
    ∃ (D : Ctx Extent H 0) (es : List Extent), D.plug (leaf es) = t ∧ D.Edge ∧
      walkRight root.depth d ⟨0,root,0⟩ [] =
        (some (frameAt g D (leaf es) 0,frames g D (leaf es)),d) := by
  obtain ⟨D,es,hplug,hedge,hwalk⟩ := Ext4.walkRight_eq hd hr.stored hr.full .top
  refine ⟨D,es,hplug,hedge trivial,?_⟩
  rw [← hwalk,hr.root,content_depth]
  rfl

theorem extentAppendFrom_step (calls : Nat) {D : Ctx Extent H 0}
    (hr : Rooted g d ino.root H (D.plug (leaf es))) (hE : D.Edge)
    (hw : walkRight ino.root.depth d ⟨0,ino.root,0⟩ [] =
      (some (frameAt g D (leaf es) 0,frames g D (leaf es)),d))
    (hpos : 0 < x.len) (hlen : x.len ≤ 32768) (hdepth : H+1 < 8) :
    AppendStep g x ino d (fun ino d => extentAppendFrom g calls ino d x) D es
      (extentAppendFrom g (calls+1) ino d x) := by
  have hd8 : ¬ 8 ≤ ino.root.depth+1 := by
    rw [hr.root,content_depth]
    omega
  rw [extentAppendFrom,if_neg (not_not.mpr hr.magic),if_neg (ne_of_gt hpos),
    if_neg (not_lt.mpr hlen),if_neg hd8]
  simp only [hw,frameAt_extents,frameAt_withExtents,frameAt_capacity _ _ hr.spine_ne_zero]
  cases hj : es.getLast?.filter (joins · x) with
  | some l => exact .leaf (by rw [appendLeaf,hj])
  | none =>
    simp only
    split
    · rename_i hroom
      exact .leaf (by rw [appendLeaf,hj,if_pos hroom])
    rename_i hfull
    have hnone : appendLeaf (nodeMax g D) es x = none := by rw [appendLeaf,hj,if_neg hfull]
    rcases findRoom_edge (t := leaf es) 0 hE hr.spine_ne_zero (appendLeaf_full hnone) with
      ⟨h1,h2⟩ | ⟨m,U,cs,pos,h1,-,h2,h3,h4,h5⟩
    · rw [h1]
      exact .grow hnone h2
    · rw [h1,Nat.zero_add,Nat.sub_zero]
      exact .spine hnone h2 h3 h4 h5

theorem extentAppendFrom_insertion (calls : Nat) (hd : Calm d) (hr : Rooted g d ino.root H t)
    (hb : ∀ e ∈ flat H t, e.Before x) (hx : x.Sane) :
    ∃ k, Insertion g x d ino t k (extentAppendFrom g calls ino d x) := by
  induction calls generalizing ino d H with
  | zero => exact ⟨0,.failed (.of_keeps hr (.refl hd))⟩
  | succ calls ih =>
    by_cases hgo : x.len ≤ 32768 ∧ H+1 < 8
    · obtain ⟨D,es,rfl,hE,hw⟩ := hr.walkRight_eq hd
      have hH : H < 8 := lt_of_succ_lt hgo.2
      have hstep := extentAppendFrom_step calls hr hE hw hx.1 hgo.1 hgo.2
      generalize extentAppendFrom g (calls+1) ino d x = r at hstep ⊢
      cases hstep with
      | leaf h =>
        obtain ⟨ino',d',hstore,hg⟩ := appendLeaf_grafted hd hr hH hE.right_eq hb hx h
        rw [hstore]
        exact ⟨0,.done rfl hg⟩
      | spine _ h2 h3 h4 _ =>
        rw [← h2] at hr hb ⊢
        rcases linkSpine_spec hr hH h3.right_eq hb hx h4 hd _ with
          ⟨ino',d',hl,hs⟩ | ⟨ino',d',c,t,hl,-,-,hg⟩
        · rw [hl]
          exact ⟨0,.failed hs⟩
        · rw [hl]
          exact ⟨0,.done rfl hg⟩
      | grow h _ =>
        have hlen := le_trans (four_le_nodeMax D) (appendLeaf_full h)
        have hne : es ≠ [] := ne_nil_of_length_pos (by omega)
        exact growAndRetry_insertion hd hr (by simp [Ctx.flat_plug,hne]) hgo.2
          fun ino1 d1 c h1 h2 => ih h1 h2 (by simpa using hb)
    · -- too long a run, or too deep a tree
      have hno : extentAppendFrom g (calls+1) ino d x = (false,ino,d) := by
        rw [extentAppendFrom,if_neg (not_not.mpr hr.magic),if_neg (ne_of_gt hx.1),hr.root,
          content_depth]
        split
        · rfl
        · exact if_pos (by omega)
      rw [hno]
      exact ⟨0,.failed (.of_keeps hr (.refl hd))⟩

end Lariat.Ext4
