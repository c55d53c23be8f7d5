import Lariat.Ext4.ExtentTree

/-! Changing an extent tree at one place: what else on the volume stays, and that writing a
node and handing its first block up the path gives the tree with the node in place. -/
namespace Lariat.Ext4
open Foundation.BlockTree List Function

variable {g : Geometry} {d d' d'' : Fs} {ino : Inode} {root : Node} {h H : Nat} {extra : List Nat}

/-! ### Blocks in use stay as they are -/

structure Keeps (d d' : Fs) : Prop where
  calm : Calm d'
  used : ∀ b, b ≠ 0 → d.used b = true → d'.used b = true
  blocks : ∀ b, b ≠ 0 → d.used b = true → d'.blocks b = d.blocks b

theorem Keeps.refl (hd : Calm d) : Keeps d d := ⟨hd,fun _ _ h => h,fun _ _ _ => rfl⟩

theorem Keeps.trans (h1 : Keeps d d') (h2 : Keeps d' d'') : Keeps d d'' where
  calm := h2.calm
  used := fun b h0 hb => h2.used b h0 (h1.used b h0 hb)
  blocks := fun b h0 hb => (h2.blocks b h0 (h1.used b h0 hb)).trans (h1.blocks b h0 hb)

variable {b : Nat} {t t' : Tree Extent h}

theorem Granted.keeps (h : Granted d d' b) : Keeps d d' := by
  have hne : ∀ x, x ≠ 0 → d.used x = true → x ≠ b := by
    rintro x h0 hx rfl
    exact absurd hx (by simp [h.free h0])
  exact ⟨h.calm,fun x h0 hx => (h.used x (hne x h0 hx)).trans hx,
    fun x h0 hx => h.blocks x (hne x h0 hx)⟩

variable (g) in
/-- The allocator handed out the blocks of `fresh`, and no other block was touched. -/
structure Took (d d' : Fs) (fresh : List Nat) : Prop where
  calm : Calm d'
  nodup : fresh.Nodup
  free : ∀ b ∈ fresh, b ≠ 0 ∧ d.used b = false
  used : ∀ b, d'.used b = (d.used b || decide (b ∈ fresh))
  blocks : ∀ b, b ∉ fresh → d'.blocks b = d.blocks b
  supply : ∀ n, Supplies g (n+fresh.length) d → Supplies g n d'

namespace Took

variable {fresh fresh' : List Nat}

variable {b : Nat}

theorem taken (h : Took g d d' fresh) (hb : b ∈ fresh) : d'.used b = true := by
  rw [h.used,decide_eq_true hb,Bool.or_true]

theorem kept (h : Took g d d' fresh) (hb : d.used b = true) : d'.used b = true := by
  rw [h.used,hb,Bool.true_or]

theorem notMem (h : Took g d d' fresh) (hb : d.used b = true) : b ∉ fresh := fun hmem => by
  rw [(h.free b hmem).2] at hb
  cases hb

theorem keeps (h : Took g d d' fresh) : Keeps d d' :=
  ⟨h.calm,fun _ _ hb => h.kept hb,fun b _ hb => h.blocks b (h.notMem hb)⟩

theorem trans (h1 : Took g d d' fresh) (h2 : Took g d' d'' fresh') : Took g d d'' (fresh' ++ fresh) where
  calm := h2.calm
  nodup := by
    refine nodup_append.mpr ⟨h2.nodup,h1.nodup,fun a ha b hb hab => ?_⟩
    exact h2.notMem (h1.taken hb) (hab ▸ ha)
  free := by
    intro b hb
    rcases mem_append.mp hb with hb | hb
    · have hf := (h2.free b hb).2
      rw [h1.used,Bool.or_eq_false_iff] at hf
      exact ⟨(h2.free b hb).1,hf.1⟩
    · exact h1.free b hb
  used := fun b => by
    rw [h2.used,h1.used,Bool.or_assoc]
    simp only [mem_append,Bool.decide_or,Bool.or_comm]
  blocks := fun b hb => by
    obtain ⟨h2b,h1b⟩ := not_or.mp (mt mem_append.mpr hb)
    exact (h2.blocks b h2b).trans (h1.blocks b h1b)
  supply := fun n hn => by
    rw [length_append,← Nat.add_assoc] at hn
    exact h2.supply n (h1.supply _ hn)

theorem put (h : Took g d d' fresh) (hb : b ∈ fresh) (c : Block) : Took g d (d'.put b c) fresh :=
  ⟨h.calm.put b c,h.nodup,h.free,h.used,fun a ha =>
    (update_of_ne (fun h0 : a = b => ha (h0 ▸ hb)) _ _).trans (h.blocks a ha),
    fun n hn => (h.supply n hn).put h.calm b c⟩

end Took

theorem allocBlock_took (hd : Calm d) (hb : (allocBlock g d).1 ≠ 0) :
    Took g d (allocBlock g d).2 [(allocBlock g d).1] where
  calm := (allocBlock_granted hd).calm
  nodup := nodup_singleton _
  free := forall_mem_singleton.mpr ⟨hb,(allocBlock_granted hd).free hb⟩
  used := fun a => by
    have h := allocBlock_granted (g := g) hd
    by_cases ha : a = (allocBlock g d).1
    · subst ha
      simp [h.taken hb]
    · simp [h.used a ha,ha]
  blocks := fun a ha => (allocBlock_granted hd).blocks a (by simpa using ha)
  supply := fun _ hn => hn.2

theorem GrantedRun.keeps {n : Nat} (h : GrantedRun d d' b n) : Keeps d d' := by
  refine ⟨h.calm,fun x _ hx => ?_,fun x _ _ => congrFun h.blocks x⟩
  rw [h.used]
  split
  · rfl
  · exact hx

theorem Fs.put_self (d : Fs) (b : Nat) : d.put b (d.blocks b) = d := by
  rw [Fs.put,update_eq_self]

namespace Rep

variable {t : Tree Extent H}

theorem keeps (hr : Rep g d root H t extra) (hk : Keeps d d') : Rep g d' root H t extra where
  calm := hk.calm
  height := hr.height
  root := hr.root
  stored := hr.stored.congr fun b hb => by
    obtain ⟨h0,hu⟩ := hr.held b (by simp [hb])
    exact hk.blocks b h0 hu
  full := hr.full
  sorted := hr.sorted
  nodup := hr.nodup
  held := fun b hb => ⟨(hr.held b hb).1,hk.used b (hr.held b hb).1 (hr.held b hb).2⟩

end Rep

/-! ### Writing a node and its way up -/

theorem store_top (ino : Inode) (d : Fs) (t : Tree Extent H) (pos : Nat) :
    store ino d (frameAt g (.top : Ctx Extent H H) t pos) =
      (true,{ ino with root := content rootMax H t },d) := rfl

theorem store_step (hd : Calm d) (hb : b ≠ 0) (pre post : List (Nat × Tree Extent h))
    (up : Ctx Extent H (h+1)) (t : Tree Extent h) (pos : Nat) :
    store ino d (frameAt g (.step b pre post up) t pos) = (true,ino,d.put b (nodeBlock g h t)) := by
  rw [store,if_neg (show (frameAt g (.step b pre post up) t pos).blk ≠ 0 from hb)]
  exact congrArg (fun r : Bool × Fs => (r.1,ino,r.2)) (hd.writeBlock b _)

theorem modify_length_append {α : Type*} (l r : List α) (a : α) (f : α → α) :
    (l ++ a :: r).modify l.length f = l ++ f a :: r := by
  induction l with
  | nil => rfl
  | cons b l ih => exact congrArg (b :: ·) ih

section

variable (C : Ctx Extent H (h+1)) (pre post : List (Nat × Tree Extent h)) (b : Nat)

theorem setKey_inner (t t' : Tree Extent h) :
    (frameAt g C (inner (pre ++ (b,t) :: post)) pre.length).setKey (firstKey (flat h t')) =
      frameAt g C (inner (pre ++ (b,t') :: post)) pre.length := by
  have hmod := modify_length_append (pre.map fun c => Index.mk (firstKey (flat h c.2)) c.1)
    (post.map fun c => Index.mk (firstKey (flat h c.2)) c.1) ⟨firstKey (flat h t),b⟩
    fun x => { x with block := firstKey (flat h t') }
  rw [length_map] at hmod
  have hindex : ((pre ++ (b,t) :: post).map fun c => Index.mk (firstKey (flat h c.2)) c.1).modify
      pre.length (fun x => { x with block := firstKey (flat h t') }) =
      (pre ++ (b,t') :: post).map fun c => ⟨firstKey (flat h c.2),c.1⟩ := by
    simpa only [map_append,map_cons] using hmod
  exact (congrArg _ hindex).trans (frameAt_withIndex g C _ _ _)

theorem key_inner (t : Tree Extent h) :
    (frameAt g C (inner (pre ++ (b,t) :: post)) pre.length).key = some (firstKey (flat h t)) := by
  simp [Frame.key,frameAt]

end

def headKey (es : List Extent) : Option Nat := es.head?.map (·.block)

theorem headKey_append (l r : List Extent) : headKey (l ++ r) = (headKey l).or (headKey r) := by
  cases l <;> rfl

theorem firstKey_eq_of_headKey {l r : List Extent} (h : headKey l = headKey r) :
    firstKey l = firstKey r := congrArg (·.getD 0) h

/-- While the first block of a node stays, nothing above the node has to change. -/
theorem respine_same (C : Ctx Extent H h) {m : Nat → Block}
    (hc : ∀ mx, content mx h t' = content mx h t) (hk : headKey (flat h t') = headKey (flat h t))
    (hsp : C.Spine (nodeBlock g) m t) : C.respine (nodeBlock g) m t' = m ∧
      content rootMax H (C.plug t') = content rootMax H (C.plug t) := by
  induction C with
  | top => exact ⟨rfl,hc _⟩
  | @step h b pre post up ih =>
    have hb : nodeBlock g h t' = m b := by rw [hsp.1,nodeBlock,nodeBlock,hc]
    rw [Ctx.respine,hb,update_eq_self]
    refine ih (fun mx => ?_) ?_ hsp.2
    · simp only [content_inner,map_append,map_cons,firstKey_eq_of_headKey hk]
    · simp only [flat_inner,flatMap_append,flatMap_cons,headKey_append,hk]

theorem spine_put {up : Ctx Extent H h} (hb : b ∉ up.spineAddrs) (x : Block)
    (hsp : up.Spine (nodeBlock g) d.blocks t) : up.Spine (nodeBlock g) (d.put b x).blocks t :=
  hsp.congr fun a ha => update_of_ne (fun h0 : a = b => hb (h0 ▸ ha)) _ _

section

variable (C : Ctx Extent H h) (pos : Nat) (hd : Calm d) (hroot : ino.root = content rootMax H (C.plug t))
  (hsp : C.Spine (nodeBlock g) d.blocks t) (h0 : ∀ b ∈ C.spineAddrs, b ≠ 0)
include hd hroot hsp h0

theorem store_same (hc : ∀ mx, content mx h t' = content mx h t) :
    (store ino d (frameAt g C t' pos)).2 = (ino,d) := by
  cases C with
  | top =>
    have hr : content rootMax _ t' = ino.root := (hc _).trans hroot.symm
    rw [store_top,hr]
  | step b pre post up =>
    have hb : nodeBlock g h t' = d.blocks b := by rw [hsp.1,nodeBlock,nodeBlock,hc]
    rw [store_step hd (h0 b (mem_cons_self ..)),hb,Fs.put_self]

/-- A node written back and its first block handed up the path: the inode and the volume
then have the tree with the node in place. -/
theorem store_propagate (always : Bool) (hn : C.spineAddrs.Nodup) (hf : Full h t') (hs : C.FullSides) :
    propagate always (frames g C t) (frameAt g C t' pos).node.firstBlock
        (store ino d (frameAt g C t' pos)).2.1 (store ino d (frameAt g C t' pos)).2.2 =
      ({ ino with root := content rootMax H (C.plug t') },
        { d with blocks := C.respine (nodeBlock g) d.blocks t' }) := by
  induction C generalizing d pos with
  | top => rfl
  | @step h b pre post up ih =>
    obtain ⟨hb,hup⟩ := nodup_cons.mp hn
    obtain ⟨hb0,hup0⟩ := forall_mem_cons.mp h0
    obtain ⟨hpre,hpost,hsides⟩ := hs
    have hfull : Full (h+1) (inner (pre ++ (b,t') :: post)) :=
      full_inner.mpr ⟨by simp,forall_mem_append.mpr ⟨hpre,forall_mem_cons.mpr ⟨hf,hpost⟩⟩⟩
    have hspine := spine_put hb (nodeBlock g h t') hsp.2
    have hfirst : (frameAt g (.step b pre post up) t' pos).node.firstBlock = firstKey (flat h t') :=
      content_firstBlock _ (.inr hf)
    -- where the key stays, leaving the parent alone is as good as writing it
    have hstored : (if always || (frameAt g up (inner (pre ++ (b,t) :: post)) pre.length).key !=
          some (firstKey (flat h t')) then
        (store ino (d.put b (nodeBlock g h t'))
          (frameAt g up (inner (pre ++ (b,t') :: post)) pre.length)).2
        else (ino,d.put b (nodeBlock g h t'))) =
        (store ino (d.put b (nodeBlock g h t'))
          (frameAt g up (inner (pre ++ (b,t') :: post)) pre.length)).2 := by
      split
      · rfl
      rename_i hsame
      simp only [key_inner,Bool.or_eq_true,bne_iff_ne,ne_eq,not_or,not_not,
        Option.some.injEq] at hsame
      refine (store_same up _ (hd.put b _) hroot hspine hup0 fun mx => ?_).symm
      simp only [content_inner,map_append,map_cons,hsame.2]
    rw [store_step hd hb0,hfirst,frames,propagate,setKey_inner,hstored]
    exact ih _ (hd.put b _) hroot hspine hup0 hup hfull hsides

theorem store_keyed (hn : C.spineAddrs.Nodup)
    (hk : C.spineAddrs ≠ [] → headKey (flat h t') = headKey (flat h t)) :
    store ino d (frameAt g C t' pos) = (true,{ ino with root := content rootMax H (C.plug t') },
      { d with blocks := C.respine (nodeBlock g) d.blocks t' }) := by
  cases C with
  | top => rfl
  | step b pre post up =>
    obtain ⟨hb,hup⟩ := nodup_cons.mp hn
    have hkey := hk (by simp [Ctx.spineAddrs])
    have hspine := spine_put hb (nodeBlock g h t') hsp.2
    have hc : ∀ mx, content mx (h+1) (inner (pre ++ (b,t') :: post)) =
        content mx (h+1) (inner (pre ++ (b,t) :: post)) := fun mx => by
      simp only [content_inner,map_append,map_cons,firstKey_eq_of_headKey hkey]
    have hk' : headKey (flat (h+1) (inner (pre ++ (b,t') :: post))) =
        headKey (flat (h+1) (inner (pre ++ (b,t) :: post))) := by
      simp only [flat_inner,flatMap_append,flatMap_cons,headKey_append,hkey]
    obtain ⟨h1,h2⟩ := respine_same up hc hk' hspine
    rw [Fs.put_blocks] at h1
    rw [Ctx.plug] at hroot
    rw [store_step hd (h0 b (mem_cons_self ..)),Ctx.plug,Ctx.respine,h1,h2,← hroot]
    rfl

end

/-! ### The tree after the change -/

namespace Rooted

variable {t : Tree Extent H}

theorem keeps (hr : Rooted g d root H t) (hk : Keeps d d') : Rooted g d' root H t where
  root := hr.root
  stored := hr.stored.congr fun b hb => hk.blocks b (hr.held b hb).1 (hr.held b hb).2
  full := hr.full
  sorted := hr.sorted
  nodup := hr.nodup
  held := fun b hb => ⟨(hr.held b hb).1,hk.used b (hr.held b hb).1 (hr.held b hb).2⟩

theorem notMem (hr : Rooted g d root H t) {b : Nat} (hb : d.used b = false) : b ∉ addrs H t := by
  intro hmem
  have := (hr.held b hmem).2
  rw [hb] at this
  cases this

theorem magic (hr : Rooted g d root H t) : root.magic = extentMagic := by
  rw [hr.root,content_magic]

/-- Neither the memory to spare nor the coming transfers matter to a tree. -/
theorem congr (hr : Rooted g d root H t) (hu : d'.used = d.used) (hb : d'.blocks = d.blocks) :
    Rooted g d' root H t :=
  ⟨hr.root,hb ▸ hr.stored,hr.full,hr.sorted,hr.nodup,fun b hmem => hu ▸ hr.held b hmem⟩

theorem mapping_eq (hr : Rooted g d ino.root H t) (hH : H < descentMax) (lblk : Nat) :
    mapping d ino lblk = some (lookup (flat H t) lblk) := by
  have hcalm : Calm { d with heap := [], io := [] } := ⟨rfl,rfl⟩
  rw [mapping,findExtentBlock,if_neg (not_not.mpr hr.magic),hcalm.kzalloc]
  simp only [hr.root]
  rw [findExtentLoop_eq hcalm hr.stored hr.full _ _ hH hr.sorted]

theorem walkTo_eq (hr : Rooted g d root H t) (hd : Calm d) {D : Ctx Extent H 0} {es : List Extent}
    {lblk : Nat} (hl : Leads g lblk t D es) :
    walkTo lblk root.depth d ⟨0,root,0⟩ [] =
      (some (frameAt g D (leaf es) 0,frames g D (leaf es)),d) := by
  have hw := hl d H .top hd hr.stored
  rw [Ctx.top_comp] at hw
  rw [← hw,hr.root,content_depth]
  rfl

theorem full_of_flat (hr : Rooted g d root H t) (hne : flat H t ≠ []) : Full H t := by
  rcases hr.full with rfl | hf
  · exact hne
  · exact hf

end Rooted

namespace Rooted

variable {C : Ctx Extent H h} {t t' : Tree Extent h} {fresh : List Nat}

section Spine

variable (hr : Rooted g d root H (C.plug t))
include hr

theorem spine_nodup : C.spineAddrs.Nodup := by
  have h1 := hr.nodup
  rw [(C.addrs_plug_perm t).nodup_iff,nodup_append,nodup_append] at h1
  exact h1.2.1.2.1

theorem spine_ne_zero : ∀ b ∈ C.spineAddrs, b ≠ 0 := by
  intro b hb
  have hmem : b ∈ addrs H (C.plug t) := (C.addrs_plug_perm t).mem_iff.mpr (by simp [hb])
  exact (hr.held b hmem).1

theorem spine : C.Spine (nodeBlock g) d.blocks t :=
  (Ctx.stored_plug.mp hr.stored).2.2

theorem sides : C.Sides (nodeBlock g) d.blocks :=
  (Ctx.stored_plug.mp hr.stored).2.1

theorem fullSides : C.FullSides := by
  rcases hr.full with h0 | hf
  · cases C with
    | top => trivial
    | step b pre post up => exact absurd (h0 ▸ up.height_le) (Nat.not_succ_le_zero _)
  · exact (Ctx.full_plug.mp hf).2

end Spine

theorem full_node {m : Nat} {U : Ctx Extent H (m+1)} {t : Tree Extent (m+1)}
    (hr : Rooted g d root H (U.plug t)) : Full (m+1) t := by
  refine (Ctx.full_plug.mp (hr.full.resolve_left fun h0 => ?_)).1
  exact absurd (h0 ▸ U.height_le) (Nat.not_succ_le_zero _)

theorem sorted_node (hr : Rooted g d root H (C.plug t)) : Sorted (flat h t) := by
  have hs := hr.sorted
  rw [Ctx.flat_plug] at hs
  exact (sorted_append.mp (sorted_append.mp hs).1).2.1

theorem addrs_perm (C : Ctx Extent H h) (ha : (addrs h t').Perm (fresh ++ addrs h t)) :
    (addrs H (C.plug t')).Perm (fresh ++ addrs H (C.plug t)) := by
  refine perm_iff_count.mpr fun b => ?_
  have h1 := (C.addrs_plug_perm t').count_eq b
  have h2 := (C.addrs_plug_perm t).count_eq b
  have h3 := ha.count_eq b
  simp only [count_append] at h1 h2 h3 ⊢
  omega

/-- The new node with its way up, on a volume that holds what is below it and beside the
way. The new tree has the nodes of the old one and those of `fresh`. -/
theorem replace (hr : Rooted g d root H (C.plug t))
    (hused : ∀ b, d'.used b = (d.used b || decide (b ∈ fresh)))
    (hsides : C.Sides (nodeBlock g) d'.blocks) (hst : Stored (nodeBlock g) d'.blocks h t')
    (hf : Full h t') (hsorted : Sorted (flat H (C.plug t')))
    (haddrs : (addrs h t').Perm (fresh ++ addrs h t)) (hn : fresh.Nodup)
    (hfree : ∀ b ∈ fresh, b ≠ 0 ∧ d.used b = false) :
    Rooted g { d' with blocks := C.respine (nodeBlock g) d'.blocks t' }
      (content rootMax H (C.plug t')) H (C.plug t') := by
  have hperm := addrs_perm C haddrs
  have hnodup : (addrs H (C.plug t')).Nodup := by
    refine hperm.nodup_iff.mpr (nodup_append.mpr ⟨hn,hr.nodup,fun a ha b hb hab => ?_⟩)
    exact hr.notMem (hfree a ha).2 (hab ▸ hb)
  refine ⟨rfl,Ctx.stored_respine hst hsides hnodup,.inr (Ctx.full_plug.mpr ⟨hf,hr.fullSides⟩),
    hsorted,hnodup,fun b hb => ?_⟩
  rw [hused]
  rcases mem_append.mp (hperm.mem_iff.mp hb) with hb | hb
  · simp [hb,(hfree b hb).1]
  · simp [hr.held b hb]

end Rooted

end Lariat.Ext4
