import Lariat.Ext4.Progress

/-! Trees that grew by appends alone are packed: every node off the right edge is full. A run
that belongs inside such a tree may find no room, although the allocator has blocks. -/
namespace Lariat.Ext4
open Foundation.BlockTree List BitVec Nat

variable {g : Geometry} {d : Fs} {ino : Inode} {H : Nat} {x : Extent} {es : List Extent}

section Append

variable {t t' : Tree Extent H}

theorem Appended.packed (ha : Appended g x t t') (hp : Packed (blockMax g) H t)
    (hc : Capped (blockMax g) rootMax H t) : Packed (blockMax g) H t' := by
  cases ha with
  | inLeaf hE _ => exact hE.packed hp fun _ => trivial
  | @inChild m c U cs t hE hS hthin _ =>
    obtain ⟨⟨-,hcs⟩,-⟩ := Ctx.capped_plug.mp hc
    refine hE.packed hp fun h => packed_concat.mpr ⟨?_,hthin.packed⟩
    -- the child that was last so far is full, or the new leaf would be below it
    rcases eq_nil_or_concat' cs with rfl | ⟨init,⟨b,u⟩,rfl⟩
    · simp
    · obtain ⟨h1,h2⟩ := packed_concat.mp h
      have hu := h2.complete (hS (b,u) getLast?_concat) (hcs (b,u)
        (mem_append_right _ (mem_singleton_self _)))
      exact forall_mem_append.mpr ⟨h1,forall_mem_singleton.mpr hu⟩

theorem Appended.flat_eq (ha : Appended g x t t')
    (hj : ∀ l ∈ flat H t, joins l x = false) : flat H t' = flat H t ++ [x] := by
  cases ha with
  | @inLeaf D es es' hE h =>
    have hes : es' = es ++ [x] := by
      rw [appendLeaf] at h
      split at h
      · rename_i l hl
        obtain ⟨hmem,hlx⟩ := Option.filter_eq_some_iff.mp hl
        have hlm : l ∈ flat H (D.plug (leaf es)) := by
          simp [Ctx.flat_plug,mem_of_getLast? hmem]
        rw [hj l hlm] at hlx
        cases hlx
      · split at h
        · cases h
          rfl
        · cases h
    rw [Ctx.flat_plug,Ctx.flat_plug,hE.right_eq,hes]
    simp
  | inChild hE _ _ hflat =>
    rw [Ctx.flat_plug,Ctx.flat_plug,hE.right_eq]
    simp [hflat]

/-- An append to a packed tree keeps it packed. A new root comes on top of a full tree only. -/
theorem extentAppend_packed (hw : WellFormed g d ino.root H t) (hd : Calm d)
    (hp : Packed (blockMax g) H t) (hb : ∀ e ∈ flat H t, e.Before x) (hx : x.Sane)
    (hlen : x.len ≤ 32768) (hj : ∀ l ∈ flat H t, joins l x = false) (hH : H ≤ 5)
    (hs : Supplies g (H+2) d) :
    ∃ ino' d' H', ∃ t' : Tree Extent H', ∃ fresh, extentAppend g ino d x = (true,ino',d') ∧
      Grafted g x d ino t d' ino' t' fresh ∧ Packed (blockMax g) H' t' ∧
      flat H' t' = flat H t ++ [x] ∧
      (H' = H ∨ H' = H+1 ∧ (flat H t).length = rootMax*width (blockMax g) H) := by
  have hr := hw.toRooted
  by_cases hroom : EdgeRoom g t x
  · obtain ⟨ino',d',t',fresh,heq,hg,ha⟩ := extentAppendFrom_room 7 hd hr hx hlen (by omega) hb
      (hs.mono (Nat.le_add_right ..)) hroom
    exact ⟨ino',d',H,t',fresh,heq,hg,ha.packed hp hw.capped,ha.flat_eq hj,.inl rfl⟩
  have hS : Saturated (blockMax g) rootMax H t := not_not.mp (not_or.mp hroom).1
  obtain ⟨ino1,d1,c,heq,ht,h1,hr1⟩ := extentAppendFrom_grow 7 hd hr hx hlen (by omega) hs.1 hroom
  obtain ⟨ino',d',t',fresh,heq',hg,ha⟩ := extentAppendFrom_room 6 ht.calm hr1 hx hlen (by omega)
    (by simpa using hb) (ht.supply _ hs) (edgeRoom_grown c t)
  have hcap : Capped (blockMax g) rootMax (H+1) (inner [(c,t)]) :=
    capped_inner.mpr ⟨show 1 ≤ rootMax by decide,forall_mem_singleton.mpr
      (hw.capped.mono (le_refl _) (four_le_blockMax g))⟩
  have hpack : Packed (blockMax g) (H+1) (inner [(c,t)]) :=
    packed_concat.mpr ⟨fun _ h => absurd h not_mem_nil,hp⟩
  have hflat := ha.flat_eq (by simpa using hj)
  refine ⟨ino',d',H+1,t',fresh ++ [c],heq.trans heq',hg.grown ht h1,ha.packed hpack hcap,?_,
    .inr ⟨rfl,hp.length_flat hS hw.capped⟩⟩
  simpa using hflat

end Append

/-! ### A supply of blocks -/

variable {n : Nat} {t : Tree Extent H}

/-- A group whose bits are set up to a point gives out all that is left of it. -/
theorem supplies_of_group {c m : Nat} (hd : Calm d) (hg : 0 < g.groupsCount)
    (hused : ∀ bit, d.used (g.blockOf 0 bit) = decide (bit < c)) (hc : 0 < c)
    (hfree : d.freeBlocks 0 = .ofNat 16 m) (hn : n ≤ m) (hm : m < 65536)
    (hfit : c+n ≤ g.blocksPerGroup) : Supplies g n d := by
  induction n generalizing d c m with
  | zero => trivial
  | succ n ih =>
    have hfirst : firstFree g d 0 = some c := by
      rw [firstFree,find?_range_eq_some]
      refine ⟨by simp [hused],mem_range.mpr (by omega),fun j hj => ?_⟩
      simp [hused,hj]
    have hne : d.freeBlocks 0 ≠ 0 := by
      rw [hfree]
      intro h0
      have := congrArg BitVec.toNat h0
      rw [toNat_ofNat,mod_eq_of_lt hm] at this
      simp at this
      omega
    obtain ⟨k,hk⟩ := exists_eq_succ_of_ne_zero (ne_of_gt hg)
    have halloc : allocBlock g d = (g.blockOf 0 c,(d.grab 0 (g.blockOf 0 c) 1).put
        (g.blockOf 0 c) zeroBlock) := by
      have hgrab := hd.grab 0 (g.blockOf 0 c) 1
      rw [allocBlock,hd.kzalloc,hk,range_succ_eq_map]
      simp only [allocBlockIn,if_neg hne,hd.transfer,hfirst,hgrab.writeBlock]
    rw [Supplies,halloc]
    refine ⟨by simp only [Geometry.blockOf]; omega,?_⟩
    refine ih (m := m-1) ((hd.grab ..).put ..) (fun bit => ?_) (succ_pos c) ?_
      (by omega) (by omega) (by omega)
    · have hbit : g.blockOf 0 c ≤ g.blockOf 0 bit ∧ g.blockOf 0 bit < g.blockOf 0 c+1 ↔ bit = c := by
        simp only [Geometry.blockOf]
        omega
      simp only [Fs.put,Fs.grab,hused]
      by_cases h1 : bit = c
      · simp [h1]
      · rw [if_neg (hbit.not.mpr h1),decide_eq_decide]
        omega
    · simp only [Fs.put,Fs.grab,Function.update_self,hfree]
      apply eq_of_toNat_eq
      simp [toNat_sub]
      omega

/-! ### A full index node -/

/-- A run of blocks that the inode has no mapping for. -/
def Fresh (d : Fs) (ino : Inode) (x : Extent) : Prop :=
  0 < x.len ∧ x.len ≤ 32768 ∧ x.block+x.len < 0x100000000 ∧
    ∀ l, x.Covers l → mapping d ino l = some 0

/-- What insertions that went through make of an empty inode. -/
inductive Built (g : Geometry) (d₀ : Fs) : Inode → Fs → Prop
  | new : Built g d₀ initExtentInode d₀
  | append {ino ino' : Inode} {d d' : Fs} {x : Extent} : Built g d₀ ino d → Fresh d ino x →
      (∀ e ∈ extentsBelow d.blocks ino.root.depth ino.root, e.Before x) →
      extentAppend g ino d x = (true,ino',d') → Built g d₀ ino' d'
  | map {ino ino' : Inode} {d d' : Fs} {x : Extent} : Built g d₀ ino d → Fresh d ino x →
      extentMap g ino d x = (true,ino',d') → Built g d₀ ino' d'

theorem Rooted.fresh (hr : Rooted g d ino.root H t) (hH : H < 8) (hx : x.Sane)
    (hlen : x.len ≤ 32768) (ha : Apart x (flat H t)) : Fresh d ino x := by
  refine ⟨hx.1,hlen,hx.2,fun l hl => ?_⟩
  rw [hr.mapping_eq (lt_trans hH (by decide)),lookup_of_not_mapped hr.sorted.sane]
  rintro ⟨e,he,hel⟩
  simp only [Extent.Covers] at hl hel
  rcases ha e he with h | h <;> simp only [Extent.Before] at h <;> omega

/-- A volume of one group of 8192 blocks of 1024 bytes, 893 of them free. -/
def groupGeometry : Geometry :=
  { smallGeometry with
    blocksPerGroup := 8192, words := rfl, blocksPerGroup_pos := by decide, blocks_le := by decide }

def groupVolume : Fs :=
  { used := fun b => b < 7300, freeBlocks := fun _ => 893, sbFreeBlocks := 893
    blocks := fun _ => zeroBlock }

theorem groupVolume_supplies : Supplies groupGeometry 400 groupVolume := by
  refine supplies_of_group (c := 7299) ⟨rfl,rfl⟩ (by decide) (fun bit => ?_) (by decide)
    rfl (by decide) (by decide) (by decide)
  simp only [groupVolume,groupGeometry,smallGeometry,Geometry.blockOf,decide_eq_decide]
  omega

/-- Every other logical block, one block each. -/
def gapRun (i : Nat) : Extent := ⟨2*i,1,.ofNat _ (100+i)⟩

theorem gapRun_sane {i : Nat} (hi : i ≤ 7056) : (gapRun i).Sane := by
  simp only [gapRun,Extent.Sane]
  omega

theorem gapRun_joins {i : Nat} (hi : i ≤ 7056) : joins (gapRun i) (gapRun n) = false := by
  refine decide_eq_false ?_
  rintro ⟨h,-⟩
  rw [(gapRun_sane hi).stop_eq] at h
  simp only [gapRun] at h
  omega

/-- The tree with the first `n` of these runs in it. -/
structure GapTree (n : Nat) (ino : Inode) (d : Fs) (t : Tree Extent H) : Prop where
  built : Built groupGeometry groupVolume ino d
  wellFormed : WellFormed groupGeometry d ino.root H t
  calm : Calm d
  packed : Packed (blockMax groupGeometry) H t
  flat_eq : flat H t = (List.range n).map gapRun
  height : H ≤ 2
  supply : Supplies groupGeometry (400-(addrs H t).length) d

theorem GapTree.addrs_le (h : GapTree n ino d t) : (addrs H t).length ≤ 340 := by
  have hspread : ∀ H ≤ 2, rootMax*spread (blockMax groupGeometry) H ≤ 340 := by decide
  exact le_trans h.wellFormed.capped.length_addrs_le (hspread H h.height)

theorem gapTree_zero : GapTree 0 initExtentInode groupVolume (leaf []) where
  built := .new
  wellFormed :=
    { root := rfl, stored := trivial, full := .inl rfl, sorted := sorted_nil
      nodup := nodup_nil, held := by simp, capped := zero_le _ }
  calm := ⟨rfl,rfl⟩
  packed := trivial
  flat_eq := rfl
  height := zero_le _
  supply := groupVolume_supplies

theorem GapTree.step (h : GapTree n ino d t) (hn : n < 7056) :
    ∃ ino' d' H', ∃ t' : Tree Extent H', GapTree (n+1) ino' d' t' := by
  have hr := h.wellFormed.toRooted
  have hH := h.height
  have haddrs := h.addrs_le
  have hmem : ∀ e ∈ flat H t, ∃ i < n, gapRun i = e := by
    simp [h.flat_eq]
  have hb : ∀ e ∈ flat H t, e.Before (gapRun n) := by
    intro e he
    obtain ⟨i,hi,rfl⟩ := hmem e he
    simp only [gapRun,Extent.Before]
    omega
  have hj : ∀ e ∈ flat H t, joins e (gapRun n) = false := by
    intro e he
    obtain ⟨i,hi,rfl⟩ := hmem e he
    exact gapRun_joins (by omega)
  have hx := gapRun_sane hn.le
  have hlen : (gapRun n).len ≤ 32768 := (by decide : 1 ≤ 32768)
  obtain ⟨ino',d',H',t',fresh,heq,hg,hp,hflat,hheight⟩ := extentAppend_packed h.wellFormed h.calm
    h.packed hb hx hlen hj (by omega) (h.supply.mono (by omega))
  have hH' : H' ≤ 2 := by
    rcases hheight with rfl | ⟨rfl,hfull⟩
    · exact hH
    have hwidth : rootMax*width (blockMax groupGeometry) 2 = 28224 := by decide
    have hlt : H ≠ 2 := by
      rintro rfl
      rw [hwidth,h.flat_eq,length_map,length_range] at hfull
      omega
    omega
  have hbelow : extentsBelow d.blocks ino.root.depth ino.root = flat H t := by
    rw [hr.root,content_depth]
    exact extentsBelow_eq _ hr.stored
  have hnext : WellFormed groupGeometry d' ino'.root H' t' := ⟨hg.rooted,hg.capped h.wellFormed.capped⟩
  have hnodes : (addrs H' t').length = fresh.length+(addrs H t).length := by
    rw [hg.nodes.length_eq,length_append]
  have hnodes' : (addrs H' t').length ≤ 340 := by
    have hspread : ∀ H ≤ 2, rootMax*spread (blockMax groupGeometry) H ≤ 340 := by decide
    exact le_trans hnext.capped.length_addrs_le (hspread H' hH')
  refine ⟨ino',d',H',t',?_,hnext,hg.calm,hp,?_,hH',hg.supply _ (h.supply.mono (by omega))⟩
  · exact .append h.built (hr.fresh (by omega) hx hlen fun e he => .inl (hb e he)) (hbelow ▸ hb) heq
  · rw [hflat,h.flat_eq,range_succ,map_append,map_singleton]

theorem exists_gapTree (n : Nat) (hn : n ≤ 7056) :
    ∃ ino d H, ∃ t : Tree Extent H, GapTree n ino d t := by
  induction n with
  | zero => exact ⟨_,_,_,_,gapTree_zero⟩
  | succ n ih =>
    obtain ⟨ino,d,H,t,h⟩ := ih (le_of_succ_le hn)
    exact h.step hn

theorem GapTree.height_eq (h : GapTree 7056 ino d t) : H = 2 := by
  have hwidth : ∀ H ≤ 1, rootMax*width (blockMax groupGeometry) H < 7056 := by decide
  have hle := h.wellFormed.capped.length_flat_le
  rw [h.flat_eq,length_map,length_range] at hle
  have hH := h.height
  by_contra hne
  exact absurd (hwidth H (by omega)) (not_lt.mpr hle)

/-- With 84 times 84 runs the tree is one full index node over full leaves. -/
theorem GapTree.shape {t : Tree Extent 2} (h : GapTree 7056 ino d t) :
    ∃ b u, t = inner [(b,u)] ∧ Complete (blockMax groupGeometry) 1 u := by
  have hwidth : blockMax groupGeometry*width (blockMax groupGeometry) 1 = 7056 := by decide
  have hlen : (flat 2 t).length = 7056 := by rw [h.flat_eq,length_map,length_range]
  have hpack := h.packed
  have hcap := h.wellFormed.capped
  obtain ⟨hne,hfull⟩ := h.wellFormed.full.resolve_left (by decide)
  obtain ⟨cs,rfl⟩ := exists_inner t
  obtain ⟨init,⟨b,u⟩,rfl⟩ := (eq_nil_or_concat' cs).resolve_left hne
  have hmem : (b,u) ∈ init ++ [(b,u)] := mem_append_right _ (mem_singleton_self _)
  obtain ⟨hinit,-⟩ := packed_concat.mp hpack
  have hpos : 0 < (flat 1 u).length := length_pos_of_ne_nil (hfull (b,u) hmem).flat_ne_nil
  have hall : ∀ c ∈ init, (flat 1 c.2).length = 7056 := fun c hc =>
    ((hinit c hc).length_flat).trans hwidth
  have hsum := (length_flatMap_eq_iff fun c hc => (hall c hc).le).mpr hall
  rw [flat_concat,length_append,flat_inner,hsum] at hlen
  change init.length*7056+(flat 1 u).length = 7056 at hlen
  have hnil : init = [] := length_eq_zero_iff.mp (by omega)
  subst hnil
  refine ⟨b,u,rfl,Capped.complete (hcap.2 (b,u) hmem) (by decide) ?_⟩
  rw [hwidth]
  simpa using hlen

theorem canCoalesce_eq_false (h : ∀ e ∈ es, joins e x = false ∧ joins x e = false) :
    canCoalesce es x = false := by
  have hsplit : leafBefore es x.block ++ leafBehind es x.block = es := leafBefore_append_leafBehind
  rw [canCoalesce,Bool.or_eq_false_iff,Option.any_eq_false,Option.any_eq_false]
  constructor
  · intro e he
    have hmem : e ∈ es := hsplit ▸ mem_append_left _ (mem_of_getLast? he)
    simp [(h e hmem).1]
  · intro e he
    have hmem : e ∈ es := hsplit ▸ mem_append_right _ (mem_of_head? he)
    simp [(h e hmem).2]

/-- A run for the block between the first two. -/
def betweenRun : Extent := ⟨1,1,7200⟩

/-- After 7056 appends `ext4_extent_map` has no place for a run inside the file, although the
tree is two levels deep and the allocator has blocks. -/
theorem sorted_insertion_stuck : ∃ ino d, ∃ t : Tree Extent 2,
    Built groupGeometry groupVolume ino d ∧ WellFormed groupGeometry d ino.root 2 t ∧
    (flat 2 t).length+1 < 4*84*84 ∧ Supplies groupGeometry 60 d ∧ Fresh d ino betweenRun ∧
    (extentMap groupGeometry ino d betweenRun).1 = false := by
  obtain ⟨ino,d,H,t,h⟩ := exists_gapTree 7056 (le_refl _)
  obtain rfl := h.height_eq
  have hr := h.wellFormed.toRooted
  have hmem : ∀ e ∈ flat 2 t, ∃ i < 7056, gapRun i = e := by
    simp [h.flat_eq]
  have hx : betweenRun.Sane := ⟨by decide,by decide⟩
  have hapart : Apart betweenRun (flat 2 t) := by
    intro e he
    obtain ⟨i,hi,rfl⟩ := hmem e he
    simp only [gapRun,betweenRun,Extent.Before]
    omega
  have hjoin : ∀ e ∈ flat 2 t, joins e betweenRun = false ∧ joins betweenRun e = false := by
    intro e he
    obtain ⟨i,hi,rfl⟩ := hmem e he
    have hstart : ((gapRun i).start : Nat) = 100+i := Nat.mod_eq_of_lt (by omega)
    constructor
    · refine decide_eq_false ?_
      rintro ⟨-,h,-⟩
      have hlen : (gapRun i).len = 1 := rfl
      simp only [betweenRun,hstart,hlen] at h
      omega
    · refine decide_eq_false ?_
      rintro ⟨-,h,-⟩
      simp only [betweenRun,hstart] at h
      omega
  obtain ⟨D,es,hp⟩ := exists_place (g := groupGeometry) betweenRun.block hr.full hr.sorted
  have hes : ∀ e ∈ es, e ∈ flat 2 t := fun e he => by
    rw [← hp.plug,Ctx.flat_plug]
    simp [he]
  have hstuck : Stuck groupGeometry betweenRun D es := by
    obtain ⟨b,u,ht,hu⟩ := h.shape
    have hplug := hp.plug.trans ht
    cases D with
    | step b1 pre post up =>
      cases up with
      | step b2 pre' post' up' =>
        cases up' with
        | top =>
          have hmem : (b2,inner (pre ++ (b1,leaf es) :: post)) ∈ [(b,u)] := by
            have hlist : pre' ++ (b2,inner (pre ++ (b1,leaf es) :: post)) :: post' = [(b,u)] := hplug
            rw [← hlist]
            simp
          obtain ⟨-,rfl⟩ := Prod.mk.inj (mem_singleton.mp hmem)
          obtain ⟨hlen,hleaves⟩ := complete_inner.mp hu
          have hleaf : es.length = blockMax groupGeometry := hleaves (b1,leaf es) (by simp)
          refine ⟨b1,pre,post,b2,pre',post',.top,rfl,?_,?_⟩
          · rintro (hlt | hco)
            · omega
            · rw [canCoalesce_eq_false fun e he => hjoin e (hes e he)] at hco
              cases hco
          · rw [length_append,length_cons] at hlen
            omega
        | step b3 pre3 post3 up3 => exact absurd up3.height_le (by decide)
  refine ⟨ino,d,t,h.built,h.wellFormed,?_,h.supply.mono ?_,hr.fresh (by decide) hx (by decide) hapart,?_⟩
  · rw [h.flat_eq,length_map,length_range]
    decide
  · have := h.addrs_le
    omega
  · rw [extentMap,if_neg (by simp [hr.magic]; decide)]
    exact extentMapLoop_stuck h.calm hr hp 8 hstuck

end Lariat.Ext4
