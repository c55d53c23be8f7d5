import Lariat.Foundation.BlockTree
import Lariat.Ext4.Allocator
import Lariat.Ext4.ExtentList
import Lariat.Ext4.File

/-! The tree an inode stands for: each node on disk is what the tree says, each index key
is the first block of its child, and no block has two uses; and the descents of the driver through it. -/
namespace Lariat.Ext4
open Foundation.BlockTree List Option

variable (g : Geometry) {d : Fs} {h H : Nat} {lblk : Nat}

def firstKey (es : List Extent) : Nat := (es.head?.map (·.block)).getD 0

/-- The node at the root of a tree. -/
def content (mx : Nat) : (h : Nat) → Tree Extent h → Node
  | 0, es => { max := mx, depth := 0, extents := es }
  | h+1, cs => { max := mx, depth := h+1
                 index := List.map (fun c => ⟨firstKey (flat h c.2),c.1⟩) cs }

/-- The block that holds a node below the root of the inode. -/
def nodeBlock (h : Nat) (t : Tree Extent h) : Block := .node (content (blockMax g) h t)

/-- The capacity of the node at a place of the tree. -/
def nodeMax : {h : Nat} → Ctx Extent H h → Nat
  | _, .top => rootMax
  | _, .step _ _ _ _ => blockMax g

def frameAt (C : Ctx Extent H h) (t : Tree Extent h) (pos : Nat) : Frame :=
  ⟨C.cell 0,content (nodeMax g C) h t,pos⟩

/-- The path above a place, as the descents record it. -/
def frames : {h : Nat} → Ctx Extent H h → Tree Extent h → List Frame
  | _, .top, _ => []
  | _, .step b pre post up, t =>
    frameAt g up (inner (pre ++ (b,t) :: post)) pre.length :: frames up (inner (pre ++ (b,t) :: post))

@[simp] theorem content_leaf (mx : Nat) (es : List Extent) :
    content mx 0 (leaf es) = { max := mx, depth := 0, extents := es } := rfl

@[simp] theorem content_inner (mx : Nat) (cs : List (Nat × Tree Extent h)) :
    content mx (h+1) (inner cs) =
      { max := mx, depth := h+1, index := cs.map fun c => ⟨firstKey (flat h c.2),c.1⟩ } := rfl

theorem frameAt_extents (C : Ctx Extent H 0) (es : List Extent) (pos : Nat) :
    (frameAt g C (leaf es) pos).node.extents = es := rfl

theorem frameAt_withExtents (C : Ctx Extent H 0) (es es' : List Extent) (pos : Nat) :
    (frameAt g C (leaf es) pos).withExtents es' = frameAt g C (leaf es') pos := rfl

theorem frameAt_index (C : Ctx Extent H (h+1)) (cs : List (Nat × Tree Extent h)) (pos : Nat) :
    (frameAt g C (inner cs) pos).node.index = cs.map fun c => ⟨firstKey (flat h c.2),c.1⟩ := rfl

theorem frameAt_withIndex (C : Ctx Extent H (h+1)) (cs cs' : List (Nat × Tree Extent h))
    (pos : Nat) : (frameAt g C (inner cs) pos).withIndex
      (cs'.map fun c => ⟨firstKey (flat h c.2),c.1⟩) = frameAt g C (inner cs') pos := rfl

theorem content_magic (mx : Nat) (t : Tree Extent h) : (content mx h t).magic = extentMagic := by
  cases h <;> rfl

theorem content_depth (mx : Nat) (t : Tree Extent h) : (content mx h t).depth = h := by
  cases h <;> rfl

theorem firstKey_append {l r : List Extent} (hl : l ≠ []) : firstKey (l ++ r) = firstKey l := by
  cases l with
  | nil => exact absurd rfl hl
  | cons e l => rfl

/-- `ext4_node_first_block` reads the first block of the whole subtree off its node. -/
theorem content_firstBlock (mx : Nat) {t : Tree Extent h} (ht : h = 0 ∨ Full h t) :
    (content mx h t).firstBlock = firstKey (flat h t) := by
  cases h with
  | zero => rfl
  | succ h =>
    obtain ⟨cs,rfl,hne,hc⟩ := full_succ ht
    obtain ⟨c,cs,rfl⟩ := exists_cons_of_ne_nil hne
    exact (firstKey_append (hc c (mem_cons_self ..)).flat_ne_nil).symm

theorem firstKey_le {es : List Extent} (hs : Sorted es) {e : Extent} (he : e ∈ es) :
    firstKey es ≤ e.block := by
  cases es with
  | nil => cases he
  | cons a es =>
    obtain ⟨-,-,hab⟩ := sorted_cons.mp hs
    rcases mem_cons.mp he with rfl | he
    · exact le_refl _
    · exact Nat.le_trans (Nat.le_add_right ..) (hab e he)

theorem exists_firstKey {es : List Extent} (hne : es ≠ []) : ∃ e ∈ es, e.block = firstKey es := by
  obtain ⟨e,es,rfl⟩ := exists_cons_of_ne_nil hne
  exact ⟨e,mem_cons_self ..,rfl⟩

/-! ### Where a logical block belongs among the children of a node -/

section Children

variable {pre post : List (Nat × Tree Extent h)} {b : Nat} {c : Tree Extent h}

theorem left_of_child (hs : Sorted (flat (h+1) (inner (pre ++ (b,c) :: post)))) (hc : Full h c)
    (hkey : pre = [] ∨ firstKey (flat h c) ≤ lblk) :
    ∀ e ∈ pre.flatMap (fun c => flat h c.2), e.block+e.len ≤ lblk := by
  intro e he
  rcases hkey with rfl | hkey
  · cases he
  rw [flat_inner,flatMap_append,flatMap_cons] at hs
  obtain ⟨f,hf,hfk⟩ := exists_firstKey hc.flat_ne_nil
  have hef : e.Before f := (sorted_append.mp hs).2.2 e he f (mem_append_left _ hf)
  simp only [Extent.Before] at hef
  omega

theorem right_of_child (hs : Sorted (flat (h+1) (inner (pre ++ (b,c) :: post))))
    (hp : ∀ y ∈ post, Full h y.2) (hkey : ∀ y ∈ post.head?, lblk < firstKey (flat h y.2)) :
    ∀ e ∈ post.flatMap (fun c => flat h c.2), lblk < e.block := by
  cases post with
  | nil => simp
  | cons y ys =>
    intro e he
    have hsorted : Sorted ((y :: ys).flatMap fun c => flat h c.2) := by
      rw [flat_inner,flatMap_append,flatMap_cons] at hs
      exact (sorted_append.mp (sorted_append.mp hs).2.1).2.1
    have hle := firstKey_le hsorted he
    rw [flatMap_cons,firstKey_append (hp y (mem_cons_self ..)).flat_ne_nil] at hle
    exact lt_of_lt_of_le (hkey y rfl) hle

end Children

/-! ### The tree of an inode -/

section

variable (d : Fs) (root : Node) (H : Nat) (t : Tree Extent H)

/-- The root in the inode heads the tree, each node below it in a block of its own. -/
structure Rooted : Prop where
  root : root = content rootMax H t
  stored : Stored (nodeBlock g) d.blocks H t
  full : H = 0 ∨ Full H t
  sorted : Sorted (flat H t)
  nodup : (addrs H t).Nodup
  held : ∀ b ∈ addrs H t, b ≠ 0 ∧ d.used b = true

/-- Such a tree with no node over its capacity. -/
structure WellFormed : Prop
    extends Rooted g d root H t where
  capped : Capped (blockMax g) rootMax H t

/-- The inode on the volume stands for the tree. The blocks of `extra` are in use by
whoever is about to map them. -/
structure Rep (extra : List Nat) : Prop where
  calm : Calm d
  -- `EXT4_PATH_MAX` bounds the path
  height : H < 8
  root : root = content rootMax H t
  stored : Stored (nodeBlock g) d.blocks H t
  full : H = 0 ∨ Full H t
  sorted : Sorted (flat H t)
  nodup : (addrs H t ++ physBlocks (flat H t) ++ extra).Nodup
  held : ∀ b ∈ addrs H t ++ physBlocks (flat H t) ++ extra, b ≠ 0 ∧ d.used b = true

end

variable {g}

theorem Rep.rooted {root : Node} {t : Tree Extent H} {extra : List Nat}
    (hr : Rep g d root H t extra) : Rooted g d root H t where
  root := hr.root
  stored := hr.stored
  full := hr.full
  sorted := hr.sorted
  nodup := (nodup_append.mp (nodup_append.mp hr.nodup).1).1
  held := fun b hb => hr.held b (by simp [hb])

theorem nodeMax_eq_capAt (C : Ctx Extent H h) : nodeMax g C = C.capAt (blockMax g) rootMax := by
  cases C <;> rfl

theorem extentsBelow_eq {t : Tree Extent h} (mx : Nat) (ht : Stored (nodeBlock g) d.blocks h t) :
    extentsBelow d.blocks h (content mx h t) = flat h t := by
  induction h generalizing mx with
  | zero => rfl
  | succ h ih =>
    obtain ⟨cs,rfl⟩ := exists_inner t
    rw [extentsBelow,content_inner,flatMap_map,flat_inner]
    refine flatMap_congr fun c hc => ?_
    obtain ⟨hb,hc'⟩ := ht c hc
    rw [hb]
    exact ih _ hc'

/-- The last child that the keys allow, when there is one. -/
theorem child_by_key (lblk : Nat) (cs : List (Nat × Tree Extent h)) :
    (∃ pre b c post, cs = pre ++ (b,c) :: post ∧ firstKey (flat h c) ≤ lblk ∧
      (cs.takeWhile fun c => firstKey (flat h c.2) ≤ lblk) = pre ++ [(b,c)] ∧
      ∀ y ∈ post.head?, lblk < firstKey (flat h y.2)) ∨
    (cs.takeWhile fun c => firstKey (flat h c.2) ≤ lblk) = [] ∧
      ∀ y ∈ cs.head?, lblk < firstKey (flat h y.2) := by
  set p : Nat × Tree Extent h → Bool := fun c => firstKey (flat h c.2) ≤ lblk with hp
  have hcs : cs.takeWhile p ++ cs.dropWhile p = cs := takeWhile_append_dropWhile
  have hdrop : ∀ y ∈ (cs.dropWhile p).head?, lblk < firstKey (flat h y.2) := by
    intro y hy
    have := head?_dropWhile_not p cs
    rw [hy] at this
    simpa [hp] using this
  cases hl : (cs.takeWhile p).getLast? with
  | none =>
    have hnil := getLast?_eq_none_iff.mp hl
    rw [hnil,nil_append] at hcs
    exact .inr ⟨hnil,hcs ▸ hdrop⟩
  | some x =>
    have hinit := dropLast_append_getLast? x hl
    have hx : p x = true := mem_takeWhile_imp (mem_of_getLast? hl)
    refine .inl ⟨(cs.takeWhile p).dropLast,x.1,x.2,cs.dropWhile p,?_,of_decide_eq_true hx,
      hinit.symm,hdrop⟩
    rw [append_cons,hinit,hcs]

variable {t : Tree Extent h}

section

variable (hd : Calm d) (hst : Stored (nodeBlock g) d.blocks h t) (hf : h = 0 ∨ Full h t)
include hd hst hf

theorem findExtentLoop_eq (mx fuel : Nat) (hfuel : h < fuel) (hs : Sorted (flat h t)) :
    findExtentLoop lblk fuel d (content mx h t) = (some (lookup (flat h t) lblk),d) := by
  induction h generalizing mx fuel with
  | zero =>
    obtain ⟨fuel,rfl⟩ := Nat.exists_eq_add_of_lt hfuel
    rfl
  | succ h ih =>
    obtain ⟨fuel,rfl⟩ := Nat.exists_eq_add_of_lt hfuel
    obtain ⟨cs,rfl,hne,hfull⟩ := full_succ hf
    rw [findExtentLoop,if_neg (by simp),content_inner,takeWhile_map,getLast?_map]
    simp only [Function.comp_def]
    rcases child_by_key lblk cs with ⟨pre,b,c,post,rfl,hkey,htw,hpost⟩ | ⟨htw,hhead⟩
    · rw [htw]
      have hc := (stored_inner _).mp hst (b,c) (by simp)
      have hfc := hfull (b,c) (by simp)
      have hl := left_of_child hs hfc (.inr hkey)
      have hr := right_of_child hs (fun y hy => hfull y (by simp [hy])) hpost
      have hsane := hs.sane
      rw [flat_inner,flatMap_append,flatMap_cons] at hs hsane ⊢
      have hlook : lookup (pre.flatMap (fun c => flat h c.2) ++ (flat h c ++
          post.flatMap fun c => flat h c.2)) lblk = lookup (flat h c) lblk := by
        rw [lookup_append_right,lookup_append_left hr]
        · intro e he hcov
          exact absurd hcov.2 (not_lt.mpr (hl e he))
        · exact fun e he => hsane e (mem_append_left _ he)
      have hsc := (sorted_append.mp (sorted_append.mp hs).2.1).1
      simp only [getLast?_append,getLast?_singleton,some_or,map_some,
        hd.readBlock,hc.1,nodeBlock,Block.asNode,content_magic,ne_eq,not_true_eq_false,
        if_false,hlook]
      exact ih hc.2 (.inr hfc) _ _ (by omega) hsc
    · have hall : ∀ e ∈ flat (h+1) (inner cs), lblk < e.block := by
        intro e he
        obtain ⟨y,ys,rfl⟩ := exists_cons_of_ne_nil hne
        have hle := firstKey_le hs he
        rw [flat_inner,flatMap_cons,
          firstKey_append (hfull y (mem_cons_self ..)).flat_ne_nil] at hle
        exact lt_of_lt_of_le (hhead y rfl) hle
      rw [htw]
      have := lookup_append_left (l := []) hall
      rw [nil_append] at this
      rw [this]
      rfl

theorem treeEndLoop_eq (mx fuel : Nat) (buf : Bool) (hfuel : h < fuel) :
    treeEndLoop fuel buf d (content mx h t) =
      (some (((flat h t).getLast?.map Extent.stop).getD 0),d) := by
  induction h generalizing mx fuel buf with
  | zero =>
    obtain ⟨fuel,rfl⟩ := Nat.exists_eq_add_of_lt hfuel
    rfl
  | succ h ih =>
    obtain ⟨fuel,rfl⟩ := Nat.exists_eq_add_of_lt hfuel
    obtain ⟨cs,rfl,hne,hfull⟩ := full_succ hf
    obtain ⟨init,⟨b,c⟩,rfl⟩ := (eq_nil_or_concat' cs).resolve_left hne
    have hc := (stored_inner _).mp hst (b,c) (by simp)
    have hfc := hfull (b,c) (by simp)
    have hbuf : (if buf then (true,d) else d.kzalloc) = (true,d) := by
      rw [hd.kzalloc,ite_self]
    rw [treeEndLoop,if_neg (by simp),content_inner,getLast?_map,getLast?_concat]
    simp only [map_some,hbuf,hd.readBlock,hc.1,nodeBlock,Block.asNode]
    rw [ih hc.2 (.inr hfc) _ _ true (by omega),flat_inner,flatMap_append,
      flatMap_singleton,getLast?_append_of_ne_nil _ hfc.flat_ne_nil]

theorem walkRight_eq (C : Ctx Extent H h) :
    ∃ (D : Ctx Extent H 0) (es : List Extent), D.plug (leaf es) = C.plug t ∧ (C.Edge → D.Edge) ∧
      walkRight h d (frameAt g C t 0) (frames g C t) =
        (some (frameAt g D (leaf es) 0,frames g D (leaf es)),d) := by
  induction h with
  | zero =>
    obtain ⟨es,rfl⟩ := exists_leaf t
    exact ⟨C,es,rfl,fun h => h,rfl⟩
  | succ h ih =>
    obtain ⟨cs,rfl,hne,hfull⟩ := full_succ hf
    obtain ⟨init,⟨b,c⟩,rfl⟩ := (eq_nil_or_concat' cs).resolve_left hne
    have hc := (stored_inner _).mp hst (b,c) (by simp)
    obtain ⟨D,es,hplug,hedge,hwalk⟩ := ih hc.2 (.inr (hfull (b,c) (by simp))) (.step b init [] C)
    refine ⟨D,es,hplug,fun hC => hedge ⟨rfl,hC⟩,?_⟩
    rw [← hwalk,walkRight]
    simp only [frameAt,content_inner,getLast?_map,getLast?_concat,map_some,
      hd.kzalloc,hd.readBlock,hc.1,nodeBlock,Block.asNode,content_magic,ne_eq,not_true_eq_false,
      if_false,length_map,length_append,length_singleton,Nat.add_sub_cancel]
    rfl

end

/-- The child that a descent to a logical block takes. -/
theorem child_by_pos (lblk : Nat) {cs : List (Nat × Tree Extent h)} (hne : cs ≠ []) :
    ∃ pre b c post, cs = pre ++ (b,c) :: post ∧
      childPos (cs.map fun c => ⟨firstKey (flat h c.2),c.1⟩) lblk = pre.length ∧
      (pre = [] ∨ firstKey (flat h c) ≤ lblk) ∧
      ∀ y ∈ post.head?, lblk < firstKey (flat h y.2) := by
  obtain ⟨⟨b0,c0⟩,cs,rfl⟩ := exists_cons_of_ne_nil hne
  simp only [childPos,map_cons,tail_cons,takeWhile_map,length_map,
    Function.comp_def]
  rcases child_by_key lblk cs with ⟨pre,b,c,post,rfl,hkey,htw,hpost⟩ | ⟨htw,hhead⟩
  · exact ⟨(b0,c0) :: pre,b,c,post,rfl,by rw [htw]; simp,.inr hkey,hpost⟩
  · exact ⟨[],b0,c0,cs,rfl,by rw [htw],.inl rfl,hhead⟩

variable (g) in
/-- On every volume that holds the tree `t`, the descent to a logical block ends at the place
`D` in it, whatever is above `t`. -/
def Leads (lblk : Nat) (t : Tree Extent h) (D : Ctx Extent h 0) (es : List Extent) : Prop :=
  ∀ (d : Fs) (H : Nat) (C : Ctx Extent H h), Calm d → Stored (nodeBlock g) d.blocks h t →
    walkTo lblk h d (frameAt g C t 0) (frames g C t) =
      (some (frameAt g (C.comp D) (leaf es) 0,frames g (C.comp D) (leaf es)),d)

theorem Leads.child (pre post : List (Nat × Tree Extent h)) {b : Nat} {c : Tree Extent h}
    {D : Ctx Extent h 0} {es : List Extent} (hl : Leads g lblk c D es)
    (hpos : childPos ((pre ++ (b,c) :: post).map fun c => ⟨firstKey (flat h c.2),c.1⟩) lblk =
      pre.length) :
    Leads g lblk (inner (pre ++ (b,c) :: post)) ((Ctx.step b pre post .top).comp D) es := by
  intro d H C hd hst
  have hc := (stored_inner _).mp hst (b,c) (by simp)
  have hget : (List.map (fun c : Nat × Tree Extent h => Index.mk (firstKey (flat h c.2)) c.1)
      (pre ++ (b,c) :: post))[pre.length]? = some ⟨firstKey (flat h c),b⟩ := by simp
  have hcomp : C.comp ((Ctx.step b pre post .top).comp D) = (Ctx.step b pre post C).comp D :=
    (Ctx.comp_assoc C _ D).symm
  rw [hcomp,← hl d H (.step b pre post C) hd hc.2,walkTo]
  simp only [frameAt,content_inner,hpos,hget,hd.kzalloc,hd.readBlock,hc.1,nodeBlock,Block.asNode]
  rfl

variable (g) in
/-- The leaf where the path of an insertion ends: what is left of it begins at or before the
block, and what is right of it begins behind. -/
structure Place (lblk : Nat) (t : Tree Extent h) (D : Ctx Extent h 0) (es : List Extent) : Prop where
  plug : D.plug (leaf es) = t
  left : ∀ e ∈ D.left, e.block ≤ lblk
  right : ∀ e ∈ D.right, lblk < e.block
  leads : Leads g lblk t D es

theorem Place.grown {D : Ctx Extent h 0} {es : List Extent} (hp : Place g lblk t D es) (c : Nat) :
    Place g lblk (inner [(c,t)]) ((Ctx.step c [] [] .top).comp D) es where
  plug := by
    rw [Ctx.plug_comp,hp.plug]
    rfl
  left := by simpa [Ctx.left_comp,Ctx.left] using hp.left
  right := by simpa [Ctx.right_comp,Ctx.right] using hp.right
  leads := hp.leads.child [] [] rfl

theorem exists_place (lblk : Nat) (hf : h = 0 ∨ Full h t) (hs : Sorted (flat h t)) :
    ∃ (D : Ctx Extent h 0) (es : List Extent), Place g lblk t D es := by
  induction h with
  | zero =>
    obtain ⟨es,rfl⟩ := exists_leaf t
    exact ⟨.top,es,rfl,by simp [Ctx.left],by simp [Ctx.right],fun _ _ C _ _ => rfl⟩
  | succ h ih =>
    obtain ⟨cs,rfl,hne,hfull⟩ := full_succ hf
    obtain ⟨pre,b,c,post,rfl,hpos,hkey,hpost⟩ := child_by_pos lblk hne
    have hfc := hfull (b,c) (by simp)
    have hleft := left_of_child hs hfc hkey
    have hright := right_of_child hs (fun y hy => hfull y (by simp [hy])) hpost
    rw [flat_inner,flatMap_append,flatMap_cons] at hs
    have hsc := (sorted_append.mp (sorted_append.mp hs).2.1).1
    obtain ⟨D,es,hplug,hDl,hDr,hwalk⟩ := ih (.inr hfc) hsc
    refine ⟨(Ctx.step b pre post .top).comp D,es,?_,?_,?_,hwalk.child pre post hpos⟩
    · rw [Ctx.plug_comp,hplug]
      rfl
    · rw [Ctx.left_comp]
      refine forall_mem_append.mpr ⟨fun e he => ?_,hDl⟩
      exact Nat.le_trans (Nat.le_add_right ..) (hleft e (by simpa [Ctx.left] using he))
    · rw [Ctx.right_comp]
      exact forall_mem_append.mpr ⟨hDr,fun e he => hright e (by simpa [Ctx.right] using he)⟩

end Lariat.Ext4
