import Mathlib.Data.List.Perm.Basic
import Mathlib.Logic.Function.Basic

/-! Search trees of uniform height whose nodes live in numbered cells of a memory, and the
rules for changing such a tree at one place: a context says where, `plug` fills it, and
`respine` writes the cells on the way up. -/
namespace Lariat.Foundation.BlockTree
open List Function Nat

universe u v
variable {α : Type u} {ν : Type v} {h H : Nat}

/-- A tree of height `h`. A leaf is a list of records; an inner node lists its children,
each with the cell it lives in. -/
def Tree (α : Type u) : Nat → Type u
  | 0 => List α
  | h+1 => List (Nat × Tree α h)

def leaf (es : List α) : Tree α 0 := es

def inner (cs : List (Nat × Tree α h)) : Tree α (h+1) := cs

theorem exists_leaf (t : Tree α 0) : ∃ es, leaf es = t := ⟨t,rfl⟩

theorem exists_inner (t : Tree α (h+1)) : ∃ cs, inner cs = t := ⟨t,rfl⟩

/-- The records of a tree from left to right. -/
def flat : (h : Nat) → Tree α h → List α
  | 0, es => es
  | h+1, cs => List.flatMap (fun c => flat h c.2) cs

/-- No node of the tree is empty. -/
def Full : (h : Nat) → Tree α h → Prop
  | 0, es => es ≠ ([] : List α)
  | h+1, cs => cs ≠ ([] : List (Nat × Tree α h)) ∧ ∀ c : Nat × Tree α h, List.Mem c cs → Full h c.2

/-- The tree without records. -/
def empty : (h : Nat) → Tree α h
  | 0 => ([] : List α)
  | h+1 => ([] : List (Nat × Tree α h))

/-- The cells of the nodes below the root. -/
def addrs : (h : Nat) → Tree α h → List Nat
  | 0, _ => []
  | h+1, cs => List.flatMap (fun c => c.1 :: addrs h c.2) cs

/-- No node holds more than it may: `mx` records in the root, `cap` in each node below. -/
def Capped (cap : Nat) : (mx h : Nat) → Tree α h → Prop
  | mx, 0, es => List.length es ≤ mx
  | mx, h+1, cs => List.length cs ≤ mx ∧
      ∀ c : Nat × Tree α h, List.Mem c cs → Capped cap cap h c.2

/-- Every node on the right edge holds all it may, or more. -/
def Saturated (cap : Nat) : (mx h : Nat) → Tree α h → Prop
  | mx, 0, es => mx ≤ List.length es
  | mx, h+1, cs => mx ≤ List.length cs ∧
      ∀ c : Nat × Tree α h, c ∈ List.getLast? cs → Saturated cap cap h c.2

@[simp] theorem flat_leaf (es : List α) : flat 0 (leaf es) = es := rfl

@[simp] theorem flat_inner (cs : List (Nat × Tree α h)) :
    flat (h+1) (inner cs) = cs.flatMap fun c => flat h c.2 := rfl

variable {es : List α} {cs : List (Nat × Tree α h)} {cap mx : Nat} {t : Tree α h}

@[simp] theorem full_leaf : Full 0 (leaf es) ↔ es ≠ [] := Iff.rfl

@[simp] theorem full_inner : Full (h+1) (inner cs) ↔ cs ≠ [] ∧ ∀ c ∈ cs, Full h c.2 := Iff.rfl

theorem full_succ {t : Tree α (h+1)} (ht : h+1 = 0 ∨ Full (h+1) t) :
    ∃ cs, inner cs = t ∧ cs ≠ [] ∧ ∀ c ∈ cs, Full h c.2 :=
  ⟨t,rfl,ht.resolve_left (succ_ne_zero h)⟩

@[simp] theorem addrs_leaf (es : List α) : addrs 0 (leaf es) = [] := rfl

@[simp] theorem addrs_inner (cs : List (Nat × Tree α h)) :
    addrs (h+1) (inner cs) = cs.flatMap fun c => c.1 :: addrs h c.2 := rfl

@[simp] theorem capped_inner :
    Capped cap mx (h+1) (inner cs) ↔ cs.length ≤ mx ∧ ∀ c ∈ cs, Capped cap cap h c.2 := Iff.rfl

@[simp] theorem saturated_inner : Saturated cap mx (h+1) (inner cs) ↔
      mx ≤ cs.length ∧ ∀ c ∈ cs.getLast?, Saturated cap cap h c.2 := Iff.rfl

theorem flat_concat (cs : List (Nat × Tree α h)) (b : Nat) (t : Tree α h) :
    flat (h+1) (inner (cs ++ [(b,t)])) = flat (h+1) (inner cs) ++ flat h t := by simp

theorem addrs_concat (cs : List (Nat × Tree α h)) (b : Nat) (t : Tree α h) :
    addrs (h+1) (inner (cs ++ [(b,t)])) = addrs (h+1) (inner cs) ++ b :: addrs h t := by simp

theorem Capped.mono {cap' mx' : Nat} (ht : Capped cap mx h t) (hc : cap ≤ cap') (hm : mx ≤ mx') :
    Capped cap' mx' h t := by
  induction h generalizing mx mx' with
  | zero => exact Nat.le_trans ht hm
  | succ h ih => exact ⟨Nat.le_trans ht.1 hm,fun c hmem => ih (ht.2 c hmem) hc⟩

@[simp] theorem flat_empty : flat h (empty h : Tree α h) = [] := by cases h <;> rfl

@[simp] theorem addrs_empty : addrs h (empty h : Tree α h) = [] := by cases h <;> rfl

theorem Full.flat_ne_nil (ht : Full h t) : flat h t ≠ [] := by
  induction h with
  | zero => exact ht
  | succ h ih =>
    obtain ⟨hne,hc⟩ := ht
    obtain ⟨c,cs,rfl⟩ := exists_cons_of_ne_nil hne
    have hflat := ih (hc c (mem_cons_self ..))
    exact fun h0 => hflat (append_eq_nil_iff.mp h0).1

/-- The way from a node of height `h` up to the root of a tree of height `H`. -/
inductive Ctx (α : Type u) (H : Nat) : Nat → Type u
  | top : Ctx α H H
  | step {h : Nat} (b : Nat) (pre post : List (Nat × Tree α h)) (up : Ctx α H (h+1)) : Ctx α H h

namespace Ctx

def plug : {h : Nat} → Ctx α H h → Tree α h → Tree α H
  | _, top, t => t
  | _, step b pre post up, t => plug up (inner (pre ++ (b,t) :: post))

/-- The cell of the node in the hole; the root has none of its own. -/
def cell (root : Nat) : {h : Nat} → Ctx α H h → Nat
  | _, top => root
  | _, step b _ _ _ => b

def left : {h : Nat} → Ctx α H h → List α
  | _, top => []
  | _, step _ pre _ up => left up ++ pre.flatMap fun c => flat _ c.2

def right : {h : Nat} → Ctx α H h → List α
  | _, top => []
  | _, step _ _ post up => post.flatMap (fun c => flat _ c.2) ++ right up

/-- The cells beside the way up. -/
def sideAddrs : {h : Nat} → Ctx α H h → List Nat
  | _, top => []
  | _, step _ pre post up => addrs _ (inner pre) ++ addrs _ (inner post) ++ sideAddrs up

/-- The cells on the way up, that of the hole first. -/
def spineAddrs : {h : Nat} → Ctx α H h → List Nat
  | _, top => []
  | _, step b _ _ up => b :: spineAddrs up

/-- No node beside the way up is empty. -/
def FullSides : {h : Nat} → Ctx α H h → Prop
  | _, top => True
  | _, step _ pre post up => (∀ c ∈ pre, Full _ c.2) ∧ (∀ c ∈ post, Full _ c.2) ∧ FullSides up

/-- The way up along the right edge. -/
def Edge : {h : Nat} → Ctx α H h → Prop
  | _, top => True
  | _, step _ _ post up => post = [] ∧ Edge up

/-- What the node in the hole may hold. -/
def capAt (cap mx : Nat) : {h : Nat} → Ctx α H h → Nat
  | _, top => mx
  | _, step _ _ _ _ => cap

/-- No node on the way up or beside it holds more than it may. -/
def CappedPath (cap mx : Nat) : {h : Nat} → Ctx α H h → Prop
  | _, top => True
  | _, step _ pre post up => pre.length+1+post.length ≤ up.capAt cap mx ∧
      (∀ c ∈ pre, Capped cap cap _ c.2) ∧ (∀ c ∈ post, Capped cap cap _ c.2) ∧ CappedPath cap mx up

/-- A place inside the node in the hole. -/
def comp (C : Ctx α H h) : {k : Nat} → Ctx α h k → Ctx α H k
  | _, top => C
  | _, step b pre post up => step b pre post (comp C up)

variable {k : Nat} {C : Ctx α H h} {t : Tree α h}

theorem plug_comp (C : Ctx α H h) (D : Ctx α h k) (t : Tree α k) :
    (C.comp D).plug t = C.plug (D.plug t) := by
  induction D with
  | top => rfl
  | step b pre post up ih => exact ih _

theorem comp_assoc (C : Ctx α H h) {j : Nat} (D : Ctx α h j) (E : Ctx α j k) :
    (C.comp D).comp E = C.comp (D.comp E) := by
  induction E with
  | top => rfl
  | step b pre post up ih => rw [comp,comp,comp,ih]

theorem top_comp (D : Ctx α h k) : (top : Ctx α h h).comp D = D := by
  induction D with
  | top => rfl
  | step b pre post up ih => rw [comp,ih]

theorem height_le (C : Ctx α H h) : h ≤ H := by
  induction C with
  | top => exact Nat.le_refl _
  | step b pre post up ih => exact Nat.le_of_succ_le ih

theorem flat_plug (C : Ctx α H h) (t : Tree α h) :
    flat H (C.plug t) = C.left ++ flat h t ++ C.right := by
  induction C with
  | top => simp [plug,left,right]
  | step b pre post up ih => simp [plug,left,right,ih]

theorem left_comp (C : Ctx α H h) (D : Ctx α h k) : (C.comp D).left = C.left ++ D.left := by
  induction D with
  | top => simp [comp,left]
  | step b pre post up ih => simp [comp,left,ih]

theorem right_comp (C : Ctx α H h) (D : Ctx α h k) : (C.comp D).right = D.right ++ C.right := by
  induction D with
  | top => simp [comp,right]
  | step b pre post up ih => simp [comp,right,ih]

theorem Edge.right_eq (hC : C.Edge) : C.right = [] := by
  induction C with
  | top => rfl
  | step b pre post up ih =>
    obtain ⟨rfl,hup⟩ := hC
    simp [right,ih hup]

theorem Edge.saturated {cap mx : Nat} (hC : C.Edge) (hS : Saturated cap mx H (C.plug t)) :
    Saturated cap (C.capAt cap mx) h t := by
  induction C with
  | top => exact hS
  | step b pre post up ih =>
    obtain ⟨rfl,hup⟩ := hC
    exact (ih hup hS).2 (b,t) getLast?_concat

theorem full_plug : Full H (C.plug t) ↔ Full h t ∧ C.FullSides := by
  induction C with
  | top => simp [plug,FullSides]
  | step b pre post up ih =>
    simp only [plug,FullSides,ih,full_inner,forall_mem_append,forall_mem_cons]
    constructor
    · rintro ⟨⟨_,h1,h2,h3⟩,h4⟩
      exact ⟨h2,h1,h3,h4⟩
    · rintro ⟨h2,h1,h3,h4⟩
      exact ⟨⟨by simp,h1,h2,h3⟩,h4⟩

theorem capped_plug {cap mx : Nat} :
    Capped cap mx H (C.plug t) ↔ Capped cap (C.capAt cap mx) h t ∧ C.CappedPath cap mx := by
  induction C with
  | top => simp [plug,capAt,CappedPath]
  | step b pre post up ih =>
    simp only [plug,capAt,CappedPath,ih,capped_inner,forall_mem_append,forall_mem_cons,
      length_append,length_cons]
    constructor
    · rintro ⟨⟨h1,h2,h3,h4⟩,h5⟩
      exact ⟨h3,by omega,h2,h4,h5⟩
    · rintro ⟨h3,h1,h2,h4,h5⟩
      exact ⟨⟨by omega,h2,h3,h4⟩,h5⟩

theorem addrs_plug_perm (C : Ctx α H h) (t : Tree α h) :
    (addrs H (C.plug t)).Perm (addrs h t ++ (C.sideAddrs ++ C.spineAddrs)) := by
  induction C with
  | top => simp [plug,sideAddrs,spineAddrs]
  | @step h b pre post up ih =>
    refine (ih _).trans ?_
    simp only [sideAddrs,spineAddrs,addrs_inner,flatMap_append,flatMap_cons]
    refine perm_iff_count.mpr fun a => ?_
    simp only [count_append,count_cons]
    omega

end Ctx

/-! ### Trees in a memory -/

variable (enc : (h : Nat) → Tree α h → ν) {m m' : Nat → ν}

/-- The memory holds every node below the root. -/
def Stored (m : Nat → ν) : (h : Nat) → Tree α h → Prop
  | 0, _ => True
  | h+1, cs => ∀ c : Nat × Tree α h, List.Mem c cs → m c.1 = enc h c.2 ∧ Stored m h c.2

@[simp] theorem stored_leaf (es : List α) : Stored enc m 0 (leaf es) := trivial

@[simp] theorem stored_inner :
    Stored enc m (h+1) (inner cs) ↔ ∀ c ∈ cs, m c.1 = enc h c.2 ∧ Stored enc m h c.2 := Iff.rfl

namespace Ctx

/-- The memory holds the nodes beside the way up. -/
def Sides (m : Nat → ν) : {h : Nat} → Ctx α H h → Prop
  | _, top => True
  | _, step _ pre post up =>
    Stored enc m _ (inner pre) ∧ Stored enc m _ (inner post) ∧ Sides m up

/-- The memory holds the nodes on the way up, with `t` in the hole. -/
def Spine (m : Nat → ν) : {h : Nat} → Ctx α H h → Tree α h → Prop
  | _, top, _ => True
  | _, step b pre post up, t => m b = enc _ t ∧ Spine m up (inner (pre ++ (b,t) :: post))

/-- The memory after the nodes on the way up were written for `t` in the hole. -/
def respine (m : Nat → ν) : {h : Nat} → Ctx α H h → Tree α h → Nat → ν
  | _, top, _ => m
  | _, step b pre post up, t =>
    respine (update m b (enc _ t)) up (inner (pre ++ (b,t) :: post))

end Ctx

variable {enc}

theorem Stored.congr (ht : Stored enc m h t) (hm : ∀ a ∈ addrs h t, m' a = m a) :
    Stored enc m' h t := by
  induction h with
  | zero => trivial
  | succ h ih =>
    intro c hc
    have hmem : ∀ a ∈ c.1 :: addrs h c.2, m' a = m a := fun a ha =>
      hm a (mem_flatMap.mpr ⟨c,hc,ha⟩)
    exact ⟨(hmem _ (mem_cons_self ..)).trans (ht c hc).1,
      ih (ht c hc).2 fun a ha => hmem a (mem_cons_of_mem _ ha)⟩

theorem Stored.update (ht : Stored enc m h t) {b : Nat} (hb : b ∉ addrs h t) (c : ν) :
    Stored enc (update m b c) h t :=
  ht.congr fun a ha => update_of_ne (fun h0 : a = b => hb (h0 ▸ ha)) c m

namespace Ctx

variable {C : Ctx α H h} {t : Tree α h}

theorem Sides.congr (hC : C.Sides enc m) (hm : ∀ a ∈ C.sideAddrs, m' a = m a) : C.Sides enc m' := by
  induction C with
  | top => trivial
  | step b pre post up ih =>
    simp only [sideAddrs,forall_mem_append] at hm
    exact ⟨hC.1.congr hm.1.1,hC.2.1.congr hm.1.2,ih hC.2.2 hm.2⟩

theorem Spine.congr (hC : C.Spine enc m t) (hm : ∀ a ∈ C.spineAddrs, m' a = m a) :
    C.Spine enc m' t := by
  induction C with
  | top => trivial
  | step b pre post up ih =>
    obtain ⟨hb,hup⟩ := forall_mem_cons.mp hm
    exact ⟨hb.trans hC.1,ih hC.2 hup⟩

theorem stored_plug :
    Stored enc m H (C.plug t) ↔ Stored enc m h t ∧ C.Sides enc m ∧ C.Spine enc m t := by
  induction C with
  | top => simp [plug,Sides,Spine]
  | step b pre post up ih =>
    simp only [plug,Sides,Spine,ih,stored_inner,forall_mem_append,forall_mem_cons]
    tauto

theorem respine_of_notMem (m : Nat → ν) (C : Ctx α H h) (t : Tree α h) {a : Nat}
    (ha : a ∉ C.spineAddrs) : C.respine enc m t a = m a := by
  induction C generalizing m with
  | top => rfl
  | step b pre post up ih =>
    obtain ⟨hb,hup⟩ := not_or.mp (mt mem_cons.mpr ha)
    exact (ih _ _ hup).trans (update_of_ne hb _ _)

theorem spine_respine (m : Nat → ν) (t : Tree α h) (hC : C.spineAddrs.Nodup) :
    C.Spine enc (C.respine enc m t) t := by
  induction C generalizing m with
  | top => trivial
  | step b pre post up ih =>
    obtain ⟨hb,hup⟩ := nodup_cons.mp hC
    refine ⟨?_,ih _ _ hup⟩
    exact (respine_of_notMem _ up _ hb).trans (update_self ..)

/-- The rule for a change at one place: with the new subtree in memory and its way up
written, the whole tree is in memory. -/
theorem stored_respine (ht : Stored enc m h t) (hC : C.Sides enc m)
    (hn : (addrs H (C.plug t)).Nodup) : Stored enc (C.respine enc m t) H (C.plug t) := by
  rw [(addrs_plug_perm C t).nodup_iff,nodup_append,nodup_append] at hn
  obtain ⟨-,⟨-,hs,hss⟩,ht'⟩ := hn
  refine stored_plug.mpr ⟨ht.congr fun a ha => ?_,hC.congr fun a ha => ?_,spine_respine m t hs⟩
  · exact respine_of_notMem _ _ _ fun h0 => ht' a ha a (mem_append_right _ h0) rfl
  · exact respine_of_notMem _ _ _ fun h0 => hss a ha a h0 rfl

end Ctx

/-! ### Packed trees -/

section Packed

variable {cap mx : Nat} {β γ : Type*} {f : β → List γ} {l : List β} {n : Nat}

theorem length_flatMap_le (h : ∀ c ∈ l, (f c).length ≤ n) : (l.flatMap f).length ≤ l.length*n := by
  induction l with
  | nil => exact zero_le _
  | cons c l ih =>
    obtain ⟨hc,hl⟩ := forall_mem_cons.mp h
    rw [flatMap_cons,length_append,length_cons,succ_mul]
    have := ih hl
    omega

theorem length_flatMap_eq_iff (h : ∀ c ∈ l, (f c).length ≤ n) :
    (l.flatMap f).length = l.length*n ↔ ∀ c ∈ l, (f c).length = n := by
  induction l with
  | nil => simp
  | cons c l ih =>
    obtain ⟨hc,hl⟩ := forall_mem_cons.mp h
    rw [flatMap_cons,length_append,length_cons,succ_mul,forall_mem_cons,
      ← ih hl]
    have := length_flatMap_le hl
    omega

/-- How many records one slot of a node of height `h` leads to at most. -/
def width (cap : Nat) : Nat → Nat
  | 0 => 1
  | h+1 => cap*width cap h

/-- How many nodes one slot of a node of height `h` leads to at most. -/
def spread (cap : Nat) : Nat → Nat
  | 0 => 0
  | h+1 => 1+cap*spread cap h

theorem width_pos (hc : 0 < cap) (h : Nat) : 0 < width cap h := by
  induction h with
  | zero => exact Nat.one_pos
  | succ h ih => exact Nat.mul_pos hc ih

variable {t : Tree α h}

theorem Capped.length_flat_le (ht : Capped cap mx h t) : (flat h t).length ≤ mx*width cap h := by
  induction h generalizing mx with
  | zero => exact Nat.le_trans ht (Nat.le_of_eq (Nat.mul_one _).symm)
  | succ h ih =>
    exact Nat.le_trans (length_flatMap_le fun c hc => ih (ht.2 c hc)) (Nat.mul_le_mul_right _ ht.1)

theorem Capped.length_addrs_le (ht : Capped cap mx h t) : (addrs h t).length ≤ mx*spread cap h := by
  induction h generalizing mx with
  | zero => exact zero_le _
  | succ h ih =>
    refine Nat.le_trans (length_flatMap_le fun c hc => ?_) (Nat.mul_le_mul_right _ ht.1)
    have := ih (ht.2 c hc)
    rw [length_cons,spread]
    omega

/-- Every node holds all it may. -/
def Complete (cap : Nat) : (h : Nat) → Tree α h → Prop
  | 0, es => List.length es = cap
  | h+1, cs => List.length cs = cap ∧ ∀ c : Nat × Tree α h, List.Mem c cs → Complete cap h c.2

/-- Only the nodes on the right edge may have room. -/
def Packed (cap : Nat) : (h : Nat) → Tree α h → Prop
  | 0, _ => True
  | h+1, cs => (∀ c : Nat × Tree α h, c ∈ List.dropLast cs → Complete cap h c.2) ∧
      ∀ c : Nat × Tree α h, c ∈ List.getLast? cs → Packed cap h c.2

@[simp] theorem complete_inner {cs : List (Nat × Tree α h)} :
    Complete cap (h+1) (inner cs) ↔ cs.length = cap ∧ ∀ c ∈ cs, Complete cap h c.2 := Iff.rfl

theorem packed_concat {cs : List (Nat × Tree α h)} {b : Nat} :
    Packed cap (h+1) (inner (cs ++ [(b,t)])) ↔ (∀ c ∈ cs, Complete cap h c.2) ∧ Packed cap h t := by
  have hiff : Packed cap (h+1) (inner (cs ++ [(b,t)])) ↔
      (∀ c ∈ (cs ++ [(b,t)]).dropLast, Complete cap h c.2) ∧
        ∀ c ∈ (cs ++ [(b,t)]).getLast?, Packed cap h c.2 := Iff.rfl
  rw [hiff,dropLast_concat,getLast?_concat]
  simp

theorem Complete.length_flat (ht : Complete cap h t) : (flat h t).length = cap*width cap h := by
  induction h with
  | zero => exact (show List.length t = cap from ht).trans (Nat.mul_one _).symm
  | succ h ih =>
    obtain ⟨cs,rfl⟩ := exists_inner t
    have hc : ∀ c ∈ cs, (flat h c.2).length = cap*width cap h := fun c hc => ih (ht.2 c hc)
    refine ((length_flatMap_eq_iff fun c h => Nat.le_of_eq (hc c h)).mpr hc).trans ?_
    rw [width]
    exact congrArg (· * _) ht.1

theorem Capped.complete (ht : Capped cap cap h t) (hc : 0 < cap)
    (hlen : (flat h t).length = cap*width cap h) : Complete cap h t := by
  induction h with
  | zero => exact hlen.trans (Nat.mul_one _)
  | succ h ih =>
    obtain ⟨cs,rfl⟩ := exists_inner t
    have hle : ∀ c ∈ cs, (flat h c.2).length ≤ cap*width cap h := fun c hmem =>
      (ht.2 c hmem).length_flat_le
    have hpos : 0 < cap*width cap h := Nat.mul_pos hc (width_pos hc h)
    have hcs : cs.length = cap := by
      refine Nat.le_antisymm ht.1 (Nat.le_of_mul_le_mul_right ?_ hpos)
      exact Nat.le_trans (Nat.le_of_eq hlen.symm) (length_flatMap_le hle)
    refine complete_inner.mpr ⟨hcs,fun c hmem => ih (ht.2 c hmem) ?_⟩
    refine (length_flatMap_eq_iff hle).mp ?_ c hmem
    rw [hcs]
    exact hlen

theorem Packed.complete (ht : Packed cap h t) (hS : Saturated cap cap h t) (hC : Capped cap cap h t) :
    Complete cap h t := by
  induction h with
  | zero => exact Nat.le_antisymm hC hS
  | succ h ih =>
    refine ⟨Nat.le_antisymm hC.1 hS.1,?_⟩
    obtain ⟨cs,rfl⟩ := exists_inner t
    rcases eq_nil_or_concat' cs with rfl | ⟨init,⟨b,u⟩,rfl⟩
    · exact fun c hc => absurd hc not_mem_nil
    · obtain ⟨h1,h2⟩ := packed_concat.mp ht
      have hlast := ih h2 (hS.2 (b,u) getLast?_concat)
        (hC.2 (b,u) (mem_append_right _ (mem_singleton_self _)))
      exact forall_mem_append.mpr ⟨h1,forall_mem_singleton.mpr hlast⟩

/-- How many records a packed tree with a full right edge has. -/
theorem Packed.length_flat (ht : Packed cap h t) (hS : Saturated cap mx h t)
    (hC : Capped cap mx h t) : (flat h t).length = mx*width cap h := by
  cases h with
  | zero => exact (Nat.le_antisymm hC hS).trans (Nat.mul_one _).symm
  | succ h =>
    have hlen := Nat.le_antisymm hC.1 hS.1
    obtain ⟨cs,rfl⟩ := exists_inner t
    have hall : ∀ c ∈ cs, (flat h c.2).length = cap*width cap h := by
      rcases eq_nil_or_concat' cs with rfl | ⟨init,⟨b,u⟩,rfl⟩
      · exact fun c hc => absurd hc not_mem_nil
      obtain ⟨h1,h2⟩ := packed_concat.mp ht
      have hlast := h2.complete (hS.2 (b,u) getLast?_concat)
        (hC.2 (b,u) (mem_append_right _ (mem_singleton_self _)))
      exact forall_mem_append.mpr ⟨fun c hc => (h1 c hc).length_flat,
        forall_mem_singleton.mpr hlast.length_flat⟩
    refine ((length_flatMap_eq_iff fun c h => Nat.le_of_eq (hall c h)).mpr hall).trans ?_
    rw [width]
    exact congrArg (· * _) hlen

/-- A chain of single children is packed. -/
theorem Capped.packed (ht : Capped 1 1 h t) : Packed cap h t := by
  induction h with
  | zero => trivial
  | succ h ih =>
    obtain ⟨cs,rfl⟩ := exists_inner t
    rcases eq_nil_or_concat' cs with rfl | ⟨init,⟨b,u⟩,rfl⟩
    · exact ⟨fun c hc => absurd hc not_mem_nil,by simp [inner]⟩
    · have hlen : (init ++ [(b,u)]).length ≤ 1 := ht.1
      have hinit : init = [] := length_eq_zero_iff.mp (by simpa using hlen)
      subst hinit
      exact packed_concat.mpr ⟨by simp,ih (ht.2 (b,u) (mem_singleton_self _))⟩

theorem Ctx.Edge.packed {C : Ctx α H h} (hC : C.Edge) {t' : Tree α h} (hp : Packed cap H (C.plug t))
    (ht : Packed cap h t → Packed cap h t') : Packed cap H (C.plug t') := by
  induction C with
  | top => exact ht hp
  | step b pre post up ih =>
    obtain ⟨rfl,hup⟩ := hC
    refine ih hup hp fun h => ?_
    obtain ⟨h1,h2⟩ := packed_concat.mp h
    exact packed_concat.mpr ⟨h1,ht h2⟩

end Packed

end Lariat.Foundation.BlockTree
