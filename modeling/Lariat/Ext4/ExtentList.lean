import Mathlib.Data.List.Perm.Basic
import Mathlib.Data.List.Nodup
import Mathlib.Data.List.TakeWhile
import Lariat.Ext4.Extents

/-! Sorted lists of disjoint extents: what they map, and what inserting a run and cutting
the end off does to them. -/
namespace Lariat.Ext4
open List Option

variable {a b e p n x : Extent} {es es' l r : List Extent} {lblk : Nat}

def Extent.Before (a b : Extent) : Prop := a.block+a.len ≤ b.block

def Extent.Covers (e : Extent) (lblk : Nat) : Prop := e.block ≤ lblk ∧ lblk < e.block+e.len

def Mapped (es : List Extent) (lblk : Nat) : Prop := ∃ e ∈ es, e.Covers lblk

instance : Decidable (e.Covers lblk) := inferInstanceAs (Decidable (_ ∧ _))

instance : Decidable (Mapped es lblk) := inferInstanceAs (Decidable (∃ e ∈ es, e.Covers lblk))

/-- A run that a tree may hold: not empty, and below the last 32-bit block number. -/
def Extent.Sane (e : Extent) : Prop := 0 < e.len ∧ e.block+e.len < 0x100000000

structure Sorted (es : List Extent) : Prop where
  before : es.Pairwise Extent.Before
  sane : ∀ e ∈ es, e.Sane

def physBlocks (es : List Extent) : List Nat := es.flatMap fun e => List.range' e.start e.len

@[simp] theorem physBlocks_append : physBlocks (l ++ r) = physBlocks l ++ physBlocks r :=
  flatMap_append

@[simp] theorem physBlocks_cons : physBlocks (e :: es) = List.range' e.start e.len ++ physBlocks es :=
  flatMap_cons

@[simp] theorem physBlocks_nil : physBlocks [] = [] := rfl

theorem Extent.Sane.stop_eq (he : e.Sane) : e.stop = e.block+e.len :=
  Nat.mod_eq_of_lt he.2

@[simp] theorem mapped_cons : Mapped (e :: es) lblk ↔ e.Covers lblk ∨ Mapped es lblk := by
  simp [Mapped]

@[simp] theorem mapped_append : Mapped (l ++ r) lblk ↔ Mapped l lblk ∨ Mapped r lblk := by
  simp [Mapped,or_and_right,exists_or]

theorem sorted_nil : Sorted [] := ⟨List.Pairwise.nil,by simp⟩

theorem sorted_append :
    Sorted (l ++ r) ↔ Sorted l ∧ Sorted r ∧ ∀ a ∈ l, ∀ b ∈ r, a.Before b := by
  constructor
  · rintro ⟨h1,h2⟩
    obtain ⟨hl,hr,hlr⟩ := pairwise_append.mp h1
    obtain ⟨sl,sr⟩ := forall_mem_append.mp h2
    exact ⟨⟨hl,sl⟩,⟨hr,sr⟩,hlr⟩
  · rintro ⟨hl,hr,hlr⟩
    exact ⟨pairwise_append.mpr ⟨hl.1,hr.1,hlr⟩,forall_mem_append.mpr ⟨hl.2,hr.2⟩⟩

theorem sorted_cons : Sorted (e :: es) ↔ e.Sane ∧ Sorted es ∧ ∀ b ∈ es, e.Before b := by
  constructor
  · rintro ⟨h1,h2⟩
    obtain ⟨he,hes⟩ := pairwise_cons.mp h1
    obtain ⟨se,ses⟩ := forall_mem_cons.mp h2
    exact ⟨se,⟨hes,ses⟩,he⟩
  · rintro ⟨se,hes,he⟩
    exact ⟨pairwise_cons.mpr ⟨he,hes.1⟩,forall_mem_cons.mpr ⟨se,hes.2⟩⟩

/-! ### Lookup -/

theorem lookup_append_right (hl : ∀ e ∈ l, ¬ e.Covers lblk) (hs : ∀ e ∈ l, e.Sane) :
    lookup (l ++ r) lblk = lookup r lblk := by
  have hnone : l.find? (fun e => decide (e.block ≤ lblk ∧ lblk < e.stop)) = none := by
    refine find?_eq_none.mpr fun e he => ?_
    rw [(hs e he).stop_eq]
    simpa [Extent.Covers] using hl e he
  simp only [lookup,find?_append,hnone,none_or]

theorem lookup_append_left (hr : ∀ e ∈ r, lblk < e.block) : lookup (l ++ r) lblk = lookup l lblk := by
  have hnone : r.find? (fun e => decide (e.block ≤ lblk ∧ lblk < e.stop)) = none := by
    refine find?_eq_none.mpr fun e he => ?_
    have := hr e he
    simp only [decide_eq_true_eq,not_and]
    omega
  simp only [lookup,find?_append,hnone,or_none]

/-- The scan of sorted records finds the block exactly when one of them covers it. -/
theorem lookup_eq_zero_iff (hs : ∀ e ∈ es, e.Sane) (h0 : ∀ e ∈ es, (e.start : Nat) ≠ 0) :
    lookup es lblk = 0 ↔ ¬ Mapped es lblk := by
  unfold lookup
  split
  · rename_i hnone
    rw [find?_eq_none] at hnone
    refine iff_of_true rfl ?_
    rintro ⟨e,he,hc⟩
    exact hnone e he (by rw [(hs e he).stop_eq]; exact decide_eq_true hc)
  rename_i e hsome
  have he := mem_of_find?_eq_some hsome
  have hc := find?_some hsome
  rw [(hs e he).stop_eq] at hc
  refine iff_of_false (fun h => h0 e he (by omega)) fun h => h ⟨e,he,of_decide_eq_true hc⟩

theorem lookup_mem_physBlocks (hs : ∀ e ∈ es, e.Sane) (h : lookup es lblk ≠ 0) :
    lookup es lblk ∈ physBlocks es := by
  unfold lookup at h ⊢
  split at h
  · exact absurd rfl h
  rename_i e hsome
  have he := mem_of_find?_eq_some hsome
  have hc := find?_some hsome
  rw [(hs e he).stop_eq] at hc
  simp only [decide_eq_true_eq] at hc
  exact mem_flatMap.mpr ⟨e,he,mem_range'_1.mpr (by omega)⟩

theorem lookup_of_covers (hs : Sorted es) (he : e ∈ es) (hc : e.Covers lblk) :
    lookup es lblk = e.start+(lblk-e.block) := by
  obtain ⟨l,r,rfl⟩ := append_of_mem he
  obtain ⟨hsl,hsr,hlr⟩ := sorted_append.mp hs
  have hl : ∀ a ∈ l, ¬ a.Covers lblk := fun a ha hca => by
    have hae := hlr a ha e (mem_cons_self ..)
    simp only [Extent.Before,Extent.Covers] at hae hca hc
    omega
  have hstop := (sorted_cons.mp hsr).1.stop_eq
  rw [lookup_append_right hl hsl.sane,lookup,find?_cons_of_pos]
  rw [hstop]
  exact decide_eq_true hc

theorem lookup_of_not_mapped (hs : ∀ e ∈ es, e.Sane) (h : ¬ Mapped es lblk) :
    lookup es lblk = 0 := by
  have := lookup_append_right (r := []) (fun e he hc => h ⟨e,he,hc⟩) hs
  rwa [append_nil] at this

/-! ### Insertion -/

/-- `es'` is `es` with the run `x` put in its place, as a record of its own or merged with
a neighbour. -/
inductive Inserted (x : Extent) : List Extent → List Extent → Prop
  | plain {pre post : List Extent} : (∀ e ∈ pre, e.block ≤ x.block) → (∀ e ∈ post, x.block < e.block) →
      Inserted x (pre ++ post) (pre ++ x :: post)
  | prev {pre post : List Extent} {p : Extent} : p.block+p.len = x.block → p.start+p.len = x.start →
      Inserted x (pre ++ p :: post) (pre ++ { p with len := p.len+x.len } :: post)
  | next {pre post : List Extent} {n : Extent} : x.block+x.len = n.block → x.start+x.len = n.start →
      Inserted x (pre ++ n :: post) (pre ++ ⟨x.block,n.len+x.len,x.start⟩ :: post)

section Grown

variable (h : Inserted x es es')
include h

theorem Inserted.within (hl : ∀ e ∈ l, e.block ≤ x.block) (hr : ∀ e ∈ r, x.block < e.block) :
    Inserted x (l ++ es ++ r) (l ++ es' ++ r) := by
  cases h with
  | plain h1 h2 =>
    simpa using Inserted.plain (forall_mem_append.mpr ⟨hl,h1⟩)
      (forall_mem_append.mpr ⟨h2,hr⟩)
  | @prev pre post p h1 h2 => simpa using @Inserted.prev x (l ++ pre) (post ++ r) p h1 h2
  | @next pre post n h1 h2 => simpa using @Inserted.next x (l ++ pre) (post ++ r) n h1 h2

theorem Inserted.mapped : Mapped es' lblk ↔ Mapped es lblk ∨ x.Covers lblk := by
  cases h with
  | plain _ _ =>
    simp only [mapped_append,mapped_cons]
    tauto
  | @prev pre post p h1 _ =>
    have : (Extent.mk p.block (p.len+x.len) p.start).Covers lblk ↔ p.Covers lblk ∨ x.Covers lblk := by
      simp only [Extent.Covers]
      omega
    simp only [mapped_append,mapped_cons,this]
    tauto
  | @next pre post n h1 _ =>
    have : (Extent.mk x.block (n.len+x.len) x.start).Covers lblk ↔ n.Covers lblk ∨ x.Covers lblk := by
      simp only [Extent.Covers]
      omega
    simp only [mapped_append,mapped_cons,this]
    tauto

theorem Inserted.phys : (physBlocks es').Perm (physBlocks es ++ List.range' x.start x.len) := by
  refine perm_iff_count.mpr fun c => ?_
  cases h with
  | plain _ _ =>
    simp only [physBlocks_append,physBlocks_cons,count_append]
    omega
  | @prev pre post p _ h2 =>
    simp only [physBlocks_append,physBlocks_cons,count_append,← range'_append_1,h2]
    omega
  | @next pre post n _ h2 =>
    simp only [physBlocks_append,physBlocks_cons,count_append,Nat.add_comm n.len,
      ← range'_append_1,h2]
    omega

theorem Inserted.ne_nil : es' ≠ [] := by
  cases h <;> simp

theorem Inserted.length_le : es'.length ≤ es.length+1 := by
  cases h with
  | plain _ _ =>
    simp only [length_append,length_cons]
    omega
  | prev _ _ => simp
  | next _ _ => simp

end Grown

/-- A run that no record overlaps. -/
def Apart (x : Extent) (es : List Extent) : Prop := ∀ e ∈ es, e.Before x ∨ x.Before e

theorem apart_of_unmapped (hx : 0 < x.len) (hs : ∀ e ∈ es, e.Sane)
    (h : ∀ c, x.Covers c → ¬ Mapped es c) : Apart x es := by
  intro e he
  have hpos := (hs e he).1
  -- if neither lies before the other, the larger of their first blocks is in both
  by_contra hcon
  simp only [Extent.Before,not_or,not_le] at hcon
  refine h (max e.block x.block) ?_ ⟨e,he,?_⟩ <;> simp only [Extent.Covers] <;> omega

theorem Inserted.sorted (h : Inserted x es es') (hs : Sorted es) (hx : x.Sane)
    (ha : Apart x es) : Sorted es' := by
  have hx0 := hx.1
  have hx1 := hx.2
  cases h with
  | @plain pre post h1 h2 =>
    obtain ⟨hpre,hpost,hpp⟩ := sorted_append.mp hs
    obtain ⟨apre,apost⟩ := forall_mem_append.mp ha
    have hb : ∀ e ∈ pre, e.Before x := fun e he => (apre e he).resolve_right fun h0 => by
      have := h1 e he
      simp only [Extent.Before] at h0
      omega
    have hn : ∀ e ∈ post, x.Before e := fun e he => (apost e he).resolve_left fun h0 => by
      have := h2 e he
      simp only [Extent.Before] at h0
      omega
    refine sorted_append.mpr ⟨hpre,sorted_cons.mpr ⟨hx,hpost,hn⟩,fun c hc => ?_⟩
    exact forall_mem_cons.mpr ⟨hb c hc,hpp c hc⟩
  | @prev pre post p h1 h2 =>
    obtain ⟨hpre,hpost,hpp⟩ := sorted_append.mp hs
    obtain ⟨hp,hpost',hpn⟩ := sorted_cons.mp hpost
    have hxn : ∀ e ∈ post, x.Before e := fun e he =>
      (ha e (by simp [he])).resolve_left fun h0 => by
        have := hpn e he
        have := (hpost'.sane e he).1
        simp only [Extent.Before] at *
        omega
    refine sorted_append.mpr ⟨hpre,sorted_cons.mpr ⟨?_,hpost',fun e he => ?_⟩,fun c hc => ?_⟩
    · simp only [Extent.Sane] at *
      omega
    · have := hxn e he
      simp only [Extent.Before] at *
      omega
    · obtain ⟨hcp,hcr⟩ := forall_mem_cons.mp (hpp c hc)
      exact forall_mem_cons.mpr ⟨hcp,hcr⟩
  | @next pre post n h1 h2 =>
    obtain ⟨hpre,hpost,hpp⟩ := sorted_append.mp hs
    obtain ⟨hn,hpost',hnn⟩ := sorted_cons.mp hpost
    have hpx : ∀ e ∈ pre, e.Before x := fun e he =>
      (ha e (by simp [he])).resolve_right fun h0 => by
        have := hpp e he n (by simp)
        have := (hpre.sane e he).1
        simp only [Extent.Before] at *
        omega
    refine sorted_append.mpr ⟨hpre,sorted_cons.mpr ⟨?_,hpost',fun e he => ?_⟩,fun c hc => ?_⟩
    · simp only [Extent.Sane] at *
      omega
    · have := hnn e he
      simp only [Extent.Before] at *
      omega
    · exact forall_mem_cons.mpr ⟨hpx c hc,(forall_mem_cons.mp (hpp c hc)).2⟩

/-- After an insertion the run is found where it was put, and everything else where it
was. -/
theorem Inserted.lookup_eq (h : Inserted x es es') (hs : Sorted es) (hs' : Sorted es') :
    lookup es' lblk = if x.Covers lblk then x.start+(lblk-x.block) else lookup es lblk := by
  split
  · rename_i hx
    cases h with
    | plain _ _ => exact lookup_of_covers hs' (by simp) hx
    | @prev pre post p h1 h2 =>
      rw [lookup_of_covers (e := { p with len := p.len+x.len }) hs' (by simp)]
      · have := hx.1
        simp only
        omega
      · simp only [Extent.Covers] at hx ⊢
        omega
    | @next pre post n h1 h2 =>
      refine lookup_of_covers (e := ⟨x.block,n.len+x.len,x.start⟩) hs' (by simp) ?_
      simp only [Extent.Covers] at hx ⊢
      omega
  · rename_i hx
    by_cases hm : Mapped es lblk
    · obtain ⟨e,he,hc⟩ := hm
      rw [lookup_of_covers hs he hc]
      cases h with
      | plain _ _ =>
        refine lookup_of_covers hs' ?_ hc
        rcases mem_append.mp he with he | he <;> simp [he]
      | @prev pre post p h1 h2 =>
        rcases mem_append.mp he with he | he
        · exact lookup_of_covers hs' (by simp [he]) hc
        rcases mem_cons.mp he with rfl | he
        · refine lookup_of_covers (e := { e with len := e.len+x.len }) hs' (by simp) ?_
          simp only [Extent.Covers] at hc ⊢
          omega
        · exact lookup_of_covers hs' (by simp [he]) hc
      | @next pre post n h1 h2 =>
        rcases mem_append.mp he with he | he
        · exact lookup_of_covers hs' (by simp [he]) hc
        rcases mem_cons.mp he with rfl | he
        · rw [lookup_of_covers (e := ⟨x.block,e.len+x.len,x.start⟩) hs' (by simp)]
          · have := hc.1
            simp only
            omega
          · simp only [Extent.Covers] at hc ⊢
            omega
        · exact lookup_of_covers hs' (by simp [he]) hc
    · rw [lookup_of_not_mapped hs.sane hm,lookup_of_not_mapped hs'.sane]
      rw [h.mapped]
      exact not_or.mpr ⟨hm,hx⟩

theorem joins_spec (ha : a.Sane) (h : joins a b = true) :
    a.block+a.len = b.block ∧ a.start+a.len = b.start := by
  simp only [joins,ha.stop_eq,decide_eq_true_eq] at h
  exact ⟨h.1,h.2.1⟩

theorem leafBehind_beyond (hs : Sorted es) : ∀ e ∈ leafBehind es lblk, lblk < e.block := by
  induction es with
  | nil => simp [leafBehind]
  | cons a es ih =>
    obtain ⟨ha,hes,hae⟩ := sorted_cons.mp hs
    rw [leafBehind,dropWhile_cons]
    split
    · exact ih hes
    rename_i hn
    have hlt : lblk < a.block := by simpa using hn
    refine forall_mem_cons.mpr ⟨hlt,fun b hb => ?_⟩
    have := hae b hb
    simp only [Extent.Before] at this
    omega

theorem leafBefore_within : ∀ e ∈ leafBefore es lblk, e.block ≤ lblk := fun _ he => by
  simpa using mem_takeWhile_imp he

theorem leafBefore_append_leafBehind : leafBefore es lblk ++ leafBehind es lblk = es :=
  takeWhile_append_dropWhile

theorem leafPut_inserted (hs : Sorted es) (hx : x.Sane) : Inserted x es (leafPut es x) := by
  have hes : leafBefore es x.block ++ leafBehind es x.block = es := leafBefore_append_leafBehind
  have hsane : ∀ e ∈ leafBefore es x.block, e.Sane := fun e he =>
    hs.sane e (hes ▸ mem_append_left _ he)
  simp only [leafPut]
  cases hp : (leafBefore es x.block).getLast?.filter (joins · x) with
  | some p =>
    obtain ⟨hlast,hj⟩ := filter_eq_some_iff.mp hp
    have hpre := dropLast_append_getLast? p hlast
    obtain ⟨h1,h2⟩ := joins_spec (hsane p (mem_of_getLast? hlast)) hj
    have hsplit : es = (leafBefore es x.block).dropLast ++ p :: leafBehind es x.block := by
      rw [append_cons,hpre,hes]
    have := @Inserted.prev x (leafBefore es x.block).dropLast (leafBehind es x.block) p h1 h2
    rwa [← hsplit] at this
  | none =>
    cases hn : (leafBehind es x.block).head?.filter (joins x ·) with
    | some n =>
      obtain ⟨hhead,hj⟩ := filter_eq_some_iff.mp hn
      obtain ⟨h1,h2⟩ := joins_spec hx hj
      have hsplit : es = leafBefore es x.block ++ n :: (leafBehind es x.block).tail := by
        rw [cons_head?_tail hhead,hes]
      have := @Inserted.next x (leafBefore es x.block) (leafBehind es x.block).tail n h1 h2
      rwa [← hsplit] at this
    | none =>
      have := @Inserted.plain x (leafBefore es x.block) _ leafBefore_within (leafBehind_beyond hs)
      rwa [hes] at this

/-- A run that merges with a neighbour takes no record of its own. -/
theorem leafPut_length (h : canCoalesce es x = true) : (leafPut es x).length = es.length := by
  have hes : (leafBefore es x.block).length+(leafBehind es x.block).length = es.length := by
    rw [← length_append,leafBefore_append_leafBehind]
  simp only [leafPut]
  cases hp : (leafBefore es x.block).getLast?.filter (joins · x) with
  | some p =>
    obtain ⟨hlast,-⟩ := filter_eq_some_iff.mp hp
    have hpre := congrArg List.length (dropLast_append_getLast? p hlast)
    simp only [length_append,length_cons,length_nil] at hpre ⊢
    omega
  | none =>
    cases hn : (leafBehind es x.block).head?.filter (joins x ·) with
    | some n =>
      obtain ⟨hhead,-⟩ := filter_eq_some_iff.mp hn
      have hpost := congrArg List.length (cons_head?_tail hhead)
      simp only [length_append,length_cons] at hpost ⊢
      omega
    | none =>
      rw [filter_eq_none_iff] at hp hn
      rw [canCoalesce,Bool.or_eq_true,Option.any_eq_true,Option.any_eq_true] at h
      rcases h with ⟨e,he,hj⟩ | ⟨e,he,hj⟩
      · exact absurd hj (hp e he)
      · exact absurd hj (hn e he)

theorem append_inserted (hb : ∀ e ∈ es, e.Before x) : Inserted x es (es ++ [x]) := by
  have := @Inserted.plain x es [] (fun e he => Nat.le_trans (Nat.le_add_right ..) (hb e he)) (by simp)
  rwa [append_nil] at this

theorem appendJoin_inserted {l : Extent} (hs : Sorted es)
    (h : es.getLast?.filter (joins · x) = some l) :
    Inserted x es (es.dropLast ++ [{ l with len := l.len+x.len }]) := by
  obtain ⟨hlast,hj⟩ := filter_eq_some_iff.mp h
  obtain ⟨h1,h2⟩ := joins_spec (hs.sane l (mem_of_getLast? hlast)) hj
  have := @Inserted.prev x es.dropLast [] l h1 h2
  rwa [dropLast_append_getLast? l hlast] at this

/-! ### Truncation -/

/-- What a record keeps below a logical block. -/
def keepBelow (lblk : Nat) (e : Extent) : Option Extent :=
  if e.block+e.len ≤ lblk then some e
  else if lblk ≤ e.block then none else some { e with len := lblk-e.block }

def below (lblk : Nat) (es : List Extent) : List Extent := es.filterMap (keepBelow lblk)

theorem below_append : below lblk (l ++ r) = below lblk l ++ below lblk r := filterMap_append

theorem below_eq_nil (h : ∀ e ∈ es, lblk ≤ e.block ∧ 0 < e.len) : below lblk es = [] := by
  refine filterMap_eq_nil_iff.mpr fun e he => ?_
  have := h e he
  rw [keepBelow,if_neg (by omega),if_pos this.1]

theorem below_eq_self (h : ∀ e ∈ es, e.block+e.len ≤ lblk) : below lblk es = es := by
  induction es with
  | nil => rfl
  | cons e es ih =>
    obtain ⟨he,hes⟩ := forall_mem_cons.mp h
    have hk : keepBelow lblk e = some e := if_pos he
    exact (filterMap_cons_some hk).trans (congrArg _ (ih hes))

theorem below_cons_of_le (hs : Sorted (e :: es)) (h : lblk ≤ e.block) : below lblk (e :: es) = [] := by
  obtain ⟨he,hes,heb⟩ := sorted_cons.mp hs
  refine below_eq_nil (forall_mem_cons.mpr ⟨⟨h,he.1⟩,fun b hb => ⟨?_,(hes.sane b hb).1⟩⟩)
  exact Nat.le_trans (Nat.le_trans h (Nat.le_add_right ..)) (heb b hb)

theorem keepBelow_of_lt (h : e.block < lblk) :
    keepBelow lblk e = some { e with len := min e.len (lblk-e.block) } := by
  simp only [keepBelow]
  split
  · rw [min_eq_left (by omega)]
  · rw [if_neg (by omega),Nat.min_eq_right (by omega)]

theorem below_cons_of_lt (h : e.block < lblk) :
    below lblk (e :: es) = { e with len := min e.len (lblk-e.block) } :: below lblk es :=
  filterMap_cons_some (keepBelow_of_lt h)

/-- Lowering `eh_entries` once for each record that goes drops the right ones, because
the records are sorted. -/
theorem cutExtents_eq (hs : Sorted es) : cutExtents lblk es = below lblk es := by
  induction es with
  | nil => rfl
  | cons e es ih =>
    obtain ⟨he,hes,heb⟩ := sorted_cons.mp hs
    have hpos := he.1
    have hstop := he.stop_eq
    by_cases hle : lblk ≤ e.block
    · have hall : ∀ b ∈ e :: es, lblk < b.stop ∧ lblk ≤ b.block := by
        intro b hb
        have hb1 := (hs.sane b hb).stop_eq
        have hb2 := (hs.sane b hb).1
        have hb3 : e.block ≤ b.block := by
          rcases mem_cons.mp hb with rfl | hb
          · exact le_refl _
          · exact Nat.le_trans (Nat.le_add_right ..) (heb b hb)
        omega
      rw [below_cons_of_le hs hle,cutExtents,filter_eq_self.mpr fun b hb => decide_eq_true (hall b hb)]
      simp
    · have hlt := Nat.lt_of_not_le hle
      have hcut : cutExtent lblk e = { e with len := min e.len (lblk-e.block) } := by
        simp only [cutExtent,hle,or_false]
        split
        · rw [min_eq_left (by omega)]
        · rw [Nat.min_eq_right (by omega)]
      have hcount := length_filter_le (fun b => decide (lblk < b.stop ∧ lblk ≤ b.block)) es
      rw [below_cons_of_lt hlt,← ih hes,← hcut,cutExtents,
        filter_cons_of_neg (by simp [hle]),length_cons,Nat.succ_sub hcount]
      rfl

theorem below_sorted (hs : Sorted es) : Sorted (below lblk es) := by
  induction es with
  | nil => exact sorted_nil
  | cons e es ih =>
    obtain ⟨he,hes,heb⟩ := sorted_cons.mp hs
    by_cases hle : lblk ≤ e.block
    · rw [below_cons_of_le hs hle]
      exact sorted_nil
    rw [below_cons_of_lt (Nat.lt_of_not_le hle)]
    have hpos := he.1
    refine sorted_cons.mpr ⟨⟨by simp only; omega,?_⟩,ih hes,fun b hb => ?_⟩
    · have := he.2
      simp only
      omega
    · obtain ⟨c,hc,hcb⟩ := mem_filterMap.mp hb
      have hblock : b.block = c.block := by
        unfold keepBelow at hcb
        split at hcb
        · cases hcb
          rfl
        · split at hcb
          · cases hcb
          · cases hcb
            rfl
      have := heb c hc
      simp only [Extent.Before,hblock] at *
      omega

theorem below_head (hs : Sorted es) (h : below lblk es ≠ []) :
    (below lblk es).head?.map (·.block) = es.head?.map (·.block) := by
  cases es with
  | nil => exact absurd rfl h
  | cons e es =>
    by_cases hle : lblk ≤ e.block
    · exact absurd (below_cons_of_le hs hle) h
    · rw [below_cons_of_lt (Nat.lt_of_not_le hle)]
      rfl

/-- The physical blocks behind the cut. -/
def cutPhys (lblk : Nat) (es : List Extent) : List Nat :=
  es.flatMap fun e => List.range' (e.start+(lblk-e.block)) (e.len-(lblk-e.block))

theorem physBlocks_below_perm (hs : ∀ e ∈ es, 0 < e.len) :
    (physBlocks (below lblk es) ++ cutPhys lblk es).Perm (physBlocks es) := by
  induction es with
  | nil => exact List.Perm.refl _
  | cons e es ih =>
    obtain ⟨he,hes⟩ := forall_mem_cons.mp hs
    have hc : cutPhys lblk (e :: es) =
      List.range' (e.start+(lblk-e.block)) (e.len-(lblk-e.block)) ++ cutPhys lblk es := rfl
    rw [hc]
    by_cases hle : lblk ≤ e.block
    · have hk : keepBelow lblk e = none := by rw [keepBelow,if_neg (by omega),if_pos hle]
      rw [below,filterMap_cons_none hk,Nat.sub_eq_zero_of_le hle,Nat.add_zero,Nat.sub_zero,
        physBlocks_cons]
      exact perm_append_comm_assoc .. |>.trans ((ih hes).append_left _)
    rw [below_cons_of_lt (Nat.lt_of_not_le hle),physBlocks_cons,physBlocks_cons]
    refine perm_iff_count.mpr fun c => ?_
    have hcount := (ih hes).count_eq c
    have hsplit : List.range' e.start e.len = List.range' e.start (min e.len (lblk-e.block)) ++
        List.range' (e.start+(lblk-e.block)) (e.len-(lblk-e.block)) := by
      rcases le_total e.len (lblk-e.block) with h1 | h1
      · rw [Nat.min_eq_left h1,Nat.sub_eq_zero_of_le h1]
        simp
      · rw [Nat.min_eq_right h1,range'_append_1,Nat.add_sub_cancel' h1]
    simp only [hsplit,count_append] at hcount ⊢
    omega

theorem below_length_le (lblk : Nat) (es : List Extent) : (below lblk es).length ≤ es.length :=
  length_filterMap_le ..

end Lariat.Ext4
