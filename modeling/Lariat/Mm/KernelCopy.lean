import Lariat.Mm.Copy

/-! A fresh address space: the kernel's mappings and no user page. -/
namespace Lariat.Mm

open Foundation.TableTree Reader Finset Function

variable {k : Machine} {m m' : Mem} {i j : Fin 512} {r f : Nat}

theorem presentSlots_agrees {z : Table} :
    presentSlots z i = z i ∨ ptIsPresent (presentSlots z i) = false ∧ ptIsPresent (z i) = false := by
  rw [presentSlots]
  cases h : ptIsPresent (z i) with
  | true => exact .inl (if_pos rfl)
  | false => exact .inr ⟨rfl,rfl⟩

theorem presentSlots_absent {z : Table} (h : ptIsPresent (z i) = false) : presentSlots z i = {} := by
  rw [presentSlots,h]
  rfl

/-- The kernel's top-level slots, copied by value. -/
theorem cellOk_top (hi : i ≠ 0) : CellOk k [i] (presentSlots (k.tables k.pml4) i) where
  user hp he := by
    have habs : ptIsPresent (k.tables k.pml4 i) = false := by
      by_contra h
      rcases k.upper i (by simpa using h) with h0 | h0
      · exact hi h0
      · exact absurd hp (Nat.not_lt.mpr h0)
    rw [presentSlots_absent habs] at he
    cases he
  low h := absurd (List.singleton_inj.mp h) hi
  kernel _ := presentSlots_agrees

/-- The slots of the kernel's low PDPT, copied by value. -/
theorem cellOk_low : CellOk k [j,0] (presentSlots (k.tables (k.tables k.pml4 0).frame) j) where
  user hp he := by
    have habs : ptIsPresent (k.tables (k.tables k.pml4 0).frame j) = false := by
      by_contra h
      exact hp.2 ⟨rfl,k.low_only j (by simpa using h)⟩
    rw [presentSlots_absent habs] at he
    cases he
  low h := by cases h
  kernel _ := by
    rw [Machine.entry,if_pos k.low]
    exact presentSlots_agrees

theorem not_userPath_low (h : ptIsPresent (k.tables (k.tables k.pml4 0).frame j)) :
    ¬UserPath [j,0] :=
  fun hp => hp.2 ⟨rfl,k.low_only j h⟩

theorem next_low : k.next [j,0] (presentSlots (k.tables (k.tables k.pml4 0).frame) j) = none := by
  cases h : ptIsPresent (k.tables (k.tables k.pml4 0).frame j) with
  | true => exact next_kernel cellOk_low (not_userPath_low h)
  | false =>
    rw [presentSlots_absent h]
    exact next_empty k _

theorem next_top (hi : i ≠ 0) : k.next [i] (presentSlots (k.tables k.pml4) i) = none := by
  cases h : ptIsPresent (k.tables k.pml4 i) with
  | true =>
    refine next_kernel (cellOk_top hi) fun hp => ?_
    rcases k.upper i h with h0 | h0
    · exact hi h0
    · exact absurd hp (Nat.not_lt.mpr h0)
  | false =>
    rw [presentSlots_absent h]
    exact next_empty k _

/-- A top-level table with its own low PDPT and the kernel's slots otherwise. -/
structure Blank (k : Machine) (m : Mem) (r f : Nat) : Prop where
  private_low : ∀ path, ptIsPresent (k.entry path) → (k.entry path).frame ≠ f
  low : m.table r 0 = ⟨f,tableFlags⟩
  top : ∀ i, i ≠ 0 → m.table r i = presentSlots (k.tables k.pml4) i
  pdpt : m.table f = presentSlots (k.tables (k.tables k.pml4 0).frame)

section

variable (h : Blank k m r f)
include h

theorem Blank.cell : CellOk k [0] (m.table r 0) := by
  rw [h.low]
  refine ⟨fun _ _ => ⟨rfl,?_,fun _ => ⟨rfl,rfl⟩⟩,fun _ => rfl,fun h0 => absurd ?_ h0⟩
  · cases hpres : ptIsPresent (k.entry [0]) with
    | false => simp [Machine.shared,hpres]
    | true => simp [Machine.shared,hpres,h.private_low [0] hpres]
  · show (0 : Fin 512).val < 256
    decide

theorem Blank.next_low : k.next [0] (m.table r 0) = some f := by
  have hp : UserPath [0] := by
    show (0 : Fin 512).val < 256
    decide
  rw [next_user h.cell hp (by rw [h.low]; rfl),h.low]
  rfl

theorem Blank.owned : k.reader.owned m.table 4 [] r = {r} + {f} := by
  have hpdpt : k.reader.owned m.table 3 [0] f = {f} := by
    apply owned_of_none
    intro j
    rw [h.pdpt]
    exact Lariat.Mm.next_low
  have hrest : ∑ j ∈ Finset.univ.erase 0, k.reader.branch m.table 3 [] j (m.table r j) = 0 := by
    apply sum_eq_zero
    intro j hj
    rw [h.top j (ne_of_mem_erase hj)]
    exact branch_none (next_top (ne_of_mem_erase hj))
  rw [owned_split 0,branch_some h.next_low,hpdpt,hrest,add_zero]

theorem Blank.sane : k.reader.Sane m.table 4 [] r := by
  intro i
  by_cases hi : i = 0
  · subst hi
    refine ⟨h.cell,fun c hc => ?_⟩
    have hf : c = f := Option.some.inj (hc.symm.trans h.next_low)
    subst hf
    intro j
    rw [h.pdpt]
    refine ⟨cellOk_low,fun b hb => ?_⟩
    have h0 : k.next [j,0] (presentSlots (k.tables (k.tables k.pml4 0).frame) j) = none :=
      Lariat.Mm.next_low
    exact absurd (h0.symm.trans hb) (by simp)
  · rw [h.top i hi]
    refine ⟨cellOk_top hi,fun c hc => ?_⟩
    exact absurd ((next_top hi).symm.trans hc) (by simp)

theorem Blank.find {q : List (Fin 512)} (hq : q.length = 4) :
    k.reader.find m.table [] r q = none := by
  match q, hq with
  | i :: j :: l :: q, _ =>
    by_cases hi : i = 0
    · subst hi
      have h0 : k.next [j,0] (m.table f j) = none := by
        rw [h.pdpt]
        exact Lariat.Mm.next_low
      rw [find_of_some h.next_low]
      exact find_of_none h0
    · have h0 : k.next [i] (m.table r i) = none := by
        rw [h.top i hi]
        exact next_top hi
      exact find_of_none h0

end

/-- What asking for a fresh address space can do: build one from two frames, or change nothing. -/
inductive NewSpace (k : Machine) (m : Mem) : Mem × Nat → Prop
  | done {m' : Mem} {r : Nat} : r ≠ 0 →
      m.pmm.free.val = k.reader.owned m'.table 4 [] r + m'.pmm.free.val →
      k.reader.Sane m'.table 4 [] r → (∀ q, q.length = 4 → k.reader.find m'.table [] r q = none) →
      Within m.pmm.free m m' → NewSpace k m (m',r)
  | fail {m' : Mem} : m.pmm.free.card < 2 → m'.pmm.free = m.pmm.free → Within m.pmm.free m m' →
      NewSpace k m (m',0)

theorem destroy_empty (hi : KernelIntact k m) (hr : ∀ j, m.table r j = {}) (h0 : r ≠ 0)
    (hlt : r < k.total) (hn : ({r} + m.pmm.free.val).Nodup) :
    Frees m (vmmDestroyPagetable m r) {r} := by
  have hself : k.reader.owned m.table 4 [] r = {r} := owned_empty hr
  rw [← hself] at hn ⊢
  refine vmmDestroyPagetable_frees hi (fun i he => ?_) (fun f hf => ?_) h0 hn
  · rw [hr i] at he
    cases he
  · rw [hself] at hf
    rw [Multiset.mem_singleton.mp hf]
    exact hlt

theorem vmmCloneKernelPagetable_new (hi : KernelIntact k m)
    (hk : ∀ f, Reads k.tables 3 k.pml4 f → f ∉ m.pmm.free) (hz : 0 ∉ m.pmm.free) :
    NewSpace k m (vmmCloneKernelPagetable m) := by
  have hlt {f : Nat} (hf : f ∈ m.pmm.free) : f < k.total := by
    rw [← hi.total]
    exact (Pmm.mem_free.mp hf).1
  rw [vmmCloneKernelPagetable]
  rcases allocPtPage_took hz with ⟨hfree,heq⟩ | ⟨m1,r,heq,hr0,htable,hbyte,hval,hspent⟩
  · rw [heq,if_pos rfl]
    refine .fail ?_ rfl (Within.refl _ m)
    rw [hfree]
    decide
  rw [heq,if_neg hr0]
  have hrfree := mem_val_left hval (Multiset.mem_singleton_self r)
  have hw1 := hspent.within htable hbyte hrfree
  have hi1 := hi.within hw1 hk
  have hn1 : ({r} + m1.pmm.free.val).Nodup := by
    rw [← hval]
    exact m.pmm.free.nodup
  have hlow : ptIsPresent (m1.table m1.kernelPml4 0) := by
    rw [hi1.pml4,hi1.root]
    exact k.low
  rw [if_pos hlow]
  have ht := alloc_took m1
  generalize m1.alloc = a at ht
  cases ht with
  | fail hfree =>
    rw [if_pos rfl]
    have hempty : ∀ j, m1.table r j = {} := by
      intro j
      rw [htable,update_self]
      rfl
    have hd := destroy_empty hi1 hempty hr0 (hlt hrfree) hn1
    refine .fail ?_ ?_ (hw1.trans (hd.within _))
    · have := hspent.card
      rw [hfree,card_empty] at this
      omega
    · apply Finset.val_inj.mp
      rw [hd.free,hval]
  | @page m2 f hf htable2 hbyte2 hval2 hspent2 =>
    have hffree : f ∈ m.pmm.free := hspent.free hf
    have hf0 : f ≠ 0 := fun h0 => hz (h0 ▸ hffree)
    have hfr : f ≠ r := by
      rintro rfl
      exact Multiset.disjoint_left.mp (Multiset.nodup_add.mp hn1).2.2
        (Multiset.mem_singleton_self f) hf
    rw [if_neg hf0]
    set m3 := (m2.setTable f (presentSlots (m1.table (m1.table m1.kernelPml4 0).frame))).setTable r
      (update (presentSlots (m1.table m1.kernelPml4)) 0 ⟨f,tableFlags⟩) with hm3
    have hblank : Blank k m3 r f := by
      refine ⟨fun path hpres h0 => hk _ (reads_entry hpres) (h0 ▸ hffree),?_,fun i hi0 => ?_,?_⟩
      · simp [hm3,Mem.setTable]
      · simp [hm3,Mem.setTable,hi0,hi1.pml4,hi1.root]
      · simp [hm3,Mem.setTable,hfr,hi1.pml4,hi1.root,hi1.low_table]
    have hw3 : Within m.pmm.free m1 m3 := by
      refine ⟨fun g hg => ?_,fun g _ => ?_,hspent2.kernelPml4,hspent2.totalPages,hspent2.counted⟩
      · have hgr : g ≠ r := fun h0 => hg (h0 ▸ hrfree)
        have hgf : g ≠ f := fun h0 => hg (h0 ▸ hffree)
        simp [hm3,Mem.setTable,hgr,hgf,htable2]
      · show m2.byte g = m1.byte g
        rw [hbyte2]
    refine .done hr0 ?_ hblank.sane (fun q hq => hblank.find hq) (hw1.trans hw3)
    rw [hblank.owned]
    show m.pmm.free.val = {r} + {f} + m2.pmm.free.val
    rw [hval,hval2,add_assoc]

theorem vmmCloneKernelPagetable_card (hz : 0 ∉ m.pmm.free)
    (hr : (vmmCloneKernelPagetable m).2 ≠ 0) :
    m.pmm.free.card ≤ (vmmCloneKernelPagetable m).1.pmm.free.card + 2 := by
  rw [vmmCloneKernelPagetable] at hr ⊢
  rcases allocPtPage_took hz with ⟨-,heq⟩ | ⟨m1,r,heq,hr0,-,-,-,hspent⟩
  · rw [heq,if_pos rfl] at hr
    exact absurd rfl hr
  have hone := hspent.card
  rw [heq,if_neg hr0] at hr ⊢
  by_cases hlow : ptIsPresent (m1.table m1.kernelPml4 0)
  · rw [if_pos hlow] at hr ⊢
    have ht := alloc_took m1
    generalize m1.alloc = a at ht hr
    cases ht with
    | fail =>
      rw [if_pos rfl] at hr
      exact absurd rfl hr
    | @page m2 f hf _ _ _ hspent2 =>
      have htwo := hspent2.card
      split_ifs at hr ⊢ with hf0
      · exact absurd rfl hr
      · show _ ≤ m2.pmm.free.card+2
        omega
  · rw [if_neg hlow]
    show _ ≤ m1.pmm.free.card+2
    omega

end Lariat.Mm
