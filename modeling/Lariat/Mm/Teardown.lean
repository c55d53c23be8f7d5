import Lariat.Mm.AddressSpace
import Mathlib.Algebra.BigOperators.Fin

/-! Tearing an address space down gives back exactly the frames of its tree. -/
namespace Lariat.Mm

open Foundation.TableTree Reader List Multiset Nat

/-- Between two states of memory only the frames `x` were put back. -/
structure Frees (m m' : Mem) (x : Multiset Nat) : Prop where
  table : m'.table = m.table
  byte : m'.byte = m.byte
  kernelPml4 : m'.kernelPml4 = m.kernelPml4
  totalPages : m'.pmm.totalPages = m.pmm.totalPages
  counted : m.pmm.Counted → m'.pmm.Counted
  free : m'.pmm.free.val = x+m.pmm.free.val

theorem Frees.refl (m : Mem) : Frees m m 0 := ⟨rfl,rfl,rfl,rfl,id,(zero_add _).symm⟩

variable {m' : Mem} {x : Multiset Nat} {path : List (Fin 512)} {e : Entry}

theorem Frees.card_le {m : Mem} (h : Frees m m' x) : m.pmm.free.card ≤ m'.pmm.free.card := by
  have hcard := congrArg Multiset.card h.free
  rw [card_add] at hcard
  exact le_trans (le_add_left _ _) (le_of_eq hcard.symm)

theorem Frees.trans {m m'' : Mem} {y : Multiset Nat} (h : Frees m m' x) (h' : Frees m' m'' y) :
    Frees m m'' (x+y) where
  table := h'.table.trans h.table
  byte := h'.byte.trans h.byte
  kernelPml4 := h'.kernelPml4.trans h.kernelPml4
  totalPages := h'.totalPages.trans h.totalPages
  counted hc := h'.counted (h.counted hc)
  free := by
    rw [h'.free,h.free]
    abel

theorem freePage_frees {m : Mem} {f : Nat} (hlt : f < m.pmm.totalPages)
    (hn : ({f} + m.pmm.free.val).Nodup) : Frees m (m.freePage f) {f} := by
  have hf : f ∉ m.pmm.free :=
    Multiset.disjoint_left.mp (Multiset.nodup_add.mp hn).2.2 (Multiset.mem_singleton_self f)
  refine ⟨rfl,rfl,rfl,pmmFreePage_totalPages f,pmmFreePage_counted,?_⟩
  show (pmmFreePage m.pmm f).free.val = _
  rw [pmmFreePage_free hlt,Finset.insert_val_of_notMem hf,singleton_add]

theorem freePage_frees_of_le {m : Mem} {f : Nat} (hle : m.pmm.totalPages ≤ f) :
    Frees m (m.freePage f) 0 := by
  rw [Mem.freePage,pmmFreePage_of_le hle]
  exact Frees.refl m

/-- The memory a pass over a table reads, which freeing leaves alone. -/
structure SameTables (m m' : Mem) : Prop where
  table : m'.table = m.table
  kernelPml4 : m'.kernelPml4 = m.kernelPml4
  totalPages : m'.pmm.totalPages = m.pmm.totalPages

theorem SameTables.frees {m m'' : Mem} (h : SameTables m m') (hf : Frees m' m'' x) :
    SameTables m m'' :=
  ⟨hf.table.trans h.table,hf.kernelPml4.trans h.kernelPml4,hf.totalPages.trans h.totalPages⟩

theorem foldl_frees {m : Mem} {x : Fin 512 → Multiset Nat} {body : Mem → Fin 512 → Mem}
    (hbody : ∀ i m', SameTables m m' → (x i + m'.pmm.free.val).Nodup → Frees m' (body m' i) (x i))
    (is : List (Fin 512)) (hm : SameTables m m') (hn : ((is.map x).sum + m'.pmm.free.val).Nodup) :
    Frees m' (is.foldl body m') (is.map x).sum := by
  induction is generalizing m' with
  | nil => exact Frees.refl m'
  | cons i is ih =>
    rw [List.map_cons,List.sum_cons] at hn ⊢
    have hn1 : (x i + m'.pmm.free.val).Nodup := by
      apply nodup_of_le _ hn
      rw [add_assoc]
      exact Multiset.add_le_add_left (Multiset.le_add_left _ _)
    have h1 := hbody i m' hm hn1
    rw [List.foldl_cons]
    apply h1.trans
    apply ih (hm.frees h1)
    rw [h1.free]
    have hswap : (is.map x).sum + (x i + m'.pmm.free.val) =
        x i + (is.map x).sum + m'.pmm.free.val := by abel
    rw [hswap]
    exact hn

variable {k : Machine} {m : Mem}

/-- A pass over the slots of a table frees what hangs below them, if dropping an entry does. -/
theorem freeSlots_frees {skip : Mem → Fin 512 → Entry → Bool}
    {drop : Mem → Fin 512 → Entry → Mem} {d phys : Nat} {p : List (Fin 512)}
    (hskip : ∀ i m', SameTables m m' → ptIsPresent (m.table phys i) →
      skip m' i (m.table phys i) → k.next (i :: p) (m.table phys i) = none)
    (hdrop : ∀ i m', SameTables m m' → ptIsPresent (m.table phys i) →
      skip m' i (m.table phys i) = false →
      (k.reader.branch m.table d p i (m.table phys i) + m'.pmm.free.val).Nodup →
      Frees m' (drop m' i (m.table phys i)) (k.reader.branch m.table d p i (m.table phys i)))
    (hn : (k.reader.owned m.table (d+1) p phys + m.pmm.free.val).Nodup)
    (hlt : phys < m.pmm.totalPages) :
    Frees m ((freeSlots skip drop phys m).freePage phys)
      (k.reader.owned m.table (d+1) p phys) := by
  have hsum : k.reader.owned m.table (d+1) p phys = {phys} + ((List.finRange 512).map fun i =>
      k.reader.branch m.table d p i (m.table phys i)).sum := by
    rw [owned_succ,Fin.sum_univ_def]
  rw [hsum] at hn ⊢
  have hbody : ∀ i m', SameTables m m' →
      (k.reader.branch m.table d p i (m.table phys i) + m'.pmm.free.val).Nodup →
      Frees m' (if !ptIsPresent (m'.table phys i) || skip m' i (m'.table phys i) then m'
        else drop m' i (m'.table phys i)) (k.reader.branch m.table d p i (m.table phys i)) := by
    intro i m' hm hni
    rw [hm.table]
    have hzero (h : k.next (i :: p) (m.table phys i) = none) :
        Frees m' m' (k.reader.branch m.table d p i (m.table phys i)) := by
      rw [branch_none h]
      exact Frees.refl m'
    cases hpres : ptIsPresent (m.table phys i) with
    | false =>
      rw [if_pos (by simp)]
      exact hzero (next_absent hpres)
    | true =>
      cases hs : skip m' i (m.table phys i) with
      | true =>
        rw [if_pos (by simp)]
        exact hzero (hskip i m' hm hpres hs)
      | false =>
        rw [if_neg (by simp)]
        exact hdrop i m' hm hpres hs hni
  have hslots {a b c : Multiset Nat} (habc : (a+b + c).Nodup) : (b+c).Nodup := by
    rw [add_assoc] at habc
    exact (Multiset.nodup_add.mp habc).2.1
  rw [freeSlots]
  generalize List.finRange 512 = is at hn ⊢
  have hloop := foldl_frees hbody is ⟨rfl,rfl,rfl⟩ (hslots hn)
  rw [add_comm]
  apply hloop.trans
  apply freePage_frees
  · rw [hloop.totalPages]
    exact hlt
  · rw [hloop.free,← add_assoc]
    exact hn

theorem entry_deep (hlen : 3 ≤ path.length) : k.entry path = {} := by
  match path, hlen with
  | _ :: _ :: _ :: _, _ => rfl

theorem shared_deep (hlen : 3 ≤ path.length) (e : Entry) : k.shared path e = false := by
  rw [Machine.shared,entry_deep hlen]
  rfl

theorem sharedWith_zero (i : Fin 512) (e : Entry) : sharedWith m 0 i e = false := rfl

theorem SameTables.sharedWith_eq (h : SameTables m m') (kphys : Nat) (i : Fin 512) (e : Entry) :
    sharedWith m' kphys i e = sharedWith m kphys i e := by
  rw [sharedWith,sharedWith,sameSlot,sameSlot,h.table]

theorem next_of_shared (h : k.shared path e || ptIsHuge e) : k.next path e = none := by
  rw [Machine.next,if_neg]
  simp only [Bool.or_eq_true] at h
  rcases h with h | h
  · simp [h]
  · simp [h]

theorem next_of_private (he : ptIsPresent e) (h : (k.shared path e || ptIsHuge e) = false) :
    k.next path e = if path.length ≠ 4 ∨ e.frame < k.total then some e.frame else none := by
  simp only [Bool.or_eq_false_iff] at h
  simp [Machine.next,he,h.1,h.2]

theorem freeUserTable_frees {level phys kphys : Nat} {p : List (Fin 512)}
    (hlen : p.length + level = 3) (hp : p ≠ [])
    (hk : ∀ i e, sharedWith m kphys i e = k.shared (i :: p) e)
    (htotal : m.pmm.totalPages = k.total)
    (hlt : ∀ f ∈ k.reader.owned m.table (level+1) p phys, f < k.total)
    (hn : (k.reader.owned m.table (level+1) p phys + m.pmm.free.val).Nodup) :
    Frees m (freeUserTable level m phys kphys) (k.reader.owned m.table (level+1) p phys) := by
  induction level generalizing m p phys kphys with
  | zero =>
    rw [freeUserTable]
    apply freeSlots_frees
    · intro i m' hm _ hs
      rw [hm.sharedWith_eq,hk] at hs
      exact next_of_shared hs
    · intro i m' hm he hs hni
      rw [hm.sharedWith_eq,hk] at hs
      have hnext := next_of_private he hs
      have hp3 : p.length = 3 := hlen
      rw [length_cons,hp3] at hnext
      by_cases hf : (m.table phys i).frame < k.total
      · rw [if_pos (.inr hf)] at hnext
        rw [branch_some hnext,owned_zero] at hni ⊢
        exact freePage_frees (by rw [hm.totalPages,htotal]; exact hf) hni
      · rw [if_neg (by simp [hf])] at hnext
        rw [branch_none hnext]
        exact freePage_frees_of_le (by rw [hm.totalPages,htotal]; omega)
    · exact hn
    · rw [htotal]
      exact hlt phys self_mem_owned
  | succ level ih =>
    rw [freeUserTable]
    apply freeSlots_frees
    · intro i m' hm _ hs
      rw [hm.sharedWith_eq,hk] at hs
      exact next_of_shared hs
    · intro i m' hm he hs hni
      rw [hm.sharedWith_eq,hk] at hs
      have hnext := next_of_private he hs
      rw [if_pos (.inl (by rw [length_cons]; omega))] at hnext
      rw [branch_some hnext,← hm.table] at hni ⊢
      apply ih (by rw [length_cons]; omega) (cons_ne_nil i p) ?_ ?_ ?_ hni
      · intro j e
        rw [sharedWith_zero,shared_deep]
        have := List.length_pos_iff.mpr hp
        simp only [length_cons]
        omega
      · rw [hm.totalPages,htotal]
      · intro f hf
        rw [hm.table] at hf
        exact hlt f (mem_owned_child hnext hf)
    · exact hn
    · rw [htotal]
      exact hlt phys self_mem_owned

section Intact

variable (hi : KernelIntact k m)
include hi

theorem KernelIntact.root : m.table k.pml4 = k.tables k.pml4 :=
  hi.tables k.pml4 (.inl rfl)

theorem KernelIntact.low_table :
    m.table (k.tables k.pml4 0).frame = k.tables (k.tables k.pml4 0).frame :=
  hi.tables _ (.inr ⟨0,k.low,(fun h => nomatch h),.inl rfl⟩)

theorem KernelIntact.sameTables {m' : Mem} (h : SameTables m m') : KernelIntact k m' :=
  ⟨h.kernelPml4.trans hi.pml4,h.totalPages.trans hi.total,fun f hf => by
    rw [h.table]
    exact hi.tables f hf⟩

/-- The test of the code, against the kernel's live table, is the model's. -/
theorem KernelIntact.sameSlot_eq (i : Fin 512) (e : Entry) :
    sameSlot m m.kernelPml4 i e = k.shared [i] e := by
  rw [sameSlot,hi.pml4,hi.root]
  rfl

theorem KernelIntact.kernelBelow_eq {m' : Mem} (hi' : KernelIntact k m') (i : Fin 512) :
    kernelBelow m' i = kernelBelow m i := by
  rw [kernelBelow,kernelBelow,hi.pml4,hi'.pml4,hi.root,hi'.root]

theorem KernelIntact.sharedWith_eq {i : Fin 512} (hp : UserPath [i]) (j : Fin 512) (e : Entry) :
    sharedWith m (kernelBelow m i) j e = k.shared [j,i] e := by
  rw [kernelBelow,hi.pml4,hi.root,Machine.shared,Machine.entry]
  by_cases he : ptIsPresent (k.tables k.pml4 i)
  · have hi0 : i = 0 := by
      rcases k.upper i he with h | h
      · exact h
      · exact absurd hp (not_lt.mpr h)
    subst hi0
    rw [if_pos he,if_pos he,sharedWith,sameSlot,hi.low_table]
    simp [k.low_frame]
  · rw [if_neg he,if_neg he]
    rfl

end Intact

/-- An entry that the kernel does not have lies in the user part. -/
theorem userPath_of_private (hok : CellOk k path e) (he : ptIsPresent e)
    (hs : k.shared path e = false) : UserPath path := by
  by_contra hp
  rcases hok.kernel hp with h | h
  · rw [h] at he hs
    simp [Machine.shared,he] at hs
  · rw [h.1] at he
    cases he

theorem vmmDestroyPagetable_frees {r : Nat} (hi : KernelIntact k m)
    (hs : ∀ i, ptIsPresent (m.table r i) → CellOk k [i] (m.table r i))
    (hlt : ∀ f ∈ k.reader.owned m.table 4 [] r, f < k.total) (h0 : r ≠ 0) (hn : (k.reader.owned m.table 4 [] r + m.pmm.free.val).Nodup) :
    Frees m (vmmDestroyPagetable m r) (k.reader.owned m.table 4 [] r) := by
  rw [vmmDestroyPagetable,if_neg h0]
  apply freeSlots_frees
  · intro i m' hm _ hsame
    rw [(hi.sameTables hm).sameSlot_eq] at hsame
    exact next_of_shared (by rw [hsame]; rfl)
  · intro i m' hm he hsame hni
    have hi' := hi.sameTables hm
    rw [hi'.sameSlot_eq] at hsame
    have hok := hs i he
    have hp := userPath_of_private hok he hsame
    have hnext : k.next [i] (m.table r i) = some (m.table r i).frame := by
      rw [next_user hok hp he]
      rfl
    rw [branch_some hnext,← hm.table] at hni ⊢
    apply freeUserTable_frees rfl (cons_ne_nil i []) (hi'.sharedWith_eq hp) hi'.total ?_ hni
    intro f hf
    rw [hm.table] at hf
    exact hlt f (mem_owned_child hnext hf)
  · exact hn
  · rw [hi.total]
    exact hlt r self_mem_owned

end Lariat.Mm
