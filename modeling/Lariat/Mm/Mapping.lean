import Lariat.Mm.AddressSpace

/-! Mapping and unmapping one page, as changes of one tree of tables. -/
namespace Lariat.Mm

open Foundation.TableTree Reader List Function Finset Multiset

/-- Between two states of memory at most `n` free frames were used up. -/
structure Spent (m m' : Mem) (n : Nat) : Prop where
  kernelPml4 : m'.kernelPml4 = m.kernelPml4
  totalPages : m'.pmm.totalPages = m.pmm.totalPages
  counted : m.pmm.Counted → m'.pmm.Counted
  free : m'.pmm.free ⊆ m.pmm.free
  card : m.pmm.free.card ≤ m'.pmm.free.card+n

theorem Spent.refl (m : Mem) (n : Nat) : Spent m m n :=
  ⟨rfl,rfl,id,Finset.Subset.refl _,Nat.le_add_right _ _⟩

variable {m' : Mem} {n n' : Nat} {e : Entry} {q : List (Fin 512)} {r : Mem × Bool}

theorem Spent.trans {m m'' : Mem} (h : Spent m m' n) (h' : Spent m' m'' n') :
    Spent m m'' (n+n') where
  kernelPml4 := h'.kernelPml4.trans h.kernelPml4
  totalPages := h'.totalPages.trans h.totalPages
  counted hc := h'.counted (h.counted hc)
  free := h'.free.trans h.free
  card := by
    have h1 := h.card
    have h2 := h'.card
    omega

/-- What a request for a frame can do. -/
inductive Took (m : Mem) : Mem × Nat → Prop
  | fail : m.pmm.free = ∅ → Took m (m,0)
  | page {m' : Mem} {f : Nat} : f ∈ m.pmm.free → m'.table = m.table → m'.byte = m.byte →
      m.pmm.free.val = {f} + m'.pmm.free.val → Spent m m' 1 → Took m (m',f)

theorem alloc_took (m : Mem) : Took m m.alloc := by
  have hp := pmmAllocPage_allocated m.pmm
  rw [Mem.alloc]
  generalize pmmAllocPage m.pmm = r at hp
  cases hp with
  | fail hfree => exact .fail hfree
  | @page q f hf hq htotal hcount =>
    have hval : m.pmm.free.val = {f} + q.free.val := by
      rw [hq,erase_val,singleton_add]
      exact (cons_erase hf).symm
    refine .page hf rfl rfl hval ⟨rfl,htotal,hcount,?_,?_⟩
    · rw [hq]
      exact erase_subset f m.pmm.free
    · rw [hq]
      exact Nat.le_succ_of_pred_le (pred_card_le_card_erase)

theorem allocPtPage_took {m : Mem} (h0 : 0 ∉ m.pmm.free) :
    m.pmm.free = ∅ ∧ allocPtPage m = (m,0) ∨
    ∃ m' f, allocPtPage m = (m',f) ∧ f ≠ 0 ∧ m'.table = update m.table f emptyTable ∧
      m'.byte = m.byte ∧ m.pmm.free.val = {f} + m'.pmm.free.val ∧ Spent m m' 1 := by
  have ht := alloc_took m
  rw [allocPtPage]
  generalize m.alloc = r at ht
  cases ht with
  | fail hfree => exact .inl ⟨hfree,if_pos rfl⟩
  | @page m' f hf htable hbyte hval hspent =>
    have hf0 : f ≠ 0 := fun h => h0 (h ▸ hf)
    refine .inr ⟨m'.setTable f emptyTable,f,if_neg hf0,hf0,?_,hbyte,hval,?_⟩
    · rw [← htable]
      rfl
    · exact ⟨hspent.kernelPml4,hspent.totalPages,hspent.counted,hspent.free,hspent.card⟩

theorem setEntry_slot (m : Mem) (t : Nat) (i : Fin 512) (e : Entry) :
    (m.setEntry t i e).table t i = e := by
  simp [Mem.setEntry]

theorem setEntry_other (m : Mem) (t : Nat) (e : Entry) {i j : Fin 512} (hj : j ≠ i) :
    (m.setEntry t i e).table t j = m.table t j := by
  simp [Mem.setEntry,hj]

theorem setEntry_of_ne (m : Mem) {t f : Nat} (i : Fin 512) (e : Entry) (hf : f ≠ t) :
    (m.setEntry t i e).table f = m.table f :=
  update_of_ne hf _ _

variable {k : Machine} {m : Mem} {d t : Nat} {p : List (Fin 512)} {i : Fin 512}

theorem userPath_below (hp : UserPath (i :: p)) (hne : i :: p ≠ [0]) (j : Fin 512) :
    UserPath (j :: i :: p) := by
  match p, hp, hne with
  | [], hp, hne =>
    refine ⟨hp,fun h => hne ?_⟩
    rw [h.1]
  | [_], _, _ => trivial
  | _ :: _ :: _, _, _ => trivial

/-- What going down one slot of a table can do: follow the entry, run out of frames, or hang an
empty table there, which changes no mapping. -/
inductive Below (k : Machine) (m : Mem) (d : Nat) (p : List (Fin 512)) (t : Nat) (i : Fin 512) :
    Mem × Option Nat → Prop
  | old {c : Nat} : k.next (i :: p) (m.table t i) = some c → Below k m d p t i (m,some c)
  | full : m.pmm.free = ∅ → Below k m d p t i (m,none)
  | new {m' : Mem} {c : Nat} : k.next (i :: p) (m'.table t i) = some c →
      (∀ q, k.reader.Local m.store m'.store (d+2) p t q (k.reader.find m.table p t q) 0 0) →
      m'.byte = m.byte → Spent m m' 1 → Below k m d p t i (m',some c)

theorem tableBelow_below (hlen : p.length + (d+2) = 4) (hp : UserPath (i :: p))
    (hs : k.reader.Sane m.table (d+2) p t)
    (hn : (k.reader.owned m.table (d+2) p t + m.pmm.free.val).Nodup)
    (hk : ∀ f ∈ m.pmm.free, ptIsPresent (k.entry (i :: p)) → (k.entry (i :: p)).frame ≠ f)
    (h0 : 0 ∉ m.pmm.free) : Below k m d p t i (tableBelow m t i) := by
  have hok : CellOk k (i :: p) (m.table t i) := (hs i).1
  rw [tableBelow]
  by_cases he : ptIsPresent (m.table t i)
  · rw [if_pos he]
    refine .old ?_
    rw [next_user hok hp he,if_pos (.inl (by rw [length_cons]; omega))]
  rw [if_neg he]
  rcases allocPtPage_took h0 with ⟨hfree,heq⟩ | ⟨m',f,heq,hf0,htable,hbyte,hval,hspent⟩
  · rw [heq,if_pos rfl]
    exact .full hfree
  rw [heq,if_neg hf0]
  have hmem := mem_val_left hval (Multiset.mem_singleton_self f)
  have htf : t ≠ f := by
    rintro rfl
    exact disjoint_left.mp (nodup_add.mp hn).2.2 self_mem_owned hmem
  have hshared : k.shared (i :: p) ⟨f,tableFlags⟩ = false := by
    cases hpres : ptIsPresent (k.entry (i :: p)) with
    | false => simp [Machine.shared,hpres]
    | true => simp [Machine.shared,hpres,hk f hmem hpres]
  have hcell : CellOk k (i :: p) ⟨f,tableFlags⟩ :=
    ⟨fun _ _ => ⟨rfl,hshared,fun _ => ⟨rfl,rfl⟩⟩,fun _ => rfl,fun h => absurd hp h⟩
  have hnext : k.next (i :: p) ⟨f,tableFlags⟩ = some f := by
    rw [next_user hcell hp rfl,if_pos (.inl (by rw [length_cons]; omega))]
  have hbare : k.reader.Bare (i :: p) emptyTable := by
    refine bare_empty (userPath_below hp fun h => he (hok.low h)) (cons_ne_nil i p)
  have hempty : (m'.setEntry t i ⟨f,tableFlags⟩).table f = emptyTable := by
    rw [setEntry_of_ne _ _ _ htf.symm,htable,update_self]
  refine .new (by rw [setEntry_slot]; exact hnext) ?_ hbyte
    ⟨hspent.kernelPml4,hspent.totalPages,hspent.counted,hspent.free,hspent.card⟩
  apply Local.link hn hval (next_absent (Bool.eq_false_iff.mpr he)) hnext hcell
  · show k.reader.Bare (i :: p) ((m'.setEntry t i ⟨f,tableFlags⟩).table f)
    rw [hempty]
    exact hbare
  · exact setEntry_slot m' t i _
  · intro j hj
    show (m'.setEntry t i ⟨f,tableFlags⟩).table t j = m.table t j
    rw [setEntry_other _ _ _ hj,htable,update_of_ne htf]
  · intro g hgt hgf
    show (m'.setEntry t i ⟨f,tableFlags⟩).table g = m.table g
    rw [setEntry_of_ne _ _ _ hgt,htable,update_of_ne hgf]

/-- The four table indices of an address, from the top. -/
def indices (virt : Nat) : List (Fin 512) :=
  [ptIndex virt 3,ptIndex virt 2,ptIndex virt 1,ptIndex virt 0]

/-- `vmmMapPageIn` as a descent along the indices. -/
def mapPath (phys : Nat) (flags : Flags) : List (Fin 512) → Mem → Nat → Mem × Bool
  | [], m, _ => (m,false)
  | [i], m, t => (m.setEntry t i ⟨phys,{ flags with present := true }⟩,true)
  | i :: j :: q, m, t =>
    if q = [] ∧ ptIsPresent (m.table t i) ∧ ptIsHuge (m.table t i) then (m,false)
    else
      match tableBelow m t i with
      | (m,none) => (m,false)
      | (m,some c) => mapPath phys flags (j :: q) m c

theorem vmmMapPageIn_eq (pml4 virt phys : Nat) (flags : Flags) :
    vmmMapPageIn m pml4 virt phys flags = mapPath phys flags (indices virt) m pml4 := by
  simp only [vmmMapPageIn,indices,mapPath,Bool.and_eq_true,cons_ne_nil,false_and,true_and,
    if_false]
  try rfl

/-- Every step of the way down stays in the user part. -/
def UserRoute : List (Fin 512) → List (Fin 512) → Prop
  | _, [] => True
  | p, i :: q => UserPath (i :: p) ∧ UserRoute (i :: p) q

/-- What mapping a page at the end of a path can do with `n` frames for the tables on the way: set
the entry, or run out of frames. -/
inductive Mapped (k : Machine) (m : Mem) (p : List (Fin 512)) (t : Nat) (q : List (Fin 512))
    (e : Entry) (n : Nat) : Mem × Bool → Prop
  | done {m' : Mem} : k.reader.Local m.store m'.store q.length p t q (some e) (k.page (some e))
      (k.page (k.reader.find m.table p t q)) → m'.byte = m.byte → Spent m m' n →
      Mapped k m p t q e n (m',true)
  | full {m' : Mem} : k.reader.Local m.store m'.store q.length p t q
      (k.reader.find m.table p t q) 0 0 → m'.byte = m.byte → Spent m m' n →
      m.pmm.free.card < n → Mapped k m p t q e n (m',false)

/-- The kernel has no table in a frame that is still free. -/
def KernelApart (k : Machine) (m : Mem) : Prop :=
  0 ∉ m.pmm.free ∧ ∀ f ∈ m.pmm.free, ∀ path, ptIsPresent (k.entry path) →
    (k.entry path).frame ≠ f

theorem KernelApart.of_subset {m : Mem} (hk : KernelApart k m) (hsub : m'.pmm.free ⊆ m.pmm.free) :
    KernelApart k m' :=
  ⟨fun h => hk.1 (hsub h),fun f hf => hk.2 f (hsub hf)⟩

theorem find_slot (m : Mem) (p : List (Fin 512)) (t : Nat) (i : Fin 512) :
    k.reader.find m.table p t [i] = presentEntry (m.table t i) := rfl

theorem setEntry_local (hlen : p.length = 3) (he : CellOk k (i :: p) e)
    (hs : k.reader.Sane m.table 1 p t) :
    k.reader.Local m.store (m.setEntry t i e).store 1 p t [i] (presentEntry e)
      (k.page (presentEntry e)) (k.page (k.reader.find m.table p t [i])) := by
  have hold : CellOk k (i :: p) (m.table t i) := (hs i).1
  rw [find_slot,← branch_leaf he hlen,← branch_leaf hold hlen]
  refine Local.write he ?_ ?_ ?_ ?_
  · rfl
  · exact setEntry_slot m t i e
  · exact fun j hj => setEntry_other m t e hj
  · exact fun f hf => setEntry_of_ne m i e hf

theorem userPath_last (hlen : p.length = 3) : UserPath (i :: p) := by
  match p, hlen with
  | [_,_,_], _ => trivial

theorem entry_last (hlen : p.length = 3) : k.entry (i :: p) = {} := by
  match p, hlen with
  | [_,_,_], _ => rfl

/-- Any small entry may stand in a last-level table. -/
theorem cellOk_last (hlen : p.length = 3) (hh : ptIsHuge e = false) : CellOk k (i :: p) e where
  user _ _ := by
    refine ⟨hh,?_,fun h => ?_⟩
    · rw [Machine.shared,entry_last hlen]
      rfl
    · rw [length_cons] at h
      omega
  low h := by
    rw [List.cons.injEq] at h
    rw [h.2] at hlen
    cases hlen
  kernel h := absurd (userPath_last hlen) h

theorem Mapped.lift {c : Nat} {j : Fin 512}
    (hn : (k.reader.owned m.table (q.length+2) p t + m.pmm.free.val).Nodup)
    (hc : k.next (i :: p) (m.table t i) = some c) (h : Mapped k m (i :: p) c (j :: q) e n r) :
    Mapped k m p t (i :: j :: q) e n r := by
  have hfind : k.reader.find m.table p t (i :: j :: q) =
      k.reader.find m.table (i :: p) c (j :: q) := find_of_some hc
  cases h with
  | done hl hbyte hspent =>
    refine .done ?_ hbyte hspent
    rw [hfind]
    exact Local.lift hn hc hl
  | full hl hbyte hspent hcard =>
    refine .full ?_ hbyte hspent hcard
    rw [hfind]
    exact Local.lift hn hc hl

theorem Mapped.after
    (hl : k.reader.Local m.store m'.store q.length p t q (k.reader.find m.table p t q) 0 0)
    (hb : m'.byte = m.byte) (hspent : Spent m m' 1) (h : Mapped k m' p t q e n r) :
    Mapped k m p t q e (n+1) r := by
  have hfind : k.reader.find m'.table p t q = k.reader.find m.table p t q := by
    have h0 := hl.finds q rfl
    rwa [if_pos rfl] at h0
  cases h with
  | done hl' hbyte hspent' =>
    refine .done ?_ (hbyte.trans hb) ?_
    · rw [hfind] at hl'
      exact hl.trans hl'
    · rw [add_comm]
      exact hspent.trans hspent'
  | full hl' hbyte hspent' hcard =>
    refine .full ?_ (hbyte.trans hb) ?_ ?_
    · rw [hfind] at hl'
      exact hl.trans hl'
    · rw [add_comm]
      exact hspent.trans hspent'
    · have := hspent.card
      omega

theorem Spent.mono {m : Mem} (h : Spent m m' n) (hn : n ≤ n') : Spent m m' n' :=
  ⟨h.kernelPml4,h.totalPages,h.counted,h.free,h.card.trans (Nat.add_le_add_left hn _)⟩

theorem Mapped.mono (h : Mapped k m p t q e n r) (hn : n ≤ n') : Mapped k m p t q e n' r := by
  cases h with
  | done hl hbyte hspent => exact .done hl hbyte (hspent.mono hn)
  | full hl hbyte hspent hcard => exact .full hl hbyte (hspent.mono hn) (by omega)

theorem mapPath_mapped {phys : Nat} {flags : Flags} (hh : flags.huge = false) (hq : q ≠ [])
    (hlen : p.length + q.length = 4) (hr : UserRoute p q) (hs : k.reader.Sane m.table q.length p t)
    (hn : (k.reader.owned m.table q.length p t + m.pmm.free.val).Nodup) (hk : KernelApart k m) :
    Mapped k m p t q ⟨phys,{ flags with present := true }⟩ (q.length-1)
      (mapPath phys flags q m t) := by
  induction q generalizing m p t with
  | nil => exact absurd rfl hq
  | cons i q ih =>
    cases q with
    | nil =>
      have hp3 : p.length = 3 := by simpa using hlen
      have hspent : Spent m (m.setEntry t i ⟨phys,{ flags with present := true }⟩) 0 :=
        ⟨rfl,rfl,id,Finset.Subset.refl _,le_refl _⟩
      exact .done (setEntry_local hp3 (cellOk_last hp3 hh) hs) rfl hspent
    | cons j q =>
      have hlen' : (i :: p).length + (j :: q).length = 4 := by
        simp only [length_cons] at hlen ⊢
        omega
      have hok : CellOk k (i :: p) (m.table t i) := (hs i).1
      have hsmall : ¬(q = [] ∧ ptIsPresent (m.table t i) ∧ ptIsHuge (m.table t i)) := by
        rintro ⟨-,hpres,hhuge⟩
        rw [(hok.user hr.1 hpres).1] at hhuge
        cases hhuge
      have hb : Below k m q.length p t i (tableBelow m t i) :=
        tableBelow_below hlen hr.1 hs hn (fun f hf => hk.2 f hf (i :: p)) hk.1
      rw [mapPath,if_neg hsmall]
      generalize tableBelow m t i = r at hb
      cases hb with
      | @old c hc =>
        have hm := ih (cons_ne_nil j q) hlen' hr.2
          ((hs i).2 c hc) (owned_child_nodup hn hc) hk
        exact (hm.lift hn hc).mono (by simp)
      | full hfree =>
        refine .full (Local.refl m.store _) rfl (Spent.refl m _) ?_
        rw [hfree]
        simp
      | @new m' c hc hl hbyte hspent =>
        have hn' : (k.reader.owned m'.table (q.length+2) p t + m'.pmm.free.val).Nodup := by
          have h0 := (hl []).ledger
          rw [add_zero,add_zero] at h0
          exact h0 ▸ hn
        have hs' := (hl []).sane hs
        have hm := ih (cons_ne_nil j q) hlen' hr.2
          ((hs' i).2 c hc) (owned_child_nodup hn' hc) (hk.of_subset hspent.free)
        exact (hm.lift hn' hc).after (hl _) hbyte hspent

/-- `vmmUnmapPageIn` as a descent along the indices. -/
def clearPath : List (Fin 512) → Mem → Nat → Mem
  | [], m, _ => m
  | [i], m, t => m.setEntry t i {}
  | i :: j :: q, m, t =>
    if !ptIsPresent (m.table t i) then m
    else if q = [] ∧ ptIsHuge (m.table t i) then m
    else clearPath (j :: q) m (m.table t i).frame

theorem vmmUnmapPageIn_eq (pml4 virt : Nat) :
    vmmUnmapPageIn m pml4 virt = clearPath (indices virt) m pml4 := by
  simp [vmmUnmapPageIn,indices,clearPath]

/-- Only tables are written. -/
theorem clearPath_eq (q : List (Fin 512)) :
    ∃ h, clearPath q m t = { m with table := h } := by
  fun_induction clearPath q m t with
  | case1 | case2 | case3 | case4 => exact ⟨_,rfl⟩
  | case5 _ _ _ _ _ _ _ ih => exact ih

theorem clearPath_local (hlen : p.length + q.length = 4) (hr : UserRoute p q)
    (hs : k.reader.Sane m.table q.length p t)
    (hn : (k.reader.owned m.table q.length p t + m.pmm.free.val).Nodup) :
    k.reader.Local m.store (clearPath q m t).store q.length p t q none 0
      (k.page (k.reader.find m.table p t q)) := by
  induction q generalizing p t with
  | nil => exact Local.refl m.store []
  | cons i q ih =>
    cases q with
    | nil =>
      have hp3 : p.length = 3 := by simpa using hlen
      exact setEntry_local hp3 (cellOk_last hp3 rfl) hs
    | cons j q =>
      have hok : CellOk k (i :: p) (m.table t i) := (hs i).1
      rw [clearPath]
      by_cases he : ptIsPresent (m.table t i)
      · have hc : k.next (i :: p) (m.table t i) = some (m.table t i).frame := by
          have hne : (i :: p).length ≠ 4 := by
            simp only [length_cons] at hlen ⊢
            omega
          rw [next_user hok hr.1 he,if_pos (.inl hne)]
        have hhuge := (hok.user hr.1 he).1
        have hfind : k.reader.find m.table p t (i :: j :: q) =
            k.reader.find m.table (i :: p) (m.table t i).frame (j :: q) := find_of_some hc
        have hl := ih
          (by simp only [length_cons] at hlen ⊢; omega) hr.2 ((hs i).2 _ hc)
          (owned_child_nodup hn hc)
        rw [if_neg (by simp [he]),if_neg (by simp [hhuge]),hfind]
        exact Local.lift hn hc hl
      · have hc : k.next (i :: p) (m.table t i) = none :=
          next_absent (Bool.eq_false_iff.mpr he)
        have hfind : k.reader.find m.table p t (i :: j :: q) = none := find_of_none hc
        have hl := Local.refl (R := k.reader) (d := q.length+2) (p := p) (t := t) m.store
          (i :: j :: q)
        rw [if_pos (by simp [he])]
        rw [show m.store.heap = m.table from rfl,hfind] at hl
        rw [hfind]
        exact hl

end Lariat.Mm
