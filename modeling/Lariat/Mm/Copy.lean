import Lariat.Mm.Teardown
import Lariat.Mm.Mapping

/-! Copying an address space for fork: a fresh tree with the same pages, or nothing at all. -/
namespace Lariat.Mm

open Foundation.TableTree Reader List Finset Multiset Option Function

/-- Between two states of memory only frames of `S` were written. -/
structure Within (S : Finset Nat) (m m' : Mem) : Prop where
  table : ∀ f, f ∉ S → m'.table f = m.table f
  byte : ∀ f, f ∉ S → m'.byte f = m.byte f
  kernelPml4 : m'.kernelPml4 = m.kernelPml4
  totalPages : m'.pmm.totalPages = m.pmm.totalPages
  counted : m.pmm.Counted → m'.pmm.Counted

theorem Within.refl (S : Finset Nat) (m : Mem) : Within S m m :=
  ⟨fun _ _ => rfl,fun _ _ => rfl,rfl,rfl,id⟩

variable {S : Finset Nat} {q : List (Fin 512)} {e e' : Entry}

theorem Within.trans {m m' m'' : Mem} (h : Within S m m') (h' : Within S m' m'') :
    Within S m m'' where
  table f hf := (h'.table f hf).trans (h.table f hf)
  byte f hf := (h'.byte f hf).trans (h.byte f hf)
  kernelPml4 := h'.kernelPml4.trans h.kernelPml4
  totalPages := h'.totalPages.trans h.totalPages
  counted hc := h'.counted (h.counted hc)

theorem Within.mono {T : Finset Nat} {m m' : Mem} (h : Within S m m') (hst : S ⊆ T) :
    Within T m m' where
  table f hf := h.table f fun h0 => hf (hst h0)
  byte f hf := h.byte f fun h0 => hf (hst h0)
  kernelPml4 := h.kernelPml4
  totalPages := h.totalPages
  counted := h.counted

theorem Frees.within {m m' : Mem} {x : Multiset Nat} (h : Frees m m' x) (S : Finset Nat) :
    Within S m m' :=
  ⟨fun f _ => by rw [h.table],fun f _ => by rw [h.byte],h.kernelPml4,h.totalPages,h.counted⟩

variable {k : Machine} {m m' : Mem} {d s t : Nat} {p : List (Fin 512)} {i : Fin 512}

/-- A page as its process sees it: the flags and the bytes. -/
def Mem.seen (m : Mem) (o : Option Entry) : Option (Flags × (Nat → UInt8)) :=
  o.map fun e => (e.flags,m.byte e.frame)

/-- The page at the end of a path, as its process sees it. -/
def view (k : Machine) (m : Mem) (p : List (Fin 512)) (t : Nat) (q : List (Fin 512)) :
    Option (Flags × (Nat → UInt8)) :=
  m.seen (k.reader.find m.table p t q)

/-- A page of the allocator's found in a tree is a frame below the first slot of its path. -/
theorem leaf_mem_branch (hlen : p.length + (i :: q).length = 4)
    (hs : k.reader.Sane m.table (q.length+1) p t)
    (hf : k.reader.find m.table p t (i :: q) = some e) (hlt : e.frame < k.total) :
    e.frame ∈ k.reader.branch m.table q.length p i (m.table t i) := by
  induction q generalizing i p t with
  | nil =>
    have hp3 : p.length = 3 := by simpa using hlen
    have hok : CellOk k (i :: p) (m.table t i) := (hs i).1
    rw [find_slot,presentEntry] at hf
    split at hf
    · rename_i he
      cases hf
      have hnext := next_user hok (userPath_last hp3) he
      rw [if_pos (.inr hlt)] at hnext
      exact mem_branch.mpr ⟨_,hnext,self_mem_owned⟩
    · cases hf
  | cons j q ih =>
    obtain ⟨c,hc,hf⟩ := exists_next hf
    have hlen' : (i :: p).length + (j :: q).length = 4 := by
      simp only [length_cons] at hlen ⊢
      omega
    have hbelow := ih hlen' ((hs i).2 c hc) hf
    exact mem_branch.mpr ⟨c,hc,mem_owned_succ.mpr (.inr ⟨j,hbelow⟩)⟩

section

variable (hlen : p.length + q.length = 4) (hs : k.reader.Sane m.table q.length p t)
  (hf : k.reader.find m.table p t q = some e)
include hlen hs hf

theorem leaf_mem : e.frame ∈ k.reader.owned m.table q.length p t ∨ k.total ≤ e.frame := by
  cases q with
  | nil => cases hf
  | cons i q =>
    by_cases hlt : e.frame < k.total
    · exact .inl (mem_owned_succ.mpr (.inr ⟨i,leaf_mem_branch hlen hs hf hlt⟩))
    · exact .inr (Nat.le_of_not_lt hlt)

theorem leaf_inj {q' : List (Fin 512)} (hlen' : q'.length = q.length)
    (hn : (k.reader.owned m.table q.length p t).Nodup)
    (hf' : k.reader.find m.table p t q' = some e') (hlt : e.frame < k.total)
    (heq : e'.frame = e.frame) : q' = q := by
  induction q generalizing p t q' with
  | nil => cases hf
  | cons i q ih =>
    obtain ⟨i',q',rfl⟩ : ∃ i' q'', q' = i' :: q'' := by
      cases q' with
      | nil => cases hf'
      | cons i' q' => exact ⟨i',q',rfl⟩
    have hlen2 : q'.length = q.length := by simpa using hlen'
    have hi : i' = i := by
      by_contra hne
      have hlen3 : p.length + (i' :: q').length = 4 := by
        rw [length_cons,hlen2]
        exact hlen
      have hs' : k.reader.Sane m.table (q'.length+1) p t := by
        rw [hlen2]
        exact hs
      have hmem := leaf_mem_branch hlen3 hs' hf' (by rw [heq]; exact hlt)
      rw [heq,hlen2] at hmem
      exact branch_disjoint hn hne hmem (leaf_mem_branch hlen hs hf hlt)
    subst hi
    match q, q', hlen2 with
    | [], [], _ => rfl
    | j :: q, j' :: q', hlen2 =>
      obtain ⟨c,hc,hf⟩ := exists_next hf
      rw [find_of_some hc] at hf'
      have hb := branch_nodup hn i'
      rw [branch_some hc] at hb
      have hlen3 : (i' :: p).length + (j :: q).length = 4 := by
        simp only [length_cons] at hlen ⊢
        omega
      rw [ih hlen3 ((hs i').2 c hc) hf hlen2 hb hf']

end

theorem Within.seen {o : Option Entry} (hw : Within S m m') (ho : ∀ e, o = some e → e.frame ∉ S) :
    m'.seen o = m.seen o := by
  cases o with
  | none => rfl
  | some e => simp only [Mem.seen,map_some,hw.byte _ (ho e rfl)]

theorem view_congr (hlen : p.length + q.length = 4) (hs : k.reader.Sane m.table q.length p t)
    (hw : Within S m m') (hS : ∀ f ∈ S, f < k.total)
    (hout : ∀ f ∈ k.reader.owned m.table q.length p t, f ∉ S) :
    view k m' p t q = view k m p t q := by
  have hfind : k.reader.find m'.table p t q = k.reader.find m.table p t q :=
    find_congr (le_refl _) fun f hf => hw.table f (hout f hf)
  rw [view,view,hfind]
  refine hw.seen fun e he => ?_
  rcases leaf_mem hlen hs he with h | h
  · exact hout _ h
  · exact fun h0 => absurd (hS _ h0) (not_lt.mpr h)

/-- What copying a tree of tables needs: the kernel in place, and a well-formed source none of
whose frames is free. -/
structure Source (k : Machine) (m : Mem) (d : Nat) (p : List (Fin 512)) (s : Nat) : Prop where
  intact : KernelIntact k m
  kernel : ∀ f, Reads k.tables 3 k.pml4 f → f ∉ m.pmm.free
  zero : 0 ∉ m.pmm.free
  sane : k.reader.Sane m.table d p s
  used : ∀ f ∈ k.reader.owned m.table d p s, f ∉ m.pmm.free

theorem KernelIntact.within (hi : KernelIntact k m) (hw : Within S m m')
    (hS : ∀ f, Reads k.tables 3 k.pml4 f → f ∉ S) : KernelIntact k m' :=
  ⟨hw.kernelPml4.trans hi.pml4,hw.totalPages.trans hi.total,fun f hf => by
    rw [hw.table f (hS f hf),hi.tables f hf]⟩

theorem Source.free_lt (h : Source k m d p s) {f : Nat} (hf : f ∈ m.pmm.free) : f < k.total := by
  rw [← h.intact.total]
  exact (Pmm.mem_free.mp hf).1

/-- Writing free frames, and one more, leaves a source a source. -/
theorem Source.within (h : Source k m d p s) (hw : Within S m m')
    (hk : ∀ f, Reads k.tables 3 k.pml4 f → f ∉ S) (hout : ∀ f ∈ k.reader.owned m.table d p s, f ∉ S)
    (hsub : m'.pmm.free ⊆ m.pmm.free) : Source k m' d p s where
  intact := h.intact.within hw hk
  kernel f hf h0 := h.kernel f hf (hsub h0)
  zero h0 := h.zero (hsub h0)
  sane := h.sane.congr fun f hf => hw.table f (hout f hf)
  used f hf h0 := by
    have hown : k.reader.owned m'.table d p s = k.reader.owned m.table d p s :=
      owned_congr fun f hf => hw.table f (hout f hf)
    rw [hown] at hf
    exact h.used f hf (hsub h0)

/-- The page at the end of a path that starts with an entry. -/
def viewBelow (k : Machine) (m : Mem) (p : List (Fin 512)) (i : Fin 512) (e : Entry)
    (q : List (Fin 512)) : Option (Flags × (Nat → UInt8)) :=
  m.seen (k.reader.findBelow m.table p i e q)

theorem view_cons (q : List (Fin 512)) :
    view k m p t (i :: q) = viewBelow k m p i (m.table t i) q := by
  rw [view,viewBelow,find_cons]

/-- The entry `e'` of `m'` is one that may stand there and shows what `e` shows in `m`. -/
structure SameBelow (k : Machine) (m m' : Mem) (d : Nat) (p : List (Fin 512)) (i : Fin 512)
    (e e' : Entry) : Prop where
  ok : CellOk k (i :: p) e'
  sane : ∀ c, k.next (i :: p) e' = some c → k.reader.Sane m'.table d (i :: p) c
  view : ∀ q, q.length = d → viewBelow k m' p i e' q = viewBelow k m p i e q
  managed : ∀ q, q.length = d → ∀ e0, k.reader.findBelow m'.table p i e' q = some e0 →
    e0.frame < k.total

/-- The page below an entry depends on the tables below it only. -/
theorem findBelow_congr (hq : q.length = d)
    (hh : ∀ f ∈ k.reader.branch m.table d p i e, m'.table f = m.table f) :
    k.reader.findBelow m'.table p i e q = k.reader.findBelow m.table p i e q := by
  cases q with
  | nil => rfl
  | cons j q =>
    rw [findBelow,findBelow]
    cases hc : k.reader.next (i :: p) e with
    | none => rfl
    | some c =>
      exact find_congr (le_of_eq hq) fun f hf => hh f (mem_branch.mpr ⟨c,hc,hf⟩)

theorem viewBelow_congr (hlen : p.length + (q.length+1) = 4) (hok : CellOk k (i :: p) e)
    (hs : ∀ c, k.next (i :: p) e = some c → k.reader.Sane m.table q.length (i :: p) c)
    (hw : Within S m m') (hS : ∀ f ∈ S, f < k.total)
    (hout : ∀ f ∈ k.reader.branch m.table q.length p i e, f ∉ S) :
    viewBelow k m' p i e q = viewBelow k m p i e q := by
  cases q with
  | nil =>
    have hp3 : p.length = 3 := by simpa using hlen
    have hbranch : k.reader.branch m.table 0 p i e = k.page (presentEntry e) := branch_leaf hok hp3
    refine hw.seen fun e0 he => ?_
    have he : presentEntry e = some e0 := he
    rw [length_nil,hbranch,he] at hout
    by_cases hlt : e0.frame < k.total
    · apply hout
      simp [Machine.page,hlt]
    · exact fun h0 => hlt (hS _ h0)
  | cons j q =>
    cases hc : k.next (i :: p) e with
    | none => simp [viewBelow,findBelow,hc,Mem.seen]
    | some c =>
      have hview : view k m' (i :: p) c (j :: q) = view k m (i :: p) c (j :: q) := by
        refine view_congr ?_ (hs c hc) hw hS fun f hf => hout f ?_
        · simp only [length_cons] at hlen ⊢
          omega
        · exact mem_branch.mpr ⟨c,hc,hf⟩
      simpa [viewBelow,view,findBelow,hc] using hview

theorem SameBelow.later {m'' : Mem} (h : SameBelow k m m' d p i e e')
    (hlen : p.length + (d+1) = 4) (hw : Within S m' m'') (hS : ∀ f ∈ S, f < k.total)
    (hout : ∀ f ∈ k.reader.branch m'.table d p i e', f ∉ S) : SameBelow k m m'' d p i e e' where
  ok := h.ok
  sane c hc := (h.sane c hc).congr fun f hf => hw.table f (hout f (mem_branch.mpr ⟨c,hc,hf⟩))
  view q hq := by
    subst hq
    rw [viewBelow_congr hlen h.ok h.sane hw hS hout,h.view q rfl]
  managed q hq e0 he0 := by
    rw [findBelow_congr hq fun f hf => hw.table f (hout f hf)] at he0
    exact h.managed q hq e0 he0

section

variable (k : Machine) (m : Mem) (d : Nat) (p : List (Fin 512))

/-- What copying the tree below an entry can do: make a fresh one, or give everything back. -/
inductive CopiedCell (i : Fin 512)
    (e : Entry) : Mem × Option Entry → Prop
  | done {m' : Mem} {e' : Entry} : SameBelow k m m' d p i e e' →
      m.pmm.free.val = k.reader.branch m'.table d p i e' + m'.pmm.free.val →
      Within m.pmm.free m m' → CopiedCell i e (m',some e')
  | fail {m' : Mem} : m'.pmm.free = m.pmm.free → Within m.pmm.free m m' →
      CopiedCell i e (m',none)

/-- The state of a pass that fills table `phys` from table `src`. -/
structure Filling (src phys : Nat)
    (is : List (Fin 512)) : Prop where
  source : Source k m (d+1) p src
  kernel : ∀ f, Reads k.tables 3 k.pml4 f → f ≠ phys
  target : phys ∉ k.reader.owned m.table (d+1) p src
  lt : phys < k.total
  nodup : (k.reader.owned m.table (d+1) p phys + m.pmm.free.val).Nodup
  empty : ∀ i ∈ is, m.table phys i = {}

/-- What the rest of the pass does from such a state. -/
structure Filled (src phys : Nat)
    (is : List (Fin 512)) (r : Mem × Bool) : Prop where
  within : Within (insert phys m.pmm.free) m r.1
  free : r.1.pmm.free ⊆ m.pmm.free
  ledger : k.reader.owned r.1.table (d+1) p phys + r.1.pmm.free.val =
    k.reader.owned m.table (d+1) p phys + m.pmm.free.val
  rest : ∀ i, i ∉ is → r.1.table phys i = m.table phys i
  cells : ∀ i ∈ is, ptIsPresent (r.1.table phys i) → CellOk k (i :: p) (r.1.table phys i)
  copied : r.2 = true → ∀ i ∈ is, SameBelow k m r.1 d p i (m.table src i) (r.1.table phys i)

end

variable {src phys : Nat} {is : List (Fin 512)}

section Filled

variable (h : Filling k m d p src phys is)
include h

theorem Filling.fresh : phys ∉ m.pmm.free :=
  disjoint_left.mp (nodup_add.mp h.nodup).2.2 self_mem_owned

theorem Filling.insert_lt : ∀ f ∈ insert phys m.pmm.free, f < k.total := by
  intro f hf
  rcases mem_insert.mp hf with rfl | hf
  · exact h.lt
  · exact h.source.free_lt hf

theorem Filling.source_out :
    ∀ f ∈ k.reader.owned m.table (d+1) p src, f ∉ insert phys m.pmm.free := by
  intro _ hf hmem
  rcases mem_insert.mp hmem with rfl | hmem
  · exact h.target hf
  · exact h.source.used _ hf hmem

theorem Filling.kernel_out : ∀ f, Reads k.tables 3 k.pml4 f → f ∉ insert phys m.pmm.free := by
  intro _ hf hmem
  rcases mem_insert.mp hmem with rfl | hmem
  · exact h.kernel _ hf rfl
  · exact h.source.kernel _ hf hmem

theorem Filling.branch_out (j : Fin 512) {f : Nat}
    (hf : f ∈ k.reader.branch m.table d p j (m.table phys j)) : f ∉ insert phys m.pmm.free := by
  obtain ⟨hn,-,hdisj⟩ := nodup_add.mp h.nodup
  intro hmem
  rcases mem_insert.mp hmem with rfl | hmem
  · exact self_notMem_branch hn j hf
  · exact disjoint_left.mp hdisj (mem_of_le (branch_le_owned j) hf) hmem

end Filled

theorem setEntry_self (m : Mem) (t : Nat) (i : Fin 512) : m.setEntry t i (m.table t i) = m := by
  simp [Mem.setEntry]

theorem setEntry_within (m : Mem) (t : Nat) (i : Fin 512) (e : Entry) :
    Within {t} m (m.setEntry t i e) where
  table _ hf := setEntry_of_ne m i e fun h => hf (Finset.mem_singleton.mpr h)
  byte _ _ := rfl
  kernelPml4 := rfl
  totalPages := rfl
  counted := id

/-- One slot of the pass: what hangs below the new entry comes out of the free frames. -/
structure SlotDone (k : Machine) (m m' : Mem) (d : Nat) (p : List (Fin 512)) (src phys : Nat)
    (i : Fin 512) (e' : Entry) (is : List (Fin 512)) : Prop where
  within : Within (insert phys m.pmm.free) m m'
  free : m'.pmm.free ⊆ m.pmm.free
  ledger : k.reader.owned m'.table (d+1) p phys + m'.pmm.free.val =
    k.reader.owned m.table (d+1) p phys + m.pmm.free.val
  slot : m'.table phys i = e'
  other : ∀ j, j ≠ i → m'.table phys j = m.table phys j
  same : SameBelow k m m' d p i (m.table src i) e'
  filling : Filling k m' d p src phys is

section

variable (h : Filling k m d p src phys (i :: is)) (hi : i ∉ is) (hlen : p.length + (d+1) = 4)
include h hi hlen

theorem Filling.slot {m1 : Mem} (hsame : SameBelow k m m1 d p i (m.table src i) e')
    (hfree : m.pmm.free.val = k.reader.branch m1.table d p i e' + m1.pmm.free.val)
    (hw : Within m.pmm.free m m1) : SlotDone k m (m1.setEntry phys i e') d p src phys i e' is := by
  have hphys := h.fresh
  have hsub : m1.pmm.free ⊆ m.pmm.free := by
    intro f hf
    rw [← mem_val,hfree]
    exact mem_add.mpr (.inr hf)
  have hwithin : Within (insert phys m.pmm.free) m (m1.setEntry phys i e') :=
    (hw.mono (subset_insert phys _)).trans
      ((setEntry_within m1 phys i e').mono (by simp))
  have hother : ∀ j, j ≠ i → (m1.setEntry phys i e').table phys j = m.table phys j := by
    intro j hj
    rw [setEntry_other m1 phys e' hj,hw.table phys hphys]
  have hnewout {f : Nat} (hf : f ∈ k.reader.branch m1.table d p i e') :
      f ∉ ({phys} : Finset Nat) := by
    rw [Finset.mem_singleton]
    rintro rfl
    exact hphys (mem_val_left hfree hf)
  have hledger : k.reader.owned (m1.setEntry phys i e').table (d+1) p phys + m1.pmm.free.val =
      k.reader.owned m.table (d+1) p phys + m.pmm.free.val := by
    have hrest : ∀ j, j ≠ i →
        k.reader.branch (m1.setEntry phys i e').table d p j
          ((m1.setEntry phys i e').table phys j) =
        k.reader.branch m.table d p j (m.table phys j) := by
      intro j hj
      rw [hother j hj]
      exact branch_congr fun f hf => hwithin.table f (h.branch_out j hf)
    have hslot := owned_slot hrest
    have hold : k.next (i :: p) (m.table phys i) = none := by
      rw [h.empty i mem_cons_self]
      exact next_absent rfl
    have hnew : k.reader.branch (m1.setEntry phys i e').table d p i e' =
        k.reader.branch m1.table d p i e' :=
      branch_congr fun f hf => (setEntry_within m1 phys i e').table f (hnewout hf)
    rw [branch_none hold,add_zero,setEntry_slot,hnew] at hslot
    rw [hslot,hfree,add_assoc]
  refine ⟨hwithin,hsub,hledger,setEntry_slot m1 phys i e',hother,?_,?_⟩
  · refine hsame.later hlen (setEntry_within m1 phys i e') ?_ fun f hf => hnewout hf
    intro f hf
    rw [Finset.mem_singleton.mp hf]
    exact h.lt
  · have hsrc : k.reader.owned (m1.setEntry phys i e').table (d+1) p src =
        k.reader.owned m.table (d+1) p src :=
      owned_congr fun f hf => hwithin.table f (h.source_out f hf)
    refine ⟨h.source.within hwithin h.kernel_out h.source_out hsub,h.kernel,?_,h.lt,?_,?_⟩
    · rw [hsrc]
      exact h.target
    · have hn := h.nodup
      rw [← hledger] at hn
      exact hn
    · intro j hj
      rw [hother j fun h0 => hi (h0 ▸ hj)]
      exact h.empty j (mem_cons_of_mem i hj)

/-- A slot, then the rest of the pass. -/
theorem SlotDone.then {m' : Mem} {r : Mem × Bool} (hd : SlotDone k m m' d p src phys i e' is)
    (hr : Filled k m' d p src phys is r) : Filled k m d p src phys (i :: is) r := by
  have hslot : r.1.table phys i = e' := (hr.rest i hi).trans hd.slot
  have hsub : insert phys m'.pmm.free ⊆ insert phys m.pmm.free :=
    insert_subset_insert phys hd.free
  refine ⟨hd.within.trans (hr.within.mono hsub),hr.free.trans hd.free,hr.ledger.trans hd.ledger,
    ?_,?_,?_⟩
  · intro j hj
    rw [hr.rest j fun h0 => hj (mem_cons_of_mem i h0)]
    exact hd.other j fun h0 => hj (h0 ▸ mem_cons_self)
  · intro j hj hpres
    rcases mem_cons.mp hj with rfl | hj
    · rw [hslot]
      exact hd.same.ok
    · exact hr.cells j hj hpres
  · intro hok j hj
    rcases mem_cons.mp hj with rfl | hj
    · rw [hslot]
      refine hd.same.later hlen hr.within hd.filling.insert_lt fun f hf => ?_
      rw [← hd.slot] at hf
      exact hd.filling.branch_out j hf
    have hc := hr.copied hok j hj
    have hsrc : m'.table src = m.table src :=
      hd.within.table src (h.source_out src self_mem_owned)
    refine ⟨hc.ok,hc.sane,fun q hq => ?_,hc.managed⟩
    rw [hc.view q hq,hsrc]
    subst hq
    have hs := h.source.sane j
    refine viewBelow_congr hlen hs.1 hs.2 hd.within h.insert_lt fun f hf => ?_
    exact h.source_out f (mem_of_le (branch_le_owned j) hf)

end

theorem next_empty (k : Machine) (path : List (Fin 512)) : k.next path {} = none :=
  next_absent rfl

theorem owned_empty {h : Nat → Table} (hz : ∀ j, h t j = {}) :
    k.reader.owned h (d+1) p t = {t} := by
  apply owned_of_none
  intro j
  rw [hz j]
  exact next_empty k (j :: p)

theorem sameBelow_absent (hok : CellOk k (i :: p) e) (he : ptIsPresent e = false) :
    SameBelow k m m d p i e {} where
  ok := by
    refine ⟨(fun _ h => nomatch h),fun h => ?_,fun h => .inr ⟨rfl,?_⟩⟩
    · rw [hok.low h] at he
      cases he
    · rcases hok.kernel h with h0 | h0
      · rw [← h0]
        exact he
      · exact h0.2
  sane c hc := by
    cases hc
  view q _ := by
    cases q with
    | nil =>
      show m.seen (presentEntry {}) = m.seen (presentEntry e)
      rw [presentEntry,presentEntry,he]
      rfl
    | cons j q =>
      have h1 : k.next (i :: p) e = none := next_absent he
      simp [viewBelow,findBelow,next_empty,h1]
  managed q _ e0 he0 := by
    cases q with
    | nil => cases he0
    | cons j q =>
      cases he0

/-- The pass as a whole, given what copying one entry does. -/
theorem cloneSlots_filled {shared : Mem → Fin 512 → Entry → Bool}
    {copy : Mem → Fin 512 → Entry → Mem × Option Entry} (hlen : p.length + (d+1) = 4)
    (hshared : ∀ m' i e, KernelIntact k m' → shared m' i e = k.shared (i :: p) e)
    (hcopy : ∀ i m', Source k m' (d+1) p src → ptIsPresent (m'.table src i) →
      k.shared (i :: p) (m'.table src i) = false →
      CopiedCell k m' d p i (m'.table src i) (copy m' i (m'.table src i)))
    (hnd : is.Nodup) (h : Filling k m d p src phys is) :
    Filled k m d p src phys is (cloneSlots shared copy src phys is m) := by
  induction is generalizing m with
  | nil =>
    exact ⟨Within.refl _ m,Finset.Subset.refl _,rfl,fun _ _ => rfl,(fun _ h => nomatch h),
      (fun _ _ h => nomatch h)⟩
  | cons i is ih =>
    obtain ⟨hi,hnd⟩ := nodup_cons.mp hnd
    have hok : CellOk k (i :: p) (m.table src i) := (h.source.sane i).1
    have hzero {e : Entry} (he : k.next (i :: p) e = none) :
        m.pmm.free.val = k.reader.branch m.table d p i e + m.pmm.free.val := by
      rw [branch_none he,zero_add]
    rw [cloneSlots]
    cases hpres : ptIsPresent (m.table src i) with
    | false =>
      have hd := h.slot hi hlen (sameBelow_absent hok hpres) (hzero (next_empty k _))
        (Within.refl _ m)
      rw [← h.empty i mem_cons_self,setEntry_self] at hd
      exact hd.then h hi hlen (ih hnd hd.filling)
    | true =>
      rw [if_neg (by simp),hshared m i _ h.source.intact]
      cases hsh : k.shared (i :: p) (m.table src i) with
      | true =>
        have hnext : k.next (i :: p) (m.table src i) = none := next_of_shared (by rw [hsh]; rfl)
        have hsame : SameBelow k m m d p i (m.table src i) (m.table src i) := by
          refine ⟨hok,fun c hc => ?_,fun _ _ => rfl,fun q hq e0 he0 => ?_⟩
          · rw [hnext] at hc
            cases hc
          · cases q with
            | nil =>
              have hp3 : p.length = 3 := by
                rw [← hq,length_nil] at hlen
                omega
              rw [shared_deep (by rw [length_cons]; omega)] at hsh
              cases hsh
            | cons j q =>
              rw [findBelow_of_none hnext] at he0
              cases he0
        have hd := h.slot hi hlen hsame (hzero hnext) (Within.refl _ m)
        exact hd.then h hi hlen (ih hnd hd.filling)
      | false =>
        rw [if_neg (by simp)]
        have hc := hcopy i m h.source hpres hsh
        generalize copy m i (m.table src i) = c at hc
        cases hc with
        | done hsame hfree hw =>
          have hd := h.slot hi hlen hsame hfree hw
          exact hd.then h hi hlen (ih hnd hd.filling)
        | @fail m' hfree hw =>
          have hphys := hw.table phys h.fresh
          have hn := nodup_add.mp h.nodup
          have hown : k.reader.owned m'.table (d+1) p phys =
              k.reader.owned m.table (d+1) p phys :=
            owned_congr fun f hf => hw.table f fun h0 => disjoint_left.mp hn.2.2 hf h0
          refine ⟨hw.mono (Finset.subset_insert phys _),?_,?_,?_,?_,fun h0 => nomatch h0⟩
          · rw [hfree]
          · rw [hown,hfree]
          · intro j _
            exact congrFun hphys j
          · intro j hj hpj
            rw [hphys,h.empty j hj] at hpj
            cases hpj

/-- A copy of a tree of tables, built from free frames and nothing else. -/
structure CopyMade (k : Machine) (m m' : Mem) (d : Nat) (p : List (Fin 512)) (s c : Nat) :
    Prop where
  ledger : m.pmm.free.val = k.reader.owned m'.table d p c + m'.pmm.free.val
  sane : k.reader.Sane m'.table d p c
  view : ∀ q, q.length = d → view k m' p c q = view k m p s q
  managed : ∀ q, q.length = d → ∀ e, k.reader.find m'.table p c q = some e → e.frame < k.total
  within : Within m.pmm.free m m'

/-- What copying a tree of tables can do: make a fresh one that shows the same pages, or give
everything back. -/
inductive Cloned (k : Machine) (m : Mem) (d : Nat) (p : List (Fin 512)) (s : Nat) :
    Mem × Nat → Prop
  | done {m' : Mem} {c : Nat} : c ≠ 0 → CopyMade k m m' d p s c → Cloned k m d p s (m',c)
  | fail {m' : Mem} : m'.pmm.free = m.pmm.free → Within m.pmm.free m m' →
      Cloned k m d p s (m',0)

section

variable {m1 : Mem} (hspent : Spent m m1 1) (htable : m1.table = update m.table phys emptyTable)
  (hbyte : m1.byte = m.byte)
include hspent htable hbyte

theorem Spent.within (hmem : phys ∈ m.pmm.free) : Within m.pmm.free m m1 := by
  refine ⟨fun f hf => ?_,fun f _ => by rw [hbyte],hspent.kernelPml4,hspent.totalPages,
    hspent.counted⟩
  have hne : f ≠ phys := fun h0 => hf (h0 ▸ hmem)
  rw [htable,update_of_ne hne]

theorem Source.filling (h : Source k m (d+1) p s)
    (hval : m.pmm.free.val = {phys} + m1.pmm.free.val) (is : List (Fin 512)) :
    Within m.pmm.free m m1 ∧ Filling k m1 d p s phys is := by
  have hmem := mem_val_left hval (Multiset.mem_singleton_self phys)
  have hempty : m1.table phys = emptyTable := by rw [htable,update_self]
  have hw := hspent.within htable hbyte hmem
  have hself : k.reader.owned m1.table (d+1) p phys = {phys} :=
    owned_empty fun j => by rw [hempty]; rfl
  have hsrc : k.reader.owned m1.table (d+1) p s = k.reader.owned m.table (d+1) p s :=
    owned_congr fun f hf => hw.table f (h.used f hf)
  refine ⟨hw,h.within hw h.kernel h.used hspent.free,?_,?_,h.free_lt hmem,?_,?_⟩
  · rintro f hf rfl
    exact h.kernel _ hf hmem
  · rw [hsrc]
    exact fun h0 => h.used phys h0 hmem
  · rw [hself,← hval]
    exact m.pmm.free.nodup
  · intro i _
    rw [hempty]
    rfl

end

theorem cloneTable_cloned {fill : Nat → Mem → Mem × Bool} {undo : Mem → Nat → Mem}
    (h : Source k m (d+1) p s) (hlen : p.length + (d+1) = 4) (hall : ∀ i, i ∈ is)
    (hfill : ∀ phys m1, Filling k m1 d p s phys is →
      Filled k m1 d p s phys is (fill phys m1))
    (hundo : ∀ phys m2, KernelIntact k m2 →
      (∀ i, ptIsPresent (m2.table phys i) → CellOk k (i :: p) (m2.table phys i)) → phys ≠ 0 →
      (∀ f ∈ k.reader.owned m2.table (d+1) p phys, f < k.total) →
      (k.reader.owned m2.table (d+1) p phys + m2.pmm.free.val).Nodup →
      Frees m2 (undo m2 phys) (k.reader.owned m2.table (d+1) p phys)) :
    Cloned k m (d+1) p s (cloneTable fill undo m) := by
  rw [cloneTable]
  rcases allocPtPage_took h.zero with ⟨hfree,heq⟩ | ⟨m1,phys,heq,hp0,htable,hbyte,hval,hspent⟩
  · rw [heq,if_pos rfl]
    exact .fail rfl (Within.refl _ m)
  rw [heq,if_neg hp0]
  obtain ⟨hw,hfg⟩ := h.filling hspent htable hbyte hval is
  have hr := hfill phys m1 hfg
  have hself : k.reader.owned m1.table (d+1) p phys = {phys} :=
    owned_empty fun j => hfg.empty j (hall j)
  have hledger := hr.ledger
  rw [hself,← hval] at hledger
  have hmem := mem_val_left hval (Multiset.mem_singleton_self phys)
  have hwr : Within m.pmm.free m (fill phys m1).1 :=
    hw.trans (hr.within.mono (insert_subset hmem hspent.free))
  dsimp only
  generalize fill phys m1 = r at hr hledger hwr
  obtain ⟨m2,ok⟩ := r
  cases ok with
  | true =>
    refine .done hp0 ⟨hledger.symm,?_,?_,?_,hwr⟩
    · intro i
      exact ⟨(hr.copied rfl i (hall i)).ok,(hr.copied rfl i (hall i)).sane⟩
    · intro q hq
      have hview : view k m1 p s q = view k m p s q :=
        view_congr (by rw [hq,hlen]) (hq ▸ h.sane) hw (fun f hf => h.free_lt hf)
          (hq ▸ h.used)
      rw [← hview]
      match q, hq with
      | i :: q, hq =>
        rw [view_cons,view_cons]
        exact (hr.copied rfl i (hall i)).view q (by simpa using hq)
    · intro q hq e he
      match q, hq with
      | i :: q, hq =>
        rw [find_cons] at he
        exact (hr.copied rfl i (hall i)).managed q (by simpa using hq) e he
  | false =>
    have hu := hundo phys m2 (h.intact.within hwr h.kernel)
      (fun i hi => hr.cells i (hall i) hi) hp0 (fun f hf => h.free_lt (mem_val_left hledger.symm hf))
      (by rw [hledger]; exact m.pmm.free.nodup)
    refine .fail ?_ (hwr.trans (hu.within _))
    apply val_inj.mp
    rw [hu.free]
    exact hledger

/-- The kernel's entries lead to kernel tables. -/
theorem reads_entry {path : List (Fin 512)} (h : ptIsPresent (k.entry path)) :
    Reads k.tables 3 k.pml4 (k.entry path).frame := by
  match path with
  | [] => cases h
  | [i] => exact .inr ⟨i,h,(absurd · (by decide)),.inl rfl⟩
  | [j,i] =>
    rw [Machine.entry] at h ⊢
    by_cases hi : ptIsPresent (k.tables k.pml4 i)
    · rw [if_pos hi] at h ⊢
      exact .inr ⟨i,hi,(absurd · (by decide)),.inr ⟨j,h,(absurd · (by decide)),.inl rfl⟩⟩
    · rw [if_neg hi] at h
      cases h
  | _ :: _ :: _ :: _ => cases h

/-- An entry for a fresh table in the place of a private entry. -/
theorem Source.cell {path : List (Fin 512)} {c : Nat} (h : Source k m d p s) (hok : CellOk k path e)
    (he : ptIsPresent e) (hp : UserPath path) (hc : c ∈ m.pmm.free) :
    CellOk k path ⟨c,e.flags⟩ := by
  obtain ⟨hhuge,-,hflags⟩ := hok.user hp he
  refine ⟨fun _ _ => ⟨hhuge,?_,hflags⟩,fun _ => he,fun h0 => absurd hp h0⟩
  cases hpres : ptIsPresent (k.entry path) with
  | false => simp [Machine.shared,hpres]
  | true =>
    have hne : (k.entry path).frame ≠ c := fun h0 => h.kernel _ (reads_entry hpres) (h0 ▸ hc)
    simp [Machine.shared,hpres,hne]

theorem copyPage_copied (h : Source k m 1 p src) (hlen : p.length = 3) (hok : CellOk k (i :: p) e)
    (he : ptIsPresent e) : CopiedCell k m 0 p i e (copyPage m e) := by
  have ht := alloc_took m
  rw [copyPage]
  generalize m.alloc = r at ht
  cases ht with
  | fail _ => exact .fail rfl (Within.refl _ m)
  | @page m' f hf htable hbyte hval hspent =>
    have hf0 : f ≠ 0 := fun h0 => h.zero (h0 ▸ hf)
    have hcell := h.cell hok he (userPath_last hlen) hf
    have hpres : presentEntry ⟨f,e.flags⟩ = some ⟨f,e.flags⟩ := if_pos he
    rw [if_neg hf0]
    refine .done ⟨hcell,fun _ _ => trivial,fun q hq => ?_,fun q hq e0 he0 => ?_⟩ ?_ ?_
    · rw [length_eq_zero_iff.mp hq]
      show Mem.seen _ (presentEntry ⟨f,e.flags⟩) = m.seen (presentEntry e)
      rw [hpres,presentEntry,if_pos he]
      simp [Mem.seen,Mem.setPage,hbyte]
    · rw [length_eq_zero_iff.mp hq,findBelow] at he0
      cases hpres.symm.trans he0
      exact h.free_lt hf
    · rw [branch_leaf hcell hlen,hpres]
      rw [Machine.page,elim_some,if_pos (h.free_lt hf)]
      exact hval
    · refine ⟨fun g _ => ?_,fun g hg => ?_,hspent.kernelPml4,hspent.totalPages,hspent.counted⟩
      · show m'.table g = m.table g
        rw [htable]
      · have hgf : g ≠ f := fun h0 => hg (h0 ▸ hf)
        simp [Mem.setPage,hgf,hbyte]

theorem copiedTable_copied {r : Mem × Nat} (h : Source k m (d+2) p src)
    (hlen : p.length + (d+2) = 4) (hok : CellOk k (i :: p) e) (he : ptIsPresent e)
    (hsh : k.shared (i :: p) e = false) (hr : Cloned k m (d+1) (i :: p) e.frame r) :
    CopiedCell k m (d+1) p i e (copiedTable e r) := by
  have hp := userPath_of_private hok he hsh
  have hne : (i :: p).length ≠ 4 := by
    rw [length_cons]
    omega
  have hold : k.next (i :: p) e = some e.frame := by
    rw [next_user hok hp he,if_pos (.inl hne)]
  cases hr with
  | @done m' c hc0 hmade =>
    obtain ⟨hval,hsane,hview,hmanaged,hw⟩ := hmade
    have hcell := h.cell hok he hp (mem_val_left hval self_mem_owned)
    have hnext : k.next (i :: p) ⟨c,e.flags⟩ = some c := by
      rw [next_user hcell hp he,if_pos (.inl hne)]
    rw [copiedTable,if_neg hc0]
    refine .done ⟨hcell,fun b hb => ?_,fun q hq => ?_,fun q hq e0 he0 => ?_⟩ ?_ hw
    · rw [hnext] at hb
      cases hb
      exact hsane
    · cases q with
      | nil => cases hq
      | cons j q =>
        have h0 := hview (j :: q) hq
        simpa [viewBelow,findBelow,hnext,hold,view] using h0
    · cases q with
      | nil => cases hq
      | cons j q =>
        change (k.next (i :: p) ⟨c,e.flags⟩).bind _ = some e0 at he0
        rw [hnext,bind_some] at he0
        exact hmanaged (j :: q) hq e0 he0
    · rw [branch_some hnext]
      exact hval
  | fail hfree hw => exact .fail hfree hw

theorem Source.child {c : Nat} (h : Source k m (d+1) p s)
    (hc : k.next (i :: p) (m.table s i) = some c) : Source k m d (i :: p) c :=
  ⟨h.intact,h.kernel,h.zero,(h.sane i).2 c hc,fun f hf => h.used f (mem_owned_child hc hf)⟩

theorem cloneUserTable_cloned {level kphys : Nat} (h : Source k m (level+1) p s)
    (hlen : p.length + (level+1) = 4) (hp : p ≠ [])
    (hk : ∀ m', KernelIntact k m' → ∀ i e, sharedWith m' kphys i e = k.shared (i :: p) e) :
    Cloned k m (level+1) p s (cloneUserTable level m s kphys) := by
  have hlen' : p.length + level = 3 := by omega
  induction level generalizing m p s kphys with
  | zero =>
    refine cloneTable_cloned h hlen mem_finRange (fun phys m1 hf => ?_)
      fun phys m2 hi _ _ hlt hn => freeUserTable_frees hlen' hp (hk m2 hi) hi.total hlt hn
    refine cloneSlots_filled hlen (fun m' i e hi => hk m' hi i e) ?_ (nodup_finRange 512) hf
    intro i m' hs he _
    exact copyPage_copied hs hlen' (hs.sane i).1 he
  | succ level ih =>
    refine cloneTable_cloned h hlen mem_finRange (fun phys m1 hf => ?_)
      fun phys m2 hi _ _ hlt hn => freeUserTable_frees hlen' hp (hk m2 hi) hi.total hlt hn
    refine cloneSlots_filled hlen (fun m' i e hi => hk m' hi i e) ?_ (nodup_finRange 512) hf
    intro i m' hs he hsh
    have hok : CellOk k (i :: p) (m'.table s i) := (hs.sane i).1
    have hup := userPath_of_private hok he hsh
    have hnext : k.next (i :: p) (m'.table s i) = some (m'.table s i).frame := by
      rw [next_user hok hup he,if_pos (.inl (by rw [length_cons]; omega))]
    rw [if_neg (by simp [(hok.user hup he).1])]
    apply copiedTable_copied hs hlen hok he hsh
    refine ih (hs.child hnext) (by rw [length_cons]; omega) (cons_ne_nil i p) ?_
      (by rw [length_cons]; omega)
    intro m2 _ j e
    have hpos := length_pos_iff.mpr hp
    rw [sharedWith_zero,shared_deep (by simp only [length_cons]; omega)]

theorem vmmClonePagetable_cloned (h : Source k m 4 [] s) :
    Cloned k m 4 [] s (vmmClonePagetable m s) := by
  refine cloneTable_cloned h rfl mem_finRange (fun phys m1 hf => ?_)
    fun phys m2 hi hcells h0 hlt hn => vmmDestroyPagetable_frees hi hcells hlt h0 hn
  refine cloneSlots_filled rfl (fun m' i e hi => hi.sameSlot_eq i e) ?_ (nodup_finRange 512) hf
  intro i m' hs he hsh
  have hok : CellOk k [i] (m'.table s i) := (hs.sane i).1
  have hup := userPath_of_private hok he hsh
  have hnext : k.next [i] (m'.table s i) = some (m'.table s i).frame := by
    rw [next_user hok hup he]
    rfl
  apply copiedTable_copied hs rfl hok he hsh
  refine cloneUserTable_cloned (hs.child hnext) rfl (cons_ne_nil i []) ?_
  intro m2 hi2 j e
  rw [← hs.intact.kernelBelow_eq hi2 i]
  exact hi2.sharedWith_eq hup j e

end Lariat.Mm
