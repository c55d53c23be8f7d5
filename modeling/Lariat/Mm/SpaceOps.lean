import Lariat.Mm.Spaces
import Lariat.Mm.Calls

/-! What the steps of the memory calls do to the address spaces of the machine, and how address
spaces are made, copied, given up and destroyed. -/
namespace Lariat.Mm
open Foundation.TableTree Reader Function Finset

variable {k : Machine} {m m' m'' : Mem} {roots : Finset Nat} {lost x x' : Multiset Nat} {r v : Nat}

section Used

variable (h : Sound k m roots lost)
include h

theorem Sound.kernel_used : ∀ f, Reads k.tables 3 k.pml4 f → f ∉ m.pmm.free :=
  fun f hf h0 => k.apart f hf (h.forest.mem_pool_of_free h0)

theorem Sound.zero_used : 0 ∉ m.pmm.free :=
  fun h0 => k.zero_notMem (h.forest.mem_pool_of_free h0)

theorem Sound.kernelApart : KernelApart k m :=
  ⟨h.zero_used,fun _ hf _ hpres h0 => h.kernel_used _ (reads_entry hpres) (h0 ▸ hf)⟩

theorem Sound.nodup (hr : r ∈ roots) :
    (k.reader.owned m.table 4 [] r + m.pmm.free.val).Nodup := h.forest.nodup hr

theorem Sound.lt_total (hr : r ∈ roots) : ∀ f ∈ k.reader.owned m.table 4 [] r, f < k.total :=
  fun f hf => k.pool_lt f (h.forest.mem_pool_of_owned hr hf)

theorem Sound.root_ne_zero (hr : r ∈ roots) : r ≠ 0 := by
  rintro rfl
  exact k.zero_notMem (h.forest.mem_pool_of_owned hr self_mem_owned)

theorem Sound.source (hr : r ∈ roots) : Source k m 4 [] r where
  intact := h.intact
  kernel := h.kernel_used
  zero := h.zero_used
  sane := h.forest.sane r hr
  used _ hf h0 := Multiset.disjoint_left.mp (Multiset.nodup_add.mp (h.nodup hr)).2.2 hf h0

end Used

/-- Between two states only the address space `r` changed, and there only user pages of `A`. -/
structure Touched (k : Machine) (m m' : Mem) (roots : Finset Nat) (r : Nat) (A : Nat → Prop) :
    Prop where
  others : ∀ u ∈ roots, u ≠ r → ∀ f ∈ k.reader.owned m.table 4 [] u,
    m'.table f = m.table f ∧ m'.byte f = m.byte f
  same : ∀ v, UserAddr v → ¬A v →
    k.reader.find m'.table [] r (indices v) = k.reader.find m.table [] r (indices v)

theorem Touched.refl (m : Mem) (roots : Finset Nat) (r : Nat) (A : Nat → Prop) :
    Touched k m m roots r A :=
  ⟨fun _ _ _ _ _ => ⟨rfl,rfl⟩,fun _ _ _ => rfl⟩

variable {A : Nat → Prop} {w : Nat}

section Reach

variable (h : Touched k m m' roots r A)
include h

theorem Touched.owned_other {u : Nat} (hu : u ∈ roots) (hur : u ≠ r) :
    k.reader.owned m'.table 4 [] u = k.reader.owned m.table 4 [] u :=
  owned_congr fun f hf => (h.others u hu hur f hf).1

theorem Touched.find_other {u : Nat} (hu : u ∈ roots) (hur : u ≠ r) (w : Nat) :
    k.reader.find m'.table [] u (indices w) = k.reader.find m.table [] u (indices w) := by
  have hlen : (indices w).length ≤ 4 := Nat.le_refl 4
  exact find_congr hlen fun f hf => (h.others u hu hur f hf).1

theorem Touched.trans (h' : Touched k m' m'' roots r A) : Touched k m m'' roots r A where
  others u hu hur f hf := by
    have h1 := h.others u hu hur f hf
    have h2 := h'.others u hu hur f (by rw [h.owned_other hu hur]; exact hf)
    exact ⟨h2.1.trans h1.1,h2.2.trans h1.2⟩
  same v hv ha := (h'.same v hv ha).trans (h.same v hv ha)

theorem Touched.mono {B : Nat → Prop} (hab : ∀ v, A v → B v) : Touched k m m' roots r B :=
  ⟨h.others,fun v hv hb => h.same v hv fun ha => hb (hab v ha)⟩

end Reach

/-- The addresses on the page of `w`. -/
def OnPage (w v : Nat) : Prop := v / 4096 = w / 4096

/-- Different pages of one address space lie in different frames. -/
theorem Sound.same_page {w : Nat} {e e' : Entry} (h : Sound k m roots lost) (hr : r ∈ roots)
    (hv : UserAddr v) (hw : UserAddr w) (he : k.reader.find m.table [] r (indices v) = some e)
    (he' : k.reader.find m.table [] r (indices w) = some e') (hlt : e.frame < k.total)
    (heq : e'.frame = e.frame) : OnPage w v := by
  have hlen (a : Nat) : (indices a).length = 4 := rfl
  have hidx := leaf_inj rfl (h.forest.sane r hr) he ((hlen _).trans (hlen _).symm)
    (Multiset.nodup_add.mp (h.nodup hr)).1 he' hlt heq
  exact (indices_eq_iff hv hw).mp hidx.symm

theorem Sound.change {q : List (Fin 512)} {o : Option Entry} (h : Sound k m roots (x+lost))
    (hr : r ∈ roots) (hl : k.reader.Local m.store m'.store 4 [] r q o x x')
    (hkernel : m'.kernelPml4 = m.kernelPml4) (htotal : m'.pmm.totalPages = m.pmm.totalPages)
    (hcounted : m'.pmm.Counted) : Sound k m' roots (x'+lost) where
  intact := by
    refine ⟨hkernel.trans h.intact.pml4,htotal.trans h.intact.total,fun f hf => ?_⟩
    rw [← h.intact.tables f hf]
    refine hl.keeps f (fun h0 => ?_) (h.kernel_used f hf)
    exact k.apart f hf (h.forest.mem_pool_of_owned hr h0)
  counted := hcounted
  forest := h.forest.change hr hl

theorem Sound.kept {q : List (Fin 512)} {o : Option Entry} {n : Nat} (h : Sound k m roots lost)
    (hr : r ∈ roots) (hl : k.reader.Local m.store m'.store 4 [] r q o 0 0) (hsp : Spent m m' n) :
    Sound k m' roots lost := by
  rw [← zero_add lost] at h ⊢
  exact h.change hr hl hsp.kernelPml4 hsp.totalPages (hsp.counted h.counted)

/-- A change of one tree at the path of an address touches that page only. -/
theorem Sound.touched {o : Option Entry} (h : Sound k m roots lost) (hr : r ∈ roots)
    (hw : UserAddr w) (hl : k.reader.Local m.store m'.store 4 [] r (indices w) o x x')
    (hbyte : m'.byte = m.byte) : Touched k m m' roots r (OnPage w) where
  others u hu hur f hf := by
    obtain ⟨h1,h2⟩ := h.forest.apart hr hu hur hf
    exact ⟨hl.keeps f h1 h2,by rw [hbyte]⟩
  same v hv hpage := by
    have hfind := hl.finds (indices v) rfl
    rwa [if_neg fun h0 => hpage ((indices_eq_iff hv hw).mp h0)] at hfind

/-- A change that sets the page to what it already was touches nothing. -/
theorem Sound.untouched (h : Sound k m roots lost) (hr : r ∈ roots)
    (hl : k.reader.Local m.store m'.store 4 [] r (indices w)
      (k.reader.find m.table [] r (indices w)) x x') (hbyte : m'.byte = m.byte) (A : Nat → Prop) :
    Touched k m m' roots r A where
  others u hu hur f hf := by
    obtain ⟨h1,h2⟩ := h.forest.apart hr hu hur hf
    exact ⟨hl.keeps f h1 h2,by rw [hbyte]⟩
  same v hv _ := by
    have hfind := hl.finds (indices v) rfl
    by_cases hvw : indices v = indices w
    · rw [if_pos hvw] at hfind
      rw [hvw] at hfind ⊢
      exact hfind
    · rwa [if_neg hvw] at hfind

/-- What mapping a frame at a user address does. -/
inductive PageSet (k : Machine) (m : Mem) (roots : Finset Nat) (lost : Multiset Nat) (r w : Nat)
    (e : Entry) : Mem × Bool → Prop
  | done {m' : Mem} :
      Sound k m' roots (k.page (k.reader.find m.table [] r (indices w)) + lost) →
      Touched k m m' roots r (OnPage w) →
      k.reader.find m'.table [] r (indices w) = some e → m'.byte = m.byte → Spent m m' 3 →
      PageSet k m roots lost r w e (m',true)
  | full {m' : Mem} : Sound k m' roots (k.page (some e) + lost) →
      (∀ A, Touched k m m' roots r A) → m'.byte = m.byte → Spent m m' 3 → m.pmm.free.card < 3 →
      PageSet k m roots lost r w e (m',false)

theorem Sound.mapped (phys : Nat) {flags : Flags} (hh : flags.huge = false) (h : Sound k m roots lost)
    (hr : r ∈ roots) (hw : UserAddr w) : Mapped k m [] r (indices w)
      ⟨phys,{ flags with present := true }⟩ 3 (mapPath phys flags (indices w) m r) :=
  mapPath_mapped hh (List.cons_ne_nil _ _) rfl (userRoute_indices hw) (h.forest.sane r hr)
    (h.nodup hr) h.kernelApart

theorem Sound.mapPageIn {phys : Nat} {flags : Flags} (hh : flags.huge = false)
    (h : Sound k m roots (k.page (some ⟨phys,{ flags with present := true }⟩) + lost))
    (hr : r ∈ roots) (hw : UserAddr w) :
    PageSet k m roots lost r w ⟨phys,{ flags with present := true }⟩
      (vmmMapPageIn m r w phys flags) := by
  have hm := h.mapped phys hh hr hw
  rw [vmmMapPageIn_eq]
  generalize mapPath phys flags (indices w) m r = o at hm
  cases hm with
  | done hl hbyte hspent =>
    refine .done ?_ (h.touched hr hw hl hbyte) ?_ hbyte hspent
    · exact h.change hr hl hspent.kernelPml4 hspent.totalPages (hspent.counted h.counted)
    · have hfind := hl.finds (indices w) rfl
      rwa [if_pos rfl] at hfind
  | @full m' hl hbyte hspent hcard =>
    exact .full (h.kept hr hl hspent) (fun A => h.untouched hr hl hbyte A) hbyte hspent hcard

theorem Sound.remapPageIn {e : Entry} {flags : Flags} (hh : flags.huge = false)
    (h : Sound k m roots lost) (hr : r ∈ roots) (hw : UserAddr w)
    (hfind : k.reader.find m.table [] r (indices w) = some e) :
    Sound k (vmmMapPageIn m r w e.frame flags).1 roots lost ∧
      Touched k m (vmmMapPageIn m r w e.frame flags).1 roots r (OnPage w) ∧
      (vmmMapPageIn m r w e.frame flags).1.byte = m.byte := by
  have hm := h.mapped e.frame hh hr hw
  rw [vmmMapPageIn_eq]
  generalize mapPath e.frame flags (indices w) m r = o at hm
  cases hm with
  | @done m' hl hbyte hspent =>
    rw [hfind] at hl
    have hl' : k.reader.Local m.store m'.store 4 [] r (indices w)
        (some ⟨e.frame,{ flags with present := true }⟩) 0 0 := by
      apply Local.cancel
      rw [zero_add]
      exact hl
    exact ⟨h.kept hr hl' hspent,h.touched hr hw hl' hbyte,hbyte⟩
  | @full m' hl hbyte hspent hcard =>
    exact ⟨h.kept hr hl hspent,h.untouched hr hl hbyte _,hbyte⟩

/-- What unmapping a user address does: its frame, if it had one, is nobody's from then on. -/
structure PageCleared (k : Machine) (m m' : Mem) (roots : Finset Nat) (lost : Multiset Nat)
    (r w : Nat) : Prop where
  sound : Sound k m' roots (k.page (k.reader.find m.table [] r (indices w)) + lost)
  touched : Touched k m m' roots r (OnPage w)
  find : k.reader.find m'.table [] r (indices w) = none
  pmm : m'.pmm = m.pmm
  byte : m'.byte = m.byte

theorem Sound.unmapPageIn (h : Sound k m roots lost) (hr : r ∈ roots) (hw : UserAddr w) :
    PageCleared k m (vmmUnmapPageIn m r w) roots lost r w := by
  have hl : k.reader.Local m.store (clearPath (indices w) m r).store 4 [] r (indices w) none 0
      (k.page (k.reader.find m.table [] r (indices w))) :=
    clearPath_local rfl (userRoute_indices hw) (h.forest.sane r hr) (h.nodup hr)
  obtain ⟨z,hz⟩ := clearPath_eq (indices w)
  rw [vmmUnmapPageIn_eq]
  rw [hz] at hl ⊢
  refine ⟨?_,h.touched hr hw hl rfl,?_,rfl,rfl⟩
  · have h0 : Sound k m roots (0+lost) := by
      rw [zero_add]
      exact h
    exact h0.change hr hl rfl rfl h.counted
  · have hfind := hl.finds (indices w) rfl
    rwa [if_pos rfl] at hfind

theorem Sound.setPage (h : Sound k m roots lost) (f : Nat) (b : Nat → UInt8) :
    Sound k (m.setPage f b) roots lost :=
  ⟨⟨h.intact.pml4,h.intact.total,h.intact.tables⟩,h.counted,h.forest⟩

theorem Sound.took {f : Nat} (h : Sound k m roots lost) (htable : m'.table = m.table)
    (hval : m.pmm.free.val = {f} + m'.pmm.free.val) (hspent : Spent m m' 1) :
    Sound k m' roots ({f} + lost) where
  intact := ⟨hspent.kernelPml4.trans h.intact.pml4,hspent.totalPages.trans h.intact.total,
    fun g hg => by rw [htable]; exact h.intact.tables g hg⟩
  counted := hspent.counted h.counted
  forest := h.forest.take hval fun g _ => congrFun htable g

theorem Sound.gave {f : Nat} (h : Sound k m roots ({f} + lost)) :
    Sound k (m.freePage f) roots lost ∧ Frees m (m.freePage f) {f} := by
  have hsum := h.forest.ledger
  have hmem : f ∈ k.pool := by
    rw [← mem_val,← hsum]
    simp
  have hn : ({f} + m.pmm.free.val).Nodup := by
    refine Multiset.nodup_of_le ?_ k.pool.nodup
    rw [← hsum]
    apply Multiset.le_iff_exists_add.mpr
    refine ⟨∑ r ∈ roots, k.reader.owned m.table 4 [] r + lost,?_⟩
    simp only [Mem.store]
    abel
  have hf := freePage_frees (by rw [h.intact.total]; exact k.pool_lt f hmem) hn
  exact ⟨⟨⟨h.intact.pml4,hf.totalPages.trans h.intact.total,h.intact.tables⟩,hf.counted h.counted,
    h.forest.give hf.free rfl⟩,hf⟩

/-- Only frames that were free have other contents. -/
def BytesKept (m m' : Mem) : Prop := ∀ f, f ∉ m.pmm.free → m'.byte f = m.byte f

theorem BytesKept.trans {n : Nat} (h : BytesKept m m') (hs : Spent m m' n)
    (h' : BytesKept m' m'') : BytesKept m m'' :=
  fun f hf => (h' f fun h0 => hf (hs.free h0)).trans (h f hf)

theorem Sound.found_used {e : Entry} (h : Sound k m roots lost) (hr : r ∈ roots)
    (hfind : k.reader.find m.table [] r (indices v) = some e) : e.frame ∉ m.pmm.free := by
  intro hfree
  rcases leaf_mem rfl (h.forest.sane r hr) hfind with hmem | hge
  · exact (h.source hr).used _ hmem hfree
  · have hlt := (Pmm.mem_free.mp hfree).1
    rw [h.intact.total] at hlt
    omega

/-- What mapping a fresh page at a user address does: it is there and the frame it replaces is
nobody's, or no mapping has changed. -/
inductive PageMapped (k : Machine) (m : Mem) (roots : Finset Nat) (lost : Multiset Nat)
    (r w : Nat) (bytes : Nat → UInt8) (wr : Bool) : Mem × Bool → Prop
  | done {m' : Mem} {f : Nat} :
      Sound k m' roots (k.page (k.reader.find m.table [] r (indices w)) + lost) →
      Touched k m m' roots r (OnPage w) →
      k.reader.find m'.table [] r (indices w) = some ⟨f,userFlags wr⟩ → f ∈ m.pmm.free →
      m'.byte f = bytes → BytesKept m m' → Spent m m' 4 →
      PageMapped k m roots lost r w bytes wr (m',true)
  | full {m' : Mem} : Sound k m' roots lost → (∀ A, Touched k m m' roots r A) → BytesKept m m' →
      Spent m m' 4 → m.pmm.free.card < 4 → PageMapped k m roots lost r w bytes wr (m',false)

theorem Sound.mapPage (h : Sound k m roots lost) (hr : r ∈ roots) (hw : UserAddr w)
    (bytes : Nat → UInt8) (wr : Bool) :
    PageMapped k m roots lost r w bytes wr (mapPage m r w bytes wr) := by
  have ht := alloc_took m
  rw [Lariat.Mm.mapPage]
  generalize m.alloc = a at ht
  cases ht with
  | fail hfree =>
    rw [if_pos rfl]
    refine .full h (fun A => Touched.refl m roots r A) (fun _ _ => rfl) (Spent.refl m 4) ?_
    rw [hfree]
    decide
  | @page m1 f hf htable hbyte hval hspent =>
    have hf0 : f ≠ 0 := fun h0 => h.zero_used (h0 ▸ hf)
    have hlt : f < k.total := h.intact.total ▸ (Pmm.mem_free.mp hf).1
    have hpage : k.page (some ⟨f,{ userFlags wr with present := true }⟩) = {f} := if_pos hlt
    have h1 : Sound k (m1.setPage f bytes) roots
        (k.page (some ⟨f,{ userFlags wr with present := true }⟩) + lost) := by
      rw [hpage]
      exact (h.took htable hval hspent).setPage f bytes
    have hkept : BytesKept m (m1.setPage f bytes) := by
      intro g hg
      have hgf : g ≠ f := fun h0 => hg (h0 ▸ hf)
      show update m1.byte f bytes g = m.byte g
      rw [update_of_ne hgf,hbyte]
    -- the frame was free, so filling it shows in no address space
    have h01 (A : Nat → Prop) : Touched k m (m1.setPage f bytes) roots r A := by
      refine ⟨fun u hu _ g hg => ⟨congrFun htable g,?_⟩,fun v _ _ => ?_⟩
      · exact hkept g fun h0 => (h.source hu).used g hg h0
      · show k.reader.find m1.table [] r (indices v) = _
        rw [htable]
    have hs01 : Spent m (m1.setPage f bytes) 1 :=
      ⟨hspent.kernelPml4,hspent.totalPages,hspent.counted,hspent.free,hspent.card⟩
    have hset := h1.mapPageIn rfl hr hw
    rw [if_neg hf0]
    generalize vmmMapPageIn (m1.setPage f bytes) r w f (userFlags wr) = o at hset
    cases hset with
    | @done m2 hs htouched hfind hb hsp =>
      have hold : k.reader.find (m1.setPage f bytes).table [] r (indices w) =
          k.reader.find m.table [] r (indices w) := by
        show k.reader.find m1.table [] r (indices w) = _
        rw [htable]
      rw [hold] at hs
      rw [if_pos rfl]
      refine .done hs ((h01 _).trans htouched) hfind hf ?_ ?_ ((hs01.trans hsp).mono (by omega))
      · rw [hb]
        exact update_self f bytes m1.byte
      · exact hkept.trans hs01 fun g _ => by rw [hb]
    | @full m2 hs htouched hb hsp hcard =>
      rw [hpage] at hs
      obtain ⟨hs',hfrees⟩ := hs.gave
      rw [if_neg (by simp)]
      refine .full hs' (fun A => ?_) (hkept.trans hs01 fun g _ => by rw [← hb]; rfl) ?_ ?_
      · refine ((h01 A).trans (htouched A)).trans ⟨fun u hu hur g hg => ?_,fun v _ _ => ?_⟩
        · exact ⟨rfl,rfl⟩
        · rfl
      · have hs2 := hs01.trans hsp
        refine ⟨hs2.kernelPml4,hfrees.totalPages.trans hs2.totalPages,
          fun hc => hfrees.counted (hs2.counted hc),?_,?_⟩
        · intro g hg
          have hg' : g ∈ ({f} : Multiset Nat) + m2.pmm.free.val := by
            rw [← hfrees.free]
            exact hg
          rcases Multiset.mem_add.mp hg' with hg' | hg'
          · rw [Multiset.mem_singleton.mp hg']
            exact hf
          · exact hs2.free hg'
        · have hc : (m2.freePage f).pmm.free.card = 1 + m2.pmm.free.card := by
            rw [← card_val,hfrees.free,Multiset.card_add,Multiset.card_singleton,
              card_val]
          have := hs2.card
          show m.pmm.free.card ≤ (m2.freePage f).pmm.free.card + 4
          omega
      · have h2 := hspent.card
        have h3 : (m1.setPage f bytes).pmm.free.card = m1.pmm.free.card := rfl
        omega

/-- The address spaces of `roots` are as they were, down to the contents of their pages. -/
def Unchanged (k : Machine) (m m' : Mem) (roots : Finset Nat) : Prop :=
  ∀ u ∈ roots, ∀ f ∈ k.reader.owned m.table 4 [] u,
    m'.table f = m.table f ∧ m'.byte f = m.byte f

theorem Unchanged.refl (m : Mem) (roots : Finset Nat) : Unchanged k m m roots :=
  fun _ _ _ _ => ⟨rfl,rfl⟩

section Same

variable (h : Unchanged k m m' roots)
include h

theorem Unchanged.owned_eq (hr : r ∈ roots) :
    k.reader.owned m'.table 4 [] r = k.reader.owned m.table 4 [] r :=
  owned_congr fun f hf => (h r hr f hf).1

theorem Unchanged.find_eq (hr : r ∈ roots) (v : Nat) :
    k.reader.find m'.table [] r (indices v) = k.reader.find m.table [] r (indices v) := by
  have hlen : (indices v).length ≤ 4 := Nat.le_refl 4
  exact find_congr hlen fun f hf => (h r hr f hf).1

theorem Unchanged.trans {m'' : Mem} (h' : Unchanged k m' m'' roots) : Unchanged k m m'' roots := by
  intro u hu f hf
  have h1 := h u hu f hf
  have h2 := h' u hu f (by rw [h.owned_eq hu]; exact hf)
  exact ⟨h2.1.trans h1.1,h2.2.trans h1.2⟩

theorem Unchanged.subset {roots' : Finset Nat} (hs : roots' ⊆ roots) :
    Unchanged k m m' roots' := fun u hu => h u (hs hu)

end Same

theorem Touched.unchanged {A : Nat → Prop} (h : Touched k m m' roots r A) :
    Unchanged k m m' (roots.erase r) :=
  fun u hu => h.others u (mem_of_mem_erase hu) (ne_of_mem_erase hu)

section Life

variable (h : Sound k m roots lost)
include h

/-- What happened in frames that were free shows in no address space. -/
theorem Sound.within (hw : Within m.pmm.free m m') : Unchanged k m m' roots := by
  intro u hu f hf
  have hfree := (h.source hu).used f hf
  exact ⟨hw.table f hfree,hw.byte f hfree⟩

/-- A tree grown from free frames joins the others. -/
theorem Sound.join (hw : Within m.pmm.free m m')
    (hval : m.pmm.free.val = k.reader.owned m'.table 4 [] r + m'.pmm.free.val)
    (hs : k.reader.Sane m'.table 4 [] r) : r ∉ roots ∧ Sound k m' (insert r roots) lost := by
  have hf : k.reader.Forest 4 k.pool m'.store roots (k.reader.owned m'.table 4 [] r + lost) := by
    refine h.forest.take hval fun f hf => ?_
    exact hw.table f fun h0 => hf h0
  obtain ⟨hnew,hforest⟩ := hf.plant hs
  exact ⟨hnew,h.intact.within hw h.kernel_used,hw.counted h.counted,hforest⟩

theorem Sound.stay (hw : Within m.pmm.free m m') (hfree : m'.pmm.free = m.pmm.free) :
    Sound k m' roots lost := by
  have hval : m.store.free = 0 + m'.store.free := by
    rw [zero_add]
    exact congrArg Finset.val hfree.symm
  have hf := h.forest.take hval fun f hf => hw.table f fun h0 => hf h0
  rw [zero_add] at hf
  exact ⟨h.intact.within hw h.kernel_used,hw.counted h.counted,hf⟩

/-- What a request for an empty address space does. -/
inductive SpaceMade (k : Machine) (m : Mem) (roots : Finset Nat) (lost : Multiset Nat) :
    Mem × Nat → Prop
  | done {m' : Mem} {r : Nat} : r ≠ 0 → r ∉ roots → Sound k m' (insert r roots) lost →
      Unchanged k m m' roots → (∀ v, k.reader.find m'.table [] r (indices v) = none) →
      SpaceMade k m roots lost (m',r)
  | fail {m' : Mem} : m.pmm.free.card < 2 → Sound k m' roots lost → Unchanged k m m' roots →
      m'.pmm.free = m.pmm.free → SpaceMade k m roots lost (m',0)

theorem Sound.newSpace : SpaceMade k m roots lost (vmmCloneKernelPagetable m) := by
  have hn := vmmCloneKernelPagetable_new h.intact h.kernel_used h.zero_used
  generalize vmmCloneKernelPagetable m = o at hn
  cases hn with
  | done hr hval hs hfind hw =>
    obtain ⟨h1,h2⟩ := h.join hw hval hs
    exact .done hr h1 h2 (h.within hw) fun v => hfind (indices v) rfl
  | fail hc hfree hw => exact .fail hc (h.stay hw hfree) (h.within hw) hfree

/-- What a request for a copy of an address space does. -/
inductive SpaceCopied (k : Machine) (m : Mem) (roots : Finset Nat) (lost : Multiset Nat)
    (s : Nat) : Mem × Nat → Prop
  | done {m' : Mem} {c : Nat} : c ≠ 0 → c ∉ roots → Sound k m' (insert c roots) lost →
      Unchanged k m m' roots → (∀ q, q.length = 4 → view k m' [] c q = view k m [] s q) →
      SpaceCopied k m roots lost s (m',c)
  | fail {m' : Mem} : Sound k m' roots lost → Unchanged k m m' roots →
      m'.pmm.free = m.pmm.free → SpaceCopied k m roots lost s (m',0)

theorem Sound.copySpace (hr : r ∈ roots) :
    SpaceCopied k m roots lost r (vmmClonePagetable m r) := by
  have hc := vmmClonePagetable_cloned (h.source hr)
  generalize vmmClonePagetable m r = o at hc
  cases hc with
  | done hc hmade =>
    obtain ⟨h1,h2⟩ := h.join hmade.within hmade.ledger hmade.sane
    exact .done hc h1 h2 (h.within hmade.within) hmade.view
  | fail hfree hw => exact .fail (h.stay hw hfree) (h.within hw) hfree

theorem Sound.destroy (hr : r ∈ roots) : Sound k (vmmDestroyPagetable m r) (roots.erase r) lost ∧
      Frees m (vmmDestroyPagetable m r) (k.reader.owned m.table 4 [] r) := by
  have hf : Frees m (vmmDestroyPagetable m r) (k.reader.owned m.table 4 [] r) :=
    vmmDestroyPagetable_frees h.intact (fun i _ => (h.forest.sane r hr i).1) (h.lt_total hr)
      (h.root_ne_zero hr) (h.nodup hr)
  refine ⟨⟨⟨hf.kernelPml4.trans h.intact.pml4,hf.totalPages.trans h.intact.total,fun f hfr => ?_⟩,
    hf.counted h.counted,?_⟩,hf⟩
  · rw [hf.table]
    exact h.intact.tables f hfr
  · exact (h.forest.uproot hr).give hf.free hf.table

end Life

theorem Frees.unchanged {x : Multiset Nat} (h : Frees m m' x) (roots : Finset Nat) :
    Unchanged k m m' roots := by
  intro u _ f _
  rw [h.table,h.byte]
  exact ⟨rfl,rfl⟩

theorem Sound.abandon (h : Sound k m roots lost) (hr : r ∈ roots) :
    Sound k m (roots.erase r) (k.reader.owned m.table 4 [] r + lost) :=
  ⟨h.intact,h.counted,h.forest.uproot hr⟩

end Lariat.Mm
