import Lariat.Elf.ExecOutcome

/-! What an execve of one thread leaves to the threads it shares with. -/
namespace Lariat.Elf

open Foundation.TableTree Reader List Function Finset Option
open Mm

variable {k : Machine} {s : State} {lost : Multiset Nat} {t u r old : Nat} {c : ExecCall} {o : Outcome}
  {g : Image} {m m0 m1 m2 m3 : Mem} {roots : Finset Nat}

section Files

variable {f : Files} {x y h : Nat} {i j : Fin FD_MAX}

/-- The descriptors in the tables `used` that refer to file `h`. -/
def Files.refs (f : Files) (used : Finset Nat) (h : Nat) : Finset (Nat × Fin FD_MAX) :=
  (used ×ˢ Finset.univ).filter fun d => (f.table d.1).files d.2 = some h

/-- A file that descriptors refer to is open, and counts them all. -/
def Files.Counted (f : Files) (used : Finset Nat) : Prop :=
  ∀ h, (f.refs used h).Nonempty → f.opened h = true ∧ ((f.refs used h).card : Int) ≤ f.refCount h

theorem mem_refs {used : Finset Nat} {d : Nat × Fin FD_MAX} :
    d ∈ f.refs used h ↔ d.1 ∈ used ∧ (f.table d.1).files d.2 = some h := by
  rw [Files.refs,Finset.mem_filter,Finset.mem_product]
  exact and_congr_left fun _ => and_iff_left (mem_univ _)

theorem closeSlot_none (hi : (f.table x).files i = none) : f.closeSlot x i = f := by
  rw [Files.closeSlot,hi,elim_none]

theorem closeSlot_some (hi : (f.table x).files i = some h) :
    f.closeSlot x i = (f.vfsClose h).clearSlot x i := by
  rw [Files.closeSlot,hi,elim_some]

theorem vfsClose_table (f : Files) (h : Nat) : (f.vfsClose h).table = f.table := by
  rw [Files.vfsClose]
  split_ifs <;> rfl

theorem closeSlot_files (f : Files) (x y : Nat) (i j : Fin FD_MAX) :
    ((f.closeSlot x i).table y).files j =
      if y = x ∧ j = i then none else (f.table y).files j := by
  cases hi : (f.table x).files i with
  | none =>
    rw [closeSlot_none hi]
    split_ifs with hyj
    · rw [hyj.1,hyj.2,hi]
    · rfl
  | some h =>
    rw [closeSlot_some hi,Files.clearSlot,vfsClose_table]
    dsimp only
    by_cases hy : y = x
    · subst hy
      rw [update_self]
      by_cases hj : j = i
      · rw [hj,if_pos ⟨rfl,rfl⟩]
        exact update_self i _ _
      · rw [if_neg fun h0 => hj h0.2]
        exact update_of_ne hj _ _
    · rw [update_of_ne hy,if_neg fun h0 => hy h0.1]

theorem closeSlot_refs (f : Files) (used : Finset Nat) (x : Nat) (i : Fin FD_MAX) (h : Nat) :
    (f.closeSlot x i).refs used h = (f.refs used h).erase (x,i) := by
  ext d
  rw [mem_erase,mem_refs,mem_refs,closeSlot_files]
  by_cases hd : d = (x,i)
  · subst hd
    rw [if_pos ⟨rfl,rfl⟩]
    exact iff_of_false nofun fun h0 => h0.1 rfl
  · rw [if_neg fun h0 => hd (Prod.ext h0.1 h0.2)]
    exact (and_iff_right hd).symm

theorem vfsClose_other {h' : Nat} (hne : h' ≠ h) :
    (f.vfsClose h).opened h' = f.opened h' ∧ (f.vfsClose h).refCount h' = f.refCount h' := by
  rw [Files.vfsClose]
  split_ifs
  · exact ⟨rfl,update_of_ne hne _ _⟩
  · exact ⟨update_of_ne hne _ _,rfl⟩

theorem Files.Counted.closeSlot {used : Finset Nat} (hc : f.Counted used) (hx : x ∈ used)
    (i : Fin FD_MAX) : (f.closeSlot x i).Counted used := by
  intro h' hrefs
  rw [closeSlot_refs] at hrefs ⊢
  obtain ⟨hopen,hcount⟩ := hc h' (hrefs.mono (erase_subset _ _))
  cases hi : (f.table x).files i with
  | none =>
    rw [closeSlot_none hi]
    exact ⟨hopen,(Int.ofNat_le.mpr (card_le_card (erase_subset _ _))).trans hcount⟩
  | some h =>
    rw [closeSlot_some hi]
    show (f.vfsClose h).opened h' = true ∧ _ ≤ (f.vfsClose h).refCount h'
    by_cases hne : h' = h
    -- the file itself: one descriptor less, and another one is left
    · subst hne
      have hmem : (x,i) ∈ f.refs used h' := mem_refs.mpr ⟨hx,hi⟩
      have hcard := card_erase_add_one hmem
      have hpos := card_pos.mpr hrefs
      have hmany : 1 < f.refCount h' := by omega
      rw [Files.vfsClose,if_pos hmany]
      refine ⟨hopen,?_⟩
      show _ ≤ update f.refCount h' (f.refCount h' - 1) h'
      rw [update_self]
      omega
    · rw [(vfsClose_other hne).1,(vfsClose_other hne).2]
      exact ⟨hopen,(Int.ofNat_le.mpr (card_le_card (erase_subset _ _))).trans hcount⟩

end Files

section Memory

theorem InRam.frame_lt (h : InRam k m r) (hs : Sound k m roots lost)
    (hr : r ∈ roots) {v : Nat} (hv : UserAddr v) {x : Mapping}
    (hx : mapping m.table r v = some x) : x.phys / 4096 < k.total := by
  rw [hs.mapping_user hr hv] at hx
  obtain ⟨e,he,rfl⟩ := map_eq_some_iff.mp hx
  show (e.frame * 4096 ||| v % 4096) / 4096 < k.total
  rw [phys_frame]
  exact h v hv e he

theorem Stages.outside (h : Stages k s lost t c o g r old m0 m1 m2 m3) (hp : UserProgram s t c g)
    {f : Nat} (hf : k.total ≤ f) (hh : Housed k s.sys lost) :
    o.state.sys.mem.byte f = s.sys.mem.byte f := by
  obtain ⟨y,hstart⟩ := h.started
  obtain ⟨l,x,n,-,-,hload⟩ := h.loaded
  obtain ⟨_,hfrees⟩ := h.freed
  obtain ⟨y',z,n',hs,hstack⟩ := h.stack
  have hrel := relocated_retouched h.relocated
  rw [h.log] at hrel
  have hram : InRam k m1 r := hload.inRam fun v _ e he => by
    rw [h.empty v] at he
    cases he
  have hr : r ∈ (insert r s.sys.roots).erase old :=
    mem_erase.mpr ⟨h.new.2.2,mem_insert_self r _⟩
  have hnotFree {m : Mem} (ht : m.pmm.totalPages = k.total) : f ∉ m.pmm.free := fun h0 =>
    Nat.not_lt.mpr hf (ht ▸ (Pmm.mem_free.mp h0).1)
  have hstackFrame : o.state.sys.mem.byte f = m3.byte f := by
    refine hstart.memory.retouched.byte f fun v hv a ha heq => ?_
    obtain ⟨huser,e,he,hlt⟩ := hstart.memory.backed v hv
    rw [hstart.memory.retouched.table] at he
    obtain ⟨b,hb,hframe,-⟩ := hstack.sound.mapping_found hr huser he
    rw [hb] at ha
    cases ha
    omega
  have htotal0 : m0.pmm.totalPages = k.total := by
    rw [← hload.spent.totalPages]
    exact hload.sound.intact.total
  rw [hstackFrame,hstack.kept f (hnotFree hs.intact.total),hfrees.byte,hrel.byte f,
    hload.kept f (hnotFree htotal0),h.kept f (hnotFree hh.sound.intact.total)]
  intro v hv a ha heq
  exact Nat.not_lt.mpr hf (heq ▸ InRam.frame_lt hram hload.sound
    (mem_insert_self r _) (hp.targets v hv) ha)

end Memory

section Sharing

section

variable (h : Stages k s lost t c o g r old m0 m1 m2 m3) (hh : Housed k s.sys lost) (ht : t ∈ s.sys.live) (h0 : (s.sys.proc t).cr3 ≠ 0)
include h hh ht h0

end

end Sharing

section Calls

variable (n : Nat) (slot : Option Nat)

end Calls

end Lariat.Elf
