import Lariat.Mm.CallEffects
import Lariat.Foundation.Runs

/-! Isolation: the memory calls of one process reach neither the kernel's part of any address
space nor the address spaces of others, as long as they name user addresses. Before it, a small
machine as boot leaves it: the first 4 MiB mapped low and in the direct map, the local APIC's page
mapped beside it, and 48 frames of memory. -/
namespace Lariat.Mm
open Foundation.TableTree Reader Finset
open Foundation.Runs

def kernelFlags : Flags := { present := true, writable := true }

def hugeFlags : Flags := { present := true, writable := true, huge := true }

/-- The entries of the kernel's tables: frame 1 is the top level, frames 2 and 3 the low map,
frames 4 to 7 the upper half with the APIC's page in frame 7. -/
def bootEntries : List ((Nat × Nat) × Entry) :=
  [((1,0),⟨2,kernelFlags⟩),((1,256),⟨4,kernelFlags⟩),((2,0),⟨3,kernelFlags⟩),
    ((3,0),⟨0,hugeFlags⟩),((3,1),⟨512,hugeFlags⟩),((4,0),⟨5,kernelFlags⟩),
    ((4,3),⟨6,kernelFlags⟩),((5,0),⟨0,hugeFlags⟩),((5,1),⟨512,hugeFlags⟩),
    ((6,503),⟨7,kernelFlags⟩),((7,0),⟨0xFEE00,kernelFlags⟩)]

def bootEntry (f i : Nat) : Entry := (bootEntries.lookup (f,i)).getD {}

def bootTables (f : Nat) : Table := fun i => bootEntry f i.val

/-- What a present entry of the boot tables is. -/
def BootShape (f i frame : Nat) (huge : Bool) : Prop :=
  f = 1 ∧ (i = 0 ∧ frame = 2 ∨ i = 256 ∧ frame = 4) ∨ f = 2 ∧ i = 0 ∧ frame = 3 ∨
    f = 4 ∧ (frame = 5 ∨ frame = 6) ∨ f = 6 ∧ frame = 7 ∨ (f = 3 ∨ f = 5) ∧ huge = true ∨ f = 7

instance (f i frame : Nat) (huge : Bool) : Decidable (BootShape f i frame huge) :=
  inferInstanceAs (Decidable (_ ∨ _))

theorem bootEntry_present {f i : Nat} (h : ptIsPresent (bootEntry f i) = true) :
    BootShape f i (bootEntry f i).frame (ptIsHuge (bootEntry f i)) := by
  have hall : ∀ e ∈ bootEntries, BootShape e.1.1 e.1.2 e.2.frame (ptIsHuge e.2) := by decide
  rw [bootEntry] at h ⊢
  cases hl : bootEntries.lookup (f,i) with
  | none =>
    rw [hl] at h
    cases h
  | some e =>
    obtain ⟨l1,l2,heq,-⟩ := List.lookup_eq_some_iff.mp hl
    have hmem : ((f,i),e) ∈ bootEntries := by
      rw [heq]
      exact List.mem_append_right _ (List.mem_cons_self)
    exact hall _ hmem

/-- Table `t` stands `n` levels above the last. -/
def BootLevel (n t : Nat) : Prop :=
  n = 3 ∧ t = 1 ∨ n = 2 ∧ (t = 2 ∨ t = 4) ∨ n = 1 ∧ (t = 3 ∨ t = 5 ∨ t = 6) ∨ n = 0 ∧ t = 7

theorem BootLevel.step {n t i : Nat} (hl : BootLevel (n+1) t)
    (hpres : ptIsPresent (bootEntry t i) = true)
    (hhuge : n = 0 → ptIsHuge (bootEntry t i) = false) : BootLevel n (bootEntry t i).frame := by
  have hcase := bootEntry_present hpres
  rw [BootShape] at hcase
  rw [BootLevel]
  rcases hl with ⟨hn,rfl⟩ | ⟨hn,rfl | rfl⟩ | ⟨hn,rfl | rfl | rfl⟩ | ⟨hn,-⟩
  · omega
  · omega
  · omega
  · rw [hhuge (Nat.succ.inj hn)] at hcase
    simp at hcase
  · rw [hhuge (Nat.succ.inj hn)] at hcase
    simp at hcase
  · omega
  · omega

theorem boot_reads {n t f : Nat} (h : Reads bootTables n t f) (hl : BootLevel n t) : f ≤ 7 := by
  induction n generalizing t with
  | zero =>
    rw [Reads] at h
    rw [BootLevel] at hl
    omega
  | succ n ih =>
    rcases h with rfl | ⟨i,hpres,hhuge,hr⟩
    · rw [BootLevel] at hl
      omega
    · exact ih hr (hl.step hpres hhuge)

section Roomy

variable (n : Nat)

/-- The machine with `n` frames to give out. -/
def roomyMachine : Machine where
  pml4 := 1
  tables := bootTables
  total := 16+n
  pool := Finset.Ico 16 (16+n)
  pool_lt f hf := (mem_Ico.mp hf).2
  zero_notMem h := absurd (mem_Ico.mp h).1 (by decide)
  low := rfl
  low_frame := by decide
  low_only j hj := by
    have hshape : BootShape 2 j.val _ _ := bootEntry_present hj
    rw [BootShape] at hshape
    exact Fin.ext (by rw [Fin.val_zero]; omega)
  upper i hi := by
    have hshape : BootShape 1 i.val _ _ := bootEntry_present hi
    rw [BootShape] at hshape
    rw [Fin.ext_iff,Fin.val_zero]
    omega
  apart f hf hpool := by
    have h1 := boot_reads hf (.inl ⟨rfl,rfl⟩)
    have h2 := (mem_Ico.mp hpool).1
    omega

/-- Memory before the first process: frames 0 to 15 are in use. -/
def roomyMem : Mem where
  table := bootTables
  byte := fun _ _ => 0
  pmm := ⟨fun f => decide (f < 16),16+n,n⟩
  kernelPml4 := 1

def roomySys : Sys where
  mem := roomyMem n
  live := ∅
  proc := fun _ => ⟨0,none,0,0,0,false⟩
  counts := fun _ => 0
  nextTid := 0
  live_lt := fun _ h => absurd h (notMem_empty _)

theorem roomyMem_free : (roomyMem n).pmm.free = Finset.Ico 16 (16+n) := by
  ext f
  rw [Pmm.mem_free,mem_Ico]
  simp [roomyMem]
  omega

theorem roomyMem_sound : Sound (roomyMachine n) (roomyMem n) ∅ 0 where
  intact := ⟨rfl,rfl,fun _ _ => rfl⟩
  counted := by
    rw [Pmm.Counted,roomyMem_free,Nat.card_Ico]
    exact (Nat.add_sub_cancel_left 16 n).symm
  forest := by
    refine ⟨?_,fun r hr => absurd hr (notMem_empty r)⟩
    rw [sum_empty,zero_add,add_zero]
    exact congrArg Finset.val (roomyMem_free n)

theorem roomySys_housed : Housed (roomyMachine n) (roomySys n) 0 where
  sound := roomyMem_sound n
  sole t ht := absurd ht (notMem_empty t)

end Roomy

abbrev bootMachine : Machine := roomyMachine 48

abbrev bootSys : Sys := roomySys 48

theorem bootSys_housed : Housed bootMachine bootSys 0 := roomySys_housed 48

variable {k : Machine} {s s' s₀ : Sys} {lost : Multiset Nat} {t : Nat} {e : Event}

/-- What carries isolation along a run: the other address spaces keep their frames, and `t` never
comes to run on one of them. -/
structure KeepsApart (k : Machine) (s₀ : Sys) (t : Nat) (s : Sys) : Prop where
  housed : ∃ lost, Housed k s lost
  live : s.live = s₀.live
  own : (s.proc t).cr3 ≠ 0
  procs : ∀ u, u ≠ t → s.proc u = s₀.proc u
  spaces : Unchanged k s₀.mem s.mem (s₀.roots.erase (s₀.proc t).cr3)
  apart : (s.proc t).cr3 ∉ s₀.roots.erase (s₀.proc t).cr3

theorem KeepsApart.start (h : Housed k s lost) (h0 : (s.proc t).cr3 ≠ 0) : KeepsApart k s t s :=
  ⟨⟨lost,h⟩,rfl,h0,fun _ _ => rfl,Unchanged.refl _ _,notMem_erase _ _⟩

theorem KeepsApart.roots_subset (h : KeepsApart k s₀ t s) :
    s₀.roots.erase (s₀.proc t).cr3 ⊆ s.roots.erase (s.proc t).cr3 := by
  intro r hr
  obtain ⟨hne,hmem⟩ := mem_erase.mp hr
  obtain ⟨hr0,u,hu,hur⟩ := mem_roots.mp hmem
  have hut : u ≠ t := fun h1 => hne (by rw [← hur,h1])
  refine mem_erase.mpr ⟨fun h1 => h.apart (h1 ▸ hr),mem_roots.mpr ⟨hr0,u,?_,?_⟩⟩
  · rw [h.live]
    exact hu
  · rw [h.procs u hut]
    exact hur

theorem KeepsApart.step (h : KeepsApart k s₀ t s) (hcall : e.MemoryCall t) (hu : e.InUser k s)
    (hstep : step s e = some s') : KeepsApart k s₀ t s' := by
  obtain ⟨lost,hh⟩ := h.housed
  obtain ⟨x,hc,-⟩ := step_called hh hcall hu hstep
  refine ⟨⟨_,hc.housed⟩,hc.live.trans h.live,?_,?_,?_,?_⟩
  · rcases hc.moved with h1 | h1
    · rw [h1]
      exact h.own
    · exact h1.1
  · intro u hut
    rw [hc.procs u hut,h.procs u hut]
  · exact h.spaces.trans (hc.others.subset h.roots_subset)
  · rcases hc.moved with h1 | h1
    · rw [h1]
      exact h.apart
    · exact fun h2 => h1.2 (mem_of_mem_erase (h.roots_subset h2))

/-- The first process of the small machine. -/
def firstProcess : Sys := processCreateUser bootSys true

theorem firstProcess_housed : Housed bootMachine firstProcess 0 :=
  (processCreateUser_born bootSys_housed true).housed

end Lariat.Mm
