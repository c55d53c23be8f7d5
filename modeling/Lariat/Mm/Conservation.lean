import Lariat.Mm.Isolation

/-! Conservation: every frame of memory is free or in exactly one place of one address space, as
long as no call gives up a page. -/
namespace Lariat.Mm

open Foundation.TableTree Reader Finset Multiset
open Foundation.Runs

variable {k : Machine} {s s' s₀ : Sys} {t : Nat} {e : Event}

/-- The allocations of the kernel itself that follow the copy of an address space succeed, and none
is shared. -/
def Event.ForkOk : Event → Prop
  | .fork _ ok => ok = true
  | .clone _ shareVm luck => shareVm = false ∧ luck.kstack ∧ luck.thread
  | _ => True

/-- The event works on user addresses, gives up no page and is no half-made fork. -/
structure Event.Conserving (k : Machine) (s : Sys) (e : Event) : Prop where
  inUser : e.InUser k s
  thrifty : e.Thrifty s
  forkOk : e.ForkOk

/-- No frame is lost, and no two processes share an address space. -/
structure Sparing (k : Machine) (s : Sys) : Prop where
  housed : Housed k s 0
  single : ∀ t ∈ s.live, (s.proc t).mmCount = none

theorem Sparing.called {x : Multiset Nat} (h : Sparing k s) (hc : Called k s s' t 0 x)
    (hx : x = 0) : Sparing k s' := by
  subst hx
  refine ⟨hc.housed,fun u hu => ?_⟩
  rw [hc.live] at hu
  by_cases hut : u = t
  · rw [hut]
    rcases hc.mmCount with h1 | h1
    · rw [h1]
      exact h.single t (hut ▸ hu)
    · exact h1
  · rw [hc.procs u hut]
    exact h.single u hu

theorem Sparing.born {mm : Option Nat} (h : Sparing k s) (hb : Born k s s' 0 mm)
    (hmm : mm = none) : Sparing k s' := by
  refine ⟨hb.housed,fun u hu => ?_⟩
  by_cases hold : u ∈ s.live
  · rw [hb.procs u hold]
    exact h.single u hold
  · rw [hb.fresh u hu hold,hmm]

theorem Sparing.exited (h : Sparing k s) :
    Sparing k (s.setProc t { s.proc t with zombie := true }) := by
  refine ⟨?_,fun u hu => ?_⟩
  · have hin := h.housed.inPlace (p := { s.proc t with zombie := true }) h.housed.sound
      rfl rfl
    exact hin
  · have hsame := setProc_field (p := { s.proc t with zombie := true })
      Proc.mmCount rfl u
    exact hsame.trans (h.single u hu)

theorem reap_of_step (hstep : step s (.reap t) = some s') : t ∈ s.live ∧ reap s t = s' := by
  rw [step] at hstep
  split at hstep
  · exact ⟨(And.left ‹_›),Option.some.inj hstep⟩
  · cases hstep

theorem Sparing.step (h : Sparing k s) (hg : e.Conserving k s) (hstep : step s e = some s') :
    Sparing k s' := by
  have hcall {u : Nat} (hc : e.MemoryCall u) : Sparing k s' := by
    obtain ⟨x,hcalled,hx⟩ := step_called h.housed hc hg.inUser hstep
    exact h.called hcalled (hx hg.thrifty)
  cases e with
  | brk u addr | mmap u addr length write fixed src | munmap u addr length
  | mprotect u addr length write | execve u prog => exact hcall rfl
  | create ok =>
    cases hstep
    exact h.born (processCreateUser_born h.housed ok) rfl
  | fork u ok =>
    obtain rfl : ok = true := hg.forkOk
    obtain ⟨ht,rfl⟩ := runs_of_step hstep
    exact h.born (processFork_born h.housed ht) (h.single u ht)
  | clone u shareVm luck =>
    obtain ⟨rfl,hk⟩ := hg.forkOk
    obtain ⟨ht,rfl⟩ := runs_of_step hstep
    exact h.born (processClone_born h.housed ht hk) rfl
  | exit u =>
    obtain ⟨-,rfl⟩ := runs_of_step hstep
    exact h.exited
  | reap u =>
    obtain ⟨ht,rfl⟩ := reap_of_step hstep
    obtain ⟨hh,hlive,hproc,-⟩ := reap_housed h.housed ht (by rw [h.single u ht]; exact nofun)
    refine ⟨hh,fun v hv => ?_⟩
    rw [hlive] at hv
    rw [hproc]
    exact h.single v (Finset.mem_of_mem_erase hv)

/-- The process that makes the call, if one does, has the property. -/
def Event.By (p : Nat → Prop) : Event → Prop
  | .create _ => True
  | .brk t _ => p t
  | .mmap t _ _ _ _ _ => p t
  | .munmap t _ _ => p t
  | .mprotect t _ _ _ => p t
  | .execve t _ => p t
  | .fork t _ => p t
  | .clone t _ _ => p t
  | .exit t => p t
  | .reap t => p t

/-- The processes of `s₀` are still there, each with its address space as it was. -/
structure Older (k : Machine) (s₀ s : Sys) : Prop where
  live : ∀ u ∈ s₀.live, u ∈ s.live
  procs : ∀ u ∈ s₀.live, s.proc u = s₀.proc u
  spaces : Unchanged k s₀.mem s.mem s₀.roots

theorem Older.roots_subset (h : Older k s₀ s) : s₀.roots ⊆ s.roots := by
  intro r hr
  obtain ⟨hr0,u,hu,hur⟩ := mem_roots.mp hr
  refine mem_roots.mpr ⟨hr0,u,h.live u hu,?_⟩
  rw [h.procs u hu]
  exact hur

theorem Older.subset_otherRoots (h : Older k s₀ s) (hnew : s₀.nextTid ≤ t) :
    s₀.roots ⊆ s.otherRoots t := by
  intro r hr
  obtain ⟨hr0,u,hu,hur⟩ := mem_roots.mp hr
  have hut : u ≠ t := ne_of_lt (lt_of_lt_of_le (s₀.live_lt u hu) hnew)
  refine mem_otherRoots.mpr ⟨hr0,u,h.live u hu,hut,?_⟩
  rw [h.procs u hu]
  exact hur

theorem Sparing.otherRoots_subset (h : Sparing k s) (ht : t ∈ s.live) :
    s.otherRoots t ⊆ s.roots.erase (s.proc t).cr3 := by
  intro r hr
  obtain ⟨hr0,u,hu,hut,hur⟩ := mem_otherRoots.mp hr
  refine mem_erase.mpr ⟨fun h1 => ?_,mem_roots.mpr ⟨hr0,u,hu,hur⟩⟩
  exact hut (h.housed.sole t ht (h1 ▸ hr0) (h.single t ht) u hu (hur.trans h1))

theorem Older.step (h : Older k s₀ s) (hs : Sparing k s) (hg : e.Conserving k s)
    (hnew : e.By (s₀.nextTid ≤ ·)) (hstep : step s e = some s') : Older k s₀ s' := by
  have hne {u v : Nat} (hu : s₀.nextTid ≤ u) (hv : v ∈ s₀.live) : v ≠ u :=
    ne_of_lt (lt_of_lt_of_le (s₀.live_lt v hv) hu)
  have hborn {mm : Option Nat} (hb : Born k s s' 0 mm) : Older k s₀ s' := by
    refine ⟨fun u hu => hb.live u (h.live u hu),fun u hu => ?_,?_⟩
    · rw [hb.procs u (h.live u hu),h.procs u hu]
    · exact h.spaces.trans (hb.others.subset h.roots_subset)
  have hcall {u : Nat} (hc : e.MemoryCall u) (hu : s₀.nextTid ≤ u) (hlive : u ∈ s.live) :
      Older k s₀ s' := by
    obtain ⟨x,hcalled,-⟩ := step_called hs.housed hc hg.inUser hstep
    refine ⟨fun v hv => ?_,fun v hv => ?_,?_⟩
    · rw [hcalled.live]
      exact h.live v hv
    · rw [hcalled.procs v (hne hu hv),h.procs v hv]
    · exact h.spaces.trans (hcalled.others.subset
        ((h.subset_otherRoots hu).trans (hs.otherRoots_subset hlive)))
  cases e with
  | brk u addr | mmap u addr length write fixed src
  | munmap u addr length | mprotect u addr length write
  | execve u prog => exact hcall rfl hnew (runs_of_step hstep).1
  | create ok =>
    cases hstep
    exact hborn (processCreateUser_born hs.housed ok)
  | fork u ok =>
    obtain rfl : ok = true := hg.forkOk
    obtain ⟨ht,rfl⟩ := runs_of_step hstep
    exact hborn (processFork_born hs.housed ht)
  | clone u shareVm luck =>
    obtain ⟨rfl,hk⟩ := hg.forkOk
    obtain ⟨ht,rfl⟩ := runs_of_step hstep
    exact hborn (processClone_born hs.housed ht hk)
  | exit u =>
    obtain ⟨-,rfl⟩ := runs_of_step hstep
    refine ⟨h.live,fun v hv => ?_,h.spaces⟩
    rw [setProc_other (hne hnew hv),h.procs v hv]
  | reap u =>
    obtain ⟨ht,rfl⟩ := reap_of_step hstep
    obtain ⟨-,hlive,hproc,hothers⟩ := reap_housed hs.housed ht (by rw [hs.single u ht]; exact nofun)
    refine ⟨fun v hv => ?_,fun v hv => ?_,?_⟩
    · rw [hlive]
      exact mem_erase.mpr ⟨hne hnew hv,h.live v hv⟩
    · rw [hproc,h.procs v hv]
    · exact h.spaces.trans (hothers.subset (h.subset_otherRoots hnew))

theorem Older.free_eq (h₀ : Sparing k s₀) (hs : Sparing k s) (h : Older k s₀ s)
    (hlive : s.live = s₀.live) : s.mem.pmm.free = s₀.mem.pmm.free := by
  have hroots : s.roots = s₀.roots := roots_congr hlive fun u hu => by rw [h.procs u hu]
  have hsum : ∑ r ∈ s.roots, k.reader.owned s.mem.table 4 [] r =
      ∑ r ∈ s₀.roots, k.reader.owned s₀.mem.table 4 [] r := by
    rw [hroots]
    exact sum_congr rfl fun r hr => h.spaces.owned_eq hr
  have hl := hs.housed.sound.forest.ledger.trans h₀.housed.sound.forest.ledger.symm
  rw [add_zero,add_zero] at hl
  change ∑ r ∈ s.roots, k.reader.owned s.mem.table 4 [] r + s.mem.pmm.free.val =
    ∑ r ∈ s₀.roots, k.reader.owned s₀.mem.table 4 [] r + s₀.mem.pmm.free.val at hl
  rw [hsum] at hl
  exact val_injective (add_left_cancel hl)

theorem bootSys_sparing : Sparing bootMachine bootSys :=
  ⟨bootSys_housed,fun t ht => absurd ht (notMem_empty t)⟩

/-- A page mapped by the first process, at the start of the arena. -/
def mapOnePage : Event := .mmap 0 0 4096 true false .anonymous

theorem mapOnePage_conserving : mapOnePage.Conserving bootMachine firstProcess := by
  refine ⟨⟨?_,trivial⟩,⟨?_,?_⟩,trivial⟩
  · decide
  · intro w hw
    revert w
    decide
  · decide

/-- The state in which the first process has mapped a page. -/
def onePageMapped : Sys := (sysMmap firstProcess 0 0 4096 true false .anonymous).1

theorem onePageMapped_sparing : Sparing bootMachine onePageMapped := by
  have hfirst : Sparing bootMachine firstProcess :=
    bootSys_sparing.born (processCreateUser_born bootSys_housed true) rfl
  have hstep : step firstProcess mapOnePage = some onePageMapped := rfl
  exact hfirst.step mapOnePage_conserving hstep

end Lariat.Mm
