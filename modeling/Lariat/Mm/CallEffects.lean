import Lariat.Mm.Exec

/-! Each memory call changes the address space of its caller only; and what becomes of the address
spaces when processes are made, copied and reaped. -/
namespace Lariat.Mm
open Foundation.TableTree Reader Finset Function

variable {k : Machine} {s s' : Sys} {m' : Mem} {lost x : Multiset Nat} {t u : Nat}

/-- What a memory call by `t` leaves alone, and the frames `x` it loses. -/
structure Called (k : Machine) (s s' : Sys) (t : Nat) (lost x : Multiset Nat) : Prop where
  housed : Housed k s' (x+lost)
  live : s'.live = s.live
  procs : ∀ u, u ≠ t → s'.proc u = s.proc u
  others : Unchanged k s.mem s'.mem (s.roots.erase (s.proc t).cr3)
  moved : (s'.proc t).cr3 = (s.proc t).cr3 ∨ (s'.proc t).cr3 ≠ 0 ∧ (s'.proc t).cr3 ∉ s.roots
  mmCount : (s'.proc t).mmCount = (s.proc t).mmCount ∨ (s'.proc t).mmCount = none

section

variable (h : Housed k s lost)
include h

theorem Housed.called {p : Proc} (hs : Sound k m' s.roots (x+lost)) (hcr3 : p.cr3 = (s.proc t).cr3)
    (hmm : p.mmCount = (s.proc t).mmCount)
    (hothers : Unchanged k s.mem m' (s.roots.erase (s.proc t).cr3)) :
    Called k s ((s.setMem m').setProc t p) t lost x where
  housed := h.inPlace hs hcr3 hmm
  live := rfl
  procs _ hu := setProc_other hu
  others := hothers
  moved := by
    rw [setProc_same]
    exact .inl hcr3
  mmCount := by
    rw [setProc_same]
    exact .inl hmm

theorem Housed.zero : Sound k s.mem s.roots (0+lost) := by
  rw [zero_add]
  exact h.sound

theorem Housed.calledMem (hs : Sound k m' s.roots (x+lost))
    (hothers : Unchanged k s.mem m' (s.roots.erase (s.proc t).cr3)) :
    Called k s (s.setMem m') t lost x where
  housed := ⟨hs,h.sole⟩
  live := rfl
  procs _ _ := rfl
  others := hothers
  moved := .inl rfl
  mmCount := .inl rfl

theorem Housed.idle {p : Proc} (hcr3 : p.cr3 = (s.proc t).cr3)
    (hmm : p.mmCount = (s.proc t).mmCount) : Called k s (s.setProc t p) t lost 0 :=
  h.called h.zero hcr3 hmm (Unchanged.refl _ _)

theorem Housed.unchanged (t : Nat) : Called k s s t lost 0 where
  housed := by
    rw [zero_add]
    exact h
  live := rfl
  procs _ _ := rfl
  others := Unchanged.refl _ _
  moved := .inl rfl
  mmCount := .inl rfl

end

/-- None of the pages is mapped in the address space of the caller. -/
def Sys.Unused (k : Machine) (s : Sys) (t : Nat) (l : List Nat) : Prop :=
  ∀ w ∈ l, k.reader.find s.mem.table [] (s.proc t).cr3 (indices w) = none

theorem Sys.Unused.unmapped {virt n : Nat} (h : s.Unused k t (pageList virt n)) :
    Unmapped k s.mem (s.proc t).cr3 virt n := fun _ hi => h _ (pageAt_mem hi)

theorem sysBrk_called {addr : Nat} (h : Housed k s lost) (ht : t ∈ s.live)
    (h0 : (s.proc t).cr3 ≠ 0) (hu : ∀ w ∈ brkPages s t addr, UserAddr w) :
    ∃ x, Called k s (sysBrk s t addr).1 t lost x ∧ (s.Unused k t (brkPages s t addr) → x = 0) := by
  have hout := sysBrk_outcome h ht h0 hu
  have hgrow := growth_le (s.proc t).withHeap addr
  have hcr3 := withHeap_cr3 (s.proc t)
  have hmm := withHeap_mmCount (s.proc t)
  generalize sysBrk s t addr = o at hout
  cases hout with
  | query => exact ⟨0,h.idle hcr3 hmm,fun _ => rfl⟩
  | grown _ _ hpages hl =>
    refine ⟨_,h.called hl.sound hcr3 hmm hl.touched.unchanged,fun hun => ?_⟩
    rw [hpages] at hun
    exact hl.loss (fresh_pageReqs hgrow hun.unmapped)
  | stuck _ _ hi hpages hl =>
    refine ⟨_,h.called hl.sound hcr3 hmm hl.touched.unchanged,fun hun => ?_⟩
    rw [hpages] at hun
    exact hl.loss (fresh_pageReqs (by omega) fun j hj => hun.unmapped j (Nat.lt_trans hj hi))
  | shrunk _ _ _ hc =>
    exact ⟨_,h.called hc.sound hcr3 hmm hc.touched.unchanged,fun hun => hc.loss hun⟩

/-- The pages mmap maps. -/
def mmapRange (s : Sys) (t addr length : Nat) (fixed : Bool) (src : Backing) : List Nat :=
  pageList (mmapBase (s.proc t) addr fixed) (src.count length)

/-- The read that follows a mapping keeps the address spaces sound. -/
theorem Laid.fill {roots : Finset Nat} {m m1 : Mem} {r base n : Nat} (src : Backing) (length : Nat)
    {l : List PageReq} (hl : Laid k m m1 roots lost x r l n) (hr : r ∈ roots)
    (hu : ∀ i < pagesOf length, UserAddr (pageAt base i)) :
    Sound k (src.fill r base length m1) roots (x+lost) ∧
      Touched k m (src.fill r base length m1) roots r (Covers l) := by
  cases src with
  | file j bytes =>
    obtain ⟨h1,h2,-,-⟩ := hl.sound.readInto (min j length) hr bytes hu (Covers l)
    exact ⟨h1,hl.touched.trans h2⟩
  | anonymous | device frame size | badFd => exact ⟨hl.sound,hl.touched⟩

section Ranges

variable (h : Housed k s lost) (ht : t ∈ s.live) (h0 : (s.proc t).cr3 ≠ 0)
include h ht h0

variable {addr length : Nat}

theorem sysMmap_called {write fixed : Bool} {src : Backing} (hout : src.Outside k)
    (hu : ∀ w ∈ mmapRange s t addr length fixed src, UserAddr w) :
    ∃ x, Called k s (sysMmap s t addr length write fixed src).1 t lost x ∧
      (s.Unused k t (mmapRange s t addr length fixed src) →
        4 * pagesOf length ≤ s.mem.pmm.free.card → x = 0) := by
  have hr := root_mem ht h0
  have hres : MmapOutcome k s lost t addr length write fixed src
      (sysMmap s t addr length write fixed src) := sysMmap_outcome h ht h0 hu hout
  have hcr3 := withArena_cr3 (s.proc t)
  have hmm := withArena_mmCount (s.proc t)
  generalize sysMmap s t addr length write fixed src = o at hres
  cases hres with
  | refused hp hrc =>
    rcases hp with rfl | rfl
    · exact ⟨0,h.idle rfl rfl,fun _ _ => rfl⟩
    · exact ⟨0,h.idle hcr3 hmm,fun _ _ => rfl⟩
  | mapped hcount hl =>
    obtain ⟨h1,h2⟩ := hl.fill src length hr
      fun i hi => hu _ (pageAt_mem (hcount ▸ hi))
    refine ⟨_,h.called h1 ?_ ?_ h2.unchanged,fun hun _ => ?_⟩
    · rw [bump_cr3,hcr3]
    · rw [bump_mmCount,hmm]
    · rw [mmapRange,hcount] at hun
      exact hl.loss (fresh_pageReqs (pagesOf_le length) hun.unmapped)
  | @undone m1 m' x y i hcount hi hl hc hcl =>
    have hsound : Sound k m' s.roots ((y+x) + lost) := by
      rw [add_assoc]
      exact hcl.sound
    exact ⟨_,h.called hsound hcr3 hmm (hl.touched.unchanged.trans hcl.touched.unchanged),
      fun _ henough => by omega⟩
  | device _ hc hm hs htouch hx =>
    exact ⟨_,h.called hs hc hm htouch.unchanged,fun hun _ => hx hun.unmapped⟩

theorem sysMunmap_called (hu : ∀ w ∈ pageList addr (pagesOf length), UserAddr w) :
    ∃ x, Called k s (sysMunmap s t addr length).1 t lost x ∧
      (s.Unused k t (pageList addr (pagesOf length)) → x = 0) := by
  rw [sysMunmap,if_neg h0]
  by_cases hbad : length = 0 ∨ addr % 4096 ≠ 0
  · rw [if_pos hbad]
    exact ⟨0,h.unchanged t,fun _ => rfl⟩
  · obtain ⟨x,hc⟩ := h.sound.unmapRangeIn (root_mem ht h0) fun i hi => hu _ (pageAt_mem hi)
    rw [if_neg hbad]
    exact ⟨x,h.calledMem hc.sound hc.touched.unchanged,hc.loss⟩

theorem sysMprotect_called {write : Bool} (hu : ∀ w ∈ pageList addr (pagesOf length), UserAddr w) :
    Called k s (sysMprotect s t addr length write).1 t lost 0 := by
  rw [sysMprotect,if_neg h0]
  split_ifs with hbad
  · exact h.unchanged t
  obtain ⟨hs,htouch⟩ := h.sound.protectPages (root_mem ht h0) write
    fun i hi => hu _ (pageAt_mem hi)
  refine h.calledMem ?_ htouch.unchanged
  rw [zero_add]
  exact hs

end Ranges

/-- The tables the processes other than `t` run on. -/
def Sys.otherRoots (s : Sys) (t : Nat) : Finset Nat :=
  ((s.live.erase t).image fun u => (s.proc u).cr3).erase 0

theorem mem_otherRoots {r : Nat} :
    r ∈ s.otherRoots t ↔ r ≠ 0 ∧ ∃ u ∈ s.live, u ≠ t ∧ (s.proc u).cr3 = r := by
  simp only [Sys.otherRoots,mem_erase,mem_image]
  constructor
  · rintro ⟨h0,u,⟨hne,hu⟩,rfl⟩
    exact ⟨h0,u,hu,hne,rfl⟩
  · rintro ⟨h0,u,hu,hne,rfl⟩
    exact ⟨h0,u,⟨hne,hu⟩,rfl⟩

theorem roots_eq_insert (ht : t ∈ s.live) (h0 : (s.proc t).cr3 ≠ 0) :
    s.roots = insert (s.proc t).cr3 (s.otherRoots t) := by
  rw [Sys.roots,← insert_erase ht,image_insert,erase_insert_of_ne h0,
    Sys.otherRoots]

theorem otherRoots_congr (hlive : s'.live = s.live) (hprocs : ∀ u, u ≠ t → s'.proc u = s.proc u) :
    s'.otherRoots t = s.otherRoots t := by
  rw [Sys.otherRoots,Sys.otherRoots,hlive,image_congr]
  intro u hu
  show (s'.proc u).cr3 = (s.proc u).cr3
  rw [hprocs u (ne_of_mem_erase hu)]

section Moving

variable (h : Housed k s lost) (ht : t ∈ s.live)
include h ht

theorem Housed.last (h0 : (s.proc t).cr3 ≠ 0) (hmm : (s.proc t).mmCount = none) :
    (s.proc t).cr3 ∉ s.otherRoots t := by
  intro h1
  obtain ⟨-,u,hu,hut,hsame⟩ := mem_otherRoots.mp h1
  exact hut (h.sole t ht h0 hmm u hu hsame)

/-- A process that moves to a table of its own, `rest` being what the others still run on. -/
theorem Housed.move {r : Nat} (hr0 : r ≠ 0) (hnew : r ∉ s.roots) (hlive : s'.live = s.live)
    (hprocs : ∀ u, u ≠ t → s'.proc u = s.proc u) (hcr3 : (s'.proc t).cr3 = r)
    (hs : Sound k s'.mem (insert r (s.otherRoots t)) (x+lost)) : Housed k s' (x+lost) where
  sound := by
    rw [roots_eq_insert (hlive ▸ ht) (by rw [hcr3]; exact hr0),hcr3,otherRoots_congr hlive hprocs]
    exact hs
  sole v hv h0 hnone w hw hsame := by
    have hold (u : Nat) (hu : u ∈ s.live) (hut : u ≠ t) (hu0 : (s'.proc u).cr3 ≠ 0) :
        (s'.proc u).cr3 ≠ r := by
      rintro rfl
      rw [hprocs u hut] at hnew hu0
      exact hnew (root_mem hu hu0)
    rw [hlive] at hv hw
    by_cases hvt : v = t
    · rw [hvt,hcr3] at hsame
      by_contra hwv
      rw [hvt] at hwv
      exact hold w hw hwv (by rw [hsame]; exact hr0) hsame
    by_cases hwt : w = t
    · rw [hwt,hcr3] at hsame
      exact absurd hsame.symm (hold v hv hvt h0)
    · rw [hprocs v hvt] at h0 hnone
      rw [hprocs v hvt,hprocs w hwt] at hsame
      exact h.sole v hv h0 hnone w hw hsame

theorem Housed.movedTo {p : Proc} {counts : Nat → Int} (hr0 : p.cr3 ≠ 0) (hnew : p.cr3 ∉ s.roots)
    (hmm : p.mmCount = none) (hs : Sound k m' (insert p.cr3 (s.otherRoots t)) (x+lost))
    (hothers : Unchanged k s.mem m' (s.roots.erase (s.proc t).cr3)) :
    Called k s { (s.setMem m').setProc t p with counts := counts } t lost x := by
  have hsame : (({ (s.setMem m').setProc t p with counts := counts } : Sys).proc t) = p :=
    setProc_same p
  have hother (u : Nat) (hu : u ≠ t) :
      (({ (s.setMem m').setProc t p with counts := counts } : Sys).proc u) = s.proc u :=
    setProc_other hu
  refine ⟨h.move ht hr0 hnew rfl hother (by rw [hsame]) hs,rfl,hother,hothers,?_,?_⟩
  · rw [hsame]
    exact .inr ⟨hr0,hnew⟩
  · rw [hsame]
    exact .inr hmm

/-- The address spaces after execve moved `t` to the fresh table `r`: without a counter the old
table is destroyed, and with one it stays for the others or is lost. -/
theorem ExecLoaded.left {m1 : Mem} {r old : Nat} {prog : Program}
    (h0 : (s.proc t).cr3 ≠ 0) (hr0 : r ≠ 0) (hnew : r ∉ s.roots)
    (hold : (s.proc t).mmCount = none ∧ old = (s.proc t).cr3 ∨ (s.proc t).mmCount ≠ none ∧ old = 0)
    (hload : ExecLoaded k m1 m' (insert r s.roots) lost x r old prog) :
    ∃ y, Sound k m' (insert r (s.otherRoots t)) (y+lost) ∧
      ((s.proc t).mmCount = none → y = x) := by
  have hroots := roots_eq_insert ht h0
  have hne : r ≠ (s.proc t).cr3 := fun h1 => hnew (h1 ▸ root_mem ht h0)
  have hs := hload.sound
  rcases hold with ⟨hmm,rfl⟩ | ⟨hmm,rfl⟩
  · rw [erase_insert_of_ne hne,hroots,erase_insert (h.last ht h0 hmm)] at hs
    exact ⟨x,hs,fun _ => rfl⟩
  have hno : 0 ∉ insert r s.roots := fun h1 => (mem_insert.mp h1).elim
    (fun h2 => hr0 h2.symm) fun h2 => h.sound.root_ne_zero h2 rfl
  rw [erase_eq_of_notMem hno] at hs
  by_cases hlast : (s.proc t).cr3 ∈ s.otherRoots t
  · rw [hroots,insert_eq_of_mem hlast] at hs
    exact ⟨x,hs,fun _ => rfl⟩
  · have hs' := hs.abandon (mem_insert_of_mem (root_mem ht h0))
    rw [erase_insert_of_ne hne,hroots,erase_insert hlast,← add_assoc] at hs'
    exact ⟨_,hs',fun h1 => absurd h1 hmm⟩

theorem elfExecve_called {prog : Program} (h0 : (s.proc t).cr3 ≠ 0) (hu : prog.InUser) :
    ∃ x, Called k s (elfExecve s t (.ok prog)).1 t lost x ∧
      ((s.proc t).mmCount = none → 2 ≤ s.mem.pmm.free.card → Apart prog.pages → x = 0) := by
  have hout := elfExecve_outcome h ht h0 hu
  generalize elfExecve s t (.ok prog) = o at hout
  cases hout with
  | @reused m0 m1 m' x y rc hcard hunch hreset hload =>
    have hno : 0 ∉ s.roots := fun h1 => h.sound.root_ne_zero h1 rfl
    have hsound : Sound k m' s.roots ((x+y) + lost) := by
      rw [add_assoc,← erase_eq_of_notMem hno]
      exact hload.sound
    have hothers : Unchanged k m1 m' (s.roots.erase (s.proc t).cr3) := by
      have := hload.others
      rwa [erase_eq_of_notMem hno] at this
    refine ⟨_,h.called hsound rfl rfl ?_,fun _ h2 => by omega⟩
    exact ((hunch.subset (erase_subset _ _)).trans hreset.touched.unchanged).trans hothers
  | @fresh m1 m' r old x rc counts hr0 hnew hunch hnone hold hload =>
    have hold' : (s.proc t).mmCount = none ∧ old = (s.proc t).cr3 ∨
        (s.proc t).mmCount ≠ none ∧ old = 0 := by
      rcases hold with ⟨hmm,ho,-⟩ | ⟨c,hmm,ho,-⟩
      · exact .inl ⟨hmm,ho⟩
      · exact .inr ⟨by rw [hmm]; exact Option.some_ne_none c,ho⟩
    obtain ⟨y,hs,hy⟩ := hload.left h ht h0 hr0 hnew hold'
    have hsub : s.roots.erase (s.proc t).cr3 ⊆ ((insert r s.roots).erase old).erase r := by
      intro u hu
      have hur := mem_of_mem_erase hu
      refine mem_erase.mpr ⟨fun h1 => hnew (h1 ▸ hur),mem_erase.mpr ⟨?_,
        mem_insert_of_mem hur⟩⟩
      rcases hold' with ⟨-,rfl⟩ | ⟨-,rfl⟩
      · exact ne_of_mem_erase hu
      · exact h.sound.root_ne_zero hur
    have hothers : Unchanged k s.mem m' (s.roots.erase (s.proc t).cr3) :=
      (hunch.subset (erase_subset _ _)).trans (hload.others.subset hsub)
    refine ⟨y,h.movedTo ht hr0 hnew rfl hs hothers,fun hmm _ hap => ?_⟩
    rw [hy hmm]
    exact hload.loss ⟨hap,fun q _ => hnone q.virt⟩

end Moving

/-- A memory call of process `t`. -/
def Event.MemoryCall (t : Nat) : Event → Prop
  | .brk u _ => u = t
  | .mmap u _ _ _ _ _ => u = t
  | .munmap u _ _ => u = t
  | .mprotect u _ _ _ => u = t
  | .execve u _ => u = t
  | _ => False

/-- The pages a call maps, unmaps or protects, and the addresses its relocation stores to. -/
def Event.pages (s : Sys) : Event → List Nat
  | .brk t addr => brkPages s t addr
  | .mmap t addr length _ fixed src => mmapRange s t addr length fixed src
  | .munmap _ addr length => pageList addr (pagesOf length)
  | .mprotect _ addr length _ => pageList addr (pagesOf length)
  | .execve _ (.ok prog) => prog.reqs.map PageReq.virt ++ prog.targets
  | _ => []

/-- The source of a mapping, where the call makes one. -/
def Event.Outside (k : Machine) : Event → Prop
  | .mmap _ _ _ _ _ src => src.Outside k
  | _ => True

/-- The call works on user addresses only, and a device it maps is not memory. -/
structure Event.InUser (k : Machine) (s : Sys) (e : Event) : Prop where
  pages : ∀ w ∈ e.pages s, UserAddr w
  device : e.Outside k

/-- None of the pages is mapped in the address space of the caller. -/
def Sys.Clear (s : Sys) (t : Nat) (l : List Nat) : Prop :=
  ∀ w ∈ l, mapping s.mem.table (s.proc t).cr3 w = none

/-- The frames that an execve may take beside those of its pages and their tables: a page table of
its own, and the buffers of the image, the interpreter and the arguments. -/
def EXEC_FRAMES : Nat := 2+2 * 4096+35

/-- The call gives up no page: it maps and unmaps only where nothing is mapped, mmap has memory
enough not to have to undo its work, and execve has memory for all it takes and a program that asks
for no page twice. -/
def Event.Thrifty (s : Sys) : Event → Prop
  | .brk t addr => s.Clear t (brkPages s t addr)
  | .mmap t addr length _ fixed src => s.Clear t (mmapRange s t addr length fixed src) ∧
      4 * pagesOf length ≤ s.mem.pmm.free.card
  | .munmap t addr length => s.Clear t (pageList addr (pagesOf length))
  | .execve t (.ok prog) => (s.proc t).mmCount = none ∧
      EXEC_FRAMES+4 * prog.pages.length ≤ s.mem.pmm.free.card ∧ Apart prog.pages
  | _ => True

theorem Sys.Clear.unused {l : List Nat} (h : s.Clear t l) (hh : Housed k s lost) (ht : t ∈ s.live)
    (h0 : (s.proc t).cr3 ≠ 0) (hu : ∀ w ∈ l, UserAddr w) : s.Unused k t l := by
  intro w hw
  have hmap := h w hw
  rw [hh.sound.mapping_user (root_mem ht h0) (hu w hw)] at hmap
  exact Option.map_eq_none_iff.mp hmap

/-- The process runs when a call of its own is made. -/
theorem runs_of_step {r : Sys} (hr : (if s.Runs t then some r else none) = some s') :
    t ∈ s.live ∧ r = s' := by
  by_cases hrun : s.Runs t
  · rw [if_pos hrun] at hr
    exact ⟨hrun.1,Option.some.inj hr⟩
  · rw [if_neg hrun] at hr
    cases hr

/-- A thread without an address space has no memory calls to make. -/
theorem step_noSpace {e : Event} (h0 : (s.proc t).cr3 = 0) (hcall : e.MemoryCall t)
    (hstep : step s e = some s') : s' = s := by
  cases e with
  | brk u addr =>
    obtain rfl : u = t := hcall
    obtain ⟨-,rfl⟩ := runs_of_step hstep
    rw [sysBrk,if_pos h0]
  | mmap u addr length write fixed src =>
    obtain rfl : u = t := hcall
    obtain ⟨-,rfl⟩ := runs_of_step hstep
    rw [sysMmap,if_pos h0]
  | munmap u addr length =>
    obtain rfl : u = t := hcall
    obtain ⟨-,rfl⟩ := runs_of_step hstep
    rw [sysMunmap,if_pos h0]
  | mprotect u addr length write =>
    obtain rfl : u = t := hcall
    obtain ⟨-,rfl⟩ := runs_of_step hstep
    rw [sysMprotect,if_pos h0]
  | execve u prog =>
    obtain rfl : u = t := hcall
    obtain ⟨-,rfl⟩ := runs_of_step hstep
    rw [elfExecve.eq_def,if_pos h0]
  | create ok | fork u ok | clone u shareVm luck | exit u | reap u => exact hcall.elim

/-- A memory call that works on user addresses touches its own address space only, and loses no
frame if it is thrifty. -/
theorem step_called {e : Event} (h : Housed k s lost) (hcall : e.MemoryCall t)
    (hu : e.InUser k s) (hstep : step s e = some s') :
    ∃ x, Called k s s' t lost x ∧ (e.Thrifty s → x = 0) := by
  by_cases h0 : (s.proc t).cr3 = 0
  · rw [step_noSpace h0 hcall hstep]
    exact ⟨0,h.unchanged t,fun _ => rfl⟩
  cases e with
  | brk u addr =>
    obtain rfl : u = t := hcall
    obtain ⟨ht,rfl⟩ := runs_of_step hstep
    obtain ⟨x,hc,hx⟩ := sysBrk_called h ht h0 hu.pages
    exact ⟨x,hc,fun hclear => hx (hclear.unused h ht h0 hu.pages)⟩
  | mmap u addr length write fixed src =>
    obtain rfl : u = t := hcall
    obtain ⟨ht,rfl⟩ := runs_of_step hstep
    obtain ⟨x,hc,hx⟩ := sysMmap_called h ht h0 hu.device hu.pages
    exact ⟨x,hc,fun hth => hx (hth.1.unused h ht h0 hu.pages) hth.2⟩
  | munmap u addr length =>
    obtain rfl : u = t := hcall
    obtain ⟨ht,rfl⟩ := runs_of_step hstep
    obtain ⟨x,hc,hx⟩ := sysMunmap_called h ht h0 hu.pages
    exact ⟨x,hc,fun hclear => hx (hclear.unused h ht h0 hu.pages)⟩
  | mprotect u addr length write =>
    obtain rfl : u = t := hcall
    obtain ⟨ht,rfl⟩ := runs_of_step hstep
    exact ⟨0,sysMprotect_called h ht h0 hu.pages,fun _ => rfl⟩
  | execve u prog =>
    obtain rfl : u = t := hcall
    obtain ⟨ht,rfl⟩ := runs_of_step hstep
    cases prog with
    | error rc =>
      rw [elfExecve,if_neg h0]
      exact ⟨0,h.unchanged u,fun _ => rfl⟩
    | ok prog =>
      obtain ⟨x,hc,hx⟩ := elfExecve_called h ht h0
        ⟨fun q hq => hu.pages q.virt (List.mem_append_left _ (List.mem_map_of_mem hq)),
          fun v hv => hu.pages v (List.mem_append_right _ hv)⟩
      refine ⟨x,hc,?_⟩
      rintro ⟨hmm,hroom,hap⟩
      refine hx hmm ?_ hap
      rw [EXEC_FRAMES] at hroom
      omega
  | create ok | fork u ok | clone u shareVm luck | exit u | reap u => exact hcall.elim

theorem spawn_new (p : Proc) : (s.spawn p).proc s.nextTid = p := by
  show update s.proc s.nextTid p s.nextTid = p
  rw [update_self]

variable {p : Proc}

theorem spawn_old (hu : u ∈ s.live) : (s.spawn p).proc u = s.proc u := by
  show update s.proc s.nextTid p u = s.proc u
  rw [update_of_ne (Nat.ne_of_lt (s.live_lt u hu))]

theorem mem_spawn : u ∈ (s.spawn p).live ↔ u = s.nextTid ∨ u ∈ s.live :=
  mem_insert

theorem spawn_roots (h0 : p.cr3 ≠ 0) : (s.spawn p).roots = insert p.cr3 s.roots := by
  have hold : (s.live.image fun u => ((s.spawn p).proc u).cr3) = s.live.image fun u => (s.proc u).cr3 :=
    image_congr fun u hu => congrArg Proc.cr3 (spawn_old hu)
  have hlive : (s.spawn p).live = insert s.nextTid s.live := rfl
  rw [Sys.roots,hlive,image_insert,spawn_new,hold,erase_insert_of_ne h0,Sys.roots]

section Events

variable (h : Housed k s lost)
include h

theorem Housed.spawn {p : Proc} (h0 : p.cr3 ≠ 0) (hnew : p.cr3 ∉ s.roots)
    (hs : Sound k m' (insert p.cr3 s.roots) lost) : Housed k ((s.setMem m').spawn p) lost where
  sound := by
    have hroots : ((s.setMem m').spawn p).roots = insert p.cr3 s.roots :=
      spawn_roots h0
    rw [hroots]
    exact hs
  sole v hv hv0 hnone w hw hsame := by
    have hold {u : Nat} (hu : u ∈ s.live) : ((s.setMem m').spawn p).proc u = s.proc u :=
      spawn_old hu
    have hnewp : ((s.setMem m').spawn p).proc s.nextTid = p := spawn_new p
    have hapart {u : Nat} (hu : u ∈ s.live) (hu0 : (s.proc u).cr3 ≠ 0) : (s.proc u).cr3 ≠ p.cr3 :=
      fun h1 => hnew (h1 ▸ root_mem hu hu0)
    rcases mem_spawn.mp hv with rfl | hv
    · have hsame : (((s.setMem m').spawn p).proc w).cr3 = p.cr3 := by
        rw [hsame]
        exact congrArg Proc.cr3 hnewp
      rcases mem_spawn.mp hw with rfl | hw
      · rfl
      · have hw : w ∈ s.live := hw
        rw [hold hw] at hsame
        exact absurd hsame (hapart hw (by rw [hsame]; exact h0))
    · have hv : v ∈ s.live := hv
      rw [hold hv] at hv0 hnone hsame
      rcases mem_spawn.mp hw with rfl | hw
      · have hpv : p.cr3 = (s.proc v).cr3 := (congrArg Proc.cr3 hnewp).symm.trans hsame
        exact absurd hpv.symm (hapart hv hv0)
      · have hw : w ∈ s.live := hw
        rw [hold hw] at hsame
        exact h.sole v hv hv0 hnone w hw hsame

/-- What the making of a process does. A new one has the counter `mm`. -/
structure Born (k : Machine) (s s' : Sys) (lost : Multiset Nat) (mm : Option Nat) : Prop where
  housed : Housed k s' lost
  live : ∀ u, u ∈ s.live → u ∈ s'.live
  fresh : ∀ u ∈ s'.live, u ∉ s.live → (s'.proc u).mmCount = mm
  procs : ∀ u ∈ s.live, s'.proc u = s.proc u
  others : Unchanged k s.mem s'.mem s.roots

theorem Housed.stay {mm : Option Nat} (hs : Sound k m' s.roots lost)
    (hothers : Unchanged k s.mem m' s.roots) : Born k s (s.setMem m') lost mm :=
  ⟨⟨hs,h.sole⟩,fun _ hu => hu,fun _ hu hno => absurd hu hno,fun _ _ => rfl,hothers⟩

theorem Housed.born {p : Proc} (h0 : p.cr3 ≠ 0) (hnew : p.cr3 ∉ s.roots)
    (hs : Sound k m' (insert p.cr3 s.roots) lost) (hothers : Unchanged k s.mem m' s.roots) :
    Born k s ((s.setMem m').spawn p) lost p.mmCount where
  housed := h.spawn h0 hnew hs
  live _ hu := mem_insert_of_mem hu
  fresh u hu hno := by
    rcases mem_spawn.mp hu with rfl | hu
    · exact congrArg Proc.mmCount (spawn_new p)
    · exact absurd hu hno
  procs u hu := spawn_old hu
  others := hothers

theorem processCreateUser_born (ok : Bool) : Born k s (processCreateUser s ok) lost none := by
  have hmade := h.sound.newSpace
  rw [processCreateUser]
  generalize vmmCloneKernelPagetable s.mem = o at hmade
  cases hmade with
  | fail hc hs hunch hfree =>
    rw [if_pos rfl]
    exact h.stay hs hunch
  | @done m1 r hr0 hnew hs hunch hnone =>
    rw [if_neg hr0]
    cases ok with
    | true => exact h.born hr0 hnew hs hunch
    | false =>
      obtain ⟨hs',hf⟩ := hs.destroy (mem_insert_self r s.roots)
      rw [erase_insert hnew] at hs'
      exact h.stay hs' (hunch.trans (hf.unchanged _))

/-- What a child with a copy of the address space comes to: a failure that may lose the frames `x`,
or the child. -/
inductive CopyOutcome (k : Machine) (s : Sys) (lost : Multiset Nat) (t : Nat) (mm : Option Nat)
    (ok clean : Bool) : Sys → Prop
  | failed {m' : Mem} {x : Multiset Nat} : (ok = true ∨ clean = true → x = 0) →
      Sound k m' s.roots (x+lost) → Unchanged k s.mem m' s.roots →
      CopyOutcome k s lost t mm ok clean (s.setMem m')
  | child {m' : Mem} {c : Nat} : c ≠ 0 → c ∉ s.roots →
      Sound k m' (insert c s.roots) lost → Unchanged k s.mem m' s.roots →
      (∀ q, q.length = 4 → view k m' [] c q = view k s.mem [] (s.proc t).cr3 q) →
      CopyOutcome k s lost t mm ok clean ((s.setMem m').spawn { s.proc t with cr3 := c, mmCount := mm })

section Copied

variable (ht : t ∈ s.live) (h0 : (s.proc t).cr3 ≠ 0) (mm : Option Nat)
include ht h0

theorem copied_outcome (ok clean : Bool) :
    CopyOutcome k s lost t mm ok clean (s.copied t mm ok clean) := by
  have hcopy := h.sound.copySpace (root_mem ht h0)
  rw [Sys.copied]
  generalize vmmClonePagetable s.mem (s.proc t).cr3 = o at hcopy
  cases hcopy with
  | fail hs hunch hfree =>
    rw [if_pos rfl]
    exact .failed (fun _ => rfl) (by rwa [zero_add]) hunch
  | @done m1 c hc0 hnew hs hunch hview =>
    rw [if_neg hc0]
    cases ok with
    | true => exact .child hc0 hnew hs hunch hview
    | false =>
      cases clean with
      | true =>
        obtain ⟨hs',hf⟩ := hs.destroy (mem_insert_self c s.roots)
        rw [erase_insert hnew] at hs'
        exact .failed (fun _ => rfl) (by rwa [zero_add]) (hunch.trans (hf.unchanged _))
      | false =>
        -- only the top-level table is given back
        have hleft := hs.abandon (mem_insert_self c s.roots)
        rw [erase_insert hnew,owned_succ,add_assoc] at hleft
        obtain ⟨hs',hf⟩ := hleft.gave
        exact .failed (fun hor => by simp at hor) hs' (hunch.trans (hf.unchanged _))

theorem copied_born {ok clean : Bool} (hok : ok = true ∨ clean = true) :
    Born k s (s.copied t mm ok clean) lost mm := by
  have hout := copied_outcome h ht h0 mm ok clean
  generalize s.copied t mm ok clean = s' at hout
  cases hout with
  | failed hx hs hunch =>
    rw [hx hok,zero_add] at hs
    exact h.stay hs hunch
  | child hc0 hnew hs hunch _ => exact h.born hc0 hnew hs hunch

end Copied

theorem Housed.same (mm : Option Nat) : Born k s s lost mm := h.stay h.sound (Unchanged.refl _ _)

theorem processFork_born (ht : t ∈ s.live) :
    Born k s (processFork s t true) lost (s.proc t).mmCount := by
  rw [processFork]
  split
  · exact h.same _
  · exact copied_born h ht ‹_› _ (.inl rfl)

theorem processClone_born {luck : Luck} (ht : t ∈ s.live) (hk : luck.kstack ∧ luck.thread) :
    Born k s (processClone s t false luck) lost none := by
  rw [processClone]
  split
  · exact h.same _
  · exact copied_born h ht ‹_› none (.inr (by rw [hk.1,hk.2]; rfl))

theorem Housed.promote (t : Nat) : Housed k (s.promote t) lost := by
  have hold (u : Nat) (hut : u ≠ t) : (s.promote t).proc u = s.proc u := setProc_other hut
  have hnew : (s.promote t).proc t = { s.proc t with mmCount := some s.nextCount } := setProc_same _
  have hcr3 (u : Nat) : ((s.promote t).proc u).cr3 = (s.proc u).cr3 := by
    by_cases hut : u = t
    · rw [hut,hnew]
    · rw [hold u hut]
  have hroots : (s.promote t).roots = s.roots := roots_congr rfl fun u _ => hcr3 u
  refine ⟨by rw [hroots]; exact h.sound,fun v hv hv0 hnone w hw heq => ?_⟩
  have hvt : v ≠ t := by
    rintro rfl
    rw [hnew] at hnone
    cases hnone
  rw [hcr3] at hv0
  rw [hcr3,hcr3] at heq
  rw [hold v hvt] at hnone
  exact h.sole v hv hv0 hnone w hw heq

/-- A thread that joins a counted address space. -/
theorem Housed.joined {counts : Nat → Int} (ht : t ∈ s.live) (h0 : (s.proc t).cr3 ≠ 0)
    (hc : (s.proc t).mmCount ≠ none) (hp : p.cr3 = (s.proc t).cr3) (hpc : p.mmCount ≠ none) :
    Housed k (({ s with counts := counts } : Sys).spawn p) lost := by
  have hold {u : Nat} (hu : u ∈ s.live) :
      (({ s with counts := counts } : Sys).spawn p).proc u = s.proc u := spawn_old hu
  have hnew : (({ s with counts := counts } : Sys).spawn p).proc s.nextTid = p := spawn_new p
  have hroots : (({ s with counts := counts } : Sys).spawn p).roots = s.roots := by
    rw [spawn_roots (by rw [hp]; exact h0),hp]
    exact insert_eq_of_mem (root_mem ht h0)
  refine ⟨by rw [hroots]; exact h.sound,fun v hv hv0 hnone w hw heq => ?_⟩
  rcases mem_spawn.mp hv with rfl | hv
  · rw [hnew] at hnone
    exact absurd hnone hpc
  rw [hold hv] at hv0 hnone heq
  rcases mem_spawn.mp hw with rfl | hw
  -- the parent would be the only user of a space without a counter
  · rw [hnew,hp] at heq
    rw [← h.sole v hv hv0 hnone t ht heq] at hnone
    exact absurd hnone hc
  · rw [hold hw] at heq
    exact h.sole v hv hv0 hnone w hw heq

theorem Housed.share {c : Nat} {luck : Luck} (ht : t ∈ s.live) (h0 : (s.proc t).cr3 ≠ 0)
    (hc : (s.proc t).mmCount = some c) : Housed k (s.share t c luck) lost := by
  rw [Sys.share]
  split
  · exact h.joined ht h0 (by rw [hc]; exact nofun) rfl nofun
  · exact h

theorem processClone_shared (luck : Luck) (ht : t ∈ s.live) :
    Housed k (processClone s t true luck) lost := by
  rw [processClone]
  split
  · exact h
  rename_i h0
  rw [if_pos rfl]
  cases hm : (s.proc t).mmCount with
  | some c => exact h.share ht h0 hm
  | none =>
    dsimp only
    split
    · have hnew : (s.promote t).proc t = { s.proc t with mmCount := some s.nextCount } := setProc_same _
      exact (h.promote t).share ht (by rw [hnew]; exact h0) (by rw [hnew])
    · exact h

/-- A counter that tells whether the zombie is the last user keeps the address spaces. -/
theorem reap_housed (ht : t ∈ s.live) (hcount : ∀ c, (s.proc t).mmCount = some c →
      (s.counts c = 1 ↔ (s.proc t).cr3 ∉ s.otherRoots t)) :
    Housed k (reap s t) lost ∧ (reap s t).live = s.live.erase t ∧ (reap s t).proc = s.proc ∧
      Unchanged k s.mem (reap s t).mem (s.otherRoots t) := by
  have hsole : ∀ v ∈ s.live.erase t, (s.proc v).cr3 ≠ 0 → (s.proc v).mmCount = none →
      ∀ w ∈ s.live.erase t, (s.proc w).cr3 = (s.proc v).cr3 → w = v :=
    fun v hv hv0 hnone w hw => h.sole v (mem_of_mem_erase hv) hv0 hnone w
      (mem_of_mem_erase hw)
  rw [reap]
  split_ifs with h0
  · have hroots : s.otherRoots t = s.roots := by
      rw [Sys.roots,← insert_erase ht,image_insert,h0,erase_insert_eq_erase,
        Sys.otherRoots]
    refine ⟨⟨?_,hsole⟩,rfl,rfl,Unchanged.refl _ _⟩
    show Sound k s.mem (s.otherRoots t) lost
    rw [hroots]
    exact h.sound
  have hroots := roots_eq_insert ht h0
  obtain ⟨hs,hf⟩ := h.sound.destroy (root_mem ht h0)
  cases hm : (s.proc t).mmCount with
  | none =>
    rw [hroots,erase_insert (h.last ht h0 hm)] at hs
    exact ⟨⟨hs,hsole⟩,rfl,rfl,hf.unchanged _⟩
  | some c =>
    dsimp only
    split
    · rw [hroots,erase_insert ((hcount c hm).mp ‹_›)] at hs
      exact ⟨⟨hs,hsole⟩,rfl,rfl,hf.unchanged _⟩
    · have hmore : (s.proc t).cr3 ∈ s.otherRoots t := by
        by_contra hno
        exact absurd ((hcount c hm).mpr hno) ‹_›
      have hs := h.sound
      rw [hroots,insert_eq_of_mem hmore] at hs
      exact ⟨⟨hs,hsole⟩,rfl,rfl,Unchanged.refl _ _⟩

end Events

end Lariat.Mm
