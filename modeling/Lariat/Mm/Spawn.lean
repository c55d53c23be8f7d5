import Lariat.Mm.ForkCopy

/-! `process_fork` and `process_clone` in full, with everything a failure has to undo: frames,
kernel objects, the parent's list of children and the reference counts. -/
namespace Lariat.Mm

open Foundation.TableTree Reader Finset Function Nat

def FD_MAX : Nat := 256

structure FdTable where
  files : Fin FD_MAX → Option Nat
  refCount : Int

/-- The fields of a thread that fork and clone read or set. -/
structure Task where
  cr3 : Nat
  mmCount : Option Nat
  fdt : Option Nat
  children : List Nat

/-- How the kernel heap answers a request: not at all, with an object it has spare, or with one
from a page it takes from the allocator for good. -/
inductive Grant
  | fail
  | cached
  | page
deriving DecidableEq

/-- The answers to the kernel's own requests for a new thread. -/
structure Grants where
  counter : Grant := .cached
  kstack : Bool := true
  thread : Grant := .cached
  fdt : Grant := .page

/-- Memory, the live objects of the kernel, and what the threads, counters, descriptor tables and
open files among them hold. Kernel stacks are counted among the objects. -/
structure Kstate where
  mem : Mem
  objects : Finset Nat
  task : Nat → Task
  count : Nat → Int
  table : Nat → FdTable
  fileRefs : Nat → Int
  nextObject : Nat
  objects_lt : ∀ o ∈ objects, o < nextObject

namespace Kstate

variable (s : Kstate)

def setMem (m : Mem) : Kstate := { s with mem := m }

def setTask (t : Nat) (p : Task) : Kstate := { s with task := update s.task t p }

def addCount (c : Nat) (n : Int) : Kstate :=
  { s with count := update s.count c (s.count c + n) }

def newObject : Kstate × Option Nat :=
  ({ s with
    objects := insert s.nextObject s.objects
    nextObject := s.nextObject+1
    objects_lt := fun o ho => by
      rcases mem_insert.mp ho with rfl | ho
      · exact lt_succ_self _
      · exact lt_succ_of_lt (s.objects_lt o ho) },some s.nextObject)

def kfree (o : Nat) : Kstate :=
  { s with
    objects := s.objects.erase o
    objects_lt := fun u hu => s.objects_lt u (mem_of_mem_erase hu) }

def kzalloc : Grant → Kstate × Option Nat
  | .fail => (s,none)
  | .cached => s.newObject
  | .page =>
    if s.mem.alloc.2 = 0 then (s.setMem s.mem.alloc.1,none) else (s.setMem s.mem.alloc.1).newObject

def allocPages (ok : Bool) : Kstate × Option Nat := if ok then s.newObject else (s,none)

def freePages (o : Nat) : Kstate := s.kfree o

def pmmFreePage (f : Nat) : Kstate := s.setMem (s.mem.freePage f)

/-- The loop of `fd_table_clone`: every open file gets another reference. -/
def cloneFiles (files : Fin FD_MAX → Option Nat) : Kstate :=
  { s with
    fileRefs := (List.finRange FD_MAX).foldl (fun refs i =>
      (files i).elim refs fun f => update refs f (refs f + 1)) s.fileRefs }

def fdTableClone (fdt : Option Nat) (g : Grant) : Kstate × Option Nat :=
  match fdt with
  | none => (s,none)
  | some o =>
    match s.kzalloc g with
    | (s,none) => (s,none)
    | (s,some n) =>
      ({ s.cloneFiles (s.table o).files with
        table := update s.table n ⟨(s.table o).files,1⟩ },some n)

/-- The child's copy of its parent, at the head of the parent's list. -/
def link (parent child : Nat) (p : Task) : Kstate :=
  (s.setTask child { p with children := [] }).setTask parent
    { s.task parent with children := child :: (s.task parent).children }

def setFdt (t fdt : Nat) : Kstate := s.setTask t { s.task t with fdt := some fdt }

/-- The child's descriptor table: the parent's own, or a copy. -/
def cloneFdt (fdt : Option Nat) (shareFiles : Bool) (g : Grant) : Kstate × Option Nat :=
  if shareFiles then
    (fdt.elim s fun f => { s with
      table := update s.table f { s.table f with
        refCount := (s.table f).refCount + 1 } },fdt)
  else s.fdTableClone fdt g

/-- The last part of `process_fork`. A failure leaves the child in the parent's list. -/
def finishFork (parent kstack child pml4 : Nat) (p : Task) (g : Grants) : Kstate × Option Nat :=
  match (s.link parent child { p with cr3 := pml4 }).fdTableClone p.fdt g.fdt with
  | (s,none) => (((s.kfree child).freePages kstack).pmmFreePage pml4,none)
  | (s,some fdt) => (s.setFdt child fdt,some child)

def forkOnStack (parent kstack pml4 : Nat) (p : Task) (g : Grants) : Kstate × Option Nat :=
  match s.kzalloc g.thread with
  | (s,none) => ((s.freePages kstack).pmmFreePage pml4,none)
  | (s,some child) => s.finishFork parent kstack child pml4 p g

def processFork (parent : Nat) (g : Grants) : Kstate × Option Nat :=
  let p := s.task parent
  if p.cr3 = 0 then (s,none)
  else
    let r := vmmClonePagetable s.mem p.cr3
    if r.2 = 0 then (s.setMem r.1,none)
    else
      match (s.setMem r.1).allocPages g.kstack with
      | (s,none) => (s.pmmFreePage r.2,none)
      | (s,some kstack) => s.forkOnStack parent kstack r.2 p g

/-- The last part of `process_clone`. A failure gives the address space back with `undo` and takes
the child out of the parent's list. -/
def finishClone (parent kstack child : Nat) (p : Task) (shareFiles : Bool) (g : Grants)
    (undo : Kstate → Kstate) : Kstate × Option Nat :=
  match (s.link parent child p).cloneFdt p.fdt shareFiles g.fdt with
  | (s,none) =>
    let s := (undo s).freePages kstack
    ((s.setTask parent { s.task parent with
      children := (s.task parent).children.tail }).kfree child,none)
  | (s,some fdt) => (s.setFdt child fdt,some child)

def cloneOnStack (parent kstack : Nat) (p : Task) (shareFiles : Bool) (g : Grants)
    (undo undoLate : Kstate → Kstate) : Kstate × Option Nat :=
  match s.kzalloc g.thread with
  | (s,none) => (undo (s.freePages kstack),none)
  | (s,some child) => s.finishClone parent kstack child p shareFiles g undoLate

/-- `process_clone` once the address space is there; `undo` gives it back when there is no kernel
stack or thread, `undoLate` when there is no descriptor table. -/
def cloneThread (parent : Nat) (p : Task) (shareFiles : Bool) (g : Grants)
    (undo undoLate : Kstate → Kstate) : Kstate × Option Nat :=
  match s.allocPages g.kstack with
  | (s,none) => (undo s,none)
  | (s,some kstack) => s.cloneOnStack parent kstack p shareFiles g undo undoLate

/-- The parent's counter, made when it first shares its address space. -/
def promote (parent c : Nat) : Kstate :=
  { s with count := update s.count c 1 }.setTask parent
    { s.task parent with mmCount := some c }

/-- A clone onto the parent's address space, which counter `c` counts the users of. -/
def cloneShared (parent c : Nat) (shareFiles : Bool) (g : Grants) : Kstate × Option Nat :=
  (s.addCount c 1).cloneThread parent (s.task parent) shareFiles g (·.addCount c (-1))
    (·.addCount c (-1))

def processClone (parent : Nat) (shareVm shareFiles : Bool) (g : Grants) : Kstate × Option Nat :=
  let p := s.task parent
  if p.cr3 = 0 then (s,none)
  else if shareVm then
    match p.mmCount with
    | some c => s.cloneShared parent c shareFiles g
    | none =>
      match s.kzalloc g.counter with
      | (s,none) => (s,none)
      | (s,some c) => (s.promote parent c).cloneShared parent c shareFiles g
  else
    let r := vmmClonePagetable s.mem p.cr3
    if r.2 = 0 then (s.setMem r.1,none)
    else
      (s.setMem r.1).cloneThread parent { p with cr3 := r.2, mmCount := none } shareFiles g
        (·.pmmFreePage r.2) fun s => s.setMem (vmmDestroyPagetable s.mem r.2)

/-- How many threads a thread's counter counts. A thread without one is alone. -/
def counted (t : Nat) : Int := (s.task t).mmCount.elim 1 s.count

end Kstate

/-- Nothing a failed call has to leave alone has changed. -/
structure NoEffect (s s' : Kstate) (parent : Nat) : Prop where
  frames : s'.mem.pmm.free = s.mem.pmm.free
  objects : s'.objects = s.objects
  children : (s'.task parent).children = (s.task parent).children
  files : s'.fileRefs = s.fileRefs
  tables : ∀ f, (s.task parent).fdt = some f → (s'.table f).refCount = (s.table f).refCount
  counted : s'.counted parent = s.counted parent

variable {k : Machine} {s s' : Kstate} {parent : Nat} {g : Grants}

/-- What a request to the kernel heap can do. -/
inductive Granted (s : Kstate) (g : Grant) : Kstate × Option Nat → Prop
  | fail : g = .fail ∨ g = .page ∧ s.mem.pmm.free = ∅ → Granted s g (s,none)
  | cached : g = .cached → Granted s g s.newObject
  | page {m' : Mem} {f : Nat} : g = .page → m'.table = s.mem.table →
      s.mem.pmm.free.val = {f} + m'.pmm.free.val → Spent s.mem m' 1 →
      Granted s g (s.setMem m').newObject

theorem kzalloc_granted (h0 : 0 ∉ s.mem.pmm.free) (g : Grant) : Granted s g (s.kzalloc g) := by
  cases g with
  | fail => exact .fail (.inl rfl)
  | cached => exact .cached rfl
  | page =>
    have ht := alloc_took s.mem
    rw [Kstate.kzalloc]
    generalize s.mem.alloc = r at ht
    cases ht with
    | fail hfree => exact .fail (.inr ⟨rfl,hfree⟩)
    | @page m' f hf htable hbyte hval hspent =>
      have hf0 : f ≠ 0 := fun h => h0 (h ▸ hf)
      rw [if_neg hf0]
      exact .page rfl htable hval hspent

/-- The objects, lists and references are as they were. -/
structure Kept (s s' : Kstate) (parent : Nat) : Prop where
  objects : s'.objects = s.objects
  task : s'.task parent = s.task parent
  files : s'.fileRefs = s.fileRefs
  table : s'.table = s.table

theorem newObject_kfree (s : Kstate) : (s.newObject.1.kfree s.nextObject).objects = s.objects := by
  exact erase_insert fun h => lt_irrefl _ (s.objects_lt _ h)

theorem fdTableClone_failed (h0 : 0 ∉ s.mem.pmm.free) {fdt : Option Nat} {a : Grant}
    (h : s.fdTableClone fdt a = (s',none)) : s' = s := by
  cases fdt with
  | none =>
    cases h
    rfl
  | some o =>
    have hg := kzalloc_granted h0 a
    rw [Kstate.fdTableClone] at h
    generalize s.kzalloc a = r at hg h
    cases hg with
    | fail =>
      cases h
      rfl
    | cached | page => cases h

variable {shareFiles : Bool} {c : Nat}

theorem cloneFdt_failed (h0 : 0 ∉ s.mem.pmm.free) {fdt : Option Nat} {a : Grant}
    (h : s.cloneFdt fdt shareFiles a = (s',none)) : s' = s := by
  cases shareFiles with
  | true =>
    cases fdt with
    | none =>
      cases h
      rfl
    | some f => cases h
  | false => exact fdTableClone_failed h0 h

/-- A change of memory and counters alone. -/
def Kstate.adjust (s : Kstate) (m : Mem) (count : Nat → Int) : Kstate :=
  { s with mem := m, count := count }

theorem twice_kfree {objects : Finset Nat} {n : Nat} (h : ∀ o ∈ objects, o < n) :
    ((insert (n+1) (insert n objects)).erase n).erase (n+1) = objects := by
  have h1 : n ∉ objects := fun h0 => lt_irrefl n (h n h0)
  have h2 : n + 1 ∉ objects := fun h0 => not_succ_lt_self (h (n+1) h0)
  rw [erase_right_comm,erase_insert,erase_insert h1]
  rw [mem_insert]
  rintro (h0 | h0)
  · exact succ_ne_self n h0
  · exact h2 h0

section Clone

variable {shareFiles : Bool} {p : Task} {undo undoLate : Kstate → Kstate}
  {early late : Mem → Mem} {back : (Nat → Int) → Nat → Int}

/-- The child is unlinked and freed, its kernel stack too. -/
theorem finishClone_failed (m' : Mem) (h0 : 0 ∉ m'.pmm.free)
    (hl : ∀ s, undoLate s = s.adjust (late s.mem) (back s.count))
    (h : (s.newObject.1.setMem m').newObject.1.finishClone parent s.nextObject (s.nextObject+1) p
      shareFiles g undoLate = (s',none)) :
    Kept s s' parent ∧ s'.mem = late m' ∧ s'.count = back s.count := by
  rw [Kstate.finishClone] at h
  generalize hs3 : (s.newObject.1.setMem m').newObject.1.link parent (s.nextObject+1) p = s3 at h
  have hmem : s3.mem = m' := by
    rw [← hs3]
    rfl
  rcases hfdt : s3.cloneFdt p.fdt shareFiles g.fdt with ⟨s4,_ | fdt⟩
  · rw [hfdt] at h
    obtain rfl := cloneFdt_failed (by rw [hmem]; exact h0) hfdt
    cases h
    refine ⟨⟨?_,?_,?_,?_⟩,?_,?_⟩
    all_goals
      rw [hl,← hs3]
    · exact twice_kfree s.objects_lt
    · simp [Kstate.kfree,Kstate.freePages,Kstate.setTask,Kstate.adjust,Kstate.link,Kstate.setMem,
        Kstate.newObject]
    · rfl
    · rfl
    · rfl
    · rfl
  · rw [hfdt] at h
    cases h

section

variable (s : Kstate) (parent : Nat) (g : Grants) (early late : Mem → Mem)
  (back : (Nat → Int) → Nat → Int)

/-- How a clone fails once the address space is there. -/
inductive CloneFailed : Kstate → Prop
  | early {s' : Kstate} : Kept s s' parent → s'.mem = early s.mem → s'.count = back s.count →
      ¬(g.kstack = true ∧ g.thread = .cached) →
      ¬(g.kstack = true ∧ g.thread = .page ∧ s.mem.pmm.free ≠ ∅) → CloneFailed s'
  | late {s' : Kstate} : Kept s s' parent → s'.mem = late s.mem → s'.count = back s.count →
      g.kstack = true → g.thread = .cached → CloneFailed s'
  | latePage {s' : Kstate} {m' : Mem} {f : Nat} : Kept s s' parent → s'.mem = late m' →
      g.kstack = true → g.thread = .page → m'.table = s.mem.table →
      s.mem.pmm.free.val = {f} + m'.pmm.free.val → Spent s.mem m' 1 → CloneFailed s'

end

section

variable (h0 : 0 ∉ s.mem.pmm.free) (hu : ∀ s, undo s = s.adjust (early s.mem) (back s.count))
  (hl : ∀ s, undoLate s = s.adjust (late s.mem) (back s.count))
include h0 hu hl

theorem cloneOnStack_failed (hk : g.kstack = true)
    (h : s.newObject.1.cloneOnStack parent s.nextObject p shareFiles g undo undoLate = (s',none)) :
    CloneFailed s parent g early late back s' := by
  have hg := kzalloc_granted (s := s.newObject.1) h0 g.thread
  rw [Kstate.cloneOnStack] at h
  generalize s.newObject.1.kzalloc g.thread = r at hg h
  cases hg with
  | fail hfail =>
    cases h
    rw [hu]
    refine .early ⟨newObject_kfree s,rfl,rfl,rfl⟩ rfl rfl ?_ ?_
    · rintro ⟨-,hth⟩
      rw [hth] at hfail
      rcases hfail with h | ⟨h,-⟩
      · cases h
      · cases h
    · rintro ⟨-,hth,hne⟩
      rcases hfail with h | ⟨-,h⟩
      · rw [hth] at h
        cases h
      · exact hne h
  | cached hth =>
    obtain ⟨hkept,hmem,hcount⟩ := finishClone_failed s.mem h0 hl h
    exact .late hkept hmem hcount hk hth
  | @page m' f hth htable hval hspent =>
    obtain ⟨hkept,hmem,-⟩ := finishClone_failed m' (fun h => h0 (hspent.free h)) hl h
    exact .latePage hkept hmem hk hth htable hval hspent

theorem cloneThread_failed (h : s.cloneThread parent p shareFiles g undo undoLate = (s',none)) :
    CloneFailed s parent g early late back s' := by
  rw [Kstate.cloneThread,Kstate.allocPages] at h
  cases hk : g.kstack with
  | false =>
    rw [hk] at h
    cases h
    rw [hu]
    exact .early ⟨rfl,rfl,rfl,rfl⟩ rfl rfl (fun h => nomatch hk ▸ h.1) (fun h => nomatch hk ▸ h.1)
  | true =>
    rw [hk,if_pos rfl] at h
    exact cloneOnStack_failed h0 hu hl hk h

end

end Clone

theorem Kept.noEffect (h : Kept s s' parent) (hfree : s'.mem.pmm.free = s.mem.pmm.free)
    (hcount : s'.count = s.count) : NoEffect s s' parent where
  frames := hfree
  objects := h.objects
  children := by rw [h.task]
  files := h.files
  tables f _ := by rw [h.table]
  counted := by rw [Kstate.counted,Kstate.counted,h.task,hcount]

theorem freePage_subset (m : Mem) (f : Nat) :
    (m.freePage f).pmm.free ⊆ insert f m.pmm.free := by
  show (pmmFreePage m.pmm f).free ⊆ _
  by_cases hlt : f < m.pmm.totalPages
  · rw [pmmFreePage_free hlt]
  · rw [pmmFreePage_of_le (Nat.le_of_not_lt hlt)]
    exact subset_insert f _

/-- A fork that fails after the copy frees one frame of it. -/
theorem forkOnStack_failed {kstack pml4 : Nat} {p : Task} (h0 : 0 ∉ s.mem.pmm.free)
    (h : s.forkOnStack parent kstack pml4 p g = (s',none)) :
    s'.mem.pmm.free ⊆ insert pml4 s.mem.pmm.free := by
  have hg := kzalloc_granted h0 g.thread
  rw [Kstate.forkOnStack] at h
  generalize s.kzalloc g.thread = r at hg h
  -- the descriptor table is not there either, so the memory is what the heap left
  have hfinish (s1 : Kstate) {child : Nat} (hsub : s1.mem.pmm.free ⊆ s.mem.pmm.free)
      (h : s1.finishFork parent kstack child pml4 p g = (s',none)) :
      s'.mem.pmm.free ⊆ insert pml4 s.mem.pmm.free := by
    rw [Kstate.finishFork] at h
    rcases hfdt : (s1.link parent child { p with cr3 := pml4 }).fdTableClone p.fdt g.fdt with
      ⟨s2,_ | fdt⟩
    · rw [hfdt] at h
      have h1 : 0 ∉ (s1.link parent child { p with cr3 := pml4 }).mem.pmm.free := fun h1 => h0 (hsub h1)
      obtain rfl := fdTableClone_failed h1 hfdt
      cases h
      exact (freePage_subset s1.mem pml4).trans (insert_subset_insert pml4 hsub)
    · rw [hfdt] at h
      cases h
  cases hg with
  | fail =>
    cases h
    exact freePage_subset s.mem pml4
  | cached => exact hfinish s.newObject.1 (Finset.Subset.refl _) h
  | @page m' f hth htable hval hspent => exact hfinish (s.setMem m').newObject.1 hspent.free h

inductive SpawnCall
  | fork
  | clone (shareVm shareFiles : Bool)

def Kstate.spawn (s : Kstate) (parent : Nat) (g : Grants) : SpawnCall → Kstate × Option Nat
  | .fork => s.processFork parent g
  | .clone shareVm shareFiles => s.processClone parent shareVm shareFiles g

/-- The failures that undo what they did: no memory for a copy of the page tables, or for the
counter of an address space to share; and later ones in clone, where it shares an address space
that has a counter already or has got as far as the descriptor table, and the heap took no page for
the thread. -/
def SpawnCall.Clean (s : Kstate) (parent : Nat) (g : Grants) : SpawnCall → Prop
  | .fork => (s.task parent).cr3 = 0 ∨ (vmmClonePagetable s.mem (s.task parent).cr3).2 = 0
  | .clone false _ => (s.task parent).cr3 = 0 ∨
      (vmmClonePagetable s.mem (s.task parent).cr3).2 = 0 ∨
      g.kstack = true ∧ g.thread = .cached
  | .clone true _ => (s.task parent).cr3 = 0 ∨
      (s.task parent).mmCount = none ∧ (g.counter = .fail ∨ g.counter = .page ∧
        s.mem.pmm.free = ∅) ∨
      (s.task parent).mmCount ≠ none ∧
        ¬(g.kstack = true ∧ g.thread = .page ∧ s.mem.pmm.free ≠ ∅)

theorem spawn_refused (h0 : (s.task parent).cr3 = 0) (call : SpawnCall) :
    s.spawn parent g call = (s,none) ∧ call.Clean s parent g := by
  cases call with
  | fork => exact ⟨if_pos h0,.inl h0⟩
  | clone shareVm shareFiles => cases shareVm <;> exact ⟨if_pos h0,.inl h0⟩

theorem processFork_failed (h0 : (s.task parent).cr3 ≠ 0) (h : Source k s.mem 4 [] (s.task parent).cr3)
    (hrun : s.processFork parent g = (s',none)) :
    NoEffect s s' parent ↔ SpawnCall.fork.Clean s parent g := by
  rw [Kstate.processFork] at hrun
  rw [SpawnCall.Clean]
  rw [if_neg h0] at hrun
  have hcopy := vmmClonePagetable_cloned h
  generalize vmmClonePagetable s.mem (s.task parent).cr3 = r at hcopy hrun ⊢
  cases hcopy with
  | @fail m' hfree hw =>
    cases hrun
    exact iff_of_true (Kept.noEffect ⟨rfl,rfl,rfl,rfl⟩ hfree rfl) (.inr rfl)
  | @done m' c hc0 hmade =>
    rw [if_neg hc0] at hrun
    refine iff_of_false (fun hno => ?_) (by rintro (h1 | h1); exacts [h0 h1,hc0 h1])
    refine hmade.leaks ?_ hno.frames
    have hz : 0 ∉ m'.pmm.free := fun h1 => h.zero (hmade.free_subset h1)
    cases hk : g.kstack with
    | false =>
      rw [hk] at hrun
      cases hrun
      exact freePage_subset m' c
    | true =>
      rw [hk] at hrun
      exact forkOnStack_failed hz hrun

/-- A page the heap took is missing from the free frames. -/
theorem page_missing {free free' : Finset Nat} {f : Nat} (hval : free.val = {f} + free'.val) :
    f ∈ free ∧ f ∉ free' := by
  have hn : ({f} + free'.val).Nodup := by
    rw [← hval]
    exact free.nodup
  constructor
  · exact mem_val_left hval (Multiset.mem_singleton_self f)
  · exact Multiset.disjoint_left.mp (Multiset.nodup_add.mp hn).2.2 (Multiset.mem_singleton_self f)

/-- Destroying the copy does not bring back a page the heap took meanwhile. -/
theorem CopyMade.destroyed_page {m m' m'' : Mem} {r f : Nat} (h : Source k m 4 [] r)
    (hc : CopyMade k m m' 4 [] r c) (hc0 : c ≠ 0) (htable : m''.table = m'.table)
    (hval : m'.pmm.free.val = {f} + m''.pmm.free.val) (hspent : Spent m' m'' 1) :
    (vmmDestroyPagetable m'' c).pmm.free ≠ m.pmm.free := by
  have howned : k.reader.owned m''.table 4 [] c = k.reader.owned m'.table 4 [] c := by rw [htable]
  have hi : KernelIntact k m'' := by
    have hi' := hc.intact h
    refine ⟨hspent.kernelPml4.trans hi'.pml4,hspent.totalPages.trans hi'.total,fun g hg => ?_⟩
    rw [htable]
    exact hi'.tables g hg
  have hn : (k.reader.owned m''.table 4 [] c + m''.pmm.free.val).Nodup := by
    rw [howned]
    refine Multiset.nodup_of_le (Multiset.add_le_add_left ?_) hc.nodup
    rw [hval]
    exact Multiset.le_add_left _ _
  have hlt : ∀ g ∈ k.reader.owned m''.table 4 [] c, g < k.total := by
    rw [howned]
    exact hc.lt_total h
  have hfrees := vmmDestroyPagetable_frees hi
    (fun i _ => by rw [htable]; exact (hc.sane i).1) hlt hc0 hn
  obtain ⟨hf,hf'⟩ := page_missing hval
  intro heq
  have hfm : f ∈ (vmmDestroyPagetable m'' c).pmm.free := by
    rw [heq]
    exact hc.free_subset hf
  rw [← mem_val,hfrees.free,howned] at hfm
  rcases Multiset.mem_add.mp hfm with h1 | h1
  · exact Multiset.disjoint_left.mp (Multiset.nodup_add.mp hc.nodup).2.2 h1 hf
  · exact hf' h1

theorem processClone_copy_failed (h0 : (s.task parent).cr3 ≠ 0)
    (h : Source k s.mem 4 [] (s.task parent).cr3)
    (hrun : s.processClone parent false shareFiles g = (s',none)) :
    NoEffect s s' parent ↔ (SpawnCall.clone false shareFiles).Clean s parent g := by
  rw [Kstate.processClone] at hrun
  rw [SpawnCall.Clean]
  rw [if_neg h0,if_neg nofun] at hrun
  have hcopy := vmmClonePagetable_cloned h
  generalize vmmClonePagetable s.mem (s.task parent).cr3 = r at hcopy hrun ⊢
  cases hcopy with
  | @fail m' hfree hw =>
    cases hrun
    exact iff_of_true (Kept.noEffect ⟨rfl,rfl,rfl,rfl⟩ hfree rfl) (.inr (.inl rfl))
  | @done m' c hc0 hmade =>
    rw [if_neg hc0] at hrun
    have hz : 0 ∉ m'.pmm.free := fun h1 => h.zero (hmade.free_subset h1)
    have hfail : CloneFailed (s.setMem m') parent g (·.freePage c) (vmmDestroyPagetable · c) id s' :=
      cloneThread_failed hz (fun _ => rfl) (fun _ => rfl) hrun
    cases hfail with
    | early hkept hmem hcount hnot _ =>
      refine iff_of_false (fun hno => ?_) (by rintro (h1 | h1 | h1); exacts [h0 h1,hc0 h1,hnot h1])
      refine hmade.leaks ?_ hno.frames
      rw [hmem]
      exact freePage_subset m' c
    | late hkept hmem hcount hk hth =>
      have hkept : Kept s s' parent := ⟨hkept.objects,hkept.task,hkept.files,hkept.table⟩
      refine iff_of_true (hkept.noEffect ?_ hcount) (.inr (.inr ⟨hk,hth⟩))
      rw [hmem]
      exact hmade.destroyed h hc0
    | latePage hkept hmem hk hth htable hval hspent =>
      refine iff_of_false (fun hno => ?_) ?_
      · refine hmade.destroyed_page h hc0 htable hval hspent ?_
        rw [← hno.frames,hmem]
      · rintro (h1 | h1 | ⟨-,h1⟩)
        · exact h0 h1
        · exact hc0 h1
        · rw [hth] at h1
          cases h1

theorem CloneFailed.kept {early late : Mem → Mem} {back : (Nat → Int) → Nat → Int}
    (h : CloneFailed s parent g early late back s') : Kept s s' parent := by
  cases h with
  | early hkept | late hkept | latePage hkept => exact hkept

/-- A clone that shares an address space puts the count back when it fails. -/
theorem cloneShared_failed (h0 : 0 ∉ s.mem.pmm.free)
    (h : s.cloneShared parent c shareFiles g = (s',none)) :
    CloneFailed (s.addCount c 1) parent g id id
      (fun count => update count c (count c - 1)) s' :=
  cloneThread_failed h0 (fun _ => rfl) (fun _ => rfl) h

theorem addCount_back (s : Kstate) (c : Nat) :
    update (s.addCount c 1).count c ((s.addCount c 1).count c - 1) = s.count := by
  simp [Kstate.addCount]

/-- With a counter already there, only a page taken by the heap is not given back. -/
theorem cloneShared_noEffect (h0 : 0 ∉ s.mem.pmm.free)
    (h : s.cloneShared parent c shareFiles g = (s',none)) :
    NoEffect s s' parent ↔ ¬(g.kstack = true ∧ g.thread = .page ∧ s.mem.pmm.free ≠ ∅) := by
  have hfail := cloneShared_failed h0 h
  have hkept : Kept s s' parent :=
    ⟨hfail.kept.objects,hfail.kept.task,hfail.kept.files,hfail.kept.table⟩
  cases hfail with
  | early _ hmem hcount _ hnot =>
    refine iff_of_true (hkept.noEffect ?_ ?_) hnot
    · rw [hmem]
      rfl
    · rw [hcount,addCount_back]
  | late _ hmem hcount hk hth =>
    refine iff_of_true (hkept.noEffect ?_ ?_) fun h1 => ?_
    · rw [hmem]
      rfl
    · rw [hcount,addCount_back]
    · rw [hth] at h1
      cases h1.2.1
  | @latePage m' f _ hmem hk hth htable hval hspent =>
    obtain ⟨hf,hf'⟩ := page_missing hval
    refine iff_of_false (fun hno => hf' ?_) fun h1 => h1 ⟨hk,hth,ne_empty_of_mem hf⟩
    have hframes := hno.frames
    rw [hmem,id_eq] at hframes
    rw [hframes]
    exact hf

/-- A counter made for a clone that then fails stays. -/
theorem promoted_effect (m' : Mem) (h0 : 0 ∉ m'.pmm.free)
    (h : ((s.setMem m').newObject.1.promote parent c).cloneShared parent c shareFiles g = (s',none)) :
    ¬NoEffect s s' parent := by
  intro hno
  have hobjects := (cloneShared_failed h0 h).kept.objects
  have hin : s.nextObject ∈ insert s.nextObject s.objects := mem_insert_self _ _
  have heq : insert s.nextObject s.objects = s.objects := hobjects.symm.trans hno.objects
  rw [heq] at hin
  exact lt_irrefl _ (s.objects_lt _ hin)

theorem processClone_shared_failed (hcr3 : (s.task parent).cr3 ≠ 0) (h0 : 0 ∉ s.mem.pmm.free)
    (hrun : s.processClone parent true shareFiles g = (s',none)) :
    NoEffect s s' parent ↔ (SpawnCall.clone true shareFiles).Clean s parent g := by
  rw [Kstate.processClone] at hrun
  rw [SpawnCall.Clean]
  rw [if_neg hcr3,if_pos rfl] at hrun
  cases hm : (s.task parent).mmCount with
  | some c =>
    rw [hm] at hrun
    have hiff := cloneShared_noEffect h0 hrun
    simp only [hcr3,false_or,reduceCtorEq,false_and,ne_eq,not_false_eq_true,true_and]
    exact hiff
  | none =>
    rw [hm] at hrun
    have hg := kzalloc_granted h0 g.counter
    simp only [hcr3,false_or,true_and,ne_eq,not_true_eq_false,false_and,or_false]
    generalize s.kzalloc g.counter = r at hg hrun
    cases hg with
    | fail hfail =>
      cases hrun
      exact iff_of_true (Kept.noEffect ⟨rfl,rfl,rfl,rfl⟩ rfl rfl) hfail
    | cached hc =>
      refine iff_of_false (promoted_effect s.mem h0 hrun) ?_
      rw [hc]
      rintro (h1 | ⟨h1,-⟩)
      · cases h1
      · cases h1
    | @page m' f hc htable hval hspent =>
      refine iff_of_false (promoted_effect m' (fun h1 => h0 (hspent.free h1)) hrun) ?_
      rw [hc]
      rintro (h1 | ⟨-,h1⟩)
      · cases h1
      · exact ne_empty_of_mem (page_missing hval).1 h1

/-- A fork or clone that fails has had no effect exactly where it undoes what it did. -/
theorem failed_spawn_noEffect (call : SpawnCall)
    (hsrc : (s.task parent).cr3 ≠ 0 → Source k s.mem 4 [] (s.task parent).cr3)
    (hnone : (s.spawn parent g call).2 = none) :
    NoEffect s (s.spawn parent g call).1 parent ↔ call.Clean s parent g := by
  by_cases h0 : (s.task parent).cr3 = 0
  · obtain ⟨hrun,hclean⟩ := spawn_refused h0 call
    rw [hrun]
    exact iff_of_true (Kept.noEffect ⟨rfl,rfl,rfl,rfl⟩ rfl rfl) hclean
  have h := hsrc h0
  have hrun : s.spawn parent g call = ((s.spawn parent g call).1,none) := Prod.ext rfl hnone
  cases call with
  | fork => exact processFork_failed h0 h hrun
  | clone shareVm shareFiles =>
    cases shareVm with
    | false => exact processClone_copy_failed h0 h hrun
    | true => exact processClone_shared_failed h0 h.zero hrun

theorem firstProcess_source :
    Source bootMachine firstProcess.mem 4 [] (firstProcess.proc 0).cr3 := by
  have hcr3 : (firstProcess.proc 0).cr3 ≠ 0 := by decide
  exact firstProcess_housed.sound.source (root_mem (by decide) hcr3)

theorem firstProcess_frame :
    (vmmClonePagetable firstProcess.mem (firstProcess.proc 0).cr3).2 = 18 := by
  decide +kernel

/-- The first process as the kernel sees it, with its descriptor table. -/
def firstTask : Kstate where
  mem := firstProcess.mem
  objects := {0,1}
  task := fun _ => ⟨(firstProcess.proc 0).cr3,none,some 1,[]⟩
  count := fun _ => 0
  table := fun _ => ⟨fun _ => none,1⟩
  fileRefs := fun _ => 0
  nextObject := 2
  objects_lt := by decide

theorem processFork_without_stack (s : Kstate) (parent : Nat) :
    (s.processFork parent { kstack := false }).2 = none := by
  unfold Kstate.processFork
  dsimp only
  generalize vmmClonePagetable s.mem (s.task parent).cr3 = r
  split
  · rfl
  · split <;> rfl

theorem cloneThread_without_fdt (s : Kstate) (parent : Nat) (p : Task)
    (undo undoLate : Kstate → Kstate) :
    (s.cloneThread parent p false { fdt := .fail } undo undoLate).2 = none := by
  obtain ⟨cr3,mmCount,fdt,children⟩ := p
  cases fdt with
  | none => rfl
  | some f => rfl

theorem processClone_without_fdt (s : Kstate) (parent : Nat) :
    (s.processClone parent false false { fdt := .fail }).2 = none := by
  unfold Kstate.processClone
  dsimp only
  generalize vmmClonePagetable s.mem (s.task parent).cr3 = r
  split
  · rfl
  · rw [if_neg Bool.false_ne_true]
    split
    · rfl
    · exact cloneThread_without_fdt _ _ _ _ _

/-- A clone for which there is no descriptor table takes everything back. -/
theorem clone_without_fdt :
    (firstTask.spawn 0 { fdt := .fail } (.clone false false)).2 = none ∧
      NoEffect firstTask (firstTask.spawn 0 { fdt := .fail } (.clone false false)).1 0 := by
  have hnone : (firstTask.spawn 0 { fdt := .fail } (.clone false false)).2 = none := by
    rw [Kstate.spawn]
    exact processClone_without_fdt firstTask 0
  have hclean : (SpawnCall.clone false false).Clean firstTask 0 { fdt := .fail } :=
    .inr (.inr ⟨rfl,rfl⟩)
  exact ⟨hnone,(failed_spawn_noEffect _ (fun _ => firstProcess_source) hnone).mpr hclean⟩

/-- A fork for which there is no kernel stack gives back one frame of the copy it made. -/
theorem fork_without_stack :
    (firstTask.spawn 0 { kstack := false } .fork).2 = none ∧
      ¬NoEffect firstTask (firstTask.spawn 0 { kstack := false } .fork).1 0 := by
  have hnone : (firstTask.spawn 0 { kstack := false } .fork).2 = none := by
    rw [Kstate.spawn]
    exact processFork_without_stack firstTask 0
  refine ⟨hnone,fun hno => ?_⟩
  rw [Kstate.spawn] at hnone hno
  have hsrc : Source bootMachine firstTask.mem 4 [] (firstTask.task 0).cr3 := firstProcess_source
  generalize hr : firstTask.processFork 0 { kstack := false } = r at hnone hno
  obtain ⟨s',_⟩ := r
  cases hnone
  rcases (processFork_failed (by decide) hsrc hr).mp hno with h1 | h1
  · exact absurd h1 (by decide)
  · have hframe : (vmmClonePagetable firstTask.mem (firstTask.task 0).cr3).2 = 18 :=
      firstProcess_frame
    rw [hframe] at h1
    cases h1

end Lariat.Mm
