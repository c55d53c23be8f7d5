import Lariat.Mm.Loading
import Lariat.Mm.SpaceOps

/-! The address spaces of the live processes, and what each memory call can do to them. -/
namespace Lariat.Mm

open Foundation.TableTree Reader Function

/-- The top-level tables processes run on. Kernel threads have none, frame 0. -/
def Sys.roots (s : Sys) : Finset Nat := (s.live.image fun t => (s.proc t).cr3).erase 0

/-- The address spaces of the processes are sound, and one without a counter has one user. -/
structure Housed (k : Machine) (s : Sys) (lost : Multiset Nat) : Prop where
  sound : Sound k s.mem s.roots lost
  sole : ∀ t ∈ s.live, (s.proc t).cr3 ≠ 0 → (s.proc t).mmCount = none →
    ∀ u ∈ s.live, (s.proc u).cr3 = (s.proc t).cr3 → u = t

variable {k : Machine} {s s' : Sys} {m' : Mem} {lost lost' x : Multiset Nat} {t u : Nat}

theorem mem_roots {r : Nat} : r ∈ s.roots ↔ r ≠ 0 ∧ ∃ t ∈ s.live, (s.proc t).cr3 = r := by
  rw [Sys.roots,Finset.mem_erase,Finset.mem_image]

theorem root_mem (ht : t ∈ s.live) (h0 : (s.proc t).cr3 ≠ 0) : (s.proc t).cr3 ∈ s.roots :=
  mem_roots.mpr ⟨h0,t,ht,rfl⟩

theorem roots_congr (hlive : s'.live = s.live)
    (hcr3 : ∀ u ∈ s.live, (s'.proc u).cr3 = (s.proc u).cr3) : s'.roots = s.roots := by
  rw [Sys.roots,Sys.roots,hlive,Finset.image_congr fun u hu => hcr3 u hu]

theorem setProc_same (p : Proc) : (s.setProc t p).proc t = p := by
  show update s.proc t p t = p
  rw [update_self]

variable {p : Proc}

theorem setProc_other (h : u ≠ t) : (s.setProc t p).proc u = s.proc u := by
  show update s.proc t p u = s.proc u
  rw [update_of_ne h]

/-- A field of every process that the new record of `t` keeps. -/
theorem setProc_field {α : Type*} (g : Proc → α) (h : g p = g (s.proc t)) (u : Nat) :
    g ((s.setProc t p).proc u) = g (s.proc u) := by
  by_cases hu : u = t
  · rw [hu,setProc_same,h]
  · rw [setProc_other hu]

theorem Housed.inPlace (h : Housed k s lost) (hs : Sound k m' s.roots lost')
    (hcr3 : p.cr3 = (s.proc t).cr3) (hmm : p.mmCount = (s.proc t).mmCount) :
    Housed k ((s.setMem m').setProc t p) lost' where
  sound := by
    have hroots : ((s.setMem m').setProc t p).roots = s.roots :=
      roots_congr rfl fun u _ => setProc_field Proc.cr3 hcr3 u
    rw [hroots]
    exact hs
  sole v hv h0 hnone w hw hsame := by
    have hc (u : Nat) : (((s.setMem m').setProc t p).proc u).cr3 = (s.proc u).cr3 :=
      setProc_field Proc.cr3 hcr3 u
    have hn : (((s.setMem m').setProc t p).proc v).mmCount = (s.proc v).mmCount :=
      setProc_field Proc.mmCount hmm v
    rw [hc v] at h0
    rw [hn] at hnone
    rw [hc w,hc v] at hsame
    exact h.sole v hv h0 hnone w hw hsame

theorem withHeap_cr3 (p : Proc) : p.withHeap.cr3 = p.cr3 := by
  rw [Proc.withHeap]
  split <;> rfl

theorem withHeap_mmCount (p : Proc) : p.withHeap.mmCount = p.mmCount := by
  rw [Proc.withHeap]
  split <;> rfl

theorem withArena_cr3 (p : Proc) : p.withArena.cr3 = p.cr3 := by
  rw [Proc.withArena]
  split <;> rfl

theorem withArena_mmCount (p : Proc) : p.withArena.mmCount = p.mmCount := by
  rw [Proc.withArena]
  split <;> rfl

theorem bump_cr3 (p : Proc) (base pages : Nat) : (p.bump base pages).cr3 = p.cr3 := by
  rw [Proc.bump]
  split <;> rfl

theorem bump_mmCount (p : Proc) (base pages : Nat) : (p.bump base pages).mmCount = p.mmCount := by
  rw [Proc.bump]
  split <;> rfl

theorem wrap_lt (n : Nat) : wrap n < 0x10000000000000000 := Nat.mod_lt _ (by decide)

theorem wrap_of_lt {n : Nat} (h : n < 0x10000000000000000) : wrap n = n := Nat.mod_eq_of_lt h

theorem pagesOf_le (length : Nat) : pagesOf length ≤ 0x10000000000000 := by
  rw [pagesOf]
  have := wrap_lt (length+4095)
  omega

theorem roundUp_lt (addr : Nat) : roundUp addr < 0x10000000000000000 := by
  rw [roundUp]
  have := wrap_lt (addr+4095)
  omega

section Brk

/-- The pages by which the heap grows to `addr`. -/
def growth (p : Proc) (addr : Nat) : Nat := (roundUp addr - roundUp p.brkCur) / 4096

theorem growth_le (p : Proc) (addr : Nat) : growth p addr ≤ 0x10000000000000 := by
  have := roundUp_lt addr
  rw [growth]
  omega

/-- The pages by which it shrinks to `addr`. -/
def shrinkage (p : Proc) (addr : Nat) : Nat := (roundUp p.brkCur - roundUp addr) / 4096

/-- The pages between the old break and the new one. -/
def brkPages (s : Sys) (t addr : Nat) : List Nat :=
  let p := (s.proc t).withHeap
  if addr = 0 ∨ addr < p.brkStart then []
  else if roundUp p.brkCur < roundUp addr then pageList (roundUp p.brkCur) (growth p addr)
  else pageList (roundUp addr) (shrinkage p addr)

/-- What brk can do: answer, grow the heap as a whole or in part, or shrink it. -/
inductive BrkOutcome (k : Machine) (s : Sys) (lost : Multiset Nat) (t addr : Nat) :
    Sys × Int → Prop
  | query : addr = 0 ∨ addr < (s.proc t).withHeap.brkStart →
      BrkOutcome k s lost t addr (s.setProc t (s.proc t).withHeap,(s.proc t).withHeap.brkCur)
  | grown {m' : Mem} {x : Multiset Nat} : (s.proc t).withHeap.brkStart ≤ addr →
      roundUp (s.proc t).withHeap.brkCur < roundUp addr →
      brkPages s t addr = pageList (roundUp (s.proc t).withHeap.brkCur)
        (growth (s.proc t).withHeap addr) →
      Laid k s.mem m' s.roots lost x (s.proc t).cr3
        (pageReqs (roundUp (s.proc t).withHeap.brkCur) (fun _ _ => 0) true
          (growth (s.proc t).withHeap addr)) (4 * growth (s.proc t).withHeap addr) →
      BrkOutcome k s lost t addr
        ((s.setMem m').setProc t { (s.proc t).withHeap with brkCur := addr },addr)
  | stuck {m' : Mem} {x : Multiset Nat} {i : Nat} : (s.proc t).withHeap.brkStart ≤ addr →
      addr ≠ 0 → i < growth (s.proc t).withHeap addr →
      brkPages s t addr = pageList (roundUp (s.proc t).withHeap.brkCur)
        (growth (s.proc t).withHeap addr) →
      Laid k s.mem m' s.roots lost x (s.proc t).cr3
        (pageReqs (roundUp (s.proc t).withHeap.brkCur) (fun _ _ => 0) true i) (4 * (i+1)) →
      s.mem.pmm.free.card < 4 * (i+1) →
      BrkOutcome k s lost t addr
        ((s.setMem m').setProc t (s.proc t).withHeap,(s.proc t).withHeap.brkCur)
  | shrunk {m' : Mem} {x : Multiset Nat} : (s.proc t).withHeap.brkStart ≤ addr →
      roundUp addr ≤ roundUp (s.proc t).withHeap.brkCur →
      brkPages s t addr = pageList (roundUp addr) (shrinkage (s.proc t).withHeap addr) →
      Cleared k s.mem m' s.roots lost x (s.proc t).cr3 (brkPages s t addr) →
      BrkOutcome k s lost t addr
        ((s.setMem m').setProc t { (s.proc t).withHeap with brkCur := addr },addr)

theorem sysBrk_outcome {addr : Nat} (h : Housed k s lost) (ht : t ∈ s.live)
    (h0 : (s.proc t).cr3 ≠ 0) (hu : ∀ w ∈ brkPages s t addr, UserAddr w) :
    BrkOutcome k s lost t addr (sysBrk s t addr) := by
  have hr : (s.proc t).withHeap.cr3 ∈ s.roots := by
    rw [withHeap_cr3]
    exact root_mem ht h0
  rw [sysBrk,if_neg h0]
  by_cases hq : addr = 0 ∨ addr < (s.proc t).withHeap.brkStart
  · rw [if_pos hq]
    exact .query hq
  have hge : (s.proc t).withHeap.brkStart ≤ addr := by omega
  rw [if_neg hq]
  by_cases hlt : roundUp (s.proc t).withHeap.brkCur < roundUp addr
  · have hpages : brkPages s t addr = pageList (roundUp (s.proc t).withHeap.brkCur)
        (growth (s.proc t).withHeap addr) := by
      rw [brkPages,if_neg hq,if_pos hlt]
    rw [if_pos hlt]
    rw [hpages] at hu
    have hp := h.sound.mapPages hr (fun _ _ => 0) true fun i hi => hu _ (pageAt_mem hi)
    rw [growth] at hp
    generalize mapPages s.mem (s.proc t).withHeap.cr3 (roundUp (s.proc t).withHeap.brkCur)
      (fun _ _ => 0) true ((roundUp addr - roundUp (s.proc t).withHeap.brkCur) / 4096) = o at hp
    rw [withHeap_cr3] at hp
    cases hp with
    | done hl => exact .grown hge hlt hpages hl
    | full hi hl hc => exact .stuck hge (by omega) hi hpages hl hc
  · have hpages : brkPages s t addr =
        pageList (roundUp addr) (shrinkage (s.proc t).withHeap addr) := by
      rw [brkPages,if_neg hq,if_neg hlt]
    rw [if_neg hlt]
    rw [hpages] at hu
    obtain ⟨x,hc⟩ := h.sound.unmapRangeIn hr fun i hi => hu _ (pageAt_mem hi)
    rw [← hpages,withHeap_cr3,shrinkage] at hc
    exact .shrunk hge (Nat.not_lt.mp hlt) hpages (by rw [withHeap_cr3]; exact hc)

end Brk

section Mmap

/-- Where mmap puts the mapping. -/
def mmapBase (p : Proc) (addr : Nat) (fixed : Bool) : Nat :=
  if fixed ∧ addr ≠ 0 then addr else p.withArena.mmapNext

/-- How many pages the mapping takes. A device maps no more than it has. -/
def Backing.count (src : Backing) (length : Nat) : Nat :=
  match src with
  | .device _ size => pagesOf (min length size)
  | _ => pagesOf length

/-- The read that follows the mapping of a file. -/
def Backing.fill (src : Backing) (cr3 base length : Nat) (m : Mem) : Mem :=
  match src with
  | .file n bytes => readInto m cr3 base (min n length) bytes (pagesOf length)
  | _ => m

/-- A private mapping of a file is made writable, whatever was asked for. -/
def Backing.writable (src : Backing) (write : Bool) : Bool :=
  match src with
  | .file _ _ => true
  | _ => write

/-- A device's frames are no memory of the allocator's. -/
def Backing.Outside (k : Machine) : Backing → Prop
  | .device frame _ => k.total ≤ frame
  | _ => True

section

variable (k : Machine) (s : Sys) (lost : Multiset Nat) (t addr length : Nat) (write fixed : Bool)
  (src : Backing)

/-- What mmap can do: refuse, map fresh pages, map some and unmap them again, or map a device. -/
inductive MmapOutcome : Sys × Int → Prop
  | refused {p : Proc} {rc : Int} : p = s.proc t ∨ p = (s.proc t).withArena → rc < 0 →
      MmapOutcome (s.setProc t p,rc)
  | mapped {m' : Mem} {x : Multiset Nat} : src.count length = pagesOf length →
      Laid k s.mem m' s.roots lost x (s.proc t).cr3
        (pageReqs (mmapBase (s.proc t) addr fixed) (fun _ _ => 0) (src.writable write)
          (pagesOf length)) (4 * pagesOf length) →
      MmapOutcome
        ((s.setMem (src.fill (s.proc t).cr3 (mmapBase (s.proc t) addr fixed) length m')).setProc t
          ((s.proc t).withArena.bump (mmapBase (s.proc t) addr fixed) (pagesOf length)),
          mmapBase (s.proc t) addr fixed)
  | undone {m1 m' : Mem} {x y : Multiset Nat} {i : Nat} :
      src.count length = pagesOf length → i < pagesOf length →
      Laid k s.mem m1 s.roots lost x (s.proc t).cr3
        (pageReqs (mmapBase (s.proc t) addr fixed) (fun _ _ => 0) (src.writable write) i)
        (4 * (i+1)) → s.mem.pmm.free.card < 4 * (i+1) →
      Cleared k m1 m' s.roots (x+lost) y (s.proc t).cr3
        (pageList (mmapBase (s.proc t) addr fixed) i) →
      MmapOutcome ((s.setMem m').setProc t (s.proc t).withArena,-ENOMEM)
  | device {m' : Mem} {x : Multiset Nat} {p : Proc} {rc : Int} {frame size : Nat} :
      src = .device frame size → p.cr3 = (s.proc t).cr3 → p.mmCount = (s.proc t).mmCount →
      Sound k m' s.roots (x+lost) →
      Touched k s.mem m' s.roots (s.proc t).cr3 (fun v =>
        ∃ i < src.count length, OnPage (pageAt (mmapBase (s.proc t) addr fixed) i) v) →
      (Unmapped k s.mem (s.proc t).cr3 (mmapBase (s.proc t) addr fixed) (src.count length) →
        x = 0) →
      MmapOutcome ((s.setMem m').setProc t p,rc)

end

section

variable {addr length : Nat} {write fixed : Bool} {src : Backing}
  (h : Housed k s lost) (ht : t ∈ s.live) (h0 : (s.proc t).cr3 ≠ 0)
  (hu : ∀ w ∈ pageList (mmapBase (s.proc t) addr fixed) (src.count length), UserAddr w)
include h ht h0 hu

theorem mmapPages_outcome (hcount : src.count length = pagesOf length) :
    MmapOutcome k s lost t addr length write fixed src
      (mmapPages s t (mmapBase (s.proc t) addr fixed) (pagesOf length) (s.proc t).withArena
        (src.writable write)
        (src.fill (s.proc t).cr3 (mmapBase (s.proc t) addr fixed) length)) := by
  have hr := root_mem ht h0
  have hu' : ∀ i < pagesOf length, UserAddr (pageAt (mmapBase (s.proc t) addr fixed) i) :=
    fun i hi => hu _ (pageAt_mem (hcount ▸ hi))
  have hp := h.sound.mapPages hr (fun _ _ => 0) (src.writable write) hu'
  rw [mmapPages,withArena_cr3]
  generalize mapPages s.mem (s.proc t).cr3 (mmapBase (s.proc t) addr fixed) (fun _ _ => 0)
    (src.writable write) (pagesOf length) = o at hp
  cases hp with
  | done hl => exact .mapped hcount hl
  | @full m1 x i hi hl hc =>
    obtain ⟨y,hcl⟩ := hl.sound.unmapRangeIn hr fun j hj => hu' j (Nat.lt_trans hj hi)
    exact .undone hcount hi hl hc hcl

theorem sysMmap_outcome (hout : src.Outside k) :
    MmapOutcome k s lost t addr length write fixed src (sysMmap s t addr length write fixed src) := by
  have hself : s.setProc t (s.proc t) = s := by
    rw [Sys.setProc,update_eq_self]
  have hbase : (if fixed ∧ addr ≠ 0 then addr else (s.proc t).withArena.mmapNext) =
      mmapBase (s.proc t) addr fixed := rfl
  rw [sysMmap,if_neg h0]
  by_cases hlen : length = 0
  · rw [if_pos hlen]
    have href : MmapOutcome k s lost t addr length write fixed src
        (s.setProc t (s.proc t),-EINVAL) := .refused (.inl rfl) (by decide)
    rwa [hself] at href
  rw [if_neg hlen]
  by_cases hal : fixed ∧ addr ≠ 0 ∧ addr % 4096 ≠ 0
  · rw [if_pos hal]
    exact .refused (.inr rfl) (by decide)
  rw [if_neg hal,hbase]
  cases src with
  | badFd => exact .refused (.inr rfl) (by decide)
  | anonymous => exact mmapPages_outcome h ht h0 hu rfl
  | file n bytes =>
    rw [withArena_cr3]
    exact mmapPages_outcome h ht h0 hu rfl
  | device frame size =>
    obtain ⟨x,hs,htouch,hx⟩ := h.sound.deviceMmap (root_mem ht h0) hout
      fun i hi => hu _ (pageAt_mem hi)
    have hx := hx (pagesOf_le _)
    have hcount : pagesOf (min length size) = (Backing.device frame size).count length := rfl
    rw [withArena_cr3]
    dsimp only
    rw [hcount]
    generalize deviceMmap s.mem (s.proc t).cr3 (mmapBase (s.proc t) addr fixed) frame
      ((Backing.device frame size).count length) = o at hs htouch
    obtain ⟨m1,b⟩ := o
    cases b with
    | false => exact .device rfl (withArena_cr3 _) (withArena_mmCount _) hs htouch hx
    | true =>
      refine .device rfl ?_ ?_ hs htouch hx
      · rw [bump_cr3,withArena_cr3]
      · rw [bump_mmCount,withArena_mmCount]

end

end Mmap

end Lariat.Mm
