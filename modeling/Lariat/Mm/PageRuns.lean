import Mathlib.Order.Interval.Finset.Nat
import Lariat.Mm.Pmm

/-! The calls of kernel/pmm.c that take a run of pages, and every sequence of calls. -/
namespace Lariat.Mm
open Finset Function

/-- The page `i` places behind another. Addresses have 64 bits. -/
def pageFrom (page i : Nat) : Nat := (page+i) % 0x10000000000000

def pmmMarkUsed (p : Pmm) (page : Nat) : Nat → Pmm
  | 0 => p
  | i+1 =>
    let q := pmmMarkUsed p page i
    let f := pageFrom page i
    if f < q.totalPages && !q.bitmap f then
      { q with bitmap := update q.bitmap f true, freePageCount := q.freePageCount - 1 }
    else q

def pmmFreePages (p : Pmm) (page : Nat) : Nat → Pmm
  | 0 => p
  | i+1 => pmmFreePage (pmmFreePages p page i) (pageFrom page i)

/-- The same loop, without the lock. -/
def pmmMarkFree (p : Pmm) (page count : Nat) : Pmm := pmmFreePages p page count

/-- The search of `pmm_alloc_pages`, with `n` pages left to look at. -/
def findRun (p : Pmm) (count : Nat) : Nat → Nat → Nat → Option Nat
  | 0,_,_ => none
  | n+1,consecutive,start =>
    let i := p.totalPages-(n+1)
    if p.bitmap i then findRun p count n 0 start
    else
      let start := if consecutive = 0 then i else start
      if count ≤ consecutive+1 then some start else findRun p count n (consecutive+1) start

/-- The allocator with the `n` pages from `start` marked used. -/
def Pmm.takeRun (p : Pmm) (start n : Nat) : Pmm :=
  { p with
    bitmap := fun f => p.bitmap f || decide (start ≤ f ∧ f < start+n)
    freePageCount := p.freePageCount - n }

def pmmAllocPages (p : Pmm) (count : Nat) : Pmm × Nat :=
  if count = 0 then (p,0)
  else
    match findRun p count p.totalPages 0 0 with
    | some start => (p.takeRun start count,start)
    | none => (p,0)

def Pmm.FreeRun (p : Pmm) (n start : Nat) : Prop :=
  start+n ≤ p.totalPages ∧ ∀ j < n, p.bitmap (start+j) = false

/-- What the search can come to: the lowest run, or that there is none. -/
inductive Found (p : Pmm) (n : Nat) : Option Nat → Prop
  | run {start : Nat} : p.FreeRun n start → (∀ s < start, ¬p.FreeRun n s) → Found p n (some start)
  | none : (∀ s, ¬p.FreeRun n s) → Found p n none

variable {p : Pmm}

/-- The search has seen `c` free pages in a row, from page `b` on. -/
theorem findRun_found {count n b c start : Nat} (hn : b+c+n = p.totalPages) (hc : c < count)
    (hrow : ∀ j < c, p.bitmap (b+j) = false) (hstart : c ≠ 0 → start = b)
    (hno : ∀ s < b, ¬p.FreeRun count s) : Found p count (findRun p count n c start) := by
  induction n generalizing b c start with
  | zero =>
    refine .none fun s hs => hno s ?_ hs
    have := hs.1
    omega
  | succ n ih =>
    have hi : p.totalPages-(n+1) = b+c := by omega
    simp only [findRun,hi]
    by_cases hbit : p.bitmap (b+c) = true
    · rw [if_pos hbit]
      -- a run from `b` on would take in the used page
      refine ih (b := b+c+1) (by omega) (by omega) nofun (absurd rfl) fun s hs hr => ?_
      by_cases hsb : s < b
      · exact hno s hsb hr
      · have hfree := hr.2 (b+c-s) (by omega)
        rw [show s+(b+c-s) = b+c by omega,hbit] at hfree
        cases hfree
    · have hb : (if c = 0 then b+c else start) = b := by
        split
        · omega
        · exact hstart ‹_›
      have hrow' : ∀ j < c+1, p.bitmap (b+j) = false := by
        intro j hj
        rcases Nat.lt_succ_iff_lt_or_eq.mp hj with hj | rfl
        · exact hrow j hj
        · simpa using hbit
      rw [if_neg hbit,hb]
      split
      · obtain rfl : count = c+1 := by omega
        exact .run ⟨by omega,hrow'⟩ hno
      · exact ih (by omega) (by omega) hrow' (fun _ => rfl) hno

theorem findRun_top {n : Nat} (hn : 0 < n) : Found p n (findRun p n p.totalPages 0 0) :=
  findRun_found (b := 0) (by omega) hn nofun (absurd rfl) nofun

theorem Pmm.FreeRun.counted {n s : Nat} (h : p.FreeRun n s) (hc : p.Counted) :
    (p.takeRun s n).Counted := by
  have hfree : (p.takeRun s n).free = p.free \ Ico s (s+n) := by
    ext f
    simp only [mem_sdiff,mem_Ico,Pmm.mem_free,Pmm.takeRun,Bool.or_eq_false_iff,decide_eq_false_iff_not]
    tauto
  have hsub : Ico s (s+n) ⊆ p.free := by
    intro f hf
    obtain ⟨h1,h2⟩ := mem_Ico.mp hf
    have hbit := h.2 (f-s) (by omega)
    rw [Nat.add_sub_cancel' h1] at hbit
    exact Pmm.mem_free.mpr ⟨Nat.lt_of_lt_of_le h2 h.1,hbit⟩
  rw [Pmm.Counted,hfree,card_sdiff_of_subset hsub,Nat.card_Ico,Nat.add_sub_cancel_left,← hc]
  rfl

theorem pmmMarkUsed_counted (page : Nat) {count : Nat} (hc : p.Counted) :
    (pmmMarkUsed p page count).Counted := by
  induction count with
  | zero => exact hc
  | succ i ih =>
    rw [pmmMarkUsed]
    split <;> rename_i hf
    · have hmem : pageFrom page i ∈ (pmmMarkUsed p page i).free := by
        simpa [Pmm.mem_free] using hf
      rw [Pmm.Counted,free_set_used,card_erase_of_mem hmem,← ih]
    · exact ih

theorem pmmFreePages_counted (page : Nat) {count : Nat} (hc : p.Counted) :
    (pmmFreePages p page count).Counted := by
  induction count with
  | zero => exact hc
  | succ i ih => exact pmmFreePage_counted ih

inductive PmmCall where
  | markUsed (page count : Nat)
  | markFree (page count : Nat)
  | allocPage
  | allocPages (count : Nat)
  | freePage (page : Nat)
  | freePages (page count : Nat)

def PmmCall.run (p : Pmm) : PmmCall → Pmm
  | .markUsed page count => pmmMarkUsed p page count
  | .markFree page count => pmmMarkFree p page count
  | .allocPage => (pmmAllocPage p).1
  | .allocPages count => (pmmAllocPages p count).1
  | .freePage page => pmmFreePage p page
  | .freePages page count => pmmFreePages p page count

theorem PmmCall.run_counted (c : PmmCall) (hc : p.Counted) : (c.run p).Counted := by
  cases c with
  | markUsed page count => exact pmmMarkUsed_counted page hc
  | markFree page count | freePages page count => exact pmmFreePages_counted page hc
  | freePage page => exact pmmFreePage_counted hc
  | allocPage =>
    have ha := pmmAllocPage_allocated p
    rw [PmmCall.run]
    generalize pmmAllocPage p = r at ha
    cases ha with
    | fail _ => exact hc
    | page _ _ _ hq => exact hq hc
  | allocPages n =>
    rw [PmmCall.run,pmmAllocPages]
    split
    · exact hc
    · rename_i hn
      have hf := findRun_top (p := p) (Nat.pos_of_ne_zero hn)
      generalize findRun p n p.totalPages 0 0 = o at hf
      cases hf with
      | run hr _ => exact hr.counted hc
      | none _ => exact hc

/-- The bitmap as `pmm_init_e820` fills it before it marks the regions. -/
def blankPmm (total : Nat) : Pmm := ⟨fun _ => true,total,0⟩

/-- After every sequence of calls, those of the initialisation included, the counter is right, and
a request for a run gets the lowest one and nothing else, or fails because there is none. -/
theorem pmm_runs (total : Nat) (calls : List PmmCall) :
    let p := calls.foldl PmmCall.run (blankPmm total)
    p.Counted ∧ ∀ n > 0,
      (∀ s, p.FreeRun n s → (∀ s' < s, ¬p.FreeRun n s') → pmmAllocPages p n = (p.takeRun s n,s)) ∧
      ((∀ s, ¬p.FreeRun n s) → pmmAllocPages p n = (p,0)) := by
  intro p
  refine ⟨?_,fun n hn => ?_⟩
  · have hblank : (blankPmm total).Counted :=
      (card_eq_zero.mpr (filter_eq_empty_iff.mpr fun _ _ => by simp [blankPmm])).symm
    refine List.foldlRecOn calls PmmCall.run hblank ?_
    exact fun _ hc c _ => c.run_counted hc
  · have hf := findRun_top (p := p) hn
    rw [pmmAllocPages,if_neg (Nat.ne_of_gt hn)]
    generalize findRun p n p.totalPages 0 0 = o at hf
    cases hf with
    | @run start hr hlow =>
      refine ⟨fun s hs hlow' => ?_,fun h => absurd hr (h start)⟩
      rcases Nat.lt_trichotomy s start with hlt | rfl | hlt
      · exact absurd hs (hlow s hlt)
      · rfl
      · exact absurd hr (hlow' start hlt)
    | none h => exact ⟨fun s hs => absurd hs (h s),fun _ => rfl⟩

end Lariat.Mm
