import Mathlib.Data.Finset.Card
import Mathlib.Data.Finset.Range
import Mathlib.Logic.Function.Basic

/-! The physical page allocator of kernel/pmm.c, over page numbers. -/
namespace Lariat.Mm
open Finset Function

/-- The allocator's bitmap (`true` is used), its size in pages, and the counter beside it. -/
structure Pmm where
  bitmap : Nat → Bool
  totalPages : Nat
  freePageCount : Nat

def Pmm.free (p : Pmm) : Finset Nat := {f ∈ Finset.range p.totalPages | p.bitmap f = false}

/-- The lowest free page, marked used. Page 0 stands for failure, as address 0 does. -/
def pmmAllocPage (p : Pmm) : Pmm × Nat :=
  match (List.range p.totalPages).find? fun i => !p.bitmap i with
  | some i =>
    ({ p with bitmap := update p.bitmap i true, freePageCount := p.freePageCount - 1 },i)
  | none => (p,0)

def pmmFreePage (p : Pmm) (page : Nat) : Pmm :=
  if page < p.totalPages && p.bitmap page then
    { p with bitmap := update p.bitmap page false, freePageCount := p.freePageCount + 1 }
  else p

/-- The counter agrees with the bitmap. -/
def Pmm.Counted (p : Pmm) : Prop := p.freePageCount = p.free.card

variable {p : Pmm}

variable {f : Nat}

theorem Pmm.mem_free : f ∈ p.free ↔ f < p.totalPages ∧ p.bitmap f = false := by
  rw [Pmm.free,mem_filter,mem_range]

/-- What an allocation can do: fail with nothing free, or hand out a free page. -/
inductive Allocated (p : Pmm) : Pmm × Nat → Prop
  | fail : p.free = ∅ → Allocated p (p,0)
  | page {q : Pmm} {f : Nat} : f ∈ p.free → q.free = p.free.erase f →
      q.totalPages = p.totalPages → (p.Counted → q.Counted) → Allocated p (q,f)

theorem free_set_used (f n : Nat) :
    Pmm.free { p with bitmap := update p.bitmap f true, freePageCount := n } =
      p.free.erase f := by
  ext g
  rw [mem_erase,Pmm.mem_free,Pmm.mem_free]
  by_cases hg : g = f
  · simp [hg]
  · simp [hg]

theorem pmmAllocPage_allocated (p : Pmm) : Allocated p (pmmAllocPage p) := by
  rw [pmmAllocPage]
  cases hfind : (List.range p.totalPages).find? fun i => !p.bitmap i with
  | none =>
    refine .fail (eq_empty_of_forall_notMem fun f hf => ?_)
    obtain ⟨hlt,hfree⟩ := Pmm.mem_free.mp hf
    have := List.find?_eq_none.mp hfind f (List.mem_range.mpr hlt)
    simp [hfree] at this
  | some f =>
    have hlt := List.mem_range.mp (List.mem_of_find?_eq_some hfind)
    have hfree : f ∈ p.free := Pmm.mem_free.mpr ⟨hlt,by simpa using List.find?_some hfind⟩
    refine .page hfree (free_set_used f _) rfl fun hcount => ?_
    show p.freePageCount - 1 = _
    rw [free_set_used,card_erase_of_mem hfree,hcount]

@[simp] theorem pmmFreePage_totalPages (f : Nat) :
    (pmmFreePage p f).totalPages = p.totalPages := by
  rw [pmmFreePage]
  split <;> rfl

theorem pmmFreePage_free (hlt : f < p.totalPages) : (pmmFreePage p f).free = insert f p.free := by
  rw [pmmFreePage]
  by_cases hused : p.bitmap f = true
  · rw [if_pos (by simp [hlt,hused])]
    ext g
    rw [Finset.mem_insert,Pmm.mem_free,Pmm.mem_free]
    by_cases hg : g = f
    · simp [hg,hlt]
    · simp [hg]
  · rw [if_neg (by simp [hused]),insert_eq_of_mem]
    exact Pmm.mem_free.mpr ⟨hlt,by simpa using hused⟩

/-- Pages the allocator does not manage are ignored. -/
theorem pmmFreePage_of_le (hle : p.totalPages ≤ f) : pmmFreePage p f = p := by
  rw [pmmFreePage,if_neg (by simp; omega)]

theorem pmmFreePage_counted (hcount : p.Counted) : (pmmFreePage p f).Counted := by
  by_cases hf : f < p.totalPages ∧ p.bitmap f = true
  · have hnew : f ∉ p.free := fun h0 => by simp [(Pmm.mem_free.mp h0).2] at hf
    rw [Pmm.Counted,pmmFreePage_free hf.1,card_insert_of_notMem hnew,← hcount,pmmFreePage,
      if_pos (by simp [hf])]
  · rw [pmmFreePage,if_neg (by simpa using hf)]
    exact hcount

end Lariat.Mm
