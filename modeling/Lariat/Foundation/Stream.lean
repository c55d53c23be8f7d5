import Mathlib.Data.List.Basic

/-! Places in a stream: what stands at a place, and a stretch of a stream cut into pieces. -/
namespace Lariat.Foundation.Stream
open List

variable {α : Type*} {s t d : List α} {i j a b : Nat} {ps : List (Nat × List α)}

/-- The stream has `d` from its place `i` on. -/
def Occurs (s : List α) (i : Nat) (d : List α) : Prop := d <+: s.drop i

theorem Occurs.append (h : Occurs s i d) (t : List α) : Occurs (s ++ t) i d := by
  rw [Occurs,drop_append]
  exact h.trans (prefix_append _ _)

theorem occurs_drop : Occurs (s.drop j) i d ↔ Occurs s (j+i) d := by
  rw [Occurs,Occurs,drop_drop]

theorem occurs_take (s : List α) (i n : Nat) : Occurs s i ((s.drop i).take n) := take_prefix _ _

theorem Occurs.end_le (h : Occurs s i d) (hd : d ≠ []) : i+d.length ≤ s.length := by
  have hle := h.length_le
  have hpos := length_pos_iff.mpr hd
  rw [length_drop] at hle
  omega

theorem Occurs.getElem? (h : Occurs s i d) (hj : j < d.length) : s[i+j]? = d[j]? := by
  obtain ⟨r,hr⟩ := h
  rw [← getElem?_drop,← hr,getElem?_append_left hj]

/-- Pieces that follow each other from place `a` to place `b`, none of them empty. -/
inductive Cut (s : List α) : Nat → List (Nat × List α) → Nat → Prop
  | nil (a : Nat) : Cut s a [] a
  | cons {a m b : Nat} {ps : List (Nat × List α)} : 0 < m → a+m ≤ s.length → Cut s (a+m) ps b →
      Cut s a ((a,(s.drop a).take m) :: ps) b

theorem Cut.le (h : Cut s a ps b) : a ≤ b := by
  induction h with
  | nil a => exact Nat.le_refl a
  | cons _ _ _ ih => omega

theorem Cut.end_le (h : Cut s a ps b) (hlt : a < b) : b ≤ s.length := by
  induction h with
  | nil a => exact absurd hlt (Nat.lt_irrefl a)
  | cons _ hle htail ih =>
    rcases Nat.eq_or_lt_of_le htail.le with heq | hlt
    · exact heq ▸ hle
    · exact ih hlt

theorem Cut.mem (h : Cut s a ps b) {x : Nat × List α} (hx : x ∈ ps) :
    Occurs s x.1 x.2 ∧ a ≤ x.1 ∧ x.1+x.2.length ≤ b := by
  induction h with
  | nil a => cases hx
  | @cons a m b ps hm hle htail ih =>
    have hlast := htail.le
    rcases mem_cons.mp hx with rfl | hx
    · refine ⟨occurs_take s a m,Nat.le_refl a,?_⟩
      rw [length_take,length_drop]
      omega
    · obtain ⟨h1,h2,h3⟩ := ih hx
      exact ⟨h1,by omega,h3⟩

/-- Every place of the stretch is in a piece. -/
theorem Cut.covers (h : Cut s a ps b) (h1 : a ≤ i) (h2 : i < b) :
    ∃ x ∈ ps, x.1 ≤ i ∧ i < x.1+x.2.length := by
  induction h with
  | nil a => omega
  | @cons a m b ps hm hle htail ih =>
    rcases Nat.lt_or_ge i (a+m) with hlt | hge
    · refine ⟨_,mem_cons_self,h1,?_⟩
      rw [length_take,length_drop]
      omega
    · obtain ⟨x,hx,hi⟩ := ih hge h2
      exact ⟨x,mem_cons_of_mem _ hx,hi⟩

end Lariat.Foundation.Stream
