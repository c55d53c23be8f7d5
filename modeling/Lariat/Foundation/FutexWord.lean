import Mathlib.Data.List.Nodup
import Mathlib.Data.List.Perm.Subperm

/-! The sleepers of one futex word: what a wake-up of `n` may take, and who is left. -/
namespace Lariat.Foundation.FutexWord

open List

variable {α : Type*} {q ws : List α} {n : Nat} {t : α}

/-- A wake-up of `n` takes `n` of the sleepers, or all of them if there are fewer.
It is open which ones. -/
structure Takes (q : List α) (n : Nat) (ws : List α) : Prop where
  nodup : ws.Nodup
  asleep : ∀ w ∈ ws, w ∈ q
  number : ws.length = min n q.length

theorem takes_iff : Takes q n ws ↔ ws.Nodup ∧ (∀ w ∈ ws, w ∈ q) ∧ ws.length = min n q.length :=
  ⟨fun h => ⟨h.nodup,h.asleep,h.number⟩,fun h => ⟨h.1,h.2.1,h.2.2⟩⟩

theorem Takes.exists_mem (h : Takes q n ws) (hn : 0 < n) (hq : q ≠ []) : ∃ w, w ∈ ws := by
  apply exists_mem_of_length_pos
  have hpos := length_pos_iff.mpr hq
  rw [h.number]
  omega

theorem nodup_appended (hq : q.Nodup) (ht : t ∉ q) : (q ++ [t]).Nodup :=
  nodup_append_comm.mpr (nodup_cons.mpr ⟨ht,hq⟩)

variable [DecidableEq α]

instance (q : List α) (n : Nat) (ws : List α) : Decidable (Takes q n ws) :=
  decidable_of_iff _ takes_iff.symm

/-- The sleepers that a wake-up leaves. -/
def rest (q ws : List α) : List α := q.filter fun t => t ∉ ws

@[simp] theorem mem_rest : t ∈ rest q ws ↔ t ∈ q ∧ t ∉ ws := by
  simp [rest]

theorem rest_nodup (hq : q.Nodup) (ws : List α) : (rest q ws).Nodup := hq.filter _

theorem Takes.rest_length (h : Takes q n ws) (hq : q.Nodup) :
    (rest q ws).length+min n q.length = q.length := by
  have htaken : (q.filter fun t => t ∈ ws).Perm ws := by
    apply (perm_ext_iff_of_nodup (hq.filter _) h.nodup).mpr
    intro w
    simpa using h.asleep w
  have hsplit := length_eq_length_filter_add (l := q) (fun t => decide (t ∈ ws))
  have hrest : rest q ws = q.filter fun t => !decide (t ∈ ws) := by simp [rest]
  rw [hrest,← h.number,← htaken.length_eq]
  omega

theorem Takes.rest_eq_nil (h : Takes q n ws) (hq : q.Nodup) (hn : q.length ≤ n) : rest q ws = [] := by
  have hlen := h.rest_length hq
  apply length_eq_zero_iff.mp
  omega

section Places

/-! The sleepers are the threads at one place `b` of a program. -/

variable {π : Type*} {place : α → π} {b p : π} (h : ∀ u, u ∈ q ↔ place u = b)
include h

theorem asleep_moved (ht : place t ≠ b) (hp : p ≠ b) (u : α) :
    u ∈ q ↔ (if u = t then p else place u) = b := by
  split_ifs with hu
  · rw [hu]
    exact iff_of_false (fun hs => ht ((h t).mp hs)) hp
  · exact h u

theorem asleep_appended (u : α) : u ∈ q ++ [t] ↔ (if u = t then b else place u) = b := by
  by_cases hu : u = t
  · simp [hu]
  · simp [hu,h u]

theorem asleep_rest (hp : p ≠ b) (ws : List α) (u : α) :
    u ∈ rest q ws ↔ (if u ∈ ws then p else place u) = b := by
  by_cases hu : u ∈ ws
  · simp [hu,hp]
  · simp [hu,h u]

end Places

end Lariat.Foundation.FutexWord
