import Mathlib.Data.List.Nodup
import Mathlib.Logic.Function.Basic

/-! Null-terminated chains through one link field, as a list of the cells met. -/
namespace Lariat.Foundation
open List Function

variable {α : Type*}

/-- From the head pointer the link field visits exactly the listed cells and ends at null. -/
def Chain (next : α → Option α) : Option α → List α → Prop
  | h, [] => h = none
  | h, a :: as => h = some a ∧ Chain next (next a) as

namespace Chain

variable {next : α → Option α} {h : Option α} {l m : List α} {t z : α}

@[simp] theorem nil_iff : Chain next h [] ↔ h = none := Iff.rfl

@[simp] theorem cons_iff {a : α} : Chain next h (a :: l) ↔ h = some a ∧ Chain next (next a) l :=
  Iff.rfl

instance decidable [DecidableEq α] (next : α → Option α) :
    ∀ (h : Option α) (l : List α), Decidable (Chain next h l)
  | h, [] => decEq h none
  | h, a :: as => @instDecidableAnd _ _ (decEq h (some a)) (decidable next (next a) as)

theorem unique (hl : Chain next h l) (hm : Chain next h m) : l = m := by
  induction l generalizing h m with
  | nil =>
    cases m with
    | nil => rfl
    | cons b m => rw [nil_iff.mp hl] at hm; cases hm.1
  | cons a l ih =>
    cases m with
    | nil => rw [nil_iff.mp hm] at hl; cases hl.1
    | cons b m =>
      have hab : a = b := Option.some.inj (hl.1.symm.trans hm.1)
      subst hab
      rw [ih hl.2 hm.2]

theorem suffix (hl : Chain next h (l ++ z :: m)) : Chain next (some z) (z :: m) := by
  induction l generalizing h with
  | nil => exact ⟨rfl,hl.2⟩
  | cons a l ih => exact ih hl.2

theorem nodup (hl : Chain next h l) : l.Nodup := by
  induction l generalizing h with
  | nil => exact nodup_nil
  | cons a l ih =>
    refine nodup_cons.mpr ⟨fun hmem => ?_,ih hl.2⟩
    obtain ⟨s,u,rfl⟩ := append_of_mem hmem
    have hs : Chain next (some a) (a :: u) := suffix hl.2
    have hw : Chain next (some a) (a :: (s ++ a :: u)) := ⟨rfl,hl.2⟩
    have he := unique hw hs
    have hc := congrArg List.length he
    simp only [length_cons,length_append] at hc
    omega

theorem head (hl : Chain next h l) : h = l.head? := by
  cases l with
  | nil => exact hl
  | cons a l => exact hl.1

/-- The links of other cells do not matter. -/
theorem congr {next' : α → Option α} (hl : Chain next h l) (hn : ∀ a ∈ l, next' a = next a) :
    Chain next' h l := by
  induction l generalizing h with
  | nil => exact hl
  | cons a l ih =>
    obtain ⟨ha,hn⟩ := forall_mem_cons.mp hn
    exact ⟨hl.1,by rw [ha]; exact ih hl.2 hn⟩

variable [DecidableEq α]

theorem frame (hl : Chain next h l) (ht : t ∉ l) (v : Option α) :
    Chain (update next t v) h l :=
  hl.congr fun _ ha => update_of_ne (ne_of_mem_of_not_mem ha ht) v next

/-- Linking a new cell behind the last one appends it. -/
theorem snoc (hl : Chain next h (l ++ [z])) (ht : t ∉ l ++ [z]) :
    Chain (update (update next t none) z (some t)) h (l ++ [z] ++ [t]) := by
  induction l generalizing h with
  | nil =>
    have hz : t ≠ z := by simpa using ht
    refine ⟨hl.1,?_,?_⟩
    · rw [update_self]
    · rw [update_of_ne hz,update_self]
      rfl
  | cons a l ih =>
    have hnd : a ≠ z := by
      rintro rfl
      exact (nodup_cons.mp hl.nodup).1 (by simp)
    rw [cons_append,mem_cons,not_or] at ht
    refine ⟨hl.1,?_⟩
    rw [update_of_ne hnd,update_of_ne (Ne.symm ht.1)]
    exact ih hl.2 ht.2

/-- Pointing a cell at its successor's successor unlinks the successor. -/
theorem skip (hl : Chain next h (l ++ z :: t :: m)) :
    Chain (update next z (next t)) h (l ++ z :: m) := by
  induction l generalizing h with
  | nil =>
    have hnd := nodup_cons.mp (show (z :: t :: m).Nodup from hl.nodup)
    have hzm : z ∉ m := fun hm => hnd.1 (mem_cons_of_mem _ hm)
    refine ⟨hl.1,?_⟩
    rw [update_self]
    exact hl.2.2.frame hzm _
  | cons a l ih =>
    have hnd : a ≠ z := by
      rintro rfl
      exact (nodup_cons.mp hl.nodup).1 (by simp)
    refine ⟨hl.1,?_⟩
    rw [update_of_ne hnd]
    exact ih hl.2

end Chain
end Lariat.Foundation
