import Mathlib.Data.List.Basic

/-! Queues of bounded length. A queue takes of what it is given as much as there is room for. -/
namespace Lariat.Foundation

/-- At most `cap` items, the oldest first. -/
structure Fifo (α : Type*) (cap : Nat) where
  items : List α
  length_le : items.length ≤ cap

namespace Fifo

variable {α : Type*} {cap : Nat} (q : Fifo α cap)

def empty : Fifo α cap := ⟨[],Nat.zero_le cap⟩

def length : Nat := q.items.length

def space : Nat := cap-q.length

/-- The items that there is room for. -/
def push (l : List α) : Fifo α cap where
  items := q.items ++ l.take q.space
  length_le := by
    have hle := q.length_le
    rw [List.length_append,List.length_take,space,length]
    omega

/-- Without its first `n` items. -/
def drop (n : Nat) : Fifo α cap where
  items := q.items.drop n
  length_le := by
    rw [List.length_drop]
    exact Nat.le_trans (Nat.sub_le _ _) q.length_le

variable {q}

theorem length_le' (q : Fifo α cap) : q.length ≤ cap := q.length_le

@[simp] theorem items_drop (n : Nat) : (q.drop n).items = q.items.drop n := rfl

theorem length_drop (n : Nat) : (q.drop n).length = q.length-n := List.length_drop

theorem length_eq_zero : q.length = 0 ↔ q.items = [] := List.length_eq_zero_iff

end Fifo

end Lariat.Foundation
