import Lariat.Foundation.Runs
import Mathlib.Logic.Function.Basic

/-! The terminal's input ring, with any number of readers. A reader tests for input under the
scheduler's lock and removes a byte under the ring's own. -/
namespace Lariat.Kernel.Tty
open Foundation.Runs List Function

def TTY_BUF_SIZE : Nat := 256

/-- The ring, the readers that have found input and not removed a byte yet, and a record of the
bytes pushed and handed out. -/
structure Ring where
  buffer : Nat → UInt8 := fun _ => 0
  readIdx : Nat := 0
  writeIdx : Nat := 0
  found : Nat → Bool := fun _ => false
  pushed : List UInt8 := []
  handed : List UInt8 := []

namespace Ring

variable (s : Ring)

/-- `tty_push_locked`, which drops the byte when the ring is full. -/
def push (c : UInt8) : Ring :=
  let tnext := (s.writeIdx+1) % TTY_BUF_SIZE
  if tnext ≠ s.readIdx then
    { s with
      buffer := update s.buffer s.writeIdx c
      writeIdx := tnext
      pushed := s.pushed ++ [c] }
  else s

/-- The removal at the end of `tty_getc` and `tty_getc_intr`, which does not look whether there is
a byte. -/
def remove : Ring :=
  { s with
    readIdx := (s.readIdx+1) % TTY_BUF_SIZE
    handed := s.handed ++ [s.buffer s.readIdx] }

/-- `tty_read` of at most so many bytes. -/
def ttyRead : Nat → Ring → Ring
  | 0, s => s
  | n+1, s => if s.readIdx = s.writeIdx then s else ttyRead n s.remove

end Ring

/-- An interrupt pushes a byte, a reader tests for input, one that found some removes a byte, or
`tty_read` is called. -/
inductive Event where
  | push (c : UInt8)
  | test (t : Nat)
  | getc (t : Nat)
  | read (count : Nat)

def step (s : Ring) : Event → Option Ring
  | .push c => some (s.push c)
  | .test t => some { s with found := update s.found t (s.readIdx != s.writeIdx) }
  | .getc t =>
    if s.found t then some { s.remove with found := update s.found t false } else none
  | .read count => some (s.ttyRead count)

/-- The bytes handed out are those pushed first, in their order, and the read index is where they
end. -/
structure ConsumedOnce (s : Ring) : Prop where
  order : s.handed <+: s.pushed
  read : s.readIdx = s.handed.length % TTY_BUF_SIZE
  write : s.writeIdx = s.pushed.length % TTY_BUF_SIZE

/-- No other reader has emptied the ring since the test. -/
def Available (s : Ring) : Event → Prop
  | .getc t => s.found t → s.readIdx ≠ s.writeIdx
  | _ => True

/-- The bytes in the ring are those not handed out yet. -/
structure Inv (s : Ring) : Prop extends ConsumedOnce s where
  room : s.pushed.length < s.handed.length+TTY_BUF_SIZE
  bytes : ∀ i, s.handed.length ≤ i → i < s.pushed.length →
    s.pushed[i]? = some (s.buffer (i % TTY_BUF_SIZE))

section Steps

variable {s s' : Ring} {e : Event}

theorem Inv.length_le (h : Inv s) : s.handed.length ≤ s.pushed.length := h.order.length_le

theorem Inv.push (h : Inv s) (c : UInt8) : Inv (s.push c) := by
  have hle := h.length_le
  have hroom := h.room
  rw [Ring.push]
  split
  · rename_i hfree
    have hnext : (s.writeIdx+1) % TTY_BUF_SIZE = (s.pushed.length+1) % TTY_BUF_SIZE := by
      rw [h.write,Nat.mod_add_mod]
    rw [hnext,h.read] at hfree
    refine ⟨⟨h.order.trans (prefix_append _ _),h.read,?_⟩,?_,fun i hi hlt => ?_⟩
    · rw [length_append]
      exact hnext
    · rw [length_append,length_singleton]
      simp only [TTY_BUF_SIZE] at hfree hroom ⊢
      omega
    · dsimp only at hi hlt ⊢
      rw [length_append,length_singleton] at hlt
      rcases Nat.lt_succ_iff_lt_or_eq.mp hlt with hlt | rfl
      · have hne : i % TTY_BUF_SIZE ≠ s.writeIdx := by
          rw [h.write]
          simp only [TTY_BUF_SIZE] at hroom ⊢
          omega
        rw [List.getElem?_append_left hlt,h.bytes i hi hlt,update_of_ne hne]
      · rw [List.getElem?_concat_length,h.write,update_self]
  · exact h

theorem Inv.remove (h : Inv s) (hne : s.readIdx ≠ s.writeIdx) : Inv s.remove := by
  have hle := h.length_le
  have hroom := h.room
  have hlt : s.handed.length < s.pushed.length := by
    rw [h.read,h.write] at hne
    exact Nat.lt_of_le_of_ne hle fun heq => hne (by rw [heq])
  have hlen : s.remove.handed.length = s.handed.length+1 := length_append
  refine ⟨⟨?_,?_,h.write⟩,?_,fun i hi => h.bytes i ?_⟩
  · show s.handed ++ [s.buffer s.readIdx] <+: s.pushed
    rw [prefix_iff_eq_take,length_append,length_singleton,take_add_one,
      h.bytes _ (Nat.le_refl _) hlt,← List.prefix_iff_eq_take.mp h.order,h.read]
    rfl
  · rw [hlen]
    show (s.readIdx+1) % TTY_BUF_SIZE = _
    rw [h.read,Nat.mod_add_mod]
  · rw [hlen,Nat.add_right_comm]
    exact Nat.lt_succ_of_lt hroom
  · rw [hlen] at hi
    exact Nat.le_of_succ_le hi

/-- The ring looks empty when all that was pushed has been handed out. -/
theorem Inv.empty (h : Inv s) (heq : s.readIdx = s.writeIdx) : s.handed = s.pushed := by
  have hle := h.length_le
  have hroom := h.room
  rw [h.read,h.write] at heq
  simp only [TTY_BUF_SIZE] at heq hroom
  exact h.order.eq_of_length (by omega)

theorem Inv.ttyRead (h : Inv s) (n : Nat) : Inv (s.ttyRead n) := by
  induction n generalizing s with
  | zero => exact h
  | succ n ih =>
    rw [Ring.ttyRead]
    split
    · exact h
    · exact ih (h.remove ‹_›)

theorem Inv.step (h : Inv s) (he : Available s e) (hs : step s e = some s') : Inv s' := by
  cases e with
  | push c => cases hs; exact h.push c
  | test t => cases hs; exact { h with }
  | getc t =>
    obtain ⟨hf,hs⟩ := Option.ite_none_right_eq_some.mp hs
    cases hs
    exact { h.remove (he hf) with }
  | read count => cases hs; exact h.ttyRead count

theorem inv_start : Inv {} :=
  ⟨⟨prefix_rfl,rfl,rfl⟩,by decide,fun i _ hi => absurd hi (Nat.not_lt_zero i)⟩

end Steps

/-- The input is consumed once exactly if every reader that goes on to remove a byte finds one. -/
theorem consumed_once_iff (es : List Event) :
    Always step ConsumedOnce {} es ↔ Along step Available {} es := by
  refine always_iff_along (fun _ (h : Inv _) => h.toConsumedOnce)
    (fun _ _ _ h he hs => h.step he hs) ?_ {} es inv_start
  intro s e h hno
  cases e with
  | getc t =>
    obtain ⟨hf,heq⟩ := Classical.not_imp.mp hno
    refine ⟨_,if_pos hf,fun hbad => ?_⟩
    -- nothing was left, and a byte was handed out
    have hlong : s.handed.length+1 ≤ s.pushed.length := by
      rw [← length_singleton,← length_append]
      exact hbad.order.length_le
    rw [h.empty (not_not.mp heq)] at hlong
    exact Nat.not_succ_le_self _ hlong
  | _ => exact absurd trivial hno

/-- Two readers find the same byte. The second hands out one that nobody pushed. -/
theorem two_readers_one_byte :
    ¬Always step ConsumedOnce {} [.push 65,.test 1,.test 2,.getc 1,.getc 2] ∧
    (exec step {} [.push 65,.test 1,.test 2,.getc 1,.getc 2]).map (fun s => (s.pushed,s.handed)) =
      some ([65],[65,0]) := by
  refine ⟨fun h => ?_,rfl⟩
  exact absurd (h.last rfl).order.length_le (by decide)

end Lariat.Kernel.Tty
