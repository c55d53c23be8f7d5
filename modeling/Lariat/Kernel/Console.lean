import Lariat.Kernel.Tty

/-! The console in canonical mode: `canon_fill` assembles a line from the bytes in the terminal's ring,
and `console_read` hands it out. -/
namespace Lariat.Kernel.Console
open Foundation.Runs List Option

def CANON_MAX : Nat := 1024

/-- What `canon_fill` looks at in `struct termios`. -/
structure Termios where
  icrnl : Bool := true
  veof : UInt8 := 4
  verase : UInt8 := 0x7f

/-- The ring, the completed line with the position in it, the call that is assembling one (its count,
and what is in `canon_buf`), and a record of the bytes typed and returned. -/
structure State where
  ring : Tty.Ring := {}
  line : List UInt8 := []
  pos : Nat := 0
  call : Option (Nat × List UInt8) := none
  typed : List UInt8 := []
  returned : List UInt8 := []

/-- The end of `console_read`. -/
def State.deliver (s : State) (count : Nat) : State :=
  let n := min count (s.line.length-s.pos)
  { s with pos := s.pos+n, returned := s.returned ++ (s.line.drop s.pos).take n, call := none }

/-- A byte is typed, `console_read` is called, the call takes a byte, or a signal interrupts it. -/
inductive Event where
  | type (c : UInt8)
  | read (count : Nat)
  | getc
  | signal

/-- What a byte is to the line being assembled. -/
inductive Class where
  | newline
  | eof
  | erase
  | plain (c : UInt8)

def Termios.classify (tio : Termios) (c : UInt8) : Class :=
  let c := if tio.icrnl ∧ c = 13 then 10 else c
  if c = 10 then .newline
  else if c = tio.veof then .eof
  else if c = tio.verase ∨ c = 8 then .erase
  else .plain c

variable (tio : Termios)

/-- One round of the loop in `canon_fill`, and what `console_read` does when it ends. -/
def State.fill (s : State) (count : Nat) (part : List UInt8) : Class → State
  | .newline =>
    { s with line := if part.length < CANON_MAX then part ++ [10] else part, pos := 0 }.deliver count
  | .eof => if part = [] then { s with call := none } else { s with line := part, pos := 0 }.deliver count
  | .erase => { s with call := some (count,part.dropLast) }
  | .plain c => { s with call := some (count,if part.length < CANON_MAX-1 then part ++ [c] else part) }

def step (s : State) : Event → Option State
  | .type c => some { s with ring := s.ring.push c, typed := s.typed ++ [c] }
  | .read count =>
    if s.call.isSome then none
    else if count = 0 then some s
    else if s.pos < s.line.length then some (s.deliver count)
    else some { s with call := some (count,[]) }
  | .getc =>
    if s.ring.readIdx = s.ring.writeIdx then none
    else s.call.map fun (count,part) =>
      State.fill { s with ring := s.ring.remove } count part (tio.classify (s.ring.buffer s.ring.readIdx))
  | .signal => if s.call.isSome ∧ s.ring.readIdx = s.ring.writeIdx then some { s with call := none } else none

/-- The lines completed so far and the one begun, as typed bytes edit them. -/
def edit (e : List UInt8 × List UInt8) (c : UInt8) : List UInt8 × List UInt8 :=
  match tio.classify c with
  | .newline => (e.1 ++ e.2 ++ [10],[])
  | .eof => (e.1 ++ e.2,[])
  | .erase => (e.1,e.2.dropLast)
  | .plain c => (e.1,e.2 ++ [c])

def edited (typed : List UInt8) : List UInt8 × List UInt8 := typed.foldl (edit tio) ([],[])

/-- What was returned is the beginning of the edited input, and all of it once nothing is left to
take or to return. -/
def Delivered (s : State) : Prop :=
  s.returned <+: (edited tio s.typed).1 ∧
    (s.ring.readIdx = s.ring.writeIdx → s.line.length ≤ s.pos → s.returned = (edited tio s.typed).1)

/-- A byte is typed when the ring has room, lines stay within the limit, and a call is interrupted
only while its line is empty. -/
def Whole (s : State) : Event → Prop
  | .type _ => (s.ring.writeIdx+1) % Tty.TTY_BUF_SIZE ≠ s.ring.readIdx
  | .getc => ∀ count part b, s.call = some (count,part) →
    tio.classify (s.ring.buffer s.ring.readIdx) = .plain b → part.length < CANON_MAX-1
  | .signal => ∀ count part, s.call = some (count,part) → part = []
  | .read _ => True

/-- Every byte taken is in a line that was or will be returned, or in the one being assembled. -/
structure Inv (s : State) : Prop where
  ring : Tty.Inv s.ring
  typed : s.typed = s.ring.pushed
  taken : edited tio s.ring.handed = (s.returned ++ s.line.drop s.pos,(s.call.map Prod.snd).getD [])
  begun : ∀ count part, s.call = some (count,part) → s.line.length ≤ s.pos ∧ part.length < CANON_MAX

section

variable {tio} {s s' : State} {e : Event}

variable (tio) in
theorem edit_prefix (typed : List UInt8) (e : List UInt8 × List UInt8) :
    e.1 <+: (typed.foldl (edit tio) e).1 := by
  induction typed generalizing e with
  | nil => exact prefix_rfl
  | cons c typed ih =>
    refine List.IsPrefix.trans ?_ (ih (edit tio e c))
    rw [edit]
    split
    · rw [append_assoc]
      exact prefix_append _ _
    · exact prefix_append _ _
    · exact prefix_rfl
    · exact prefix_rfl

theorem Inv.delivered (h : Inv tio s) : Delivered tio s := by
  obtain ⟨rest,hrest⟩ := h.ring.order
  have hpre := edit_prefix tio rest (edited tio s.ring.handed)
  rw [edited,← foldl_append,hrest,← edited] at hpre
  refine ⟨?_,fun hin hpos => ?_⟩
  · rw [h.typed]
    rw [h.taken] at hpre
    exact (prefix_append _ _).trans hpre
  · rw [h.typed,← h.ring.empty hin,h.taken,drop_of_length_le hpos,append_nil]

theorem Inv.deliver (h : Inv tio { s with call := none }) (count : Nat) : Inv tio (s.deliver count) := by
  refine ⟨h.ring,h.typed,?_,nofun⟩
  have hsplit := take_append_drop (min count (s.line.length-s.pos)) (s.line.drop s.pos)
  rw [drop_drop] at hsplit
  rw [State.deliver,append_assoc,hsplit]
  exact h.taken

theorem Inv.fill {count : Nat} {part : List UInt8} (h : Inv tio s)
    (hcall : s.call = some (count,part)) (hin : s.ring.readIdx ≠ s.ring.writeIdx)
    (hfit : ∀ b, tio.classify (s.ring.buffer s.ring.readIdx) = .plain b → part.length < CANON_MAX-1) :
    Inv tio (State.fill { s with ring := s.ring.remove } count part
      (tio.classify (s.ring.buffer s.ring.readIdx))) := by
  have hring := h.ring.remove hin
  have htyped := h.typed
  generalize hb : s.ring.buffer s.ring.readIdx = c at hfit ⊢
  obtain ⟨hpos,hlen⟩ := h.begun count part hcall
  have hnone : s.line.drop s.pos = [] := drop_of_length_le hpos
  have hnext : edited tio s.ring.remove.handed = edit tio (s.returned,part) c := by
    rw [Tty.Ring.remove,hb,edited,foldl_append,← edited,h.taken,hcall,hnone,append_nil]
    rfl
  rw [edit] at hnext
  cases hc : tio.classify c with
  | newline =>
    rw [hc] at hnext
    refine Inv.deliver (s := { s with ring := s.ring.remove, line := _, pos := 0 }) ⟨hring,htyped,?_,nofun⟩ count
    rw [hnext,if_pos hlen]
    exact congrArg (·,[]) (append_assoc ..)
  | eof =>
    rw [hc] at hnext
    rw [State.fill]
    split
    · rename_i hnil
      subst hnil
      exact ⟨hring,htyped,hnext.trans (by rw [hnone]; rfl),nofun⟩
    · exact Inv.deliver (s := { s with ring := s.ring.remove, line := part, pos := 0 })
        ⟨hring,htyped,hnext,nofun⟩ count
  | erase =>
    rw [hc] at hnext
    refine ⟨hring,htyped,hnext.trans ?_,?_⟩ <;> dsimp only [State.fill]
    · rw [hnone,append_nil]
      rfl
    · rintro _ _ ⟨⟩
      rw [length_dropLast]
      exact ⟨hpos,Nat.lt_of_le_of_lt (Nat.sub_le _ _) hlen⟩
  | plain b =>
    rw [hc] at hnext
    refine ⟨hring,htyped,hnext.trans ?_,?_⟩ <;> dsimp only [State.fill] <;> rw [if_pos (hfit b hc)]
    · rw [hnone,append_nil]
      rfl
    · rintro _ _ ⟨⟩
      rw [length_append]
      exact ⟨hpos,Nat.add_lt_of_lt_sub (hfit b hc)⟩

theorem Inv.step (h : Inv tio s) (he : Whole tio s e) (hs : step tio s e = some s') : Inv tio s' := by
  cases e with
  | type c =>
    cases hs
    have hring := h.ring.push c
    have hpush : (s.ring.push c).pushed = s.ring.pushed ++ [c] ∧ (s.ring.push c).handed = s.ring.handed := by
      have he : (s.ring.writeIdx+1) % Tty.TTY_BUF_SIZE ≠ s.ring.readIdx := he
      rw [Tty.Ring.push,if_pos he]
      exact ⟨rfl,rfl⟩
    exact ⟨hring,by rw [hpush.1,h.typed],by rw [hpush.2]; exact h.taken,h.begun⟩
  | read count =>
    rw [Console.step] at hs
    split at hs
    · cases hs
    rename_i hcall
    rw [Bool.not_eq_true,isSome_eq_false_iff,isNone_iff_eq_none] at hcall
    have htaken := h.taken
    rw [hcall] at htaken
    split at hs
    · cases hs
      exact h
    split at hs
    · cases hs
      exact Inv.deliver ⟨h.ring,h.typed,htaken,by rintro _ _ ⟨⟩⟩ count
    · cases hs
      refine ⟨h.ring,h.typed,htaken,?_⟩
      rintro _ _ ⟨⟩
      exact ⟨Nat.not_lt.mp ‹_›,by decide⟩
  | getc =>
    obtain ⟨hin,hs⟩ := ite_none_left_eq_some.mp hs
    obtain ⟨⟨count,part⟩,hcall,rfl⟩ := map_eq_some_iff.mp hs
    exact h.fill hcall hin fun b => he count part b hcall
  | signal =>
    obtain ⟨⟨hcall,-⟩,hs⟩ := ite_none_right_eq_some.mp hs
    cases hs
    obtain ⟨⟨count,part⟩,hcall⟩ := isSome_iff_exists.mp hcall
    refine ⟨h.ring,h.typed,?_,by rintro _ _ ⟨⟩⟩
    rw [h.taken,hcall]
    exact congrArg _ (he count part hcall)

end

/-- Within the line limit and the room of the ring, the edited input is delivered if no call is
interrupted in a line it has begun. -/
theorem input_delivered (es : List Event) (h : Along (step tio) (Whole tio) {} es) :
    Always (step tio) (Delivered tio) {} es :=
  always_of_along (I := Inv tio) (fun _ hi => hi.delivered) (fun _ _ _ hi he hs => hi.step he hs) {} es
    ⟨Tty.inv_start,rfl,rfl,nofun⟩ h

/-- A line is typed and read. -/
theorem delivered_line : (exec (step {}) {} [.type 97,.type 10,.read 9,.getc,.getc]).map State.returned =
      some [97,10] ∧
    Always (step {}) (Delivered {}) {} [.type 97,.type 10,.read 9,.getc,.getc] := by
  refine ⟨rfl,input_delivered {} _ (.cons (show 1 ≠ 0 by decide) rfl
    (.cons (show 2 ≠ 0 by decide) rfl (.cons trivial rfl
    (.cons ?_ rfl (.cons ?_ rfl trivial)))))⟩ <;>
  · rintro _ _ _ ⟨⟩ _
    decide

/-- A signal interrupts the call after it has taken a byte. The byte is lost. -/
theorem interrupted_byte_lost : ¬Always (step {}) (Delivered {}) {}
    [.type 97,.read 9,.getc,.signal,.type 10,.read 9,.getc] := by
  intro h
  exact absurd ((h.last rfl).2 rfl (by decide)) (by decide)

end Lariat.Kernel.Console
