import Mathlib.Data.List.Forall2
import Lariat.Foundation.Runs

/-! Message ports. What a call does under the scheduler lock is one step; a sender wakes a receiver
in a step of its own. -/
namespace Lariat.Kernel.Ports
open Foundation.Runs List

def IPC_MSG_MAX : Nat := 4096

structure Msg where
  sender : UInt32
  data : List UInt8

/-- A registered port. A receiver is known by the size of its buffer: those in `recvq` are blocked,
those in `woken` are to test the queue again. `waking` senders have queued a message and not yet
woken anyone. What was accepted and what was returned is recorded. -/
structure Port where
  queue : List Msg := []
  count : Int := 0
  recvq : List Nat := []
  woken : List Nat := []
  waking : Nat := 0
  accepted : List Msg := []
  returned : List (Nat × List UInt8) := []

inductive Event where
  | send (m : Msg) (memory : Bool)
  | wake
  | recv (max : Nat) (nonblock pending : Bool)
  | recheck (i : Nat) (pending : Bool)
  | interrupt (i : Nat)

namespace Port

variable (p : Port)

/-- `ipc_port_send` up to its wake-up: too long a message, or one there is no memory for, is refused. -/
def ipcPortSend (m : Msg) (memory : Bool) : Port :=
  if IPC_MSG_MAX < m.data.length ∨ !memory then p
  else
    { p with
      queue := p.queue ++ [m]
      count := p.count+1
      waking := p.waking+1
      accepted := p.accepted ++ [m] }

/-- `sched_wq_wake_n` for one receiver. -/
def wakeOne : Port :=
  match p.recvq with
  | [] => { p with waking := p.waking-1 }
  | r :: rest => { p with waking := p.waking-1, recvq := rest, woken := r :: p.woken }

/-- `ipc_port_recv` from its test of the queue on, until it returns or blocks. -/
def ipcPortRecv (max : Nat) (nonblock pending : Bool) : Port :=
  match p.queue with
  | m :: rest =>
    { p with queue := rest, count := p.count-1, returned := p.returned ++ [(max,m.data.take max)] }
  | [] => if nonblock || pending then p else { p with recvq := p.recvq ++ [max] }

def step : Event → Option Port
  | .send m memory => some (p.ipcPortSend m memory)
  | .wake => if 0 < p.waking then some p.wakeOne else none
  | .recv max nonblock pending => some (p.ipcPortRecv max nonblock pending)
  | .recheck i pending => p.woken[i]?.map fun max =>
    { p with woken := p.woken.eraseIdx i }.ipcPortRecv max false pending
  -- a signal takes a blocked receiver off the wait queue
  | .interrupt i => p.recvq[i]?.map fun max =>
    { p with recvq := p.recvq.eraseIdx i, woken := max :: p.woken }

end Port

/-- A message as it is returned to a buffer. -/
def Cut (r : Nat × List UInt8) (m : Msg) : Prop := r.2 = m.data.take r.1

/-- Every queued message has a wake-up on its way, as long as a receiver is blocked. -/
structure Inv (p : Port) : Prop where
  order : ∃ taken, p.accepted = taken ++ p.queue ∧ List.Forall₂ Cut p.returned taken
  count : p.count = p.queue.length
  awake : p.recvq ≠ [] → p.queue.length ≤ p.waking+p.woken.length

section Steps

variable {p p' : Port} {e : Event}

theorem Inv.send (h : Inv p) (m : Msg) (memory : Bool) : Inv (p.ipcPortSend m memory) := by
  rw [Port.ipcPortSend]
  split
  · exact h
  obtain ⟨taken,hacc,hret⟩ := h.order
  refine ⟨⟨taken,?_,hret⟩,?_,fun hb => ?_⟩
  · rw [hacc,append_assoc]
  · rw [h.count,length_append]
    rfl
  · have hle := h.awake hb
    show (p.queue ++ [m]).length ≤ p.waking+1+p.woken.length
    rw [length_append,length_singleton]
    omega

theorem Inv.wakeOne (h : Inv p) (hw : 0 < p.waking) : Inv p.wakeOne := by
  rw [Port.wakeOne]
  split
  · rename_i hnil
    exact ⟨h.order,h.count,fun hb => absurd hnil hb⟩
  rename_i r rest hr
  refine ⟨h.order,h.count,fun _ => ?_⟩
  have hle := h.awake (by rw [hr]; exact cons_ne_nil r rest)
  show p.queue.length ≤ p.waking-1+(p.woken.length+1)
  omega

/-- A receiver tests the queue. It may be one of the woken, which have then one less. -/
theorem Inv.recv (h : Inv p) {woken : List Nat} (hlen : p.woken.length ≤ woken.length+1)
    (max : Nat) (nonblock pending : Bool) :
    Inv (Port.ipcPortRecv { p with woken := woken } max nonblock pending) := by
  obtain ⟨taken,hacc,hret⟩ := h.order
  rw [Port.ipcPortRecv]
  split
  · rename_i m rest hq
    have hq : p.queue = m :: rest := hq
    refine ⟨⟨taken ++ [m],?_,?_⟩,?_,fun hb => ?_⟩
    · rw [hacc,hq,append_assoc]
      rfl
    · exact rel_append hret (.cons rfl .nil)
    · show p.count-1 = (rest.length : Int)
      rw [h.count,hq,length_cons]
      omega
    · have hle := h.awake hb
      rw [hq,length_cons] at hle
      show rest.length ≤ p.waking+woken.length
      omega
  · rename_i hq
    -- nothing is queued, so the receiver that blocks has nothing to be woken for
    have hnone (k : Nat) : p.queue.length ≤ k := by
      rw [show p.queue = [] from hq]
      exact Nat.zero_le k
    split
    · exact ⟨⟨taken,hacc,hret⟩,h.count,fun _ => hnone _⟩
    · exact ⟨⟨taken,hacc,hret⟩,h.count,fun _ => hnone _⟩

theorem Inv.step (h : Inv p) (hs : p.step e = some p') : Inv p' := by
  cases e with
  | send m memory =>
    cases hs
    exact h.send m memory
  | wake =>
    obtain ⟨hw,hs⟩ := Option.ite_none_right_eq_some.mp hs
    cases hs
    exact h.wakeOne hw
  | recv max nonblock pending =>
    cases hs
    exact h.recv (Nat.le_succ _) max nonblock pending
  | recheck i pending =>
    obtain ⟨max,hi,rfl⟩ := Option.map_eq_some_iff.mp hs
    have hlt := (List.getElem?_eq_some_iff.mp hi).1
    have hlen := length_eraseIdx_of_lt hlt
    exact h.recv (by omega) max false pending
  | interrupt i =>
    obtain ⟨max,hi,rfl⟩ := Option.map_eq_some_iff.mp hs
    refine ⟨h.order,h.count,fun _ => ?_⟩
    have hle := h.awake (ne_nil_of_mem (mem_of_getElem? hi))
    show p.queue.length ≤ p.waking+(p.woken.length+1)
    omega

/-- In every interleaving the messages come out in the order they went in, each once, and no receiver
sleeps beside a message that nobody is about to take or to wake a receiver for. -/
theorem port_reliable {es : List Event} (hrun : exec Port.step {} es = some p) :
    (∃ taken, p.accepted = taken ++ p.queue ∧ List.Forall₂ Cut p.returned taken) ∧
      p.count = p.queue.length ∧
      ¬(p.queue ≠ [] ∧ p.recvq ≠ [] ∧ p.waking = 0 ∧ p.woken = []) := by
  have hstart : Inv {} := ⟨⟨[],rfl,.nil⟩,rfl,fun hb => absurd rfl hb⟩
  have h : Inv p := exec_keeps (fun _ _ _ h _ hs => h.step hs) hstart
    (fun _ _ => trivial) hrun
  refine ⟨h.order,h.count,fun ⟨hq,hb,hw,hn⟩ => ?_⟩
  have hle := h.awake hb
  rw [hw,hn] at hle
  exact hq (List.length_eq_zero_iff.mp (Nat.le_zero.mp hle))

/-- A message that a polling receiver takes before the one woken for it. -/
theorem port_reliable_overtaken : ∃ p, exec Port.step {} [.recv 8 false false,.send ⟨1,[7,8,9]⟩ true,.wake,
    .recv 2 true false,.recheck 0 false] = some p ∧ p.returned = [(2,[7,8])] ∧ p.recvq = [8] ∧
      p.count = p.queue.length := by
  have hrun : exec Port.step {} [.recv 8 false false,.send ⟨1,[7,8,9]⟩ true,.wake,.recv 2 true false,
    .recheck 0 false] = some _ := rfl
  exact ⟨_,hrun,rfl,rfl,(port_reliable hrun).2.1⟩

end Steps

end Lariat.Kernel.Ports
