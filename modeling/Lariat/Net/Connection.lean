import Lariat.Foundation.Runs
import Lariat.Foundation.Stream
import Lariat.Net.Tcp

/-! One connection over time: the calls on its control block, the segments that arrive for it and
its timer, with a record of what was sent, taken and returned. -/
namespace Lariat.Net
open Foundation Serial Stream UInt32

/-- A control block with its record: the segments sent, the bytes `tcp_send` took and `tcp_recv`
returned, the FINs taken, whether `tcp_close` was called, how far `snd_una` has come, and the places
and windows of the acknowledgements that came in. -/
structure Conn where
  pcb : Pcb
  sent : List Segment := []
  accepted : List UInt8 := []
  returned : List UInt8 := []
  fins : Nat := 0
  closed : Bool := false
  una : Nat := 0
  heard : List (Int × UInt16) := []

/-- A control block at the start of its record. -/
def Conn.start (p : Pcb) : Conn := { pcb := p }

inductive ConnEvent where
  | send (src : List UInt8) (sig : Bool)
  | recv (len : Nat) (sig : Bool)
  | close
  | input (seg : Segment)
  | timeout

namespace Conn

variable (c : Conn)

/-- The place of a number: of those it can have, the one near `snd_una`. -/
def place (a : UInt32) : Int := c.una + (a-c.pcb.sndUna).toInt32.toInt

/-- `snd_una` has moved on to that of `p`. -/
def moved (p : Pcb) : Conn := { c with pcb := p, una := c.una + (p.sndUna-c.pcb.sndUna).toNat }

def afterClose (o : Outcome) : Option Conn :=
  if o.freed then none else some { c with pcb := o.pcb, sent := c.sent ++ o.out, closed := true }

def afterInput (seg : Segment) (o : Outcome) : Option Conn :=
  if o.freed then none
  else some { c with
    pcb := o.pcb
    sent := c.sent ++ o.out
    fins := if o.fin then c.fins+1 else c.fins
    una := (c.moved o.pcb).una
    heard := if seg.flags.ack ∧ ¬seg.flags.rst then c.heard ++ [((c.moved o.pcb).place seg.ack,seg.win)]
      else c.heard }

/-- A call that waits does not take place, and a block that is freed has no further steps. -/
def step : ConnEvent → Option Conn
  | .send src sig => (tcpSendTurn c.pcb src sig).map fun r =>
    { c with pcb := r.1, sent := c.sent ++ r.2.1, accepted := c.accepted ++ src.take r.2.2 }
  | .recv len sig => (tcpRecv c.pcb len sig).map fun r =>
    { c with pcb := r.1, returned := c.returned ++ r.2.2 }
  | .close => c.afterClose (tcpClose c.pcb)
  | .input seg => c.afterInput seg (tcpInput c.pcb seg)
  | .timeout =>
    let r := tcpRtoCb (c.pcb.setRto false)
    some { c with pcb := r.1, sent := c.sent ++ r.2 }

end Conn

/-! ### What `tcp_output_data` sends -/

/-- A segment with data of the send buffer, which stands at a place of it. -/
def dataSeg (p : Pcb) (x : Nat × List UInt8) : Segment :=
  tcpSendSeg p { ack := true, psh := true } (nth p.sndUna x.1) x.2

/-- How much has been sent and not acknowledged. -/
def Pcb.flight (p : Pcb) : Nat := (p.sndNxt-p.sndUna).toNat

theorem Pcb.sndNxt_eq (p : Pcb) : p.sndNxt = nth p.sndUna p.flight := (nth_sub_base _ _).symm

theorem Pcb.sndBuf_lt (p : Pcb) : p.sndBuf.length < 0x10000 := by
  have hle := p.sndBuf.length_le'
  have hsize : TCP_SNDBUF = 16384 := rfl
  omega

/-- Where `tcp_output_data` stops: all data is sent, or all that the window allows. -/
def Pcb.outputEnd (p : Pcb) (a : Nat) : Nat := max a (min p.sndBuf.length p.window)

variable {p : Pcb}

theorem outputLoop_spec {k : Nat} {a : Nat} (hnxt : p.sndNxt = nth p.sndUna a)
    (ha : a < 0x100000000) (hk : p.sndBuf.length-a ≤ k) :
    ∃ ps, outputLoop k p (UInt32.ofNat a) (UInt32.ofNat a) =
        ({ p with sndNxt := nth p.sndUna (p.outputEnd a) },ps.map (dataSeg p)) ∧
      Cut p.sndBuf.items a ps (p.outputEnd a) := by
  have hbuf := p.sndBuf_lt
  induction k generalizing p a with
  | zero =>
    have hend : p.outputEnd a = a := by
      rw [Pcb.outputEnd]
      omega
    refine ⟨[],?_,?_⟩
    · rw [hend,← hnxt]
      rfl
    · rw [hend]
      exact .nil a
  | succ k ih =>
    rw [outputLoop,toNat_ofNat_of_lt' ha]
    split
    · rename_i hcond
      obtain ⟨hoff,hwnd,hchunk⟩ := hcond
      generalize hm : min (min (p.sndBuf.length-a) TCP_MSS) (p.window-a) = m at hchunk ⊢
      have hnext : p.sndNxt + UInt32.ofNat m = nth p.sndUna (a+m) := by
        rw [hnxt,nth_add]
      have hend : ({ p with sndNxt := p.sndNxt + UInt32.ofNat m } : Pcb).outputEnd (a+m) = p.outputEnd a := by
        show max (a+m) (min p.sndBuf.length p.window) = max a (min p.sndBuf.length p.window)
        omega
      obtain ⟨ps,hloop,hcut⟩ := ih (p := { p with sndNxt := p.sndNxt + UInt32.ofNat m }) hnext
        (by omega) (by show p.sndBuf.length-(a+m) ≤ k; omega) hbuf
      rw [hend] at hloop hcut
      rw [← ofNat_add,hloop]
      refine ⟨(a,(p.sndBuf.items.drop a).take m) :: ps,?_,.cons (Nat.pos_of_ne_zero hchunk) ?_ hcut⟩
      · rw [List.map_cons,dataSeg,hnxt]
        rfl
      · show a+m ≤ p.sndBuf.length
        omega
    · rename_i hcond
      have hend : p.outputEnd a = a := by
        rw [Pcb.outputEnd]
        have hmss : TCP_MSS = 1400 := rfl
        omega
      refine ⟨[],?_,?_⟩
      · rw [hend,← hnxt]
        rfl
      · rw [hend]
        exact .nil a

theorem tcpOutputData_spec (p : Pcb) :
    ∃ ps, tcpOutputData p p.sndUna =
        ({ p with sndNxt := nth p.sndUna (p.outputEnd p.flight) },ps.map (dataSeg p)) ∧
      Cut p.sndBuf.items p.flight ps (p.outputEnd p.flight) := by
  have hloop := outputLoop_spec p.sndNxt_eq (UInt32.toNat_lt _) (Nat.sub_le _ _)
  rw [Pcb.flight,UInt32.ofNat_toNat] at hloop
  exact hloop

/-! ### What the calls do -/

/-- The ways through a turn of `tcp_send`. -/
inductive SendCase (p : Pcb) (src : List UInt8) : Pcb × List Segment × Nat → Prop
  | idle : SendCase p src (p,[],0)
  | turn (b : Bool) : p.reset = false → p.state ≠ .closed → min src.length p.sndBuf.space ≠ 0 →
      (seqLt (tcpOutputData (p.queue src) (p.queue src).sndUna).1.sndUna
        (tcpOutputData (p.queue src) (p.queue src).sndUna).1.sndNxt = true → b = true) →
      SendCase p src ((tcpOutputData (p.queue src) (p.queue src).sndUna).1.setRto b,
        (tcpOutputData (p.queue src) (p.queue src).sndUna).2,min src.length p.sndBuf.space)

theorem tcpSendTurn_case {src : List UInt8} {sig : Bool} {r : Pcb × List Segment × Nat}
    (h : tcpSendTurn p src sig = some r) : SendCase p src r := by
  rw [tcpSendTurn] at h
  split at h
  · split at h
    · cases h
      exact .idle
    · cases h
  split at h
  · cases h
    exact .idle
  rename_i hopen
  have hreset : p.reset = false := Bool.eq_false_iff.mpr fun hr => hopen (by rw [hr]; rfl)
  have hstate : p.state ≠ .closed := fun hs => hopen (by rw [hs,hreset]; rfl)
  dsimp only at h
  split at h
  · cases h
    exact .idle
  rename_i hchunk
  cases h
  split
  · exact .turn true hreset hstate hchunk fun _ => rfl
  · rename_i hseq
    exact .turn _ hreset hstate hchunk fun h => absurd h hseq

/-- The ways through `tcp_recv`. -/
inductive RecvCase (p : Pcb) (len : Nat) : Pcb × Int × List UInt8 → Prop
  | nothing (r : Int) : RecvCase p len (p,r,[])
  | bytes {n : Nat} : n = min p.rcvBuf.length len → n ≠ 0 →
      RecvCase p len ({ p with rcvBuf := p.rcvBuf.drop n },n,p.rcvBuf.items.take n)

theorem tcpRecv_case {len : Nat} {sig : Bool} {r : Pcb × Int × List UInt8}
    (h : tcpRecv p len sig = some r) : RecvCase p len r := by
  rw [tcpRecv] at h
  split at h
  · split at h
    · cases h
      exact .nothing _
    · cases h
  dsimp only at h
  split at h
  · cases h
    exact .nothing _
  · rename_i hn
    cases h
    exact .bytes rfl hn

/-- The ways through `tcp_close`. -/
inductive CloseCase (p : Pcb) : Outcome → Prop
  | finWait : p.state = .established → CloseCase p (sendFin p .finWait1)
  | lastAck : p.state = .closeWait → CloseCase p (sendFin p .lastAck)
  | freed : p.state = .listen ∨ p.state = .synSent →
      CloseCase p { pcb := { p with state := .closed, rto := false }, freed := true }
  | nothing : p.state ≠ .established → p.state ≠ .closeWait → p.state ≠ .listen → p.state ≠ .synSent →
      CloseCase p { pcb := p }

theorem tcpClose_case (p : Pcb) : CloseCase p (tcpClose p) := by
  rw [tcpClose]
  cases hs : p.state with
  | established => exact .finWait hs
  | closeWait => exact .lastAck hs
  | listen => exact .freed (.inl hs)
  | synSent => exact .freed (.inr hs)
  | closed | synRcvd | finWait1 | finWait2 | closing | lastAck | timeWait =>
    exact .nothing (by rw [hs]; decide) (by rw [hs]; decide) (by rw [hs]; decide) (by rw [hs]; decide)

/-- The ways through the timer's callback. -/
inductive TimeoutCase (p : Pcb) : Pcb × List Segment → Prop
  | idle : p.state = .closed → TimeoutCase p (p,[])
  | exhausted : p.state ≠ .closed → TCP_MAX_RETRIES < p.retries+1 →
      TimeoutCase p ({ p with retries := p.retries+1, state := .closed, reset := true },[])
  | again : p.state ≠ .closed → p.retries < TCP_MAX_RETRIES →
      TimeoutCase p ({ p with retries := p.retries+1, rto := true },retransmission p)

theorem tcpRtoCb_case (p : Pcb) : TimeoutCase p (tcpRtoCb p) := by
  rw [tcpRtoCb]
  split
  · rename_i hs
    exact .idle hs
  rename_i hs
  split
  · rename_i hr
    exact .exhausted hs hr
  · rename_i hr
    exact .again hs (Nat.lt_of_succ_le (Nat.le_of_not_lt hr))

/-- The timer sends data again. -/
def Pcb.Retransmits (p : Pcb) : Prop :=
  p.state ≠ .closed ∧ p.state ≠ .synSent ∧ p.state ≠ .synRcvd ∧ p.retries < TCP_MAX_RETRIES ∧
    0 < p.sndBuf.length ∧ seqLt p.sndUna p.sndNxt = true

theorem Pcb.Retransmits.timeout (h : p.Retransmits) : tcpRtoCb p =
    ({ p with retries := p.retries+1, rto := true },
      [tcpSendSeg p { ack := true, psh := true } p.sndUna
        (p.sndBuf.items.take (min p.sndBuf.length TCP_MSS))]) := by
  obtain ⟨h1,h2,h3,h4,h5⟩ := h
  rw [tcpRtoCb,if_neg h1,if_neg (Nat.not_lt.mpr h4),retransmission,if_neg h2,if_neg h3,if_pos h5]

/-! ### What a segment does -/

/-- The states in which both sides have been heard. -/
def Pcb.Synchronised (p : Pcb) : Prop :=
  p.state = .established ∨ p.state = .finWait1 ∨ p.state = .finWait2 ∨ p.state = .closeWait ∨
    p.state = .lastAck ∨ p.state = .closing

section

variable (p : Pcb) (seg : Segment)

/-- The ways through `tcp_input`. -/
inductive InputCase : Outcome → Prop
  | reset : seg.flags.rst = true →
      InputCase { pcb := { p with reset := true, state := .closed, rto := false }, wake := true }
  | synSent : seg.flags.rst = false → p.state = .synSent → InputCase (inputSynSent p seg)
  | synRcvd : seg.flags.rst = false → p.state = .synRcvd → InputCase (inputSynRcvd p seg)
  | synchronised : seg.flags.rst = false → p.Synchronised → InputCase (inputSynchronised p seg)
  | ignored : seg.flags.rst = false → p.state = .closed ∨ p.state = .listen ∨ p.state = .timeWait →
      InputCase { pcb := p }

theorem tcpInput_case : InputCase p seg (tcpInput p seg) := by
  rw [tcpInput]
  split
  · rename_i hrst
    exact .reset hrst
  rename_i hrst
  have hrst := Bool.eq_false_iff.mpr hrst
  cases hs : p.state with
  | synSent => exact .synSent hrst hs
  | synRcvd => exact .synRcvd hrst hs
  | established => exact .synchronised hrst (.inl hs)
  | finWait1 => exact .synchronised hrst (.inr (.inl hs))
  | finWait2 => exact .synchronised hrst (.inr (.inr (.inl hs)))
  | closeWait => exact .synchronised hrst (.inr (.inr (.inr (.inl hs))))
  | lastAck => exact .synchronised hrst (.inr (.inr (.inr (.inr (.inl hs)))))
  | closing => exact .synchronised hrst (.inr (.inr (.inr (.inr (.inr hs)))))
  | closed => exact .ignored hrst (.inl hs)
  | listen => exact .ignored hrst (.inr (.inl hs))
  | timeWait => exact .ignored hrst (.inr (.inr hs))

/-- What the segment that completes the handshake does. -/
structure Establishes (o : Outcome) : Prop where
  ack : seg.flags.ack = true
  state : o.pcb.state = .established
  una : o.pcb.sndUna = p.sndNxt
  una_eq : seg.ack = p.sndNxt
  nxt : o.pcb.sndNxt = p.sndNxt
  window : o.pcb.sndWnd = if seg.win = 0 then UInt16.ofNat TCP_MSS else seg.win
  sndBuf : o.pcb.sndBuf = p.sndBuf
  rcvBuf : o.pcb.rcvBuf = p.rcvBuf
  reset : o.pcb.reset = p.reset
  finSent : o.pcb.finSent = p.finSent
  freed : o.freed = false
  fin : o.fin = false
  bare : ∀ s ∈ o.out, s.data = [] ∧ s.flags.fin = false

theorem inputSynSent_case :
    Establishes p seg (inputSynSent p seg) ∨ inputSynSent p seg = { pcb := p } := by
  rw [inputSynSent]
  split
  · rename_i h
    refine .inl ⟨h.2.1,rfl,h.2.2,h.2.2,rfl,rfl,rfl,rfl,rfl,rfl,rfl,rfl,fun s hs => ?_⟩
    rw [List.mem_singleton.mp hs]
    exact ⟨rfl,rfl⟩
  · exact .inr rfl

theorem inputSynRcvd_case :
    Establishes p seg (inputSynRcvd p seg) ∨ inputSynRcvd p seg = { pcb := p } := by
  rw [inputSynRcvd]
  split
  · rename_i h
    exact .inl ⟨h.1,rfl,h.2,h.2,rfl,rfl,rfl,rfl,rfl,rfl,rfl,rfl,fun s hs => absurd hs List.not_mem_nil⟩
  · exact .inr rfl

end

theorem takeAck_iff (hf : p.flight < 0x80000000) (a : UInt32) :
    (seqGt a p.sndUna && seqLe a p.sndNxt) = true ↔
      0 < (a-p.sndUna).toNat ∧ (a-p.sndUna).toNat ≤ p.flight := by
  have hd := toNat_lt (a-p.sndUna)
  have ha := nth_sub_base p.sndUna a
  have hgt : seqGt a p.sndUna = true ↔ 0 < (a-p.sndUna).toNat ∧ (a-p.sndUna).toNat < 0x80000000 :=
    decide_eq_true_iff.trans (pos_iff _)
  have hle : seqLe a p.sndNxt = true ↔ (a-p.sndNxt).toNat = 0 ∨ 0x80000000 ≤ (a-p.sndNxt).toNat :=
    decide_eq_true_iff.trans (nonpos_iff _)
  rw [Bool.and_eq_true,hgt,hle,p.sndNxt_eq]
  generalize (a-p.sndUna).toNat = d at hd ha
  rcases Nat.lt_or_ge d p.flight with hlt | hge
  · rw [← ha,toNat_nth_sub_back hlt (by omega)]
    omega
  · rw [← ha,toNat_nth_sub hge (by omega)]
    omega

/-! ### A connection for examples -/

/-- A block that has been connected. -/
def dialled : Pcb := { state := .synSent, sndNxt := 1, sndWnd := 1400 }

/-- The peer's answer to the SYN of `dialled`, with a window. -/
def synAck (win : UInt16) : ConnEvent :=
  .input { src := 80, dst := 49152, seq := 99, ack := 1, flags := { syn := true, ack := true }, win := win }

end Lariat.Net
