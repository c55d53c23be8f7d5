import Lariat.Foundation.Fifo
import Lariat.Foundation.Serial

/-! TCP as far as one control block goes: sending, the retransmission timer, the calls of the
socket layer and the input state machine. -/
namespace Lariat.Net
open Foundation

def EINTR : Int := 4
def ECONNRESET : Int := 104

def TCP_MAX_RETRIES : Nat := 6
def TCP_SNDBUF : Nat := 16384
def TCP_RCVBUF : Nat := 16384
def TCP_MSS : Nat := 1400

def seqLt (a b : UInt32) : Bool := (a-b).toInt32 < 0
def seqLe (a b : UInt32) : Bool := (a-b).toInt32 ≤ 0
def seqGt (a b : UInt32) : Bool := 0 < (a-b).toInt32

structure Flags where
  fin : Bool := false
  syn : Bool := false
  rst : Bool := false
  psh : Bool := false
  ack : Bool := false
  deriving DecidableEq, Repr

structure Segment where
  src : UInt16
  dst : UInt16
  seq : UInt32
  ack : UInt32
  flags : Flags
  win : UInt16
  data : List UInt8 := []
  deriving DecidableEq, Repr

inductive TcpState where
  | closed
  | listen
  | synSent
  | synRcvd
  | established
  | finWait1
  | finWait2
  | closeWait
  | closing
  | lastAck
  | timeWait
  deriving DecidableEq, Repr

/-- A control block. `rto` says whether the timer is armed; the accept queue of a listener and a
parent are known by number. -/
structure Pcb where
  state : TcpState := .closed
  localIp : UInt32 := 0
  remoteIp : UInt32 := 0
  localPort : UInt16 := 0
  remotePort : UInt16 := 0
  sndUna : UInt32 := 0
  sndNxt : UInt32 := 0
  rcvNxt : UInt32 := 0
  sndWnd : UInt16 := 0
  sndBuf : Fifo UInt8 TCP_SNDBUF := .empty
  rcvBuf : Fifo UInt8 TCP_RCVBUF := .empty
  rto : Bool := false
  retries : Nat := 0
  finSent : Bool := false
  reset : Bool := false
  acceptQueue : List Nat := []
  parent : Option Nat := none

namespace Pcb

variable (p : Pcb)

/-- The timer armed or cancelled. -/
def setRto (b : Bool) : Pcb := { p with rto := b }

/-- The send buffer with as many more bytes as it has room for. -/
def queue (src : List UInt8) : Pcb := { p with sndBuf := p.sndBuf.push src }

end Pcb

/-- The header `tcp_send_seg` writes. -/
def tcpSendSeg (p : Pcb) (flags : Flags) (seq : UInt32) (data : List UInt8) : Segment where
  src := p.localPort
  dst := p.remotePort
  seq := seq
  ack := p.rcvNxt
  flags := flags
  win := UInt16.ofNat (min p.rcvBuf.space 0xFFFF)
  data := data

/-! ### Sending -/

/-- The window `tcp_output_data` keeps to: that of the peer, or one byte to probe it. -/
def Pcb.window (p : Pcb) : Nat := if p.sndWnd = 0 then 1 else p.sndWnd.toNat

/-- The loop of `tcp_output_data`. Each turn sends at least one byte. -/
def outputLoop : Nat → Pcb → UInt32 → UInt32 → Pcb × List Segment
  | 0, p, _, _ => (p,[])
  | k+1, p, outstanding, offset =>
    let can := p.window-outstanding.toNat
    let chunk := min (min (p.sndBuf.length-offset.toNat) TCP_MSS) can
    if offset.toNat < p.sndBuf.length ∧ outstanding.toNat < p.window ∧ chunk ≠ 0 then
      let seg := tcpSendSeg p { ack := true, psh := true } p.sndNxt
        ((p.sndBuf.items.drop offset.toNat).take chunk)
      let r := outputLoop k { p with sndNxt := p.sndNxt + UInt32.ofNat chunk }
        (outstanding + UInt32.ofNat chunk) (offset + UInt32.ofNat chunk)
      (r.1,seg :: r.2)
    else (p,[])

def tcpOutputData (p : Pcb) (base : UInt32) : Pcb × List Segment :=
  outputLoop p.sndBuf.length p (p.sndNxt-p.sndUna) (p.sndNxt-base)

/-- What the timer sends again: the oldest control segment or data. -/
def retransmission (p : Pcb) : List Segment :=
  if p.state = .synSent then [tcpSendSeg p { syn := true } p.sndUna []]
  else if p.state = .synRcvd then [tcpSendSeg p { syn := true, ack := true } p.sndUna []]
  else if 0 < p.sndBuf.length ∧ seqLt p.sndUna p.sndNxt then
    [tcpSendSeg p { ack := true, psh := true } p.sndUna (p.sndBuf.items.take (min p.sndBuf.length TCP_MSS))]
  else if p.finSent then [tcpSendSeg p { ack := true, fin := true } (p.sndNxt-1) []]
  else []

def tcpRtoCb (p : Pcb) : Pcb × List Segment :=
  if p.state = .closed then (p,[])
  else if TCP_MAX_RETRIES < p.retries+1 then
    ({ p with retries := p.retries+1, state := .closed, reset := true },[])
  else ({ p with retries := p.retries+1, rto := true },retransmission p)

/-! ### Calls of the socket layer -/

/-- What `tcp_send` waits for. -/
def Pcb.canSend (p : Pcb) : Bool := p.sndBuf.length < TCP_SNDBUF || p.reset || p.state == .closed

/-- One turn of the loop of `tcp_send`, with the bytes still to send and whether a signal is
pending: the block after it, what is sent and how many bytes were taken. It waits where there is no
result. -/
def tcpSendTurn (p : Pcb) (src : List UInt8) (sig : Bool) : Option (Pcb × List Segment × Nat) :=
  if !p.canSend then if sig then some (p,[],0) else none
  else if p.reset || p.state == .closed then some (p,[],0)
  else
    let chunk := min src.length p.sndBuf.space
    if chunk = 0 then some (p,[],0)
    else
      let q := p.queue src
      let r := tcpOutputData q q.sndUna
      some (if seqLt r.1.sndUna r.1.sndNxt then r.1.setRto true else r.1,r.2,chunk)

/-- What `tcp_recv` waits for. -/
def Pcb.canRecv (p : Pcb) : Bool :=
  0 < p.rcvBuf.length || p.state == .closeWait || p.state == .closed || p.reset

/-- The block after `tcp_recv`, its result and the bytes it copies out. -/
def tcpRecv (p : Pcb) (len : Nat) (sig : Bool) : Option (Pcb × Int × List UInt8) :=
  if !p.canRecv then if sig then some (p,-EINTR,[]) else none
  else
    let n := min p.rcvBuf.length len
    let eof := n = 0 ∧ (p.state = .closeWait ∨ p.state = .closed)
    if n = 0 then some (p,if eof then 0 else -1,[])
    else some ({ p with rcvBuf := p.rcvBuf.drop n },n,p.rcvBuf.items.take n)

/-- The result of `recv` on a stream socket, which passes on the lower half of the length. -/
def socketRecvfrom (p : Pcb) (len : UInt64) (sig : Bool) : Option Int :=
  (tcpRecv p len.toUInt32.toNat sig).map fun r =>
    if r.2.1 = -EINTR then -EINTR else if r.2.1 < 0 then -ECONNRESET else r.2.1

/-- What an operation does: the block after it, the segments it sends, whether it frees the block
and whether it wakes those who wait on it. `fin` and `attach` say that a FIN was taken and that the
block goes to its parent's accept queue. -/
structure Outcome where
  pcb : Pcb
  out : List Segment := []
  freed : Bool := false
  wake : Bool := false
  fin : Bool := false
  attach : Bool := false

section

variable (p : Pcb)

/-- The FIN of `tcp_close`. -/
def sendFin (next : TcpState) : Outcome where
  pcb := { p with sndNxt := p.sndNxt+1, finSent := true, state := next, rto := true }
  out := [tcpSendSeg p { ack := true, fin := true } p.sndNxt []]

def tcpClose : Outcome :=
  match p.state with
  | .established => sendFin p .finWait1
  | .closeWait => sendFin p .lastAck
  | .listen | .synSent => { pcb := { p with state := .closed, rto := false }, freed := true }
  | _ => { pcb := p }

/-! ### Input -/

def tcpDeliverData (data : List UInt8) : Pcb :=
  { p with
    rcvBuf := p.rcvBuf.push data
    rcvNxt := p.rcvNxt + UInt32.ofNat (min data.length p.rcvBuf.space) }

/-- The acknowledgement number of a segment. -/
def takeAck (seg : Segment) : Pcb × Bool :=
  if seqGt seg.ack p.sndUna && seqLe seg.ack p.sndNxt then
    let acked := (seg.ack-p.sndUna).toNat
    ({ p with
      sndBuf := p.sndBuf.drop (min acked p.sndBuf.length)
      sndUna := seg.ack
      retries := 0
      rto := if seg.ack = p.sndNxt then false else p.rto },true)
  else (p,false)

def takeWindow (seg : Segment) : Pcb :=
  { p with sndWnd := if seg.win = 0 then p.sndWnd else seg.win }

/-- What the acknowledgement of our FIN does, and whether it frees the block. -/
def finAcked : Pcb × Bool :=
  if p.state = .finWait1 ∧ p.sndUna = p.sndNxt then ({ p with state := .finWait2 },false)
  else if (p.state = .lastAck ∨ p.state = .closing) ∧ p.sndUna = p.sndNxt then
    ({ p with state := .closed, rto := false },true)
  else (p,false)

/-- The part of the input that a segment with an ACK runs: the block, whether to wake and whether
the block is freed. -/
def processAck (seg : Segment) : Pcb × Bool × Bool :=
  if seg.flags.ack then
    let a := takeAck p seg
    let r := finAcked (takeWindow a.1 seg)
    (r.1,a.2,r.2)
  else (p,false,false)

def Pcb.receives : Prop := p.state = .established ∨ p.state = .finWait1 ∨ p.state = .finWait2

instance (p : Pcb) : Decidable p.receives := inferInstanceAs (Decidable (_ ∨ _))

/-- The segment that acknowledges what has been received. -/
def ackSeg : Segment := tcpSendSeg p { ack := true } p.sndNxt []

def processData (seg : Segment) : Pcb × List Segment × Bool :=
  if 0 < seg.data.length ∧ seg.seq = p.rcvNxt ∧ p.receives then
    (tcpDeliverData p seg.data,[ackSeg (tcpDeliverData p seg.data)],true)
  else if 0 < seg.data.length ∧ seqLt seg.seq (p.rcvNxt+1) then (p,[ackSeg p],false)
  else (p,[],false)

/-- The block takes a FIN that stands where the received bytes end. -/
def takeFin : Pcb :=
  match p.state with
  | .established => { p with state := .closeWait }
  | .finWait2 => { p with state := .closed, rto := false }
  | .finWait1 => { p with state := .closing }
  | _ => p

def processFin (seg : Segment) : Pcb × List Segment × Bool :=
  if seg.flags.fin ∧ seg.seq + UInt32.ofNat seg.data.length = p.rcvNxt then
    let q := { p with rcvNxt := p.rcvNxt+1 }
    (takeFin q,[ackSeg q],true)
  else (p,[],false)

/-- Data that the window has become open for. -/
def pushData : Pcb × List Segment :=
  if p.state = .established ∧ 0 < p.sndBuf.length then tcpOutputData p p.sndUna else (p,[])

/-- Input in a synchronised state. -/
def inputSynchronised (seg : Segment) : Outcome :=
  let a := processAck p seg
  if a.2.2 then { pcb := a.1, freed := true }
  else
    let d := processData a.1 seg
    let f := processFin d.1 seg
    let o := pushData f.1
    { pcb := o.1, out := d.2.1 ++ f.2.1 ++ o.2, wake := a.2.1 || d.2.2 || f.2.2, fin := f.2.2 }

/-- The answer to our SYN. -/
def inputSynSent (seg : Segment) : Outcome :=
  if seg.flags.syn ∧ seg.flags.ack ∧ seg.ack = p.sndNxt then
    let q := { p with
      rcvNxt := seg.seq+1
      sndUna := seg.ack
      sndWnd := if seg.win = 0 then UInt16.ofNat TCP_MSS else seg.win
      state := .established
      retries := 0
      rto := false }
    { pcb := q, out := [ackSeg q], wake := true }
  else { pcb := p }

/-- The answer to our SYN and ACK. -/
def inputSynRcvd (seg : Segment) : Outcome :=
  if seg.flags.ack ∧ seg.ack = p.sndNxt then
    { pcb := { p with
        sndUna := seg.ack
        sndWnd := if seg.win = 0 then UInt16.ofNat TCP_MSS else seg.win
        state := .established
        retries := 0
        rto := false }
      attach := true }
  else { pcb := p }

/-- `tcp_input` for the block a segment belongs to. -/
def tcpInput (seg : Segment) : Outcome :=
  if seg.flags.rst then { pcb := { p with reset := true, state := .closed, rto := false }, wake := true }
  else
    match p.state with
    | .synSent => inputSynSent p seg
    | .synRcvd => inputSynRcvd p seg
    | .established | .finWait1 | .finWait2 | .closeWait | .lastAck | .closing => inputSynchronised p seg
    | .closed | .listen | .timeWait => { pcb := p }

end

end Lariat.Net
