import Mathlib.Data.List.GetD
import Lariat.Foundation.OnesComplement
import Lariat.Foundation.Runs
import Lariat.Net.Tcp

/-! Packet buffers, the headers the stack puts before and takes off them, and the whole life of a
packet: where in its buffer it lies and which bytes are touched. -/
namespace Lariat.Net.Packets
open Foundation

def PBUF_SIZE : Nat := 2048
def PBUF_HEADROOM : Nat := 128
def ETH_HDRLEN : Nat := 14
def ETH_P_IP : UInt16 := 0x0800
def ETH_P_ARP : UInt16 := 0x0806
def IP_PROTO_ICMP : UInt8 := 1
def IP_PROTO_TCP : UInt8 := 6
def IP_PROTO_UDP : UInt8 := 17

/-- `store` is the memory from the start of the buffer on, past its end too. `log` has the ranges that
were copied to or from and the places the packet's data have had. -/
structure Pbuf where
  off : Nat
  len : Nat
  store : Nat → UInt8
  log : List (Nat × Nat)

def pbufAlloc (memory : Nat → UInt8) : Pbuf := ⟨PBUF_HEADROOM,0,memory,[(PBUF_HEADROOM,0)]⟩

namespace Pbuf

variable (p : Pbuf)

def byte (i : Nat) : UInt8 := p.store (p.off+i)

def data : List UInt8 := (List.range p.len).map p.byte

/-- A big-endian field. -/
def be16 (i : Nat) : Nat := 256*(p.byte i).toNat+(p.byte (i+1)).toNat

/-- An address, as the machine loads it. -/
def word (i : Nat) : UInt32 :=
  (p.byte i).toUInt32 ||| (p.byte (i+1)).toUInt32 <<< 8 ||| (p.byte (i+2)).toUInt32 <<< 16 |||
    (p.byte (i+3)).toUInt32 <<< 24

def access (start n : Nat) : Pbuf := { p with log := (start,n) :: p.log }

/-- A header of `n` bytes is read, if there is one. -/
def peek (n : Nat) : Pbuf := if p.len < n then p else p.access p.off n

def setLen (n : Nat) : Pbuf := { p with len := n, log := (p.off,n) :: p.log }

/-- `memcpy` to the front of the data. -/
def copyIn (bytes : List UInt8) : Pbuf :=
  { p with
    store := fun j => if j < p.off then p.store j else bytes.getD (j-p.off) (p.store j)
    log := (p.off,bytes.length) :: p.log }

def pbufPush (n : Nat) : Option Pbuf :=
  if p.off < n then none else some ({ p with off := p.off-n }.setLen (p.len+n))

def pbufPull (n : Nat) : Option Pbuf :=
  if p.len < n then none else some ({ p with off := p.off+n }.setLen (p.len-n))

/-- The callers of `pbuf_pull` do not look at its result. -/
def strip (n : Nat) : Pbuf := (p.pbufPull n).getD p

def prepend (header : List UInt8) : Option Pbuf := (p.pbufPush header.length).map (·.copyIn header)

end Pbuf

section Headers

def be16 (x : UInt16) : List UInt8 := [(x >>> 8).toUInt8,x.toUInt8]
def le16 (x : UInt16) : List UInt8 := [x.toUInt8,(x >>> 8).toUInt8]
def le32 (x : UInt32) : List UInt8 := [x.toUInt8,(x >>> 8).toUInt8,(x >>> 16).toUInt8,(x >>> 24).toUInt8]
def be32 (x : UInt32) : List UInt8 := (le32 x).reverse

/-- An address is kept in network order, so its bytes are those the machine stores. -/
def ipHdr (len id : UInt16) (proto : UInt8) (csum : UInt16) (src dst : UInt32) : List UInt8 :=
  [0x45,0] ++ be16 len ++ be16 id ++ [0,0,64,proto] ++ le16 csum ++ le32 src ++ le32 dst

def udpHdr (src dst len csum : UInt16) : List UInt8 := be16 src ++ be16 dst ++ be16 len ++ le16 csum

def tcpHdr (src dst : UInt16) (seq ack : UInt32) (flags : UInt8) (win csum : UInt16) : List UInt8 :=
  be16 src ++ be16 dst ++ be32 seq ++ be32 ack ++ [0x50,flags] ++ be16 win ++ le16 csum ++ [0,0]

def pseudo (src dst : UInt32) (proto : UInt8) (len : UInt16) : List UInt8 :=
  le32 src ++ le32 dst ++ [0,proto] ++ be16 len

def inetSum : List UInt8 → UInt32 → UInt32
  | a :: b :: rest, s => inetSum rest (s+(a.toUInt32 ||| b.toUInt32 <<< 8))
  | [a], s => s+a.toUInt32
  | [], s => s

def inetFold (s : UInt32) : UInt16 := ~~~(UInt16.ofNat (OnesComplement.fold s.toNat))

def inetChecksum (bytes : List UInt8) : UInt16 := inetFold (inetSum bytes 0)

/-- `header` has no checksum yet. A checksum of 0 would mean that there is none. -/
def udpCsum (src dst : UInt32) (len : UInt16) (header data : List UInt8) : UInt16 :=
  let c := inetFold (inetSum data (inetSum header (inetSum (pseudo src dst IP_PROTO_UDP len) 0)))
  if c = 0 then 0xFFFF else c

end Headers

section Output

/-- A packet with just these bytes. -/
def filled (memory : Nat → UInt8) (bytes : List UInt8) : Pbuf :=
  ((pbufAlloc memory).copyIn bytes).setLen bytes.length

/-- The packet `udp_sendto` hands to `ipv4_output`. -/
def udpSendto (memory : Nat → UInt8) (localPort port : UInt16) (src ip : UInt32) (data : List UInt8) :
    Option Pbuf :=
  if PBUF_SIZE-64 < data.length then none
  else
    let len := UInt16.ofNat (8+data.length)
    let csum := udpCsum src ip len (udpHdr localPort port len 0) data
    (filled memory data).prepend (udpHdr localPort port len csum)

/-- The packet `tcp_send_seg` hands to `ipv4_output`. -/
def tcpSendSeg (memory : Nat → UInt8) (localPort remotePort : UInt16) (seq ack : UInt32) (flags : UInt8)
    (win : UInt16) (src ip : UInt32) (data : List UInt8) : Option Pbuf :=
  let header := tcpHdr localPort remotePort seq ack flags win
  let sum := inetSum (pseudo src ip IP_PROTO_TCP (UInt16.ofNat (20+data.length))) 0
  (filled memory data).prepend (header (inetFold (inetSum (header 0 ++ data) sum)))

/-- The packet `ipv4_output` hands to the link, when there is an interface with address `src`. -/
def ipv4Output (src dst : UInt32) (id : UInt16) (proto : UInt8) (p : Pbuf) : Option Pbuf :=
  let header := fun csum => ipHdr (UInt16.ofNat (p.len+20)) id proto csum src dst
  p.prepend (header (inetChecksum (header 0)))

def ethOutput (dst src : Vector UInt8 6) (type : UInt16) (p : Pbuf) : Option Pbuf :=
  p.prepend (dst.toList ++ src.toList ++ be16 type)

end Output

section Input

variable (p : Pbuf)

def headerLength : Nat := (p.byte 0).toNat%16*4

def totalLength : Nat := p.be16 2

/-- The protocol, the source address and the packet handed up. -/
def ipv4Input : Option (UInt8 × UInt32 × Pbuf) :=
  if p.len < 20 then none
  else if (p.byte 0).toNat/16 ≠ 4 ∨ headerLength p < 20 then none
  else if p.len < totalLength p then none
  else if p.byte 9 = IP_PROTO_ICMP ∨ p.byte 9 = IP_PROTO_UDP ∨ p.byte 9 = IP_PROTO_TCP then
    some (p.byte 9,p.word 12,((p.access p.off 20).setLen (totalLength p)).strip (headerLength p))
  else none

/-- The datagram `udp_input` queues when a socket takes it. -/
def udpInput : Option Pbuf :=
  if p.len < 8 then none
  else if p.be16 4 < 8 ∨ p.len < p.be16 4 then none
  else some (((p.access p.off 8).strip 8).setLen (p.be16 4-8))

/-- The reply `icmp_input` makes in place. -/
def icmpInput : Option Pbuf :=
  if p.len < 8 ∨ p.byte 0 ≠ 8 then none
  else
    let q := (p.access p.off 8).copyIn [0,0,0,0]
    some ((q.access q.off q.len).copyIn ([0,0] ++ le16 (inetChecksum q.data)))

/-- What `tcp_input` reads; how much of the payload depends on the connection. -/
def tcpInput : Pbuf :=
  let hdrlen := (p.byte 12).toNat/16*4
  if p.len < 20 ∨ hdrlen < 20 ∨ p.len < hdrlen then p.peek 20
  else (p.peek 20).access (p.off+hdrlen) (p.len-hdrlen)

/-- What `arp_input` reads. -/
def arpInput : Pbuf := p.peek 28

end Input

section Data

variable {p q : Pbuf} {bytes header : List UInt8}

theorem Pbuf.byte_copyIn (p : Pbuf) (bytes : List UInt8) (i : Nat) :
    (p.copyIn bytes).byte i = bytes.getD i (p.byte i) := by
  show (if p.off+i < p.off then _ else bytes.getD (p.off+i-p.off) (p.store (p.off+i))) = _
  rw [if_neg (by omega),Nat.add_sub_cancel_left]
  rfl

theorem data_filled (memory : Nat → UInt8) (bytes : List UInt8) : (filled memory bytes).data = bytes := by
  apply List.ext_getElem
  · simp only [Pbuf.data,List.length_map,List.length_range]
    rfl
  · intro i _ hi
    simp only [Pbuf.data,List.getElem_map,List.getElem_range]
    show ((pbufAlloc memory).copyIn bytes).byte i = _
    rw [Pbuf.byte_copyIn,List.getD_eq_getElem _ _ hi]

theorem data_prepend (h : p.prepend header = some q) : q.data = header ++ p.data := by
  obtain ⟨r,hr,rfl⟩ := Option.map_eq_some_iff.mp h
  obtain ⟨hoff,hr⟩ := Option.ite_none_left_eq_some.mp hr
  cases hr
  apply List.ext_getElem
  · simp only [Pbuf.data,List.length_map,List.length_range,List.length_append]
    exact add_comm _ _
  · intro i _ hi
    simp only [Pbuf.data,List.getElem_map,List.getElem_range,Pbuf.byte_copyIn]
    rcases lt_or_ge i header.length with hlt | hge
    · rw [List.getD_eq_getElem _ _ hlt,List.getElem_append_left hlt]
    · rw [List.getD_eq_default _ _ hge,List.getElem_append_right hge,List.getElem_map,List.getElem_range]
      show p.store (p.off-header.length+i) = p.store (p.off+(i-header.length))
      congr 1
      omega

theorem length_data (p : Pbuf) : p.data.length = p.len := by
  rw [Pbuf.data,List.length_map,List.length_range]

/-- The bytes left when the data are cut to `n` and `k` of them are taken off the front. -/
theorem data_strip {n k : Nat} (hk : k ≤ n) (hn : n ≤ p.len) :
    ((p.setLen n).strip k).data = (p.data.take n).drop k := by
  have hpull : (p.setLen n).strip k = { p.setLen n with off := p.off+k }.setLen (n-k) := by
    rw [Pbuf.strip,Pbuf.pbufPull,if_neg (show ¬ (p.setLen n).len < k from not_lt.mpr hk)]
    rfl
  rw [hpull]
  apply List.ext_getElem
  · rw [length_data,List.length_drop,List.length_take,length_data,min_eq_left hn]
    rfl
  · intro i _ hi
    simp only [Pbuf.data,List.getElem_map,List.getElem_range,List.getElem_drop,List.getElem_take]
    show p.store (p.off+k+i) = p.store (p.off+(k+i))
    rw [add_assoc]

end Data

section Demultiplexing

/-- The packet handed up is the datagram from its header length to its total length. -/
structure HandsUp (p up : Pbuf) : Prop where
  header : 20 ≤ headerLength p
  total : headerLength p ≤ totalLength p
  received : totalLength p ≤ p.len
  data : up.data = (p.data.take (totalLength p)).drop (headerLength p)

/-- The datagrams that are freed at once. -/
def Refused (p : Pbuf) : Prop :=
  p.len < 20 ∨ (p.byte 0).toNat/16 ≠ 4 ∨ headerLength p < 20 ∨ p.len < totalLength p ∨
    ¬(p.byte 9 = IP_PROTO_ICMP ∨ p.byte 9 = IP_PROTO_UDP ∨ p.byte 9 = IP_PROTO_TCP)

variable {p : Pbuf}

theorem ipv4Input_of_not_refused (h : ¬ Refused p) : ipv4Input p =
    some (p.byte 9,p.word 12,((p.access p.off 20).setLen (totalLength p)).strip (headerLength p)) := by
  rw [Refused,not_or,not_or,not_or,not_or] at h
  obtain ⟨hlen,hver,hihl,htot,hproto⟩ := h
  rw [ipv4Input,if_neg hlen,if_neg (not_or.mpr ⟨hver,hihl⟩),if_neg htot,if_pos (not_not.mp hproto)]

theorem ipv4Input_of_refused (h : Refused p) : ipv4Input p = none := by
  rw [ipv4Input]
  split
  · rfl
  rename_i hlen
  split
  · rfl
  rename_i hver
  split
  · rfl
  · rename_i htot
    obtain ⟨hver,hihl⟩ := not_or.mp hver
    rcases h with h | h | h | h | h
    exacts [absurd h hlen,absurd h hver,absurd h hihl,absurd h htot,if_neg h]

/-- `pbuf_pull` refuses to take off a header longer than the datagram, and nobody notices. -/
theorem ipv4Input_payload (p : Pbuf) :
    (∀ proto src up, ipv4Input p = some (proto,src,up) → HandsUp p up) ↔
      (Refused p ∨ headerLength p ≤ totalLength p) := by
  constructor
  · intro hlaw
    rcases Classical.em (Refused p) with hr | hr
    · exact .inl hr
    · exact .inr (hlaw _ _ _ (ipv4Input_of_not_refused hr)).total
  · intro hcond proto src up hup
    rcases Classical.em (Refused p) with hr | hr
    · rw [ipv4Input_of_refused hr] at hup
      cases hup
    have htot := hcond.resolve_left hr
    rw [ipv4Input_of_not_refused hr] at hup
    cases hup
    rw [Refused,not_or,not_or,not_or,not_or] at hr
    obtain ⟨-,-,hihl,hlen,-⟩ := hr
    exact ⟨Nat.le_of_not_lt hihl,htot,Nat.le_of_not_lt hlen,data_strip htot (Nat.le_of_not_lt hlen)⟩

/-- A datagram of 40 bytes that claims a header of 60: TCP gets the IP header. -/
theorem header_handed_up : ∃ src up, ipv4Input (filled (fun _ => 0)
    ([0x4F,0,0,40,0,0,0,0,64,6] ++ List.replicate 30 0)) = some (6,src,up) ∧ up.data.head? = some 0x4F :=
  ⟨_,_,rfl,rfl⟩

end Demultiplexing

end Lariat.Net.Packets
