import Mathlib.Data.List.Forall2
import Lariat.Net.Packet

/-! Datagram sockets: what `sendto` hands to IP, and what successive `recvfrom` calls return. -/
namespace Lariat.Net.Packets
open Foundation.Runs List Nat

def EIO : Int := 5
def EINVAL : Int := 22
def EDESTADDRREQ : Int := 89
def EAFNOSUPPORT : Int := 97
def AF_INET : UInt16 := 2

structure Sockaddr where
  len : UInt32
  family : UInt16
  ip : UInt32
  port : UInt16

/-- `sa_get`, or the address the socket is connected to. -/
def destination (addr : Option Sockaddr) (remoteIp : UInt32) (remotePort : UInt16) :
    Except Int (UInt32 × UInt16) :=
  match addr with
  | some a =>
    if a.len.toNat < 16 then .error (-EINVAL)
    else if a.family ≠ AF_INET then .error (-EAFNOSUPPORT)
    else .ok (a.ip,a.port)
  | none => if remotePort = 0 then .error (-EDESTADDRREQ) else .ok (remoteIp,remotePort)

/-- The first bytes of a user buffer. -/
def prefixOf (buf : Nat → UInt8) (n : Nat) : List UInt8 := (List.range n).map buf

/-- A `sendto` on a bound socket. There may be no memory for a packet; `src` is the address of the
interface towards the destination. -/
structure SendCall where
  memory : Option (Nat → UInt8)
  localPort : UInt16
  src : UInt32
  addr : Option Sockaddr
  remoteIp : UInt32
  remotePort : UInt16
  buf : Nat → UInt8
  len : UInt64

namespace SendCall

variable (c : SendCall)

/-- The length is cut to sixteen bits on its way down. -/
def handed (ip : UInt32) (port : UInt16) : Option Pbuf :=
  c.memory.bind fun memory => udpSendto memory c.localPort port c.src ip (prefixOf c.buf (c.len.toNat%65536))

/-- The result and the packets handed to `ipv4_output`. -/
def socketSendto : Int × List Pbuf :=
  match destination c.addr c.remoteIp c.remotePort with
  | .error r => (r,[])
  | .ok (ip,port) =>
    match c.handed ip port with
    | none => (- EIO,[])
    | some p => (if c.len.toNat < 2^63 then c.len.toNat else (c.len.toNat : Int)-2^64,[p])

/-- A count says that one datagram with that many bytes was sent, and that these are all. -/
def Law : Prop := ∀ n : Nat, c.socketSendto.1 = n →
  n = c.len.toNat ∧ ∃ p, c.socketSendto.2 = [p] ∧ p.data.drop 8 = prefixOf c.buf n

/-- The length fits sixteen bits, or the call fails for its length, its address or want of memory. -/
def Sound : Prop :=
  c.len.toNat < 65536 ∨ PBUF_SIZE-64 < c.len.toNat%65536 ∨ 2^63 ≤ c.len.toNat ∨ c.memory = none ∨
    ∃ r, destination c.addr c.remoteIp c.remotePort = .error r

end SendCall

theorem destination_error {addr : Option Sockaddr} {remoteIp : UInt32} {remotePort : UInt16} {r : Int}
    (h : destination addr remoteIp remotePort = .error r) : r < 0 := by
  unfold destination at h
  split at h
  · split at h
    · cases h
      decide
    · split at h
      · cases h
        decide
      · cases h
  · split at h
    · cases h
      decide
    · cases h

theorem udpSendto_data (memory : Nat → UInt8) (localPort port : UInt16) (src ip : UInt32)
    {data : List UInt8} (h : data.length ≤ PBUF_SIZE-64) :
    ∃ p, udpSendto memory localPort port src ip data = some p ∧ p.data.drop 8 = data := by
  obtain ⟨p,hp⟩ : ∃ p, udpSendto memory localPort port src ip data = some p :=
    ⟨_,if_neg (not_lt.mpr h)⟩
  refine ⟨p,hp,?_⟩
  rw [udpSendto,if_neg (not_lt.mpr h)] at hp
  rw [data_prepend hp,data_filled]
  rfl

theorem length_prefixOf (buf : Nat → UInt8) (n : Nat) : (prefixOf buf n).length = n := by
  rw [prefixOf,length_map,length_range]

section Send

variable {c : SendCall}

theorem SendCall.law_of_error {r : Int} (h : destination c.addr c.remoteIp c.remotePort = .error r) : c.Law := by
  intro n hn
  rw [socketSendto,h] at hn
  have hneg := destination_error h
  dsimp only at hn
  omega

/-- The packet handed down when the low sixteen bits of the length are not too large. -/
theorem SendCall.handed_eq {memory : Nat → UInt8} (hm : c.memory = some memory)
    (hle : c.len.toNat%65536 ≤ PBUF_SIZE-64) (ip : UInt32) (port : UInt16) :
    ∃ p, c.handed ip port = some p ∧ p.data.drop 8 = prefixOf c.buf (c.len.toNat%65536) := by
  obtain ⟨p,hp,hdata⟩ := udpSendto_data memory c.localPort port c.src ip
    ((length_prefixOf c.buf _).trans_le hle)
  refine ⟨p,?_,hdata⟩
  rw [handed,hm]
  exact hp

theorem SendCall.law_iff : c.Law ↔ c.Sound := by
  rcases hd : destination c.addr c.remoteIp c.remotePort with r | ⟨ip,port⟩
  · exact iff_of_true (law_of_error hd) (.inr (.inr (.inr (.inr ⟨r,hd⟩))))
  rw [Law,socketSendto,hd]
  dsimp only
  rcases hh : c.handed ip port with _ | p
  · refine iff_of_true (fun n hn => ?_) ?_
    · have hneg : - EIO < 0 := by decide
      dsimp only at hn
      omega
    · rcases hm : c.memory with _ | memory
      · exact .inr (.inr (.inr (.inl hm)))
      · rcases lt_or_ge (PBUF_SIZE-64) (c.len.toNat%65536) with hbig | hle
        · exact .inr (.inl hbig)
        · obtain ⟨p,hp,-⟩ := handed_eq hm hle ip port
          rw [hh] at hp
          cases hp
  · obtain ⟨memory,hm,hp⟩ := Option.bind_eq_some_iff.mp hh
    have hle : c.len.toNat%65536 ≤ PBUF_SIZE-64 := by
      have hlen := (Option.ite_none_left_eq_some.mp hp).1
      rw [length_prefixOf] at hlen
      exact Nat.le_of_not_lt hlen
    obtain ⟨q,hq,hdata⟩ := handed_eq hm hle ip port
    obtain rfl := Option.some.inj (hh.symm.trans hq)
    dsimp only
    constructor
    · intro hlaw
      rcases lt_or_ge c.len.toNat (2^63) with hlt | hge
      · obtain ⟨-,q,hq,hdq⟩ := hlaw c.len.toNat (if_pos hlt)
        obtain rfl := List.singleton_inj.mp hq
        rw [hdata] at hdq
        have hsame := congrArg List.length hdq
        rw [length_prefixOf,length_prefixOf] at hsame
        exact .inl (hsame ▸ mod_lt _ (by decide))
      · exact .inr (.inr (.inl hge))
    · intro hsound n hn
      have hwide := c.len.toNat_lt
      split at hn
      · have hn : n = c.len.toNat := (Int.ofNat.inj hn).symm
        have hfit : c.len.toNat < 65536 := by
          rcases hsound with h | h | h | h | ⟨r,h⟩
          · exact h
          · omega
          · omega
          · rw [hm] at h
            cases h
          · rw [hd] at h
            cases h
        rw [mod_eq_of_lt hfit] at hdata
        exact ⟨hn,p,rfl,hn ▸ hdata⟩
      · omega

end Send

section Receive

structure Queued where
  buf : Pbuf
  saddr : UInt32
  sport : Nat

/-- A bound socket with its queue, and what arrived for it and what its calls returned. -/
structure Socket where
  localIp : UInt32
  localPort : UInt16
  rx : List Queued := []
  arrived : List Queued := []
  returned : List (UInt64 × List UInt8 × UInt32 × Nat) := []

/-- Another socket may come first for a datagram that arrives. -/
inductive Happening where
  | arrive (src dst : UInt32) (p : Pbuf) (other : Bool)
  | recv (m : UInt64)

namespace Socket

variable (s : Socket)

def arrive (src dst : UInt32) (p : Pbuf) (other : Bool) : Socket :=
  match udpInput p with
  | none => s
  | some q =>
    if !other ∧ s.localPort.toNat = p.be16 2 ∧ (s.localIp = 0 ∨ s.localIp = dst) then
      { s with rx := s.rx ++ [⟨q,src,p.be16 0⟩], arrived := s.arrived ++ [⟨q,src,p.be16 0⟩] }
    else s

/-- `socket_recvfrom` when something is queued; it waits until then. -/
def socketRecvfrom (m : UInt64) : Option Socket :=
  match s.rx with
  | [] => none
  | q :: rest => some
    { s with
      rx := rest
      returned := s.returned ++ [(m,q.buf.data.take (m.toNat%65536),q.saddr,q.sport)] }

def step : Happening → Option Socket
  | .arrive src dst p other => some (s.arrive src dst p other)
  | .recv m => s.socketRecvfrom m

end Socket

/-- A datagram as a call with a buffer of `m` bytes is to return it. -/
def Delivered (r : UInt64 × List UInt8 × UInt32 × Nat) (q : Queued) : Prop :=
  r.2 = (q.buf.data.take r.1.toNat,q.saddr,q.sport)

def InOrder (s : Socket) : Prop :=
  ∃ taken, s.arrived = taken ++ s.rx ∧ List.Forall₂ Delivered s.returned taken

/-- The buffer length fits sixteen bits, or what is left of it is enough for the datagram. -/
def Roomy (s : Socket) : Happening → Prop
  | .arrive .. => True
  | .recv m => m.toNat < 65536 ∨ ∀ q ∈ s.rx.head?, q.buf.len ≤ m.toNat%65536

theorem take_roomy {q : Queued} {m : Nat} (h : m < 65536 ∨ q.buf.len ≤ m%65536) :
    q.buf.data.take (m%65536) = q.buf.data.take m := by
  rcases h with h | h
  · rw [mod_eq_of_lt h]
  · have hle : q.buf.len ≤ m := le_trans h (mod_le _ _)
    rw [take_of_length_le ((length_data _).trans_le h),take_of_length_le ((length_data _).trans_le hle)]

theorem InOrder.step {s s' : Socket} {e : Happening} (h : InOrder s) (hg : Roomy s e)
    (hs : s.step e = some s') : InOrder s' := by
  obtain ⟨taken,harr,hret⟩ := h
  cases e with
  | arrive src dst p other =>
    cases hs
    rw [Socket.arrive]
    split
    · exact ⟨taken,harr,hret⟩
    split
    · refine ⟨taken,?_,hret⟩
      rw [harr,append_assoc]
    · exact ⟨taken,harr,hret⟩
  | recv m =>
    cases hrx : s.rx with
    | nil =>
      rw [Socket.step,Socket.socketRecvfrom,hrx] at hs
      cases hs
    | cons q rest =>
      rw [Socket.step,Socket.socketRecvfrom,hrx] at hs
      cases hs
      refine ⟨taken ++ [q],?_,rel_append hret (.cons ?_ .nil)⟩
      · rw [harr,hrx,append_assoc]
        rfl
      · rw [Roomy,hrx] at hg
        exact Prod.ext (take_roomy (hg.imp_right fun h => h q rfl)) rfl

end Receive

/-- Both lengths are narrowed to sixteen bits; the result of `sendto` is the one asked for. -/
theorem udp_integrity (c : SendCall) (localIp : UInt32) (localPort : UInt16) (es : List Happening) :
    (c.Law ↔ c.Sound) ∧ (Along Socket.step Roomy { localIp := localIp, localPort := localPort } es →
      Always Socket.step InOrder { localIp := localIp, localPort := localPort } es) :=
  ⟨SendCall.law_iff,always_of_along (fun _ h => h) (fun _ _ _ h hg hs => h.step hg hs) _ es ⟨[],rfl,.nil⟩⟩

/-- A `sendto` of 65537 bytes sends one and reports 65537, and a `recvfrom` with room for 65536 bytes
returns none of the three that arrived. -/
theorem lengths_narrowed :
    (∃ c : SendCall, c.len = 65537 ∧ c.socketSendto.1 = 65537 ∧
      (c.socketSendto.2.map fun p => p.data.drop 8) = [[7]]) ∧
    ∃ s, exec Socket.step { localIp := 0, localPort := 1024 }
      [.arrive 1 0 (filled (fun _ => 0) [0,53,4,0,0,11,0,0,1,2,3]) false,.recv 65536] = some s ∧
      (s.arrived.map fun q => q.buf.data) = [[1,2,3]] ∧ s.returned = [(65536,[],1,53)] :=
  ⟨⟨⟨some fun _ => 0,1024,0,none,1,53,fun _ => 7,65537⟩,rfl,rfl,rfl⟩,_,rfl,rfl,rfl⟩

end Lariat.Net.Packets
