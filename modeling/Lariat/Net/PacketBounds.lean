import Lariat.Net.Packet

/-! The life of a packet, from the call that makes it to the one that frees it, and whether it stays
inside its buffer. -/
namespace Lariat.Net.Packets
open Foundation.Runs Option

/-- Where a packet is: about to go through `ipv4_output` or `eth_output` (perhaps waiting for an ARP
reply), queued for the receive thread or for a socket, or freed. -/
inductive Stage where
  | ipOut (dst : UInt32) (proto : UInt8)
  | linkOut (type : UInt16)
  | rx
  | udpQueue
  | gone

structure Packet where
  stage : Stage
  buf : Pbuf

inductive Event where
  | route (src : Option UInt32) (id : UInt16)
  | transmit (dst src : Vector UInt8 6) (loopback : Bool)
  | netd (taken : Bool)
  | recv (len : Nat)
  | free

/-- `icmp_input`, `udp_input` and `tcp_input` by protocol. -/
def transport (taken : Bool) (proto : UInt8) (src : UInt32) (p : Pbuf) : Packet :=
  if proto = IP_PROTO_ICMP then
    (icmpInput p).elim ⟨.gone,p.peek 8⟩ fun q => ⟨.ipOut src IP_PROTO_ICMP,q⟩
  else if proto = IP_PROTO_UDP then
    (udpInput p).elim ⟨.gone,p.peek 8⟩ fun q => ⟨if taken then .udpQueue else .gone,q⟩
  else ⟨.gone,tcpInput p⟩

def ethInput (taken : Bool) (p : Pbuf) : Packet :=
  let q := (p.peek ETH_HDRLEN).strip ETH_HDRLEN
  if p.len < ETH_HDRLEN then ⟨.gone,p⟩
  else if p.be16 12 = ETH_P_ARP.toNat then ⟨.gone,arpInput q⟩
  else if p.be16 12 = ETH_P_IP.toNat then
    (ipv4Input q).elim ⟨.gone,q.peek 20⟩ fun up => transport taken up.1 up.2.1 up.2.2
  else ⟨.gone,q⟩

def Packet.step (k : Packet) (e : Event) : Option Packet :=
  match k.stage, e with
  | .ipOut dst proto, .route (some src) id =>
    some ((ipv4Output src dst id proto k.buf).elim ⟨.gone,k.buf⟩ fun q => ⟨.linkOut ETH_P_IP,q⟩)
  | .linkOut type, .transmit dst src loopback =>
    some ((ethOutput dst src type k.buf).elim ⟨.gone,k.buf⟩ fun q =>
      ⟨if loopback then .rx else .gone,q.access q.off q.len⟩)
  | .rx, .netd taken => some (ethInput taken k.buf)
  | .udpQueue, .recv len => some ⟨.gone,k.buf.access k.buf.off (min k.buf.len len)⟩
  | _, .route none _ => some ⟨.gone,k.buf⟩
  | _, .free => some ⟨.gone,k.buf⟩
  | _, _ => none

/-- What makes a packet: a received frame (its length counts the CRC), a datagram, a segment, an ARP
request or reply. -/
inductive Birth where
  | rtl8139 (length : UInt16) (frame : Nat → UInt8)
  | udp (localPort port : UInt16) (src ip : UInt32) (data : List UInt8)
  | tcp (localPort remotePort : UInt16) (seq ack : UInt32) (flags : UInt8) (win : UInt16) (src ip : UInt32)
    (data : List UInt8) (mss : data.length ≤ TCP_MSS)
  | arp (message : Vector UInt8 28)

def Birth.start (memory : Nat → UInt8) : Birth → Option Packet
  | .rtl8139 length frame =>
    if length.toNat < 4 ∨ PBUF_SIZE < length.toNat then none
    else some ⟨.rx,filled memory ((List.range (length.toNat-4)).map frame)⟩
  | .udp localPort port src ip data =>
    (udpSendto memory localPort port src ip data).map (⟨.ipOut ip IP_PROTO_UDP,·⟩)
  | .tcp localPort remotePort seq ack flags win src ip data _ =>
    (tcpSendSeg memory localPort remotePort seq ack flags win src ip data).map
      (⟨.ipOut ip IP_PROTO_TCP,·⟩)
  | .arp message => some ⟨.linkOut ETH_P_ARP,filled memory message.toList⟩

/-- The data and every range touched so far lie inside the buffer. -/
structure Within (p : Pbuf) : Prop where
  place : p.off+p.len ≤ PBUF_SIZE
  log : ∀ r ∈ p.log, r.1+r.2 ≤ PBUF_SIZE

section Within

variable {p q : Pbuf}

section Room

variable (h : Within p)
include h

theorem Within.access {start n : Nat} (hr : start+n ≤ PBUF_SIZE) : Within (p.access start n) :=
  ⟨h.place,List.forall_mem_cons.mpr ⟨hr,h.log⟩⟩

theorem Within.front {n : Nat} (hn : n ≤ p.len) : Within (p.access p.off n) :=
  h.access (Nat.le_trans (Nat.add_le_add_left hn _) h.place)

theorem Within.peek (n : Nat) : Within (p.peek n) := by
  rw [Pbuf.peek]
  split
  · exact h
  · rename_i hn
    exact h.front (Nat.le_of_not_lt hn)

theorem Within.setLen {n : Nat} (hn : n ≤ p.len) : Within (p.setLen n) :=
  have hle := Nat.le_trans (Nat.add_le_add_left hn p.off) h.place
  ⟨hle,List.forall_mem_cons.mpr ⟨hle,h.log⟩⟩

theorem Within.copyIn {bytes : List UInt8} (hn : bytes.length ≤ p.len) : Within (p.copyIn bytes) :=
  ⟨h.place,List.forall_mem_cons.mpr ⟨Nat.le_trans (Nat.add_le_add_left hn _) h.place,h.log⟩⟩

theorem Within.strip (n : Nat) : Within (p.strip n) := by
  rw [Pbuf.strip,Pbuf.pbufPull]
  split
  · exact h
  · have hplace := h.place
    have hle : p.off+n+(p.len-n) ≤ PBUF_SIZE := by omega
    exact ⟨hle,List.forall_mem_cons.mpr ⟨hle,h.log⟩⟩

theorem Within.prepend {header : List UInt8} (hq : p.prepend header = some q) : Within q := by
  obtain ⟨r,hr,rfl⟩ := map_eq_some_iff.mp hq
  obtain ⟨hoff,hr⟩ := ite_none_left_eq_some.mp hr
  cases hr
  have hplace := h.place
  have hle : p.off-header.length+(p.len+header.length) ≤ PBUF_SIZE := by omega
  have hw : Within ({ p with off := p.off-header.length }.setLen (p.len+header.length)) :=
    ⟨hle,List.forall_mem_cons.mpr ⟨hle,h.log⟩⟩
  exact hw.copyIn (Nat.le_add_left _ _)

end Room

theorem within_filled (memory : Nat → UInt8) (bytes : List UInt8) :
    Within (filled memory bytes) ↔ bytes.length ≤ PBUF_SIZE-PBUF_HEADROOM := by
  constructor
  · intro h
    have hplace : 128+bytes.length ≤ 2048 := h.place
    show bytes.length ≤ 2048-128
    omega
  · intro h
    have hle : PBUF_HEADROOM+bytes.length ≤ PBUF_SIZE := Nat.add_le_of_le_sub' (by decide) h
    exact ⟨hle,List.forall_mem_cons.mpr ⟨hle,List.forall_mem_cons.mpr ⟨hle,List.forall_mem_singleton.mpr (by decide)⟩⟩⟩

/-- What was touched before a header came on is still on record. -/
theorem Within.of_prepend {header : List UInt8} (hq : p.prepend header = some q) (h : Within q) :
    ∀ r ∈ p.log, r.1+r.2 ≤ PBUF_SIZE := by
  obtain ⟨r,hr,rfl⟩ := map_eq_some_iff.mp hq
  obtain ⟨hoff,hr⟩ := ite_none_left_eq_some.mp hr
  cases hr
  exact fun r hr => h.log r (.tail _ (.tail _ hr))

end Within

section Steps

variable {p : Pbuf}

section

variable (h : Within p)
include h

theorem Within.ipv4Input {up : UInt8 × UInt32 × Pbuf} (hup : ipv4Input p = some up) :
    Within up.2.2 := by
  rcases Classical.em (Refused p) with hr | hr
  · rw [ipv4Input_of_refused hr] at hup
    cases hup
  rw [ipv4Input_of_not_refused hr] at hup
  cases hup
  rw [Refused,not_or,not_or,not_or,not_or] at hr
  obtain ⟨hlen,-,-,htot,-⟩ := hr
  exact ((h.front (Nat.le_of_not_lt hlen)).setLen (Nat.le_of_not_lt htot)).strip _

theorem Within.icmpInput {q : Pbuf} (hq : icmpInput p = some q) : Within q := by
  obtain ⟨hn,hq⟩ := ite_none_left_eq_some.mp hq
  cases hq
  have hlen := Nat.le_of_not_lt (not_or.mp hn).1
  have hfour : 4 ≤ p.len := by omega
  have hw : Within ((p.access p.off 8).copyIn [0,0,0,0]) := (h.front hlen).copyIn hfour
  exact (hw.front (le_refl _)).copyIn hfour

theorem Within.udpInput {q : Pbuf} (hq : udpInput p = some q) : Within q := by
  obtain ⟨hlen,hq⟩ := ite_none_left_eq_some.mp hq
  obtain ⟨hn,hq⟩ := ite_none_left_eq_some.mp hq
  cases hq
  refine ((h.front (Nat.le_of_not_lt hlen)).strip 8).setLen ?_
  rw [Pbuf.strip,Pbuf.pbufPull,if_neg (show ¬ (p.access p.off 8).len < 8 from hlen)]
  exact Nat.sub_le_sub_right (Nat.le_of_not_lt (not_or.mp hn).2) 8

theorem Within.tcpInput : Within (tcpInput p) := by
  rw [Packets.tcpInput]
  split
  · exact h.peek 20
  rename_i hn
  obtain ⟨-,hn⟩ := not_or.mp hn
  have hlen := Nat.le_of_not_lt (not_or.mp hn).2
  have hplace := h.place
  exact (h.peek 20).access (by omega)

theorem Within.transport (taken : Bool) (proto : UInt8) (src : UInt32) :
    Within (transport taken proto src p).buf := by
  rw [Packets.transport]
  split
  · cases hq : Packets.icmpInput p with
    | none => exact h.peek 8
    | some q => exact h.icmpInput hq
  split
  · cases hq : Packets.udpInput p with
    | none => exact h.peek 8
    | some q => exact h.udpInput hq
  · exact h.tcpInput

theorem Within.ethInput (taken : Bool) : Within (ethInput taken p).buf := by
  have hstrip := (h.peek ETH_HDRLEN).strip ETH_HDRLEN
  rw [Packets.ethInput]
  split
  · exact h
  split
  · exact hstrip.peek 28
  split
  · cases hup : Packets.ipv4Input ((p.peek ETH_HDRLEN).strip ETH_HDRLEN) with
    | none => exact hstrip.peek 20
    | some up => exact (hstrip.ipv4Input hup).transport taken _ _
  · exact hstrip

end

theorem Within.step {k k' : Packet} {e : Event} (h : Within k.buf) (hs : k.step e = some k') :
    Within k'.buf := by
  unfold Packet.step at hs
  split at hs
  · rename_i dst proto src id _
    cases hs
    cases hq : ipv4Output src dst id proto k.buf with
    | none => exact h
    | some q => exact h.prepend hq
  · rename_i type dst src loopback _
    cases hs
    cases hq : ethOutput dst src type k.buf with
    | none => exact h
    | some q => exact (h.prepend hq).front (le_refl _)
  · cases hs
    exact h.ethInput _
  · cases hs
    exact h.front (min_le_left _ _)
  · cases hs
    exact h
  · cases hs
    exact h
  · cases hs

end Steps

/-- Frames and datagrams that fit behind the headroom, and those refused for their length. -/
def Birth.Fits : Birth → Prop
  | .rtl8139 length _ => length.toNat-4 ≤ PBUF_SIZE-PBUF_HEADROOM ∨ PBUF_SIZE < length.toNat
  | .udp _ _ _ _ data => data.length ≤ PBUF_SIZE-PBUF_HEADROOM ∨ PBUF_SIZE-64 < data.length
  | .tcp .. => True
  | .arp _ => True

theorem Birth.within_start {memory : Nat → UInt8} {b : Birth} (h : b.Fits) {k : Packet}
    (hk : b.start memory = some k) : Within k.buf := by
  cases b with
  | rtl8139 length frame =>
    obtain ⟨hn,hk⟩ := ite_none_left_eq_some.mp hk
    cases hk
    refine (within_filled ..).mpr ?_
    rw [List.length_map,List.length_range]
    exact h.resolve_right (not_or.mp hn).2
  | udp localPort port src ip data =>
    obtain ⟨q,hq,rfl⟩ := map_eq_some_iff.mp hk
    obtain ⟨hn,hq⟩ := ite_none_left_eq_some.mp hq
    exact ((within_filled ..).mpr (h.resolve_right hn)).prepend hq
  | tcp localPort remotePort seq ack flags win src ip data mss =>
    rw [Birth.start] at hk
    obtain ⟨q,hq,rfl⟩ := map_eq_some_iff.mp hk
    exact ((within_filled ..).mpr (le_trans mss (by decide))).prepend hq
  | arp message =>
    cases hk
    refine (within_filled ..).mpr ?_
    rw [Vector.length_toList]
    decide

theorem Birth.fits_of_within {memory : Nat → UInt8} {b : Birth}
    (h : ∀ k, b.start memory = some k → Within k.buf) : b.Fits := by
  cases b with
  | rtl8139 length frame =>
    rcases lt_or_ge PBUF_SIZE length.toNat with hbig | hle
    · exact .inr hbig
    rcases lt_or_ge length.toNat 4 with hlt | hge
    · exact .inl (by omega)
    · have hw := h _ (if_neg (not_or.mpr ⟨not_lt.mpr hge,not_lt.mpr hle⟩))
      have hlen := (within_filled ..).mp hw
      rw [List.length_map,List.length_range] at hlen
      exact .inl hlen
  | udp localPort port src ip data =>
    rcases lt_or_ge (PBUF_SIZE-64) data.length with hbig | hle
    · exact .inr hbig
    obtain ⟨q,hq⟩ : ∃ q, udpSendto memory localPort port src ip data = some q :=
      ⟨_,if_neg (not_lt.mpr hle)⟩
    have hw := h _ (map_eq_some_iff.mpr ⟨q,hq,rfl⟩)
    rw [udpSendto,if_neg (not_lt.mpr hle)] at hq
    have hplace : 128+data.length ≤ 2048 := hw.of_prepend hq _ (.head _)
    exact .inl (show data.length ≤ 2048-128 by omega)
  | tcp | arp => trivial

/-- The limits in the driver and in UDP are checked against the whole buffer, the data go behind the
headroom. -/
theorem packet_bounds (memory : Nat → UInt8) (b : Birth) :
    (∀ k es k', b.start memory = some k → exec Packet.step k es = some k' → Within k'.buf) ↔ b.Fits := by
  constructor
  · exact fun h => Birth.fits_of_within fun k hk => h k [] k hk rfl
  · intro hfits k es k' hk hrun
    exact exec_keeps (I := fun k => Within k.buf) (fun _ _ _ h _ hs => h.step hs)
      (Birth.within_start hfits hk) (fun _ _ => trivial) hrun

/-- A frame of 2048 bytes is copied 124 bytes past the end of its buffer. -/
theorem frame_overruns : ∃ k, Birth.start (fun _ => 0) (.rtl8139 2048 fun _ => 0) = some k ∧
    (128,2044) ∈ k.buf.log ∧ ¬ Within k.buf := by
  refine ⟨_,rfl,?_,fun h => ?_⟩
  · have hlen : ((List.range 2044).map fun _ => (0 : UInt8)).length = 2044 := by
      rw [List.length_map,List.length_range]
    exact .tail _ (by rw [← hlen]; exact .head _)
  · have hlen := (within_filled ..).mp h
    rw [List.length_map,List.length_range] at hlen
    exact absurd hlen (by decide)

end Lariat.Net.Packets
