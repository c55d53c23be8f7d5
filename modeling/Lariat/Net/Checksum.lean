import Lariat.Net.Packet

/-! The checksums of what the stack sends. They are computed in the machine's byte order and verify in
the network's. -/
namespace Lariat.Net.Packets
open Foundation.OnesComplement

/-- What a receiver tests. -/
def Verifies (bytes : List UInt8) : Prop := sum (bigEndian bytes) = 0xFFFF

private theorem toNat_word (a b : UInt8) : (a.toUInt32 ||| b.toUInt32 <<< 8).toNat = a.toNat+256*b.toNat := by
  have ha : a.toNat < 2^8 := a.toNat_lt
  have hb : b.toNat <<< 8 < 2^32 := by
    have := b.toNat_lt
    rw [Nat.shiftLeft_eq]
    omega
  rw [UInt32.toNat_or,UInt32.toNat_shiftLeft,UInt8.toNat_toUInt32,UInt8.toNat_toUInt32]
  show a.toNat ||| b.toNat <<< 8%2^32 = _
  rw [Nat.mod_eq_of_lt hb,Nat.or_comm,← Nat.shiftLeft_add_eq_or_of_lt ha,Nat.shiftLeft_eq]
  omega

theorem toNat_inetSum {bytes : List UInt8} {s : UInt32} (h : s.toNat+(littleEndian bytes).sum < 2^32) :
    (inetSum bytes s).toNat = s.toNat+(littleEndian bytes).sum := by
  induction bytes using littleEndian.induct generalizing s with
  | case1 a b rest ih =>
    simp only [littleEndian,List.sum_cons] at h ⊢
    have hs : (s+(a.toUInt32 ||| b.toUInt32 <<< 8)).toNat = s.toNat+(a.toNat+256*b.toNat) := by
      rw [UInt32.toNat_add,toNat_word,Nat.mod_eq_of_lt (by omega)]
    rw [inetSum,ih (by omega),hs]
    omega
  | case2 a =>
    simp only [littleEndian,List.sum_cons,List.sum_nil,Nat.add_zero] at h ⊢
    rw [inetSum,UInt32.toNat_add,UInt8.toNat_toUInt32,Nat.mod_eq_of_lt h]
  | case3 => rfl

/-- A sum and its folded complement are together a multiple of 65535. -/
theorem inetFold_spec (s : UInt32) : (s.toNat+(inetFold s).toNat)%65535 = 0 := by
  obtain ⟨hlt,hmod,-⟩ := fold_spec s.toNat
  rw [inetFold,UInt16.toNat_not,UInt16.toNat_ofNat_of_lt' hlt]
  show (s.toNat+(65536-1-fold s.toNat))%65535 = 0
  omega

theorem littleEndian_le16 (c : UInt16) : (littleEndian (le16 c)).sum = c.toNat := by
  have hc := c.toNat_lt
  show c.toUInt8.toNat+256*(c >>> 8).toUInt8.toNat+0 = c.toNat
  rw [UInt16.toNat_toUInt8,UInt16.toNat_toUInt8,UInt16.toNat_shiftRight]
  show c.toNat%256+256*(c.toNat >>> 8%256)+0 = c.toNat
  rw [Nat.shiftRight_eq_div_pow]
  omega

theorem inetSum_append {front : List UInt8} (heven : 2 ∣ front.length) (back : List UInt8) (s : UInt32) :
    inetSum back (inetSum front s) = inetSum (front ++ back) s := by
  induction front using littleEndian.induct generalizing s with
  | case1 a b rest ih => exact ih ((Nat.dvd_add_left (Nat.dvd_refl 2)).mp heven) _
  | case2 a => exact absurd (show 2 ∣ 1 from heven) (by decide)
  | case3 => rfl

section Field

variable {front back : List UInt8} (heven : 2 ∣ front.length) (hpos : (littleEndian front).sum ≠ 0)

include heven

private theorem sum_field (c : UInt16) : (littleEndian (front ++ le16 c ++ back)).sum =
    (littleEndian front).sum+c.toNat+(littleEndian back).sum := by
  have hc : 2 ∣ (front ++ le16 c).length := by
    rw [List.length_append]
    exact Nat.dvd_add heven (Nat.dvd_refl 2)
  rw [littleEndian_append hc,littleEndian_append heven,littleEndian_le16]

include hpos

/-- A field of zeros is given the folded complement of the sum of all bytes, or the other
representation of zero. -/
theorem verifies_inetFold (hlen : (front ++ le16 0 ++ back).length ≤ 65536) {c : UInt16}
    (hc : c = inetFold (inetSum (front ++ le16 0 ++ back) 0) ∨
      inetFold (inetSum (front ++ le16 0 ++ back) 0) = 0 ∧ c = 0xFFFF) :
    Verifies (front ++ le16 c ++ back) := by
  have hle := littleEndian_le (front ++ le16 0 ++ back)
  have hfold := inetFold_spec (inetSum (front ++ le16 0 ++ back) 0)
  rw [toNat_inetSum (by rw [UInt32.toNat_zero]; omega),sum_field heven,UInt32.toNat_zero,
    UInt16.toNat_zero] at hfold
  apply sum_bigEndian
  · rw [sum_field heven]
    rcases hc with rfl | ⟨h0,rfl⟩
    · omega
    · rw [h0,UInt16.toNat_zero] at hfold
      show (_+65535+_)%65535 = 0
      omega
  · rw [sum_field heven]
    omega

end Field

section

variable (src dst : UInt32)
include src dst

private theorem even_pseudo (proto : UInt8) (len : UInt16) :
    2 ∣ (pseudo src dst proto len).length := (by decide : 2 ∣ 12)

private theorem pseudo_ne_zero {proto : UInt8} (hproto : 0 < proto.toNat) (len : UInt16)
    (rest : List UInt8) : (littleEndian (pseudo src dst proto len ++ rest)).sum ≠ 0 := by
  have hne (a b c d e : Nat) : a+(b+(c+(d+(0+256*proto.toNat+e)))) ≠ 0 := by omega
  exact hne _ _ _ _ _

theorem ipHdr_verifies (len id : UInt16) (proto : UInt8) :
    Verifies (ipHdr len id proto (inetChecksum (ipHdr len id proto 0 src dst)) src dst) := by
  have hcat (c : UInt16) : ipHdr len id proto c src dst =
      ([0x45,0] ++ be16 len ++ be16 id ++ [0,0,64,proto]) ++ le16 c ++ (le32 src ++ le32 dst) :=
    List.append_assoc _ _ _
  rw [hcat (inetChecksum _),hcat 0]
  have hne (e : Nat) : 69+e ≠ 0 := by omega
  refine verifies_inetFold ?_ (hne _) ?_ (.inl rfl)
  · exact (by decide : 2 ∣ 10)
  · exact (by decide : 20 ≤ 65536)

theorem udpHdr_verifies (localPort port len : UInt16) {data : List UInt8}
    (hlen : data.length ≤ 65515) : Verifies (pseudo src dst IP_PROTO_UDP len ++
      (udpHdr localPort port len (udpCsum src dst len (udpHdr localPort port len 0) data) ++ data)) := by
  have hcat (c : UInt16) : pseudo src dst IP_PROTO_UDP len ++ (udpHdr localPort port len c ++ data) =
      (pseudo src dst IP_PROTO_UDP len ++ (be16 localPort ++ be16 port ++ be16 len)) ++ le16 c ++ data := by
    rw [udpHdr]
    simp only [List.append_assoc]
  have hsum : inetSum data (inetSum (udpHdr localPort port len 0)
      (inetSum (pseudo src dst IP_PROTO_UDP len) 0)) = inetSum ((pseudo src dst IP_PROTO_UDP len ++
        (be16 localPort ++ be16 port ++ be16 len)) ++ le16 0 ++ data) 0 := by
    have heven : 2 ∣ (udpHdr localPort port len 0).length := (by decide : 2 ∣ 8)
    rw [inetSum_append heven,inetSum_append (even_pseudo ..),hcat]
  rw [hcat]
  refine verifies_inetFold ?_ (pseudo_ne_zero src dst (by decide) len _) ?_ ?_
  · exact (by decide : 2 ∣ 18)
  · rw [List.length_append]
    show 20+data.length ≤ 65536
    omega
  · rw [udpCsum,hsum]
    split
    · rename_i h0
      exact .inr ⟨h0,rfl⟩
    · exact .inl rfl

theorem tcpHdr_verifies (localPort remotePort : UInt16) (seq ack : UInt32) (flags : UInt8)
    (win len : UInt16) {data : List UInt8} (hlen : data.length ≤ 65500) :
    Verifies (pseudo src dst IP_PROTO_TCP len ++
      (tcpHdr localPort remotePort seq ack flags win (inetFold (inetSum
        (tcpHdr localPort remotePort seq ack flags win 0 ++ data)
          (inetSum (pseudo src dst IP_PROTO_TCP len) 0))) ++ data)) := by
  have hcat (c : UInt16) : pseudo src dst IP_PROTO_TCP len ++
      (tcpHdr localPort remotePort seq ack flags win c ++ data) = (pseudo src dst IP_PROTO_TCP len ++
        (be16 localPort ++ be16 remotePort ++ be32 seq ++ be32 ack ++ [0x50,flags] ++ be16 win)) ++ le16 c ++
          ([0,0] ++ data) := by
    rw [tcpHdr]
    simp only [List.append_assoc]
  rw [inetSum_append (even_pseudo ..),hcat,hcat]
  refine verifies_inetFold ?_ (pseudo_ne_zero src dst (by decide) len _) ?_ (.inl rfl)
  · exact (by decide : 2 ∣ 28)
  · rw [List.length_append]
    show 30+(data.length+2) ≤ 65536
    omega

/-- The checksum field of a datagram never says that there is no checksum. -/
theorem udpCsum_ne_zero (len : UInt16) (header data : List UInt8) :
    udpCsum src dst len header data ≠ 0 := by
  rw [udpCsum]
  split
  · decide
  · assumption

end

/-- Whatever leaves through `ipv4_output` has a header that verifies, and so have the datagram or the
segment with their pseudo-header. -/
theorem checksums_verify (memory : Nat → UInt8) (localPort port : UInt16) (src dst : UInt32)
    (data : List UInt8) :
    (∀ id proto p q, ipv4Output src dst id proto p = some q →
      Verifies (q.data.take 20) ∧ q.data.drop 20 = p.data) ∧
    (∀ p, udpSendto memory localPort port src dst data = some p →
      Verifies (pseudo src dst IP_PROTO_UDP (UInt16.ofNat p.data.length) ++ p.data) ∧
        ∃ csum ≠ 0, (p.data.drop 6).take 2 = le16 csum) ∧
    (∀ seq ack flags win p, data.length ≤ TCP_MSS →
      tcpSendSeg memory localPort port seq ack flags win src dst data = some p →
        Verifies (pseudo src dst IP_PROTO_TCP (UInt16.ofNat p.data.length) ++ p.data)) := by
  refine ⟨fun id proto p q hq => ?_,fun p hp => ?_,fun seq ack flags win p hmss hp => ?_⟩
  · rw [data_prepend hq]
    exact ⟨ipHdr_verifies ..,rfl⟩
  · obtain ⟨hlen,hp⟩ := Option.ite_none_left_eq_some.mp hp
    rw [data_prepend hp,data_filled,List.length_append]
    refine ⟨udpHdr_verifies _ _ _ _ _ (Nat.le_trans (Nat.le_of_not_lt hlen) (by decide)),_,?_,rfl⟩
    exact udpCsum_ne_zero _ _ _ _ _
  · rw [data_prepend hp,data_filled,List.length_append]
    exact tcpHdr_verifies _ _ _ _ _ _ _ _ _ (Nat.le_trans hmss (by decide))

end Lariat.Net.Packets
