import Lariat.Net.ReceiveStream
import Lariat.Net.SendStream

/-! Acknowledging again: which segments that bring nothing new are answered with the current
`rcv_nxt`. -/
namespace Lariat.Net
open Foundation Serial Stream Runs List

section

variable (p : Pcb) (seg : Segment)

/-- How much of what is in flight a segment acknowledges. -/
def ackedBy : Nat :=
  if seg.flags.ack = true ∧ (seg.ack-p.sndUna).toNat ≤ p.flight then (seg.ack-p.sndUna).toNat else 0

/-- The window that a segment leaves. -/
def windowAfter : Nat :=
  if seg.flags.ack ∧ seg.win ≠ 0 then seg.win.toNat else p.window

/-- The segment acknowledges our FIN when the peer's has come before, and the block goes. -/
def Ends : Prop :=
  seg.flags.ack = true ∧ (p.state = .lastAck ∨ p.state = .closing) ∧ p.flight ≤ ackedBy p seg

/-- Data is queued that the segment leaves room in the window for. -/
def LetsOut : Prop :=
  p.state = .established ∧
    p.flight-ackedBy p seg < min (p.sndBuf.length-ackedBy p seg) (windowAfter p seg)

/-- A segment that does not reset or end the connection has data that starts at `rcv_nxt` or before,
or lets queued data out. -/
def Reacks : Prop :=
  seg.flags.rst = false ∧ ¬Ends p seg ∧
    (0 < seg.data.length ∧ seqLt seg.seq (p.rcvNxt+1) = true ∨ LetsOut p seg)

end

variable {iss : UInt32} {p : Pcb} {seg : Segment} {c : Conn}

/-! ### What the acknowledgement leaves -/

theorem takeAck_counts (hf : p.flight < 0x80000000) (hack : seg.flags.ack = true) :
    (takeAck p seg).1.flight = p.flight-ackedBy p seg ∧
      (takeAck p seg).1.sndBuf.length = p.sndBuf.length-ackedBy p seg := by
  by_cases hpass : (seqGt seg.ack p.sndUna && seqLe seg.ack p.sndNxt) = true
  · obtain ⟨hpos,hle⟩ := (takeAck_iff hf seg.ack).mp hpass
    have hacked : ackedBy p seg = (seg.ack-p.sndUna).toNat := if_pos ⟨hack,hle⟩
    rw [takeAck,if_pos hpass,hacked]
    constructor
    · show (p.sndNxt-seg.ack).toNat = _
      have hplace := nth_sub_base p.sndUna seg.ack
      rw [p.sndNxt_eq]
      nth_rw 1 [← hplace]
      rw [toNat_nth_sub hle (by omega)]
    · rw [Fifo.length_drop]
      omega
  · have hacked : ackedBy p seg = 0 := by
      rw [takeAck_iff hf] at hpass
      rw [ackedBy]
      split
      · omega
      · rfl
    rw [takeAck,if_neg hpass,hacked]
    exact ⟨rfl,rfl⟩

theorem processAck_counts (hf : p.flight < 0x80000000) (seg : Segment) :
    (processAck p seg).1.flight = p.flight-ackedBy p seg ∧
      (processAck p seg).1.sndBuf.length = p.sndBuf.length-ackedBy p seg ∧
      (processAck p seg).1.window = windowAfter p seg := by
  obtain ⟨s,r,heq,-⟩ := processAck_parts p seg
  have hwindow : (processAck p seg).1.window = windowAfter p seg := by
    obtain ⟨_,_,_,_,hacked⟩ := acked_parts p seg
    rw [windowAfter,Pcb.window,heq,hacked]
    split
    · rename_i h
      rw [if_neg h.2]
    · rfl
  rw [hwindow,heq,acked]
  cases hack : seg.flags.ack with
  | false =>
    have hacked : ackedBy p seg = 0 := if_neg fun h => by rw [hack] at h; cases h.1
    rw [hacked]
    exact ⟨rfl,rfl,rfl⟩
  | true =>
    obtain ⟨h1,h2⟩ := takeAck_counts hf hack
    exact ⟨h1,h2,rfl⟩

theorem flight_eq_zero : p.sndUna = p.sndNxt ↔ p.flight = 0 := by
  rw [Pcb.flight]
  constructor
  · intro h
    rw [h,UInt32.sub_self]
    rfl
  · intro h
    have hplace := nth_sub_base p.sndUna p.sndNxt
    rw [h,nth_zero] at hplace
    exact hplace

theorem finAcked_freed (q : Pcb) :
    (finAcked q).2 = true ↔ (q.state = .lastAck ∨ q.state = .closing) ∧ q.flight = 0 := by
  rw [← flight_eq_zero,finAcked]
  split
  · rename_i h
    refine ⟨fun h => (by cases h),fun h' => ?_⟩
    rw [h.1] at h'
    exact absurd h'.1 (by decide)
  split
  · rename_i h
    exact ⟨fun _ => h,fun _ => rfl⟩
  · rename_i h
    exact ⟨fun h => (by cases h),fun h' => absurd h' h⟩

theorem freed_iff (hf : p.flight < 0x80000000) : (processAck p seg).2.2 = true ↔ Ends p seg := by
  rw [processAck,Ends]
  cases hack : seg.flags.ack with
  | false => exact ⟨fun h => (by cases h),fun h => (by cases h.1)⟩
  | true =>
    obtain ⟨hflight,-⟩ := takeAck_counts hf hack
    obtain ⟨_,_,_,_,hacked⟩ := acked_parts p seg
    rw [acked,hack,if_pos rfl] at hacked
    have hst : (takeWindow (takeAck p seg).1 seg).state = p.state := by rw [hacked]
    have hsame : (takeWindow (takeAck p seg).1 seg).flight = (takeAck p seg).1.flight := rfl
    rw [if_pos rfl]
    rw [finAcked_freed,hsame,hflight,hst,Nat.sub_eq_zero_iff_le]
    exact ⟨fun h => ⟨rfl,h⟩,fun h => h.2⟩

/-! ### What is sent -/

/-- `tcp_output_data` sends something if there is data beyond what is in flight and the window has
room for it, and its segments carry `rcv_nxt`. -/
theorem pushData_sends (p : Pcb) :
    (pushData p).2 ≠ [] ↔ p.state = .established ∧ p.flight < min p.sndBuf.length p.window := by
  obtain ⟨ps,heq,hcut⟩ := tcpOutputData_spec p
  have hle := hcut.le
  have hend : p.outputEnd p.flight = max p.flight (min p.sndBuf.length p.window) := rfl
  rw [pushData]
  split
  · rename_i h
    rw [heq]
    constructor
    · intro hne
      refine ⟨h.1,?_⟩
      by_contra hge
      have hsame : p.outputEnd p.flight = p.flight := by omega
      rw [hsame] at hcut
      cases hcut with
      | nil => exact hne rfl
      | cons hm _ htail =>
        have := htail.le
        omega
    · rintro ⟨-,hlt⟩ hnil
      obtain ⟨x,hx,-⟩ := hcut.covers (Nat.le_refl _) (by omega)
      have hps : ps = [] := map_eq_nil_iff.mp hnil
      rw [hps] at hx
      cases hx
  · rename_i h
    exact ⟨fun hne => absurd rfl hne,fun h' => absurd ⟨h'.1,by omega⟩ h⟩

theorem pushData_acks (p : Pcb) : ∀ s ∈ (pushData p).2, s.flags.ack = true ∧ s.ack = p.rcvNxt := by
  intro s hs
  rw [pushData] at hs
  split at hs
  · obtain ⟨ps,heq,-⟩ := tcpOutputData_spec p
    rw [heq] at hs
    obtain ⟨x,-,rfl⟩ := mem_map.mp hs
    exact ⟨rfl,rfl⟩
  · cases hs

theorem seqLt_succ (a : UInt32) : seqLt a (a+1) = true := by
  have h := (neg_nth_sub (b := a) (by decide) (by decide)).mpr Nat.one_pos
  rw [nth_zero] at h
  exact decide_eq_true h

theorem processData_sends (p : Pcb) (seg : Segment) :
    ((processData p seg).2.1 ≠ [] ↔ 0 < seg.data.length ∧ seqLt seg.seq (p.rcvNxt+1) = true) ∧
      ∀ s ∈ (processData p seg).2.1, s.flags.ack = true ∧ s.ack = (processData p seg).1.rcvNxt := by
  rw [processData]
  split
  · rename_i h
    refine ⟨⟨fun _ => ⟨h.1,?_⟩,fun _ => cons_ne_nil _ _⟩,fun s hs => ?_⟩
    · rw [h.2.1]
      exact seqLt_succ _
    · rw [mem_singleton.mp hs]
      exact ⟨rfl,rfl⟩
  split
  · rename_i h
    refine ⟨⟨fun _ => h,fun _ => cons_ne_nil _ _⟩,fun s hs => ?_⟩
    rw [mem_singleton.mp hs]
    exact ⟨rfl,rfl⟩
  · rename_i h
    exact ⟨⟨fun hne => absurd rfl hne,fun h' => absurd h' h⟩,fun s hs => absurd hs not_mem_nil⟩

/-- A segment that does not move `rcv_nxt` brings neither data nor a FIN. -/
theorem Delivers.nothing {o : Outcome} {d : List UInt8} (h : Delivers p seg o d) (hold : o.pcb.rcvNxt = p.rcvNxt) :
    d = [] ∧ o.fin = false := by
  have hlen : d.length ≤ TCP_RCVBUF := by
    have hcap := o.pcb.rcvBuf.length_le
    rw [h.buf,length_append] at hcap
    omega
  have hsize : TCP_RCVBUF = 16384 := rfl
  have hplace : nth p.rcvNxt (d.length+o.fin.toNat) = nth p.rcvNxt 0 := by
    rw [nth_zero,nth_add]
    refine Eq.trans ?_ (h.nxt.symm.trans hold)
    cases o.fin <;> rfl
  have hbit := Bool.toNat_le o.fin
  have hzero := (nth_inj (by omega) (by omega)).mp hplace
  refine ⟨length_eq_zero_iff.mp (by omega),Bool.eq_false_iff.mpr fun hf => ?_⟩
  rw [hf,Bool.toNat_true] at hzero
  omega

theorem processFin_of_untaken {q : Pcb} (h : (processFin q seg).2.2 = false) : processFin q seg = (q,[],false) := by
  rw [processFin] at h ⊢
  split at h
  · cases h
  · rename_i hn
    rw [if_neg hn]

/-- The segments that go out in answer to one that brings nothing new. -/
theorem inputSynchronised_out (hf : p.flight < 0x80000000) (hends : ¬Ends p seg)
    (hold : (inputSynchronised p seg).pcb.rcvNxt = p.rcvNxt) :
    ((inputSynchronised p seg).out ≠ [] ↔
        0 < seg.data.length ∧ seqLt seg.seq (p.rcvNxt+1) = true ∨ LetsOut p seg) ∧
      ∀ s ∈ (inputSynchronised p seg).out, s.flags.ack = true ∧ s.ack = p.rcvNxt := by
  have hfreed : (processAck p seg).2.2 = false := Bool.eq_false_iff.mpr fun h => hends ((freed_iff hf).mp h)
  have hfree : (inputSynchronised p seg).freed = false := by
    rw [inputSynchronised]
    rw [hfreed,if_neg Bool.false_ne_true]
  obtain ⟨d,hd⟩ := inputSynchronised_delivers hfree
  obtain ⟨-,hfin⟩ := hd.nothing hold
  obtain ⟨hflight,hlen,hwindow⟩ := processAck_counts hf seg
  obtain ⟨s,r,heq,-,-,hstate⟩ := processAck_parts p seg
  obtain ⟨_,_,_,_,hacked⟩ := acked_parts p seg
  have hrecv : (processAck p seg).1.rcvNxt = p.rcvNxt := by rw [heq,hacked]
  have hest : (processAck p seg).1.state = .established ↔ p.state = .established := by
    rw [heq]
    rcases hstate hfreed with rfl | ⟨h1,rfl⟩
    · exact Iff.rfl
    · exact iff_of_false TcpState.noConfusion fun h => by rw [h1] at h; cases h
  rw [inputSynchronised] at hold hfin ⊢
  rw [hfreed,if_neg Bool.false_ne_true] at hold hfin ⊢
  dsimp only at hold hfin ⊢
  rw [processFin_of_untaken hfin] at hold ⊢
  generalize processAck p seg = a at hold hfin hflight hlen hwindow hrecv hest ⊢
  obtain ⟨hsends,hacks⟩ := processData_sends a.1 seg
  obtain ⟨b,d',hd,-⟩ := processData_parts a.1 seg
  obtain ⟨m,heq'⟩ := pushData_parts (processData a.1 seg).1
  have hnxt : (processData a.1 seg).1.rcvNxt = p.rcvNxt := by
    rw [heq'] at hold
    exact hold
  have hpush : (pushData (processData a.1 seg).1).2 ≠ [] ↔
      a.1.state = .established ∧ a.1.flight < min a.1.sndBuf.length a.1.window := by
    rw [pushData_sends,hd]
    rfl
  rw [hest,hflight,hlen,hwindow] at hpush
  rw [hrecv] at hsends
  constructor
  · rw [append_nil,Ne,append_eq_nil_iff,not_and_or]
    exact or_congr hsends hpush
  · intro s hs
    rw [append_nil] at hs
    rcases mem_append.mp hs with hs | hs
    · obtain ⟨h1,h2⟩ := hacks s hs
      exact ⟨h1,h2.trans hnxt⟩
    · obtain ⟨h1,h2⟩ := pushData_acks _ s hs
      exact ⟨h1,h2.trans hnxt⟩

/-- In every synchronised connection a segment that does not move `rcv_nxt` is answered with it
exactly if it neither resets nor ends the connection and has data that starts no later than
`rcv_nxt`, or lets queued data out. -/
theorem reack_iff {es : List ConnEvent} (hp : p.Opens iss) (hrun : exec Conn.step (.start p) es = some c)
    (hsync : c.pcb.Synchronised) (hold : (tcpInput c.pcb seg).pcb.rcvNxt = c.pcb.rcvNxt) :
    (∃ s ∈ (tcpInput c.pcb seg).out, s.flags.ack = true ∧ s.ack = c.pcb.rcvNxt) ↔ Reacks c.pcb seg := by
  have hplaced : ∃ una nxt, Placed iss c.pcb una nxt :=
    exec_keeps (I := fun c => ∃ una nxt, Placed iss c.pcb una nxt)
      (fun c e c' ⟨una,nxt,h⟩ _ hs => by
        obtain ⟨una',nxt',out,t,hadv,-⟩ := h.step hs
        exact ⟨una',nxt',hadv.placed⟩) ⟨0,1,hp.placed⟩ (fun _ _ => trivial) hrun
  obtain ⟨una,nxt,hpl⟩ := hplaced
  have hf := hpl.flight_lt
  have hcase := tcpInput_case c.pcb seg
  generalize tcpInput c.pcb seg = o at hcase hold ⊢
  cases hcase with
  | reset hrst =>
    refine ⟨fun ⟨s,hs,_⟩ => absurd hs not_mem_nil,fun h => ?_⟩
    rw [h.1] at hrst
    cases hrst
  | synSent _ hst => exact absurd (.inl hst) hsync.not_opening
  | synRcvd _ hst => exact absurd (.inr hst) hsync.not_opening
  | ignored _ hst =>
    rcases hsync with h | h | h | h | h | h <;> (rw [h] at hst; exact absurd hst (by decide))
  | synchronised hrst _ =>
    by_cases hends : Ends c.pcb seg
    · refine ⟨fun ⟨s,hs,_⟩ => ?_,fun h => absurd hends h.2.1⟩
      rw [inputSynchronised] at hs
      rw [(freed_iff hf).mpr hends,if_pos rfl] at hs
      cases hs
    obtain ⟨hne,hacks⟩ := inputSynchronised_out hf hends hold
    constructor
    · rintro ⟨s,hs,-⟩
      exact ⟨hrst,hends,hne.mp (ne_nil_of_mem hs)⟩
    · intro h
      obtain ⟨s,hs⟩ := exists_mem_of_ne_nil _ (hne.mpr h.2.2)
      exact ⟨s,hs,hacks s hs⟩

theorem reack_repeated : ∃ c, exec Conn.step (.start dialled)
      [synAck 1400,.input (arriving 100 [5] false)] = some c ∧
    ∃ s ∈ (tcpInput c.pcb (arriving 100 [5] false)).out, s.flags.ack = true ∧ s.ack = c.pcb.rcvNxt := by
  have hrun : exec Conn.step (.start dialled) [synAck 1400,.input (arriving 100 [5] false)] = some _ := rfl
  refine ⟨_,hrun,(reack_iff dialled_opens hrun (.inl rfl) rfl).mpr ⟨rfl,fun h => ?_,.inl ⟨by decide,by decide⟩⟩⟩
  exact absurd h.2.1 (by decide)

/-- The peer's FIN again, and data beyond `rcv_nxt`, are not answered. -/
theorem repeated_fin_unanswered :
    (∃ c, exec Conn.step (.start dialled) [synAck 1400,.input (arriving 100 [] true)] = some c ∧
      c.pcb.Synchronised ∧ c.fins = 1 ∧
      (tcpInput c.pcb (arriving 100 [] true)).pcb.rcvNxt = c.pcb.rcvNxt ∧
      (tcpInput c.pcb (arriving 100 [] true)).out = []) ∧
    ∃ c, exec Conn.step (.start dialled) [synAck 1400] = some c ∧ c.pcb.Synchronised ∧
      (tcpInput c.pcb (arriving 105 [5] false)).pcb.rcvNxt = c.pcb.rcvNxt ∧
      (tcpInput c.pcb (arriving 105 [5] false)).out = [] := by
  refine ⟨⟨_,rfl,?_,rfl,rfl,rfl⟩,⟨_,rfl,?_,rfl,rfl⟩⟩
  · exact .inr (.inr (.inr (.inl rfl)))
  · exact .inl rfl

/-! ### Between two hosts -/

end Lariat.Net
