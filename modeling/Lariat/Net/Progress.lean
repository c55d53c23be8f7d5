import Lariat.Net.SendStream

/-! Data below `snd_nxt`: which acknowledgements the check of `tcp_input` lets pass, and what
`tcp_send` waits for. -/
namespace Lariat.Net
open Foundation Serial Stream Runs List Bool

/-- The timer sends no more data than is in flight. -/
def WithinFlight (c : Conn) : ConnEvent → Prop
  | .timeout => c.pcb.Retransmits → min c.pcb.sndBuf.length TCP_MSS ≤ c.pcb.flight
  | _ => True

/-- `tcp_send` is not called during the handshake. -/
def SendsSettled (c : Conn) : ConnEvent → Prop
  | .send _ _ => ¬c.pcb.state.Opening
  | _ => True

variable {iss : UInt32} {p : Pcb} {una nxt una' nxt' : Nat} {out : List Segment} {c c' : Conn}
  {e : ConnEvent} {seg : Segment}

theorem Pcb.Retransmits.step (h : c.pcb.Retransmits) : ∃ c', c.step .timeout = some c' ∧
    c'.pcb.sndNxt = c.pcb.sndNxt ∧
    c'.sent = c.sent ++ [tcpSendSeg c.pcb { ack := true, psh := true } c.pcb.sndUna
      (c.pcb.sndBuf.items.take (min c.pcb.sndBuf.length TCP_MSS))] := by
  have hr : (c.pcb.setRto false).Retransmits := h
  refine ⟨_,rfl,?_,?_⟩
  · rw [hr.timeout]
    rfl
  · rw [hr.timeout]
    rfl

/-- What carries `Progress` through a run. -/
structure Flowing (iss : UInt32) (c : Conn) (una nxt : Nat) : Prop extends Placed iss c.pcb una nxt where
  sent : ∀ s ∈ c.sent, s.data ≠ [] → ∃ i, s.seq = nth iss i ∧ i+s.data.length ≤ nxt
  opening : c.pcb.state.Opening → c.pcb.sndBuf.items = []
  full : c.pcb.sndBuf.length = TCP_SNDBUF → c.pcb.state ≠ .closed → una < nxt ∧ c.pcb.rto = true

theorem takeAck_rto (h : (takeAck p seg).1.sndUna = p.sndUna) : (takeAck p seg).1.rto = p.rto := by
  by_cases hpass : (seqGt seg.ack p.sndUna && seqLe seg.ack p.sndNxt) = true
  · rw [takeAck,if_pos hpass] at h
    have hself : seqGt p.sndUna p.sndUna = true := h ▸ (and_eq_true_iff.mp hpass).1
    rw [seqGt,UInt32.sub_self] at hself
    exact absurd hself (by decide)
  · rw [takeAck,if_neg hpass]

/-- A segment that acknowledges nothing new leaves the timer as it is, or the block closed. -/
theorem inputSynchronised_rto (h : (inputSynchronised p seg).pcb.sndUna = p.sndUna) :
    (inputSynchronised p seg).pcb.state = .closed ∨ (inputSynchronised p seg).pcb.rto = p.rto := by
  obtain ⟨_,_,_,_,_,heq,-,hr⟩ := inputSynchronised_parts p seg
  rw [heq] at h ⊢
  refine hr.imp_right fun hr => hr.trans ?_
  rw [acked] at h ⊢
  cases hack : seg.flags.ack with
  | false => rfl
  | true =>
    rw [hack] at h
    exact takeAck_rto h

theorem rto_step (hs : c.step e = some c') (huna : c'.pcb.sndUna = c.pcb.sndUna) :
    c'.pcb.state = .closed ∨ c'.pcb.rto = c.pcb.rto ∧ c'.accepted = c.accepted ∨ c'.pcb.rto = true ∨
      seqLt c'.pcb.sndUna c'.pcb.sndNxt = false := by
  cases e with
  | send src sig =>
    obtain ⟨r,hr,rfl⟩ := Option.map_eq_some_iff.mp hs
    cases tcpSendTurn_case hr with
    | idle => exact .inr (.inl ⟨rfl,append_nil _⟩)
    | turn b _ _ _ harm =>
      cases hb : b with
      | true => exact .inr (.inr (.inl rfl))
      | false => exact .inr (.inr (.inr (eq_false_iff.mpr fun h => absurd (harm h) (by rw [hb]; decide))))
  | recv len sig =>
    obtain ⟨r,hr,rfl⟩ := Option.map_eq_some_iff.mp hs
    cases tcpRecv_case hr with
    | nothing r | bytes _ _ => exact .inr (.inl ⟨rfl,rfl⟩)
  | close =>
    obtain ⟨o,hcase,hfree,rfl⟩ := step_close hs
    cases hcase with
    | finWait _ | lastAck _ => exact .inr (.inr (.inl rfl))
    | freed _ => cases hfree
    | nothing _ _ _ _ => exact .inr (.inl ⟨rfl,rfl⟩)
  | input seg =>
    obtain ⟨o,htaken,rfl⟩ := step_input hs
    cases htaken with
    | reset => exact .inl rfl
    | kept => exact .inr (.inl ⟨rfl,rfl⟩)
    | opened _ _ he =>
      refine .inr (.inr (.inr ?_))
      rw [he.una,he.nxt,seqLt,UInt32.sub_self]
      decide
    | synchronised _ _ _ =>
      rcases inputSynchronised_rto huna with hst | hrto
      · exact .inl hst
      · exact .inr (.inl ⟨hrto,rfl⟩)
  | timeout =>
    obtain ⟨r,hcase,rfl⟩ := step_timeout hs
    cases hcase with
    | idle hst => exact .inl hst
    | exhausted _ _ => exact .inl rfl
    | again _ _ => exact .inr (.inr (.inl rfl))

/-! ### Runs -/

/-- While the buffer is full something is in flight and the timer armed. -/
theorem Flowing.full_step (h : Flowing iss c una nxt) (hsettled : SendsSettled c e)
    (hs : c.step e = some c') (hadv : Advances iss c e c' una nxt una' nxt' out) {t : List UInt8}
    (htakes : Takes c e c' una una' t) (hgrow : t ≠ [] → una' = una ∧ una < nxt')
    (hlen : c'.pcb.sndBuf.length = TCP_SNDBUF) (hst : c'.pcb.state ≠ .closed) :
    una' < nxt' ∧ c'.pcb.rto = true := by
  have hsize : TCP_SNDBUF = 16384 := rfl
  have hcap := c.pcb.sndBuf.length_le'
  have hle := hadv.una_le
  have hnle := hadv.nxt_le
  by_cases ho : c.pcb.state.Opening
  · have ht : t = [] := by
      by_contra ht
      obtain ⟨-,src,sig,rfl⟩ := htakes.sends ht
      exact hsettled ho
    rw [Fifo.length,htakes.opening ho,h.opening ho,ht] at hlen
    exact absurd hlen (by decide)
  rw [Fifo.length,htakes.buf ho,length_drop,length_append] at hlen
  have hitems : c.pcb.sndBuf.items.length = c.pcb.sndBuf.length := rfl
  have hmoves : una' = una ∧ una < nxt' ∧ (t = [] → c.pcb.rto = true) := by
    by_cases ht : t = []
    · rw [ht,length_nil] at hlen
      obtain ⟨hlt,hrto⟩ := h.full (by omega) fun hc => hst (hadv.onward.closed hc)
      exact ⟨by omega,by omega,fun _ => hrto⟩
    · obtain ⟨hu,hlt⟩ := hgrow ht
      exact ⟨hu,hlt,fun h => absurd h ht⟩
  obtain ⟨hu,hlt,hrto⟩ := hmoves
  have huna : c'.pcb.sndUna = c.pcb.sndUna := by rw [hadv.placed.una_eq,h.una_eq,hu]
  refine ⟨by omega,?_⟩
  rcases rto_step hs huna with hclosed | ⟨hsame,hacc⟩ | htrue | hnot
  · exact absurd hclosed hst
  · rw [hsame]
    refine hrto ?_
    rw [htakes.accepted] at hacc
    exact append_right_eq_self.mp hacc
  · exact htrue
  · exact absurd (hadv.placed.seqLt_iff.mpr (by omega)) (by rw [hnot]; exact false_ne_true)

theorem Pcb.window_pos (p : Pcb) : 0 < p.window := by
  rw [Pcb.window]
  split
  · exact Nat.one_pos
  · rename_i h
    exact Nat.pos_of_ne_zero fun h0 => h (UInt16.toNat_inj.mp h0)

theorem Flowing.step (h : Flowing iss c una nxt) (hsettled : SendsSettled c e) (hg : WithinFlight c e)
    (hs : c.step e = some c') : ∃ una' nxt', Flowing iss c' una' nxt' := by
  have hstep : ∃ una' nxt' out t, Advances iss c e c' una nxt una' nxt' out ∧ Takes c e c' una una' t ∧
      (t ≠ [] → una' = una ∧ una < nxt') := by
    by_cases hsend : ∃ src sig, e = .send src sig
    · obtain ⟨src,sig,rfl⟩ := hsend
      obtain ⟨nxt',out,t,hadv,htakes,hend⟩ := h.toPlaced.send hs
      refine ⟨una,nxt',out,t,hadv,htakes,fun ht => ⟨rfl,?_⟩⟩
      have hlen : 0 < c'.pcb.sndBuf.length := by
        rw [Fifo.length,htakes.buf hsettled,Nat.sub_self,drop_zero,length_append]
        have := length_pos_iff.mpr ht
        omega
      have hwnd := c.pcb.window_pos
      have := hend ht
      omega
    · obtain ⟨una',nxt',out,t,hadv,htakes⟩ := h.toPlaced.step hs
      exact ⟨una',nxt',out,t,hadv,htakes,fun ht => absurd (htakes.sends ht).2 hsend⟩
  obtain ⟨una',nxt',out,t,hadv,htakes,hgrow⟩ := hstep
  refine ⟨una',nxt',hadv.placed,fun s hmem hd => ?_,fun ho => ?_,h.full_step hsettled hs hadv htakes hgrow⟩
  · rw [hadv.sent] at hmem
    rcases mem_append.mp hmem with hmem | hmem
    · obtain ⟨i,hseq,hend⟩ := h.sent s hmem hd
      exact ⟨i,hseq,Nat.le_trans hend hadv.nxt_le⟩
    obtain ⟨k,hseq,-,hcase⟩ := hadv.piece hmem hd
    refine ⟨una'+k,hseq,?_⟩
    rcases hcase with ⟨-,hend,-⟩ | ⟨rfl,hr,hk,hu,hn,hm⟩
    · exact hend
    · have hflight : min c.pcb.sndBuf.length TCP_MSS ≤ c.pcb.flight := hg hr
      have := h.le
      rw [h.flight] at hflight
      omega
  · have hold := hadv.onward.opening ho
    have ht : t = [] := by
      by_contra ht
      obtain ⟨-,src,sig,rfl⟩ := htakes.sends ht
      exact hsettled hold
    rw [htakes.opening hold,h.opening hold,ht]
    rfl

end Lariat.Net
