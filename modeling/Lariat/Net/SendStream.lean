import Lariat.Net.Places

/-! The send stream: a data byte carries the number of its place among the bytes that `tcp_send`
took, and the FIN the number behind those that were sent. -/
namespace Lariat.Net
open Foundation Serial Stream Runs List Bool

/-- A block whose SYN has been sent. -/
structure Pcb.Opens (iss : UInt32) (p : Pcb) : Prop where
  state : p.state.Opening
  una : p.sndUna = iss
  nxt : p.sndNxt = iss+1
  buf : p.sndBuf.items = []
  fin : p.finSent = false

/-- `tcp_send` is called when the handshake is over, and not after `tcp_close`. -/
def SendsOpen (c : Conn) : ConnEvent → Prop
  | .send _ _ => ¬c.pcb.state.Opening ∧ c.closed = false
  | _ => True

/-- The buffer has the bytes taken from the application, from `snd_una` on. The SYN has place 0, and
the byte with index `i` place `i+1`. -/
structure Lockstep (iss : UInt32) (c : Conn) (una nxt : Nat) : Prop extends
    Placed iss c.pcb una nxt where
  buf : c.pcb.sndBuf.items = c.accepted.drop (una-1)
  bare : una = 0 → c.accepted = [] ∧ (c.pcb.state.Opening ∨ c.pcb.state = .closed)
  syn : c.pcb.state.Opening → una = 0
  nxt_le : nxt ≤ c.accepted.length+2
  unclosed : c.closed = false → nxt ≤ c.accepted.length+1
  before : c.pcb.state.Unshut → nxt ≤ c.accepted.length+1

variable {iss : UInt32} {p : Pcb} {una nxt una' nxt' : Nat} {out : List Segment} {c c' : Conn}
  {e : ConnEvent}

theorem Pcb.Opens.placed (h : p.Opens iss) : Placed iss p 0 1 where
  una_eq := by rw [h.una,nth_zero]
  nxt_eq := h.nxt
  le := Nat.zero_le 1
  pos := Nat.one_pos
  room := by omega
  unshut _ := by decide

theorem Pcb.Opens.lockstep (h : p.Opens iss) : Lockstep iss (.start p) 0 1 where
  toPlaced := h.placed
  buf := h.buf
  bare _ := ⟨rfl,.inl h.state⟩
  syn _ := rfl
  nxt_le := Nat.le_succ 1
  unclosed _ := Nat.le_refl 1
  before _ := Nat.le_refl 1

namespace Lockstep

theorem length (h : Lockstep iss c una nxt) : c.pcb.sndBuf.length = c.accepted.length-(una-1) := by
  rw [Fifo.length,h.buf,length_drop]

section Steps

variable (h : Lockstep iss c una nxt) (hopen : SendsOpen c e)
include h hopen

section

variable (hadv : Advances iss c e c' una nxt una' nxt' out) {t : List UInt8} (htakes : Takes c e c' una una' t)
include hadv htakes

theorem buf_step : c'.pcb.sndBuf.items = c'.accepted.drop (una'-1) := by
  rw [htakes.accepted]
  have hsend (ht : t ≠ []) : ¬c.pcb.state.Opening ∧ c.closed = false := by
    obtain ⟨-,src,sig,rfl⟩ := htakes.sends ht
    exact hopen
  by_cases ho : c.pcb.state.Opening
  · have ht : t = [] := by_contra fun ht => (hsend ht).1 ho
    obtain ⟨hacc,-⟩ := h.bare (h.syn ho)
    rw [htakes.opening ho,h.buf,ht,hacc]
    simp only [drop_nil,append_nil]
  rw [htakes.buf ho,h.buf]
  rcases Nat.eq_zero_or_pos una with hu | hu
  · obtain ⟨hacc,hst⟩ := h.bare hu
    have hdead := hst.resolve_left ho
    have ht : t = [] := by_contra fun ht => (htakes.sends ht).1 hdead
    rw [hacc,ht]
    simp only [drop_nil,append_nil]
  have hle := hadv.una_le
  have happend : c.accepted.drop (una-1) ++ t = (c.accepted ++ t).drop (una-1) := by
    by_cases ht : t = []
    · rw [ht,append_nil,append_nil]
    · have hnxt := h.unclosed (hsend ht).2
      have hun := h.le
      rw [drop_append_of_le_length (by omega)]
  rw [happend,drop_drop]
  congr 1
  omega

/-- The stream and the buffer stay in step, `tcp_send` being called between the handshake and
`tcp_close`. -/
theorem advance : Lockstep iss c' una' nxt' := by
  have hbuf := h.buf_step hopen hadv htakes
  have hle := htakes.isPrefix.length_le
  have hnle := hadv.nxt_le
  have hule := hadv.una_le
  have hun := hadv.una_nxt
  have hpos := h.pos
  have hbare (hu : una' = 0) : c'.accepted = [] ∧ (c'.pcb.state.Opening ∨ c'.pcb.state = .closed) := by
    obtain ⟨hnil,hst⟩ := h.bare (by omega)
    have ht : t = [] := by
      by_contra ht
      obtain ⟨hne,src,sig,rfl⟩ := htakes.sends ht
      exact hst.elim hopen.1 hne
    refine ⟨by rw [htakes.accepted,hnil,ht,append_nil],?_⟩
    rcases hst with hst | hst
    · rcases hadv.opened hst with ⟨-,hst'⟩ | ⟨hu',-⟩
      · exact hst'
      · omega
    · exact .inr (hadv.onward.closed hst)
  -- Only a close goes one place beyond the data.
  have hend : nxt' ≤ c'.accepted.length+1 ∨ nxt' = nxt ∨ e = .close ∧ nxt' = nxt+1 ∧
      c.pcb.state.Unshut ∧ ¬c'.pcb.state.Unshut := by
    cases hadv.move with
    | fresh hf _ =>
      rcases Nat.eq_or_lt_of_le hnle with heq | hlt
      · exact .inr (.inl heq.symm)
      · have hlen := hf.le_length hun hlt
        rw [Fifo.length,hbuf,length_drop] at hlen
        omega
    | again _ _ _ _ hn _ _ _ => exact .inr (.inl hn)
    | fin he _ hn _ h1 h2 _ => exact .inr (.inr ⟨he,hn,h1,h2⟩)
    | finAgain _ _ hn _ _ => exact .inr (.inl hn)
  refine ⟨hadv.placed,hbuf,hbare,fun ho => ?_,?_,fun hc => ?_,fun hst => ?_⟩
  · have hold := hadv.onward.opening ho
    have hu := h.syn hold
    rcases hadv.opened hold with ⟨heq,-⟩ | ⟨-,hst⟩
    · omega
    · rw [hst] at ho
      exact absurd ho (by decide)
  · rcases hend with hend | heq | ⟨-,heq,hst,-⟩
    · omega
    · have := h.nxt_le
      omega
    · have := h.before hst
      omega
  · have hclosed : ¬(c.closed = true ∨ e = .close) := by
      rw [← hadv.closed,hc]
      exact false_ne_true
    rcases hend with hend | heq | ⟨he,-⟩
    · exact hend
    · have := h.unclosed (eq_false_iff.mpr fun h => hclosed (.inl h))
      omega
    · exact absurd (.inr he) hclosed
  · rcases hend with hend | heq | ⟨-,-,-,hshut⟩
    · exact hend
    · have := h.before (hadv.onward.unshut hst)
      omega
    · exact absurd hst hshut

end

theorem step (hs : c.step e = some c') :
    ∃ una' nxt' out t, Advances iss c e c' una nxt una' nxt' out ∧ Takes c e c' una una' t ∧
      Lockstep iss c' una' nxt' := by
  obtain ⟨una',nxt',out,t,hadv,htakes⟩ := h.toPlaced.step hs
  exact ⟨una',nxt',out,t,hadv,htakes,h.advance hopen hadv htakes⟩

end Steps

theorem piece (h : Lockstep iss c' una' nxt') (hadv : Advances iss c e c' una nxt una' nxt' out) {s : Segment}
    (hs : s ∈ out) (hd : s.data ≠ []) :
    ∃ i, una'-1 ≤ i ∧ s.seq = nth (iss+1) i ∧ Occurs c'.accepted i s.data := by
  obtain ⟨k,hseq,hocc,-⟩ := hadv.piece hs hd
  have hne : una' ≠ 0 := by
    intro hu
    rw [h.buf,(h.bare hu).1,Occurs,drop_nil,drop_nil] at hocc
    exact hd (prefix_nil.mp hocc)
  rw [h.buf,occurs_drop] at hocc
  refine ⟨una'-1+k,Nat.le_add_right _ _,?_,hocc⟩
  rw [hseq,nth_base_succ]
  congr 1
  omega

end Lockstep

/-! ### Every byte has its number -/

theorem Advances.sent_drop (h : Advances iss c e c' una nxt una' nxt' out) :
    c'.sent.drop c.sent.length = out := by
  rw [h.sent,drop_left]

theorem dialled_opens : dialled.Opens 0 := ⟨.inl rfl,rfl,rfl,rfl,rfl⟩

/-- The byte of the stream with index `i` has been sent, with its number. -/
def Conn.Sent (iss : UInt32) (c : Conn) (i : Nat) : Prop :=
  ∃ s ∈ c.sent, ∃ j < s.data.length, s.seq + UInt32.ofNat j = nth (iss+1) i ∧ s.data[j]? = c.accepted[i]?

/-- The record of a connection that has not been closed: what is before `snd_nxt` has been sent, at
its place, and no FIN. -/
structure Recorded (iss : UInt32) (c : Conn) (nxt : Nat) : Prop where
  sent : ∀ i, i+1 < nxt → c.Sent iss i
  data : ∀ s ∈ c.sent, s.data ≠ [] → ∃ i, s.seq = nth (iss+1) i ∧ Occurs c.accepted i s.data
  fin : ∀ s ∈ c.sent, s.flags.fin = false
  finSent : c.pcb.finSent = false

theorem Conn.Sent.mono {i : Nat} (h : c.Sent iss i) (hi : i < c.accepted.length) (hsent : c'.sent = c.sent ++ out)
    (hacc : c.accepted <+: c'.accepted) : c'.Sent iss i := by
  obtain ⟨s,hs,j,hj,hseq,heq⟩ := h
  obtain ⟨t,ht⟩ := hacc
  refine ⟨s,hsent ▸ mem_append_left _ hs,j,hj,hseq,?_⟩
  rw [heq,← ht,getElem?_append_left hi]

theorem Occurs.of_prefix {s t d : List UInt8} {i : Nat} (h : Occurs s i d) (ht : s <+: t) : Occurs t i d := by
  obtain ⟨r,rfl⟩ := ht
  exact h.append r

section

variable (hadv : Advances iss c e c' una nxt una' nxt' out) (hacc : c.accepted <+: c'.accepted)
include hadv hacc

/-- The data sent in a step joins that sent before. -/
theorem Lockstep.data_step (h : Lockstep iss c' una' nxt')
    (hold : ∀ s ∈ c.sent, s.data ≠ [] → ∃ i, s.seq = nth (iss+1) i ∧ Occurs c.accepted i s.data) :
    ∀ s ∈ c'.sent, s.data ≠ [] → ∃ i, s.seq = nth (iss+1) i ∧ Occurs c'.accepted i s.data := by
  intro s hs hd
  rw [hadv.sent] at hs
  rcases mem_append.mp hs with hs | hs
  · obtain ⟨i,hseq,hocc⟩ := hold s hs hd
    exact ⟨i,hseq,Occurs.of_prefix hocc hacc⟩
  · obtain ⟨i,-,hseq,hocc⟩ := h.piece hadv hs hd
    exact ⟨i,hseq,hocc⟩

theorem Recorded.step (h : Recorded iss c nxt) (hlock : Lockstep iss c una nxt)
    (hlock' : Lockstep iss c' una' nxt') (hclosed : c'.closed = false) : Recorded iss c' nxt' := by
  have hopen : ¬(c.closed = true ∨ e = .close) := by
    rw [← hadv.closed,hclosed]
    exact false_ne_true
  have hne : e ≠ .close := fun he => hopen (.inr he)
  have hnxt := hlock.unclosed (eq_false_iff.mpr fun h => hopen (.inl h))
  refine ⟨fun i hi => ?_,hlock'.data_step hadv hacc h.data,fun s hs => ?_,?_⟩
  · rcases Nat.lt_or_ge (i+1) nxt with hlt | hge
    · exact (h.sent i hlt).mono (by omega) hadv.sent hacc
    · obtain ⟨s,hs,k,hseq,hocc,hlo,hhi⟩ := hadv.covers hne hge hi
      have hu : una' ≠ 0 := by
        intro hu
        rw [hlock'.buf,(hlock'.bare hu).1,Occurs,drop_nil,drop_nil,prefix_nil] at hocc
        rw [hocc,length_nil] at hhi
        omega
      rw [hlock'.buf,occurs_drop] at hocc
      have hj : i+1-(una'+k) < s.data.length := by omega
      refine ⟨s,hadv.sent ▸ mem_append_right _ hs,i+1-(una'+k),hj,?_,?_⟩
      · rw [hseq,← nth_add,nth_base_succ]
        congr 1
        omega
      · rw [← hocc.getElem? hj]
        congr 1
        omega
  · rw [hadv.sent] at hs
    rcases mem_append.mp hs with hs | hs
    · exact h.fin s hs
    refine eq_false_iff.mpr fun hf => ?_
    rcases (hadv.fin_seq hs hf).2 with hsent | he
    · rw [h.finSent] at hsent
      cases hsent
    · exact hne he
  · refine eq_false_iff.mpr fun hf => ?_
    rcases hadv.finSent hf with hsent | ⟨he,-⟩
    · rw [h.finSent] at hsent
      cases hsent
    · exact hne he

end

/-- The record of a connection after its FIN: the places stand, and every FIN has the last. -/
structure Shut (iss : UInt32) (acc : List UInt8) (sent : List Segment) (nxt : Nat) (c : Conn) : Prop where
  lockstep : ∃ una, Lockstep iss c una nxt
  closed : c.closed = true
  shut : ¬c.pcb.state.Unshut
  accepted : c.accepted = acc
  kept : sent <+: c.sent
  data : ∀ s ∈ c.sent, s.data ≠ [] → ∃ i, s.seq = nth (iss+1) i ∧ Occurs c.accepted i s.data
  fin : ∀ s ∈ c.sent, s.flags.fin = true → s.seq = nth iss (nxt-1)

theorem Shut.step {acc : List UInt8} {sent : List Segment} (h : Shut iss acc sent nxt c)
    (hopen : SendsOpen c e) (hs : c.step e = some c') : Shut iss acc sent nxt c' := by
  obtain ⟨una,hlock⟩ := h.lockstep
  obtain ⟨una',nxt',out,t,hadv,htakes,hlock'⟩ := hlock.step hopen hs
  have hnosend : ¬∃ src sig, e = .send src sig := by
    rintro ⟨src,sig,rfl⟩
    exact absurd h.closed (by rw [hopen.2]; exact false_ne_true)
  have hshut : ¬c'.pcb.state.Unshut := fun hst => h.shut (hadv.onward.unshut hst)
  have hnxt : nxt' = nxt := by
    rcases Nat.eq_or_lt_of_le hadv.nxt_le with heq | hlt
    · exact heq.symm
    · rcases hadv.grows hlt with ⟨⟨hsend,-⟩ | hst,-⟩ | ⟨-,-,hun,-⟩
      · exact absurd hsend hnosend
      · exact absurd (.inl hst) hshut
      · exact absurd hun h.shut
  have ht : t = [] := by_contra fun ht => hnosend (htakes.sends ht).2
  rw [hnxt] at hlock' hadv
  refine ⟨⟨una',hlock'⟩,hadv.closed.mpr (.inl h.closed),hshut,?_,?_,
    hlock'.data_step hadv htakes.isPrefix h.data,fun s hs hf => ?_⟩
  · rw [htakes.accepted,ht,append_nil,h.accepted]
  · rw [hadv.sent]
    exact h.kept.trans (prefix_append _ _)
  · rw [hadv.sent] at hs
    rcases mem_append.mp hs with hs | hs
    · exact h.fin s hs hf
    · exact (hadv.fin_seq hs hf).1

theorem Recorded.close {c₁ : Conn} (h : Recorded iss c nxt) (hlock : Lockstep iss c una nxt)
    (hstate : c.pcb.state = .established ∨ c.pcb.state = .closeWait) (hclose : c.step .close = some c₁) :
    Shut iss c.accepted c₁.sent (nxt+1) c₁ ∧ c.sent <+: c₁.sent ∧ ∃ s ∈ c₁.sent, s.flags.fin = true := by
  obtain ⟨nxt',out,hadv,htakes,hfin⟩ := hlock.toPlaced.close hclose
  obtain ⟨rfl,hshut,rfl⟩ := hfin hstate
  have hopen : SendsOpen c .close := trivial
  have hlock₁ := hlock.advance hopen hadv htakes
  have hsent : c.sent <+: c₁.sent := hadv.sent ▸ prefix_append _ _
  refine ⟨⟨⟨una,hlock₁⟩,hadv.closed.mpr (.inr rfl),hshut,?_,prefix_rfl,
    hlock₁.data_step hadv htakes.isPrefix h.data,fun s hs hf => ?_⟩,hsent,
    tcpSendSeg c.pcb { ack := true, fin := true } c.pcb.sndNxt [],?_,rfl⟩
  · rw [htakes.accepted,append_nil]
  · rw [hadv.sent] at hs
    rcases mem_append.mp hs with hs | hs
    · rw [h.fin s hs] at hf
      cases hf
    · exact (hadv.fin_seq hs hf).1
  · rw [hadv.sent]
    exact mem_append_right _ mem_cons_self

/-- Everything that `tcp_send` took has been sent, the FIN has the number behind it and no data byte
is at the FIN's place or behind. -/
structure Graceful (iss : UInt32) (acc : List UInt8) (c : Conn) : Prop where
  sent : ∀ i < acc.length, ∃ s ∈ c.sent, ∃ j < s.data.length,
    s.seq + UInt32.ofNat j = nth (iss+1) i ∧ s.data[j]? = acc[i]?
  finned : ∃ s ∈ c.sent, s.flags.fin = true
  fin : ∀ s ∈ c.sent, s.flags.fin = true → s.seq = nth (iss+1) acc.length
  data : ∀ s ∈ c.sent, s.data ≠ [] → ∃ i, s.seq = nth (iss+1) i ∧ Occurs acc i s.data ∧
    i+s.data.length ≤ acc.length

theorem Graceful.mem {acc : List UInt8} {b : UInt8} (h : Graceful iss acc c) (hb : b ∈ acc) :
    ∃ s ∈ c.sent, b ∈ s.data := by
  obtain ⟨i,hi,rfl⟩ := mem_iff_getElem.mp hb
  obtain ⟨s,hs,j,-,-,heq⟩ := h.sent i hi
  rw [getElem?_eq_getElem hi] at heq
  exact ⟨s,hs,mem_of_getElem? heq⟩

/-- A peer that opens its window byte by byte. -/
def narrow : List ConnEvent := [synAck 1,.send [7,8] false]

end Lariat.Net
