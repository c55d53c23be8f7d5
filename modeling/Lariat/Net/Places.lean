import Lariat.Net.Connection

/-! The places of a connection's sequence numbers, counted from the initial one, and what each step
sends between them. -/
namespace Lariat.Net
open Foundation Serial Stream List Bool

/-! ### States -/

/-- The handshake is under way. -/
def TcpState.Opening (s : TcpState) : Prop := s = .synSent ∨ s = .synRcvd

/-- Our FIN has not been sent. -/
def TcpState.Unshut (s : TcpState) : Prop := s = .established ∨ s = .closeWait ∨ s.Opening

instance (s : TcpState) : Decidable s.Opening := inferInstanceAs (Decidable (_ ∨ _))

instance (s : TcpState) : Decidable s.Unshut := inferInstanceAs (Decidable (_ ∨ _))

/-- A step of the state machine: nothing leads back to the handshake, from behind our FIN to before
it, or out of CLOSED. -/
structure Onward (s t : TcpState) : Prop where
  unshut : t.Unshut → s.Unshut
  opening : t.Opening → s.Opening
  closed : s = .closed → t = .closed

theorem Onward.refl (s : TcpState) : Onward s s := ⟨id,id,id⟩

theorem Onward.trans {s t u : TcpState} (h : Onward s t) (h' : Onward t u) : Onward s u :=
  ⟨fun hu => h.unshut (h'.unshut hu),fun hu => h.opening (h'.opening hu),fun hs => h'.closed (h.closed hs)⟩

theorem Onward.to_closed (s : TcpState) : Onward s .closed :=
  ⟨fun h => absurd h (by decide),fun h => absurd h (by decide),fun _ => rfl⟩

theorem Onward.half_closed : Onward .established .closeWait :=
  ⟨fun _ => .inl rfl,fun h => absurd h (by decide),fun h => absurd h (by decide)⟩

/-- A step behind our FIN. -/
theorem Onward.of_shut {s t : TcpState} (hs : s ≠ .closed) (ht : ¬t.Unshut) : Onward s t :=
  ⟨fun h => absurd h ht,fun h => absurd (.inr (.inr h)) ht,fun h => absurd h hs⟩

theorem Pcb.Synchronised.not_opening {p : Pcb} (h : p.Synchronised) : ¬p.state.Opening := by
  rcases h with h | h | h | h | h | h <;> (rw [h]; decide)

theorem Pcb.Synchronised.ne_closed {p : Pcb} (h : p.Synchronised) : p.state ≠ .closed := by
  rcases h with h | h | h | h | h | h <;> (rw [h]; decide)

/-! ### Steps -/

/-- What a segment does to a block that goes on. -/
inductive Taken (p : Pcb) (seg : Segment) : Outcome → Prop
  | reset : Taken p seg { pcb := { p with reset := true, state := .closed, rto := false }, wake := true }
  | kept : Taken p seg { pcb := p }
  | opened {o : Outcome} : seg.flags.rst = false → p.state.Opening → Establishes p seg o → Taken p seg o
  | synchronised : seg.flags.rst = false → p.Synchronised → (inputSynchronised p seg).freed = false →
      Taken p seg (inputSynchronised p seg)

section Cases

variable {c c' : Conn} {seg : Segment}

theorem step_input (hs : c.step (.input seg) = some c') : ∃ o, Taken c.pcb seg o ∧ c' = { c with
    pcb := o.pcb
    sent := c.sent ++ o.out
    fins := if o.fin then c.fins+1 else c.fins
    una := (c.moved o.pcb).una
    heard := if seg.flags.ack ∧ ¬seg.flags.rst then c.heard ++ [((c.moved o.pcb).place seg.ack,seg.win)]
      else c.heard } := by
  have hcase := tcpInput_case c.pcb seg
  rw [Conn.step,Conn.afterInput] at hs
  generalize tcpInput c.pcb seg = o at hcase hs
  split at hs
  · cases hs
  rename_i hfree
  refine ⟨o,?_,(Option.some.inj hs).symm⟩
  cases hcase with
  | reset _ => exact .reset
  | synSent hrst hst =>
    rcases inputSynSent_case c.pcb seg with he | heq
    · exact .opened hrst (.inl hst) he
    · rw [heq]
      exact .kept
  | synRcvd hrst hst =>
    rcases inputSynRcvd_case c.pcb seg with he | heq
    · exact .opened hrst (.inr hst) he
    · rw [heq]
      exact .kept
  | synchronised hrst hsync => exact .synchronised hrst hsync (eq_false_iff.mpr hfree)
  | ignored _ _ => exact .kept

theorem step_close (hs : c.step .close = some c') : ∃ o, CloseCase c.pcb o ∧ o.freed = false ∧
    c' = { c with pcb := o.pcb, sent := c.sent ++ o.out, closed := true } := by
  rw [Conn.step,Conn.afterClose] at hs
  split at hs
  · cases hs
  · rename_i hfree
    exact ⟨_,tcpClose_case c.pcb,eq_false_iff.mpr hfree,(Option.some.inj hs).symm⟩

theorem step_timeout (hs : c.step .timeout = some c') : ∃ r, TimeoutCase (c.pcb.setRto false) r ∧
    c' = { c with pcb := r.1, sent := c.sent ++ r.2 } :=
  ⟨_,tcpRtoCb_case (c.pcb.setRto false),(Option.some.inj hs).symm⟩

end Cases

/-! ### Places -/

/-- The sequence numbers of a block stand at places behind the initial number, and no more is in
flight than the buffer has room for, with a FIN behind it. -/
structure Placed (iss : UInt32) (p : Pcb) (una nxt : Nat) : Prop where
  una_eq : p.sndUna = nth iss una
  nxt_eq : p.sndNxt = nth iss nxt
  le : una ≤ nxt
  pos : 0 < nxt
  room : nxt ≤ una+TCP_SNDBUF+1
  unshut : p.state.Unshut → nxt ≤ una+TCP_SNDBUF

/-- Two blocks agree in what they send. -/
structure SameSend (p q : Pcb) : Prop where
  una : q.sndUna = p.sndUna
  nxt : q.sndNxt = p.sndNxt
  buf : q.sndBuf = p.sndBuf
  fin : q.finSent = p.finSent

/-- A segment with neither data nor a FIN. -/
def Segment.Bare (s : Segment) : Prop := s.data = [] ∧ s.flags.fin = false

/-- The segments with data among `out` are these pieces of the stream. -/
structure DataOf (iss : UInt32) (out : List Segment) (ps : List (Nat × List UInt8)) : Prop where
  piece : ∀ s ∈ out, s.data ≠ [] → ∃ x ∈ ps, s.seq = nth iss x.1 ∧ s.data = x.2
  segment : ∀ x ∈ ps, ∃ s ∈ out, s.seq = nth iss x.1 ∧ s.data = x.2

/-- The segments with data cut the part of the buffer between the old and the new `snd_nxt`, which
is within the window. -/
structure Fresh (iss : UInt32) (q : Pcb) (una nxt nxt' : Nat) (out : List Segment) : Prop where
  cut : ∃ ps, Cut q.sndBuf.items (nxt-una) ps (nxt'-una) ∧
    DataOf iss out (ps.map fun x => (una+x.1,x.2))
  window : nxt < nxt' → nxt' ≤ una+q.window
  fin : ∀ s ∈ out, s.flags.fin = false

variable {iss : UInt32} {p q : Pcb} {una nxt una' nxt' : Nat} {out : List Segment} {seg : Segment}

theorem SameSend.refl (p : Pcb) : SameSend p p := ⟨rfl,rfl,rfl,rfl⟩

theorem bare_nil : ∀ s ∈ ([] : List Segment), s.Bare := fun _ hs => absurd hs not_mem_nil

theorem bare_singleton {s : Segment} (h : s.Bare) : ∀ t ∈ [s], t.Bare := by
  intro t ht
  rw [mem_singleton.mp ht]
  exact h

theorem ackSeg_bare (p : Pcb) : (ackSeg p).Bare := ⟨rfl,rfl⟩

theorem DataOf.nil (iss : UInt32) (h : ∀ s ∈ out, s.Bare) : DataOf iss out [] :=
  ⟨fun s hs hd => absurd (h s hs).1 hd,fun _ hx => absurd hx not_mem_nil⟩

theorem DataOf.append_left {l : List Segment} {ps : List (Nat × List UInt8)}
    (hl : ∀ s ∈ l, s.Bare) (h : DataOf iss out ps) : DataOf iss (l ++ out) ps where
  piece s hs hd := by
    rcases mem_append.mp hs with hs | hs
    · exact absurd (hl s hs).1 hd
    · exact h.piece s hs hd
  segment x hx := by
    obtain ⟨s,hs,heq⟩ := h.segment x hx
    exact ⟨s,mem_append_right l hs,heq⟩

namespace Fresh

theorem quiet (q : Pcb) (una : Nat) (h : ∀ s ∈ out, s.Bare) : Fresh iss q una nxt nxt out :=
  ⟨⟨[],.nil _,.nil iss h⟩,fun hlt => absurd hlt (Nat.lt_irrefl nxt),fun s hs => (h s hs).2⟩

theorem congr {r : Pcb} (h : Fresh iss q una nxt nxt' out) (hw : r.sndWnd = q.sndWnd)
    (hb : r.sndBuf = q.sndBuf) : Fresh iss r una nxt nxt' out := by
  obtain ⟨hcut,hwnd,hfin⟩ := h
  refine ⟨hb ▸ hcut,fun hlt => ?_,hfin⟩
  rw [Pcb.window,hw]
  exact hwnd hlt

theorem append_left {l : List Segment} (hl : ∀ s ∈ l, s.Bare) (h : Fresh iss q una nxt nxt' out) :
    Fresh iss q una nxt nxt' (l ++ out) := by
  obtain ⟨⟨ps,hcut,hdata⟩,hwnd,hfin⟩ := h
  refine ⟨⟨ps,hcut,hdata.append_left hl⟩,hwnd,fun s hs => ?_⟩
  rcases mem_append.mp hs with hs | hs
  · exact (hl s hs).2
  · exact hfin s hs

theorem le_length (h : Fresh iss q una nxt nxt' out) (hle : una ≤ nxt) (hlt : nxt < nxt') :
    nxt' ≤ una+q.sndBuf.length := by
  obtain ⟨⟨ps,hcut,-⟩,-,-⟩ := h
  have := hcut.end_le (by omega)
  rw [Fifo.length]
  omega

end Fresh

namespace Placed

section Pcb

variable (h : Placed iss p una nxt)
include h

theorem congr (hs : SameSend p q) (ho : Onward p.state q.state) : Placed iss q una nxt where
  una_eq := hs.una.trans h.una_eq
  nxt_eq := hs.nxt.trans h.nxt_eq
  le := h.le
  pos := h.pos
  room := h.room
  unshut hq := h.unshut (ho.unshut hq)

theorem flight_lt' : nxt-una < 0x10000 := by
  have hroom := h.room
  have hsize : TCP_SNDBUF = 16384 := rfl
  omega

theorem flight : p.flight = nxt-una := by
  have hlt := h.flight_lt'
  rw [Pcb.flight,h.una_eq,h.nxt_eq,toNat_nth_sub h.le (by omega)]

theorem flight_lt : p.flight < 0x80000000 := by
  have hlt := h.flight_lt'
  rw [h.flight]
  omega

theorem seqLt_iff : seqLt p.sndUna p.sndNxt = true ↔ una < nxt := by
  have hle := h.le
  have hlt := h.flight_lt'
  rw [seqLt,decide_eq_true_iff,h.una_eq,h.nxt_eq]
  exact neg_nth_sub (by omega) (by omega)

theorem takeAck (seg : Segment) : ∃ una', una ≤ una' ∧ Placed iss (takeAck p seg).1 una' nxt ∧
      (takeAck p seg).1.sndBuf.items = p.sndBuf.items.drop (una'-una) ∧
      (una' = una ∨ una < una' ∧ seg.ack = nth iss una') := by
  rw [Net.takeAck]
  split
  · rename_i htaken
    obtain ⟨hpos,hle⟩ := (takeAck_iff h.flight_lt seg.ack).mp htaken
    have hplace : seg.ack = nth iss (una+(seg.ack-p.sndUna).toNat) := by
      rw [← nth_nth,← h.una_eq,nth_sub_base]
    generalize (seg.ack-p.sndUna).toNat = d at hpos hle hplace ⊢
    rw [h.flight] at hle
    have hroom := h.room
    refine ⟨una+d,Nat.le_add_right una d,⟨hplace,h.nxt_eq,?_,h.pos,?_,fun hs => ?_⟩,?_,.inr ⟨?_,hplace⟩⟩
    · omega
    · omega
    · have := h.unshut hs
      omega
    · rw [Fifo.items_drop,Nat.add_sub_cancel_left]
      rcases Nat.le_total d p.sndBuf.length with hd | hd
      · rw [Nat.min_eq_left hd]
      · rw [Nat.min_eq_right hd,drop_eq_nil_of_le hd]
        exact drop_length
    · omega
  · refine ⟨una,Nat.le_refl una,h,?_,.inl rfl⟩
    rw [Nat.sub_self]
    rfl

theorem map_dataSeg (ps : List (Nat × List UInt8)) :
    DataOf iss (ps.map (dataSeg p)) (ps.map fun x => (una+x.1,x.2)) := by
  have hseq (x : Nat × List UInt8) : (dataSeg p x).seq = nth iss (una+x.1) := by
    show nth p.sndUna x.1 = _
    rw [h.una_eq,nth_nth]
  constructor
  · intro s hs _
    obtain ⟨x,hx,rfl⟩ := mem_map.mp hs
    exact ⟨_,mem_map_of_mem hx,hseq x,rfl⟩
  · intro y hy
    obtain ⟨x,hx,rfl⟩ := mem_map.mp hy
    exact ⟨_,mem_map_of_mem hx,hseq x,rfl⟩

/-- `tcp_output_data` sends from `snd_nxt` on, to the end of the data or of the window. -/
theorem output : ∃ nxt', nxt ≤ nxt' ∧ Placed iss (tcpOutputData p p.sndUna).1 una nxt' ∧
      Fresh iss p una nxt nxt' (tcpOutputData p p.sndUna).2 ∧
      nxt' = max nxt (una+min p.sndBuf.length p.window) := by
  obtain ⟨ps,heq,hcut⟩ := tcpOutputData_spec p
  have hle := h.le
  have hpos := h.pos
  have hroom := h.room
  have hlen := p.sndBuf.length_le'
  have hend : una+p.outputEnd p.flight = max nxt (una+min p.sndBuf.length p.window) := by
    rw [Pcb.outputEnd,h.flight]
    omega
  rw [heq]
  refine ⟨una+p.outputEnd p.flight,?_,⟨h.una_eq,?_,?_,?_,?_,fun hs => ?_⟩,
    ⟨⟨ps,?_,h.map_dataSeg ps⟩,fun hlt => ?_,fun s hs => ?_⟩,hend⟩
  · omega
  · rw [h.una_eq,nth_nth]
  · omega
  · omega
  · omega
  · have := h.unshut hs
    omega
  · rw [Nat.add_sub_cancel_left,← h.flight]
    exact hcut
  · omega
  · obtain ⟨x,-,rfl⟩ := mem_map.mp hs
    rfl

end Pcb

end Placed

/-! ### The parts of a step -/

section

variable (p : Pcb)

/-- Our FIN acknowledged changes the state, and the timer if it closes the block. -/
theorem finAcked_parts : ∃ s r, (finAcked p).1 = { p with state := s, rto := r } ∧
    Onward p.state s ∧ (s = .closed ∨ r = p.rto) ∧
    ((finAcked p).2 = false → s = p.state ∨ p.state = .finWait1 ∧ s = .finWait2) := by
  rw [finAcked]
  split
  · rename_i h
    exact ⟨_,_,rfl,.of_shut (by rw [h.1]; decide) (by decide : ¬TcpState.Unshut .finWait2),.inr rfl,
      fun _ => .inr ⟨h.1,rfl⟩⟩
  split
  · exact ⟨_,_,rfl,.to_closed _,.inl rfl,nofun⟩
  · exact ⟨_,_,rfl,.refl _,.inr rfl,fun _ => .inl rfl⟩

/-- The block after the acknowledgement number and the window of a segment. -/
def acked (seg : Segment) : Pcb := if seg.flags.ack then takeWindow (takeAck p seg).1 seg else p

theorem acked_parts (seg : Segment) : ∃ b u k r, acked p seg = { p with
    sndBuf := b, sndUna := u, retries := k, rto := r
    sndWnd := if seg.flags.ack ∧ seg.win ≠ 0 then seg.win else p.sndWnd } := by
  rw [acked]
  cases seg.flags.ack with
  | false => exact ⟨_,_,_,_,rfl⟩
  | true =>
    have hw : (if true = true ∧ seg.win ≠ 0 then seg.win else p.sndWnd) =
        if seg.win = 0 then p.sndWnd else seg.win := by
      by_cases h0 : seg.win = 0 <;> simp [h0]
    rw [hw,if_pos rfl,takeWindow,takeAck]
    split
    · exact ⟨_,_,_,_,rfl⟩
    · exact ⟨_,_,_,_,rfl⟩

theorem acked_state (seg : Segment) : (acked p seg).state = p.state := by
  obtain ⟨_,_,_,_,hacked⟩ := acked_parts p seg
  rw [hacked]

theorem processAck_parts (seg : Segment) :
    ∃ s r, (processAck p seg).1 = { acked p seg with state := s, rto := r } ∧ Onward p.state s ∧
      (s = .closed ∨ r = (acked p seg).rto) ∧
      ((processAck p seg).2.2 = false → s = p.state ∨ p.state = .finWait1 ∧ s = .finWait2) := by
  rw [processAck]
  cases hack : seg.flags.ack with
  | false =>
    rw [acked,hack]
    exact ⟨_,_,rfl,.refl _,.inr rfl,fun _ => .inl rfl⟩
  | true =>
    have hfin := finAcked_parts (acked p seg)
    rw [acked_state,acked,hack] at hfin
    rw [acked,hack]
    exact hfin

theorem processData_parts (seg : Segment) :
    ∃ b d, (processData p seg).1 = { p with rcvBuf := b, rcvNxt := p.rcvNxt + UInt32.ofNat d.length } ∧
      b.items = p.rcvBuf.items ++ d ∧ (d ≠ [] → p.receives ∧ seg.seq = p.rcvNxt ∧ d <+: seg.data) ∧
      ∀ s ∈ (processData p seg).2.1, s.Bare := by
  have hnone : p = { p with rcvNxt := p.rcvNxt + UInt32.ofNat ([] : List UInt8).length } :=
    congrArg (fun n => { p with rcvNxt := n }) (UInt32.add_zero _).symm
  rw [processData]
  split
  · rename_i h
    refine ⟨p.rcvBuf.push seg.data,seg.data.take p.rcvBuf.space,?_,rfl,fun _ => ⟨h.2.2,h.2.1,List.take_prefix _ _⟩,
      bare_singleton (ackSeg_bare _)⟩
    rw [length_take,Nat.min_comm]
    rfl
  split
  · exact ⟨_,[],hnone,(append_nil _).symm,absurd rfl,bare_singleton (ackSeg_bare _)⟩
  · exact ⟨_,[],hnone,(append_nil _).symm,absurd rfl,bare_nil⟩

theorem takeFin_parts : ∃ s r, takeFin p = { p with state := s, rto := r } ∧ Onward p.state s ∧
    (s = .closed ∨ r = p.rto) ∧ (s ≠ .established ∧ s ≠ .finWait1 ∧ s ≠ .finWait2) := by
  rw [takeFin]
  split
  · rename_i hs
    rw [hs]
    exact ⟨_,_,rfl,.half_closed,.inr rfl,by decide⟩
  · exact ⟨_,_,rfl,.to_closed _,.inl rfl,by decide⟩
  · rename_i hs
    exact ⟨_,_,rfl,.of_shut (by rw [hs]; decide) (by decide : ¬TcpState.Unshut .closing),.inr rfl,by decide⟩
  · rename_i h1 h2 h3
    exact ⟨_,_,rfl,.refl _,.inr rfl,h1,h3,h2⟩

theorem processFin_parts (seg : Segment) :
    ∃ s r n, (processFin p seg).1 = { p with state := s, rto := r, rcvNxt := n } ∧
      Onward p.state s ∧ (s = .closed ∨ r = p.rto) ∧ (∀ s ∈ (processFin p seg).2.1, s.Bare) ∧
      ((processFin p seg).2.2 = false ∧ s = p.state ∧ n = p.rcvNxt ∨
        (processFin p seg).2.2 = true ∧ (s ≠ .established ∧ s ≠ .finWait1 ∧ s ≠ .finWait2) ∧
          n = p.rcvNxt+1 ∧ seg.flags.fin = true ∧ seg.seq + UInt32.ofNat seg.data.length = p.rcvNxt) := by
  rw [processFin]
  split
  · rename_i h
    obtain ⟨s,r,heq,ho,hr,hd⟩ := takeFin_parts { p with rcvNxt := p.rcvNxt+1 }
    exact ⟨s,r,_,heq,ho,hr,bare_singleton (ackSeg_bare _),.inr ⟨rfl,hd,rfl,h⟩⟩
  · exact ⟨_,_,_,rfl,.refl _,.inr rfl,bare_nil,.inl ⟨rfl,rfl,rfl⟩⟩

theorem pushData_parts : ∃ n, (pushData p).1 = { p with sndNxt := n } := by
  rw [pushData]
  split
  · obtain ⟨ps,heq,-⟩ := tcpOutputData_spec p
    exact ⟨_,congrArg Prod.fst heq⟩
  · exact ⟨_,rfl⟩

/-- What a segment leaves of the block is as the acknowledgement left it. -/
theorem inputSynchronised_parts (seg : Segment) :
    ∃ s r b n m, (inputSynchronised p seg).pcb =
        { acked p seg with state := s, rto := r, rcvBuf := b, rcvNxt := n, sndNxt := m } ∧
      Onward p.state s ∧ (s = .closed ∨ r = (acked p seg).rto) := by
  obtain ⟨s,r,ha,ho,hr,-⟩ := processAck_parts p seg
  rw [inputSynchronised]
  split
  · exact ⟨s,r,_,_,_,ha,ho,hr⟩
  obtain ⟨b,d,hd,-⟩ := processData_parts (processAck p seg).1 seg
  obtain ⟨s',r',n,hf,ho',hr',-⟩ := processFin_parts (processData (processAck p seg).1 seg).1 seg
  obtain ⟨m,hpush⟩ := pushData_parts (processFin (processData (processAck p seg).1 seg).1 seg).1
  dsimp only
  rw [hpush,hf]
  rw [hd,ha] at ho' hr' ⊢
  refine ⟨s',r',_,_,_,rfl,ho.trans ho',hr'.elim .inl fun h => hr.imp ?_ h.trans⟩
  exact fun hc => ho'.closed hc

theorem inputSynchronised_onward (seg : Segment) : Onward p.state (inputSynchronised p seg).pcb.state := by
  obtain ⟨_,_,_,_,_,heq,ho,-⟩ := inputSynchronised_parts p seg
  rw [heq]
  exact ho

end

namespace Placed

theorem processAck (h : Placed iss p una nxt) (seg : Segment) :
    ∃ una', una ≤ una' ∧ Placed iss (processAck p seg).1 una' nxt ∧
      (processAck p seg).1.sndBuf.items = p.sndBuf.items.drop (una'-una) ∧
      (una' = una ∨ una < una' ∧ seg.flags.ack ∧ seg.ack = nth iss una') := by
  obtain ⟨s,r,heq,ho,-⟩ := processAck_parts p seg
  rw [heq]
  rw [← acked_state p seg] at ho
  rw [acked] at ho ⊢
  cases hack : seg.flags.ack with
  | false =>
    rw [hack] at ho
    refine ⟨una,Nat.le_refl una,h.congr ⟨rfl,rfl,rfl,rfl⟩ ho,?_,.inl rfl⟩
    rw [Nat.sub_self]
    rfl
  | true =>
    rw [hack] at ho
    obtain ⟨una',hle,hal,hbuf,hcase⟩ := h.takeAck seg
    exact ⟨una',hle,hal.congr ⟨rfl,rfl,rfl,rfl⟩ ho,hbuf,hcase.imp_right fun h => ⟨h.1,rfl,h.2⟩⟩

theorem pushData (h : Placed iss p una nxt) :
    ∃ nxt', nxt ≤ nxt' ∧ Placed iss (pushData p).1 una nxt' ∧
      Fresh iss p una nxt nxt' (pushData p).2 ∧ (nxt < nxt' → p.state = .established) := by
  rw [Net.pushData]
  split
  · rename_i hst
    obtain ⟨nxt',hle,hal,hfresh,-⟩ := h.output
    exact ⟨nxt',hle,hal,hfresh,fun _ => hst.1⟩
  · exact ⟨nxt,Nat.le_refl nxt,h,.quiet p una bare_nil,fun hlt => absurd hlt (Nat.lt_irrefl nxt)⟩

theorem input (h : Placed iss p una nxt) (hfree : (inputSynchronised p seg).freed = false) :
    ∃ una' nxt', una ≤ una' ∧ una' ≤ nxt ∧ nxt ≤ nxt' ∧
      Placed iss (inputSynchronised p seg).pcb una' nxt' ∧
      (inputSynchronised p seg).pcb.sndBuf.items = p.sndBuf.items.drop (una'-una) ∧
      Fresh iss (inputSynchronised p seg).pcb una' nxt nxt' (inputSynchronised p seg).out ∧
      (nxt < nxt' → (inputSynchronised p seg).pcb.state = .established) ∧
      (una' = una ∨ una < una' ∧ seg.flags.ack ∧ seg.ack = nth iss una') := by
  obtain ⟨una',hle,hal,hbuf,hcase⟩ := h.processAck seg
  rw [inputSynchronised] at hfree ⊢
  dsimp only at hfree ⊢
  generalize Net.processAck p seg = a at hfree hal hbuf ⊢
  cases hfreed : a.2.2 with
  | true =>
    rw [hfreed,if_pos rfl] at hfree
    cases hfree
  | false =>
    rw [if_neg Bool.false_ne_true]
    obtain ⟨b,d,hd,-,-,hdq⟩ := processData_parts a.1 seg
    obtain ⟨s,r,n,hf,hof,-,hfq,-⟩ := processFin_parts (processData a.1 seg).1 seg
    obtain ⟨m,hpush⟩ := pushData_parts (processFin (processData a.1 seg).1 seg).1
    have hq : Placed iss (processFin (processData a.1 seg).1 seg).1 una' nxt := by
      rw [hf]
      rw [hd] at hof ⊢
      exact hal.congr ⟨rfl,rfl,rfl,rfl⟩ hof
    obtain ⟨nxt',hnle,hal',hfresh,hst⟩ := hq.pushData
    refine ⟨una',nxt',hle,hal.le,hnle,hal',?_,
      (hfresh.congr (by rw [hpush]) (by rw [hpush])).append_left fun s hs => ?_,
      fun hlt => ?_,hcase⟩
    · rw [hpush,hf,hd]
      exact hbuf
    · rcases mem_append.mp hs with hs | hs
      · exact hdq s hs
      · exact hfq s hs
    · rw [hpush]
      exact hst hlt

end Placed

/-! ### The step -/

/-- The steps that send new bytes: `tcp_send`, and segments of the peer in ESTABLISHED. -/
def Pushes (c : Conn) (e : ConnEvent) (c' : Conn) : Prop :=
  (∃ src sig, e = .send src sig) ∧ c'.pcb.state = c.pcb.state ∧ c.pcb.state ≠ .closed ∨
    c'.pcb.state = .established

section

variable (iss : UInt32) (c : Conn) (e : ConnEvent) (c' : Conn) (una nxt una' nxt' : Nat) (out : List Segment)

/-- The ways a step sends: new bytes, the first of the buffer again, our FIN, or our FIN again. -/
inductive Move : Prop
  | fresh : Fresh iss c'.pcb una' nxt nxt' out → (nxt < nxt' → Pushes c e c') →
      Move
  | again : e = .timeout → c.pcb.Retransmits → una < nxt → una' = una → nxt' = nxt →
      c'.pcb.sndBuf = c.pcb.sndBuf →
      DataOf iss out [(una,c'.pcb.sndBuf.items.take (min c'.pcb.sndBuf.length TCP_MSS))] →
      (∀ s ∈ out, s.flags.fin = false) → Move
  | fin : e = .close → una' = una → nxt' = nxt+1 → (∀ s ∈ out, s.data = [] ∧ s.seq = nth iss nxt) →
      c.pcb.state.Unshut → ¬c'.pcb.state.Unshut → c'.pcb.finSent = true →
      Move
  | finAgain : e = .timeout → una' = una → nxt' = nxt → c.pcb.finSent = true →
      (∀ s ∈ out, s.data = [] ∧ s.seq = nth iss (nxt-1)) → Move

/-- What a step of a connection does to the places, and what it sends. -/
structure Advances : Prop where
  placed : Placed iss c'.pcb una' nxt'
  una_le : una ≤ una'
  una_nxt : una' ≤ nxt
  nxt_le : nxt ≤ nxt'
  onward : Onward c.pcb.state c'.pcb.state
  acked : una < una' → ∃ seg, e = .input seg ∧ seg.flags.ack = true ∧ seg.ack = nth iss una'
  finSent : c'.pcb.finSent = true → c.pcb.finSent = true ∨ e = .close ∧ ¬c'.pcb.state.Unshut
  finKept : c.pcb.finSent = true → c'.pcb.finSent = true
  closed : c'.closed = true ↔ c.closed = true ∨ e = .close
  sent : c'.sent = c.sent ++ out
  move : Move iss c e c' una nxt una' nxt' out
  /-- Out of the handshake the SYN is acknowledged. -/
  opened : c.pcb.state.Opening → una' = una ∧ (c'.pcb.state.Opening ∨ c'.pcb.state = .closed) ∨
    una' = nxt ∧ c'.pcb.state = .established
  /-- A closed block stays as it is. -/
  dead : c.pcb.state = .closed → una' = una

end

/-- What the bytes that a step takes from the application and those that it finds acknowledged do to
the buffer. In the handshake the SYN is acknowledged, and the buffer stays. -/
structure Takes (c : Conn) (e : ConnEvent) (c' : Conn) (una una' : Nat) (t : List UInt8) : Prop where
  accepted : c'.accepted = c.accepted ++ t
  buf : ¬c.pcb.state.Opening → c'.pcb.sndBuf.items = (c.pcb.sndBuf.items ++ t).drop (una'-una)
  opening : c.pcb.state.Opening → c'.pcb.sndBuf.items = c.pcb.sndBuf.items ++ t
  sends : t ≠ [] → c.pcb.state ≠ .closed ∧ ∃ src sig, e = .send src sig

theorem Takes.isPrefix {c c' : Conn} {e : ConnEvent} {t : List UInt8} (h : Takes c e c' una una' t) :
    c.accepted <+: c'.accepted :=
  h.accepted ▸ prefix_append _ _

variable {c c' : Conn} {e : ConnEvent}

theorem Placed.quiet (h : Placed iss c.pcb una nxt) (hsame : SameSend c.pcb c'.pcb)
    (hstate : Onward c.pcb.state c'.pcb.state)
    (hopen : c.pcb.state.Opening → c'.pcb.state.Opening ∨ c'.pcb.state = .closed)
    (hclosed : c'.closed = true ↔ c.closed = true ∨ e = .close) (hsent : c'.sent = c.sent ++ out)
    (hout : ∀ s ∈ out, s.Bare) : Advances iss c e c' una nxt una nxt out where
  placed := h.congr hsame hstate
  una_le := Nat.le_refl una
  una_nxt := h.le
  nxt_le := Nat.le_refl nxt
  onward := hstate
  acked hlt := absurd hlt (Nat.lt_irrefl una)
  finSent hf := .inl (hsame.fin ▸ hf)
  finKept hf := hsame.fin.trans hf
  closed := hclosed
  sent := hsent
  move := .fresh (.quiet _ _ hout) fun hlt => absurd hlt (Nat.lt_irrefl nxt)
  opened hs := .inl ⟨rfl,hopen hs⟩
  dead _ := rfl

theorem Takes.nothing (hacc : c'.accepted = c.accepted) (hbuf : c'.pcb.sndBuf = c.pcb.sndBuf) :
    Takes c e c' una una [] where
  accepted := by rw [hacc,append_nil]
  buf _ := by rw [hbuf,append_nil,Nat.sub_self,drop_zero]
  opening _ := by rw [hbuf,append_nil]
  sends h := absurd rfl h

theorem closed_iff_of_ne {b : Bool} (h : e ≠ .close) : b = true ↔ b = true ∨ e = .close :=
  ⟨.inl,fun hb => hb.resolve_right h⟩

namespace Placed

theorem send (h : Placed iss c.pcb una nxt) {src : List UInt8} {sig : Bool}
    (hs : c.step (.send src sig) = some c') :
    ∃ nxt' out t, Advances iss c (.send src sig) c' una nxt una nxt' out ∧
      Takes c (.send src sig) c' una una t ∧
      (t ≠ [] → nxt' = max nxt (una+min c'.pcb.sndBuf.length c.pcb.window)) := by
  obtain ⟨r,hr,rfl⟩ := Option.map_eq_some_iff.mp hs
  cases tcpSendTurn_case hr with
  | idle =>
    exact ⟨nxt,[],[],h.quiet (.refl _) (.refl _) .inl (closed_iff_of_ne (by simp)) rfl bare_nil,
      .nothing (append_nil _) rfl,fun h => absurd rfl h⟩
  | turn b hreset hstate hchunk _ =>
    have htake : src.take (min src.length c.pcb.sndBuf.space) = src.take c.pcb.sndBuf.space := by
      rw [Nat.min_comm,← take_eq_take_min]
    have hq : Placed iss (c.pcb.queue src) una nxt := ⟨h.una_eq,h.nxt_eq,h.le,h.pos,h.room,h.unshut⟩
    obtain ⟨nxt',hnle,hal,hfresh,hend⟩ := hq.output
    obtain ⟨ps,heq,-⟩ := tcpOutputData_spec (c.pcb.queue src)
    rw [heq] at hal hfresh ⊢
    rw [htake]
    refine ⟨nxt',_,src.take c.pcb.sndBuf.space,⟨?_,Nat.le_refl una,h.le,hnle,?_,
      fun hlt => absurd hlt (Nat.lt_irrefl una),.inl,id,
      closed_iff_of_ne (by simp),rfl,.fresh (hfresh.congr rfl rfl) fun _ => .inl ⟨⟨src,sig,rfl⟩,rfl,hstate⟩,
      fun ho => .inl ⟨rfl,.inl ho⟩,fun _ => rfl⟩,
      ⟨rfl,fun _ => ?_,fun _ => rfl,fun _ => ⟨hstate,src,sig,rfl⟩⟩,fun _ => hend⟩
    · exact hal.congr ⟨rfl,rfl,rfl,rfl⟩ (.refl _)
    · exact .refl _
    · rw [Nat.sub_self]
      rfl

theorem recv (h : Placed iss c.pcb una nxt) {len : Nat} {sig : Bool}
    (hs : c.step (.recv len sig) = some c') :
    Advances iss c (.recv len sig) c' una nxt una nxt [] ∧ Takes c (.recv len sig) c' una una [] := by
  obtain ⟨r,hr,rfl⟩ := Option.map_eq_some_iff.mp hs
  cases tcpRecv_case hr with
  | nothing r | bytes hn h0 =>
    exact ⟨h.quiet ⟨rfl,rfl,rfl,rfl⟩ (.refl _) .inl (closed_iff_of_ne (by simp)) (append_nil _).symm bare_nil,
      .nothing rfl rfl⟩

theorem close (h : Placed iss c.pcb una nxt) (hs : c.step .close = some c') :
    ∃ nxt' out, Advances iss c .close c' una nxt una nxt' out ∧ Takes c .close c' una una [] ∧
      (c.pcb.state = .established ∨ c.pcb.state = .closeWait →
        nxt' = nxt+1 ∧ ¬c'.pcb.state.Unshut ∧
          out = [tcpSendSeg c.pcb { ack := true, fin := true } c.pcb.sndNxt []]) := by
  obtain ⟨o,hcase,hfree,rfl⟩ := step_close hs
  have hfin {next : TcpState} (hopen : c.pcb.state = .established ∨ c.pcb.state = .closeWait)
      (hnext : ¬next.Unshut) :
      Advances iss c .close { c with
          pcb := (sendFin c.pcb next).pcb
          sent := c.sent ++ (sendFin c.pcb next).out
          closed := true } una nxt una (nxt+1) (sendFin c.pcb next).out := by
    have hun : c.pcb.state.Unshut := hopen.imp_right .inl
    have hclosed : c.pcb.state ≠ .closed := by
      rcases hopen with hst | hst <;> (rw [hst]; decide)
    have hroom := h.unshut hun
    have hle := h.le
    refine ⟨⟨h.una_eq,?_,by omega,Nat.succ_pos nxt,by omega,fun hn => absurd hn hnext⟩,Nat.le_refl una,hle,
      Nat.le_succ nxt,.of_shut hclosed hnext,fun hlt => absurd hlt (Nat.lt_irrefl una),
      fun _ => .inr ⟨rfl,hnext⟩,fun _ => rfl,⟨fun _ => .inr rfl,fun _ => rfl⟩,rfl,
      .fin rfl rfl rfl (fun s hs => ?_) hun hnext rfl,fun ho => ?_,fun hc => absurd hc hclosed⟩
    · show c.pcb.sndNxt+1 = _
      rw [h.nxt_eq,nth_succ]
    · rw [mem_singleton.mp hs]
      exact ⟨rfl,h.nxt_eq⟩
    · rcases hopen with hst | hst <;> exact absurd (hst ▸ ho) (by decide)
  cases hcase with
  | finWait hst =>
    exact ⟨nxt+1,_,hfin (.inl hst) (by decide),.nothing rfl rfl,fun _ =>
      ⟨rfl,(by decide : ¬TcpState.Unshut .finWait1),rfl⟩⟩
  | lastAck hst =>
    exact ⟨nxt+1,_,hfin (.inr hst) (by decide),.nothing rfl rfl,fun _ =>
      ⟨rfl,(by decide : ¬TcpState.Unshut .lastAck),rfl⟩⟩
  | freed _ => cases hfree
  | nothing h1 h2 _ _ =>
    exact ⟨nxt,[],h.quiet (.refl _) (.refl _) .inl ⟨fun _ => .inr rfl,fun _ => rfl⟩ rfl bare_nil,
      .nothing rfl rfl,fun hopen => (hopen.elim h1 h2).elim⟩

/-- What the timer's callback sends, in its four branches. -/
theorem retransmission (h : Placed iss p una nxt) :
    (∀ s ∈ retransmission p, s.Bare) ∨
      (p.state ≠ .synSent ∧ p.state ≠ .synRcvd ∧ 0 < p.sndBuf.length ∧ seqLt p.sndUna p.sndNxt = true ∧
        DataOf iss (retransmission p) [(una,p.sndBuf.items.take (min p.sndBuf.length TCP_MSS))] ∧
        ∀ s ∈ retransmission p, s.flags.fin = false) ∨
      p.finSent = true ∧ ∀ s ∈ retransmission p, s.data = [] ∧ s.seq = nth iss (nxt-1) := by
  rw [Net.retransmission]
  split
  · exact .inl (bare_singleton ⟨rfl,rfl⟩)
  rename_i hs1
  split
  · exact .inl (bare_singleton ⟨rfl,rfl⟩)
  rename_i hs2
  split
  · rename_i hdata
    have hone := h.map_dataSeg [(0,p.sndBuf.items.take (min p.sndBuf.length TCP_MSS))]
    have hseg : dataSeg p (0,p.sndBuf.items.take (min p.sndBuf.length TCP_MSS)) =
        tcpSendSeg p { ack := true, psh := true } p.sndUna
          (p.sndBuf.items.take (min p.sndBuf.length TCP_MSS)) := by
      rw [dataSeg,nth_zero]
    rw [map_singleton,map_singleton,hseg,Nat.add_zero] at hone
    refine .inr (.inl ⟨hs1,hs2,hdata.1,hdata.2,hone,fun s hs => ?_⟩)
    rw [mem_singleton.mp hs]
    rfl
  split
  · rename_i hfin
    refine .inr (.inr ⟨hfin,fun s hs => ?_⟩)
    rw [mem_singleton.mp hs]
    refine ⟨rfl,?_⟩
    show p.sndNxt - 1 = _
    obtain ⟨n,rfl⟩ := Nat.exists_eq_add_of_lt h.pos
    rw [h.nxt_eq,Nat.zero_add,nth_succ,Nat.add_sub_cancel,UInt32.add_sub_cancel]
  · exact .inl bare_nil

section Steps

variable (h : Placed iss c.pcb una nxt)
include h

theorem timeout (hs : c.step .timeout = some c') :
    ∃ out, Advances iss c .timeout c' una nxt una nxt out ∧ Takes c .timeout c' una una [] := by
  obtain ⟨r,hcase,rfl⟩ := step_timeout hs
  have hclosed : c.closed = true ↔ c.closed = true ∨ ConnEvent.timeout = .close := closed_iff_of_ne (by simp)
  cases hcase with
  | idle _ => exact ⟨[],h.quiet ⟨rfl,rfl,rfl,rfl⟩ (.refl _) .inl hclosed rfl bare_nil,.nothing rfl rfl⟩
  | exhausted _ _ =>
    exact ⟨[],h.quiet ⟨rfl,rfl,rfl,rfl⟩ (.to_closed _) (fun _ => .inr rfl) hclosed rfl bare_nil,
      .nothing rfl rfl⟩
  | again hst hretries =>
    have hal : Placed iss (c.pcb.setRto false) una nxt := h.congr ⟨rfl,rfl,rfl,rfl⟩ (.refl _)
    refine ⟨_,⟨h.congr ⟨rfl,rfl,rfl,rfl⟩ (.refl _),Nat.le_refl una,h.le,Nat.le_refl nxt,.refl _,
      fun hlt => absurd hlt (Nat.lt_irrefl una),.inl,id,hclosed,rfl,?_,fun ho => .inl ⟨rfl,.inl ho⟩,fun _ => rfl⟩,
      .nothing rfl rfl⟩
    rcases hal.retransmission with hquiet | ⟨hs1,hs2,hlen,hlt,hdata,hfin⟩ | ⟨hfin,hout⟩
    · exact .fresh (.quiet _ _ hquiet) fun hlt => absurd hlt (Nat.lt_irrefl nxt)
    · exact .again rfl ⟨hst,hs1,hs2,hretries,hlen,hlt⟩ (h.seqLt_iff.mp hlt) rfl rfl rfl hdata hfin
    · exact .finAgain rfl rfl rfl hfin hout

/-- The segment that completes the handshake. -/
theorem establish {o : Outcome} (ho : c.pcb.state.Opening) (he : Establishes c.pcb seg o)
    {fins u : Nat} {heard : List (Int × UInt16)}
    (hc' : c' = { c with pcb := o.pcb, sent := c.sent ++ o.out, fins := fins, una := u, heard := heard }) :
    Advances iss c (.input seg) c' una nxt nxt nxt o.out ∧ Takes c (.input seg) c' una nxt [] := by
  subst hc'
  have hst : o.pcb.state = .established := he.state
  have hnot : ¬TcpState.Opening .closed := by decide
  refine ⟨⟨⟨he.una.trans h.nxt_eq,he.nxt.trans h.nxt_eq,Nat.le_refl nxt,h.pos,by omega,fun _ => by omega⟩,h.le,
    Nat.le_refl nxt,Nat.le_refl nxt,⟨fun _ => .inr (.inr ho),fun h => ?_,fun hc => ?_⟩,
    fun _ => ⟨seg,rfl,he.ack,he.una_eq.trans h.nxt_eq⟩,fun hf => .inl (he.finSent ▸ hf),
    fun hf => he.finSent.trans hf,closed_iff_of_ne (by simp),rfl,
    .fresh (.quiet _ _ he.bare) fun hlt => absurd hlt (Nat.lt_irrefl nxt),fun _ => .inr ⟨rfl,hst⟩,fun hc => ?_⟩,
    ⟨(append_nil _).symm,fun hn => absurd ho hn,fun _ => ?_,fun h => absurd rfl h⟩⟩
  · rw [hst] at h
    exact absurd h (by decide)
  · exact absurd (hc ▸ ho) hnot
  · exact absurd (hc ▸ ho) hnot
  · rw [he.sndBuf,append_nil]

theorem receive (hs : c.step (.input seg) = some c') :
    ∃ una' nxt' out, Advances iss c (.input seg) c' una nxt una' nxt' out ∧
      Takes c (.input seg) c' una una' [] := by
  obtain ⟨o,htaken,rfl⟩ := step_input hs
  have hclosed : c.closed = true ↔ c.closed = true ∨ ConnEvent.input seg = .close := closed_iff_of_ne (by simp)
  cases htaken with
  | reset =>
    exact ⟨una,nxt,[],h.quiet ⟨rfl,rfl,rfl,rfl⟩ (.to_closed _) (fun _ => .inr rfl) hclosed rfl bare_nil,
      .nothing rfl rfl⟩
  | kept => exact ⟨una,nxt,[],h.quiet (.refl _) (.refl _) .inl hclosed rfl bare_nil,.nothing rfl rfl⟩
  | opened _ ho he =>
    obtain ⟨hadv,htakes⟩ := h.establish ho he rfl
    exact ⟨nxt,nxt,_,hadv,htakes⟩
  | synchronised _ hsync hfree =>
    obtain ⟨una',nxt',hule,hun,hnle,hal,hbuf,hfresh,hgrow,hack⟩ := h.input hfree
    have ho := inputSynchronised_onward c.pcb seg
    have hfin : (inputSynchronised c.pcb seg).pcb.finSent = c.pcb.finSent := by
      obtain ⟨_,_,_,_,_,heq,-⟩ := inputSynchronised_parts c.pcb seg
      obtain ⟨_,_,_,_,hacked⟩ := acked_parts c.pcb seg
      rw [heq,hacked]
    refine ⟨una',nxt',_,⟨hal,hule,hun,hnle,ho,fun hlt => ?_,fun hf => .inl (hfin ▸ hf),
      fun hf => hfin.trans hf,hclosed,rfl,.fresh hfresh fun hlt => .inr (hgrow hlt),
      fun hop => absurd hop hsync.not_opening,fun hc => absurd hc hsync.ne_closed⟩,
      ⟨(append_nil _).symm,fun _ => ?_,fun hop => absurd hop hsync.not_opening,fun h => absurd rfl h⟩⟩
    · rcases hack with heq | ⟨-,hack⟩
      · exact absurd hlt (by omega)
      · exact ⟨seg,rfl,hack⟩
    · rw [hbuf,append_nil]

theorem step (hs : c.step e = some c') :
    ∃ una' nxt' out t, Advances iss c e c' una nxt una' nxt' out ∧ Takes c e c' una una' t := by
  cases e with
  | send src sig =>
    obtain ⟨nxt',out,t,hadv,htakes,-⟩ := h.send hs
    exact ⟨una,nxt',out,t,hadv,htakes⟩
  | recv len sig =>
    obtain ⟨hadv,htakes⟩ := h.recv hs
    exact ⟨una,nxt,[],[],hadv,htakes⟩
  | close =>
    obtain ⟨nxt',out,hadv,htakes,-⟩ := h.close hs
    exact ⟨una,nxt',out,[],hadv,htakes⟩
  | input seg =>
    obtain ⟨una',nxt',out,hadv,htakes⟩ := h.receive hs
    exact ⟨una',nxt',out,[],hadv,htakes⟩
  | timeout =>
    obtain ⟨out,hadv,htakes⟩ := h.timeout hs
    exact ⟨una,nxt,out,[],hadv,htakes⟩

end Steps

end Placed

namespace Advances

section Pieces

variable (h : Advances iss c e c' una nxt una' nxt' out)
include h

/-- Where the data of a segment stands: behind the old `snd_nxt` and within the window, or at the
start of the buffer when the timer sends it again. -/
theorem piece {s : Segment} (hs : s ∈ out) (hd : s.data ≠ []) :
    ∃ k, s.seq = nth iss (una'+k) ∧ Occurs c'.pcb.sndBuf.items k s.data ∧
      (nxt ≤ una'+k ∧ una'+k+s.data.length ≤ nxt' ∧ nxt' ≤ una'+c'.pcb.window ∧ Pushes c e c' ∨
        e = .timeout ∧ c.pcb.Retransmits ∧ k = 0 ∧ una' = una ∧ nxt' = nxt ∧
          s.data.length = min c.pcb.sndBuf.length TCP_MSS) := by
  have hun := h.una_nxt
  have hpos := length_pos_iff.mpr hd
  cases h.move with
  | fresh hf hpush =>
    obtain ⟨⟨ps,hcut,hdata⟩,hwnd,-⟩ := hf
    obtain ⟨x,hx,hseq,heq⟩ := hdata.piece s hs hd
    obtain ⟨y,hy,rfl⟩ := mem_map.mp hx
    obtain ⟨hocc,hlo,hhi⟩ := hcut.mem hy
    rw [← heq] at hocc hhi
    refine ⟨y.1,hseq,hocc,.inl ⟨?_,?_,?_,?_⟩⟩
    · omega
    · omega
    · exact hwnd (by omega)
    · exact hpush (by omega)
  | again he hr _ hu hn hbuf hdata _ =>
    obtain ⟨x,hx,hseq,heq⟩ := hdata.piece s hs hd
    rw [mem_singleton.mp hx] at hseq heq
    refine ⟨0,by rw [hseq,hu,Nat.add_zero],?_,.inr ⟨he,hr,rfl,hu,hn,?_⟩⟩
    · rw [heq]
      exact take_prefix _ _
    · rw [heq,length_take,hbuf]
      show min _ c.pcb.sndBuf.length = _
      omega
  | fin _ _ _ hout _ _ _ | finAgain _ _ _ _ hout => exact absurd (hout s hs).1 hd

/-- Every place between the old and the new `snd_nxt` is sent, in a step that is not a close. -/
theorem covers (he : e ≠ .close) {i : Nat} (hlo : nxt ≤ i) (hhi : i < nxt') :
    ∃ s ∈ out, ∃ k, s.seq = nth iss (una'+k) ∧ Occurs c'.pcb.sndBuf.items k s.data ∧
      una'+k ≤ i ∧ i < una'+k+s.data.length := by
  have hun := h.una_nxt
  cases h.move with
  | fresh hf _ =>
    obtain ⟨⟨ps,hcut,hdata⟩,-,-⟩ := hf
    obtain ⟨x,hx,h1,h2⟩ := hcut.covers (i := i-una') (by omega) (by omega)
    obtain ⟨s,hs,hseq,heq⟩ := hdata.segment _ (mem_map_of_mem hx)
    dsimp only at hseq heq
    refine ⟨s,hs,x.1,hseq,heq ▸ (hcut.mem hx).1,?_,?_⟩
    · omega
    · rw [heq]
      omega
  | again _ _ _ _ hn _ _ _ => omega
  | fin hc _ _ _ _ _ _ => exact absurd hc he
  | finAgain _ _ hn _ _ => omega

theorem grows (hlt : nxt < nxt') : Pushes c e c' ∧ nxt' ≤ una'+c'.pcb.window ∨
      e = .close ∧ nxt' = nxt+1 ∧ c.pcb.state.Unshut ∧ ¬c'.pcb.state.Unshut ∧ c'.pcb.finSent = true := by
  cases h.move with
  | fresh hf hpush => exact .inl ⟨hpush hlt,hf.window hlt⟩
  | again _ _ _ _ hn _ _ _ => omega
  | fin he _ hn _ h1 h2 h3 => exact .inr ⟨he,hn,h1,h2,h3⟩
  | finAgain _ _ hn _ _ => omega

/-- A FIN has the last place before `snd_nxt`. -/
theorem fin_seq {s : Segment} (hs : s ∈ out) (hf : s.flags.fin = true) :
    s.seq = nth iss (nxt'-1) ∧ (c.pcb.finSent = true ∨ e = .close) := by
  cases h.move with
  | fresh hfresh _ => exact absurd hf (by rw [hfresh.fin s hs]; exact false_ne_true)
  | again _ _ _ _ _ _ _ hfin => exact absurd hf (by rw [hfin s hs]; exact false_ne_true)
  | fin hc _ hn hout _ _ _ => exact ⟨by rw [(hout s hs).2,hn,Nat.add_sub_cancel],.inr hc⟩
  | finAgain _ _ hn hsent hout => exact ⟨by rw [(hout s hs).2,hn],.inl hsent⟩

end Pieces

end Advances

end Lariat.Net
