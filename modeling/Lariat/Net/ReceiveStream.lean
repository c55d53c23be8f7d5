import Lariat.Net.Places

/-! The receive stream: what `tcp_recv` returns of the peer's stream, and how it tells the end of
the stream from an aborted connection. -/
namespace Lariat.Net
open Foundation Serial Stream Runs List Option

/-! ### What a segment delivers -/

/-- The peer's FIN has been taken. -/
def TcpState.Finned (s : TcpState) : Prop := s = .closeWait ∨ s = .closing ∨ s = .lastAck

instance (s : TcpState) : Decidable s.Finned := inferInstanceAs (Decidable (_ ∨ _))

/-- Two blocks agree in what they have received. -/
structure SameRecv (p q : Pcb) : Prop where
  buf : q.rcvBuf = p.rcvBuf
  nxt : q.rcvNxt = p.rcvNxt
  reset : q.reset = p.reset

/-- What a segment does to the receive side, `d` being the bytes that are new. -/
structure Delivers (p : Pcb) (seg : Segment) (o : Outcome) (d : List UInt8) : Prop where
  buf : o.pcb.rcvBuf.items = p.rcvBuf.items ++ d
  nxt : o.pcb.rcvNxt = p.rcvNxt + UInt32.ofNat d.length + if o.fin then 1 else 0
  data : d ≠ [] → p.receives ∧ seg.seq = p.rcvNxt ∧ d <+: seg.data
  fin : o.fin = true → seg.flags.fin = true ∧
    seg.seq + UInt32.ofNat seg.data.length = p.rcvNxt + UInt32.ofNat d.length ∧ ¬o.pcb.receives
  receives : o.pcb.receives → p.receives
  ended : o.pcb.state.Finned ∨ o.pcb.state = .closed → p.state.Finned ∨ p.state = .closed ∨ o.fin = true
  reset : o.pcb.reset = p.reset

variable {p q : Pcb} {seg : Segment} {c c' : Conn} {e : ConnEvent}

theorem SameRecv.refl (p : Pcb) : SameRecv p p := ⟨rfl,rfl,rfl⟩

theorem not_receives (s : TcpState) (hs : s ≠ .established ∧ s ≠ .finWait1 ∧ s ≠ .finWait2) (h : q.state = s) :
    ¬q.receives := by
  rw [Pcb.receives,h]
  exact fun h => h.elim hs.1 fun h => h.elim hs.2.1 hs.2.2

/-- A segment in a synchronised state that does not end the connection. -/
theorem inputSynchronised_delivers (hfree : (inputSynchronised p seg).freed = false) :
    ∃ d, Delivers p seg (inputSynchronised p seg) d := by
  obtain ⟨s,r,ha,-,-,hst⟩ := processAck_parts p seg
  obtain ⟨_,_,_,_,hacked⟩ := acked_parts p seg
  rw [hacked] at ha
  rw [inputSynchronised] at hfree ⊢
  dsimp only at hfree ⊢
  generalize processAck p seg = a at ha hst hfree ⊢
  cases hfreed : a.2.2 with
  | true =>
    rw [hfreed,if_pos rfl] at hfree
    cases hfree
  | false =>
    rw [if_neg Bool.false_ne_true]
    have hrecv (h : a.1.receives) : p.receives := by
      rw [ha] at h
      rcases hst hfreed with rfl | ⟨heq,-⟩
      · exact h
      · exact .inr (.inl heq)
    have hended (h : s.Finned ∨ s = .closed) : p.state.Finned ∨ p.state = .closed := by
      rcases hst hfreed with rfl | ⟨-,rfl⟩
      · exact h
      · exact absurd h (by decide)
    obtain ⟨b,d,hd,hbuf,hdata,-⟩ := processData_parts a.1 seg
    generalize processData a.1 seg = q at hd ⊢
    obtain ⟨s',r',n,hf,-,-,-,hfin⟩ := processFin_parts q.1 seg
    generalize processFin q.1 seg = w at hf hfin ⊢
    obtain ⟨m,hpush⟩ := pushData_parts w.1
    generalize pushData w.1 = o at hpush ⊢
    rw [hf,hd,ha] at hpush
    rw [hd] at hfin
    rw [ha] at hbuf hdata hrecv hfin
    have hdata' (h : d ≠ []) := And.intro (hrecv (hdata h).1) (hdata h).2
    rcases hfin with ⟨hfin,rfl,rfl⟩ | ⟨hfin,hdeaf,rfl,hseq⟩
    · refine ⟨d,?_,?_,hdata',fun h => ?_,fun h => hrecv ?_,fun h => ?_,?_⟩
      · rw [hpush]
        exact hbuf
      · rw [hpush,hfin]
        exact (UInt32.add_zero _).symm
      · rw [hfin] at h
        cases h
      · rw [hpush] at h
        exact h
      · rw [hpush] at h
        exact (hended h).imp_right .inl
      · rw [hpush]
    · have hnr : ¬o.1.receives := by
        rw [hpush]
        exact not_receives s' hdeaf rfl
      refine ⟨d,?_,?_,hdata',fun _ => ⟨hseq.1,hseq.2,hnr⟩,fun h => absurd h hnr,fun _ => .inr (.inr hfin),?_⟩
      · rw [hpush]
        exact hbuf
      · rw [hpush,hfin]
        rfl
      · rw [hpush]

/-! ### The step -/

/-- What a step does to the receive side: `d` are the bytes that are new, and `f` says whether the
peer's FIN was taken. -/
structure Hears (c : Conn) (e : ConnEvent) (c' : Conn) (d : List UInt8) (f : Bool) : Prop where
  stream : c'.returned ++ c'.pcb.rcvBuf.items = c.returned ++ c.pcb.rcvBuf.items ++ d
  nxt : ¬c.pcb.state.Opening → c'.pcb.rcvNxt = c.pcb.rcvNxt + UInt32.ofNat d.length + if f then 1 else 0
  fins : c'.fins = c.fins+f.toNat
  data : d ≠ [] → c.pcb.receives ∧ ∃ seg, e = .input seg ∧ seg.seq = c.pcb.rcvNxt ∧ d <+: seg.data
  fin : f = true → ¬c'.pcb.receives ∧ ∃ seg, e = .input seg ∧ seg.flags.fin = true ∧
    seg.seq + UInt32.ofNat seg.data.length = c.pcb.rcvNxt + UInt32.ofNat d.length
  receives : ¬c.pcb.state.Opening → c'.pcb.receives → c.pcb.receives
  opening : c'.pcb.state.Opening → c.pcb.state.Opening
  ended : c'.pcb.state.Finned ∨ c'.pcb.state = .closed →
    c.pcb.state.Finned ∨ c.pcb.state = .closed ∨ f = true ∨ c'.pcb.reset = true
  reset : c'.pcb.reset = true → c.pcb.reset = true ∨ c'.pcb.state = .closed
  kept : c.pcb.reset = true → c'.pcb.reset = true
  live : f = true → c.pcb.state ≠ .closed
  closed : c.pcb.state = .closed → c'.pcb.state = .closed

theorem Hears.quiet (hsame : SameRecv c.pcb c'.pcb) (hret : c'.returned = c.returned) (hfins : c'.fins = c.fins)
    (hon : Onward c.pcb.state c'.pcb.state)
    (hrecv : ¬c.pcb.state.Opening → c'.pcb.receives → c.pcb.receives)
    (hended : c'.pcb.state.Finned ∨ c'.pcb.state = .closed → c.pcb.state.Finned ∨ c.pcb.state = .closed) :
    Hears c e c' [] false where
  stream := by rw [hret,hsame.buf,append_nil]
  nxt _ := by
    rw [hsame.nxt]
    exact (UInt32.add_zero _).symm.trans (UInt32.add_zero _).symm
  fins := hfins
  data h := absurd rfl h
  fin h := by cases h
  receives := hrecv
  opening := hon.opening
  ended h := (hended h).imp_right .inl
  reset h := .inl (hsame.reset ▸ h)
  kept h := hsame.reset.trans h
  live h := by cases h
  closed := hon.closed

theorem Hears.aborted (hbuf : c'.pcb.rcvBuf = c.pcb.rcvBuf) (hnxt : c'.pcb.rcvNxt = c.pcb.rcvNxt)
    (hret : c'.returned = c.returned) (hfins : c'.fins = c.fins) (hst : c'.pcb.state = .closed)
    (hreset : c'.pcb.reset = true) : Hears c e c' [] false where
  stream := by rw [hret,hbuf,append_nil]
  nxt _ := by
    rw [hnxt]
    exact (UInt32.add_zero _).symm.trans (UInt32.add_zero _).symm
  fins := hfins
  data h := absurd rfl h
  fin h := by cases h
  receives _ h := absurd h (not_receives .closed (by decide) hst)
  opening h := by
    rw [hst] at h
    exact absurd h (by decide)
  ended _ := .inr (.inr (.inr hreset))
  reset _ := .inr hst
  kept _ := hreset
  live h := by cases h
  closed _ := hst

theorem hears_step (hs : c.step e = some c') : ∃ d f, Hears c e c' d f := by
  cases e with
  | send src sig =>
    obtain ⟨r,hr,rfl⟩ := map_eq_some_iff.mp hs
    cases tcpSendTurn_case hr with
    | idle => exact ⟨[],false,.quiet (.refl _) rfl rfl (.refl _) (fun _ h => h) id⟩
    | turn b _ _ _ _ =>
      obtain ⟨ps,heq,-⟩ := tcpOutputData_spec (c.pcb.queue src)
      rw [heq]
      exact ⟨[],false,.quiet ⟨rfl,rfl,rfl⟩ rfl rfl (.refl _) (fun _ h => h) id⟩
  | recv len sig =>
    obtain ⟨r,hr,rfl⟩ := map_eq_some_iff.mp hs
    cases tcpRecv_case hr with
    | nothing r =>
      exact ⟨[],false,.quiet (.refl _) (append_nil _) rfl (.refl _) (fun _ h => h) id⟩
    | bytes hn h0 =>
      refine ⟨[],false,⟨?_,fun _ => ?_,rfl,fun h => absurd rfl h,(fun h => by cases h),fun _ h => h,id,
        fun h => h.imp_right .inl,.inl,id,(fun h => by cases h),id⟩⟩
      · rw [Fifo.items_drop,append_assoc,take_append_drop,append_nil]
      · exact (UInt32.add_zero _).symm.trans (UInt32.add_zero _).symm
  | close =>
    obtain ⟨o,hcase,hfree,rfl⟩ := step_close hs
    cases hcase with
    | finWait hst =>
      have hne : c.pcb.state ≠ .closed := by rw [hst]; decide
      exact ⟨[],false,.quiet ⟨rfl,rfl,rfl⟩ rfl rfl (.of_shut hne (by decide : ¬TcpState.Unshut .finWait1))
        (fun _ _ => .inl hst)
        fun h => absurd h (by decide : ¬(TcpState.Finned .finWait1 ∨ TcpState.finWait1 = .closed))⟩
    | lastAck hst =>
      have hne : c.pcb.state ≠ .closed := by rw [hst]; decide
      exact ⟨[],false,.quiet ⟨rfl,rfl,rfl⟩ rfl rfl (.of_shut hne (by decide : ¬TcpState.Unshut .lastAck))
        (fun _ h => absurd h (not_receives .lastAck (by decide) rfl)) fun _ => .inl (.inl hst)⟩
    | freed _ => cases hfree
    | nothing _ _ _ _ => exact ⟨[],false,.quiet (.refl _) rfl rfl (.refl _) (fun _ h => h) id⟩
  | input seg =>
    obtain ⟨o,htaken,rfl⟩ := step_input hs
    cases htaken with
    | reset => exact ⟨[],false,.aborted rfl rfl rfl rfl rfl rfl⟩
    | kept => exact ⟨[],false,.quiet (.refl _) rfl rfl (.refl _) (fun _ h => h) id⟩
    | opened _ ho he =>
      refine ⟨[],false,⟨?_,fun hn => absurd ho hn,?_,fun h => absurd rfl h,(fun h => by cases h),
        fun hn => absurd ho hn,fun _ => ho,fun h => ?_,fun h => .inl (he.reset ▸ h),fun h => he.reset.trans h,
        (fun h => by cases h),fun hc => ?_⟩⟩
      · rw [he.rcvBuf,append_nil]
      · rw [he.fin]
        rfl
      · rw [he.state] at h
        exact absurd h (by decide)
      · rw [hc] at ho
        exact absurd ho (by decide)
    | synchronised _ hsync hfree =>
      obtain ⟨d,hd⟩ := inputSynchronised_delivers hfree
      have ho := inputSynchronised_onward c.pcb seg
      refine ⟨d,(inputSynchronised c.pcb seg).fin,⟨?_,fun _ => hd.nxt,?_,
        fun h => ⟨(hd.data h).1,seg,rfl,(hd.data h).2⟩,
        fun h => ⟨(hd.fin h).2.2,seg,rfl,(hd.fin h).1,(hd.fin h).2.1⟩,fun _ => hd.receives,ho.opening,
        fun h => (hd.ended h).imp_right fun h => h.imp_right .inl,fun h => .inl (hd.reset ▸ h),
        fun h => hd.reset.trans h,fun _ => hsync.ne_closed,ho.closed⟩⟩
      · rw [hd.buf,append_assoc]
      · cases (inputSynchronised c.pcb seg).fin <;> rfl
  | timeout =>
    obtain ⟨r,hcase,rfl⟩ := step_timeout hs
    cases hcase with
    | idle _ => exact ⟨[],false,.quiet ⟨rfl,rfl,rfl⟩ rfl rfl (.refl _) (fun _ h => h) id⟩
    | exhausted _ _ => exact ⟨[],false,.aborted rfl rfl rfl rfl rfl rfl⟩
    | again _ _ => exact ⟨[],false,.quiet ⟨rfl,rfl,rfl⟩ rfl rfl (.refl _) (fun _ h => h) id⟩

/-! ### The stream -/

/-- Each data byte of a segment with sequence number `s` is the byte of the peer's stream with index
`s - (irs+1)`. -/
def FromPeer (irs : UInt32) (stream : List UInt8) : ConnEvent → Prop
  | .input seg => ∀ j < seg.data.length,
    stream[(seg.seq + UInt32.ofNat j - (irs+1)).toNat]? = seg.data[j]?
  | _ => True

/-- The FINs that come in all have the number `f`. -/
def FinAt (f : UInt32) : ConnEvent → Prop
  | .input seg => seg.flags.fin = true → seg.seq + UInt32.ofNat seg.data.length = f
  | _ => True

/-- What has been received is a start of the peer's stream, and `rcv_nxt` behind it and the FINs. -/
structure Received (irs : UInt32) (stream : List UInt8) (c : Conn) : Prop where
  isPrefix : c.returned ++ c.pcb.rcvBuf.items <+: stream
  nxt : c.pcb.rcvNxt = nth (irs+1) ((c.returned ++ c.pcb.rcvBuf.items).length+c.fins)
  unfinned : c.pcb.receives → c.fins = 0
  settled : ¬c.pcb.state.Opening

variable {irs f : UInt32} {stream : List UInt8}

/-- The data of a segment stands in the stream where its number says. -/
theorem FromPeer.occurs (h : FromPeer irs stream (.input seg)) (hlen : stream.length < 0x100000000) {n : Nat}
    (hn : n ≤ stream.length) (hseq : seg.seq = nth (irs+1) n) : Occurs stream n seg.data := by
  have hbyte {j : Nat} (hj : j < seg.data.length) (hle : n+j ≤ stream.length) :
      stream[n+j]? = some seg.data[j] := by
    have hj' := h j hj
    have hplace : seg.seq + UInt32.ofNat j - (irs+1) = nth (irs+1) (n+j) - nth (irs+1) 0 := by
      rw [hseq,nth_zero,← nth_add]
    rw [hplace,toNat_nth_sub (Nat.zero_le _) (by omega),List.getElem?_eq_getElem hj] at hj'
    exact hj'
  have hle {j : Nat} (hj : j ≤ seg.data.length) : n+j ≤ stream.length := by
    induction j with
    | zero => exact hn
    | succ j ih => exact (List.getElem?_eq_some_iff.mp (hbyte hj (ih (Nat.le_of_succ_le hj)))).1
  refine prefix_iff_getElem?.mpr fun j hj => ?_
  rw [List.getElem?_drop]
  exact hbyte hj (hle (Nat.le_of_lt hj))

theorem Received.step (h : Received irs stream c) (hlen : stream.length < 0x100000000)
    (hpeer : FromPeer irs stream e) (hs : c.step e = some c') : Received irs stream c' := by
  obtain ⟨d,f,hh⟩ := hears_step hs
  have hnxt := hh.nxt h.settled
  have hpre : c'.returned ++ c'.pcb.rcvBuf.items <+: stream := by
    rw [hh.stream]
    by_cases hd : d = []
    · rw [hd,append_nil]
      exact h.isPrefix
    obtain ⟨hrecv,seg,rfl,hseq,hpd⟩ := hh.data hd
    have hplace := hseq.trans h.nxt
    rw [h.unfinned hrecv,Nat.add_zero] at hplace
    have hocc := hpeer.occurs hlen h.isPrefix.length_le hplace
    obtain ⟨r,hr⟩ := hpd.trans hocc
    obtain ⟨t,ht⟩ := h.isPrefix
    refine ⟨r,?_⟩
    rw [append_assoc,hr,← ht,drop_left]
  refine ⟨hpre,?_,fun hrecv => ?_,fun ho => h.settled (hh.opening ho)⟩
  · have hbit : (if f then 1 else 0) = UInt32.ofNat f.toNat := by cases f <;> rfl
    have hcount : (c.returned ++ c.pcb.rcvBuf.items ++ d).length =
        (c.returned ++ c.pcb.rcvBuf.items).length+d.length := length_append
    rw [hnxt,h.nxt,hh.stream,hh.fins,hbit,← nth_add,← nth_add,hcount]
    congr 1
    omega
  · rw [hh.fins,h.unfinned (hh.receives h.settled hrecv)]
    cases f with
    | false => rfl
    | true => exact absurd hrecv (hh.fin rfl).1

/-- A FIN is taken once. -/
structure OneFin (f : UInt32) (c : Conn) : Prop where
  taken : c.fins = 0 ∨ c.fins = 1 ∧ c.pcb.rcvNxt = f+1 ∧ ¬c.pcb.receives
  settled : ¬c.pcb.state.Opening

theorem OneFin.step (h : OneFin f c) (hf : FinAt f e) (hs : c.step e = some c') : OneFin f c' := by
  obtain ⟨d,b,hh⟩ := hears_step hs
  have hnxt := hh.nxt h.settled
  refine ⟨?_,fun ho => h.settled (hh.opening ho)⟩
  cases b with
  | false =>
    rw [hh.fins]
    refine h.taken.imp_right fun ⟨h1,h2,h3⟩ => ⟨h1,?_,fun hr => h3 (hh.receives h.settled hr)⟩
    have hd : d = [] := by_contra fun hd => h3 (hh.data hd).1
    rw [hnxt,hd,h2]
    exact (UInt32.add_zero _).trans (UInt32.add_zero _)
  | true =>
    obtain ⟨hnr,seg,rfl,hfin,hplace⟩ := hh.fin rfl
    rw [hf hfin] at hplace
    rcases h.taken with h0 | ⟨-,h2,h3⟩
    · refine .inr ⟨by rw [hh.fins,h0]; rfl,?_,hnr⟩
      rw [hnxt,← hplace]
      rfl
    have hd : d = [] := by_contra fun hd => h3 (hh.data hd).1
    rw [hd,h2] at hplace
    have hself : nth f 1 = nth f 0 := by
      rw [nth_zero]
      exact (UInt32.add_zero _).symm.trans hplace.symm
    exact absurd ((nth_inj (by decide) (by decide)).mp hself) (by decide)

/-- A connection that is open at both ends. -/
def joined : Pcb := { state := .established, sndUna := 1, sndNxt := 1, rcvNxt := 1, sndWnd := 1400 }

/-- A segment from the peer of `joined`. -/
def arriving (seq : UInt32) (data : List UInt8) (fin : Bool) : Segment :=
  { src := 80, dst := 49152, seq := seq, ack := 1, flags := { ack := true, fin := fin }, win := 1400, data := data }

/-- A result of `tcp_recv` is honest: 0 says that the peer's FIN has come and everything before it
has been returned, and an aborted connection with nothing left gives an error. -/
structure HonestResult (c : Conn) (r : Int) : Prop where
  zero : r = 0 → 0 < c.fins ∧ c.pcb.rcvBuf.items = []
  aborted : c.pcb.reset = true → c.pcb.rcvBuf.items = [] → r < 0

/-- The result of `recv` on the socket is honest, and that of `tcp_recv` with a length other than 0. -/
def HonestEnd (c : Conn) (len : UInt64) : Prop :=
  ∀ sig, (len.toUInt32 ≠ 0 → ∀ x, tcpRecv c.pcb len.toUInt32.toNat sig = some x → HonestResult c x.2.1) ∧
    ∀ r, socketRecvfrom c.pcb len sig = some r → HonestResult c r

/-- How a connection that started in state `s` can have come to its end. -/
structure Ending (s : TcpState) (c : Conn) : Prop where
  finned : c.pcb.state.Finned → 0 < c.fins
  closed : c.pcb.state = .closed → c.pcb.reset = true ∨ 0 < c.fins ∨ s = .closed
  reset : c.pcb.reset = true → c.pcb.state = .closed
  unopened : s = .closed → c.pcb.state = .closed ∧ c.fins = 0

theorem Ending.step {s : TcpState} (h : Ending s c) (hs : c.step e = some c') : Ending s c' := by
  obtain ⟨d,f,hh⟩ := hears_step hs
  have hpos (hc : 0 < c.fins) : 0 < c'.fins := by
    rw [hh.fins]
    omega
  have hfin (hf : f = true) : 0 < c'.fins := by
    rw [hh.fins,hf,Bool.toNat_true]
    omega
  have hreset (hr : c'.pcb.reset = true) : c'.pcb.state = .closed :=
    (hh.reset hr).elim (fun hr => hh.closed (h.reset hr)) id
  refine ⟨fun hst => ?_,fun hst => ?_,hreset,fun hu => ?_⟩
  · have hne : c'.pcb.state ≠ .closed := fun hc => absurd (hc ▸ hst) (by decide)
    rcases hh.ended (.inl hst) with hold | hold | hf | hr
    · exact hpos (h.finned hold)
    · exact absurd (hh.closed hold) hne
    · exact hfin hf
    · exact absurd (hreset hr) hne
  · rcases hh.ended (.inr hst) with hold | hold | hf | hr
    · exact .inr (.inl (hpos (h.finned hold)))
    · exact (h.closed hold).imp hh.kept (Or.imp_left hpos)
    · exact .inr (.inl (hfin hf))
    · exact .inl hr
  · obtain ⟨hc,h0⟩ := h.unopened hu
    refine ⟨hh.closed hc,?_⟩
    rw [hh.fins,h0]
    cases f with
    | false => rfl
    | true => exact absurd hc (hh.live rfl)

theorem tcpRecv_result {len : Nat} {sig : Bool} {x : Pcb × Int × List UInt8}
    (h : tcpRecv p len sig = some x) :
    0 < p.rcvBuf.length ∧ 0 < x.2.1 ∨ x.2.1 < 0 ∨ x.2.1 = 0 ∧ (p.rcvBuf.length = 0 ∨ len = 0) ∧
      (p.state = .closeWait ∨ p.state = .closed) := by
  rw [tcpRecv] at h
  split at h
  · split at h
    · cases h
      exact .inr (.inl (by decide : -EINTR < 0))
    · cases h
  dsimp only at h
  split at h
  · rename_i hn
    cases h
    dsimp only
    split
    · rename_i heof
      exact .inr (.inr ⟨rfl,by omega,heof.2⟩)
    · exact .inr (.inl (by decide))
  rename_i hn
  cases h
  refine .inl ⟨by omega,?_⟩
  dsimp only
  omega

theorem socketRecvfrom_zero {len : UInt64} (hst : p.state = .closeWait ∨ p.state = .closed)
    (hn : min p.rcvBuf.length len.toUInt32.toNat = 0) : socketRecvfrom p len false = some 0 := by
  have hcan : p.canRecv = true := by
    rw [Pcb.canRecv]
    rcases hst with hst | hst <;> simp [hst]
  rw [socketRecvfrom,tcpRecv,hcan,if_neg (by decide),if_pos hn,if_pos ⟨hn,hst⟩]
  rfl

theorem socketRecvfrom_result {len : UInt64} {sig : Bool} {r : Int} (h : socketRecvfrom p len sig = some r) :
    ∃ x, tcpRecv p len.toUInt32.toNat sig = some x ∧ (r = 0 ↔ x.2.1 = 0) ∧ (r < 0 ↔ x.2.1 < 0) := by
  obtain ⟨x,hx,rfl⟩ := map_eq_some_iff.mp h
  refine ⟨x,hx,?_⟩
  have h1 : EINTR = 4 := rfl
  have h2 : ECONNRESET = 104 := rfl
  split
  · omega
  split
  · omega
  · omega

/-- At every point of every connection the end of the stream is reported honestly exactly if there
is data to return, or the connection was opened and has not been reset or timed out; and if the length
is a multiple of 2^32, there is no data or the state is not one that ends the stream. -/
theorem honest_end_iff {es : List ConnEvent} (len : UInt64)
    (hst : p.state = .closed ∨ p.state = .listen ∨ p.state.Opening) (hreset : p.reset = false)
    (hrun : exec Conn.step (.start p) es = some c) :
    HonestEnd c len ↔ (0 < c.pcb.rcvBuf.length ∨ c.pcb.reset = false ∧ p.state ≠ .closed) ∧
      (len.toUInt32 = 0 → 0 < c.pcb.rcvBuf.length → c.pcb.state ≠ .closeWait ∧ c.pcb.state ≠ .closed) := by
  have hstart : Ending p.state (.start p) := by
    refine ⟨fun h => ?_,fun h => .inr (.inr h),fun h => ?_,fun h => ⟨h,rfl⟩⟩
    · have h' : p.state.Finned := h
      rcases hst with hst | hst | hst | hst <;> exact absurd (hst ▸ h') (by decide)
    · exact absurd (hreset.symm.trans h) (by decide)
  have hend : Ending p.state c :=
    exec_keeps (fun _ _ _ h _ hs => h.step hs) hstart (fun _ _ => trivial) hrun
  constructor
  · intro h
    have hzero (hs : c.pcb.state = .closeWait ∨ c.pcb.state = .closed)
        (hn : min c.pcb.rcvBuf.length len.toUInt32.toNat = 0) : HonestResult c 0 :=
      (h false).2 _ (socketRecvfrom_zero hs hn)
    refine ⟨?_,fun hlen hpos => ?_⟩
    · rcases Nat.eq_zero_or_pos c.pcb.rcvBuf.length with h0 | hpos
      · have hitems := Fifo.length_eq_zero.mp h0
        have hlie (hclosed : c.pcb.state = .closed) : HonestResult c 0 :=
          hzero (.inr hclosed) (by rw [h0,Nat.zero_min])
        refine .inr ⟨Bool.eq_false_iff.mpr fun hr => ?_,fun hs => ?_⟩
        · exact absurd ((hlie (hend.reset hr)).aborted hr hitems) (by decide)
        · obtain ⟨hclosed,hf⟩ := hend.unopened hs
          have := ((hlie hclosed).zero rfl).1
          omega
      · exact .inl hpos
    · have hno (hs : c.pcb.state = .closeWait ∨ c.pcb.state = .closed) : False := by
        have hnil := ((hzero hs (by rw [hlen]; exact Nat.min_zero _)).zero rfl).2
        exact absurd (Fifo.length_eq_zero.mpr hnil) (by omega)
      exact ⟨fun hs => hno (.inl hs),fun hs => hno (.inr hs)⟩
  · rintro ⟨hcond,hwide⟩ sig
    have hone (x : Pcb × Int × List UInt8) (hx : tcpRecv c.pcb len.toUInt32.toNat sig = some x) :
        HonestResult c x.2.1 := by
      rcases tcpRecv_result hx with ⟨hpos,hr⟩ | hneg | ⟨hzero,hnone,hclosed⟩
      · refine ⟨fun h => absurd h (by omega),fun _ hnil => ?_⟩
        exact absurd (Fifo.length_eq_zero.mpr hnil) (by omega)
      · exact ⟨fun h => absurd h (by omega),fun _ _ => hneg⟩
      · have h0 : c.pcb.rcvBuf.length = 0 := by
          rcases hnone with h0 | hl
          · exact h0
          · by_contra hne
            obtain ⟨h1,h2⟩ := hwide (UInt32.toNat_inj.mp hl) (by omega)
            exact hclosed.elim h1 h2
        obtain ⟨hr,hs⟩ := hcond.resolve_left (by omega)
        refine ⟨fun _ => ⟨?_,Fifo.length_eq_zero.mp h0⟩,fun hr' => ?_⟩
        · rcases hclosed with hc | hc
          · exact hend.finned (.inl hc)
          · rcases hend.closed hc with hr' | hf | hs'
            · rw [hr] at hr'
              cases hr'
            · exact hf
            · exact absurd hs' hs
        · rw [hr] at hr'
          cases hr'
    refine ⟨fun _ => hone,fun r hr => ?_⟩
    obtain ⟨x,hx,hz,hn⟩ := socketRecvfrom_result hr
    have h := hone x hx
    exact ⟨fun h0 => h.zero (hz.mp h0),fun h1 h2 => hn.mpr (h.aborted h1 h2)⟩

theorem honest_end_fin : ∃ c, exec Conn.step (.start dialled) [synAck 1400,.input (arriving 100 [] true)] = some c ∧
    HonestEnd c 1 := by
  have hrun : exec Conn.step (.start dialled) [synAck 1400,.input (arriving 100 [] true)] = some _ := rfl
  exact ⟨_,hrun,(honest_end_iff 1 (.inr (.inr (.inl rfl))) rfl hrun).mpr ⟨.inr ⟨rfl,by decide⟩,by decide⟩⟩

/-- After a RST in the middle of a transfer `tcp_recv` returns 0, and so does `recv`; and with a
length of 2^32 `recv` returns 0 while a byte before the FIN is left. -/
theorem reset_reads_as_end :
    (∃ c, exec Conn.step (.start dialled) [synAck 1400,.input (arriving 100 [5] false),
        .recv 1 false,.input { arriving 101 [] false with flags := { rst := true } }] = some c ∧
      c.fins = 0 ∧ (tcpRecv c.pcb 1 false).map (·.2.1) = some 0 ∧
      socketRecvfrom c.pcb 1 false = some 0 ∧ ¬HonestEnd c 1) ∧
    ∃ c, exec Conn.step (.start dialled) [synAck 1400,.input (arriving 100 [5] true)] = some c ∧
      c.pcb.rcvBuf.items = [5] ∧ socketRecvfrom c.pcb 0x100000000 false = some 0 ∧
      ¬HonestEnd c 0x100000000 := by
  refine ⟨⟨_,rfl,rfl,rfl,rfl,fun h => ?_⟩,_,rfl,rfl,rfl,fun h => ?_⟩
  · exact absurd (((h false).2 0 rfl).zero rfl).1 (by decide)
  · exact absurd (((h false).2 0 rfl).zero rfl).2 (by decide)

end Lariat.Net
