import Lariat.Net.Progress

/-! Flow control: the windows that the peer has advertised, and the data that is sent against them.
-/
namespace Lariat.Net
open Foundation Serial Stream Runs List Bool

/-- What the windows bear: `tcp_send` is called after the handshake, the timer sends no data beyond
what is in flight or in the window, and acknowledgements have a window and are of something not
acknowledged before. -/
def KeepsWindow (c : Conn) : ConnEvent → Prop
  | .send _ _ => ¬c.pcb.state.Opening
  | .timeout => c.pcb.Retransmits →
    min c.pcb.sndBuf.length TCP_MSS+c.pcb.finSent.toNat ≤ c.pcb.flight ∨
      min c.pcb.sndBuf.length TCP_MSS ≤ c.pcb.sndWnd.toNat
  | .input seg => seg.flags.ack = true → seg.flags.rst = false → c.pcb.state ≠ .closed →
    seg.win ≠ 0 ∧ (seg.ack-c.pcb.sndUna).toNat ≤ c.pcb.flight
  | _ => True

/-- The place is before the end of a window that the peer advertised. -/
def Conn.Offered (c : Conn) (k : Int) : Prop := ∃ h ∈ c.heard, k < h.1+h.2.toNat

/-- Once the peer has been heard, each data byte that a step sends is before the end of a window
that it advertised, or is a probe of one byte while the window is zero. -/
def InWindow (c : Conn) (e : ConnEvent) : Prop :=
  ∀ c', c.step e = some c' → c'.heard ≠ [] → ∀ s ∈ c'.sent.drop c.sent.length, ∀ j < s.data.length,
    c'.Offered (c'.place (s.seq + UInt32.ofNat j)) ∨
      s.data.length = 1 ∧ ∃ a, c'.heard.getLast? = some (a,0)

/-- What is in flight has been offered, and the window of the block is the one that came with its
`snd_una`. -/
structure Windowed (iss : UInt32) (c : Conn) (una nxt : Nat) : Prop extends Placed iss c.pcb una nxt where
  counted : c.una = una
  window : ¬c.pcb.state.Opening → c.pcb.state ≠ .closed →
    ((c.una : Int),c.pcb.sndWnd) ∈ c.heard ∧ c.pcb.sndWnd ≠ 0
  syn : una = 0 → c.pcb.state.Opening ∨ c.pcb.state = .closed
  opening : c.pcb.state.Opening → una = 0 ∧ nxt = 1
  offered : ∀ k, 0 < k → una ≤ k → k+c.pcb.finSent.toNat < nxt → c.Offered k
  fin : c.pcb.state.Unshut → c.pcb.finSent = false

variable {iss : UInt32} {p : Pcb} {una nxt una' nxt' : Nat} {out : List Segment} {c c' : Conn}
  {e : ConnEvent} {seg : Segment}

variable {k : Nat} {a : UInt32}

theorem Conn.Offered.mono (h : c.Offered k) (hheard : ∀ x ∈ c.heard, x ∈ c'.heard) : c'.Offered k := by
  obtain ⟨x,hx,hk⟩ := h
  exact ⟨x,hheard x hx,hk⟩

/-- The place of a number in flight. -/
theorem Windowed.place_nth (h : Windowed iss c una nxt) (hle : una ≤ k) (hlt : k < una+0x80000000) :
    c.place (nth iss k) = k := by
  rw [Conn.place,h.counted,h.una_eq,toInt_nth_sub hle (by omega)]
  omega

/-- The window of the block offers what it has room for. -/
theorem Windowed.offers (h : Windowed iss c una nxt) (ho : ¬c.pcb.state.Opening)
    (hst : c.pcb.state ≠ .closed) (hk : k < una+c.pcb.window) : c.Offered k := by
  obtain ⟨hmem,hne⟩ := h.window ho hst
  rw [Pcb.window,if_neg hne] at hk
  refine ⟨_,hmem,?_⟩
  rw [h.counted]
  dsimp only
  omega

/-! ### Windows that come in -/

/-- An acknowledgement of nothing old is where `snd_una` then stands. -/
theorem takeAck_una (hf : p.flight < 0x80000000) (h : (seg.ack-p.sndUna).toNat ≤ p.flight) :
    (takeAck p seg).1.sndUna = seg.ack := by
  by_cases hpass : (seqGt seg.ack p.sndUna && seqLe seg.ack p.sndNxt) = true
  · rw [takeAck,if_pos hpass]
  rw [takeAck,if_neg hpass]
  have hzero : (seg.ack-p.sndUna).toNat = 0 := by
    rw [takeAck_iff hf] at hpass
    omega
  have hplace := nth_sub_base p.sndUna seg.ack
  rw [hzero,nth_zero] at hplace
  exact hplace

/-- Only segments bring windows. -/
theorem step_heard (hs : c.step e = some c') (hne : ∀ seg, e ≠ .input seg) :
    c'.heard = c.heard ∧ c'.pcb.sndWnd = c.pcb.sndWnd ∧ c'.una = c.una := by
  cases e with
  | send src sig =>
    obtain ⟨r,hr,rfl⟩ := Option.map_eq_some_iff.mp hs
    cases tcpSendTurn_case hr with
    | idle => exact ⟨rfl,rfl,rfl⟩
    | turn b _ _ _ _ =>
      obtain ⟨ps,heq,-⟩ := tcpOutputData_spec (c.pcb.queue src)
      rw [heq]
      exact ⟨rfl,rfl,rfl⟩
  | recv len sig =>
    obtain ⟨r,hr,rfl⟩ := Option.map_eq_some_iff.mp hs
    cases tcpRecv_case hr with
    | nothing r | bytes _ _ => exact ⟨rfl,rfl,rfl⟩
  | close =>
    obtain ⟨o,hcase,hfree,rfl⟩ := step_close hs
    cases hcase with
    | finWait _ | lastAck _ | nothing _ _ _ _ => exact ⟨rfl,rfl,rfl⟩
    | freed _ => cases hfree
  | input seg => exact absurd rfl (hne seg)
  | timeout =>
    obtain ⟨r,hcase,rfl⟩ := step_timeout hs
    cases hcase with
    | idle _ | exhausted _ _ | again _ _ => exact ⟨rfl,rfl,rfl⟩

theorem input_heard (hs : c.step (.input seg) = some c') :
    c'.una = c.una + (c'.pcb.sndUna-c.pcb.sndUna).toNat ∧ c'.heard =
      if seg.flags.ack ∧ ¬seg.flags.rst then c.heard ++ [(c'.place seg.ack,seg.win)] else c.heard := by
  obtain ⟨o,-,rfl⟩ := step_input hs
  exact ⟨rfl,rfl⟩

theorem Conn.place_una (h : a = c.pcb.sndUna) : c.place a = c.una := by
  rw [Conn.place,h,UInt32.sub_self]
  exact Int.add_zero _

theorem heard_subset (hs : c.step e = some c') : ∀ x ∈ c.heard, x ∈ c'.heard := by
  intro x hx
  by_cases hin : ∃ seg, e = .input seg
  · obtain ⟨seg,rfl⟩ := hin
    rw [(input_heard hs).2]
    split
    · exact mem_append_left _ hx
    · exact hx
  · rw [(step_heard hs fun seg he => hin ⟨seg,he⟩).1]
    exact hx

/-- The window of the block after a segment. -/
theorem Windowed.window_input (h : Windowed iss c una nxt) (hg : KeepsWindow c (.input seg))
    (hs : c.step (.input seg) = some c') (ho : ¬c'.pcb.state.Opening) (hst : c'.pcb.state ≠ .closed) :
    ((c'.una : Int),c'.pcb.sndWnd) ∈ c'.heard ∧ c'.pcb.sndWnd ≠ 0 := by
  obtain ⟨hu,hheard⟩ := input_heard hs
  have hsub := heard_subset hs
  have hnew (hack : seg.flags.ack = true) (hrst : seg.flags.rst = false) (hm : seg.ack = c'.pcb.sndUna) :
      ((c'.una : Int),seg.win) ∈ c'.heard := by
    rw [hheard,if_pos ⟨hack,by rw [hrst]; exact false_ne_true⟩,Conn.place_una hm]
    exact mem_append_right _ (mem_singleton_self _)
  have hold (hm : c'.pcb.sndUna = c.pcb.sndUna) (hc : ((c.una : Int),c.pcb.sndWnd) ∈ c.heard) :
      ((c'.una : Int),c.pcb.sndWnd) ∈ c'.heard := by
    rw [hu,hm,UInt32.sub_self]
    exact hsub _ hc
  obtain ⟨o,htaken,rfl⟩ := step_input hs
  cases htaken with
  | reset => exact absurd rfl hst
  | kept =>
    obtain ⟨hmem,hne⟩ := h.window ho hst
    exact ⟨hold rfl hmem,hne⟩
  | opened hrst hop he =>
    obtain ⟨hwin,-⟩ := hg he.ack hrst fun hc => absurd (hc ▸ hop) (by decide)
    have hmem := hnew he.ack hrst (he.una_eq.trans he.una.symm)
    rw [he.window,if_neg hwin]
    exact ⟨hmem,hwin⟩
  | synchronised hrst hsync _ =>
    obtain ⟨_,_,_,_,_,heq,-⟩ := inputSynchronised_parts c.pcb seg
    have hpu : (inputSynchronised c.pcb seg).pcb.sndUna = (acked c.pcb seg).sndUna := by rw [heq]
    have hpw : (inputSynchronised c.pcb seg).pcb.sndWnd = (acked c.pcb seg).sndWnd := by rw [heq]
    by_cases hack : seg.flags.ack = true
    · obtain ⟨hwin,hd⟩ := hg hack hrst hsync.ne_closed
      rw [acked,if_pos hack,takeWindow] at hpu hpw
      rw [hpw,if_neg hwin]
      exact ⟨hnew hack hrst (hpu.trans (takeAck_una h.flight_lt hd)).symm,hwin⟩
    · obtain ⟨hmem,hne⟩ := h.window hsync.not_opening hsync.ne_closed
      rw [acked,if_neg hack] at hpu hpw
      rw [hpw]
      exact ⟨hold hpu hmem,hne⟩

/-! ### Runs -/

theorem Windowed.window_step (h : Windowed iss c una nxt) (hg : KeepsWindow c e) (hs : c.step e = some c')
    (hadv : Advances iss c e c' una nxt una' nxt' out) (ho : ¬c'.pcb.state.Opening)
    (hst : c'.pcb.state ≠ .closed) : ((c'.una : Int),c'.pcb.sndWnd) ∈ c'.heard ∧ c'.pcb.sndWnd ≠ 0 := by
  by_cases hin : ∃ seg, e = .input seg
  · obtain ⟨seg,rfl⟩ := hin
    exact h.window_input hg hs ho hst
  have hold : ¬c.pcb.state.Opening := by
    intro hop
    obtain ⟨h0,h1⟩ := h.opening hop
    rcases hadv.opened hop with ⟨-,hst'⟩ | ⟨hn,-⟩
    · exact hst'.elim ho hst
    · obtain ⟨seg,he,-⟩ := hadv.acked (by omega)
      exact hin ⟨seg,he⟩
  obtain ⟨hheard,hwnd,hu⟩ := step_heard hs fun seg he => hin ⟨seg,he⟩
  rw [hheard,hwnd,hu]
  exact h.window hold fun hc => hst (hadv.onward.closed hc)

theorem Windowed.counted_step (h : Windowed iss c una nxt) (hs : c.step e = some c')
    (hadv : Advances iss c e c' una nxt una' nxt' out) : c'.una = una' := by
  have hle := hadv.una_le
  by_cases hin : ∃ seg, e = .input seg
  · obtain ⟨seg,rfl⟩ := hin
    have hroom := h.room
    have hnxt := hadv.una_nxt
    rw [(input_heard hs).1,h.counted,hadv.placed.una_eq,h.una_eq,toNat_nth_sub hle]
    · omega
    · rw [TCP_SNDBUF] at hroom
      omega
  · rw [(step_heard hs fun seg he => hin ⟨seg,he⟩).2.2,h.counted]
    rcases Nat.eq_or_lt_of_le hle with heq | hlt
    · exact heq
    · obtain ⟨seg,he,-⟩ := hadv.acked hlt
      exact absurd ⟨seg,he⟩ hin

theorem Pushes.live (h : Pushes c e c') (hg : KeepsWindow c e) :
    ¬c'.pcb.state.Opening ∧ c'.pcb.state ≠ .closed := by
  rcases h with ⟨⟨src,sig,rfl⟩,hst,hne⟩ | hst
  · rw [hst]
    exact ⟨hg,hne⟩
  · rw [hst]
    decide

theorem Windowed.step (h : Windowed iss c una nxt) (hg : KeepsWindow c e) (hs : c.step e = some c') :
    ∃ una' nxt' out, Advances iss c e c' una nxt una' nxt' out ∧ Windowed iss c' una' nxt' := by
  obtain ⟨una',nxt',out,t,hadv,-⟩ := h.toPlaced.step hs
  have hule := hadv.una_le
  have hnle := hadv.nxt_le
  have hwindow := h.window_step hg hs hadv
  have hcounted := h.counted_step hs hadv
  refine ⟨una',nxt',out,hadv,hadv.placed,hcounted,hwindow,fun hu => ?_,fun ho => ?_,fun k hpos hlo hhi => ?_,fun hst => ?_⟩
  · rcases h.syn (by omega) with hop | hc
    · obtain ⟨h0,h1⟩ := h.opening hop
      rcases hadv.opened hop with ⟨-,hst⟩ | ⟨hn,-⟩
      · exact hst
      · omega
    · exact .inr (hadv.onward.closed hc)
  · have hop := hadv.onward.opening ho
    obtain ⟨h0,h1⟩ := h.opening hop
    rcases hadv.opened hop with ⟨hu,-⟩ | ⟨-,hst⟩
    · refine ⟨by omega,?_⟩
      rcases Nat.eq_or_lt_of_le hnle with heq | hlt
      · omega
      · rcases hadv.grows hlt with ⟨hpush,-⟩ | ⟨-,-,-,hshut,-⟩
        · exact absurd ho (hpush.live hg).1
        · exact absurd (.inr (.inr ho)) hshut
    · rw [hst] at ho
      exact absurd ho (by decide)
  · rcases Nat.eq_or_lt_of_le hnle with heq | hlt
    · have hfin : c.pcb.finSent.toNat ≤ c'.pcb.finSent.toNat := by
        cases hf : c.pcb.finSent with
        | false => exact Nat.zero_le _
        | true => exact Nat.le_of_eq (by rw [hadv.finKept hf])
      exact (h.offered k hpos (by omega) (by omega)).mono (heard_subset hs)
    · rcases hadv.grows hlt with ⟨hpush,hend⟩ | ⟨-,hn,hun,-,hf⟩
      · obtain ⟨ho,hst⟩ := hpush.live hg
        obtain ⟨hmem,hne⟩ := hwindow ho hst
        rw [Pcb.window,if_neg hne] at hend
        refine ⟨_,hmem,?_⟩
        rw [hcounted]
        dsimp only
        omega
      · have hold := h.fin hun
        rw [hf,toNat_true] at hhi
        refine (h.offered k hpos (by omega) ?_).mono (heard_subset hs)
        rw [hold,toNat_false]
        omega
  · refine eq_false_iff.mpr fun hf => ?_
    rcases hadv.finSent hf with hold | ⟨-,hshut⟩
    · rw [h.fin (hadv.onward.unshut hst)] at hold
      cases hold
    · exact hshut hst

theorem Windowed.inWindow (h : Windowed iss c una nxt) (hg : KeepsWindow c e) : InWindow c e := by
  intro c' hs _ s hmem j hj
  obtain ⟨una',nxt',out,hadv,h'⟩ := h.step hg hs
  rw [hadv.sent_drop] at hmem
  have hd : s.data ≠ [] := List.length_pos_iff.mp (Nat.zero_lt_of_lt hj)
  obtain ⟨k,hseq,hocc,hcase⟩ := hadv.piece hmem hd
  have hlong := h'.flight_lt'
  have hle := h'.le
  have hplace (k : Nat) (h1 : una' ≤ k) (h2 : k < una'+0x80000000) (hk : c'.Offered k) :
      c'.Offered (c'.place (nth iss k)) := by
    rw [h'.place_nth h1 h2]
    exact hk
  left
  rw [hseq,← nth_add]
  rcases hcase with ⟨-,hhi,hend,hpush⟩ | ⟨rfl,hr,rfl,hu,hn,hm⟩
  · obtain ⟨ho,hst⟩ := hpush.live hg
    exact hplace _ (by omega) (by omega) (h'.offers ho hst (by omega))
  have ho : ¬c.pcb.state.Opening := fun ho => ho.elim hr.2.1 hr.2.2.1
  have hpos : una ≠ 0 := fun h0 => (h.syn h0).elim ho hr.1
  have hflight := h.flight
  have hbuf := h.le
  have hmss : TCP_MSS = 1400 := rfl
  have hoff : c.Offered (una'+0+j : Nat) := by
    rcases hg hr with hfly | hwnd
    · exact h.offered _ (by omega) (by omega) (by omega)
    · refine h.offers ho hr.1 ?_
      rw [Pcb.window,if_neg (h.window ho hr.1).2]
      omega
  exact hplace _ (by omega) (by omega) (hoff.mono (heard_subset hs))

theorem Pcb.Opens.windowed (h : p.Opens iss) : Windowed iss (.start p) 0 1 where
  toPlaced := h.placed
  counted := rfl
  window ho := absurd h.state ho
  syn _ := .inl h.state
  opening _ := ⟨rfl,rfl⟩
  offered _ hpos _ hlt := by omega
  fin _ := h.fin

/-- In every run that the windows bear, all data is sent within them. -/
theorem flow_control {es : List ConnEvent} (hp : p.Opens iss)
    (hg : Along Conn.step KeepsWindow (.start p) es) : Along Conn.step InWindow (.start p) es := by
  refine hg.meets (I := fun c => ∃ una nxt, Windowed iss c una nxt) ?_ ⟨0,1,hp.windowed⟩ ?_
  · rintro c e c' ⟨una,nxt,h⟩ hg hs
    obtain ⟨una',nxt',out,-,h'⟩ := h.step hg hs
    exact ⟨una',nxt',h'⟩
  · rintro c e ⟨una,nxt,h⟩ hg
    exact h.inWindow hg

theorem flow_control_dialled : Along Conn.step InWindow (.start dialled) [synAck 2,.send [7,8,9] false] :=
  flow_control dialled_opens ⟨fun _ _ _ => ⟨by decide,by decide⟩,fun c hc => by
    cases hc
    exact ⟨(by decide : ¬TcpState.Opening .established),fun _ _ => trivial⟩⟩

theorem not_inWindow (hs : c.step e = some c') (hne : c'.heard ≠ []) {s : Segment}
    (hmem : s ∈ c'.sent.drop c.sent.length) {j : Nat} (hj : j < s.data.length) (hlen : s.data.length ≠ 1)
    (hout : (c'.heard.any fun h => c'.place (s.seq + UInt32.ofNat j) < h.1+h.2.toNat) = false) :
    ¬InWindow c e := by
  intro h
  rcases h c' hs hne s hmem j hj with ⟨x,hx,hlt⟩ | ⟨hone,-⟩
  · exact List.any_eq_false.mp hout x hx (decide_eq_true hlt)
  · exact hlen hone

/-- An acknowledgement of the peer of `dialled`. -/
def peerAck (ack : UInt32) (win : UInt16) : ConnEvent :=
  .input { src := 80, dst := 49152, seq := 100, ack := ack, flags := { ack := true }, win := win }

/-- The timer sends a byte that a window of one has no room for; when the peer closes its window
`tcp_send` goes on with the old one; and an old acknowledgement brings its window to the new
`snd_una`. -/
theorem windows_overrun :
    (∃ c, exec Conn.step (.start dialled) narrow = some c ∧ ¬InWindow c .timeout) ∧
    (∃ c, exec Conn.step (.start dialled) [synAck 2,.send [7,8] false,peerAck 3 0] = some c ∧
      ¬InWindow c (.send [9,10] false)) ∧
    ∃ c, exec Conn.step (.start dialled) [synAck 2,.send [7,8] false,peerAck 3 1,peerAck 1 3] = some c ∧
      ¬InWindow c (.send [9,10,11] false) := by
  refine ⟨⟨_,rfl,?_⟩,⟨_,rfl,?_⟩,⟨_,rfl,?_⟩⟩
  · exact not_inWindow rfl (by decide) mem_cons_self (j := 1) (by decide) (by decide) rfl
  · exact not_inWindow rfl (by decide) mem_cons_self (j := 0) (by decide) (by decide) rfl
  · exact not_inWindow rfl (by decide) mem_cons_self (j := 2) (by decide) (by decide) rfl

end Lariat.Net
