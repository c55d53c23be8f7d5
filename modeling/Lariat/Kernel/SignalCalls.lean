import Lariat.Kernel.ThreadDeath

/-! The signal system calls, and `signal_deliver` from its call to its return: a thread
that a stop signal parks goes on with the next signal once it runs again. -/
namespace Lariat.Kernel.Signal
open Foundation.Runs Sched Futex Function Option BitVec

def SIG_BLOCK : BitVec 64 := 0
def SIG_UNBLOCK : BitVec 64 := 1
def SIG_SETMASK : BitVec 64 := 2

/-- A 64-bit load through a user pointer, which faults if it is not mapped. -/
def load (m : State) (cr3 : Nat) (addr : BitVec 64) : Option (BitVec 64) :=
  (m.mem cr3 addr).bind fun lo => (m.mem cr3 (addr+4)).map fun hi => (hi ++ lo : BitVec 64)

/-- Report the handler in force through `oldact`. -/
def putOldAction (m : State) (t : ThreadRef) (signum oldact : BitVec 64) : Option State :=
  if oldact = 0 then some m
  else do
    let r := m.sched.thread t
    let m ← push m r.cr3 oldact (r.sigHandlers signum.toNat)
    let m ← push m r.cr3 (oldact+8) 0
    let m ← push m r.cr3 (oldact+16) 0
    push m r.cr3 (oldact+24) 0

/-- Install the handler and, unless it is null, the restorer that `act` names. -/
def takeAction (m : State) (t : ThreadRef) (signum act : BitVec 64) : Option State :=
  if act = 0 then some m
  else do
    let r := m.sched.thread t
    let h ← load m r.cr3 act
    let restorer ← load m r.cr3 (act+16)
    pure (m.modify t fun r => { r with
      sigHandlers := update r.sigHandlers signum.toNat h
      sigRestorer := if restorer ≠ 0 then restorer else r.sigRestorer })

def sysRtSigaction (m : State) (c : Nat) (signum act oldact : BitVec 64) :
    Option (BitVec 64 × State) :=
  match (m.sched.cpu c).current with
  | none => some (-EINVAL,m)
  | some t =>
    if 32 ≤ signum then some (-EINVAL,m)
    else do
      let m ← putOldAction m t signum oldact
      let m ← takeAction m t signum act
      pure (0,m)

/-- The two signals that cannot be blocked. -/
def unblockable : BitVec 64 := sigBit SIGKILL ||| sigBit SIGSTOP

/-- The mask that `how` makes of the old one, if it is a known request. -/
def newMask (how old set : BitVec 64) : Option (BitVec 64) :=
  if how = SIG_BLOCK then some ((old ||| set) &&& ~~~unblockable)
  else if how = SIG_UNBLOCK then some ((old &&& ~~~set) &&& ~~~unblockable)
  else if how = SIG_SETMASK then some (set &&& ~~~unblockable)
  else none

def sysRtSigprocmask (m : State) (c : Nat) (how set oldset : BitVec 64) :
    Option (BitVec 64 × State) :=
  match (m.sched.cpu c).current with
  | none => some (-EINVAL,m)
  | some t =>
    let r := m.sched.thread t
    let report := fun m : State =>
      if oldset = 0 then some ((0 : BitVec 64),m)
      else (push m r.cr3 oldset r.sigMask).map fun m => (0,m)
    if set = 0 then report m
    else (load m r.cr3 set).bind fun newset =>
      match newMask how r.sigMask newset with
      | none => some (-EINVAL,m)
      | some mask => report (m.modify t fun r => { r with sigMask := mask })

/-- The saved context is read where the user stack pointer points. -/
def sysRtSigreturn (m : State) (c : Nat) : Option (BitVec 64 × State) :=
  match (m.sched.cpu c).current with
  | none => some (0,m)
  | some t => do
    let r := m.sched.thread t
    let rip ← load m r.cr3 r.tmpRsp
    let rflags ← load m r.cr3 (r.tmpRsp+8)
    let rsp ← load m r.cr3 (r.tmpRsp+16)
    let rax ← load m r.cr3 (r.tmpRsp+24)
    let mask ← load m r.cr3 (r.tmpRsp+32)
    pure (rax,m.modify t fun r => { r with
      tmpRip := rip, tmpRflags := rflags, tmpRsp := rsp, sigMask := mask })

/-- The time a thread spends parked by a stop signal: the signals that arrive, of which
the first makes it ready, and the CPU that then runs it. -/
structure Stay where
  first : Nat
  rest : List Nat := []
  cpu : Nat := 0

def Stay.signals (y : Stay) : List Nat := y.first :: y.rest

/-- Signals sent to one thread, in order. -/
def arrive (s : Sched) (t : ThreadRef) (sigs : List Nat) : Sched :=
  sigs.foldl (fun s sig => s.schedDeliverSignal (some t) sig) s

/-- A CPU takes the thread from the ready queue and runs it. -/
def pickUp (s : Sched) (c : Nat) (t : ThreadRef) : Sched :=
  (s.setQueue .readyQueue ((s.queue .readyQueue).erase t)).switchTo c t

def stay (m : State) (t : ThreadRef) (y : Stay) : State :=
  { m with sched := pickUp (arrive m.sched t y.signals) y.cpu t }

/-- Follow the call through its stops, `n` of them at most. -/
def goOn (away : Nat → Stay) (t : ThreadRef) (retVal : BitVec 64) :
    Nat → Outcome → Option Outcome
  | n+1, .stops s m =>
    (signalResume (stay m t (away s)) (away s).cpu s retVal).bind (goOn away t retVal n)
  | _, o => some o

/-- `signal_deliver` with what happens at each stop. A signal number is visited once,
so there are fewer stops than signals. -/
def deliver (m : State) (c : Nat) (t : ThreadRef) (retVal : BitVec 64) (away : Nat → Stay) :
    Option Outcome :=
  (signalDeliver m c retVal).bind (goOn away t retVal 31)

/-- The address of the saved context below an interrupted stack pointer. -/
def frameBase (rsp : BitVec 64) : BitVec 64 := ((rsp-128) &&& ~~~(0xf : BitVec 64)) - 40

theorem align_down (x : BitVec 64) :
    ∃ j : Nat, j < 16 ∧ x &&& ~~~(0xf : BitVec 64) = x - BitVec.ofNat 64 j := by
  refine ⟨(x &&& 0xf).toNat,?_,?_⟩
  · rw [toNat_and]
    exact Nat.lt_succ_of_le Nat.and_le_right
  · have hzero : (x &&& ~~~(0xf : BitVec 64)) &&& (x &&& 0xf) = 0 := by
      rw [BitVec.and_assoc,← BitVec.and_assoc (~~~(0xf : BitVec 64)),
        BitVec.and_comm (~~~(0xf : BitVec 64)) x,BitVec.and_assoc,BitVec.not_and_self]
      simp
    have hor : x &&& ~~~(0xf : BitVec 64) ||| x &&& 0xf = x := by
      rw [← and_or_distrib_left]
      exact and_allOnes
    have hsum := add_eq_or_of_and_eq_zero _ _ hzero
    rw [hor] at hsum
    rw [ofNat_toNat,setWidth_eq]
    generalize x &&& ~~~(0xf : BitVec 64) = hi at hsum ⊢
    generalize x &&& 0xf = lo at hsum ⊢
    bv_omega

/-- The frame starts at least 168 bytes below the interrupted stack pointer. -/
theorem frameBase_eq (rsp : BitVec 64) :
    ∃ j : Nat, 168 ≤ j ∧ j < 184 ∧ frameBase rsp = rsp - BitVec.ofNat 64 j := by
  obtain ⟨j,hj,h⟩ := align_down (rsp-128)
  refine ⟨168+j,by omega,by omega,?_⟩
  rw [frameBase,h,ofNat_add]
  bv_omega

section Push

variable {m m' : State} {cr3 : Nat} {addr v : BitVec 64}

/-- What a 64-bit store does to the words of one address space. -/
def store (mem : BitVec 64 → Option (BitVec 32)) (addr v : BitVec 64) :
    BitVec 64 → Option (BitVec 32) :=
  update (update mem addr (some (v.setWidth 32))) (addr+4)
    (some ((v >>> 32).setWidth 32))

theorem push_spec (h : push m cr3 addr v = some m') :
    m'.sched = m.sched ∧ m'.mem = update m.mem cr3 (store (m.mem cr3) addr v) := by
  unfold push at h
  split_ifs at h
  cases h
  refine ⟨rfl,?_⟩
  simp [State.setWord,store]

end Push

section Calls

variable {m m' : State} {c : Nat} {t : ThreadRef} {v how set oldset signum act oldact : BitVec 64}

/-- Some words of a mapped address space have been zeroed. -/
def Zeroed (mem mem' : BitVec 64 → Option (BitVec 32)) : Prop :=
  ∀ a, mem' a = mem a ∨ (mem a).isSome ∧ mem' a = some 0

theorem Zeroed.refl (mem : BitVec 64 → Option (BitVec 32)) : Zeroed mem mem := fun _ => .inl rfl

theorem Zeroed.trans {mem mem' mem'' : BitVec 64 → Option (BitVec 32)} (h : Zeroed mem mem')
    (h' : Zeroed mem' mem'') : Zeroed mem mem'' := by
  intro a
  rcases h' a with e' | ⟨hs',e'⟩
  · rw [e']
    exact h a
  · rcases h a with e | ⟨hs,_⟩
    · exact .inr ⟨e ▸ hs',e'⟩
    · exact .inr ⟨hs,e'⟩

variable {addr : BitVec 64}

theorem Zeroed.update {mem mem' : BitVec 64 → Option (BitVec 32)} (h : Zeroed mem mem')
    (hs : (mem addr).isSome) : Zeroed mem (update mem' addr (some 0)) := by
  intro a
  by_cases ha : a = addr
  · subst ha
    exact .inr ⟨hs,update_self ..⟩
  · rw [update_of_ne ha]
    exact h a

theorem push_zeroed {cr3 : Nat} (h : push m cr3 addr 0 = some m') :
    Zeroed (m.mem cr3) (m'.mem cr3) := by
  unfold push at h
  split_ifs at h with hs
  cases h
  simp only [State.setWord,update_self]
  exact ((Zeroed.refl _).update hs.1).update hs.2

theorem load_zeroed {cr3 : Nat} {w : BitVec 64} (hz : Zeroed (m.mem cr3) (m'.mem cr3))
    (h : load m' cr3 addr = some w) : ∃ w0, load m cr3 addr = some w0 ∧ (w0 = 0 → w = 0) := by
  simp only [load,bind_eq_some_iff,map_eq_some_iff] at h ⊢
  obtain ⟨lo,hlo,hi,hhi,rfl⟩ := h
  have half : ∀ {a : BitVec 64} {x : BitVec 32}, m'.mem cr3 a = some x →
      ∃ x0, m.mem cr3 a = some x0 ∧ (x = x0 ∨ x = 0) := by
    intro a x hx
    rcases hz a with e | ⟨hs,e⟩
    · exact ⟨x,e ▸ hx,.inl rfl⟩
    · obtain ⟨x0,h0⟩ := isSome_iff_exists.mp hs
      exact ⟨x0,h0,.inr (some.inj (hx.symm.trans e))⟩
  obtain ⟨lo0,hlo0,hl⟩ := half hlo
  obtain ⟨hi0,hhi0,hh⟩ := half hhi
  refine ⟨hi0 ++ lo0,⟨lo0,hlo0,hi0,hhi0,rfl⟩,fun h0 => ?_⟩
  have hlo0 : lo0 = 0 := by
    rw [← extractLsb'_append_eq_right (b := lo0),h0]
    rfl
  have hhi0 : hi0 = 0 := by
    rw [← extractLsb'_append_eq_left (a := hi0),h0]
    rfl
  have hlo : lo = 0 := hl.elim (·.trans hlo0) id
  have hhi : hi = 0 := hh.elim (·.trans hhi0) id
  rw [hlo,hhi]
  rfl

theorem putOldAction_spec (h : putOldAction m t signum oldact = some m') :
    m'.sched = m.sched ∧
    ((m.sched.thread t).sigHandlers signum.toNat = 0 →
      Zeroed (m.mem (m.sched.thread t).cr3) (m'.mem (m.sched.thread t).cr3)) := by
  unfold putOldAction at h
  split_ifs at h
  · cases h
    exact ⟨rfl,fun _ => .refl _⟩
  simp only [bind_eq_bind,bind_eq_some_iff] at h
  obtain ⟨m1,h1,m2,h2,m3,h3,h4⟩ := h
  refine ⟨?_,fun hz => ?_⟩
  · rw [(push_spec h4).1,(push_spec h3).1,(push_spec h2).1,(push_spec h1).1]
  · rw [hz] at h1
    exact (((push_zeroed h1).trans (push_zeroed h2)).trans (push_zeroed h3)).trans (push_zeroed h4)

/-- `rt_sigaction` writes the handler named through `act` into the slot, and reads it
after it has reported the old one. -/
theorem sysRtSigaction_spec (hcur : (m.sched.cpu c).current = some t)
    (h : sysRtSigaction m c signum act oldact = some (v,m')) :
    m'.sched.cpu = m.sched.cpu ∧
    (m'.sched.thread t = m.sched.thread t ∨
      act ≠ 0 ∧ ∃ new restorer,
        m'.sched.thread t = { m.sched.thread t with
          sigHandlers := update (m.sched.thread t).sigHandlers signum.toNat new
          sigRestorer := restorer } ∧
        ((m.sched.thread t).sigHandlers signum.toNat = 0 →
          ∃ w, load m (m.sched.thread t).cr3 act = some w ∧ (w = 0 → new = 0))) := by
  unfold sysRtSigaction at h
  rw [hcur] at h
  split_ifs at h
  · cases h
    exact ⟨rfl,.inl rfl⟩
  simp only [bind_eq_bind,bind_eq_some_iff,pure_def,some.injEq,
    Prod.mk.injEq] at h
  obtain ⟨m1,h1,m2,h2,_,rfl⟩ := h
  obtain ⟨hs,hz⟩ := putOldAction_spec h1
  unfold takeAction at h2
  split_ifs at h2 with hact
  · cases h2
    rw [hs]
    exact ⟨rfl,.inl rfl⟩
  simp only [bind_eq_bind,bind_eq_some_iff,pure_def,some.injEq] at h2
  obtain ⟨new,hnew,restorer,_,rfl⟩ := h2
  rw [hs] at hnew
  have hcpu : m1.sched.cpu = m.sched.cpu := congrArg Sched.cpu hs
  refine ⟨hcpu,.inr ⟨hact,new,if restorer ≠ 0 then restorer else (m.sched.thread t).sigRestorer,?_,
    fun h0 => load_zeroed (hz h0) hnew⟩⟩
  simp only [State.modify,modify_thread,if_pos,hs]

theorem and_unblockable_clear (x : BitVec 64) : (x &&& ~~~unblockable) &&& unblockable = 0 := by
  rw [BitVec.and_assoc,BitVec.not_and_self]
  simp

/-- `rt_sigprocmask` keeps the mask or clears the two bits in the new one. -/
theorem sysRtSigprocmask_spec (hcur : (m.sched.cpu c).current = some t)
    (h : sysRtSigprocmask m c how set oldset = some (v,m')) :
    m'.sched.cpu = m.sched.cpu ∧
    (m'.sched.thread t = m.sched.thread t ∨
      ∃ mask, m'.sched.thread t = { m.sched.thread t with sigMask := mask } ∧
        mask &&& unblockable = 0) := by
  have hreport : ∀ {m0 : State} {cr3 : Nat} {old : BitVec 64},
      (if oldset = 0 then some ((0 : BitVec 64),m0)
        else (push m0 cr3 oldset old).map fun m => (0,m)) = some (v,m') → m'.sched = m0.sched := by
    intro m0 cr3 old h0
    split_ifs at h0
    · cases h0
      rfl
    · obtain ⟨m1,h1,h2⟩ := map_eq_some_iff.mp h0
      cases h2
      exact (push_spec h1).1
  unfold sysRtSigprocmask at h
  rw [hcur] at h
  dsimp only at h
  by_cases hset : set = 0
  · rw [if_pos hset] at h
    rw [hreport h]
    exact ⟨rfl,.inl rfl⟩
  rw [if_neg hset] at h
  obtain ⟨newset,_,h⟩ := bind_eq_some_iff.mp h
  cases hmask : newMask how (m.sched.thread t).sigMask newset with
  | none =>
    rw [hmask] at h
    cases h
    exact ⟨rfl,.inl rfl⟩
  | some mask =>
    rw [hmask] at h
    have hs := hreport h
    refine ⟨(congrArg Sched.cpu hs :),.inr ⟨mask,?_,?_⟩⟩
    · rw [hs]
      simp [State.modify]
    · unfold newMask at hmask
      split_ifs at hmask <;> cases hmask <;> exact and_unblockable_clear _

theorem sysRtSigreturn_spec (hcur : (m.sched.cpu c).current = some t)
    (h : sysRtSigreturn m c = some (v,m')) :
    m'.sched.cpu = m.sched.cpu ∧ m'.mem = m.mem ∧
    ∃ rip rflags rsp mask,
      m'.sched.thread t = { m.sched.thread t with
        tmpRip := rip, tmpRflags := rflags, tmpRsp := rsp, sigMask := mask } ∧
      load m (m.sched.thread t).cr3 (m.sched.thread t).tmpRsp = some rip ∧
      load m (m.sched.thread t).cr3 ((m.sched.thread t).tmpRsp+8) = some rflags ∧
      load m (m.sched.thread t).cr3 ((m.sched.thread t).tmpRsp+16) = some rsp ∧
      load m (m.sched.thread t).cr3 ((m.sched.thread t).tmpRsp+24) = some v ∧
      load m (m.sched.thread t).cr3 ((m.sched.thread t).tmpRsp+32) = some mask := by
  unfold sysRtSigreturn at h
  rw [hcur] at h
  simp only [bind_eq_bind,bind_eq_some_iff,pure_def,some.injEq,
    Prod.mk.injEq] at h
  obtain ⟨rip,hrip,rflags,hrflags,rsp,hrsp,rax,hrax,mask,hmask,rfl,rfl⟩ := h
  refine ⟨rfl,rfl,rip,rflags,rsp,mask,?_,hrip,hrflags,hrsp,hrax,hmask⟩
  simp [State.modify]

end Calls

/-- The words of a signal frame over what the stack held before: the saved context and,
below it, the return address into the restorer. -/
def saveFrame (mem : BitVec 64 → Option (BitVec 32)) (r : Thread) (retVal : BitVec 64) :
    BitVec 64 → Option (BitVec 32) :=
  let fr := frameBase r.tmpRsp
  store (store (store (store (store (store mem fr r.tmpRip) (fr+8) r.tmpRflags) (fr+16) r.tmpRsp)
    (fr+24) retVal) (fr+32) r.sigMask) (fr-8) r.sigRestorer

section Enter

variable {m m' : State} {t : ThreadRef} {s : Nat} {h retVal : BitVec 64}

section

variable (he : enterHandler m t s h retVal = some m')
include he

theorem enterHandler_restorer (hr : (m.sched.thread t).sigRestorer ≠ 0) :
    m'.sched.cpu = m.sched.cpu ∧
    m'.sched.thread t = { m.sched.thread t with
      sigMask := (m.sched.thread t).sigMask ||| sigBit s
      tmpRsp := frameBase (m.sched.thread t).tmpRsp - 8
      usrRdi := BitVec.ofNat 64 s, tmpRip := h } ∧
    m'.mem = update m.mem (m.sched.thread t).cr3
      (saveFrame (m.mem (m.sched.thread t).cr3) (m.sched.thread t) retVal) := by
  unfold enterHandler at he
  rw [if_pos hr] at he
  simp only [bind_eq_bind,bind_eq_some_iff,pure_def,some.injEq] at he
  obtain ⟨m1,h1,m2,h2,m3,h3,m4,h4,m5,h5,m6,h6,rfl⟩ := he
  obtain ⟨s1,e1⟩ := push_spec h1
  obtain ⟨s2,e2⟩ := push_spec h2
  obtain ⟨s3,e3⟩ := push_spec h3
  obtain ⟨s4,e4⟩ := push_spec h4
  obtain ⟨s5,e5⟩ := push_spec h5
  obtain ⟨s6,e6⟩ := push_spec h6
  have hs : m6.sched = m.sched := by rw [s6,s5,s4,s3,s2,s1]
  have hcpu : m6.sched.cpu = m.sched.cpu := congrArg Sched.cpu hs
  refine ⟨hcpu,?_,?_⟩
  · simp [State.modify,hs,frameBase]
  · simp only [State.modify,e6,e5,e4,e3,e2,e1,update_self,update_idem]
    rfl

theorem enterHandler_bare (hr : (m.sched.thread t).sigRestorer = 0) :
    m'.sched.thread t = { m.sched.thread t with
      tmpRsp := frameBase (m.sched.thread t).tmpRsp + 32
      usrRdi := BitVec.ofNat 64 s, tmpRip := h } := by
  unfold enterHandler at he
  rw [if_neg (not_not_intro hr)] at he
  simp only [bind_eq_bind,bind_eq_some_iff,pure_def,some.injEq] at he
  obtain ⟨m1,h1,rfl⟩ := he
  obtain ⟨s1,_⟩ := push_spec h1
  simp only [State.modify,s1,modify_thread,if_pos,frameBase]
  congr 1
  bv_omega

theorem enterHandler_cr3 : (m'.sched.thread t).cr3 = (m.sched.thread t).cr3 := by
  by_cases hr : (m.sched.thread t).sigRestorer = 0
  · rw [enterHandler_bare he hr]
  · rw [(enterHandler_restorer he hr).2.1]

/-- A frame always moves the stack pointer. -/
theorem enterHandler_rsp : (m'.sched.thread t).tmpRsp ≠ (m.sched.thread t).tmpRsp := by
  obtain ⟨j,h1,h2,hj⟩ := frameBase_eq (m.sched.thread t).tmpRsp
  by_cases hr : (m.sched.thread t).sigRestorer = 0
  · rw [enterHandler_bare he hr]
    rw [hj]
    bv_omega
  · rw [(enterHandler_restorer he hr).2.1]
    rw [hj]
    bv_omega

end

end Enter

end Lariat.Kernel.Signal
