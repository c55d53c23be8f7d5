import Lariat.Kernel.Delivery

/-! `SIGKILL` and `SIGSTOP` over the life of a thread: the calls that write its mask or
its handlers, with any arguments and user memory, and the deliveries on the way out. -/
namespace Lariat.Kernel.Signal
open Foundation.Runs Foundation.Sweep Sched Futex Function Option BitVec

/-- Neither signal is blocked, and both have their default action. -/
structure Unblockable (r : Thread) : Prop where
  mask : r.sigMask &&& unblockable = 0
  kill : r.sigHandlers SIGKILL = SIG_DFL
  stop : r.sigHandlers SIGSTOP = SIG_DFL

/-- All that can be different when a thread traps again: the other threads, the queues
and the user memory. Every CPU has its idle thread. -/
structure World where
  state : State
  idle : ∀ d, (state.sched.cpu d).idle.isSome

/-- The requests of a thread that concern signals, and any other one. -/
inductive Request where
  | sigaction (signum act oldact : BitVec 64)
  | sigprocmask (how set oldset : BitVec 64)
  | sigreturn
  | other (retVal : BitVec 64)

def Request.run (m : State) (c : Nat) : Request → Option (BitVec 64 × State)
  | .sigaction signum act oldact => sysRtSigaction m c signum act oldact
  | .sigprocmask how set oldset => sysRtSigprocmask m c how set oldset
  | .sigreturn => sysRtSigreturn m c
  | .other retVal => some (retVal,m)

inductive Phase where
  | user
  | leaving (cpu : Nat) (retVal : BitVec 64)
  | ended
  deriving DecidableEq

/-- A thread between its traps. Two fields only record what has happened: a `SIGKILL`
has been sent and not yet been due, and one was due at a delivery that returned. -/
structure Life where
  m : State
  phase : Phase := .user
  killSent : Bool := false
  survived : Bool := false

inductive Event where
  | send (sig : Nat)
  | call (w : World) (cpu : Nat) (rip rflags rsp : BitVec 64) (q : Request)
  | deliver (away : Nat → Stay)

/-- The thread traps on a CPU, with its own record and new registers in the new world. -/
def trap (r : Thread) (t : ThreadRef) (w : World) (cpu : Nat) (rip rflags rsp : BitVec 64) : State :=
  { w.state with sched := (w.state.sched.modify t fun _ => { r with
      state := .running, tmpRip := rip, tmpRflags := rflags, tmpRsp := rsp }).setCurrent cpu t }

/-- What the record keeps of a delivery. -/
def Life.delivered (a : Life) (t : ThreadRef) : Outcome → Option Life
  | .returns _ m => some { m := m, survived := a.survived || a.killSent
                           killSent := (m.sched.thread t).sigPending.getLsbD SIGKILL }
  | .exits m => some { a with m := m, phase := .ended }
  | .stops _ _ => none

def step (t : ThreadRef) (a : Life) : Event → Option Life
  | .send sig =>
    if a.phase = .ended then none
    else some { a with m := { a.m with sched := a.m.sched.schedDeliverSignal (some t) sig }
                       killSent := a.killSent || sig == SIGKILL }
  | .call w cpu rip rflags rsp q =>
    if a.phase = .user then
      (q.run (trap (a.m.sched.thread t) t w cpu rip rflags rsp) cpu).map fun p =>
        { a with m := p.2, phase := .leaving cpu p.1 }
    else none
  | .deliver away =>
    match a.phase with
    | .leaving cpu retVal => (deliver a.m cpu t retVal away).bind (a.delivered t)
    | _ => none

/-- A signal with a handler of the program's own. -/
def Caught (r : Thread) (j : Nat) : Prop := r.sigHandlers j ≠ SIG_IGN ∧ r.sigHandlers j ≠ SIG_DFL

/-- No `rt_sigaction` changes the disposition of one of the two signals, no frame passed
to `rt_sigreturn` has them in its mask, and no handler of a lower signal is entered at the
delivery that a `SIGKILL` waits for. -/
def Respects (t : ThreadRef) (a : Life) : Event → Prop
  | .send _ => True
  | .call w cpu rip rflags rsp (.sigaction signum act _) =>
    signum.toNat = SIGKILL ∨ signum.toNat = SIGSTOP → act ≠ 0 →
      ∀ h, load (trap (a.m.sched.thread t) t w cpu rip rflags rsp) (a.m.sched.thread t).cr3 act =
        some h → h = SIG_DFL
  | .call w cpu rip rflags rsp .sigreturn =>
    ∀ mask, load (trap (a.m.sched.thread t) t w cpu rip rflags rsp) (a.m.sched.thread t).cr3 (rsp+32) =
      some mask → mask &&& unblockable = 0
  | .call _ _ _ _ _ _ => True
  | .deliver _ => a.killSent → ∀ j, 1 ≤ j → j < SIGKILL → deliverable (a.m.sched.thread t) j →
      Caught (a.m.sched.thread t) j → ∃ i, 1 ≤ i ∧ i < j ∧
        deliverable (a.m.sched.thread t) i ∧ (a.m.sched.thread t).sigHandlers i = SIG_DFL

/-- The two signals are unblockable, and no delivery that a `SIGKILL` waited for returned. -/
def Safe (t : ThreadRef) (a : Life) : Prop :=
  Unblockable (a.m.sched.thread t) ∧ a.survived = false

/-- What carries `Safe` from step to step. -/
structure Inv (t : ThreadRef) (a : Life) : Prop where
  unblockable : Unblockable (a.m.sched.thread t)
  due : a.phase ≠ .ended → a.killSent → (a.m.sched.thread t).sigPending.getLsbD SIGKILL
  survived : a.survived = false
  cr3 : (a.m.sched.thread t).cr3 ≠ 0
  runs : ∀ cpu retVal, a.phase = .leaving cpu retVal →
    (a.m.sched.cpu cpu).current = some t ∧ ∀ d, (a.m.sched.cpu d).idle.isSome

section Steps

variable {t : ThreadRef} {a a' : Life} {r r' : Thread}

theorem Unblockable.of_context (h : Unblockable r) (hc : context r' = context r) : Unblockable r' := by
  have hmask := context_sigMask hc
  have hhand := context_sigHandlers hc
  exact ⟨hmask ▸ h.mask,hhand ▸ h.kill,hhand ▸ h.stop⟩

theorem and_unblockable {x : BitVec 64} :
    x &&& unblockable = 0 ↔ x.getLsbD SIGKILL = false ∧ x.getLsbD SIGSTOP = false := by
  rw [← and_sigBit_eq_zero (by decide),← and_sigBit_eq_zero (by decide),unblockable,
    and_or_distrib_left]
  exact or_eq_zero_iff

/-- A pending `SIGKILL` ends the pass at number 9 at the latest. -/
theorem Unblockable.kill_due (h : Unblockable r) (hp : r.sigPending.getLsbD SIGKILL)
    (arr : Nat → Nat → Bool) :
    Due (action r.sigHandlers) arr 1 (deliverable r) SIGKILL ∧
      action r.sigHandlers SIGKILL = .quit := by
  refine ⟨.here (by decide) ?_,?_⟩
  · simp [deliverable,hp,(and_unblockable.mp h.mask).1]
  · rw [action,h.kill]
    decide

/-- Only signals above 9 stop a thread, so what is due below 9 was pending from the start. -/
theorem due_below {arr : Nat → Nat → Bool} {P : Nat → Bool} {h : Nat → BitVec 64} {k : Nat}
    (hd : Due (action h) arr 1 P k) (hk : k < SIGKILL) : P k := by
  cases hd with
  | here _ hp => exact hp
  | arrives _ hs hlt _ =>
    have hst := (action_pause hs).2.2.2
    simp only [SIGTSTP,SIGSTOP,SIGKILL] at hst hk
    omega

theorem action_quit_below {h : Nat → BitVec 64} {i : Nat} (hi : i < SIGKILL) (hd : h i = SIG_DFL) :
    action h i = .quit := by
  simp only [SIGKILL] at hi
  unfold action
  rw [if_neg (by rw [hd]; decide),if_pos hd,if_neg (by simp only [SIGCHLD,SIGCONT]; omega),
    if_neg (by simp only [SIGTSTP,SIGSTOP]; omega)]

theorem Unblockable.enterHandler {m m' : State} {s : Nat} {h retVal : BitVec 64}
    (hu : Unblockable (m.sched.thread t)) (hs : (m.sched.thread t).sigHandlers s ≠ SIG_DFL)
    (he : enterHandler m t s h retVal = some m') : Unblockable (m'.sched.thread t) := by
  by_cases hr : (m.sched.thread t).sigRestorer = 0
  · rw [enterHandler_bare he hr]
    exact ⟨hu.mask,hu.kill,hu.stop⟩
  rw [(enterHandler_restorer he hr).2.1]
  refine ⟨?_,hu.kill,hu.stop⟩
  have hk : s ≠ SIGKILL := fun e => hs (e ▸ hu.kill)
  have hst : s ≠ SIGSTOP := fun e => hs (e ▸ hu.stop)
  obtain ⟨h1,h2⟩ := and_unblockable.mp hu.mask
  rw [and_unblockable]
  simp [getLsbD_or,h1,h2,getLsbD_sigBit s (by decide : SIGKILL < 64),
    getLsbD_sigBit s (by decide : SIGSTOP < 64),hk.symm,hst.symm]

variable {w : World} {cpu : Nat} {rip rflags rsp : BitVec 64}

@[simp] theorem trap_thread : (trap r t w cpu rip rflags rsp).sched.thread t =
    { r with state := .running, tmpRip := rip, tmpRflags := rflags, tmpRsp := rsp } := by
  simp [trap]

theorem trap_runs : ((trap r t w cpu rip rflags rsp).sched.cpu cpu).current = some t ∧
    ∀ d, ((trap r t w cpu rip rflags rsp).sched.cpu d).idle.isSome := by
  refine ⟨by simp [trap],fun d => ?_⟩
  simp only [trap,setCurrent_idle,modify_cpu]
  exact w.idle d

/-- A request in a respectful call leaves the two signals as they are, and the rest of
the record that a delivery needs. -/
theorem request_keeps {q : Request} {v : BitVec 64} {m' : State} (hu : Unblockable (a.m.sched.thread t))
    (hg : Respects t a (.call w cpu rip rflags rsp q))
    (h : q.run (trap (a.m.sched.thread t) t w cpu rip rflags rsp) cpu = some (v,m')) :
    m'.sched.cpu = (trap (a.m.sched.thread t) t w cpu rip rflags rsp).sched.cpu ∧
    Unblockable (m'.sched.thread t) ∧
    (m'.sched.thread t).sigPending = (a.m.sched.thread t).sigPending ∧
    (m'.sched.thread t).cr3 = (a.m.sched.thread t).cr3 := by
  have hcur : ((trap (a.m.sched.thread t) t w cpu rip rflags rsp).sched.cpu cpu).current = some t :=
    trap_runs.1
  cases q with
  | sigaction signum act oldact =>
    obtain ⟨hcpu,hsame | ⟨hact,new,restorer,hnew,hload⟩⟩ := sysRtSigaction_spec hcur h
    · rw [hsame,trap_thread]
      exact ⟨hcpu,⟨hu.mask,hu.kill,hu.stop⟩,rfl,rfl⟩
    rw [hnew,trap_thread]
    rw [trap_thread] at hload
    -- a slot of one of the two signals gets its default back
    have hslot : ∀ n, (n = SIGKILL ∨ n = SIGSTOP) → (a.m.sched.thread t).sigHandlers n = SIG_DFL →
        update (a.m.sched.thread t).sigHandlers signum.toNat new n = SIG_DFL := by
      intro n hn hdfl
      by_cases he : n = signum.toNat
      · subst he
        obtain ⟨x,hx,hzero⟩ := hload hdfl
        rw [update_self]
        exact hzero (hg hn hact x hx)
      · rwa [update_of_ne he]
    exact ⟨hcpu,⟨hu.mask,hslot _ (.inl rfl) hu.kill,hslot _ (.inr rfl) hu.stop⟩,rfl,rfl⟩
  | sigprocmask how set oldset =>
    obtain ⟨hcpu,hsame | ⟨mask,hmask,hclear⟩⟩ := sysRtSigprocmask_spec hcur h
    · rw [hsame,trap_thread]
      exact ⟨hcpu,⟨hu.mask,hu.kill,hu.stop⟩,rfl,rfl⟩
    · rw [hmask,trap_thread]
      exact ⟨hcpu,⟨hclear,hu.kill,hu.stop⟩,rfl,rfl⟩
  | sigreturn =>
    obtain ⟨hcpu,_,rip',rflags',rsp',mask,hthread,_,_,_,_,hmask⟩ := sysRtSigreturn_spec hcur h
    rw [trap_thread] at hthread hmask
    rw [hthread]
    exact ⟨hcpu,⟨hg mask hmask,hu.kill,hu.stop⟩,rfl,rfl⟩
  | other retVal =>
    cases h
    rw [trap_thread]
    exact ⟨rfl,⟨hu.mask,hu.kill,hu.stop⟩,rfl,rfl⟩

theorem schedDeliverSignal_cpu (s : Sched) (t : ThreadRef) (sig : Nat) :
    (s.schedDeliverSignal (some t) sig).cpu = s.cpu := by
  simp only [schedDeliverSignal,schedReadyLocked]
  split_ifs <;> first | rfl | (split <;> rfl)

theorem Inv.of_send (h : Inv t a) {sig : Nat} (hs : step t a (.send sig) = some a') : Inv t a' := by
  simp only [step] at hs
  split_ifs at hs with hend
  cases hs
  obtain ⟨_,hctx,hpend⟩ := schedDeliverSignal_spec a.m.sched t sig
  refine ⟨h.unblockable.of_context hctx,fun _ hk => ?_,h.survived,context_cr3 hctx ▸ h.cr3,?_⟩
  · rw [hpend,getLsbD_or,getLsbD_sigBit sig (by decide)]
    simp only [Bool.or_eq_true,beq_iff_eq] at hk
    rcases hk with hk | rfl
    · simp [h.due hend hk]
    · simp
  · rw [schedDeliverSignal_cpu]
    exact h.runs

theorem Inv.of_call (h : Inv t a) {q : Request} (hg : Respects t a (.call w cpu rip rflags rsp q))
    (hs : step t a (.call w cpu rip rflags rsp q) = some a') : Inv t a' := by
  simp only [step] at hs
  split_ifs at hs with huser
  obtain ⟨⟨v,m'⟩,hrun,rfl⟩ := map_eq_some_iff.mp hs
  obtain ⟨hcpu,hu,hpend,hcr3⟩ := request_keeps h.unblockable hg hrun
  refine ⟨hu,fun _ hk => ?_,h.survived,?_,fun d x hp => ?_⟩
  · rw [hpend]
    exact h.due (by rw [huser]; exact Phase.noConfusion) hk
  · rw [hcr3]
    exact h.cr3
  · cases hp
    rw [hcpu]
    exact trap_runs

theorem Inv.of_returned (h : Inv t a) {m : State} (hu : Unblockable (m.sched.thread t))
    (hcr3 : (m.sched.thread t).cr3 = (a.m.sched.thread t).cr3) (hk : a.killSent = false) :
    Inv t { m := m, survived := a.survived || a.killSent
            killSent := (m.sched.thread t).sigPending.getLsbD SIGKILL } := by
  refine ⟨hu,fun _ => id,?_,?_,fun _ _ hp => by cases hp⟩
  · rw [h.survived,hk]
    rfl
  · rw [hcr3]
    exact h.cr3

/-- The delivery that a `SIGKILL` waits for ends the thread. -/
theorem Inv.of_deliver (h : Inv t a) {away : Nat → Stay} (hg : Respects t a (.deliver away))
    (hs : step t a (.deliver away) = some a') : Inv t a' := by
  simp only [step] at hs
  split at hs
  · rename_i d v hphase
    obtain ⟨hcur,hidle⟩ := h.runs d v hphase
    obtain ⟨o,ho,hs⟩ := bind_eq_some_iff.mp hs
    have hpass := deliver_passed v away hcur h.cr3 (hidle d) (fun s => hidle _)
    generalize hsw : sweep (action (a.m.sched.thread t).sigHandlers)
      (arrivals away (a.m.sched.thread t).sigMask) 31 1 (deliverable (a.m.sched.thread t)) = x at hpass
    have hdue := fun hk => h.unblockable.kill_due
      (h.due (by rw [hphase]; exact Phase.noConfusion) hk) (arrivals away (a.m.sched.thread t).sigMask)
    generalize deliver a.m d t v away = o' at ho hpass
    cases hpass with
    | @killed s m1 hctx _ =>
      cases ho
      cases hs
      have hu := h.unblockable.of_context hctx
      refine ⟨?_,fun hend => absurd rfl hend,h.survived,?_,fun _ _ hp => by cases hp⟩
      · simp only [State.modify,modify_thread,if_pos]
        exact ⟨hu.mask,hu.kill,hu.stop⟩
      · simp only [State.modify,modify_thread,if_pos]
        rw [context_cr3 hctx]
        exact h.cr3
    | @caught s m1 hctx _ hign hdfl =>
      obtain ⟨m2,he,rfl⟩ := map_eq_some_iff.mp ho
      cases hs
      have hhand := context_sigHandlers hctx
      refine h.of_returned ((h.unblockable.of_context hctx).enterHandler (hhand ▸ hdfl) he)
        ((enterHandler_cr3 he).trans (context_cr3 hctx)) ?_
      obtain ⟨hs32,hdues,_,hmin⟩ := sweep_eq_error hsw
      by_contra hk
      obtain ⟨hd9,hq9⟩ := hdue (by simpa using hk)
      have hlt : s < SIGKILL := lt_of_le_of_ne (hmin _ hd9 hq9)
        (fun e => hdfl (e ▸ h.unblockable.kill))
      obtain ⟨i,hi1,his,hi,hidfl⟩ := hg (by simpa using hk) s hdues.le hlt (due_below hdues hlt)
        ⟨hign,hdfl⟩
      have := hmin i (.here hi1 hi) (action_quit_below (lt_trans his hlt) hidfl)
      omega
    | @through Q m1 hctx _ _ =>
      cases ho
      cases hs
      refine h.of_returned (h.unblockable.of_context hctx) (context_cr3 hctx) ?_
      by_contra hk
      obtain ⟨hd9,hq9⟩ := hdue (by simpa using hk)
      exact sweep_eq_ok hsw (by decide) hd9 hq9
  · cases hs

end Steps

/-- In every run whose steps all respect the two signals, they stay unblockable and a
`SIGKILL` ends the thread at its next delivery. -/
theorem kill_and_stop_unblockable (t : ThreadRef) (m : State) (es : List Event)
    (hu : Unblockable (m.sched.thread t)) (hcr3 : (m.sched.thread t).cr3 ≠ 0)
    (hg : Along (step t) (Respects t) { m := m } es) : Always (step t) (Safe t) { m := m } es := by
  have hinv : Inv t { m := m } := 
    ⟨hu,fun _ hk => (nomatch hk),rfl,hcr3,fun _ _ hp => (nomatch hp)⟩
  refine always_of_along (fun a (h : Inv t a) => ⟨h.unblockable,h.survived⟩) ?_ _ es hinv hg
  intro a e a' h hg hs
  cases e with
  | send sig => exact h.of_send hs
  | call w cpu rip rflags rsp q => exact h.of_call hg hs
  | deliver away => exact h.of_deliver hg hs

/-- A process whose memory holds the same word everywhere. -/
def uniform (w : BitVec 32) : State where
  sched := {
    thread := update (fun _ => {}) (.heap 1) { cr3 := 1, state := .running }
    cpu := fun c => { idle := some (.idle c) } }
  mem := fun _ _ => some w

def uniformWorld (w : BitVec 32) : World := ⟨uniform w,fun _ => rfl⟩

/-- Somebody kills the process while it makes a system call. -/
def killRun : List Event :=
  [.call (uniformWorld 0) 0 0 0 0 (.sigprocmask SIG_SETMASK 8 0),.send SIGKILL,.deliver continued]

theorem kill_and_stop_unblockable_killRun :
    Always (step (.heap 1)) (Safe (.heap 1)) { m := uniform 0 } killRun ∧
      (exec (step (.heap 1)) { m := uniform 0 } killRun).map Life.phase = some .ended := by
  refine ⟨kill_and_stop_unblockable (.heap 1) (uniform 0) killRun ⟨rfl,rfl,rfl⟩ (by decide) ?_,rfl⟩
  refine .cons trivial rfl (.cons trivial rfl (.cons ?_ rfl trivial))
  intro _ j _ hj hd _
  have hbit : (sigBit SIGKILL).getLsbD j = true := (Bool.and_eq_true_iff.mp hd).1
  rw [getLsbD_sigBit _ (lt_trans hj (by decide))] at hbit
  exact absurd (of_decide_eq_true hbit) (ne_of_lt hj)

/-- `rt_sigaction` gives `SIGKILL` a handler as it does any other signal. -/
theorem sigaction_catches_kill :
    ¬ ∀ (t : ThreadRef) (m : State) (es : List Event), Unblockable (m.sched.thread t) →
      (m.sched.thread t).cr3 ≠ 0 → Always (step t) (Safe t) { m := m } es := by
  intro h
  have hrun := h (.heap 1) (uniform 1) [.call (uniformWorld 1) 0 0 0 0 (.sigaction 9 8 0)] ⟨rfl,rfl,rfl⟩
    (by decide)
  have hsafe := hrun.2 _ rfl
  exact absurd hsafe.1.kill (by decide)

-- a forged frame blocks both signals
example : ((sysRtSigreturn (trap ((uniform (-1)).sched.thread (.heap 1)) (.heap 1)
    (uniformWorld (-1)) 0 0 0 0) 0).map fun p => (p.2.sched.thread (.heap 1)).sigMask) =
      some (BitVec.allOnes 64) := rfl

end Lariat.Kernel.Signal
