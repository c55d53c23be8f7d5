import Lariat.Foundation.Sweep
import Lariat.Kernel.SignalCalls

/-! Completeness of signal delivery: the pass of `signal_deliver` over the signal
numbers, and which signals it leaves behind when stop signals park it on the way. -/
namespace Lariat.Kernel.Signal
open Foundation.Runs Foundation.Sweep Sched Futex List Option BitVec

/-- A thread without the two fields that parking and waking change. -/
def core (r : Thread) : Thread := { r with state := .ready, waitQ := none }

/-- Threads have been parked or woken, and CPUs switched; nothing else has changed. -/
structure Moved (s s' : Sched) : Prop where
  thread : ∀ u, core (s'.thread u) = core (s.thread u)
  idle : ∀ d, (s'.cpu d).idle = (s.cpu d).idle

namespace Moved

variable {s s' s'' : Sched} {c : Nat} {t : ThreadRef}

theorem refl (s : Sched) : Moved s s := ⟨fun _ => rfl,fun _ => rfl⟩

section Steps

variable (h : Moved s s')
include h

theorem modify {f : Thread → Thread} (hf : core (f (s'.thread t)) = core (s'.thread t)) :
    Moved s (s'.modify t f) :=
  ⟨fun u => (modify_field core s' t u hf).trans (h.thread u),h.idle⟩

theorem setQueue (l : ListRef) (ts : List ThreadRef) : Moved s (s'.setQueue l ts) :=
  ⟨h.thread,h.idle⟩

theorem queueRemove (l : ListRef) (t : ThreadRef) : Moved s (s'.queueRemove l t) :=
  ⟨h.thread,h.idle⟩

theorem setCurrent (c : Nat) (t : ThreadRef) : Moved s (s'.setCurrent c t) :=
  ⟨h.thread,fun d => (setCurrent_idle s' c d t).trans (h.idle d)⟩

theorem makeReady (t : ThreadRef) : Moved s (s'.makeReady t) :=
  (h.modify rfl).setQueue _ _

theorem switchTo (c : Nat) (t : ThreadRef) : Moved s (s'.switchTo c t) :=
  (h.modify rfl).setCurrent c t

theorem schedReadyLocked (t : ThreadRef) : Moved s (s'.schedReadyLocked t) := by
  unfold Sched.schedReadyLocked
  split
  · split
    · exact ((h.queueRemove _ _).modify rfl).makeReady t
    · exact (h.queueRemove _ _).makeReady t
  · exact h

theorem wakeWaitingParent (t : ThreadRef) : Moved s (s'.wakeWaitingParent t) := by
  unfold Sched.wakeWaitingParent
  split
  · exact h
  · split
    · exact h.makeReady _
    · exact h

/-- A CPU with an idle thread always finds a thread to run. -/
theorem pickNext (hi : (s.cpu c).idle.isSome) :
    ∃ next, (s'.pickNext c).1 = some next ∧ Moved s (s'.pickNext c).2 := by
  obtain ⟨i,hi⟩ := isSome_iff_exists.mp hi
  unfold Sched.pickNext queuePop
  cases s'.queue .readyQueue with
  | nil => exact ⟨i,(h.idle c).trans hi,h⟩
  | cons u us => exact ⟨u,rfl,h.setQueue _ _⟩

theorem schedWaitLocked (q : WaitQueue) (hi : (s.cpu c).idle.isSome) :
    ∃ r, s'.schedWaitLocked c q = some r ∧ Moved s r := by
  unfold Sched.schedWaitLocked
  split
  · exact ⟨s',rfl,h⟩
  rename_i cur _
  split
  · exact ⟨s',rfl,h⟩
  have hpark : Moved s ((s'.modify cur fun r => { r with
      state := .blocked, waitQ := some q }).queuePush (.waitQueue q) cur) :=
    (h.modify rfl).setQueue _ _
  obtain ⟨next,hnext,hp⟩ := hpark.pickNext hi
  dsimp only
  rw [hnext]
  split
  · exact ⟨_,rfl,((hp.queueRemove _ _).modify rfl).modify rfl⟩
  · exact ⟨_,rfl,hp.switchTo c next⟩

theorem schedStopCurrent (hi : (s.cpu c).idle.isSome) :
    ∃ r, s'.schedStopCurrent c = some r ∧ Moved s r := by
  unfold Sched.schedStopCurrent
  split
  · exact ⟨s',rfl,h⟩
  · split
    · exact ⟨s',rfl,h⟩
    · exact (h.wakeWaitingParent _).schedWaitLocked .stopWq hi

theorem pickUp (c : Nat) (t : ThreadRef) : Moved s (pickUp s' c t) :=
  (h.setQueue _ _).switchTo c t

end Steps

end Moved

theorem getLsbD_sigBit (s : Nat) {k : Nat} (hk : k < 64) :
    (sigBit s).getLsbD k = decide (k = s) := by
  rw [sigBit,getLsbD_shiftLeft]
  rw [Bool.eq_iff_iff]
  simp only [hk,getLsbD_one,decide_true,Bool.true_and,Bool.and_eq_true,Bool.not_eq_true',
    decide_eq_false_iff_not,decide_eq_true_eq]
  omega

theorem and_sigBit_eq_zero {x : BitVec 64} {s : Nat} (hs : s < 64) :
    x &&& sigBit s = 0 ↔ x.getLsbD s = false := by
  constructor
  · intro h
    have hb := congrArg (BitVec.getLsbD · s) h
    simpa [getLsbD_sigBit s hs] using hb
  · intro h
    apply eq_of_getLsbD_eq
    intro k hk
    by_cases hks : k = s
    · simp [hks,h]
    · simp [getLsbD_sigBit s hk,hks]

theorem getLsbD_clear (x : BitVec 64) (s k : Nat) :
    (x &&& ~~~sigBit s).getLsbD k = (x.getLsbD k && k != s) := by
  rw [getLsbD_and,getLsbD_not]
  by_cases hk : k < 64
  · rw [getLsbD_sigBit s hk,decide_eq_true hk,Bool.true_and]
    rfl
  · rw [getLsbD_of_ge x k (by omega),Bool.false_and,Bool.false_and]

/-- A thread without its pending signals and its stop, on top of `core`. -/
def context (r : Thread) : Thread :=
  { core r with sigPending := 0, stopped := false, stopReported := false, stopSig := 0 }

theorem context_of_core {r r' : Thread} (h : core r' = core r) : context r' = context r :=
  congrArg (fun r : Thread => { r with
    sigPending := 0, stopped := false, stopReported := false, stopSig := 0 }) h

theorem pending_of_core {r r' : Thread} (h : core r' = core r) : r'.sigPending = r.sigPending :=
  (congrArg Thread.sigPending h :)

section Context

variable {r r' : Thread} (h : context r' = context r)
include h

theorem context_tmpRsp : r'.tmpRsp = r.tmpRsp := (congrArg Thread.tmpRsp h :)

theorem context_cr3 : r'.cr3 = r.cr3 := (congrArg Thread.cr3 h :)

theorem context_sigMask : r'.sigMask = r.sigMask := (congrArg Thread.sigMask h :)

theorem context_sigHandlers : r'.sigHandlers = r.sigHandlers := (congrArg Thread.sigHandlers h :)

end Context

/-- What a signal does to its target, whatever the target is doing. -/
theorem schedDeliverSignal_spec (s : Sched) (t : ThreadRef) (sig : Nat) :
    (∀ d, ((s.schedDeliverSignal (some t) sig).cpu d).idle = (s.cpu d).idle) ∧
    context ((s.schedDeliverSignal (some t) sig).thread t) = context (s.thread t) ∧
    ((s.schedDeliverSignal (some t) sig).thread t).sigPending =
      (s.thread t).sigPending ||| sigBit sig := by
  unfold schedDeliverSignal
  dsimp only
  split
  all_goals
    refine ⟨((Moved.refl _).schedReadyLocked t).idle,
      (context_of_core (((Moved.refl _).schedReadyLocked t).thread t)).trans ?_,
      (pending_of_core (((Moved.refl _).schedReadyLocked t).thread t)).trans ?_⟩
    · exact modify_field context s t t rfl
    · simp

theorem arrive_spec (sigs : List Nat) (s : Sched) (t : ThreadRef) :
    (∀ d, ((arrive s t sigs).cpu d).idle = (s.cpu d).idle) ∧
    context ((arrive s t sigs).thread t) = context (s.thread t) ∧
    ∀ k < 64, ((arrive s t sigs).thread t).sigPending.getLsbD k =
      ((s.thread t).sigPending.getLsbD k || sigs.contains k) := by
  induction sigs generalizing s with
  | nil => exact ⟨fun _ => rfl,rfl,fun k _ => by simp [arrive]⟩
  | cons sig sigs ih =>
    obtain ⟨hi,hc,hp⟩ := schedDeliverSignal_spec s t sig
    obtain ⟨hi',hc',hp'⟩ := ih (s.schedDeliverSignal (some t) sig)
    refine ⟨fun d => (hi' d).trans (hi d),hc'.trans hc,fun k hk => ?_⟩
    have := hp' k hk
    rw [hp,getLsbD_or,getLsbD_sigBit sig hk] at this
    rw [contains_cons,← Bool.or_assoc]
    exact this

/-- A signal that the pass takes up when it gets to it. -/
def deliverable (r : Thread) (k : Nat) : Bool := r.sigPending.getLsbD k && !r.sigMask.getLsbD k

/-- What `signal_deliver` does with a signal under a handler table. -/
def action (handlers : Nat → BitVec 64) (s : Nat) : Act :=
  if handlers s = SIG_IGN then .skip
  else if handlers s = SIG_DFL then
    if s = SIGCHLD ∨ s = SIGCONT then .skip
    else if s = SIGTSTP ∨ s = SIGSTOP then .pause
    else .quit
  else .quit

/-- The unblocked signals that arrive while signal `n` has the thread stopped. -/
def arrivals (away : Nat → Stay) (mask : BitVec 64) (n k : Nat) : Bool :=
  decide (k < 64) && (away n).signals.contains k && !mask.getLsbD k

/-- How the call ends, by how the pass over the deliverable signals does. -/
inductive Passed (t : ThreadRef) (r : Thread) (mem : Nat → BitVec 64 → Option (BitVec 32))
    (retVal : BitVec 64) : Except Nat (Nat → Bool) → Option Outcome → Prop where
  | through {Q : Nat → Bool} {m : State} : context (m.sched.thread t) = context r →
      m.mem = mem → deliverable (m.sched.thread t) = Q →
      Passed t r mem retVal (.ok Q) (some (.returns retVal m))
  | killed {s : Nat} {m : State} : context (m.sched.thread t) = context r → r.sigHandlers s = SIG_DFL →
      Passed t r mem retVal (.error s)
        (some (.exits (m.modify t fun r => { r with exitCode := BitVec.ofNat 32 (128+s) })))
  | caught {s : Nat} {m : State} : context (m.sched.thread t) = context r → m.mem = mem →
      r.sigHandlers s ≠ SIG_IGN → r.sigHandlers s ≠ SIG_DFL →
      Passed t r mem retVal (.error s)
        ((enterHandler m t s (r.sigHandlers s) retVal).map (.returns retVal))

section Loop

variable {t : ThreadRef} {r : Thread} {retVal : BitVec 64} {away : Nat → Stay}

theorem stay_spec (m : State) (y : Stay) :
    (∀ d, ((stay m t y).sched.cpu d).idle = (m.sched.cpu d).idle) ∧
    ((stay m t y).sched.cpu y.cpu).current = some t ∧
    context ((stay m t y).sched.thread t) = context (m.sched.thread t) ∧
    ∀ k < 64, ((stay m t y).sched.thread t).sigPending.getLsbD k =
      ((m.sched.thread t).sigPending.getLsbD k || y.signals.contains k) := by
  obtain ⟨hi,hc,hp⟩ := arrive_spec y.signals m.sched t
  have h := (Moved.refl (arrive m.sched t y.signals)).pickUp y.cpu t
  refine ⟨fun d => (h.idle d).trans (hi d),?_,(context_of_core (h.thread t)).trans hc,fun k hk => ?_⟩
  · simp [stay,pickUp,switchTo]
  · exact (congrArg (·.getLsbD k) (pending_of_core (h.thread t))).trans (hp k hk)

theorem deliverable_clear (r : Thread) (a : Nat) :
    deliverable { r with sigPending := r.sigPending &&& ~~~sigBit a } =
      fun k => deliverable r k && k != a := by
  funext k
  simp only [deliverable,getLsbD_clear]
  cases r.sigPending.getLsbD k <;> cases r.sigMask.getLsbD k <;> simp

variable {h : Nat → BitVec 64} {s c : Nat}

theorem action_skip (ha : action h s = .skip) :
    h s = SIG_IGN ∨ h s ≠ SIG_IGN ∧ h s = SIG_DFL ∧ (s = SIGCHLD ∨ s = SIGCONT) := by
  unfold action at ha
  split_ifs at ha with h1 h2 h3 h4
  · exact .inl h1
  · exact .inr ⟨h1,h2,h3⟩

theorem action_pause (ha : action h s = .pause) :
    h s ≠ SIG_IGN ∧ h s = SIG_DFL ∧ ¬ (s = SIGCHLD ∨ s = SIGCONT) ∧ (s = SIGTSTP ∨ s = SIGSTOP) := by
  unfold action at ha
  split_ifs at ha with h1 h2 h3 h4
  exact ⟨h1,h2,h3,h4⟩

theorem action_quit (ha : action h s = .quit) :
    h s ≠ SIG_IGN ∧ h s = SIG_DFL ∧ ¬ (s = SIGCHLD ∨ s = SIGCONT) ∧ ¬ (s = SIGTSTP ∨ s = SIGSTOP) ∨
      h s ≠ SIG_IGN ∧ h s ≠ SIG_DFL := by
  unfold action at ha
  split_ifs at ha with h1 h2 h3 h4
  · exact .inl ⟨h1,h2,h3,h4⟩
  · exact .inr ⟨h1,h2⟩

def markStopped (m : State) (t : ThreadRef) (a : Nat) : State :=
  m.modify t fun r => { r with stopped := true, stopReported := false, stopSig := a }

/-- The branch of the loop that a stop signal takes. -/
def park (m : State) (c : Nat) (t : ThreadRef) (a : Nat) : Option Outcome :=
  ((markStopped m t a).sched.schedStopCurrent c).map fun sched =>
    .stops a { markStopped m t a with sched := sched, word := (markStopped m t a).sched.tag c m.word none }

theorem park_spec (a : Nat) (m : State) (hi : (m.sched.cpu c).idle.isSome) :
    ∃ m', park m c t a = some (.stops a m') ∧
      context (m'.sched.thread t) = context (m.sched.thread t) ∧
      (m'.sched.thread t).sigPending = (m.sched.thread t).sigPending ∧ m'.mem = m.mem ∧
      ∀ d, (m'.sched.cpu d).idle = (m.sched.cpu d).idle := by
  have hctx : context ((markStopped m t a).sched.thread t) = context (m.sched.thread t) := by
    simp only [markStopped,State.modify]
    exact modify_field context m.sched t t rfl
  have hpend : ((markStopped m t a).sched.thread t).sigPending = (m.sched.thread t).sigPending := by
    simp only [markStopped,State.modify]
    exact modify_field Thread.sigPending m.sched t t rfl
  obtain ⟨s',hstop,hmv⟩ := (Moved.refl (markStopped m t a).sched).schedStopCurrent hi
  refine ⟨{ markStopped m t a with sched := s', word := (markStopped m t a).sched.tag c m.word none },
    by rw [park,hstop]; rfl,(context_of_core (hmv.thread t)).trans hctx,?_,rfl,hmv.idle⟩
  exact (pending_of_core (hmv.thread t)).trans hpend

/-- The stop itself and the time it lasts: the pass goes on behind the stop signal, and
the signals that have arrived are added to those it may still meet. -/
theorem park_resumes (a g : Nat) (m : State) (hi : (m.sched.cpu c).idle.isSome) :
    ∃ m', (park m c t a).bind (goOn away t retVal (g+1)) =
      (deliverLoop (away a).cpu t retVal (List.range' (a+1) (31-a)) m').bind (goOn away t retVal g) ∧
    context (m'.sched.thread t) = context (m.sched.thread t) ∧ m'.mem = m.mem ∧
    (∀ k, deliverable (m'.sched.thread t) k =
      (deliverable (m.sched.thread t) k || arrivals away (m.sched.thread t).sigMask a k)) ∧
    ∀ d, (m'.sched.cpu d).idle = (m.sched.cpu d).idle := by
  obtain ⟨m1,hpark,hctx1,hpend1,hmem1,hidle1⟩ := park_spec a m hi
  obtain ⟨hidle2,hcur2,hctx2,hpend2⟩ := stay_spec m1 (away a)
  let m3 := (stay m1 t (away a)).modify t fun r => { r with stopped := false }
  have hctx3 : context (m3.sched.thread t) = context (m.sched.thread t) := by
    refine Eq.trans ?_ (hctx2.trans hctx1)
    simp only [m3,State.modify]
    exact modify_field context (stay m1 t (away a)).sched t t rfl
  have hpend3 : (m3.sched.thread t).sigPending = ((stay m1 t (away a)).sched.thread t).sigPending := by
    simp only [m3,State.modify]
    exact modify_field Thread.sigPending (stay m1 t (away a)).sched t t rfl
  have hmask3 := context_sigMask hctx3
  refine ⟨m3,?_,hctx3,hmem1,fun k => ?_,fun d => (hidle2 d).trans (hidle1 d)⟩
  · rw [hpark,bind_some,goOn,signalResume,hcur2]
  · simp only [deliverable,arrivals,hmask3,hpend3]
    by_cases hk : k < 64
    · rw [hpend2 k hk,hpend1,decide_eq_true hk,Bool.true_and,Bool.and_or_distrib_right]
    · simp [hk,getLsbD_of_ge _ k (Nat.not_lt.mp hk)]

/-- The pass of `signal_deliver`, stops included, is a sweep of the deliverable signals. -/
theorem loop_passed {n a f : Nat} {P : Nat → Bool} {m : State}
    {mem : Nat → BitVec 64 → Option (BitVec 32)} (hn : a+n = 32) (hf : n ≤ f)
    (hctx : context (m.sched.thread t) = context r) (hmem : m.mem = mem)
    (hP : deliverable (m.sched.thread t) = P) (hi : (m.sched.cpu c).idle.isSome)
    (hy : ∀ s, (m.sched.cpu (away s).cpu).idle.isSome) :
    Passed t r mem retVal (sweep (action r.sigHandlers) (arrivals away r.sigMask) n a P)
      ((deliverLoop c t retVal (List.range' a n) m).bind (goOn away t retVal f)) := by
  induction n generalizing a f c m P with
  | zero =>
    have hgo : goOn away t retVal f (.returns retVal m) = some (.returns retVal m) := by
      cases f <;> rfl
    rw [range'_zero,deliverLoop,bind_some,hgo]
    exact .through hctx hmem hP
  | succ n ih =>
    have hmask := context_sigMask hctx
    have hhand := context_sigHandlers hctx
    have ha : P a = ((m.sched.thread t).sigPending.getLsbD a && !r.sigMask.getLsbD a) := by
      rw [← hP,deliverable,hmask]
    have hpass := fun {m : State} {P : Nat → Bool} {f c : Nat} (hf : n ≤ f) => ih (a := a+1)
      (c := c) (P := P) (m := m) (by omega) hf
    rw [range'_succ,deliverLoop,sweep]
    by_cases hpend : (m.sched.thread t).sigPending &&& sigBit a = 0
    · have hbit := (and_sigBit_eq_zero (by omega : a < 64)).mp hpend
      rw [if_pos hpend,if_neg (by rw [ha,hbit]; simp)]
      exact hpass (by omega) hctx hmem hP hi hy
    have hbit : (m.sched.thread t).sigPending.getLsbD a = true := by
      simpa using mt (and_sigBit_eq_zero (by omega : a < 64)).mpr hpend
    rw [if_neg hpend]
    by_cases hblk : (m.sched.thread t).sigMask &&& sigBit a ≠ 0
    · have hb : r.sigMask.getLsbD a = true := by
        rw [← hmask]
        simpa using mt (and_sigBit_eq_zero (by omega : a < 64)).mpr hblk
      rw [if_pos hblk,if_neg (by rw [ha,hb]; simp)]
      exact hpass (by omega) hctx hmem hP hi hy
    have hb : r.sigMask.getLsbD a = false := by
      rw [← hmask]
      exact (and_sigBit_eq_zero (by omega : a < 64)).mp (not_not.mp hblk)
    rw [if_neg hblk,if_pos (by rw [ha,hbit,hb]; rfl)]
    -- the signal is taken up: its pending bit goes
    let m1 := m.modify t fun r => { r with sigPending := r.sigPending &&& ~~~sigBit a }
    have hthread : m1.sched.thread t = { m.sched.thread t with
        sigPending := (m.sched.thread t).sigPending &&& ~~~sigBit a } := by
      simp [m1,State.modify]
    have hctx1 : context (m1.sched.thread t) = context r := by rw [hthread]; exact hctx
    have hP1 : deliverable (m1.sched.thread t) = fun k => P k && k != a := by
      rw [hthread,deliverable_clear,hP]
    rw [hhand]
    cases hact : action r.sigHandlers a with
    | skip =>
      rcases action_skip hact with hign | ⟨hign,hdfl,hs⟩
      · rw [if_pos hign]
        exact hpass (by omega) hctx1 hmem hP1 hi hy
      · rw [if_neg hign,if_pos hdfl,if_pos hs]
        exact hpass (by omega) hctx1 hmem hP1 hi hy
    | quit =>
      rcases action_quit hact with ⟨hign,hdfl,hs,hst⟩ | ⟨hign,hdfl⟩
      · rw [if_neg hign,if_pos hdfl,if_neg hs,if_neg hst]
        cases f <;> exact .killed hctx1 hdfl
      rw [if_neg hign,if_neg hdfl]
      have hgo : ∀ o : Option State, (o.map (Outcome.returns retVal)).bind (goOn away t retVal f) =
          o.map (.returns retVal) := by
        intro o
        cases o <;> cases f <;> rfl
      rw [hgo]
      exact .caught hctx1 hmem hign hdfl
    | pause =>
      obtain ⟨hign,hdfl,hs,hst⟩ := action_pause hact
      rw [if_neg hign,if_pos hdfl,if_neg hs,if_pos hst]
      obtain ⟨g,rfl⟩ : ∃ g, f = g+1 := ⟨f-1,by omega⟩
      obtain ⟨m2,hres,hctx2,hmem2,hdel,hidle⟩ := park_resumes a g m1 hi
      change Passed t r mem retVal _ ((park m1 c t a).bind _)
      rw [hres,show 31-a = n by omega]
      have hmask1 := context_sigMask hctx1
      refine hpass (by omega) (hctx2.trans hctx1) (hmem2.trans hmem) ?_ (by rw [hidle]; exact hy a)
        (fun s => by rw [hidle]; exact hy s)
      funext k
      rw [hdel,hmask1,hP1]

end Loop

/-- The signals whose default action is to terminate or to stop the process. -/
def Lethal (k : Nat) : Prop := 1 ≤ k ∧ k < 32 ∧ k ≠ SIGCHLD ∧ k ≠ SIGCONT

instance (k : Nat) : Decidable (Lethal k) := inferInstanceAs (Decidable (_ ∧ _))

/-- When the call returns to user mode without a handler frame, no unblocked signal with
such a default action and the default disposition is pending. -/
def Complete (m : State) (c : Nat) (t : ThreadRef) (retVal : BitVec 64) (away : Nat → Stay) : Prop :=
  ∀ v m', deliver m c t retVal away = some (.returns v m') →
    (m'.sched.thread t).tmpRsp = (m.sched.thread t).tmpRsp →
    ∀ k, Lethal k → deliverable (m'.sched.thread t) k → (m'.sched.thread t).sigHandlers k ≠ SIG_DFL

/-- The signals that the pass meets, those that arrive at its stops included. -/
def Meets (r : Thread) (away : Nat → Stay) (k : Nat) : Prop :=
  k < 32 ∧ Due (action r.sigHandlers) (arrivals away r.sigMask) 1 (deliverable r) k

/-- Some signal the pass meets kills the thread or has a handler, or no lethal signal
arrives at a stop by a signal of the same or a higher number. -/
def DeliveryOk (r : Thread) (away : Nat → Stay) : Prop :=
  (∃ k, Meets r away k ∧ action r.sigHandlers k = .quit) ∨
    ∀ n k, Meets r away n → action r.sigHandlers n = .pause → arrivals away r.sigMask n k →
      k ≤ n → Lethal k → r.sigHandlers k ≠ SIG_DFL

theorem deliver_passed {m : State} {c : Nat} {t : ThreadRef} (retVal : BitVec 64) (away : Nat → Stay)
    (hcur : (m.sched.cpu c).current = some t) (hcr3 : (m.sched.thread t).cr3 ≠ 0)
    (hi : (m.sched.cpu c).idle.isSome) (hy : ∀ s, (m.sched.cpu (away s).cpu).idle.isSome) :
    Passed t (m.sched.thread t) m.mem retVal (sweep (action (m.sched.thread t).sigHandlers)
      (arrivals away (m.sched.thread t).sigMask) 31 1 (deliverable (m.sched.thread t)))
      (deliver m c t retVal away) := by
  rw [deliver,signalDeliver,hcur]
  dsimp only
  by_cases hp : (m.sched.thread t).sigPending = 0
  · have hnone : deliverable (m.sched.thread t) = fun _ => false := by
      funext k
      simp [deliverable,hp]
    rw [if_pos (.inr hp),hnone,sweep_empty]
    exact .through rfl rfl hnone
  · rw [if_neg (not_or.mpr ⟨hcr3,hp⟩)]
    exact loop_passed rfl (le_refl 31) rfl rfl rfl hi hy

/-- Delivery is complete exactly when nothing lethal arrives behind a stop, or when the
pass does not get to its end. -/
theorem signal_delivery_complete_iff (m : State) (c : Nat) (t : ThreadRef) (retVal : BitVec 64)
    (away : Nat → Stay) (hcur : (m.sched.cpu c).current = some t)
    (hcr3 : (m.sched.thread t).cr3 ≠ 0) (hi : (m.sched.cpu c).idle.isSome)
    (hy : ∀ s, (m.sched.cpu (away s).cpu).idle.isSome) :
    Complete m c t retVal away ↔ DeliveryOk (m.sched.thread t) away := by
  have hpass := deliver_passed retVal away hcur hcr3 hi hy
  unfold Complete
  generalize ho : deliver m c t retVal away = o at hpass ⊢
  generalize hsw : sweep (action (m.sched.thread t).sigHandlers)
    (arrivals away (m.sched.thread t).sigMask) 31 1 (deliverable (m.sched.thread t)) = w at hpass
  cases hpass with
  | killed hctx hdfl =>
    obtain ⟨hs,hd,hq,_⟩ := sweep_eq_error hsw
    exact ⟨fun _ => .inl ⟨_,⟨hs,hd⟩,hq⟩,fun _ v m' h => by cases h⟩
  | @caught s m1 hctx hmem hign hdfl =>
    obtain ⟨hs,hd,hq,_⟩ := sweep_eq_error hsw
    refine ⟨fun _ => .inl ⟨_,⟨hs,hd⟩,hq⟩,fun _ v m' h hrsp => ?_⟩
    obtain ⟨m2,he,hm⟩ := map_eq_some_iff.mp h
    cases hm
    exact absurd (hrsp.trans (context_tmpRsp hctx).symm) (enterHandler_rsp he)
  | @through Q m1 hctx hmem hQ =>
    have hhand := context_sigHandlers hctx
    have hrsp := context_tmpRsp hctx
    constructor
    · intro hc
      refine .inr fun n k hn hs hr hle hlet => ?_
      have hq : Q k := (sweep_left hsw k).mpr (.inr ⟨n,hn.1,hn.2,hs,hr,.inl hle⟩)
      rw [← hhand]
      exact hc retVal m1 rfl hrsp k hlet (by rw [hQ]; exact hq)
    · rintro (⟨j,hj,hq⟩ | hlate) v m' h hrsp' k hlet hk
      · exact absurd hq (sweep_eq_ok hsw hj.1 hj.2)
      · cases h
        rw [hQ] at hk
        rw [hhand]
        rcases (sweep_left hsw k).mp hk with ⟨_,hk'⟩ | ⟨n,hn,hd,hs,hr,hle⟩
        · exact absurd hlet (by unfold Lethal; omega)
        · exact hlate n k ⟨hn,hd⟩ hs hr (by unfold Lethal at hlet; omega) hlet

/-- A process that has just been sent `SIGSTOP`, in a system call on CPU 0. -/
def stopSent : State where
  sched := {
    thread := Function.update (fun _ => {}) (.heap 1)
      { cr3 := 1, state := .running, sigPending := sigBit SIGSTOP }
    cpu := Function.update (fun _ => {}) 0 { current := some (.heap 1), idle := some (.idle 0) } }

/-- It is continued, and nothing else happens to it. -/
def continued : Nat → Stay := fun _ => { first := SIGCONT }

theorem signal_delivery_complete_continued : Complete stopSent 0 (.heap 1) 0 continued := by
  refine (signal_delivery_complete_iff stopSent 0 (.heap 1) 0 continued rfl (by decide) rfl
    (fun _ => rfl)).mpr (.inr fun n k _ _ hr _ hlet => ?_)
  have hk : k = SIGCONT := by
    simp only [arrivals,continued,Stay.signals,contains_cons,contains_nil,Bool.or_false,
      Bool.and_eq_true,beq_iff_eq] at hr
    exact hr.1.2
  exact absurd hk hlet.2.2.2

/-- A `SIGKILL` sent to the stopped process wakes it, but the pass has already left
number 9 behind: the process returns to user mode with the signal pending. -/
theorem kill_behind_stop_undelivered :
    ¬ ∀ (m : State) (c : Nat) (t : ThreadRef) (retVal : BitVec 64) (away : Nat → Stay),
      (m.sched.cpu c).current = some t → (m.sched.thread t).cr3 ≠ 0 →
      (m.sched.cpu c).idle.isSome → (∀ s, (m.sched.cpu (away s).cpu).idle.isSome) →
      Complete m c t retVal away := by
  intro h
  exact h stopSent 0 (.heap 1) 0 (fun _ => { first := SIGKILL }) rfl (by decide) rfl (fun _ => rfl)
    0 _ rfl rfl SIGKILL (by decide) rfl rfl

end Lariat.Kernel.Signal
