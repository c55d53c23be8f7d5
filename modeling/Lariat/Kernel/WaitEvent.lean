import Lariat.Kernel.Quiet

/-! `WAIT_EVENT` and `WAIT_EVENT_INTR` on one wait queue with one condition, against
any number of producers, waiters and CPUs. -/
namespace Lariat.Kernel.WaitEvent
open Foundation.Runs Sched List Option

/-- `intr` marks the threads whose last block was in `WAIT_EVENT_INTR`. -/
structure State where
  sched : Sched
  cond : Bool := false
  intr : ThreadRef → Bool := fun _ => false

/-- One pass of a waiting loop is one event: the check and the block are under the
lock. `setSignals` is a thread changing its own pending and blocked masks. -/
inductive Event where
  | sched (e : Sched.Event)
  | setCond
  | clearCond
  | waitEvent (c : Nat)
  | waitEventIntr (c : Nat)
  | setSignals (c : Nat) (pending mask : BitVec 64)

def State.wait (m : State) (q : WaitQueue) (c : Nat) (b : Bool) : Option State :=
  (m.sched.schedWaitLocked c q).map fun s => { m with sched := s, intr := m.sched.tag c m.intr b }

/-- Only the two macros wait on `q`; every other scheduler event is open. -/
def step (q : WaitQueue) (m : State) : Event → Option State
  | .sched e =>
    if e.queue ≠ some q then (m.sched.step e).map fun s =>
      { m with sched := s, intr := m.sched.tagCaller e m.intr false }
    else none
  | .setCond => some { m with cond := true }
  | .clearCond => some { m with cond := false }
  | .waitEvent c => if m.cond then some m else m.wait q c false
  | .waitEventIntr c =>
    if m.cond then some m
    else if m.sched.signalPendingOn c then some m
    else m.wait q c true
  | .setSignals c pending mask => (m.sched.cpu c).current.map fun t => { m with
      sched := m.sched.modify t fun r => { r with sigPending := pending, sigMask := mask } }

def boot (isBsp : Nat → Bool) : State := { sched := Sched.boot isBsp }

def NoneBlocked (q : WaitQueue) (m : State) : Prop :=
  m.sched.queue (.waitQueue q) = [] ∧
    ∀ t, ¬ ((m.sched.thread t).state = .blocked ∧ (m.sched.thread t).waitQ = some q)

/-- Nobody sits in `WAIT_EVENT_INTR` with a signal to take. -/
def IntrSound (m : State) : Prop :=
  ∀ t, m.intr t = true → (m.sched.thread t).state = .blocked →
    m.sched.schedSignalPending t = false

structure Inv (m : State) : Prop where
  consistent : m.sched.Consistent True
  intr : IntrSound m

variable {q : WaitQueue} {m m' : State} {e : Event}

theorem pending_congr {s s' : Sched} {t : ThreadRef}
    (h : signals (s'.thread t) = signals (s.thread t)) :
    s'.schedSignalPending t = s.schedSignalPending t := by
  simp only [signals,Prod.mk.injEq] at h
  simp only [schedSignalPending,h]

private theorem wait_signals {s s' : Sched} {c : Nat} (hs : s.Consistent True)
    (h : s.schedWaitLocked c q = some s') (t : ThreadRef) :
    signals (s'.thread t) = signals (s.thread t) := by
  obtain ⟨rfl,_⟩ | ⟨cur,_,_,_,rfl⟩ := hs.schedWaitLocked_cases h
  · rfl
  · rw [dispatch_field signals (fun _ _ => rfl),queuePush,setQueue_thread,
      modify_field signals s cur t rfl]

theorem Inv.wait (h : Inv m) {c : Nat} {b : Bool} (hb : b = true → m.sched.signalPendingOn c = false)
    (hy : m.wait q c b = some m') : Inv m' := by
  obtain ⟨s',hs,rfl⟩ := map_eq_some_iff.mp hy
  refine ⟨h.consistent.schedWaitLocked hs,fun t ht hblk => ?_⟩
  dsimp only at ht hblk ⊢
  rw [pending_congr (wait_signals h.consistent hs t)]
  have hq : Quiet m.sched s' (fun u => (m.sched.cpu c).current = some u) (some q) :=
    Quiet.schedWaitLocked (Quiet.refl m.sched) (fun _ hu => hu) hs
  by_cases hc : (m.sched.cpu c).current = some t
  · rw [tag_of_current hc] at ht
    have hp := hb ht
    rwa [signalPendingOn,hc] at hp
  · rw [tag_of_ne hc] at ht
    exact h.intr t ht ((hq.blocked t hblk).resolve_right hc).1

theorem Inv.step (h : Inv m) (hy : step q m e = some m') : Inv m' := by
  cases e with
  | sched e =>
    obtain ⟨_,hy⟩ := ite_none_right_eq_some.mp hy
    obtain ⟨s',hs,rfl⟩ := map_eq_some_iff.mp hy
    refine ⟨h.consistent.step (.inl trivial) hs,fun t ht hblk => ?_⟩
    dsimp only at ht hblk ⊢
    rcases step_blocked hs hblk with ⟨hb,hsame⟩ | ⟨c,hcall,hc⟩
    · rw [h.consistent.tagCaller_blocked hb] at ht
      rw [pending_congr (congrArg Prod.fst hsame)]
      exact h.intr t ht hb
    · rw [tagCaller_of_caller hcall hc] at ht
      cases ht
  | setCond | clearCond => cases hy; exact ⟨h.consistent,h.intr⟩
  | waitEvent c =>
    simp only [WaitEvent.step] at hy
    split_ifs at hy with hc
    · cases hy; exact h
    · exact h.wait (by simp) hy
  | waitEventIntr c =>
    simp only [WaitEvent.step] at hy
    by_cases hc : m.cond = true
    · rw [if_pos hc] at hy
      cases hy; exact h
    rw [if_neg hc] at hy
    split_ifs at hy with hp
    · cases hy; exact h
    · exact h.wait (fun _ => by simpa using hp) hy
  | setSignals c pending mask =>
    obtain ⟨cur,hc,rfl⟩ := map_eq_some_iff.mp hy
    set s' := m.sched.modify cur fun r => { r with sigPending := pending, sigMask := mask } with hs'
    have hst : ∀ t, (s'.thread t).state = (m.sched.thread t).state :=
      fun t => modify_field Thread.state m.sched cur t rfl
    have hcons : s'.Consistent True := h.consistent.modify cur rfl rfl
    refine ⟨hcons,fun t ht hblk => ?_⟩
    have hne : t ≠ cur := by
      rintro rfl
      exact h.consistent.current_awake hc ((hst t).symm.trans hblk)
    have hsame : s'.thread t = m.sched.thread t := by simp [hs',hne]
    rw [hsame] at hblk
    rw [pending_congr (congrArg signals hsame)]
    exact h.intr t ht hblk

theorem boot_inv (isBsp : Nat → Bool) : Inv (boot isBsp) :=
  ⟨boot_consistent isBsp True,by simp [IntrSound,boot]⟩

/-- The condition holds and nobody is on the queue. -/
structure Woken (q : WaitQueue) (m : State) : Prop where
  inv : Inv m
  cond : m.cond = true
  empty : m.sched.queue (.waitQueue q) = []

theorem Woken.noneBlocked (h : Woken q m) : NoneBlocked q m := by
  refine ⟨h.empty,fun t ht => ?_⟩
  have hmem := h.inv.consistent.mem_waitQueue.mpr ht
  rw [h.empty] at hmem
  cases hmem

private theorem Woken.sched {e : Sched.Event} {s' : Sched} (h : Woken q m)
    (hq : e.queue ≠ some q) (hs : m.sched.step e = some s') : s'.queue (.waitQueue q) = [] := by
  have hc := h.inv.consistent
  have hc' := hc.step (.inl trivial) hs
  rw [eq_nil_iff_forall_not_mem]
  intro t ht
  obtain ⟨hb,hw'⟩ := hc'.mem_waitQueue.mp ht
  have hw := (step_waitQ hs hw').resolve_right hq
  rcases step_blocked hs hb with ⟨hb,_⟩ | ⟨c,_,hcur⟩
  · exact h.noneBlocked.2 t ⟨hb,hw⟩
  · rcases hc.current c t hcur with rfl | hreg
    · exact hc'.idle_notMem c _ ht
    · rw [(hc.onCpu hreg hcur).1] at hw
      cases hw

theorem Woken.step (h : Woken q m) (he : e ≠ .clearCond) (hy : step q m e = some m') :
    Woken q m' := by
  have hinv := h.inv.step hy
  cases e with
  | sched e =>
    obtain ⟨hq,hy⟩ := ite_none_right_eq_some.mp hy
    obtain ⟨s',hs,rfl⟩ := map_eq_some_iff.mp hy
    exact ⟨hinv,h.cond,h.sched hq hs⟩
  | setCond => cases hy; exact ⟨hinv,rfl,h.empty⟩
  | clearCond => exact absurd rfl he
  | waitEvent c | waitEventIntr c =>
    simp only [WaitEvent.step,h.cond,if_true] at hy
    cases hy; exact h
  | setSignals c pending mask =>
    obtain ⟨cur,_,rfl⟩ := map_eq_some_iff.mp hy
    exact ⟨hinv,h.cond,h.empty⟩

theorem cond_step (hc : m.cond = true) (he : e ≠ .clearCond) (hy : step q m e = some m') :
    m'.cond = true := by
  cases e with
  | sched e =>
    obtain ⟨_,hy⟩ := ite_none_right_eq_some.mp hy
    obtain ⟨s',_,rfl⟩ := map_eq_some_iff.mp hy
    exact hc
  | setCond => cases hy; rfl
  | clearCond => exact absurd rfl he
  | waitEvent c | waitEventIntr c =>
    simp only [WaitEvent.step,hc,if_true] at hy
    cases hy; exact hc
  | setSignals c pending mask =>
    obtain ⟨cur,_,rfl⟩ := map_eq_some_iff.mp hy
    exact hc

/-- Setting the condition and then waking everybody establishes `Woken`. -/
theorem woken_of_run {isBsp : Nat → Bool} {es fs : List Event} (hfs : ∀ e ∈ fs, e ≠ .clearCond)
    (hm : exec (step q) (boot isBsp) (es ++ .setCond :: (fs ++ [.sched (.wqWakeAll q)])) = some m) :
    Woken q m := by
  have hinv : Inv m :=
    exec_keeps (fun _ _ _ h _ hy => Inv.step h hy) (boot_inv isBsp) (fun _ _ => trivial) hm
  rw [exec_append] at hm
  obtain ⟨m1,_,hm⟩ := bind_eq_some_iff.mp hm
  have hset : exec (step q) { m1 with cond := true } (fs ++ [.sched (.wqWakeAll q)]) = some m := hm
  rw [exec_append] at hset
  obtain ⟨m2,h2,hlast⟩ := bind_eq_some_iff.mp hset
  have hcond : m2.cond = true :=
    exec_keeps (fun _ _ _ hc he hy => cond_step hc he hy) rfl hfs h2
  have hwake : m = { m2 with sched := m2.sched.wqWakeAll q } := by
    have h : step q m2 (.sched (.wqWakeAll q)) = some { m2 with sched := m2.sched.wqWakeAll q } := rfl
    rw [exec_cons,h] at hlast
    exact (Option.some.inj hlast).symm
  subst hwake
  have hempty := (wakeLoop_spec q (m2.sched.queue (.waitQueue q)).length 0 m2.sched).2.1
  exact ⟨hinv,hcond,by rwa [drop_length] at hempty⟩

/-- Once a producer has set the condition and called `wq_wake_all`, and while nobody
clears it, no thread is blocked on the queue. In every run, nobody is blocked in
`WAIT_EVENT_INTR` with a pending unblocked signal. -/
theorem wait_event_no_lost_wakeup (q : WaitQueue) (isBsp : Nat → Bool) :
    (∀ (es fs gs : List Event) (m : State), (∀ e ∈ fs ++ gs, e ≠ .clearCond) →
      exec (step q) (boot isBsp) (es ++ .setCond :: (fs ++ [.sched (.wqWakeAll q)])) = some m →
      Always (step q) (NoneBlocked q) m gs) ∧
    ∀ es : List Event, Always (step q) IntrSound (boot isBsp) es := by
  refine ⟨?_,?_⟩
  · intro es fs gs m hclear hm
    have hw := woken_of_run (fun e he => hclear e (mem_append_left _ he)) hm
    exact always_of_along (fun _ h => Woken.noneBlocked h) (fun _ _ _ h he hy => Woken.step h he hy)
      m gs hw (Along.of_mem (fun e he => hclear e (mem_append_right _ he)) m)
  · intro es
    exact always_of_along (fun _ h => Inv.intr h) (fun _ _ _ h _ hy => Inv.step h hy) (boot isBsp) es
      (boot_inv isBsp) (Along.of_mem (fun _ _ => trivial) (boot isBsp))

def blockedWaiter : List Event :=
  [.sched (.schedInitCpu 0),.sched (.schedEnqueueThread 1 {}),.sched (.threadYield 0),.waitEvent 0]

/-- Thread 1 is blocked on the queue when the condition is set. -/
theorem wait_event_no_lost_wakeup_blockedWaiter :
    (exec (step (.other 0)) (boot fun _ => true) blockedWaiter).map
      (fun m => m.sched.queue (.waitQueue (.other 0))) = some [.heap 1] ∧
    ∃ m, exec (step (.other 0)) (boot fun _ => true)
        (blockedWaiter ++ .setCond :: ([] ++ [.sched (.wqWakeAll (.other 0))])) = some m ∧
      Always (step (.other 0)) (NoneBlocked (.other 0)) m [.sched (.threadYield 0),.waitEvent 0] :=
  ⟨rfl,_,rfl,(wait_event_no_lost_wakeup (.other 0) fun _ => true).1 blockedWaiter [] _ _ (by simp) rfl⟩

end Lariat.Kernel.WaitEvent
