import Lariat.Kernel.ChildExit

/-! What a scheduler step does to the threads that do not take it: their families,
their signals and what they are blocked on stay, unless the step wakes them. -/
namespace Lariat.Kernel
namespace Sched
open Foundation.Runs

/-- The CPU whose thread blocks or yields in the call. -/
def Event.caller : Event → Option Nat
  | .threadYield c | .threadSleep c _ _ | .schedWaitLocked c _ => some c
  | _ => none

/-- The wait queue that the call blocks on. -/
def Event.queue : Event → Option WaitQueue
  | .schedWaitLocked _ q => some q
  | _ => none

/-- The call sets up a CPU or a thread. -/
def Event.founds : Event → Bool
  | .schedInitCpu _ | .schedEnqueueThread _ _ => true
  | _ => false

/-- Ghost data per thread: the thread on CPU `c` gets the value `a`. -/
def tag {α : Type*} (s : Sched) (c : Nat) (g : ThreadRef → α) (a : α) : ThreadRef → α :=
  (s.cpu c).current.elim g fun t => Function.update g t a

/-- The thread that makes the call gets the value `a`. -/
def tagCaller {α : Type*} (s : Sched) (e : Event) (g : ThreadRef → α) (a : α) : ThreadRef → α :=
  e.caller.elim g fun c => s.tag c g a

variable {s s' : Sched} {c : Nat} {t : ThreadRef} {e : Event}

section

variable {α : Type*} {g : ThreadRef → α} {a : α}

theorem tag_of_current (hc : (s.cpu c).current = some t) : s.tag c g a t = a := by
  simp [tag,hc]

theorem tag_of_ne (hc : (s.cpu c).current ≠ some t) : s.tag c g a t = g t := by
  unfold tag
  cases h : (s.cpu c).current with
  | none => rfl
  | some u => exact Function.update_of_ne (fun he => hc (by rw [h,he])) _ _

theorem tagCaller_of_caller (he : e.caller = some c) (hc : (s.cpu c).current = some t) :
    s.tagCaller e g a t = a := by
  rw [tagCaller,he]
  exact tag_of_current hc

theorem Consistent.tagCaller_blocked {lost : Prop} (hs : s.Consistent lost)
    (hb : (s.thread t).state = .blocked) (e : Event) : s.tagCaller e g a t = g t := by
  unfold tagCaller
  cases e.caller with
  | none => rfl
  | some c => exact tag_of_ne fun hc => hs.current_awake hc hb

end

/-- The fields that `waitpid` reads besides the state. -/
def kin (r : Thread) : Option ThreadRef × List ThreadRef × Bool × BitVec 32 :=
  (r.parent,r.children,r.waited,r.tid)

def signals (r : Thread) : BitVec 64 × BitVec 64 := (r.sigPending,r.sigMask)

/-- What a blocked thread waits for. -/
def awaits (r : Thread) : (BitVec 64 × BitVec 64) × Option WaitQueue := (signals r,r.waitQ)

/-- A step that moves threads but not families. Only `who` may become blocked, and a
bystander that stays blocked waits for the same; nobody gets a new wait queue but `on`. -/
structure Quiet (s s' : Sched) (who : ThreadRef → Prop) (on : Option WaitQueue) : Prop where
  all : s'.allThreads = s.allThreads
  reaper : s'.reaper = s.reaper
  kin : ∀ t, kin (s'.thread t) = kin (s.thread t)
  zombie : ∀ t, (s'.thread t).state = .zombie → (s.thread t).state = .zombie
  blocked : ∀ t, (s'.thread t).state = .blocked →
    (s.thread t).state = .blocked ∧ awaits (s'.thread t) = awaits (s.thread t) ∨ who t
  waitQ : ∀ t q, (s'.thread t).waitQ = some q → (s.thread t).waitQ = some q ∨ on = some q

namespace Quiet
variable {s m s' : Sched} {who : ThreadRef → Prop} {on : Option WaitQueue} {c : Nat} {q : WaitQueue}

theorem refl (s : Sched) : Quiet s s who on :=
  ⟨rfl,rfl,fun _ => rfl,fun _ h => h,fun _ h => .inl ⟨h,rfl⟩,fun _ _ h => .inl h⟩

theorem trans (h1 : Quiet s m who on) (h2 : Quiet m s' who on) : Quiet s s' who on := by
  refine ⟨h2.all.trans h1.all,h2.reaper.trans h1.reaper,fun t => (h2.kin t).trans (h1.kin t),
    fun t h => h1.zombie t (h2.zombie t h),?_,?_⟩
  · intro t h
    rcases h2.blocked t h with ⟨hb,hs⟩ | hw
    · exact (h1.blocked t hb).imp_left fun ⟨hb',hs'⟩ => ⟨hb',hs.trans hs'⟩
    · exact .inr hw
  · intro t q h
    exact (h2.waitQ t q h).elim (h1.waitQ t q) .inr

section Steps

variable (h : Quiet s s' who on)
include h

theorem setQueue (l : ListRef) (ts : List ThreadRef) :
    Quiet s (s'.setQueue l ts) who on := ⟨h.all,h.reaper,h.kin,h.zombie,h.blocked,h.waitQ⟩

theorem queueRemove (l : ListRef) (t : ThreadRef) :
    Quiet s (s'.queueRemove l t) who on := ⟨h.all,h.reaper,h.kin,h.zombie,h.blocked,h.waitQ⟩

theorem setCurrent (c : Nat) (t : ThreadRef) :
    Quiet s (s'.setCurrent c t) who on := ⟨h.all,h.reaper,h.kin,h.zombie,h.blocked,h.waitQ⟩

theorem modify (t : ThreadRef) {f : Thread → Thread}
    (hk : Sched.kin (f (s'.thread t)) = Sched.kin (s'.thread t))
    (hz : (f (s'.thread t)).state = .zombie → (s'.thread t).state = .zombie)
    (hb : (f (s'.thread t)).state = .blocked → (s'.thread t).state = .blocked ∧
      awaits (f (s'.thread t)) = awaits (s'.thread t) ∨ who t)
    (hq : ∀ q, (f (s'.thread t)).waitQ = some q → (s'.thread t).waitQ = some q ∨ on = some q) :
    Quiet s (s'.modify t f) who on := by
  refine h.trans ⟨rfl,rfl,fun u => modify_field Sched.kin s' t u hk,?_,?_,?_⟩
  · intro u
    rw [modify_thread]
    split_ifs with hu
    · exact hu ▸ hz
    · exact id
  · intro u
    rw [modify_thread]
    split_ifs with hu
    · exact hu ▸ hb
    · exact fun h => .inl ⟨h,rfl⟩
  · intro u q
    rw [modify_thread]
    split_ifs with hu
    · exact hu ▸ hq q
    · exact .inl

theorem makeReady (t : ThreadRef) : Quiet s (s'.makeReady t) who on :=
  (h.modify t rfl (by simp) (by simp) (fun _ => .inl)).setQueue _ _

theorem switchTo (c : Nat) (t : ThreadRef) : Quiet s (s'.switchTo c t) who on :=
  (h.modify t rfl (by simp) (by simp) (fun _ => .inl)).setCurrent _ _

/-- A thread leaves its wait queue only together with the blocked state. -/
theorem released (t : ThreadRef) {st : ThreadState} (hb : st ≠ .blocked) (hz : st ≠ .zombie) :
    Quiet s ((s'.clearWaitQ t).setState t st) who on := by
  have he : (s'.clearWaitQ t).setState t st =
      s'.modify t fun r => { r with waitQ := none, state := st } := by
    simp [Sched.clearWaitQ,setState,Sched.modify]
  rw [he]
  exact h.modify t rfl (fun h => absurd h hz) (fun h => absurd h hb) (by simp)

theorem unparked (t : ThreadRef) : Quiet s ((s'.clearWaitQ t).makeReady t) who on :=
  (h.released t (by simp) (by simp)).setQueue _ _

/-- A signal is recorded and the target woken: it is not left blocked. -/
theorem signalled (t : ThreadRef) {f : Thread → Thread}
    (hk : Sched.kin (f (s'.thread t)) = Sched.kin (s'.thread t))
    (hst : (f (s'.thread t)).state = (s'.thread t).state)
    (hq : (f (s'.thread t)).waitQ = (s'.thread t).waitQ) :
    Quiet s ((s'.modify t f).schedReadyLocked t) who on := by
  have hself : (s'.modify t f).thread t = f (s'.thread t) := by simp
  by_cases hb : (s'.thread t).state = .blocked
  · rw [schedReadyLocked_blocked (by rw [hself,hst,hb])]
    have he : (s'.modify t f).unpark t =
        ((s'.modify t fun r => { f r with waitQ := none, state := .ready }).queueRemove
          (home (f (s'.thread t))) t).queuePush .readyQueue t := by
      simp [unpark,Sched.queueRemove,clearWaitQ,Sched.makeReady,queuePush,Sched.setQueue,setState,Sched.modify]
    have hwoken := h.modify t (f := fun r => { f r with waitQ := none, state := .ready }) hk (by simp)
      (by simp) (by simp)
    rw [he]
    exact (hwoken.queueRemove _ _).setQueue _ _
  · rw [Sched.schedReadyLocked,if_neg (by rw [hself,hst]; exact hb)]
    refine h.modify t hk (fun hz => hst ▸ hz) (fun h' => absurd (hst ▸ h') hb) ?_
    intro q hwq
    exact .inl (hq ▸ hwq)

theorem pickNext (c : Nat) : Quiet s (s'.pickNext c).2 who on := by
  unfold Sched.pickNext queuePop
  cases s'.queue .readyQueue with
  | nil => exact h
  | cons t ts => exact h.setQueue _ _

end Steps

theorem reschedule (h : Quiet s m who on) {cur : Option ThreadRef}
    (hr : m.reschedule c cur = some s') : Quiet s s' who on := by
  unfold Sched.reschedule at hr
  have hp := h.pickNext c
  dsimp only at hr
  split_ifs at hr
  · cases hr; exact hp
  cases hc : cur with
  | none => simp [hc] at hr
  | some t =>
    cases hn : (m.pickNext c).1 with
    | none => simp [hc,hn] at hr
    | some next =>
      simp only [hc,hn,Option.some.injEq] at hr
      exact hr ▸ hp.switchTo c next

theorem threadYield (h : Quiet s m who on) (hy : m.threadYield c = some s') : Quiet s s' who on := by
  unfold Sched.threadYield at hy
  split at hy
  · exact h.reschedule hy
  · split_ifs at hy
    · exact (h.makeReady _).reschedule hy
    · exact h.reschedule hy

theorem threadSleep {now ticks : BitVec 64} (h : Quiet s m who on)
    (hw : ∀ t, (m.cpu c).current = some t → who t)
    (hy : m.threadSleep c now ticks = some s') : Quiet s s' who on := by
  unfold Sched.threadSleep at hy
  split at hy
  · exact h.reschedule hy
  · rename_i cur hc
    split_ifs at hy
    · exact ((h.modify cur rfl (by simp) (fun _ => .inr (hw cur hc)) (fun _ => .inl)).setQueue _ _).reschedule hy
    · exact h.reschedule hy

theorem schedWaitLocked (h : Quiet s m who (some q))
    (hw : ∀ t, (m.cpu c).current = some t → who t) (hy : m.schedWaitLocked c q = some s') :
    Quiet s s' who (some q) := by
  unfold Sched.schedWaitLocked at hy
  split at hy
  · cases hy; exact h
  · rename_i cur hc
    dsimp only at hy
    set r := (m.modify cur fun r => { r with state := .blocked, waitQ := some q }).queuePush
      (.waitQueue q) cur
    have hpark : Quiet s (r.pickNext c).2 who (some q) := by
      refine Quiet.pickNext (Quiet.setQueue ?_ _ _) c
      exact h.modify cur rfl (by simp) (fun _ => .inr (hw cur hc)) (fun _ => .inr)
    split_ifs at hy with h1 h2
    · cases hy; exact h
    · cases hy
      exact (hpark.queueRemove _ _).released cur (by simp) (by simp)
    · cases hn : (r.pickNext c).1 with
      | none => simp [hn] at hy
      | some next =>
        simp only [hn,Option.some.injEq] at hy
        exact hy ▸ hpark.switchTo c next

theorem wakeFirst (h : Quiet s m who on) (hy : m.wakeFirst q = some s') : Quiet s s' who on := by
  unfold Sched.wakeFirst queuePop at hy
  cases hq : m.queue (.waitQueue q) with
  | nil => simp [hq] at hy
  | cons t ts =>
    simp only [hq,Option.some.injEq] at hy
    exact hy ▸ (h.setQueue _ _).unparked t

theorem wakeLoop (h : Quiet s s' who on) (n woke : Nat) : Quiet s (wakeLoop q n woke s').2 who on := by
  induction n generalizing woke s' with
  | zero => exact h
  | succ n ih =>
    unfold Sched.wakeLoop
    cases hf : s'.wakeFirst q with
    | none => exact h
    | some m => exact ih (h.wakeFirst hf) _

theorem wakeSleepers (h : Quiet s s' who on) (now : BitVec 64) (ts : List ThreadRef) :
    Quiet s (wakeSleepers now ts s').2 who on := by
  induction ts generalizing s' with
  | nil => exact h
  | cons t ts ih =>
    unfold Sched.wakeSleepers
    split_ifs
    · exact ih (h.makeReady t)
    · exact ih h

theorem schedulerTick (s : Sched) (c : Nat) (now : BitVec 64) :
    Quiet s (s.schedulerTick c now) who on := by
  unfold Sched.schedulerTick
  cases hc : (s.cpu c).current with
  | none => exact refl s
  | some cur =>
    dsimp only
    set m := if (s.cpu c).isBsp then s.expireSleepers now else s with hm
    have h : Quiet s m who on := by
      rw [hm]
      split_ifs
      · exact ((refl s).wakeSleepers now _).setQueue _ _
      · exact refl s
    unfold queuePop
    cases m.queue .readyQueue with
    | nil => exact h
    | cons t ts =>
      dsimp only
      split_ifs
      · exact ((h.setQueue _ _).makeReady cur).switchTo c t
      · exact (h.setQueue _ _).switchTo c t

theorem schedDeliverSignal (s : Sched) (t : Option ThreadRef) (sig : Nat) :
    Quiet s (s.schedDeliverSignal t sig) who on := by
  unfold Sched.schedDeliverSignal
  cases t with
  | none => exact refl s
  | some t =>
    split_ifs
    · exact (refl s).signalled t rfl rfl rfl
    · exact (refl s).signalled t rfl rfl rfl

theorem schedSignalPgrp (s : Sched) (pgid : BitVec 32) (sig : Nat) :
    Quiet s (s.schedSignalPgrp pgid sig).2 who on := by
  refine List.foldlRecOn (motive := fun acc : Nat × Sched => Quiet s acc.2 who on) _ _ (refl s)
    fun acc h t _ => ?_
  unfold signalPgrpThread
  by_cases hp : (acc.2.thread t).cr3 ≠ 0 ∧ (acc.2.thread t).pgid = pgid
  · rw [if_pos hp]
    exact h.signalled t rfl rfl rfl
  · rw [if_neg hp]
    exact h

theorem schedWakeThread (s : Sched) (t : Option ThreadRef) : Quiet s (s.schedWakeThread t) who on := by
  cases t with
  | none => exact refl s
  | some t =>
    rcases schedWakeThread_eq s t with h | ⟨_,h⟩ <;> rw [h]
    · exact refl s
    · exact ((refl s).queueRemove _ _).unparked t

theorem threadExit {cur : ThreadRef} (hc : (s.cpu c).current = some cur)
    (hy : s.threadExit c = some s') : Quiet (s.leaveZombie cur) s' who on := by
  unfold Sched.threadExit at hy
  rw [hc] at hy
  have hp : Quiet (s.leaveZombie cur) ((s.leaveZombie cur).pickNext c).2 who on := (refl _).pickNext c
  dsimp only at hy
  generalize (s.leaveZombie cur).pickNext c = pr at hy hp
  obtain ⟨_ | next,m⟩ := pr
  · cases hy
  · cases hy; exact hp.switchTo c next

theorem schedStopCurrent (hw : ∀ t, (s.cpu c).current = some t → who t)
    (hy : s.schedStopCurrent c = some s') : Quiet s s' who (some .stopWq) := by
  unfold Sched.schedStopCurrent at hy
  split at hy
  · cases hy; exact refl s
  · rename_i cur _
    have hp : Quiet s (s.wakeWaitingParent cur) who (some .stopWq) ∧ (s.wakeWaitingParent cur).cpu = s.cpu := by
      unfold wakeWaitingParent
      cases (s.thread cur).parent with
      | none => exact ⟨refl s,rfl⟩
      | some p =>
        dsimp only
        split_ifs
        · exact ⟨(refl s).makeReady p,rfl⟩
        · exact ⟨refl s,rfl⟩
    split_ifs at hy
    · cases hy; exact refl s
    · exact hp.1.schedWaitLocked (by rw [hp.2]; exact hw) hy

/-- Every scheduler event but a new CPU and a new thread is quiet, and only the
calling thread may become blocked. -/
theorem step {e : Event} (h : s.step e = some s')
    (hnew : e.founds = false)
    (hw : ∀ c t, e.caller = some c → (s.cpu c).current = some t → who t) :
    Quiet s s' who e.queue := by
  cases e with
  | schedInitCpu d | schedEnqueueThread a r => cases hnew
  | threadYield c => exact (refl s).threadYield h
  | threadSleep c now ticks => exact (refl s).threadSleep (hw c · rfl) h
  | schedulerTick c now => cases h; exact schedulerTick s c now
  | schedWaitLocked c q => exact (refl s).schedWaitLocked (hw c · rfl) h
  | wqWakeOne q =>
    cases h
    unfold wqWakeOne
    cases hf : s.wakeFirst q with
    | none => exact refl s
    | some m => exact (refl s).wakeFirst hf
  | wqWakeAll q | schedWqWakeN q n => cases h; exact (refl s).wakeLoop _ 0
  | schedWakeThread t => cases h; exact schedWakeThread s t
  | schedDeliverSignal t sig => cases h; exact schedDeliverSignal s t sig
  | schedSignalPgrp pgid sig => cases h; exact schedSignalPgrp s pgid sig

end Quiet

private theorem step_new (h : s.step e = some s') (hnew : e.founds) (t : ThreadRef) :
    s'.thread t = s.thread t ∨
      (s'.thread t).state ≠ .blocked ∧ (s'.thread t).waitQ = none := by
  cases e with
  | schedInitCpu d =>
    obtain ⟨_,h⟩ := Option.ite_none_right_eq_some.mp h
    cases h
    by_cases ht : t = .idle d
    · subst ht
      exact .inr (by simp [schedInitCpu])
    · exact .inl (Function.update_of_ne ht _ _)
  | schedEnqueueThread a r =>
    obtain ⟨⟨_,hw⟩,h⟩ := Option.ite_none_right_eq_some.mp h
    cases h
    by_cases ht : t = .heap a
    · subst ht
      exact .inr (by simp [schedEnqueueThread,queuePush,hw])
    · exact .inl (Function.update_of_ne ht _ _)
  | _ => cases hnew

/-- A thread is blocked after a step because it was before, or because it took it. -/
theorem step_blocked (h : s.step e = some s') (hb : (s'.thread t).state = .blocked) :
    (s.thread t).state = .blocked ∧ awaits (s'.thread t) = awaits (s.thread t) ∨
      ∃ c, e.caller = some c ∧ (s.cpu c).current = some t := by
  cases hnew : e.founds with
  | false =>
    have hq : Quiet s s' (fun t => ∃ c, e.caller = some c ∧ (s.cpu c).current = some t) e.queue :=
      Quiet.step h hnew fun c _ hc hu => ⟨c,hc,hu⟩
    exact hq.blocked t hb
  | true =>
    rcases step_new h hnew t with he | ⟨hn,_⟩
    · exact .inl ⟨he ▸ hb,by rw [he]⟩
    · exact absurd hb hn

theorem step_waitQ {q : WaitQueue} (h : s.step e = some s') (hw : (s'.thread t).waitQ = some q) :
    (s.thread t).waitQ = some q ∨ e.queue = some q := by
  cases hnew : e.founds with
  | false =>
    have hq : Quiet s s' (fun _ => True) e.queue := Quiet.step h hnew fun _ _ _ _ => trivial
    exact hq.waitQ t q hw
  | true =>
    rcases step_new h hnew t with he | ⟨_,hn⟩
    · exact .inl (he ▸ hw)
    · rw [hn] at hw
      cases hw

end Sched
end Lariat.Kernel
