import Lariat.Kernel.SchedSwitch

/-! The remaining scheduler functions keep the invariant: signals, the wake-ups, the timer
tick, a new thread and a new CPU. Runs on any number of CPUs: one event is one function
executed under `sched_lock`, and the runs that lose no thread are characterised. -/
namespace Lariat.Kernel.Sched
open Foundation.Runs List Function

variable {lost : Prop} {s s' : Sched} {c : Nat} {cur : ThreadRef}

theorem Consistent.modify (hs : s.Consistent lost) (t : ThreadRef) {f : Thread → Thread}
    (hst : (f (s.thread t)).state = (s.thread t).state)
    (hw : (f (s.thread t)).waitQ = (s.thread t).waitQ) : (s.modify t f).Consistent lost := by
  have hstate := fun u => modify_field Thread.state s t u hst
  have hwait := fun u => modify_field Thread.waitQ s t u hw
  refine ⟨hs.idleOf,hs.online,?_,hs.idleUnregistered,hs.unregistered,hs.current,hs.oneCpu,?_⟩
  · intro u hu
    rw [hstate]
    exact hs.awake u hu
  · intro u hu
    have h := hs.settled u hu
    unfold Settled home at h ⊢
    rw [hstate,hwait]
    exact h

theorem Consistent.schedDeliverSignal (hs : s.Consistent lost) (t : Option ThreadRef) (sig : Nat) :
    (s.schedDeliverSignal t sig).Consistent lost := by
  unfold Sched.schedDeliverSignal
  cases t with
  | none => exact hs
  | some t =>
    split_ifs
    · exact (hs.modify t rfl rfl).schedReadyLocked t
    · exact (hs.modify t rfl rfl).schedReadyLocked t

theorem Consistent.schedSignalPgrp (hs : s.Consistent lost) (pgid : BitVec 32) (sig : Nat) :
    (s.schedSignalPgrp pgid sig).2.Consistent lost := by
  refine List.foldlRecOn (motive := fun acc : Nat × Sched => acc.2.Consistent lost) _ _ hs
    fun acc h t _ => ?_
  unfold signalPgrpThread
  by_cases hp : (acc.2.thread t).cr3 ≠ 0 ∧ (acc.2.thread t).pgid = pgid
  · rw [if_pos hp]
    exact (h.modify t rfl rfl).schedReadyLocked t
  · rw [if_neg hp]
    exact h

variable {q : WaitQueue}

theorem Consistent.wakeFirst (hs : s.Consistent lost) (h : s.wakeFirst q = some s') :
    s'.Consistent lost := by
  obtain ⟨t,_,_,ht,hb,_,rfl⟩ := wakeFirst_eq hs h
  exact hs.unpark ht hb

theorem Consistent.wakeLoop (n woke : Nat) (hs : s.Consistent lost) :
    (wakeLoop q n woke s).2.Consistent lost := by
  induction n generalizing woke s with
  | zero => exact hs
  | succ n ih =>
    unfold Sched.wakeLoop
    cases h : s.wakeFirst q with
    | none => exact hs
    | some s' => exact ih _ (hs.wakeFirst h)

theorem wakeFirst_cons {t : ThreadRef} {ts : List ThreadRef} (h : s.queue (.waitQueue q) = t :: ts) :
    ∃ s', s.wakeFirst q = some s' ∧ s'.queue (.waitQueue q) = ts ∧
      ∀ u, (s'.thread u).state = if u = t then .ready else (s.thread u).state := by
  refine ⟨_,by rw [wakeFirst,queuePop,h],?_,?_⟩
  · simp [makeReady,queuePush,setState,clearWaitQ]
  · intro u
    by_cases hu : u = t
    · simp [makeReady,queuePush,setState,clearWaitQ,hu]
    · simp [makeReady,queuePush,setState,clearWaitQ,hu]

/-- The loop of `sched_wq_wake_n` takes the first `n` waiters and makes them ready. -/
theorem wakeLoop_spec (q : WaitQueue) (n woke : Nat) (s : Sched) :
    (wakeLoop q n woke s).1 = woke+min n (s.queue (.waitQueue q)).length ∧
      (wakeLoop q n woke s).2.queue (.waitQueue q) = (s.queue (.waitQueue q)).drop n ∧
      ∀ t, ((wakeLoop q n woke s).2.thread t).state =
        if t ∈ (s.queue (.waitQueue q)).take n then .ready else (s.thread t).state := by
  induction n generalizing woke s with
  | zero => exact ⟨by simp [wakeLoop],by simp [wakeLoop],by simp [wakeLoop]⟩
  | succ n ih =>
    cases hq : s.queue (.waitQueue q) with
    | nil =>
      have hf : s.wakeFirst q = none := by rw [wakeFirst,queuePop,hq]
      simp [wakeLoop,hf,hq]
    | cons t ts =>
      obtain ⟨s',hf,hq',hst⟩ := wakeFirst_cons hq
      obtain ⟨h1,h2,h3⟩ := ih (woke+1) s'
      simp only [wakeLoop,hf]
      refine ⟨?_,?_,?_⟩
      · rw [h1,hq',length_cons]
        omega
      · rw [h2,hq',drop_succ_cons]
      · intro u
        rw [h3,hq',hst,take_succ_cons]
        by_cases hu : u = t
        · simp [hu]
        · simp [hu]

/-- Waking touches only the state word and the wait queue of a thread. -/
theorem wakeLoop_field {α : Type*} (g : Thread → α)
    (hg : ∀ r st w, g { r with state := st, waitQ := w } = g r) (q : WaitQueue) (n woke : Nat)
    (s : Sched) (t : ThreadRef) : g ((wakeLoop q n woke s).2.thread t) = g (s.thread t) := by
  induction n generalizing woke s with
  | zero => rfl
  | succ n ih =>
    unfold wakeLoop wakeFirst queuePop
    cases s.queue (.waitQueue q) with
    | nil => rfl
    | cons u us =>
      rw [ih,makeReady,queuePush,setQueue_thread,setState,modify_field g _ u t (hg _ _ _),clearWaitQ,
        modify_field g _ u t (hg _ _ _),setQueue_thread]

theorem Consistent.wqWakeOne (hs : s.Consistent lost) (q : WaitQueue) :
    (s.wqWakeOne q).Consistent lost := by
  unfold Sched.wqWakeOne
  cases h : s.wakeFirst q with
  | none => exact hs
  | some s' => exact hs.wakeFirst h

theorem Consistent.schedWakeThread (hs : s.Consistent lost) (t : Option ThreadRef) :
    (s.schedWakeThread t).Consistent lost := by
  cases t with
  | none => exact hs
  | some t =>
    rcases schedWakeThread_eq s t with h | ⟨hb,h⟩ <;> rw [h]
    · exact hs
    · exact hs.unpark (hs.registered hb) hb

private theorem wakeSleepers_setQueue (now : BitVec 64) (ts xs : List ThreadRef) (s : Sched) :
    wakeSleepers now ts (s.setQueue .sleepList xs) =
      ((wakeSleepers now ts s).1,(wakeSleepers now ts s).2.setQueue .sleepList xs) := by
  have hcomm : ∀ (s : Sched) (t : ThreadRef), (s.setQueue .sleepList xs).makeReady t =
      (s.makeReady t).setQueue .sleepList xs := by
    intro s t
    simp only [makeReady,queuePush,setState,modify,setQueue]
    congr 1
    rw [update_comm (by simp),update_of_ne (by simp)]
  induction ts generalizing s with
  | nil => rfl
  | cons t ts ih =>
    unfold wakeSleepers
    by_cases h : (s.thread t).wakeupTick ≤ now
    · rw [if_pos (by exact h),if_pos h,hcomm,ih]
    · rw [if_neg (by exact h),if_neg h,ih]

/-- The walk keeps `pre`, the sleepers it has passed, in front of the rest. -/
private theorem Consistent.wakeSleepers (now : BitVec 64) (ts pre : List ThreadRef)
    (hs : s.Consistent lost) (hq : s.queue .sleepList = pre ++ ts) :
    ((wakeSleepers now ts s).2.setQueue .sleepList
      (pre ++ (wakeSleepers now ts s).1)).Consistent lost := by
  induction ts generalizing s pre with
  | nil =>
    have hself : s.setQueue .sleepList (pre ++ []) = s := by
      rw [← hq,setQueue,update_eq_self]
    unfold Sched.wakeSleepers
    rwa [hself]
  | cons t ts ih =>
    unfold Sched.wakeSleepers
    split_ifs with h
    · have hmem : t ∈ s.queue .sleepList := by rw [hq]; simp
      obtain ⟨ht,hl,_,⟨hr,_⟩ | ⟨hb,hh⟩⟩ := hs.linked hmem
      · cases hr
      have hpre : t ∉ pre := by
        intro hp
        have hc := hl .sleepList
        rw [hq,count_append,count_cons_self,if_pos rfl] at hc
        have := List.count_pos_iff.mpr hp
        omega
      have hw : (s.thread t).waitQ = none := by
        unfold home at hh
        cases hw : (s.thread t).waitQ with
        | none => rfl
        | some q => rw [hw] at hh; cases hh
      have hun : s.unpark t = (s.makeReady t).setQueue .sleepList (pre ++ ts) := by
        have hn : ((s.queueRemove .sleepList t).thread t).waitQ = none := hw
        unfold Sched.unpark
        rw [hh,clearWaitQ_of_none hn,queueRemove,hq,erase_append_right _ hpre,
          erase_cons_head]
        simp only [makeReady,queuePush,setState,Sched.modify,setQueue,bne_self_eq_false,
          Bool.false_and,Bool.or_false]
        congr 1
        rw [update_comm (by simp),update_of_ne (by simp)]
      have hnext := ih pre (hs.unpark ht hb) (by simp [hun])
      rw [hun,wakeSleepers_setQueue] at hnext
      simpa only [setQueue,update_idem] using hnext
    · have hnext := ih (pre ++ [t]) hs (by simp [hq])
      simpa using hnext

theorem Consistent.expireSleepers (hs : s.Consistent lost) (now : BitVec 64) :
    (s.expireSleepers now).Consistent lost :=
  Consistent.wakeSleepers now (s.queue .sleepList) [] hs rfl

theorem expireSleepers_cpu (s : Sched) (now : BitVec 64) : (s.expireSleepers now).cpu = s.cpu := by
  have key : ∀ (ts : List ThreadRef) (s : Sched), (wakeSleepers now ts s).2.cpu = s.cpu := by
    intro ts
    induction ts with
    | nil => exact fun s => rfl
    | cons t ts ih =>
      intro s
      unfold wakeSleepers
      split_ifs
      · exact ih (s.makeReady t)
      · exact ih s
  exact key _ s

private theorem push_after_pop {t : ThreadRef} {ts : List ThreadRef}
    (hq : s.queue .readyQueue = t :: ts) :
    ((s.setQueue .readyQueue ts).makeReady cur).switchTo c t = (s.makeReady cur).dispatch c := by
  have hpush : (s.makeReady cur).queue .readyQueue = t :: (ts ++ [cur]) := by
    simp [makeReady,queuePush,setState,hq]
  unfold Sched.dispatch
  rw [hpush]
  simp [makeReady,queuePush,setState,Sched.modify,setQueue]

theorem Consistent.schedulerTick (hs : s.Consistent lost) (c : Nat) (now : BitVec 64) :
    (s.schedulerTick c now).Consistent lost := by
  unfold Sched.schedulerTick
  cases hc : (s.cpu c).current with
  | none => exact hs
  | some cur =>
    dsimp only
    set r := if (s.cpu c).isBsp then s.expireSleepers now else s with hr
    have hrs : r.Consistent lost := by
      rw [hr]
      split_ifs
      · exact hs.expireSleepers now
      · exact hs
    have hrc : (r.cpu c).current = some cur := by
      rw [hr]
      split_ifs
      · rw [expireSleepers_cpu]; exact hc
      · exact hc
    unfold queuePop
    cases hq : r.queue .readyQueue with
    | nil => exact hrs
    | cons t ts =>
      dsimp only
      have hpop : (r.setQueue .readyQueue ts).switchTo c t = r.dispatch c := by
        unfold Sched.dispatch
        rw [hq]
      have hi : ((r.setQueue .readyQueue ts).cpu c).idle = some (.idle c) := hrs.online c cur hrc
      rw [hi]
      rcases (hrs.cur_cases hrc).2 with rfl | ⟨hne,hcur,_⟩
      · rw [if_neg (fun h => h.2 rfl),hpop]
        exact hrs.dispatch hrc
      obtain ⟨_,_,hrun | ⟨hlost,hrdy⟩⟩ := hrs.onCpu hcur hrc
      · rw [if_pos ⟨hrun,fun h => hne (Option.some.inj h)⟩,push_after_pop hq]
        exact hrs.requeue hrc hcur
      · have hnot : (r.thread cur).state ≠ .running := by rw [hrdy]; simp
        rw [if_neg (fun h => hnot h.1),hpop]
        exact hrs.drop hrc hcur hlost hrdy

theorem Consistent.schedEnqueueThread (hs : s.Consistent lost) {addr : Nat} {r : Thread}
    (hnew : .heap addr ∉ s.allThreads) (hw : r.waitQ = none) :
    (s.schedEnqueueThread (.heap addr) r).Consistent lost := by
  have hcount : ∀ u l, ((s.schedEnqueueThread (.heap addr) r).queue l).count u =
      (s.queue l).count u + if l = .readyQueue ∧ u = .heap addr then 1 else 0 :=
    fun u l => queuePush_count _ .readyQueue l _ u
  have hth : ∀ u, u ≠ .heap addr →
      (s.schedEnqueueThread (.heap addr) r).thread u = s.thread u :=
    fun u hu => update_of_ne hu _ _
  have hall : (s.schedEnqueueThread (.heap addr) r).allThreads = .heap addr :: s.allThreads := rfl
  have hoff : ¬ s.OnCpu (.heap addr) := by
    rintro ⟨d,hd⟩
    rcases hs.current d _ hd with h | h
    · cases h
    · exact hnew h
  have hfresh : ∀ u ∉ (s.schedEnqueueThread (.heap addr) r).allThreads,
      u ≠ .heap addr ∧ u ∉ s.allThreads := by
    intro u hu
    rw [hall,mem_cons] at hu
    exact not_or.mp hu
  refine ⟨hs.idleOf,hs.online,?_,?_,?_,?_,hs.oneCpu,?_⟩
  · intro u hu
    rw [hth u (hfresh u hu).1]
    exact hs.awake u (hfresh u hu).2
  · intro d hd
    rcases List.mem_cons.mp hd with h | h
    · cases h
    · exact hs.idleUnregistered d h
  · intro u hu l
    rw [hcount,if_neg (fun h => (hfresh u hu).1 h.2)]
    exact hs.unregistered u (hfresh u hu).2 l
  · intro d u hu
    exact (hs.current d u hu).imp_right (mem_cons_of_mem _)
  · intro u hu
    rcases List.mem_cons.mp hu with rfl | hu
    · have hlink : (s.schedEnqueueThread (.heap addr) r).Linked (.heap addr) (some .readyQueue) := by
        intro l
        rw [hcount,hs.unregistered _ hnew l]
        by_cases hl : l = .readyQueue
        · simp [hl]
        · simp [hl,Ne.symm hl]
      have hself : (s.schedEnqueueThread (.heap addr) r).thread (.heap addr) = _ :=
        update_self _ _ _
      unfold Settled
      rw [hself]
      exact ⟨hw,.inl ⟨hlink,hoff⟩⟩
    · have hne : u ≠ .heap addr := fun h => hnew (h ▸ hu)
      refine (hs.settled u hu).frame (hth u hne) ?_ Iff.rfl
      intro l
      rw [hcount,if_neg (fun h => hne h.2)]
      rfl

theorem Consistent.schedInitCpu (hs : s.Consistent lost) (hoff : (s.cpu c).current = none) :
    (s.schedInitCpu c).Consistent lost := by
  have hcur : ∀ d, ((s.schedInitCpu c).cpu d).current =
      if d = c then some (.idle c) else (s.cpu d).current := by
    intro d
    by_cases h : d = c
    · subst h; simp [Sched.schedInitCpu]
    · simp [Sched.schedInitCpu,h]
  have hidle : ∀ d, ((s.schedInitCpu c).cpu d).idle =
      if d = c then some (.idle c) else (s.cpu d).idle := by
    intro d
    by_cases h : d = c
    · subst h; simp [Sched.schedInitCpu]
    · simp [Sched.schedInitCpu,h]
  have hth : ∀ u, u ≠ .idle c → (s.schedInitCpu c).thread u = s.thread u :=
    fun u hu => update_of_ne hu _ _
  have hoff' : ∀ u, (s.cpu c).current ≠ some u := by
    rw [hoff]
    exact fun _ h => by cases h
  refine hs.switch rfl hcur hidle (fun u hu => ?_) (fun u _ h _ => hth u h) (fun _ _ _ => rfl) (.inl rfl) ?_
  · by_cases h : u = .idle c
    · subst h
      simp [Sched.schedInitCpu]
    · rw [hth u h]
      exact hs.awake u hu
  · rintro u hu (rfl | h)
    · exact absurd hu (hs.idleUnregistered c)
    · exact absurd h (hoff' u)

/-- Calls with their arguments; `c` is the calling CPU and `now` the tick counter. -/
inductive Event where
  | schedInitCpu (c : Nat)
  | schedEnqueueThread (addr : Nat) (r : Thread)
  | threadYield (c : Nat)
  | threadSleep (c : Nat) (now ticks : BitVec 64)
  | schedulerTick (c : Nat) (now : BitVec 64)
  | schedWaitLocked (c : Nat) (q : WaitQueue)
  | wqWakeOne (q : WaitQueue)
  | wqWakeAll (q : WaitQueue)
  | schedWqWakeN (q : WaitQueue) (n : Int)
  | schedWakeThread (t : Option ThreadRef)
  | schedDeliverSignal (t : Option ThreadRef) (sig : Nat)
  | schedSignalPgrp (pgid : BitVec 32) (sig : Nat)

/-- A CPU starts its scheduler once, and the caller of `sched_enqueue_thread` has
just built the thread; everything else is open to any caller. -/
def step (s : Sched) : Event → Option Sched
  | .schedInitCpu c => if (s.cpu c).current = none then some (s.schedInitCpu c) else none
  | .schedEnqueueThread addr r =>
    if .heap addr ∉ s.allThreads ∧ r.waitQ = none then some (s.schedEnqueueThread (.heap addr) r)
    else none
  | .threadYield c => s.threadYield c
  | .threadSleep c now ticks => s.threadSleep c now ticks
  | .schedulerTick c now => some (s.schedulerTick c now)
  | .schedWaitLocked c q => s.schedWaitLocked c q
  | .wqWakeOne q => some (s.wqWakeOne q)
  | .wqWakeAll q => some (s.wqWakeAll q)
  | .schedWqWakeN q n => some (s.schedWqWakeN q n).2
  | .schedWakeThread t => some (s.schedWakeThread t)
  | .schedDeliverSignal t sig => some (s.schedDeliverSignal t sig)
  | .schedSignalPgrp pgid sig => some (s.schedSignalPgrp pgid sig).2

/-- Before any CPU has started its scheduler. -/
def boot (isBsp : Nat → Bool) : Sched := { cpu := fun c => { isBsp := isBsp c } }

/-- No runnable thread is lost or run twice. -/
structure Sound (s : Sched) : Prop where
  ready : ∀ t ∈ s.allThreads, (s.thread t).state = .ready →
    (s.queue .readyQueue).count t = 1 ∧ ¬ s.OnCpu t
  running : ∀ t ∈ s.allThreads, (s.thread t).state = .running →
    (∃! c, (s.cpu c).current = some t) ∧ ∀ l, t ∉ s.queue l
  blocked : ∀ t ∈ s.allThreads, (s.thread t).state = .blocked → ¬ s.OnCpu t
  idle : ∀ c, .idle c ∉ s.queue .readyQueue

/-- The only step with a side condition is a yield. -/
def EventOk (s : Sched) : Event → Prop
  | .threadYield c => s.YieldOk c
  | _ => True

theorem boot_consistent (isBsp : Nat → Bool) (lost : Prop) : (boot isBsp).Consistent lost where
  idleOf := by simp [boot]
  online := by simp [boot]
  awake := by simp [boot]
  idleUnregistered := by simp [boot]
  unregistered := by simp [boot,Linked]
  current := by simp [boot]
  oneCpu := by simp [boot]
  settled := by simp [boot]

theorem Consistent.step {lost : Prop} {s' : Sched} {e : Event} (hs : s.Consistent lost)
    (hok : lost ∨ s.EventOk e) (h : s.step e = some s') : s'.Consistent lost := by
  cases e with
  | schedInitCpu c =>
    obtain ⟨hoff,h⟩ := Option.ite_none_right_eq_some.mp h
    cases h; exact hs.schedInitCpu hoff
  | schedEnqueueThread addr r =>
    obtain ⟨⟨hnew,hw⟩,h⟩ := Option.ite_none_right_eq_some.mp h
    cases h; exact hs.schedEnqueueThread hnew hw
  | threadYield c => exact hs.threadYield hok h
  | threadSleep c now ticks => exact hs.threadSleep h
  | schedulerTick c now => cases h; exact hs.schedulerTick c now
  | schedWaitLocked c q => exact hs.schedWaitLocked h
  | wqWakeOne q => cases h; exact hs.wqWakeOne q
  | wqWakeAll q | schedWqWakeN q n => cases h; exact hs.wakeLoop _ 0
  | schedWakeThread t => cases h; exact hs.schedWakeThread t
  | schedDeliverSignal t sig => cases h; exact hs.schedDeliverSignal t sig
  | schedSignalPgrp pgid sig => cases h; exact hs.schedSignalPgrp pgid sig

/-- Whatever the yields do, every reachable state meets the weak invariant. -/
theorem reachable_consistent (isBsp : Nat → Bool) (es : List Event)
    (h : exec step (boot isBsp) es = some s) : s.Consistent True :=
  exec_keeps (fun _ _ _ hs _ h => Consistent.step hs (.inl trivial) h) (boot_consistent isBsp True)
    (fun _ _ => trivial) h

theorem Consistent.sound (hs : s.Consistent False) : s.Sound where
  ready := by
    intro t ht hst
    have h := hs.settled t ht
    unfold Settled at h
    rw [hst] at h
    obtain ⟨_,⟨hl,hoff⟩ | ⟨hlost,_⟩⟩ := h
    · exact ⟨hl .readyQueue,hoff⟩
    · exact hlost.elim
  running := by
    intro t ht hst
    have h := hs.settled t ht
    unfold Settled at h
    rw [hst] at h
    obtain ⟨_,hl,c,hc⟩ := h
    exact ⟨⟨c,hc,fun d hd => hs.oneCpu d c t hd hc⟩,hl.notMem⟩
  blocked := by
    intro t ht hst
    exact ((hs.settled t ht).blocked hst).2
  idle := fun c => hs.idle_notMem c _

private theorem Consistent.lone_yield {c : Nat} (hs : s.Consistent False) (hbad : ¬ s.YieldOk c) :
    ∃ s', s.threadYield c = some s' ∧ ¬ s'.Sound := by
  simp only [YieldOk,not_forall] at hbad
  obtain ⟨hq,t,hc,hne⟩ := hbad
  obtain ⟨hi,rfl | ⟨_,ht,_⟩⟩ := hs.cur_cases hc
  · exact absurd hi hne
  obtain ⟨_,_,hrun | ⟨hlost,_⟩⟩ := hs.onCpu ht hc
  swap
  · exact hlost.elim
  refine ⟨_,threadYield_alone hc hne hrun hq,fun hsound => ?_⟩
  have hcount := (hsound.ready t ht (by simp [setState])).1
  have hnil : (s.setState t .ready).queue .readyQueue = [] := hq
  rw [hnil] at hcount
  cases hcount

/-- A run loses no thread exactly when no thread but the idle one ever yields
while the ready queue is empty. -/
theorem no_thread_lost_iff (isBsp : Nat → Bool) (es : List Event) :
    Always step Sound (boot isBsp) es ↔ Along step EventOk (boot isBsp) es := by
  refine always_iff_along (fun _ (hs : Consistent _ False) => hs.sound)
    (fun _ _ _ hs hok h => hs.step (.inr hok) h) ?_ (boot isBsp) es (boot_consistent isBsp False)
  intro s e hs hbad
  cases e with
  | threadYield c => exact hs.lone_yield hbad
  | _ => exact absurd trivial hbad

/-- Thread 1 yields alone and stays current but ready. The next tick then runs
thread 2, and thread 1 is in no queue and on no CPU. -/
theorem lone_yield_loses_thread :
    ¬ Always step Sound (boot fun _ => true)
      [.schedInitCpu 0,.schedEnqueueThread 1 {},.threadYield 0,.threadYield 0] ∧
    (exec step (boot fun _ => true)
      [.schedInitCpu 0,.schedEnqueueThread 1 {},.threadYield 0,.threadYield 0,
        .schedEnqueueThread 2 {},.schedulerTick 0 0]).map
      (fun s => ((s.thread (.heap 1)).state,s.queue .readyQueue,(s.cpu 0).current)) =
      some (.ready,[],some (.heap 2)) := by
  refine ⟨fun h => ?_,rfl⟩
  have hlast := (h.last rfl).ready (.heap 1) (by decide) rfl
  exact absurd hlast.1 (by decide)

end Lariat.Kernel.Sched
