import Lariat.Kernel.SchedInvariant

/-! Context switches keep every thread in its place: a thread leaves its CPU for
one list, and the next one comes from the ready queue or is the idle thread. -/
namespace Lariat.Kernel.Sched
open Option List

variable {lost : Prop} {s s' : Sched} {c : Nat} {x y cur : ThreadRef}

theorem oneCpu_taken (hone : ∀ d e t, (s.cpu d).current = some t → (s.cpu e).current = some t → d = e)
    (hcur : ∀ d, (s'.cpu d).current = if d = c then some x else (s.cpu d).current)
    (hfree : ∀ d, d ≠ c → (s.cpu d).current ≠ some x) (d e : Nat) (t : ThreadRef)
    (hd : (s'.cpu d).current = some t) (he : (s'.cpu e).current = some t) : d = e := by
  rw [hcur] at hd he
  split_ifs at hd he with h1 h2 h2
  · rw [h1,h2]
  · cases hd; exact absurd he (hfree e h2)
  · cases he; exact absurd hd (hfree d h1)
  · exact hone d e t hd he

/-- CPU `c` goes to `x`; only that thread and the one it had may change otherwise. -/
theorem Consistent.switch (hs : s.Consistent lost) (hall : s'.allThreads = s.allThreads)
    (hcur : ∀ d, (s'.cpu d).current = if d = c then some x else (s.cpu d).current)
    (hidle : ∀ d, (s'.cpu d).idle = if d = c then some (.idle c) else (s.cpu d).idle)
    (hawake : ∀ u ∉ s.allThreads, (s'.thread u).state ≠ .blocked)
    (hth : ∀ u ∈ s.allThreads, u ≠ x → (s.cpu c).current ≠ some u → s'.thread u = s.thread u)
    (hq : ∀ u, u ∉ s.allThreads ∨ u ≠ x ∧ (s.cpu c).current ≠ some u →
      ∀ l, (s'.queue l).count u = (s.queue l).count u)
    (hx : x = .idle c ∨ x ∈ s.allThreads ∧ ¬ s.OnCpu x)
    (hset : ∀ u ∈ s.allThreads, u = x ∨ (s.cpu c).current = some u → s'.Settled lost u) :
    s'.Consistent lost := by
  have hfree : ∀ d, d ≠ c → (s.cpu d).current ≠ some x := by
    intro d hd h
    rcases hx with rfl | ⟨_,hoff⟩
    · rcases hs.current d _ h with he | hmem
      · cases he; exact hd rfl
      · exact hs.idleUnregistered c hmem
    · exact hoff ⟨d,h⟩
  refine ⟨?_,?_,hall ▸ hawake,?_,?_,?_,oneCpu_taken hs.oneCpu hcur hfree,?_⟩
  · intro d i h
    rw [hidle] at h
    split_ifs at h with hd
    · cases h; rw [hd]
    · exact hs.idleOf d i h
  · intro d t h
    rw [hidle]
    rw [hcur] at h
    split_ifs at h ⊢ with hd
    · rw [hd]
    · exact hs.online d t h
  · rw [hall]; exact hs.idleUnregistered
  · intro t ht l
    rw [hall] at ht
    rw [hq t (.inl ht)]
    exact hs.unregistered t ht l
  · intro d t h
    rw [hall]
    rw [hcur] at h
    split_ifs at h with hd
    · cases h
      exact hx.imp (fun h => hd ▸ h) And.left
    · exact hs.current d t h
  · intro u hu
    rw [hall] at hu
    by_cases hux : u = x
    · exact hset u hu (.inl hux)
    by_cases huy : (s.cpu c).current = some u
    · exact hset u hu (.inr huy)
    refine (hs.settled u hu).frame (hth u hu hux huy) (hq u (.inr ⟨hux,huy⟩)) ?_
    constructor
    · rintro ⟨d,h⟩
      rw [hcur] at h
      split_ifs at h with hd
      · exact absurd (some.inj h).symm hux
      · exact ⟨d,h⟩
    · rintro ⟨d,h⟩
      refine ⟨d,?_⟩
      rw [hcur,if_neg,h]
      rintro rfl
      exact huy h

theorem Consistent.idle_eq (hs : s.Consistent lost) (hc : (s.cpu c).current = some y) (d : Nat) :
    (s.cpu d).idle = if d = c then some (.idle c) else (s.cpu d).idle := by
  split_ifs with h
  · rw [h]; exact hs.online c y hc
  · rfl

/-- The switch itself: to the head of the ready queue, or else to the idle thread. -/
def dispatch (s : Sched) (c : Nat) : Sched :=
  match s.queue .readyQueue with
  | [] => s.switchTo c (.idle c)
  | t :: ts => (s.setQueue .readyQueue ts).switchTo c t

theorem dispatch_setCurrent (s : Sched) (c : Nat) (t : ThreadRef) :
    (s.setCurrent c t).dispatch c = s.dispatch c := by
  unfold dispatch
  simp only [setCurrent_queue]
  cases s.queue .readyQueue with
  | nil => simp [switchTo,setCurrent,setState,modify]
  | cons a as => simp [switchTo,setCurrent,setState,modify,setQueue]

theorem dispatch_field {α : Type*} (g : Thread → α) (hg : ∀ r st, g { r with state := st } = g r)
    (s : Sched) (c : Nat) (t : ThreadRef) : g ((s.dispatch c).thread t) = g (s.thread t) := by
  unfold dispatch switchTo setState
  cases s.queue .readyQueue with
  | nil => rw [setCurrent_thread,modify_field g s _ t (hg _ _)]
  | cons u us => rw [setCurrent_thread,modify_field g _ u t (hg _ _),setQueue_thread]

private theorem switchTo_current (s : Sched) (c d : Nat) (t : ThreadRef) :
    ((s.switchTo c t).cpu d).current = if d = c then some t else (s.cpu d).current := by
  simp [switchTo,setState]

private theorem switchTo_thread (s : Sched) (c : Nat) (t u : ThreadRef) :
    (s.switchTo c t).thread u =
      if u = t then { s.thread t with state := .running } else s.thread u := by
  simp [switchTo,setState]

theorem Consistent.dispatch (hs : s.Consistent lost)
    (hc : (s.cpu c).current = some (.idle c)) : (s.dispatch c).Consistent lost := by
  have hawake : ∀ (r : Sched) (t : ThreadRef), r.thread = s.thread →
      ∀ u ∉ s.allThreads, ((r.switchTo c t).thread u).state ≠ .blocked := by
    intro r t hr u hu
    rw [switchTo_thread]
    split_ifs
    · simp
    · rw [hr]; exact hs.awake u hu
  have hleft : ∀ u ∈ s.allThreads, (s.cpu c).current ≠ some u := by
    rintro u hu h
    cases hc.symm.trans h
    exact hs.idleUnregistered c hu
  unfold Sched.dispatch
  cases hq : s.queue .readyQueue with
  | nil =>
    refine hs.switch rfl (switchTo_current s c · _)
      (fun d => by rw [← hs.idle_eq hc]; simp [switchTo,setState])
      (hawake s _ rfl) ?_ (fun _ _ _ => rfl) (.inl rfl) ?_
    · intro u hu h _
      rw [switchTo_thread,if_neg h]
    · rintro u hu (rfl | h)
      · exact absurd hu (hs.idleUnregistered c)
      · exact absurd h (hleft u hu)
  | cons t ts =>
    have hmem : t ∈ s.queue .readyQueue := by rw [hq]; simp
    obtain ⟨ht,hl,hoff,⟨_,hst,hw⟩ | ⟨_,hh⟩⟩ := hs.linked hmem
    swap
    · exact absurd hh (home_ne_ready _)
    have hcount : ∀ u l, (((s.setQueue .readyQueue ts).switchTo c t).queue l).count u =
        (s.queue l).count u - if l = .readyQueue ∧ u = t then 1 else 0 := by
      intro u l
      have hr := queueRemove_count s .readyQueue l t u
      rwa [queueRemove,hq,erase_cons_head] at hr
    refine hs.switch rfl (switchTo_current _ c · _)
      (fun d => by rw [← hs.idle_eq hc]; simp [switchTo,setState,setQueue])
      (hawake _ _ rfl) ?_ ?_ (.inr ⟨ht,hoff⟩) ?_
    · intro u hu h _
      rw [switchTo_thread,if_neg h,setQueue_thread]
    · intro u hu l
      rw [hcount,if_neg]
      · rfl
      · rintro ⟨_,rfl⟩
        exact hu.elim (fun h => h ht) (fun h => h.1 rfl)
    · rintro u hu (rfl | h)
      · unfold Settled
        rw [switchTo_thread,if_pos rfl]
        refine ⟨hw,fun l => ?_,c,?_⟩
        · rw [hcount,hl l]
          by_cases hr : l = .readyQueue
          · simp [hr]
          · simp [hr,Ne.symm hr]
        · rw [switchTo_current,if_pos rfl]
      · exact absurd h (hleft u hu)

variable {r : Sched} {q : WaitQueue}

theorem Consistent.leave (hs : s.Consistent lost) (hc : (s.cpu c).current = some cur)
    (hcur : cur ∈ s.allThreads) (hall : r.allThreads = s.allThreads) (hcpu : r.cpu = s.cpu)
    (hth : ∀ u, u ≠ cur → r.thread u = s.thread u)
    (hq : ∀ u, u ≠ cur → ∀ l, (r.queue l).count u = (s.queue l).count u)
    (hset : (r.setCurrent c (.idle c)).Settled lost cur) : (r.dispatch c).Consistent lost := by
  have hr : (r.setCurrent c (.idle c)).Consistent lost := by
    refine hs.switch hall ?_ ?_ ?_ (fun u _ _ h => hth u fun he => h (he ▸ hc)) ?_ (.inl rfl) ?_
    · intro d
      rw [setCurrent_current,hcpu]
    · intro d
      rw [setCurrent_idle,hcpu]
      exact hs.idle_eq hc d
    · intro u hu
      rw [setCurrent_thread,hth u (fun h => hu (h ▸ hcur))]
      exact hs.awake u hu
    · intro u hu l
      refine hq u ?_ l
      rintro rfl
      exact hu.elim (fun h => h hcur) (fun h => h.2 hc)
    · rintro u hu (rfl | h)
      · exact absurd hu (hs.idleUnregistered c)
      · cases hc.symm.trans h
        exact hset
  rw [← dispatch_setCurrent r c (.idle c)]
  exact hr.dispatch (by rw [setCurrent_current,if_pos rfl])

theorem reschedule_switch (hi : (r.cpu c).idle = some (.idle c)) (hne : cur ≠ .idle c)
    (hnq : (r.queue .readyQueue).head? ≠ some cur) :
    r.reschedule c (some cur) = some (r.dispatch c) := by
  unfold reschedule pickNext queuePop dispatch
  cases hq : r.queue .readyQueue with
  | nil => simp [hi,Ne.symm hne]
  | cons a as =>
    rw [hq] at hnq
    have ha : a ≠ cur := fun h => hnq (by rw [h]; rfl)
    simp [ha]

theorem reschedule_idle (hi : (r.cpu c).idle = some (.idle c)) (hnq : .idle c ∉ r.queue .readyQueue) :
    r.reschedule c (some (.idle c)) =
      some (if r.queue .readyQueue = [] then r else r.dispatch c) := by
  unfold reschedule pickNext queuePop dispatch
  cases hq : r.queue .readyQueue with
  | nil => simp [hi]
  | cons a as =>
    have ha : a ≠ .idle c := by
      rintro rfl
      exact hnq (by rw [hq]; simp)
    simp [ha]

theorem Consistent.onCpu (hs : s.Consistent lost) (hcur : cur ∈ s.allThreads)
    (hc : (s.cpu c).current = some cur) :
    (s.thread cur).waitQ = none ∧ s.Linked cur none ∧
      ((s.thread cur).state = .running ∨ lost ∧ (s.thread cur).state = .ready) := by
  obtain ⟨hst,hw,⟨_,hoff⟩ | ⟨hlost,hl⟩⟩ | ⟨hst,hw,hl,_⟩ | ⟨_,_,hoff⟩ := (hs.settled cur hcur).cases
  · exact absurd ⟨c,hc⟩ hoff
  · exact ⟨hw,hl,.inr ⟨hlost,hst⟩⟩
  · exact ⟨hw,hl,.inl hst⟩
  · exact absurd ⟨c,hc⟩ hoff

section

variable (hs : s.Consistent lost) (hc : (s.cpu c).current = some cur) (hcur : cur ∈ s.allThreads)
include hs hc hcur

/-- The thread on the CPU goes to the list that its new record `x` names, and the
CPU dispatches. -/
theorem Consistent.park (l : ListRef) (x : Thread) (hall : r.allThreads = s.allThreads)
    (hcpu : r.cpu = s.cpu) (hth : ∀ u, r.thread u = if u = cur then x else s.thread u)
    (hq : ∀ u m, (r.queue m).count u = (s.queue m).count u + if m = l ∧ u = cur then 1 else 0)
    (hx : x.state = .ready ∧ x.waitQ = none ∧ l = .readyQueue ∨ x.state = .blocked ∧ home x = l) :
    (r.dispatch c).Consistent lost := by
  obtain ⟨_,hl,_⟩ := hs.onCpu hcur hc
  refine hs.leave hc hcur hall hcpu (fun u hu => by rw [hth,if_neg hu])
    (fun u hu m => by rw [hq,if_neg (fun h => hu h.2)]; rfl) ?_
  have hoff : ¬ (r.setCurrent c (.idle c)).OnCpu cur := by
    rintro ⟨d,hd⟩
    rw [setCurrent_current,hcpu] at hd
    split_ifs at hd with h
    · exact hs.idleUnregistered c (some.inj hd ▸ hcur)
    · exact h (hs.oneCpu d c cur hd hc)
  have hlink : (r.setCurrent c (.idle c)).Linked cur (some l) := by
    intro m
    rw [setCurrent_queue,hq,hl m]
    by_cases h : m = l
    · simp [h]
    · simp [h,Ne.symm h]
  unfold Settled
  rw [setCurrent_thread,hth,if_pos rfl]
  rcases hx with ⟨hst,hw,rfl⟩ | ⟨hst,rfl⟩
  · rw [hst]
    exact ⟨hw,.inl ⟨hlink,hoff⟩⟩
  · rw [hst]
    exact ⟨hlink,hoff⟩

/-- A thread already marked ready by a lone yield leaves its CPU without a trace. -/
theorem Consistent.drop (hlost : lost) (hst : (s.thread cur).state = .ready) :
    (s.dispatch c).Consistent lost := by
  obtain ⟨hw,hl,_⟩ := hs.onCpu hcur hc
  refine hs.leave hc hcur rfl rfl (fun _ _ => rfl) (fun _ _ _ => rfl) ?_
  unfold Settled
  rw [setCurrent_thread,hst]
  exact ⟨hw,.inr ⟨hlost,hl⟩⟩

end

theorem makeReady_thread (s : Sched) (t u : ThreadRef) :
    (s.makeReady t).thread u =
      if u = t then { s.thread t with state := .ready } else s.thread u := by
  simp [makeReady,setState,queuePush]

theorem makeReady_count (s : Sched) (t u : ThreadRef) (l : ListRef) :
    ((s.makeReady t).queue l).count u =
      (s.queue l).count u + if l = .readyQueue ∧ u = t then 1 else 0 :=
  queuePush_count (s.setState t .ready) _ l t u

section Switching

variable (hs : s.Consistent lost)
include hs

theorem Consistent.requeue (hc : (s.cpu c).current = some cur) (hcur : cur ∈ s.allThreads) :
    ((s.makeReady cur).dispatch c).Consistent lost :=
  hs.park hc hcur .readyQueue { s.thread cur with state := .ready } rfl rfl
    (makeReady_thread s cur) (fun u m => makeReady_count s cur u m)
    (.inl ⟨rfl,(hs.onCpu hcur hc).1,rfl⟩)

/-- The current thread is the idle one, or a registered one that no list holds. -/
theorem Consistent.cur_cases (hc : (s.cpu c).current = some cur) : (s.cpu c).idle = some (.idle c) ∧
      (cur = .idle c ∨ cur ≠ .idle c ∧ cur ∈ s.allThreads ∧ s.Linked cur none) := by
  refine ⟨hs.online c cur hc,?_⟩
  rcases hs.current c cur hc with h | h
  · exact .inl h
  · exact .inr ⟨fun he => hs.idleUnregistered c (he ▸ h),h,(hs.onCpu h hc).2.1⟩

theorem Consistent.idle_notMem (c : Nat) (l : ListRef) : .idle c ∉ s.queue l :=
  (hs.unregistered _ (hs.idleUnregistered c)).notMem l

theorem Consistent.current_awake (hc : (s.cpu c).current = some cur) :
    (s.thread cur).state ≠ .blocked := by
  rcases hs.current c cur hc with rfl | hcur
  · exact hs.awake _ (hs.idleUnregistered c)
  · obtain ⟨_,_,h | ⟨_,h⟩⟩ := hs.onCpu hcur hc <;> rw [h] <;> simp

theorem Consistent.reschedule_idle (hc : (s.cpu c).current = some (.idle c))
    (h : s.reschedule c (some (.idle c)) = some s') : s'.Consistent lost := by
  rw [Sched.reschedule_idle (hs.online c _ hc) (hs.idle_notMem c _)] at h
  split_ifs at h
  · cases h; exact hs
  · cases h; exact hs.dispatch hc

end Switching

theorem reschedule_none (h : s.reschedule c none = some s') : s' = s := by
  unfold reschedule pickNext queuePop at h
  cases hq : s.queue .readyQueue with
  | cons t ts => simp [hq] at h
  | nil =>
    cases hi : (s.cpu c).idle with
    | some i => simp [hq,hi] at h
    | none => simpa [hq,hi] using h.symm

/-- A yield is harmless when it is idle's, or when another thread is ready. -/
def YieldOk (s : Sched) (c : Nat) : Prop :=
  s.queue .readyQueue = [] → ∀ t, (s.cpu c).current = some t → (s.cpu c).idle = some t

/-- With nothing else ready, the yielding thread pops itself and stays ready. -/
theorem threadYield_alone (hc : (s.cpu c).current = some cur) (hne : (s.cpu c).idle ≠ some cur)
    (hst : (s.thread cur).state = .running) (hq : s.queue .readyQueue = []) :
    s.threadYield c = some (s.setState cur .ready) := by
  have hpop : (s.makeReady cur).queue .readyQueue = [cur] := by
    simp [makeReady,queuePush,setState,hq]
  have hback : (s.makeReady cur).setQueue .readyQueue [] = s.setState cur .ready := by
    simp only [makeReady,queuePush,setQueue,setState,modify,Function.update_idem]
    rw [← hq,Function.update_eq_self]
  unfold threadYield
  rw [hc]
  simp only [hst,true_and]
  rw [if_pos (Ne.symm hne)]
  simp [reschedule,pickNext,queuePop,hpop,hback]

theorem Consistent.threadYield (hs : s.Consistent lost) (hok : lost ∨ s.YieldOk c)
    (h : s.threadYield c = some s') : s'.Consistent lost := by
  cases hc : (s.cpu c).current with
  | none =>
    unfold Sched.threadYield at h
    rw [hc] at h
    rw [reschedule_none h]
    exact hs
  | some cur =>
    obtain ⟨hi,rfl | ⟨hne,hcur,hl⟩⟩ := hs.cur_cases hc
    · unfold Sched.threadYield at h
      simp only [hc,hi,ne_eq,not_true_eq_false,and_false,if_false] at h
      exact hs.reschedule_idle hc h
    have hidle : (s.cpu c).idle ≠ some cur := by
      rw [hi]
      exact fun he => hne (some.inj he).symm
    obtain ⟨_,_,hrun | ⟨hlost,hrdy⟩⟩ := hs.onCpu hcur hc
    · by_cases hq : s.queue .readyQueue = []
      · rw [threadYield_alone hc hidle hrun hq] at h
        cases h
        have hlost : lost := hok.resolve_right fun hy => hidle (hy hq cur hc)
        refine hs.update cur hcur rfl rfl (fun u hu => by simp [setState,hu]) (fun _ _ _ => rfl) ?_
        unfold Settled
        simp only [setState,modify_thread,if_pos]
        exact ⟨(hs.onCpu hcur hc).1,.inr ⟨hlost,hl⟩⟩
      · have hhead : ((s.makeReady cur).queue .readyQueue).head? ≠ some cur := by
          intro he
          obtain ⟨t,ts,ht⟩ := exists_cons_of_ne_nil hq
          have hrq : (s.makeReady cur).queue .readyQueue = s.queue .readyQueue ++ [cur] := by
            simp [makeReady,queuePush,setState]
          rw [hrq,ht] at he
          exact hl.notMem .readyQueue (by rw [ht,← some.inj he]; simp)
        unfold Sched.threadYield at h
        simp only [hc,hrun,true_and] at h
        rw [if_pos (Ne.symm hidle),reschedule_switch (r := s.makeReady cur) hi hne hhead] at h
        cases h
        exact hs.requeue hc hcur
    · unfold Sched.threadYield at h
      simp only [hc,hrdy] at h
      rw [if_neg (by simp),reschedule_switch hi hne
        (fun he => hl.notMem _ (mem_of_mem_head? he))] at h
      cases h
      exact hs.drop hc hcur hlost hrdy

theorem Consistent.threadSleep {now ticks : BitVec 64} (hs : s.Consistent lost)
    (h : s.threadSleep c now ticks = some s') : s'.Consistent lost := by
  unfold Sched.threadSleep at h
  cases hc : (s.cpu c).current with
  | none =>
    rw [hc] at h
    rw [reschedule_none h]
    exact hs
  | some cur =>
    obtain ⟨hi,rfl | ⟨hne,hcur,hl⟩⟩ := hs.cur_cases hc
    · simp only [hc,hi,ne_eq,not_true_eq_false,if_false] at h
      exact hs.reschedule_idle hc h
    simp only [hc,hi,ne_eq,some.injEq,hne,not_false_iff,if_true] at h
    have hw := (hs.onCpu hcur hc).1
    set r := (s.modify cur fun r => { r with
      state := .blocked, wakeupTick := now+ticks }).setQueue .sleepList _ with hr
    have hrq : r.queue .readyQueue = s.queue .readyQueue := by simp [hr]
    rw [reschedule_switch (r := r) hi hne
      (fun he => hl.notMem .readyQueue (hrq ▸ mem_of_mem_head? he))] at h
    cases h
    refine hs.park hc hcur .sleepList
      { s.thread cur with state := .blocked, wakeupTick := now+ticks } rfl rfl ?_ ?_
      (.inr ⟨rfl,by simp [home,hw]⟩)
    · intro u
      simp [hr]
    · intro u m
      by_cases hm : m = .sleepList
      · subst hm
        by_cases hu : u = cur
        · simp [hr,hu]
        · simp [hr,hu,Ne.symm hu]
      · simp [hr,hm]

theorem schedWaitLocked_switch (hc : (s.cpu c).current = some cur)
    (hi : (s.cpu c).idle = some (.idle c)) (hne : cur ≠ .idle c)
    (hnq : (s.queue .readyQueue).head? ≠ some cur) : s.schedWaitLocked c q =
      some (((s.modify cur fun r => { r with state := .blocked, waitQ := some q }).queuePush
        (.waitQueue q) cur).dispatch c) := by
  unfold schedWaitLocked
  simp only [hc,hi,some.injEq,hne,if_false]
  set r := (s.modify cur fun r => { r with state := .blocked, waitQ := some q }).queuePush
    (.waitQueue q) cur with hr
  have hrq : r.queue .readyQueue = s.queue .readyQueue := by simp [hr,queuePush]
  have hri : (r.cpu c).idle = some (.idle c) := hi
  unfold pickNext queuePop dispatch
  rw [hrq]
  cases hrdy : s.queue .readyQueue with
  | nil => simp [hri,Ne.symm hne]
  | cons t ts =>
    rw [hrdy] at hnq
    have ht : t ≠ cur := fun h => hnq (by rw [h]; rfl)
    simp [ht]

/-- A wait does nothing for the idle thread; any other thread is parked. -/
theorem Consistent.schedWaitLocked_cases (hs : s.Consistent lost)
    (h : s.schedWaitLocked c q = some s') :
    (s' = s ∧ ∀ t, (s.cpu c).current = some t → t = .idle c) ∨
      ∃ cur, (s.cpu c).current = some cur ∧ cur ≠ .idle c ∧ cur ∈ s.allThreads ∧
        s' = ((s.modify cur fun r => { r with state := .blocked, waitQ := some q }).queuePush
          (.waitQueue q) cur).dispatch c := by
  cases hc : (s.cpu c).current with
  | none =>
    unfold Sched.schedWaitLocked at h
    rw [hc] at h
    cases h
    exact .inl ⟨rfl,by simp⟩
  | some cur =>
    obtain ⟨hi,rfl | ⟨hne,hcur,hl⟩⟩ := hs.cur_cases hc
    · unfold Sched.schedWaitLocked at h
      simp only [hc,hi,if_true] at h
      cases h
      exact .inl ⟨rfl,fun t ht => (some.inj ht).symm⟩
    · rw [schedWaitLocked_switch hc hi hne
        (fun he => hl.notMem _ (mem_of_mem_head? he))] at h
      cases h
      exact .inr ⟨cur,rfl,hne,hcur,rfl⟩

theorem Consistent.schedWaitLocked (hs : s.Consistent lost) (h : s.schedWaitLocked c q = some s') :
    s'.Consistent lost := by
  obtain ⟨rfl,_⟩ | ⟨cur,hc,_,hcur,rfl⟩ := hs.schedWaitLocked_cases h
  · exact hs
  refine hs.park hc hcur (.waitQueue q)
    { s.thread cur with state := .blocked, waitQ := some q } rfl rfl (by simp [queuePush]) ?_
    (.inr ⟨rfl,rfl⟩)
  intro u m
  rw [queuePush_count,modify_queue]

end Lariat.Kernel.Sched
