import Lariat.Kernel.ChildExit

/-! What the wake-ups of exit and stop do to the lists that share one link field:
they keep the queues sound exactly when the threads they wake were in no list. -/
namespace Lariat.Kernel.Sched
open Foundation.Runs List

/-- The lists and the CPUs hold every thread at most once, and each list holds
only threads in the state that its wake-ups and pops expect. -/
structure QueuesSound (s : Sched) : Prop where
  once : ∀ t, ∃ p, s.Linked t p
  queued : ∀ t ∈ s.queue .readyQueue, (s.thread t).state = .ready
  parked : ∀ l, l ≠ .readyQueue → ∀ t ∈ s.queue l, (s.thread t).state = .blocked
  unlinked : ∀ c t, (s.cpu c).current = some t → s.Linked t none
  oneCpu : ∀ c d t, (s.cpu c).current = some t → (s.cpu d).current = some t → c = d
  online : ∀ c t, (s.cpu c).current = some t → (s.cpu c).idle = some (.idle c)
  idleUnlinked : ∀ c, s.Linked (.idle c) none
  idleHome : ∀ c d, (s.cpu c).current = some (.idle d) → c = d
  idleAwake : ∀ c, (s.thread (.idle c)).state ≠ .blocked

/-- In no list and on no CPU, as a thread blocked in `waitpid` is. -/
def Loose (s : Sched) (t : ThreadRef) : Prop := s.Linked t none ∧ ¬ s.OnCpu t

variable {s r : Sched} {c : Nat} {cur : ThreadRef} {W : ThreadRef → Prop}

private theorem dispatch_spec (r : Sched) (c : Nat) : ∃ next,
    (next = .idle c ∨ next ∈ r.queue .readyQueue) ∧
    (∀ u, ((r.dispatch c).thread u).state = if u = next then .running else (r.thread u).state) ∧
    (∀ u l, ((r.dispatch c).queue l).count u =
      (r.queue l).count u - if l = .readyQueue ∧ u = next then 1 else 0) ∧
    (∀ d, ((r.dispatch c).cpu d).current = if d = c then some next else (r.cpu d).current) ∧
    ∀ d, ((r.dispatch c).cpu d).idle = (r.cpu d).idle := by
  unfold dispatch
  cases hq : r.queue .readyQueue with
  | nil =>
    refine ⟨.idle c,.inl rfl,?_,?_,?_,?_⟩
    · intro u
      by_cases h : u = .idle c <;> simp [switchTo,setState,h]
    · intro u l
      by_cases h : l = .readyQueue ∧ u = .idle c
      · obtain ⟨rfl,rfl⟩ := h
        simp [switchTo,setState,hq]
      · rw [if_neg h]
        rfl
    · simp [switchTo,setState]
    · simp [switchTo,setState]
  | cons t ts =>
    refine ⟨t,.inr (by simp),?_,?_,?_,?_⟩
    · intro u
      by_cases h : u = t <;> simp [switchTo,setState,h]
    · intro u l
      have hr := queueRemove_count r .readyQueue l t u
      rwa [queueRemove,hq,erase_cons_head] at hr
    · simp [switchTo,setState,setQueue]
    · simp [switchTo,setState,setQueue]

theorem QueuesSound.dispatch (hs : s.QueuesSound) (hc : (s.cpu c).current = some (.idle c)) :
    (s.dispatch c).QueuesSound := by
  obtain ⟨next,hnext,hstate,hcount,hcur,hidle⟩ := dispatch_spec s c
  have hfree : s.Linked next none ∨ s.Linked next (some .readyQueue) := by
    rcases hnext with rfl | h
    · exact .inl (hs.idleUnlinked c)
    · obtain ⟨p,hp⟩ := hs.once next
      exact .inr (hp.of_mem h ▸ hp)
  have hoff : ∀ d, d ≠ c → (s.cpu d).current ≠ some next := by
    intro d hd h
    rcases hnext with rfl | hmem
    · exact hd (hs.idleHome d c h)
    · exact (hs.unlinked d next h).notMem _ hmem
  have hnone : (s.dispatch c).Linked next none := by
    intro l
    rw [hcount]
    rcases hfree with h | h
    · simp [h l]
    · rw [h l]
      by_cases hl : l = .readyQueue
      · simp [hl]
      · simp [hl,Ne.symm hl]
  have hlink : ∀ u p, u ≠ next → s.Linked u p → (s.dispatch c).Linked u p := by
    intro u p hu hp l
    rw [hcount,hp l]
    simp [hu]
  have hmem : ∀ {u l}, u ∈ (s.dispatch c).queue l → u ≠ next ∧ u ∈ s.queue l := by
    intro u l hu
    have hne : u ≠ next := fun he => hnone.notMem l (he ▸ hu)
    have h := count_pos_iff.mpr hu
    rw [hcount,if_neg (fun h => hne h.2)] at h
    exact ⟨hne,count_pos_iff.mp h⟩
  refine ⟨?_,?_,?_,?_,oneCpu_taken hs.oneCpu hcur hoff,?_,?_,?_,?_⟩
  · intro t
    by_cases ht : t = next
    · exact ⟨none,ht ▸ hnone⟩
    · obtain ⟨p,hp⟩ := hs.once t
      exact ⟨p,hlink t p ht hp⟩
  · intro t ht
    obtain ⟨hne,ht⟩ := hmem ht
    rw [hstate,if_neg hne]
    exact hs.queued t ht
  · intro l hl t ht
    obtain ⟨hne,ht⟩ := hmem ht
    rw [hstate,if_neg hne]
    exact hs.parked l hl t ht
  · intro d t ht
    rw [hcur] at ht
    split_ifs at ht with hd
    · cases ht; exact hnone
    · exact hlink t none (fun he => hoff d hd (he ▸ ht)) (hs.unlinked d t ht)
  · intro d t ht
    rw [hidle]
    rw [hcur] at ht
    split_ifs at ht with hd
    · exact hd ▸ hs.online c _ hc
    · exact hs.online d t ht
  · intro d
    by_cases h : .idle d = next
    · exact h ▸ hnone
    · exact hlink _ none h (hs.idleUnlinked d)
  · intro d e hd
    rw [hcur] at hd
    split_ifs at hd with h1
    · rcases hnext with rfl | hmem
      · cases hd; exact h1
      · cases hd
        exact absurd hmem ((hs.idleUnlinked e).notMem _)
    · exact hs.idleHome d e hd
  · intro d
    rw [hstate]
    split_ifs
    · simp
    · exact hs.idleAwake d

/-- The state `r` between the wake-ups of a leaving thread and the switch: the
threads in `W` are made ready and `cur` is parked on `park`, if on a list at all, or dies. -/
structure Left (s r : Sched) (cur : ThreadRef) (W : ThreadRef → Prop) [DecidablePred W]
    (park : Option ListRef) : Prop where
  cpu : r.cpu = s.cpu
  count : ∀ u l, (r.queue l).count u = (s.queue l).count u +
    (if l = .readyQueue ∧ W u then 1 else 0) + if park = some l ∧ u = cur then 1 else 0
  state : ∀ u, u ≠ cur → (r.thread u).state = if W u then .ready else (s.thread u).state
  last : (r.thread cur).state = .zombie ∧ park = none ∨
    (r.thread cur).state = .blocked ∧ park ≠ some .readyQueue ∧ ∀ d, .idle d ≠ cur

namespace Left
variable [DecidablePred W] {park : Option ListRef}

theorem park_ne_ready (h : Left s r cur W park) : park ≠ some .readyQueue := by
  rcases h.last with ⟨_,hp⟩ | ⟨_,hp,_⟩
  · rw [hp]
    exact nofun
  · exact hp

section Leaving

variable (h : Left s r cur W park) (hs : s.QueuesSound) (hc : (s.cpu c).current = some cur)
include h hs hc

/-- Woken threads that were loose are now linked in the ready queue only. -/
theorem linked (hnot : ¬ W cur) (hW : ∀ t, W t → s.Loose t) (u : ThreadRef) :
    ∃ p, r.Linked u p ∧ (u = cur → p = park) ∧
      (u ≠ cur → W u → p = some .readyQueue) ∧ (u ≠ cur → ¬ W u → s.Linked u p) := by
  by_cases hu : u = cur
  · subst hu
    refine ⟨park,fun l => ?_,fun _ => rfl,fun hn => absurd rfl hn,fun hn => absurd rfl hn⟩
    rw [h.count,hs.unlinked c u hc l]
    simp [hnot]
  by_cases hw : W u
  · refine ⟨some .readyQueue,fun l => ?_,fun he => absurd he hu,fun _ _ => rfl,
      fun _ hn => absurd hw hn⟩
    rw [h.count,(hW u hw).1 l]
    simp [hw,hu,eq_comm]
  · obtain ⟨p,hp⟩ := hs.once u
    refine ⟨p,fun l => ?_,fun he => absurd he hu,fun _ hn => absurd hn hw,fun _ _ => hp⟩
    rw [h.count,hp l]
    simp [hw,hu]

section

variable (hblk : ∀ t, W t → (s.thread t).state = .blocked) (hnot : ¬ W cur) (hpark : cur = .idle c → park = none)
include hblk hnot hpark

/-- With `cur` gone and idle in its place, loose woken threads leave a sound state. -/
theorem keeps (hW : ∀ t, W t → s.Loose t) :
    (r.setCurrent c (.idle c)).QueuesSound := by
  have hlink := h.linked hs hc hnot hW
  have hidleW : ∀ d, ¬ W (.idle d) := fun d hw => hs.idleAwake d (hblk _ hw)
  have hidleLink : ∀ d, r.Linked (.idle d) none := by
    intro d
    obtain ⟨p,hp,h1,_,h3⟩ := hlink (.idle d)
    by_cases he : .idle d = cur
    · subst he
      cases hs.idleHome c d hc
      rwa [h1 rfl,hpark rfl] at hp
    · rwa [(h3 he (hidleW d)).unique (hs.idleUnlinked d)] at hp
  have hstays : ∀ {u l}, u ∈ r.queue l → u ≠ cur → ¬ W u → u ∈ s.queue l := by
    intro u l hu hne hw
    obtain ⟨p,hp,_,_,h3⟩ := hlink u
    rw [hp.of_mem hu] at h3
    exact (h3 hne hw).mem
  have hother : ∀ {d u}, d ≠ c → (s.cpu d).current = some u → u ≠ cur ∧ ¬ W u := by
    intro d u hd hu
    refine ⟨?_,fun hw => (hW u hw).2 ⟨d,hu⟩⟩
    rintro rfl
    exact hd (hs.oneCpu d c u hu hc)
  have hcur : ∀ d, ((r.setCurrent c (.idle c)).cpu d).current =
      if d = c then some (.idle c) else (s.cpu d).current := by
    intro d
    rw [setCurrent_current,h.cpu]
  refine ⟨fun t => ?_,?_,?_,?_,?_,?_,hidleLink,?_,?_⟩
  · obtain ⟨p,hp,_⟩ := hlink t
    exact ⟨p,hp⟩
  · intro t ht
    obtain ⟨p,hp,h1,_⟩ := hlink t
    have hne : t ≠ cur := fun he => h.park_ne_ready ((h1 he).symm.trans (hp.of_mem ht))
    rw [setCurrent_thread,h.state t hne]
    split_ifs with hw
    · rfl
    · exact hs.queued t (hstays ht hne hw)
  · intro l hl t ht
    obtain ⟨p,hp,h1,h2,_⟩ := hlink t
    rw [setCurrent_thread]
    by_cases hne : t = cur
    · subst hne
      rcases h.last with ⟨_,hp0⟩ | ⟨hb,_⟩
      · cases ((h1 rfl).symm.trans (hp.of_mem ht)).symm.trans hp0
      · exact hb
    · have hw : ¬ W t := fun hw => hl (Option.some.inj ((hp.of_mem ht).symm.trans (h2 hne hw)))
      rw [h.state t hne,if_neg hw]
      exact hs.parked l hl t (hstays ht hne hw)
  · intro d t ht
    rw [hcur] at ht
    split_ifs at ht with hd
    · cases ht; exact hidleLink c
    · obtain ⟨hne,hw⟩ := hother hd ht
      obtain ⟨p,hp,_,_,h3⟩ := hlink t
      rwa [(h3 hne hw).unique (hs.unlinked d t ht)] at hp
  · exact oneCpu_taken hs.oneCpu hcur fun d hd h => hd (hs.idleHome d c h)
  · intro d t ht
    rw [setCurrent_idle,h.cpu]
    rw [hcur] at ht
    split_ifs at ht with hd
    · exact hd ▸ hs.online c cur hc
    · exact hs.online d t ht
  · intro d e hd
    rw [hcur] at hd
    split_ifs at hd with h1
    · cases hd; exact h1
    · exact hs.idleHome d e hd
  · intro d
    rw [setCurrent_thread]
    by_cases he : .idle d = cur
    · rcases h.last with ⟨hz,_⟩ | ⟨_,_,hne⟩
      · rw [he,hz]; simp
      · exact absurd he (hne d)
    · rw [h.state _ he,if_neg (hidleW d)]
      exact hs.idleAwake d

theorem sound_iff : (r.dispatch c).QueuesSound ↔ ∀ t, W t → s.Loose t := by
  constructor
  swap
  · intro hW
    rw [← dispatch_setCurrent r c (.idle c)]
    exact (h.keeps hs hc hblk hnot hpark hW).dispatch (by rw [setCurrent_current,if_pos rfl])
  intro hs' t hw
  obtain ⟨next,_,hstate,hcount,hcur,_⟩ := dispatch_spec r c
  have hne : t ≠ cur := fun he => hnot (he ▸ hw)
  have hawake : ((r.dispatch c).thread t).state ≠ .blocked := by
    rw [hstate,h.state t hne,if_pos hw]
    split_ifs <;> simp
  have hnone : s.Linked t none := by
    obtain ⟨_ | l,hp⟩ := hs.once t
    · exact hp
    by_cases hl : l = .readyQueue
    · have hr := hs.queued t (hl ▸ hp.mem)
      rw [hblk t hw] at hr
      cases hr
    · have hpos : 0 < ((r.dispatch c).queue l).count t := by
        rw [hcount,h.count,hp l]
        simp [hl,hne]
      exact absurd (hs'.parked l hl t (count_pos_iff.mp hpos)) hawake
  refine ⟨hnone,?_⟩
  rintro ⟨d,hd⟩
  have hdc : d ≠ c := by
    rintro rfl
    exact hne (Option.some.inj (hd.symm.trans hc))
  have hd' : ((r.dispatch c).cpu d).current = some t := by rw [hcur,if_neg hdc,h.cpu,hd]
  by_cases hn : t = next
  · exact hdc (hs'.oneCpu d c t hd' (by rw [hcur,if_pos rfl,hn]))
  · have hz := hs'.unlinked d t hd' .readyQueue
    rw [hcount,h.count,hnone] at hz
    simp [hw,hn] at hz

end

end Leaving

end Left

private theorem leaveZombie_left (hs : s.QueuesSound) (hc : (s.cpu c).current = some cur)
    (hself : cur ∉ (s.thread cur).children) :
    Left s (s.leaveZombie cur) cur (s.ExitWakes cur) none := by
  have hw := leaveZombie_woken s cur hself
  have hq : ∀ u l, ((s.zombify cur).queue l).count u = (s.queue l).count u := by
    intro u l
    unfold zombify
    rw [queueRemove_count]
    by_cases h : l = .readyQueue ∧ u = cur
    · have hz := hs.unlinked c cur hc .readyQueue
      simp [setState,h,hz]
    · simp [setState,h]
  refine ⟨hw.cpu,?_,?_,.inl ⟨?_,rfl⟩⟩
  · intro u l
    rw [hw.count,hq]
    simp
  · intro u hu
    rw [hw.state,zombify_state,if_neg hu]
  · rw [hw.state,if_neg (fun h => h.2.1 rfl),zombify_state,if_pos rfl]

private theorem pickNext_dispatch (hi : (r.cpu c).idle = some (.idle c)) :
    (match r.pickNext c with
      | (some next,r) => some (r.switchTo c next)
      | (none,_) => none) = some (r.dispatch c) := by
  unfold pickNext queuePop dispatch
  cases hq : r.queue .readyQueue with
  | nil => simp [hi]
  | cons t ts => rfl

private theorem threadExit_iff (hs : s.QueuesSound) (hc : (s.cpu c).current = some cur)
    (hself : cur ∉ (s.thread cur).children) :
    ∃ s', s.threadExit c = some s' ∧ (s'.QueuesSound ↔ ∀ t, s.ExitWakes cur t → s.Loose t) := by
  have hleft := leaveZombie_left hs hc hself
  have hi : ((s.leaveZombie cur).cpu c).idle = some (.idle c) := by
    rw [hleft.cpu]
    exact hs.online c cur hc
  refine ⟨_,?_,hleft.sound_iff hs hc (fun _ h => h.1) (fun h => h.2.1 rfl) (fun _ => rfl)⟩
  unfold threadExit
  rw [hc]
  exact pickNext_dispatch hi

private theorem schedStopCurrent_iff (hs : s.QueuesSound) (hc : (s.cpu c).current = some cur)
    (hroot : (s.thread cur).parent ≠ some cur) (hne : cur ≠ .idle c) :
    ∃ s', s.schedStopCurrent c = some s' ∧
      (s'.QueuesSound ↔ ∀ t, s.StopWakes cur t → s.Loose t) := by
  have hi := hs.online c cur hc
  have hw := wakeWaitingParent_spec s cur
  set m := s.wakeWaitingParent cur with hm
  have hmc : (m.cpu c).current = some cur := by rw [hw.cpu,hc]
  have hmi : (m.cpu c).idle = some (.idle c) := by rw [hw.cpu,hi]
  set q := (m.modify cur fun r => { r with state := .blocked, waitQ := some .stopWq }).queuePush
    (.waitQueue .stopWq) cur with hq
  have hleft : Left s q cur (s.StopWakes cur) (some (.waitQueue .stopWq)) := by
    refine ⟨hw.cpu,?_,?_,.inr ⟨by simp [hq,queuePush],nofun,?_⟩⟩
    · intro u l
      rw [hq,queuePush_count,modify_queue,hw.count]
      simp [eq_comm]
    · intro u hu
      rw [← hw.state u,hq]
      simp [queuePush,hu]
    · rintro d rfl
      exact hne (by rw [hs.idleHome c d hc])
  have hhead : (q.queue .readyQueue).head? ≠ some cur := by
    intro he
    have hpos := count_pos_iff.mpr (mem_of_mem_head? he)
    rw [hleft.count,hs.unlinked c cur hc] at hpos
    simp [StopWakes,hroot] at hpos
  refine ⟨_,?_,hleft.sound_iff hs hc (fun _ h => h.1) (fun h => hroot h.2.2)
    (fun h => absurd h hne)⟩
  unfold schedStopCurrent
  rw [hc]
  dsimp only
  rw [if_neg (by rw [hi]; exact fun h => hne (Option.some.inj h)),← hm]
  refine schedWaitLocked_switch hmc hmi hne ?_
  have hmq : q.queue .readyQueue = m.queue .readyQueue := by simp [hq,queuePush]
  exact hmq ▸ hhead

/-- A thread that blocks in no list, as `waitpid` does, leaves the queues sound. -/
private theorem QueuesSound.wait (hs : s.QueuesSound) (hc : (s.cpu c).current = some cur)
    (hidle : ∀ d, .idle d ≠ cur) : ((s.setState cur .blocked).dispatch c).QueuesSound ∧
      ((s.setState cur .blocked).dispatch c).Loose cur := by
  have hleft : Left s (s.setState cur .blocked) cur (fun _ => False) none :=
    ⟨rfl,fun u l => by simp [setState],fun u hu => by simp [setState,hu],
      .inr ⟨by simp [setState],nofun,hidle⟩⟩
  obtain ⟨next,hnext,-,hcount,hcur,-⟩ := dispatch_spec (s.setState cur .blocked) c
  have hout := hs.unlinked c cur hc
  refine ⟨(hleft.sound_iff hs hc (fun _ h => h.elim) id fun _ => rfl).mpr fun _ h => h.elim,
    fun l => ?_,?_⟩
  · rw [hcount]
    simp [setState,hout l]
  · rintro ⟨d,hd⟩
    rw [hcur] at hd
    split_ifs at hd with h0
    · cases hd
      rcases hnext with rfl | hm
      · exact hidle c rfl
      · exact hout.notMem _ hm
    · exact h0 (hs.oneCpu d c cur hd hc)

theorem Consistent.queuesSound {lost : Prop} (hs : s.Consistent lost) : s.QueuesSound where
  once := by
    intro t
    by_cases ht : t ∈ s.allThreads
    · obtain ⟨_,_,⟨hl,_⟩ | ⟨_,hl⟩⟩ | ⟨_,_,hl,_⟩ | ⟨_,hl,_⟩ := (hs.settled t ht).cases <;> exact ⟨_,hl⟩
    · exact ⟨none,hs.unregistered t ht⟩
  queued := by
    intro t ht
    obtain ⟨_,_,_,⟨_,h,_⟩ | ⟨_,h⟩⟩ := hs.linked ht
    · exact h
    · exact absurd h (home_ne_ready _)
  parked := by
    intro l hl t ht
    obtain ⟨_,_,_,⟨h,_⟩ | ⟨h,_⟩⟩ := hs.linked ht
    · exact absurd h hl
    · exact h
  unlinked := by
    intro d t ht
    rcases hs.current d t ht with rfl | h
    · exact hs.unregistered _ (hs.idleUnregistered d)
    · exact (hs.onCpu h ht).2.1
  oneCpu := hs.oneCpu
  online := hs.online
  idleUnlinked := fun d => hs.unregistered _ (hs.idleUnregistered d)
  idleHome := by
    intro d e h
    rcases hs.current d _ h with he | he
    · cases he; rfl
    · exact absurd he (hs.idleUnregistered e)
  idleAwake := fun d => hs.awake _ (hs.idleUnregistered d)

/-- Exit and stop keep the queues sound exactly when every thread they wake was in
no list and on no CPU. The last two hypotheses say that no thread is its own parent. -/
theorem exit_and_stop_sound_iff (s : Sched) (c : Nat) (cur : ThreadRef) (hs : s.QueuesSound)
    (hc : (s.cpu c).current = some cur) (hroot : (s.thread cur).parent ≠ some cur)
    (hself : cur ∉ (s.thread cur).children) :
    (∃ s', s.threadExit c = some s' ∧
      (s'.QueuesSound ↔ ∀ t, s.ExitWakes cur t → s.Loose t)) ∧
    ∃ s', s.schedStopCurrent c = some s' ∧
      (s'.QueuesSound ↔ cur ≠ .idle c → ∀ t, s.StopWakes cur t → s.Loose t) := by
  refine ⟨threadExit_iff hs hc hself,?_⟩
  by_cases hne : cur = .idle c
  · refine ⟨s,?_,iff_of_true hs (fun h => absurd hne h)⟩
    unfold schedStopCurrent
    simp [hc,hs.online c cur hc,hne]
  · obtain ⟨s',h,hiff⟩ := schedStopCurrent_iff hs hc hroot hne
    exact ⟨s',h,hiff.trans ⟨fun h _ => h,fun h => h hne⟩⟩

/-- Thread 1 runs, and its child, thread 2, is ready. -/
def readyChild : List Event :=
  [.schedInitCpu 0,.schedEnqueueThread 1 { children := [.heap 2] },.threadYield 0,
    .schedEnqueueThread 2 { parent := some (.heap 1) }]

/-- Thread 2 runs while thread 1 waits for it in `waitpid`. -/
theorem exit_and_stop_sound_waitingParent : ∃ s s1 : Sched,
    exec step (boot fun _ => true) readyChild = some s ∧
    (s.setState (.heap 1) .blocked).threadYield 0 = some s1 ∧ s1.ExitWakes (.heap 2) (.heap 1) ∧
    (∃ s', s1.threadExit 0 = some s' ∧ s'.QueuesSound) ∧
    ∃ s', s1.schedStopCurrent 0 = some s' ∧ s'.QueuesSound := by
  refine ⟨_,_,rfl,rfl,⟨rfl,nofun,.inl rfl⟩,?_⟩
  have hs0 := (reachable_consistent (fun _ => true) readyChild rfl).queuesSound
  obtain ⟨hs,hloose⟩ := @QueuesSound.wait _ 0 (.heap 1) hs0 rfl nofun
  obtain ⟨⟨s1,h1,hiff1⟩,s2,h2,hiff2⟩ :=
    exit_and_stop_sound_iff _ 0 (.heap 2) hs rfl (by decide) (by decide)
  refine ⟨⟨s1,h1,hiff1.mpr ?_⟩,s2,h2,hiff2.mpr ?_⟩
  · rintro t ⟨hb,_,hp | ⟨hr,_⟩⟩
    · cases hp
      exact hloose
    · cases hr
  · rintro _ t ⟨hb,_,hp⟩
    cases hp
    exact hloose

/-- Thread 2 runs while its parent, thread 1, sleeps for 100 ticks. -/
def sleepingParent : List Event :=
  [.schedInitCpu 0,.schedEnqueueThread 1 { children := [.heap 2] },.threadYield 0,
    .schedEnqueueThread 2 { parent := some (.heap 1) },.threadSleep 0 0 100]

/-- The exit of thread 2 runs thread 1 while it is still on the sleep list, and the
expiry then enqueues it although it is running. -/
theorem exit_wakes_sleeping_parent : ∃ s s' : Sched,
    exec step (boot fun _ => true) sleepingParent = some s ∧
    s.QueuesSound ∧ s.threadExit 0 = some s' ∧ ¬ s'.QueuesSound ∧
    (s'.cpu 0).current = some (.heap 1) ∧ s'.queue .sleepList = [.heap 1] ∧
    (s'.expireSleepers 100).queue .readyQueue = [.heap 1] := by
  refine ⟨_,_,rfl,?_,rfl,?_,rfl,rfl,rfl⟩
  · exact (reachable_consistent (fun _ => true) sleepingParent rfl).queuesSound
  · intro h
    exact absurd (h.unlinked 0 (.heap 1) rfl .sleepList) (by decide)

end Lariat.Kernel.Sched
