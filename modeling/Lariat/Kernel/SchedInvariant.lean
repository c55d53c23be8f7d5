import Mathlib.Data.List.Count
import Lariat.Foundation.Runs
import Lariat.Kernel.Sched

/-! Where every thread is: the invariant that ties the state word of a thread to
the per-CPU pointers and to the lists that share its link field. -/
namespace Lariat.Kernel
open Foundation.Runs
namespace Sched

/-- The thread is linked exactly once, in the given list, or in no list at all. -/
def Linked (s : Sched) (t : ThreadRef) (p : Option ListRef) : Prop :=
  ∀ l, (s.queue l).count t = if p = some l then 1 else 0

def OnCpu (s : Sched) (t : ThreadRef) : Prop := ∃ c, (s.cpu c).current = some t

/-- The list a blocked thread is parked on, as `sched_ready_locked` looks for it. -/
def home (r : Thread) : ListRef :=
  match r.waitQ with
  | some q => .waitQueue q
  | none => .sleepList

/-- A ready thread is queued and on no CPU. With `lost` it may also be linked
nowhere, which is what a `thread_yield` with an empty ready queue leaves behind. -/
def Settled (s : Sched) (lost : Prop) (t : ThreadRef) : Prop :=
  match (s.thread t).state with
  | .ready => (s.thread t).waitQ = none ∧
      ((s.Linked t (some .readyQueue) ∧ ¬ s.OnCpu t) ∨ lost ∧ s.Linked t none)
  | .running => (s.thread t).waitQ = none ∧ s.Linked t none ∧ s.OnCpu t
  | .blocked => s.Linked t (some (home (s.thread t))) ∧ ¬ s.OnCpu t
  | .zombie => False

structure Consistent (s : Sched) (lost : Prop) : Prop where
  idleOf : ∀ c i, (s.cpu c).idle = some i → i = .idle c
  online : ∀ c t, (s.cpu c).current = some t → (s.cpu c).idle = some (.idle c)
  awake : ∀ t ∉ s.allThreads, (s.thread t).state ≠ .blocked
  idleUnregistered : ∀ c, .idle c ∉ s.allThreads
  unregistered : ∀ t ∉ s.allThreads, s.Linked t none
  current : ∀ c t, (s.cpu c).current = some t → t = .idle c ∨ t ∈ s.allThreads
  oneCpu : ∀ c c' t, (s.cpu c).current = some t → (s.cpu c').current = some t → c = c'
  settled : ∀ t ∈ s.allThreads, s.Settled lost t

@[simp] theorem modify_thread (s : Sched) (t u : ThreadRef) (f : Thread → Thread) :
    (s.modify t f).thread u = if u = t then f (s.thread t) else s.thread u := by
  by_cases h : u = t
  · subst h; simp [modify]
  · simp [modify,h]

/-- A field that the update keeps is kept in every thread. -/
theorem modify_field {α : Type*} (g : Thread → α) {f : Thread → Thread} (s : Sched)
    (t u : ThreadRef) (hf : g (f (s.thread t)) = g (s.thread t)) :
    g ((s.modify t f).thread u) = g (s.thread u) := by
  rw [modify_thread]
  split_ifs with h
  · rw [hf,h]
  · rfl

section

variable (s : Sched)

@[simp] theorem modify_queue (t : ThreadRef) (f : Thread → Thread) :
    (s.modify t f).queue = s.queue := rfl
@[simp] theorem modify_cpu (t : ThreadRef) (f : Thread → Thread) :
    (s.modify t f).cpu = s.cpu := rfl
@[simp] theorem setQueue_thread (l : ListRef) (ts : List ThreadRef) :
    (s.setQueue l ts).thread = s.thread := rfl
@[simp] theorem setQueue_queue (l m : ListRef) (ts : List ThreadRef) :
    (s.setQueue l ts).queue m = if m = l then ts else s.queue m := by
  by_cases h : m = l
  · subst h; simp [setQueue]
  · simp [setQueue,h]

@[simp] theorem setCurrent_thread (c : Nat) (t : ThreadRef) :
    (s.setCurrent c t).thread = s.thread := rfl
@[simp] theorem setCurrent_queue (c : Nat) (t : ThreadRef) :
    (s.setCurrent c t).queue = s.queue := rfl
@[simp] theorem setCurrent_current (c d : Nat) (t : ThreadRef) :
    ((s.setCurrent c t).cpu d).current = if d = c then some t else (s.cpu d).current := by
  by_cases h : d = c
  · subst h; simp [setCurrent]
  · simp [setCurrent,h]
@[simp] theorem setCurrent_idle (c d : Nat) (t : ThreadRef) :
    ((s.setCurrent c t).cpu d).idle = (s.cpu d).idle := by
  by_cases h : d = c
  · subst h; simp [setCurrent]
  · simp [setCurrent,h]

end

variable {lost : Prop}

variable {s s' : Sched} {t : ThreadRef} {q : WaitQueue}

theorem Linked.notMem (h : s.Linked t none) (l : ListRef) :
    t ∉ s.queue l := List.count_eq_zero.mp (by simpa using h l)

theorem Linked.mem {l : ListRef} (h : s.Linked t (some l)) : t ∈ s.queue l :=
  List.count_pos_iff.mp (by rw [h l,if_pos rfl]; exact Nat.one_pos)

theorem Linked.of_mem {p : Option ListRef} {l : ListRef} (h : s.Linked t p) (ht : t ∈ s.queue l) :
    p = some l := by
  by_contra hn
  have hz := h l
  rw [if_neg hn] at hz
  exact List.count_eq_zero.mp hz ht

theorem Linked.unique {p q : Option ListRef} (hp : s.Linked t p) (hq : s.Linked t q) : p = q := by
  cases p with
  | some l => exact (hq.of_mem hp.mem).symm
  | none =>
    cases q with
    | none => rfl
    | some l => exact absurd hq.mem (hp.notMem l)

theorem Settled.cases (h : s.Settled lost t) :
    ((s.thread t).state = .ready ∧ (s.thread t).waitQ = none ∧
        ((s.Linked t (some .readyQueue) ∧ ¬ s.OnCpu t) ∨ lost ∧ s.Linked t none)) ∨
      ((s.thread t).state = .running ∧ (s.thread t).waitQ = none ∧ s.Linked t none ∧ s.OnCpu t) ∨
      (s.thread t).state = .blocked ∧ s.Linked t (some (home (s.thread t))) ∧ ¬ s.OnCpu t := by
  unfold Settled at h
  cases hst : (s.thread t).state with
  | ready => rw [hst] at h; exact .inl ⟨rfl,h⟩
  | running => rw [hst] at h; exact .inr (.inl ⟨rfl,h⟩)
  | blocked => rw [hst] at h; exact .inr (.inr ⟨rfl,h⟩)
  | zombie => rw [hst] at h; exact h.elim

theorem Settled.blocked (h : s.Settled lost t) (hb : (s.thread t).state = .blocked) :
    s.Linked t (some (home (s.thread t))) ∧ ¬ s.OnCpu t := by
  unfold Settled at h
  rwa [hb] at h

/-- What a thread's own record, links and CPU say is all that `Settled` reads. -/
theorem Settled.frame {u : ThreadRef} (hu : s.Settled lost u) (ht : s'.thread u = s.thread u)
    (hq : ∀ l, (s'.queue l).count u = (s.queue l).count u) (hc : s'.OnCpu u ↔ s.OnCpu u) :
    s'.Settled lost u := by
  have hl : ∀ p, s'.Linked u p ↔ s.Linked u p := fun p => by simp only [Linked,hq]
  unfold Settled at hu ⊢
  rw [ht]
  simpa only [hl,hc] using hu

/-- One registered thread changes its record and links; the CPUs stay as they are. -/
theorem Consistent.update (hs : s.Consistent lost) (t : ThreadRef) (ht : t ∈ s.allThreads)
    (hall : s'.allThreads = s.allThreads) (hcpu : s'.cpu = s.cpu)
    (hth : ∀ u, u ≠ t → s'.thread u = s.thread u)
    (hq : ∀ u, u ≠ t → ∀ l, (s'.queue l).count u = (s.queue l).count u) (hset : s'.Settled lost t) :
    s'.Consistent lost := by
  refine ⟨?_,?_,?_,?_,?_,?_,?_,?_⟩
  · rw [hcpu]; exact hs.idleOf
  · rw [hcpu]; exact hs.online
  · rw [hall]
    intro u hu
    rw [hth u (fun h => hu (h ▸ ht))]
    exact hs.awake u hu
  · rw [hall]; exact hs.idleUnregistered
  · rw [hall]
    intro u hu l
    rw [hq u (fun h => hu (h ▸ ht)) l]
    exact hs.unregistered u hu l
  · rw [hall,hcpu]; exact hs.current
  · rw [hcpu]; exact hs.oneCpu
  · rw [hall]
    intro u hu
    by_cases h : u = t
    · exact h ▸ hset
    · exact (hs.settled u hu).frame (hth u h) (hq u h) (by simp only [OnCpu,hcpu])

theorem Consistent.linked (hs : s.Consistent lost) {l : ListRef} (h : t ∈ s.queue l) :
    t ∈ s.allThreads ∧ s.Linked t (some l) ∧ ¬ s.OnCpu t ∧
      ((l = .readyQueue ∧ (s.thread t).state = .ready ∧ (s.thread t).waitQ = none) ∨
        ((s.thread t).state = .blocked ∧ home (s.thread t) = l)) := by
  have ht : t ∈ s.allThreads := by
    by_contra hn
    exact (hs.unregistered t hn).notMem l h
  obtain ⟨hst,hw,⟨hl,hc⟩ | ⟨_,hl⟩⟩ | ⟨_,_,hl,_⟩ | ⟨hst,hl,hc⟩ := (hs.settled t ht).cases
  · cases hl.of_mem h
    exact ⟨ht,hl,hc,.inl ⟨rfl,hst,hw⟩⟩
  · cases hl.of_mem h
  · cases hl.of_mem h
  · have he := hl.of_mem h
    exact ⟨ht,he ▸ hl,hc,.inr ⟨hst,Option.some.inj he⟩⟩

/-- Unlink a parked thread, forget its wait queue and make it ready. -/
def unpark (s : Sched) (t : ThreadRef) : Sched :=
  ((s.queueRemove (home (s.thread t)) t).clearWaitQ t).makeReady t

/-- Taking off the head is a pop: the tail pointer is cleared only with the last thread. -/
theorem queueRemove_head (hq : s.queue l = t :: ts) (ht : t ∉ ts) :
    s.queueRemove l t = s.setQueue l ts := by
  have hlast : ((t :: ts).getLast? == some t && t :: ts != [t]) = false := by
    rcases ts.eq_nil_or_concat with rfl | ⟨us,u,rfl⟩
    · simp
    · have hu : u ≠ t := fun h => ht (by simp [h])
      rw [List.concat_eq_append,← List.cons_append,List.getLast?_concat]
      simp [hu]
  simp only [queueRemove,hq,List.erase_cons_head,Bool.and_assoc,hlast,Bool.and_false,Bool.or_false]
  rfl

theorem unpark_thread (s : Sched) (t u : ThreadRef) :
    (s.unpark t).thread u =
      if u = t then { s.thread t with waitQ := none, state := .ready } else s.thread u := by
  by_cases h : u = t
  · subst h
    simp [unpark,makeReady,clearWaitQ,setState,queuePush,queueRemove]
  · simp [unpark,makeReady,clearWaitQ,setState,queuePush,queueRemove,h]

theorem home_ne_ready (r : Thread) : home r ≠ .readyQueue := by
  unfold home
  split <;> simp

theorem queuePush_count (s : Sched) (l m : ListRef) (t u : ThreadRef) :
    ((s.queuePush l t).queue m).count u =
      (s.queue m).count u + if m = l ∧ u = t then 1 else 0 := by
  by_cases hm : m = l
  · subst hm
    by_cases hu : u = t
    · subst hu; simp [queuePush]
    · simp [queuePush,hu,Ne.symm hu]
  · simp [queuePush,hm]

theorem queueRemove_count (s : Sched) (l m : ListRef) (t u : ThreadRef) :
    ((s.queueRemove l t).queue m).count u =
      (s.queue m).count u - if m = l ∧ u = t then 1 else 0 := by
  by_cases hm : m = l
  · subst hm
    by_cases hu : u = t
    · subst hu; simp [queueRemove]
    · simp [queueRemove,hu]
  · simp [queueRemove,hm]

theorem unpark_count (s : Sched) (t u : ThreadRef) (l : ListRef) :
    ((s.unpark t).queue l).count u =
      (s.queue l).count u - (if l = home (s.thread t) ∧ u = t then 1 else 0) +
        if l = .readyQueue ∧ u = t then 1 else 0 := by
  unfold unpark makeReady
  rw [queuePush_count]
  exact congrArg (· + _) (queueRemove_count s _ l t u)

theorem Consistent.unpark (hs : s.Consistent lost) (ht : t ∈ s.allThreads)
    (hb : (s.thread t).state = .blocked) : (s.unpark t).Consistent lost := by
  obtain ⟨hl,hoff⟩ := (hs.settled t ht).blocked hb
  have hne := home_ne_ready (s.thread t)
  refine hs.update t ht rfl rfl (fun u hu => by rw [unpark_thread,if_neg hu]) ?_ ?_
  · intro u hu l
    simp [unpark_count,hu]
  · have hst : ((s.unpark t).thread t).state = .ready := by rw [unpark_thread,if_pos rfl]
    have hw : ((s.unpark t).thread t).waitQ = none := by rw [unpark_thread,if_pos rfl]
    unfold Settled
    rw [hst]
    refine ⟨hw,.inl ⟨fun l => ?_,hoff⟩⟩
    rw [unpark_count,hl l]
    by_cases hh : l = home (s.thread t)
    · subst hh
      simp [hne,Ne.symm hne]
    · simp [hh,eq_comm]

theorem modify_of_fixed {f : Thread → Thread} (h : f (s.thread t) = s.thread t) :
    s.modify t f = s := by
  unfold modify
  rw [h,Function.update_eq_self]

theorem clearWaitQ_of_none (h : (s.thread t).waitQ = none) : s.clearWaitQ t = s :=
  modify_of_fixed (by rw [← h])

theorem schedReadyLocked_blocked (h : (s.thread t).state = .blocked) :
    s.schedReadyLocked t = s.unpark t := by
  unfold schedReadyLocked Sched.unpark home
  rw [if_pos h]
  cases hw : (s.thread t).waitQ with
  | some q => rfl
  | none =>
    have hn : ((s.queueRemove .sleepList t).thread t).waitQ = none := hw
    simp only [clearWaitQ_of_none hn]

theorem Consistent.registered (hs : s.Consistent lost) (hb : (s.thread t).state = .blocked) :
    t ∈ s.allThreads := by
  by_contra h
  exact hs.awake t h hb

theorem Consistent.schedReadyLocked (hs : s.Consistent lost) (t : ThreadRef) :
    (s.schedReadyLocked t).Consistent lost := by
  by_cases hb : (s.thread t).state = .blocked
  · rw [schedReadyLocked_blocked hb]
    exact hs.unpark (hs.registered hb) hb
  · rw [Sched.schedReadyLocked,if_neg hb]
    exact hs

theorem waitQ_of_home {r : Thread} (h : home r = .waitQueue q) : r.waitQ = some q := by
  unfold home at h
  cases hw : r.waitQ with
  | none => rw [hw] at h; cases h
  | some q' => rw [hw] at h; cases h; rfl

/-- A wait queue holds exactly the threads that are blocked on it. -/
theorem Consistent.mem_waitQueue (hs : s.Consistent lost) :
    t ∈ s.queue (.waitQueue q) ↔ (s.thread t).state = .blocked ∧ (s.thread t).waitQ = some q := by
  constructor
  · intro ht
    obtain ⟨_,_,_,⟨hr,_⟩ | ⟨hb,hh⟩⟩ := hs.linked ht
    · cases hr
    · exact ⟨hb,waitQ_of_home hh⟩
  · rintro ⟨hb,hw⟩
    have hl := ((hs.settled t (hs.registered hb)).blocked hb).1
    rw [home,hw] at hl
    exact hl.mem

theorem wakeFirst_eq (hs : s.Consistent lost) (h : s.wakeFirst q = some s') :
    ∃ t ts, s.queue (.waitQueue q) = t :: ts ∧ t ∈ s.allThreads ∧
      (s.thread t).state = .blocked ∧ (s.thread t).waitQ = some q ∧ s' = s.unpark t := by
  unfold wakeFirst queuePop at h
  cases hq : s.queue (.waitQueue q) with
  | nil => simp [hq] at h
  | cons t ts =>
    have hmem : t ∈ s.queue (.waitQueue q) := by rw [hq]; simp
    obtain ⟨hb,hw⟩ := hs.mem_waitQueue.mp hmem
    have hts : t ∉ ts := by
      have hc := (hs.linked hmem).2.1 (.waitQueue q)
      rw [hq,List.count_cons_self,if_pos rfl] at hc
      exact List.count_eq_zero.mp (by omega)
    refine ⟨t,ts,rfl,hs.registered hb,hb,hw,?_⟩
    simp only [hq,Option.some.injEq] at h
    rw [← h,Sched.unpark,home,hw,queueRemove_head hq hts]

theorem schedWakeThread_eq (s : Sched) (t : ThreadRef) :
    s.schedWakeThread (some t) = s ∨
      (s.thread t).state = .blocked ∧ s.schedWakeThread (some t) = s.unpark t := by
  unfold schedWakeThread
  cases hst : (s.thread t).state with
  | blocked =>
    cases hw : (s.thread t).waitQ with
    | none => exact .inl (by simp [hst,hw])
    | some q => exact .inr ⟨rfl,by simp [hst,hw,Sched.unpark,home]⟩
  | ready | running | zombie => exact .inl (by simp [hst])

end Sched
end Lariat.Kernel
