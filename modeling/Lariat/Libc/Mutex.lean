import Lariat.Foundation.Runs
import Lariat.Foundation.FutexWord

/-! `pthread_mutex_lock`, `pthread_mutex_trylock` and `pthread_mutex_unlock`: any number
of threads, interleaved between their atomic operations on the word and their futex
calls, which follow the futex law. -/
namespace Lariat.Libc.Mutex
open Foundation.Runs Foundation.FutexWord List Option

def EBUSY : BitVec 32 := 16

/-- Where a thread is in the mutex code: the operation it does next. -/
inductive Pc where
  | idle
  | exchange
  | futexWait
  | blocked
  | held
  | store
  | futexWake
  deriving DecidableEq, Repr

structure State (α : Type*) where
  lock : BitVec 32 := 0
  pc : α → Pc := fun _ => .idle
  sleepers : List α := []

/-- The compare-and-exchange of 0 by 1: its outcome and the new word. -/
def compareExchange (w : BitVec 32) : Bool × BitVec 32 := if w = 0 then (true,1) else (false,w)

theorem compareExchange_free {w : BitVec 32} (h : w = 0) : compareExchange w = (true,1) := if_pos h

theorem compareExchange_taken {w : BitVec 32} (h : w ≠ 0) : compareExchange w = (false,w) := if_neg h

def pthreadMutexTrylock (w : BitVec 32) : BitVec 32 × BitVec 32 :=
  let p := compareExchange w
  (if p.1 then 0 else EBUSY,p.2)

/-- `lock` and `trylock` begin with the compare-and-exchange, `unlock` with the
subtraction. `interrupt` is a signal that ends a wait, or keeps it from blocking.
`futexWake` names the threads it wakes. -/
inductive Event (α : Type*) where
  | trylock (t : α)
  | lock (t : α)
  | exchange (t : α)
  | futexWait (t : α)
  | interrupt (t : α)
  | unlock (t : α)
  | store (t : α)
  | futexWake (t : α) (ws : List α)

variable {α : Type*}

section Machine
variable [DecidableEq α]

def State.goto (m : State α) (t : α) (p : Pc) : State α :=
  { m with pc := Function.update m.pc t p }

/-- The test of the loop in `pthread_mutex_lock`, on the value last read. -/
def State.loop (m : State α) (t : α) (c : BitVec 32) : State α :=
  m.goto t (if c = 0 then .held else .futexWait)

/-- Take the threads `ws` out of their futex wait. -/
def State.wake (m : State α) (ws : List α) : State α :=
  { m with
    pc := fun u => if u ∈ ws then .exchange else m.pc u
    sleepers := rest m.sleepers ws }

def step (m : State α) : Event α → Option (State α)
  | .trylock t =>
    if m.pc t = .idle then
      let p := pthreadMutexTrylock m.lock
      some ({ m with lock := p.2 }.goto t (if p.1 = 0 then .held else .idle))
    else none
  | .lock t =>
    if m.pc t = .idle then
      let p := compareExchange m.lock
      if p.1 then some ({ m with lock := p.2 }.goto t .held)
      else if m.lock ≠ 2 then some (m.goto t .exchange)
      else some (m.loop t m.lock)
    else none
  | .exchange t => if m.pc t = .exchange then some ({ m with lock := 2 }.loop t m.lock) else none
  | .futexWait t =>
    if m.pc t = .futexWait then
      if m.lock = 2 then some ({ m with sleepers := m.sleepers ++ [t] }.goto t .blocked)
      else some (m.goto t .exchange)
    else none
  | .interrupt t =>
    if m.pc t = .blocked then some (m.wake [t])
    else if m.pc t = .futexWait then some (m.goto t .exchange)
    else none
  | .unlock t =>
    if m.pc t = .held then
      some ({ m with lock := m.lock-1 }.goto t (if m.lock ≠ 1 then .store else .idle))
    else none
  | .store t => if m.pc t = .store then some ({ m with lock := 0 }.goto t .futexWake) else none
  | .futexWake t ws =>
    if m.pc t = .futexWake ∧ Takes m.sleepers 1 ws then some ((m.wake ws).goto t .idle) else none

end Machine

def boot : State α := {}

/-- Between the return of `lock` and the return of the word to 0. -/
def Holds (m : State α) (t : α) : Prop := m.pc t = .held ∨ m.pc t = .store

/-- About to wake a sleeper, or to take the lock if the word is free. -/
def Busy (m : State α) (t : α) : Prop := m.pc t = .futexWake ∨ m.pc t = .exchange

/-- At most one thread has the lock, and a sleeper on a free word is never alone. -/
def Safe (m : State α) : Prop :=
  (∀ t u, m.pc t = .held → m.pc u = .held → t = u) ∧
    ¬ (m.lock = 0 ∧ (∃ t, m.pc t = .blocked) ∧ ∀ t, ¬ Busy m t)

structure Inv (m : State α) : Prop where
  word : m.lock = 0 ∨ m.lock = 1 ∨ m.lock = 2
  owner : (m.lock = 0 ∧ ∀ t, ¬ Holds m t) ∨ (m.lock ≠ 0 ∧ ∃ h, ∀ t, Holds m t ↔ t = h)
  asleep : ∀ t, t ∈ m.sleepers ↔ m.pc t = .blocked
  nodup : m.sleepers.Nodup
  noticed : m.sleepers ≠ [] → m.lock = 2 ∨ ∃ t, m.pc t = .store ∨ Busy m t

variable {m m' : State α} {e : Event α} {t : α} {p : Pc} {w : BitVec 32}

theorem boot_inv : Inv (boot : State α) where
  word := .inl rfl
  owner := .inl ⟨rfl,fun t ht => by simp [Holds,boot] at ht⟩
  asleep := by simp [boot]
  nodup := nodup_nil
  noticed := fun h => absurd rfl h

theorem Inv.holder (h : Inv m) (ht : Holds m t) : m.lock ≠ 0 ∧ ∀ u, Holds m u ↔ u = t := by
  obtain ⟨_,hf⟩ | ⟨hn,o,ho⟩ := h.owner
  · exact absurd ht (hf t)
  · have he : t = o := (ho t).mp ht
    exact ⟨hn,he ▸ ho⟩

theorem Inv.safe (h : Inv m) : Safe m := by
  refine ⟨fun t u ht hu => ?_,?_⟩
  · exact (((h.holder (.inl hu)).2 t).mp (.inl ht))
  · rintro ⟨h0,⟨t,ht⟩,hno⟩
    obtain h2 | ⟨u,hs | hb⟩ := h.noticed (ne_nil_of_mem ((h.asleep t).mpr ht))
    · rw [h0] at h2
      exact absurd h2 (by decide)
    · exact (h.holder (.inr hs)).1 h0
    · exact hno u hb

variable [DecidableEq α]

@[simp] theorem goto_pc (m : State α) (t u : α) (p : Pc) :
    (m.goto t p).pc u = if u = t then p else m.pc u := by
  by_cases h : u = t
  · subst h; simp [State.goto]
  · simp [State.goto,h]

theorem holds_goto (m : State α) (t u : α) (p : Pc) :
    Holds (m.goto t p) u ↔ if u = t then p = .held ∨ p = .store else Holds m u := by
  unfold Holds
  rw [goto_pc]
  split_ifs
  · rfl
  · rfl

/-- A thread that is awake moves on and stores a word; what is left to check is who
owns the lock and who looks after the sleepers. -/
theorem Inv.move (h : Inv m) (ht : m.pc t ≠ .blocked) (hp : p ≠ .blocked)
    (hw : w = 0 ∨ w = 1 ∨ w = 2)
    (howner : (w = 0 ∧ ∀ u, ¬ Holds (m.goto t p) u) ∨
      (w ≠ 0 ∧ ∃ h, ∀ u, Holds (m.goto t p) u ↔ u = h))
    (hnotice : m.sleepers ≠ [] → w = 2 ∨ ∃ u, (m.goto t p).pc u = .store ∨ Busy (m.goto t p) u) :
    Inv ({ m with lock := w }.goto t p) where
  word := hw
  owner := howner
  asleep := by
    intro u
    rw [goto_pc]
    exact asleep_moved h.asleep ht hp u
  nodup := h.nodup
  noticed := hnotice

/-- Whoever looks after the sleepers still does after a step of another thread. -/
theorem Inv.notice_of_ne (h : Inv m) (h2 : m.lock ≠ 2) (ht : m.pc t ≠ .store) (hb : ¬ Busy m t)
    (hs : m.sleepers ≠ []) : ∃ u, (m.goto t p).pc u = .store ∨ Busy (m.goto t p) u := by
  obtain ⟨u,hu⟩ := (h.noticed hs).resolve_left h2
  have hne : u ≠ t := by
    rintro rfl
    exact hu.elim ht hb
  refine ⟨u,?_⟩
  unfold Busy at hu ⊢
  rwa [goto_pc,if_neg hne]

theorem Inv.acquire (h : Inv m) (h0 : m.lock = 0) (hb : m.pc t ≠ .blocked)
    (hw : w = 2 ∨ w = 1 ∧ m.pc t = .idle) : Inv ({ m with lock := w }.goto t .held) := by
  have hfree : ∀ u, ¬ Holds m u := by
    obtain ⟨_,hf⟩ | ⟨hn,_⟩ := h.owner
    · exact hf
    · exact absurd h0 hn
  apply h.move hb (by simp)
  · obtain rfl | ⟨rfl,_⟩ := hw
    · exact .inr (.inr rfl)
    · exact .inr (.inl rfl)
  · refine .inr ⟨?_,t,fun u => ?_⟩
    · obtain rfl | ⟨rfl,_⟩ := hw
      · decide
      · decide
    · rw [holds_goto]
      by_cases hu : u = t
      · simp [hu]
      · simp [hu,hfree u]
  · intro hs
    obtain h2 | ⟨_,hidle⟩ := hw
    · exact .inl h2
    · refine .inr (h.notice_of_ne ?_ ?_ ?_ hs)
      · rw [h0]; decide
      · rw [hidle]; simp
      · unfold Busy; rw [hidle]; simp

theorem holds_goto_other (ht : ¬ Holds m t) (hp : p ≠ .held ∧ p ≠ .store) (u : α) :
    Holds (m.goto t p) u ↔ Holds m u := by
  rw [holds_goto]
  by_cases hu : u = t
  · subst hu
    rw [if_pos rfl]
    exact iff_of_false (fun h => h.elim hp.1 hp.2) ht
  · rw [if_neg hu]

/-- A thread without the lock goes on; the word keeps its value, or a taken one is
marked contended. -/
theorem Inv.pass (h : Inv m) (ht : ¬ Holds m t) (hb : m.pc t ≠ .blocked)
    (hp : p ≠ .held ∧ p ≠ .store ∧ p ≠ .blocked)
    (hw : w = m.lock ∧ ¬ Busy m t ∨ w = 2 ∧ m.lock ≠ 0) : Inv ({ m with lock := w }.goto t p) := by
  have hsame := holds_goto_other ht ⟨hp.1,hp.2.1⟩
  apply h.move hb hp.2.2
  · obtain ⟨rfl,_⟩ | ⟨rfl,_⟩ := hw
    · exact h.word
    · exact .inr (.inr rfl)
  · simp only [hsame]
    obtain ⟨rfl,_⟩ | ⟨rfl,hn⟩ := hw
    · exact h.owner
    · exact .inr ⟨by decide,(h.owner.resolve_left fun h => hn h.1).2⟩
  · intro hs
    obtain ⟨rfl,hbusy⟩ | ⟨rfl,_⟩ := hw
    · by_cases h2 : m.lock = 2
      · exact .inl h2
      · exact .inr (h.notice_of_ne h2 (fun he => ht (.inr he)) hbusy hs)
    · exact .inl rfl

theorem Inv.block (h : Inv m) (ht : m.pc t = .futexWait) (h2 : m.lock = 2) :
    Inv ({ m with sleepers := m.sleepers ++ [t] }.goto t .blocked) where
  word := h.word
  owner := by
    have hsame := holds_goto_other (m := m) (t := t) (p := .blocked) (by simp [Holds,ht]) (by simp)
    have howner := h.owner
    simp only [← hsame] at howner
    exact howner
  asleep := by
    intro u
    rw [goto_pc]
    exact asleep_appended h.asleep u
  nodup := nodup_appended h.nodup (by rw [h.asleep,ht]; simp)
  noticed := fun _ => .inl h2

theorem wake_pc (m : State α) (ws : List α) (u : α) :
    (m.wake ws).pc u = if u ∈ ws then .exchange else m.pc u := rfl

theorem Inv.wake (h : Inv m) {ws : List α} (hws : ∀ u ∈ ws, m.pc u = .blocked) : Inv (m.wake ws) where
  word := h.word
  owner := by
    have hsame : ∀ u, Holds (m.wake ws) u ↔ Holds m u := by
      intro u
      unfold Holds
      rw [wake_pc]
      by_cases hu : u ∈ ws
      · simp [hu,hws u hu]
      · simp [hu]
    simp only [hsame]
    exact h.owner
  asleep := asleep_rest h.asleep (by simp) ws
  nodup := rest_nodup h.nodup ws
  noticed := by
    intro hs
    by_cases hnil : ws = []
    · subst hnil
      have hsame : m.wake [] = m := by simp [State.wake,rest]
      rw [hsame] at hs ⊢
      exact h.noticed hs
    · obtain ⟨u,hu⟩ := exists_mem_of_ne_nil ws hnil
      exact .inr ⟨u,.inr (.inr (by rw [wake_pc,if_pos hu]))⟩

theorem Inv.released (h : Inv m) (ht : Holds m t) (hp : p ≠ .held ∧ p ≠ .store) (u : α) :
    ¬ Holds (m.goto t p) u := by
  rw [holds_goto]
  by_cases hu : u = t
  · simp [hu,hp]
  · simp [hu,(h.holder ht).2 u]

theorem Inv.unlock (h : Inv m) (ht : m.pc t = .held) :
    Inv ({ m with lock := m.lock-1 }.goto t (if m.lock ≠ 1 then .store else .idle)) := by
  obtain ⟨hn,ho⟩ := h.holder (.inl ht)
  have hb : m.pc t ≠ .blocked := by rw [ht]; simp
  obtain h0 | h1 | h2 := h.word
  · exact absurd h0 hn
  · -- nobody contended: the word is free at once
    rw [h1,if_neg (by simp)]
    apply h.move hb (by simp) (.inl (by decide))
    · exact .inl ⟨by decide,h.released (.inl ht) (by simp)⟩
    · intro hs
      exact .inr (h.notice_of_ne (by rw [h1]; decide) (by rw [ht]; simp) (by simp [Busy,ht]) hs)
  · -- contended: the word stays taken until it is stored
    rw [h2,if_pos (by decide)]
    apply h.move hb (by simp) (.inr (.inl (by decide)))
    · refine .inr ⟨by decide,t,fun u => ?_⟩
      rw [holds_goto]
      by_cases hu : u = t
      · simp [hu]
      · simp [hu,ho u]
    · exact fun _ => .inr ⟨t,.inl (by simp)⟩

theorem Inv.store (h : Inv m) (ht : m.pc t = .store) : Inv ({ m with lock := 0 }.goto t .futexWake) := by
  apply h.move (by rw [ht]; simp) (by simp) (.inl rfl)
  · exact .inl ⟨rfl,h.released (.inr ht) (by simp)⟩
  · exact fun _ => .inr ⟨t,.inr (.inl (by simp))⟩

theorem Inv.futexWake (h : Inv m) {ws : List α} (ht : m.pc t = .futexWake)
    (hws : Takes m.sleepers 1 ws) : Inv ((m.wake ws).goto t .idle) := by
  have hblk : ∀ u ∈ ws, m.pc u = .blocked := fun u hu => (h.asleep u).mp (hws.asleep u hu)
  have hw := h.wake hblk
  have hpc : (m.wake ws).pc t = .futexWake := by
    have hnot : t ∉ ws := fun hmem => by have := hblk t hmem; rw [ht] at this; cases this
    rw [wake_pc,if_neg hnot,ht]
  apply hw.move (by rw [hpc]; simp) (by simp) hw.word
  · have hsame := holds_goto_other (m := m.wake ws) (t := t) (p := .idle) (by simp [Holds,hpc]) (by simp)
    simp only [hsame]
    exact hw.owner
  · intro hs
    have hne : m.sleepers ≠ [] := by
      rintro hnil
      simp [State.wake,rest,hnil] at hs
    obtain ⟨u,hu⟩ := hws.exists_mem Nat.one_pos hne
    have hut : u ≠ t := by
      rintro rfl
      rw [hblk u hu] at ht
      cases ht
    exact .inr ⟨u,.inr (.inr (by rw [goto_pc,if_neg hut,wake_pc,if_pos hu]))⟩

theorem Inv.step (h : Inv m) (hy : step m e = some m') : Inv m' := by
  cases e with
  | trylock t =>
    obtain ⟨ht,hy⟩ := ite_none_right_eq_some.mp hy
    cases hy
    have hb : m.pc t ≠ .blocked := by rw [ht]; simp
    by_cases h0 : m.lock = 0
    · simp only [pthreadMutexTrylock,compareExchange_free h0,if_true]
      exact h.acquire h0 hb (.inr ⟨rfl,ht⟩)
    · simp only [pthreadMutexTrylock,compareExchange_taken h0]
      exact h.pass (by simp [Holds,ht]) hb (by decide) (.inl ⟨rfl,by simp [Busy,ht]⟩)
  | lock t =>
    obtain ⟨ht,hy⟩ := ite_none_right_eq_some.mp hy
    have hb : m.pc t ≠ .blocked := by rw [ht]; simp
    have hhold : ¬ Holds m t := by simp [Holds,ht]
    have hbusy : ¬ Busy m t := by simp [Busy,ht]
    by_cases h0 : m.lock = 0
    · simp only [compareExchange_free h0,if_true] at hy
      cases hy
      exact h.acquire h0 hb (.inr ⟨rfl,ht⟩)
    simp only [compareExchange_taken h0,Bool.false_eq_true,if_false] at hy
    split_ifs at hy
    · cases hy
      exact h.pass hhold hb (by decide) (.inl ⟨rfl,hbusy⟩)
    · cases hy
      rw [State.loop,if_neg h0]
      exact h.pass hhold hb (by decide) (.inl ⟨rfl,hbusy⟩)
  | exchange t =>
    obtain ⟨ht,hy⟩ := ite_none_right_eq_some.mp hy
    cases hy
    have hb : m.pc t ≠ .blocked := by rw [ht]; simp
    unfold State.loop
    split_ifs with h0
    · exact h.acquire h0 hb (.inl rfl)
    · exact h.pass (by simp [Holds,ht]) hb (by decide) (.inr ⟨rfl,h0⟩)
  | futexWait t =>
    obtain ⟨ht,hy⟩ := ite_none_right_eq_some.mp hy
    split_ifs at hy with h2
    · cases hy
      exact h.block ht h2
    · cases hy
      exact h.pass (by simp [Holds,ht]) (by rw [ht]; simp) (by decide) (.inl ⟨rfl,by simp [Busy,ht]⟩)
  | interrupt t =>
    simp only [Mutex.step] at hy
    split_ifs at hy with hb ht
    · cases hy
      apply h.wake
      intro u hu
      rw [mem_singleton.mp hu,hb]
    · cases hy
      exact h.pass (by simp [Holds,ht]) hb (by decide) (.inl ⟨rfl,by simp [Busy,ht]⟩)
  | unlock t =>
    obtain ⟨ht,hy⟩ := ite_none_right_eq_some.mp hy
    cases hy
    exact h.unlock ht
  | store t =>
    obtain ⟨ht,hy⟩ := ite_none_right_eq_some.mp hy
    cases hy
    exact h.store ht
  | futexWake t ws =>
    obtain ⟨⟨ht,hws⟩,hy⟩ := ite_none_right_eq_some.mp hy
    cases hy
    exact h.futexWake ht hws

/-- In every interleaving of any number of threads, at most one thread is between
lock and unlock, and no thread sleeps on a free word unless another one is about to
wake it or to take the lock. -/
theorem mutex_exclusive_and_live (es : List (Event α)) : Always step Safe (boot : State α) es :=
  always_of_along (fun _ h => Inv.safe h) (fun _ _ _ h _ hy => Inv.step h hy) boot es boot_inv
    (Along.of_mem (fun _ _ => trivial) boot)

-- one thread sleeps while another has the lock, and gets it
example : (exec step (boot : State Nat) [.lock 0,.lock 1,.exchange 1,.futexWait 1,.unlock 0,.store 0,
    .futexWake 0 [1],.exchange 1]).map (fun m => (m.lock,m.pc 0,m.pc 1)) = some (2,.idle,.held) := rfl

end Lariat.Libc.Mutex
