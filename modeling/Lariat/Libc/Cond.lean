import Lariat.Libc.Mutex
import Mathlib.Order.Interval.Finset.Nat

/-! `pthread_cond_wait`, `pthread_cond_signal` and `pthread_cond_broadcast` on one
condition variable with one mutex: the sequence word, its futex, and the code of the
mutex in between; and what a wait can rely on. -/
namespace Lariat.Libc.Cond
open Foundation.Runs Foundation.FutexWord Function List Option BitVec Nat

/-- Where a thread is in the condition-variable code. `unlocking` lasts from the load
of the sequence word to the futex wait, `locking` from its end to the return. -/
inductive Pc where
  | user
  | unlocking
  | blocked
  | locking
  | signalWake
  | broadcastWake
  deriving DecidableEq, Repr

/-- The counts are not in the code: `adds` is the number of increments of the word,
`loaded` its value at a thread's last load, `waits` the number of `pthread_cond_wait`
calls of a thread and `ended` the number of futex waits that were blocked and are over. -/
structure State (α : Type*) where
  mutex : Mutex.State α := {}
  seq : BitVec 32 := 0
  pc : α → Pc := fun _ => .user
  saved : α → BitVec 32 := fun _ => 0
  sleepers : List α := []
  adds : Nat := 0
  loaded : α → Nat := fun _ => 0
  waits : α → Nat := fun _ => 0
  ended : Nat := 0

inductive Event (α : Type*) where
  | mutex (e : Mutex.Event α)
  | load (t : α)
  | futexWait (t : α)
  | interrupt (t : α)
  | ret (t : α)
  | signal (t : α)
  | signalWake (t : α) (ws : List α)
  | broadcast (t : α)
  | broadcastWake (t : α) (ws : List α)

variable {α : Type*}

/-- The thread whose mutex code takes the step. -/
def thread : Mutex.Event α → α
  | .trylock t | .lock t | .exchange t | .futexWait t | .interrupt t | .unlock t | .store t
  | .futexWake t _ => t

/-- The mutex code that runs at each place: any call of the program's own, and inside
`pthread_cond_wait` first the unlock and then the lock. -/
def allowed : Pc → Mutex.Event α → Bool
  | .user, _ => true
  | .unlocking, .unlock _ | .unlocking, .store _ | .unlocking, .futexWake _ _ => true
  | .locking, .lock _ | .locking, .exchange _ | .locking, .futexWait _ | .locking, .interrupt _ => true
  | _, _ => false

/-- In the program's own code, and not inside a mutex function. -/
def State.Outside (m : State α) (t : α) : Prop :=
  m.pc t = .user ∧ (m.mutex.pc t = .idle ∨ m.mutex.pc t = .held)

instance (m : State α) (t : α) : Decidable (m.Outside t) := inferInstanceAs (Decidable (_ ∧ _))

/-- The increment of the sequence word. -/
def State.bump (m : State α) : State α := { m with seq := m.seq+1, adds := m.adds+1 }

/-- The count with which a broadcast wakes. -/
def INT_MAX : Nat := 0x7fffffff

section Machine
variable [DecidableEq α]

def State.goto (m : State α) (t : α) (p : Pc) : State α :=
  { m with pc := update m.pc t p }

def State.load (m : State α) (t : α) : State α :=
  { m.goto t .unlocking with
    saved := update m.saved t m.seq
    loaded := update m.loaded t m.adds
    waits := update m.waits t (m.waits t+1) }

def State.block (m : State α) (t : α) : State α :=
  { m.goto t .blocked with sleepers := m.sleepers ++ [t] }

/-- Woken threads go on to take the mutex. -/
def State.wake (m : State α) (ws : List α) : State α :=
  { m with
    pc := fun u => if u ∈ ws then .locking else m.pc u
    sleepers := rest m.sleepers ws
    ended := m.ended+ws.length }

def step (m : State α) : Event α → Option (State α)
  | .mutex e =>
    if allowed (m.pc (thread e)) e then (Mutex.step m.mutex e).map fun x => { m with mutex := x }
    else none
  | .load t => if m.pc t = .user ∧ m.mutex.pc t = .held then some (m.load t) else none
  | .futexWait t =>
    if m.pc t = .unlocking ∧ m.mutex.pc t = .idle then
      if m.seq = m.saved t then some (m.block t) else some (m.goto t .locking)
    else none
  | .interrupt t =>
    if m.pc t = .blocked then some (m.wake [t])
    else if m.pc t = .unlocking ∧ m.mutex.pc t = .idle then some (m.goto t .locking)
    else none
  | .ret t =>
    if m.pc t = .locking ∧ m.mutex.pc t = .held then some (m.goto t .user) else none
  | .signal t => if m.Outside t then some (m.bump.goto t .signalWake) else none
  | .signalWake t ws =>
    if m.pc t = .signalWake ∧ Takes m.sleepers 1 ws then some ((m.wake ws).goto t .user) else none
  | .broadcast t => if m.Outside t then some (m.bump.goto t .broadcastWake) else none
  | .broadcastWake t ws =>
    if m.pc t = .broadcastWake ∧ Takes m.sleepers INT_MAX ws then some ((m.wake ws).goto t .user)
    else none

end Machine

def boot : State α := {}

/-- Fewer than 2^32 signals between a waiter's load and its futex wait. -/
def EventOk (m : State α) : Event α → Prop
  | .futexWait t => m.adds-m.loaded t < 0x100000000
  | _ => True

/-- The thread is blocked in `m'` in the same `pthread_cond_wait` as in `m`. -/
def StillBlocked (m m' : State α) (t : α) : Prop := m'.pc t = .blocked ∧ m'.waits t = m.waits t

instance (m m' : State α) (t : α) : Decidable (StillBlocked m m' t) :=
  inferInstanceAs (Decidable (_ ∧ _))

/-- The number of calls of `pthread_cond_signal` that are completed in a run. -/
def signals : List (Event α) → Nat
  | [] => 0
  | .signalWake _ _ :: es => signals es+1
  | _ :: es => signals es

theorem signals_cons (e : Event α) (es : List (Event α)) : signals (e :: es) = signals [e]+signals es := by
  cases e <;> simp [signals,add_comm]

/-- The wake-up takes the sleepers in the order in which they came. -/
def InOrder (m : State α) : Event α → Prop
  | .signalWake _ ws => ws = m.sleepers.take 1
  | .broadcastWake _ ws => ws = m.sleepers.take INT_MAX
  | _ => True

structure Inv (m : State α) : Prop where
  mutex : Mutex.Inv m.mutex
  seq : m.seq = BitVec.ofNat 32 m.adds
  saved : ∀ t, m.pc t = .unlocking → m.saved t = BitVec.ofNat 32 (m.loaded t)
  loaded : ∀ t, m.loaded t ≤ m.adds
  asleep : ∀ t, t ∈ m.sleepers ↔ m.pc t = .blocked
  nodup : m.sleepers.Nodup

theorem boot_inv : Inv (boot : State α) where
  mutex := Mutex.boot_inv
  seq := rfl
  saved := by simp [boot]
  loaded := by simp [boot]
  asleep := by simp [boot]
  nodup := nodup_nil

variable {m m' : State α}

theorem Inv.bump (h : Inv m) : Inv m.bump where
  mutex := h.mutex
  seq := by simp [State.bump,h.seq,ofNat_add]
  saved := h.saved
  loaded := fun t => le_succ_of_le (h.loaded t)
  asleep := h.asleep
  nodup := h.nodup

section Runs

variable [DecidableEq α] {e : Event α} {t u : α} {p : Pc}

/-- Everything a step can do. -/
inductive Moved (m : State α) : Event α → State α → Prop where
  | mutex {a : Mutex.Event α} {x : Mutex.State α} (h : Mutex.step m.mutex a = some x) : Moved m (.mutex a) { m with mutex := x }
  | load {t : α} (h : m.pc t = .user) : Moved m (.load t) (m.load t)
  | block {t : α} (h : m.pc t = .unlocking) (hs : m.seq = m.saved t) : Moved m (.futexWait t) (m.block t)
  | pass {e : Event α} {t : α} {p : Pc} (ht : m.pc t ≠ .blocked) (hp : p ≠ .blocked ∧ p ≠ .unlocking)
      (he : signals [e] = 0) : Moved m e (m.goto t p)
  | bump {e : Event α} {t : α} {p : Pc} (ht : m.pc t ≠ .blocked) (hp : p ≠ .blocked ∧ p ≠ .unlocking)
      (he : signals [e] = 0) : Moved m e (m.bump.goto t p)
  | interrupt {t : α} (h : m.pc t = .blocked) : Moved m (.interrupt t) (m.wake [t])
  | signalWake {t : α} {ws : List α} (ht : m.pc t = .signalWake) (hw : Takes m.sleepers 1 ws) :
      Moved m (.signalWake t ws) ((m.wake ws).goto t .user)
  | broadcastWake {t : α} {ws : List α} (ht : m.pc t = .broadcastWake) (hw : Takes m.sleepers INT_MAX ws) :
      Moved m (.broadcastWake t ws) ((m.wake ws).goto t .user)

theorem step_moved (h : step m e = some m') : Moved m e m' := by
  cases e with
  | mutex a =>
    obtain ⟨_,h⟩ := ite_none_right_eq_some.mp h
    obtain ⟨x,hx,rfl⟩ := map_eq_some_iff.mp h
    exact .mutex hx
  | load t =>
    obtain ⟨ht,h⟩ := ite_none_right_eq_some.mp h
    cases h
    exact .load ht.1
  | futexWait t =>
    obtain ⟨ht,h⟩ := ite_none_right_eq_some.mp h
    split_ifs at h with hs
    · cases h
      exact .block ht.1 hs
    · cases h
      exact .pass (by simp [ht.1]) (by simp) rfl
  | interrupt t =>
    simp only [step] at h
    split_ifs at h with hb ht
    · cases h
      exact .interrupt hb
    · cases h
      exact .pass hb (by simp) rfl
  | ret t =>
    obtain ⟨ht,h⟩ := ite_none_right_eq_some.mp h
    cases h
    exact .pass (by simp [ht.1]) (by simp) rfl
  | signal t =>
    obtain ⟨ht,h⟩ := ite_none_right_eq_some.mp h
    cases h
    exact .bump (by simp [ht.1]) (by simp) rfl
  | signalWake t ws =>
    obtain ⟨ht,h⟩ := ite_none_right_eq_some.mp h
    cases h
    exact .signalWake ht.1 ht.2
  | broadcast t =>
    obtain ⟨ht,h⟩ := ite_none_right_eq_some.mp h
    cases h
    exact .bump (by simp [ht.1]) (by simp) rfl
  | broadcastWake t ws =>
    obtain ⟨ht,h⟩ := ite_none_right_eq_some.mp h
    cases h
    exact .broadcastWake ht.1 ht.2

@[simp] theorem goto_pc (m : State α) (t u : α) (p : Pc) :
    (m.goto t p).pc u = if u = t then p else m.pc u := by
  by_cases h : u = t
  · subst h; simp [State.goto]
  · simp [State.goto,h]

@[simp] theorem load_pc (m : State α) (t u : α) :
    (m.load t).pc u = if u = t then .unlocking else m.pc u := goto_pc m t u .unlocking

@[simp] theorem block_pc (m : State α) (t u : α) :
    (m.block t).pc u = if u = t then .blocked else m.pc u := goto_pc m t u .blocked

@[simp] theorem wake_pc (m : State α) (ws : List α) (u : α) :
    (m.wake ws).pc u = if u ∈ ws then .locking else m.pc u := rfl

theorem Inv.goto (h : Inv m) (ht : m.pc t ≠ .blocked) (hp : p ≠ .blocked ∧ p ≠ .unlocking) :
    Inv (m.goto t p) where
  mutex := h.mutex
  seq := h.seq
  saved := by
    intro u hu
    rw [goto_pc] at hu
    split_ifs at hu
    · exact absurd hu hp.2
    · exact h.saved u hu
  loaded := h.loaded
  asleep := by
    intro u
    rw [goto_pc]
    exact asleep_moved h.asleep ht hp.1 u
  nodup := h.nodup

theorem Inv.load (h : Inv m) (ht : m.pc t = .user) : Inv (m.load t) where
  mutex := h.mutex
  seq := h.seq
  saved := by
    intro u hu
    by_cases hut : u = t
    · simp [State.load,hut,h.seq]
    · rw [load_pc,if_neg hut] at hu
      simp [State.load,hut,h.saved u hu]
  loaded := by
    intro u
    by_cases hut : u = t
    · simp [State.load,State.goto,hut]
    · simpa [State.load,State.goto,hut] using h.loaded u
  asleep := by
    intro u
    rw [load_pc]
    exact asleep_moved h.asleep (by simp [ht]) (by simp) u
  nodup := h.nodup

theorem Inv.block (h : Inv m) (ht : m.pc t = .unlocking) : Inv (m.block t) where
  mutex := h.mutex
  seq := h.seq
  saved := by
    intro u hu
    rw [block_pc] at hu
    split_ifs at hu
    exact h.saved u hu
  loaded := h.loaded
  asleep := by
    intro u
    rw [block_pc]
    exact asleep_appended h.asleep u
  nodup := nodup_appended h.nodup (by simp [h.asleep,ht])

theorem Inv.wake (h : Inv m) (ws : List α) : Inv (m.wake ws) where
  mutex := h.mutex
  seq := h.seq
  saved := by
    intro u hu
    rw [wake_pc] at hu
    split_ifs at hu
    exact h.saved u hu
  loaded := h.loaded
  asleep := asleep_rest h.asleep (by simp) ws
  nodup := rest_nodup h.nodup ws

variable {ws : List α}

theorem Inv.wake_goto (h : Inv m) (ht : m.pc t ≠ .blocked) : Inv ((m.wake ws).goto t .user) := by
  apply (h.wake ws).goto
  · rw [wake_pc]
    split_ifs
    · simp
    · exact ht
  · simp

section

variable (hy : step m e = some m')
include hy

theorem Inv.step (h : Inv m) : Inv m' := by
  cases step_moved hy with
  | mutex hx => exact ⟨h.mutex.step hx,h.seq,h.saved,h.loaded,h.asleep,h.nodup⟩
  | load ht => exact h.load ht
  | block ht hs => exact h.block ht
  | pass ht hp he => exact h.goto ht hp
  | bump ht hp he => exact h.bump.goto ht hp
  | interrupt ht => exact h.wake _
  | signalWake ht hw | broadcastWake ht hw => exact h.wake_goto (by simp [ht])

/-- Only a new `pthread_cond_wait` loads the word, and it is counted. -/
theorem step_waits (u : α) : m.waits u ≤ m'.waits u ∧ (m'.waits u = m.waits u →
      m'.loaded u = m.loaded u ∧ (m'.pc u = .unlocking → m.pc u = .unlocking)) := by
  have hsame : ∀ (x : State α) (t : α) (p : Pc), p ≠ .unlocking → x.pc = m.pc →
      (x.goto t p).pc u = .unlocking → m.pc u = .unlocking := by
    intro x t p hp hx hu
    rw [goto_pc] at hu
    split_ifs at hu
    · exact absurd hu hp
    · rwa [hx] at hu
  have hwake : ∀ ws, (m.wake ws).pc u = .unlocking → m.pc u = .unlocking := by
    intro ws hu
    rw [wake_pc] at hu
    split_ifs at hu
    exact hu
  cases step_moved hy with
  | mutex hx => exact ⟨le_refl _,fun _ => ⟨rfl,id⟩⟩
  | load ht =>
    rename_i t
    by_cases hu : u = t
    · subst hu
      simp [State.load,State.goto]
    · simp [State.load,State.goto,hu]
  | block ht hs => exact ⟨le_refl _,fun _ => ⟨rfl,hsame m _ .blocked (by simp) rfl⟩⟩
  | pass ht hp he => exact ⟨le_refl _,fun _ => ⟨rfl,hsame m _ _ hp.2 rfl⟩⟩
  | bump ht hp he => exact ⟨le_refl _,fun _ => ⟨rfl,hsame m.bump _ _ hp.2 rfl⟩⟩
  | interrupt ht => exact ⟨le_refl _,fun _ => ⟨rfl,hwake _⟩⟩
  | signalWake ht hw | broadcastWake ht hw =>
    refine ⟨le_refl _,fun _ => ⟨rfl,fun hu => ?_⟩⟩
    rw [goto_pc] at hu
    split_ifs at hu
    exact hwake _ hu

/-- A thread gets blocked only in its futex wait, on the value it loaded. -/
theorem step_blocked (hb : m'.pc u = .blocked) :
    m.pc u = .blocked ∨ e = .futexWait u ∧ m.pc u = .unlocking ∧ m.seq = m.saved u := by
  have hwake : ∀ ws, (m.wake ws).pc u = .blocked → m.pc u = .blocked := by
    intro ws hu
    rw [wake_pc] at hu
    split_ifs at hu
    exact hu
  cases step_moved hy with
  | mutex hx => exact .inl hb
  | load ht =>
    rw [load_pc] at hb
    split_ifs at hb
    exact .inl hb
  | block ht hs =>
    rw [block_pc] at hb
    split_ifs at hb with hu
    · subst hu
      exact .inr ⟨rfl,ht,hs⟩
    · exact .inl hb
  | pass ht hp he | bump ht hp he =>
    rw [goto_pc] at hb
    split_ifs at hb
    · exact absurd hb hp.1
    · exact .inl hb
  | interrupt ht => exact .inl (hwake _ hb)
  | signalWake ht hw | broadcastWake ht hw =>
    rw [goto_pc] at hb
    split_ifs at hb
    exact .inl (hwake _ hb)

theorem step_adds : m.adds ≤ m'.adds := by
  cases step_moved hy with
  | bump ht hp he => exact le_succ _
  | _ => exact le_refl _

end

/-- An increment later, the wait number `i` of thread `u` began with an older value. -/
structure After (n i : Nat) (u : α) (m : State α) : Prop where
  inv : Inv m
  adds : n < m.adds
  waits : i ≤ m.waits u
  loaded : m.waits u = i → m.loaded u ≤ n

theorem After.step {n i : Nat} (h : After n i u m) (hy : step m e = some m') : After n i u m' := by
  obtain ⟨hle,hsame⟩ := step_waits hy u
  refine ⟨h.inv.step hy,lt_of_lt_of_le h.adds (step_adds hy),le_trans h.waits hle,?_⟩
  intro hi
  have hw : m.waits u = i := le_antisymm (hi ▸ hle) h.waits
  rw [(hsame (hi.trans hw.symm)).1]
  exact h.loaded hw

/-- Such a wait does not block any more: the word has changed since, and fewer than
2^32 signals cannot bring it back. -/
theorem After.not_blocks {n i : Nat} (h : After n i u m) (hok : EventOk m e)
    (hy : Cond.step m e = some m') (hn : ¬ (m.pc u = .blocked ∧ m.waits u = i)) :
    ¬ (m'.pc u = .blocked ∧ m'.waits u = i) := by
  rintro ⟨hb,hi⟩
  have hw : m.waits u = i := le_antisymm (hi ▸ (step_waits hy u).1) h.waits
  obtain hb0 | ⟨rfl,hpc,hseq⟩ := step_blocked hy hb
  · exact hn ⟨hb0,hw⟩
  have hlt : m.adds-m.loaded u < 0x100000000 := hok
  have hold := h.loaded hw
  have hnew := h.adds
  rw [h.inv.seq,h.inv.saved u hpc] at hseq
  have hmod := congrArg BitVec.toNat hseq
  simp only [toNat_ofNat] at hmod
  omega

theorem Inv.broadcastWake (h : Inv m) (hlen : m.sleepers.length ≤ INT_MAX)
    (hy : Cond.step m (.broadcastWake t ws) = some m') (u : α) : m'.pc u ≠ .blocked := by
  obtain ⟨⟨_,hw⟩,hy⟩ := ite_none_right_eq_some.mp hy
  cases hy
  intro hb
  have hi := (h.wake ws).asleep u
  rw [goto_pc] at hb
  split_ifs at hb
  have hmem := hi.mpr hb
  rw [State.wake,hw.rest_eq_nil h.nodup hlen] at hmem
  cases hmem

/-- No wait that began before a broadcast is blocked after its completion. -/
theorem broadcast_unblocks {m0 m1 : State α} {fs gs : List (Event α)}
    (hcard : ∀ q : List α, q.Nodup → q.length ≤ INT_MAX) (h0 : Inv m0)
    (hok : Along step EventOk m0 (.broadcast t :: fs ++ .broadcastWake t ws :: gs))
    (he : exec step m0 (.broadcast t :: fs ++ .broadcastWake t ws :: gs) = some m1) :
    ¬ StillBlocked m0 m1 u := by
  rw [exec_append] at he
  obtain ⟨m,hm,he⟩ := bind_eq_some_iff.mp he
  have hrest := hok.after hm
  obtain ⟨mb,hb,hm⟩ := bind_eq_some_iff.mp hm
  obtain ⟨mw,hw,he⟩ := bind_eq_some_iff.mp he
  have hstart : After m0.adds (m0.waits u) u mb := by
    have hinv := h0.step hb
    obtain ⟨_,hb⟩ := ite_none_right_eq_some.mp hb
    cases hb
    exact ⟨hinv,lt_succ_self _,le_refl _,fun _ => h0.loaded u⟩
  have hafter : After m0.adds (m0.waits u) u m :=
    exec_keeps (fun _ _ _ h _ hy => After.step h hy) hstart (fun _ _ => trivial) hm
  have hdone : After m0.adds (m0.waits u) u mw ∧ ¬ (mw.pc u = .blocked ∧ mw.waits u = m0.waits u) :=
    ⟨hafter.step hw,fun hn => hafter.inv.broadcastWake (hcard _ hafter.inv.nodup) hw u hn.1⟩
  have keep : ∀ s e s', (After m0.adds (m0.waits u) u s ∧ ¬ (s.pc u = .blocked ∧ s.waits u = m0.waits u)) →
      EventOk s e → step s e = some s' →
      After m0.adds (m0.waits u) u s' ∧ ¬ (s'.pc u = .blocked ∧ s'.waits u = m0.waits u) :=
    fun _ _ _ h hok hy => ⟨h.1.step hy,h.1.not_blocks hok hy h.2⟩
  exact ((hrest.2 mw hw).keeps keep hdone he).2

/-- A wait leaves the sleepers only by ending, and a signal ends one if there is one. -/
theorem Inv.step_ended (h : Inv m) (hy : Cond.step m e = some m') :
    m.sleepers.length+m.ended ≤ m'.sleepers.length+m'.ended ∧
      m.ended+min (signals [e]) m.sleepers.length ≤ m'.ended := by
  cases step_moved hy with
  | mutex hx => exact ⟨le_refl _,by simp [signals]⟩
  | load ht => exact ⟨le_refl _,by simp [signals,State.load,State.goto]⟩
  | block ht hs => exact ⟨by simp [State.block,State.goto],by simp [signals,State.block,State.goto]⟩
  | pass ht hp he => exact ⟨le_refl _,by simp [he,State.goto]⟩
  | bump ht hp he => exact ⟨le_refl _,by simp [he,State.goto,State.bump]⟩
  | interrupt ht =>
    rename_i t
    have htakes : Takes m.sleepers 1 [t] := by
      refine ⟨nodup_singleton t,?_,?_⟩
      · simp [h.asleep,ht]
      · have hpos := length_pos_of_mem ((h.asleep t).mpr ht)
        simp only [length_singleton]
        omega
    have hlen := htakes.rest_length h.nodup
    have hone := htakes.number
    simp only [State.wake,signals]
    omega
  | signalWake ht hw | broadcastWake ht hw =>
    have hlen := hw.rest_length h.nodup
    have hone := hw.number
    simp only [State.wake,State.goto,signals]
    omega

/-- After `k` signals, at least as many waits have ended as were blocked before, or
as there were signals. -/
theorem signals_end_waits {m0 m1 : State α} {fs : List (Event α)} (h0 : Inv m0)
    (he : exec step m0 fs = some m1) :
    m0.ended+min (signals fs) m0.sleepers.length ≤ m1.ended := by
  induction fs generalizing m0 with
  | nil => cases he; simp [signals]
  | cons e fs ih =>
    obtain ⟨m,hm,he⟩ := bind_eq_some_iff.mp he
    have hrest := ih (h0.step hm) he
    obtain ⟨hkept,hsig⟩ := h0.step_ended hm
    rw [signals_cons]
    omega

end Runs

variable {m0 : State α} {k : Nat}

/-- The waits of `m0` that are left stand first in the queue, and `k` signals have
taken their share of them. -/
structure Kept (m0 : State α) (k : Nat) (m : State α) : Prop where
  inv : Inv m
  waits : ∀ t, m0.waits t ≤ m.waits t
  left : ∀ t ∈ m0.sleepers, m.waits t = m0.waits t → m.pc t ≠ .unlocking
  queue : ∃ old new, m.sleepers = old ++ new ∧
    (∀ t ∈ new, ¬ (t ∈ m0.sleepers ∧ m.waits t = m0.waits t)) ∧
    old.length+min k m0.sleepers.length ≤ m0.sleepers.length

theorem Inv.kept (h : Inv m) : Kept m 0 m where
  inv := h
  waits := fun _ => le_refl _
  left := by
    intro t ht _
    rw [(h.asleep t).mp ht]
    simp
  queue := ⟨m.sleepers,[],by simp⟩

/-- Of the waits that were blocked, `k` are over, or all of them. -/
theorem Kept.ended (h : Kept m0 k m) (h0 : Inv m0) :
    min k m0.sleepers.length ≤ (m0.sleepers.filter fun t => ¬ StillBlocked m0 m t).length := by
  obtain ⟨old,new,hq,hnew,hlen⟩ := h.queue
  have hsub : (m0.sleepers.filter fun t => StillBlocked m0 m t) ⊆ old := by
    intro t ht
    obtain ⟨ht0,hst⟩ := mem_filter.mp ht
    obtain ⟨hb,hw⟩ : StillBlocked m0 m t := by simpa using hst
    have hmem := (h.inv.asleep t).mpr hb
    rw [hq] at hmem
    exact (mem_append.mp hmem).resolve_right fun hn => hnew t hn ⟨ht0,hw⟩
  have hle := ((h0.nodup.filter _).subperm hsub).length_le
  have hsplit := length_eq_length_filter_add (l := m0.sleepers)
    (fun t => decide (StillBlocked m0 m t))
  have hneg : (m0.sleepers.filter fun t => ¬ StillBlocked m0 m t) =
      m0.sleepers.filter fun t => !decide (StillBlocked m0 m t) := by simp
  rw [hneg]
  omega

variable [DecidableEq α] {e : Event α} {t u : α}

/-- A step never takes the number of a wait back. -/
theorem Kept.waits_eq (h : Kept m0 k m) (hy : step m e = some m') (ht : m'.waits t = m0.waits t) :
    m.waits t = m0.waits t :=
  le_antisymm (ht ▸ (step_waits hy t).1) (h.waits t)

theorem Kept.wake {old new : List α} (ws : List α) (hq : m.sleepers = old ++ new)
    (hnew : ∀ t ∈ new, ¬ (t ∈ m0.sleepers ∧ m.waits t = m0.waits t)) :
    (m.wake ws).sleepers = rest old ws ++ rest new ws ∧
      ∀ t ∈ rest new ws, ¬ (t ∈ m0.sleepers ∧ (m.wake ws).waits t = m0.waits t) := by
  refine ⟨by simp [State.wake,rest,hq],fun t ht => ?_⟩
  exact hnew t (mem_rest.mp ht).1

theorem rest_length_le (q ws : List α) : (rest q ws).length ≤ q.length := length_filter_le _ _

theorem Kept.step (h : Kept m0 k m) (hord : InOrder m e) (hy : Cond.step m e = some m') :
    Kept m0 (k+signals [e]) m' := by
  have hinv := h.inv.step hy
  refine ⟨hinv,fun t => le_trans (h.waits t) (step_waits hy t).1,?_,?_⟩
  · intro t ht hw hpc
    have hw0 := h.waits_eq hy hw
    exact h.left t ht hw0 (((step_waits hy t).2 (hw.trans hw0.symm)).2 hpc)
  obtain ⟨old,new,hq,hnew,hlen⟩ := h.queue
  cases step_moved hy with
  | mutex hx => exact ⟨old,new,hq,hnew,hlen⟩
  | load ht =>
    refine ⟨old,new,hq,fun u hu hold => hnew u hu ⟨hold.1,h.waits_eq hy hold.2⟩,hlen⟩
  | block ht hs =>
    rename_i t
    refine ⟨old,new ++ [t],by simp [State.block,hq],?_,hlen⟩
    intro u hu
    obtain hu | hu := mem_append.mp hu
    · exact hnew u hu
    · rw [mem_singleton.mp hu]
      exact fun hold => h.left t hold.1 hold.2 ht
  | pass ht hp he | bump ht hp he => exact ⟨old,new,hq,hnew,by rw [he]; exact hlen⟩
  | interrupt ht =>
    rename_i t
    obtain ⟨hq',hnew'⟩ := Kept.wake [t] hq hnew
    have hle := rest_length_le old [t]
    exact ⟨_,_,hq',hnew',by simp only [signals]; omega⟩
  | signalWake ht hw =>
    rename_i t ws
    obtain ⟨hq',hnew'⟩ := Kept.wake ws hq hnew
    refine ⟨_,_,hq',hnew',?_⟩
    simp only [signals]
    cases old with
    | nil => simp [rest]
    | cons a old =>
      have hws : ws = [a] := by
        have hord' : ws = m.sleepers.take 1 := hord
        rw [hord',hq]
        rfl
      have hle := rest_length_le old ws
      have hrest : rest (a :: old) ws = rest old ws := by simp [rest,hws]
      rw [hrest]
      simp only [length_cons] at hlen
      omega
  | broadcastWake ht hw =>
    rename_i t ws
    obtain ⟨hq',hnew'⟩ := Kept.wake ws hq hnew
    have hle := rest_length_le old ws
    exact ⟨_,_,hq',hnew',by simp only [signals]; omega⟩

theorem Kept.run {m1 : State α} {fs : List (Event α)} (h : Kept m0 k m)
    (hord : Along Cond.step InOrder m fs) (he : exec Cond.step m fs = some m1) :
    Kept m0 (k+signals fs) m1 := by
  induction fs generalizing m k with
  | nil => cases he; exact h
  | cons e fs ih =>
    obtain ⟨m',hm,he⟩ := bind_eq_some_iff.mp he
    rw [signals_cons,← add_assoc]
    exact ih (h.step hord.1 hm) (hord.2 m' hm) he

/-- A thread is known to the C library by its id, a positive `int`. -/
def Tid : Type := { i : BitVec 32 // 0 < i.toInt }

instance : DecidableEq Tid := inferInstanceAs (DecidableEq { i : BitVec 32 // 0 < i.toInt })

/-- So a broadcast can wake all threads there are. -/
theorem tid_length (q : List Tid) (hq : q.Nodup) : q.length ≤ INT_MAX := by
  have hinj : Function.Injective fun i : Tid => i.val.toNat :=
    fun i j h => Subtype.ext (eq_of_toNat_eq h)
  have hsub : (q.map fun i => i.val.toNat).toFinset ⊆ Finset.Icc 1 INT_MAX := by
    intro n hn
    obtain ⟨i,_,rfl⟩ := mem_map.mp (mem_toFinset.mp hn)
    have hpos := i.property
    have hlt := i.val.isLt
    rw [toInt_eq_toNat_cond] at hpos
    rw [Finset.mem_Icc,INT_MAX]
    split_ifs at hpos <;> omega
  have hcard := Finset.card_le_card hsub
  rw [toFinset_card_of_nodup (hq.map hinj),length_map,card_Icc] at hcard
  omega

/-- `pthread_cond_wait` gives its caller the mutex, and nobody else has it. -/
theorem Inv.ret (h : Inv m) (hy : Cond.step m (.ret t) = some m') :
    m'.pc t = .user ∧ m'.mutex.pc t = .held ∧ ∀ u, Mutex.Holds m'.mutex u ↔ u = t := by
  obtain ⟨⟨_,hheld⟩,hy⟩ := ite_none_right_eq_some.mp hy
  cases hy
  exact ⟨by simp,hheld,(h.mutex.holder (.inl hheld)).2⟩

/-- From any reachable state on, in runs with fewer than 2^32 signals between a load
and its futex wait: no wait that began before a broadcast is blocked after it; `k`
signals end at least `k` blocked waits, or as many as were blocked, and that many of
those that were blocked if wake-ups go by age; a wait returns with the mutex held. -/
theorem cond_waits_notified (es fs : List (Event Tid)) (m0 m1 : State Tid)
    (h0 : exec step boot es = some m0) (h1 : exec step m0 fs = some m1)
    (hok : Along step EventOk boot (es ++ fs)) :
    (∀ t ws gs hs, fs = .broadcast t :: gs ++ .broadcastWake t ws :: hs →
      ∀ u, ¬ StillBlocked m0 m1 u) ∧
    m0.ended+min (signals fs) m0.sleepers.length ≤ m1.ended ∧
    (Along step InOrder m0 fs → min (signals fs) m0.sleepers.length ≤
      (m0.sleepers.filter fun t => ¬ StillBlocked m0 m1 t).length) ∧
    ∀ t m2, step m1 (.ret t) = some m2 →
      m2.pc t = .user ∧ m2.mutex.pc t = .held ∧ ∀ u, Mutex.Holds m2.mutex u ↔ u = t := by
  have hinv0 : Inv m0 :=
    exec_keeps (fun _ _ _ h _ hy => h.step hy) boot_inv (fun _ _ => trivial) h0
  have hinv1 : Inv m1 :=
    exec_keeps (fun _ _ _ h _ hy => h.step hy) hinv0 (fun _ _ => trivial) h1
  have hok0 := hok.after h0
  refine ⟨?_,signals_end_waits hinv0 h1,?_,fun t m2 hy => hinv1.ret hy⟩
  · rintro t ws gs hs rfl u
    exact broadcast_unblocks tid_length hinv0 hok0 h1
  · intro hord
    have hkept := hinv0.kept.run hord h1
    rw [zero_add] at hkept
    exact hkept.ended hinv0

def waiter : Tid := ⟨1,by decide⟩

def signaller : Tid := ⟨2,by decide⟩

/-- One thread waits and is blocked. -/
def waiting : List (Event Tid) :=
  [.mutex (.lock waiter),.load waiter,.mutex (.unlock waiter),.futexWait waiter]

theorem cond_waits_notified_waiting : ∃ m0 m1, exec step boot waiting = some m0 ∧
    m0.sleepers = [waiter] ∧
    exec step m0 [.broadcast signaller,.broadcastWake signaller [waiter]] = some m1 ∧
    ∀ u, ¬ StillBlocked m0 m1 u := by
  refine ⟨_,_,rfl,rfl,rfl,?_⟩
  refine (cond_waits_notified waiting _ _ _ rfl rfl ?_).1 signaller [waiter] [] [] rfl
  have hlt : 0-0 < 0x100000000 := by decide
  exact .cons trivial rfl (.cons trivial rfl (.cons trivial rfl (.cons hlt rfl
    (.cons trivial rfl (.cons trivial rfl trivial)))))

end Lariat.Libc.Cond
