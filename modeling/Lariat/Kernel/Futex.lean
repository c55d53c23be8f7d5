import Mathlib.Data.Set.Card
import Lariat.Kernel.Quiet
import Lariat.Foundation.FutexWord

/-! The futex system call: 64 wait queues hashed by the user address, over the
scheduler and the words of the user address spaces. Every bucket holds exactly the
threads whose word hashes to it, and a wake-up takes them in order. -/
namespace Lariat.Kernel.Futex
open Foundation.Runs Foundation.FutexWord Sched List Option Nat

def EINTR : BitVec 64 := 4
def EAGAIN : BitVec 64 := 11
def EINVAL : BitVec 64 := 22
def ENOSYS : BitVec 64 := 38

def FUTEX_WAIT : BitVec 32 := 0
def FUTEX_WAKE : BitVec 32 := 1
def FUTEX_WAIT_BITSET : BitVec 32 := 9
def FUTEX_WAKE_BITSET : BitVec 32 := 10
def FUTEX_PRIVATE_FLAG : BitVec 64 := 128
def FUTEX_CLOCK_REALTIME : BitVec 64 := 256

def futexBucket (uaddr : BitVec 64) : WaitQueue :=
  .futexBucket ⟨(uaddr >>> 3).toNat % 64,mod_lt _ (by decide)⟩

/-- `mem` is the word at a user address of the address space `cr3`, if it is mapped.
`word` is the address of the `FUTEX_WAIT` that a thread last blocked in: the kernel
keeps no such key. -/
structure State where
  sched : Sched
  mem : Nat → BitVec 64 → Option (BitVec 32) := fun _ _ => none
  word : ThreadRef → Option (BitVec 64) := fun _ => none

/-- The address space that CPU `c` runs in. -/
def State.space (m : State) (c : Nat) : Nat :=
  match (m.sched.cpu c).current with
  | none => 0
  | some t => (m.sched.thread t).cr3

/-- A call returns, or leaves its thread blocked until somebody wakes it. -/
inductive Result where
  | ret (v : BitVec 64)
  | blocked
  deriving DecidableEq, Repr

def futexCmd (op : BitVec 64) : BitVec 32 :=
  let cmd := (op &&& ~~~(FUTEX_PRIVATE_FLAG ||| FUTEX_CLOCK_REALTIME)).setWidth 32
  if cmd = FUTEX_WAIT_BITSET then FUTEX_WAIT
  else if cmd = FUTEX_WAKE_BITSET then FUTEX_WAKE
  else cmd

/-- What `FUTEX_WAIT` returns once its thread runs again. -/
def futexWaitReturn (s : Sched) (c : Nat) : BitVec 64 := if s.signalPendingOn c then -EINTR else 0

/-- The check of the word and of the signals and the block are one critical section.
Reading an unmapped word faults. -/
def futexWait (m : State) (c : Nat) (uaddr val : BitVec 64) : Option (Result × State) :=
  (m.mem (m.space c) uaddr).bind fun w =>
    if w ≠ val.setWidth 32 then some (.ret (-EAGAIN),m)
    else if m.sched.signalPendingOn c then some (.ret (-EINTR),m)
    else (m.sched.schedWaitLocked c (futexBucket uaddr)).map fun s =>
      -- the idle thread does not block
      (if (s.cpu c).current = (m.sched.cpu c).current then .ret (futexWaitReturn s c) else .blocked,
        { m with sched := s, word := m.sched.tag c m.word (some uaddr) })

/-- `(int)val`: the low 32 bits, signed. -/
def count (val : BitVec 64) : Int := (val.setWidth 32).toInt

def futexWakeAddr (m : State) (uaddr : BitVec 64) (n : Int) : Nat × State :=
  let p := m.sched.schedWqWakeN (futexBucket uaddr) n
  (p.1,{ m with sched := p.2 })

def futexWake (m : State) (uaddr val : BitVec 64) : Result × State :=
  let p := futexWakeAddr m uaddr (count val)
  (.ret (BitVec.ofNat 64 p.1),p.2)

def sysFutex (m : State) (c : Nat) (uaddr op val : BitVec 64) : Option (Result × State) :=
  if uaddr = 0 then some (.ret (-EINVAL),m)
  else if futexCmd op = FUTEX_WAIT then futexWait m c uaddr val
  else if futexCmd op = FUTEX_WAKE then some (futexWake m uaddr val)
  else some (.ret (-ENOSYS),m)

/-- `store` is any write to a user word, `map` and `unmap` included. -/
inductive Event where
  | sched (e : Sched.Event)
  | sysFutex (c : Nat) (uaddr op val : BitVec 64)
  | store (cr3 : Nat) (uaddr : BitVec 64) (w : Option (BitVec 32))
  | setSignals (c : Nat) (pending mask : BitVec 64)

def isBucket : WaitQueue → Bool
  | .futexBucket _ => true
  | _ => false

/-- Only `sys_futex` waits on the buckets. -/
def step (m : State) : Event → Option State
  | .sched e =>
    if e.queue.filter isBucket = none then (m.sched.step e).map fun s =>
      { m with sched := s, word := m.sched.tagCaller e m.word none }
    else none
  | .sysFutex c uaddr op val => (sysFutex m c uaddr op val).map Prod.snd
  | .store cr3 uaddr w => some { m with
      mem := Function.update m.mem cr3 (Function.update (m.mem cr3) uaddr w) }
  | .setSignals c pending mask => (m.sched.cpu c).current.map fun t => { m with
      sched := m.sched.modify t fun r => { r with sigPending := pending, sigMask := mask } }

def boot (isBsp : Nat → Bool) : State := { sched := Sched.boot isBsp }

/-- The thread is blocked in `FUTEX_WAIT` on the word `uaddr` of the address space `cr3`. -/
def WaitsOn (m : State) (cr3 : Nat) (uaddr : BitVec 64) (t : ThreadRef) : Prop :=
  (m.sched.thread t).state = .blocked ∧ m.word t = some uaddr ∧ (m.sched.thread t).cr3 = cr3

/-- The threads that were blocked in some `FUTEX_WAIT` and are not blocked any more. -/
def woken (m m' : State) : Set ThreadRef :=
  { t | (∃ cr3 uaddr, WaitsOn m cr3 uaddr t) ∧ (m'.sched.thread t).state ≠ .blocked }

/-- A blocked thread is on a bucket if and only if it is in `FUTEX_WAIT`, and then on
the bucket of its word. -/
structure Inv (m : State) : Prop where
  consistent : m.sched.Consistent True
  keyed : ∀ t, (m.sched.thread t).state = .blocked →
    (m.sched.thread t).waitQ.filter isBucket = (m.word t).map futexBucket

variable {m m' : State} {e : Event}

variable {s' : Sched} {t : ThreadRef} {uaddr : BitVec 64}

/-- A thread that keeps waiting keeps its key, unless it is the one that calls. -/
theorem Inv.kept (h : Inv m) {w : Option (BitVec 64)} (hb : (m.sched.thread t).state = .blocked)
    (hs : awaits (s'.thread t) = awaits (m.sched.thread t)) (hw : w = m.word t) :
    (s'.thread t).waitQ.filter isBucket = w.map futexBucket := by
  have hq : (s'.thread t).waitQ = (m.sched.thread t).waitQ := congrArg Prod.snd hs
  rw [hq,hw,h.keyed t hb]

theorem Inv.sched (h : Inv m) {e : Sched.Event} (hq : e.queue.filter isBucket = none)
    (hs : m.sched.step e = some s') :
    Inv { m with sched := s', word := m.sched.tagCaller e m.word none } := by
  have hc' := h.consistent.step (.inl trivial) hs
  refine ⟨hc',fun t hb => ?_⟩
  rcases step_blocked hs hb with ⟨hb0,hsame⟩ | ⟨c,hcall,hcur⟩
  · exact h.kept hb0 hsame (h.consistent.tagCaller_blocked hb0 e)
  dsimp only
  rw [tagCaller_of_caller hcall hcur]
  -- the caller had no wait queue, and the one it gets is not a bucket
  have hreg := hc'.registered hb
  have hnone : (m.sched.thread t).waitQ = none := by
    rcases h.consistent.current c t hcur with rfl | hreg0
    · exact absurd hreg (hc'.idleUnregistered c)
    · exact (h.consistent.onCpu hreg0 hcur).1
  cases hw : (s'.thread t).waitQ with
  | none => rfl
  | some q =>
    rcases step_waitQ hs hw with h0 | h0
    · rw [hnone] at h0
      cases h0
    · rw [h0] at hq
      exact hq

theorem Inv.futexWait (h : Inv m) {c : Nat}
    (hs : m.sched.schedWaitLocked c (futexBucket uaddr) = some s') :
    Inv { m with sched := s', word := m.sched.tag c m.word (some uaddr) } := by
  have hc' := h.consistent.schedWaitLocked hs
  have hq : Quiet m.sched s' (fun t => (m.sched.cpu c).current = some t) (some (futexBucket uaddr)) :=
    (Quiet.refl _).schedWaitLocked (fun _ ht => ht) hs
  refine ⟨hc',fun t hb => ?_⟩
  rcases hq.blocked t hb with ⟨hb0,hsame⟩ | hcur
  · exact h.kept hb0 hsame (tag_of_ne fun hc => h.consistent.current_awake hc hb0)
  dsimp only
  rw [tag_of_current hcur]
  obtain ⟨rfl,_⟩ | ⟨cur,hcur',_,_,rfl⟩ := h.consistent.schedWaitLocked_cases hs
  · exact absurd hb (h.consistent.current_awake hcur)
  have ht : cur = t := some.inj (hcur'.symm.trans hcur)
  subst ht
  have hw := dispatch_field Thread.waitQ (fun _ _ => rfl) ((m.sched.modify cur fun r =>
    { r with state := .blocked, waitQ := some (futexBucket uaddr) }).queuePush
      (.waitQueue (futexBucket uaddr)) cur) c cur
  rw [hw]
  simp [queuePush,futexBucket,isBucket]

theorem Inv.futexWake (h : Inv m) (uaddr : BitVec 64) (n : Int) : Inv (futexWakeAddr m uaddr n).2 := by
  have hq : Quiet m.sched (futexWakeAddr m uaddr n).2.sched (fun _ => False) none :=
    (Quiet.refl _).wakeLoop _ 0
  refine ⟨h.consistent.wakeLoop _ 0,fun t hb => ?_⟩
  obtain ⟨hb0,hsame⟩ := (hq.blocked t hb).resolve_right id
  exact h.kept hb0 hsame rfl

theorem Inv.sysFutex (h : Inv m) {c : Nat} {op val : BitVec 64} {r : Result × State}
    (hy : sysFutex m c uaddr op val = some r) : Inv r.2 := by
  unfold Futex.sysFutex at hy
  split_ifs at hy with h0 hwait hwake
  · cases hy; exact h
  · obtain ⟨w,_,hy⟩ := bind_eq_some_iff.mp hy
    split_ifs at hy
    · cases hy; exact h
    · cases hy; exact h
    · obtain ⟨s',hs,rfl⟩ := map_eq_some_iff.mp hy
      exact h.futexWait hs
  · cases hy; exact h.futexWake uaddr _
  · cases hy; exact h

theorem Inv.step (h : Inv m) (hy : step m e = some m') : Inv m' := by
  cases e with
  | sched e =>
    obtain ⟨hq,hy⟩ := ite_none_right_eq_some.mp hy
    obtain ⟨s',hs,rfl⟩ := map_eq_some_iff.mp hy
    exact h.sched hq hs
  | sysFutex c uaddr op val =>
    obtain ⟨r,hr,rfl⟩ := map_eq_some_iff.mp hy
    exact h.sysFutex hr
  | store cr3 uaddr w => cases hy; exact ⟨h.consistent,h.keyed⟩
  | setSignals c pending mask =>
    obtain ⟨cur,_,rfl⟩ := map_eq_some_iff.mp hy
    have hcons : (m.sched.modify cur fun r =>
        { r with sigPending := pending, sigMask := mask }).Consistent True :=
      h.consistent.modify cur rfl rfl
    refine ⟨hcons,fun t hb => ?_⟩
    rw [modify_field Thread.state m.sched cur t rfl] at hb
    rw [modify_field Thread.waitQ m.sched cur t rfl]
    exact h.keyed t hb

theorem boot_inv (isBsp : Nat → Bool) : Inv (boot isBsp) :=
  ⟨boot_consistent isBsp True,by simp [boot,Sched.boot]⟩

theorem reachable_inv {isBsp : Nat → Bool} {es : List Event}
    (h : exec step (boot isBsp) es = some m) : Inv m :=
  exec_keeps (fun _ _ _ h _ hy => Inv.step h hy) (boot_inv isBsp) (fun _ _ => trivial) h

/-- The threads queued on the bucket of a word. -/
def bucket (m : State) (uaddr : BitVec 64) : List ThreadRef :=
  m.sched.queue (.waitQueue (futexBucket uaddr))

theorem Inv.mem_bucket (h : Inv m) : t ∈ bucket m uaddr ↔ (m.sched.thread t).state = .blocked ∧
      ∃ u, m.word t = some u ∧ futexBucket u = futexBucket uaddr := by
  rw [bucket,h.consistent.mem_waitQueue]
  refine and_congr_right fun hb => ?_
  rw [← map_eq_some_iff,← h.keyed t hb,filter_eq_some_iff]
  exact (and_iff_left rfl).symm

theorem Inv.waitsOn_bucket (h : Inv m) {cr3 : Nat} (ht : WaitsOn m cr3 uaddr t) :
    t ∈ bucket m uaddr :=
  h.mem_bucket.mpr ⟨ht.1,uaddr,ht.2.1,rfl⟩

end Lariat.Kernel.Futex
