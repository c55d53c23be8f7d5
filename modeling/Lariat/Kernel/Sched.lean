import Mathlib.Data.List.Basic
import Mathlib.Logic.Function.Basic

/-! Scheduler state and the functions that run under `sched_lock`. Every function
is one atomic step. Queues are the FIFO lists that `Queue` relates to pointers,
and the lock and the saved interrupt flags leave no other trace. -/
namespace Lariat.Kernel
open Function

inductive ThreadState where
  | ready | running | blocked | zombie
  deriving DecidableEq, Repr

/-- A thread structure: a CPU's static idle thread or an allocated one. -/
inductive ThreadRef where
  | idle (cpu : Nat)
  | heap (addr : Nat)
  deriving DecidableEq, Repr

/-- The wait queues of the kernel: stopped jobs, futex buckets, all others. -/
inductive WaitQueue where
  | stopWq
  | futexBucket (i : Fin 64)
  | other (n : Nat)
  deriving DecidableEq, Repr

/-- The lists that share the `next` field of the thread structure. -/
inductive ListRef where
  | readyQueue
  | sleepList
  | waitQueue (q : WaitQueue)
  deriving DecidableEq, Repr

def SIGKILL : Nat := 9
def SIGCHLD : Nat := 17
def SIGCONT : Nat := 18
def SIGSTOP : Nat := 19
def SIGTSTP : Nat := 20

/-- The bit of one signal number in the pending and blocked masks. -/
def sigBit (sig : Nat) : BitVec 64 := 1#64 <<< sig

structure Thread where
  tid : BitVec 32 := 0
  tgid : BitVec 32 := 0
  state : ThreadState := .ready
  wakeupTick : BitVec 64 := 0
  cr3 : Nat := 0
  fdt : Option Nat := none
  parent : Option ThreadRef := none
  -- the list through `children` and the children's `sibling` fields
  children : List ThreadRef := []
  exitCode : BitVec 32 := 0
  waited : Bool := false
  tmpRip : BitVec 64 := 0
  tmpRflags : BitVec 64 := 0
  tmpRsp : BitVec 64 := 0
  usrRdi : BitVec 64 := 0
  sigHandlers : Nat → BitVec 64 := fun _ => 0
  sigPending : BitVec 64 := 0
  sigMask : BitVec 64 := 0
  sigRestorer : BitVec 64 := 0
  pgid : BitVec 32 := 0
  sid : BitVec 32 := 0
  stopped : Bool := false
  stopReported : Bool := false
  stopSig : Nat := 0
  waitQ : Option WaitQueue := none
  clearChildTid : BitVec 64 := 0

structure PerCpu where
  current : Option ThreadRef := none
  idle : Option ThreadRef := none
  isBsp : Bool := false

structure Sched where
  thread : ThreadRef → Thread := fun _ => {}
  queue : ListRef → List ThreadRef := fun _ => []
  cpu : Nat → PerCpu := fun _ => {}
  allThreads : List ThreadRef := []
  nextTid : BitVec 32 := 1
  reaper : Option ThreadRef := none
  -- a record of whether a queue has lost its tail pointer
  torn : Bool := false

namespace Sched

section

variable (s : Sched)

def modify (t : ThreadRef) (f : Thread → Thread) : Sched :=
  { s with thread := update s.thread t (f (s.thread t)) }

def setState (t : ThreadRef) (st : ThreadState) : Sched :=
  s.modify t fun r => { r with state := st }

def setQueue (l : ListRef) (ts : List ThreadRef) : Sched :=
  { s with queue := update s.queue l ts }

def setCurrent (c : Nat) (t : ThreadRef) : Sched :=
  { s with cpu := update s.cpu c { s.cpu c with current := some t } }

def queuePush (l : ListRef) (t : ThreadRef) : Sched := s.setQueue l (s.queue l ++ [t])

def queuePop (l : ListRef) : Option ThreadRef × Sched :=
  match s.queue l with
  | [] => (none,s)
  | t :: ts => (some t,s.setQueue l ts)

/-- `queue_remove` clears the tail pointer when it takes the last of several threads. From then on
the list is no longer what the pointers give; the sleep list has no tail pointer. -/
def queueRemove (l : ListRef) (t : ThreadRef) : Sched :=
  { s.setQueue l ((s.queue l).erase t) with
    torn := s.torn || l != .sleepList && (s.queue l).getLast? == some t && s.queue l != [t] }

/-- The tail every waking path ends with: mark the thread ready and enqueue it. -/
def makeReady (t : ThreadRef) : Sched :=
  (s.setState t .ready).queuePush .readyQueue t

def clearWaitQ (t : ThreadRef) : Sched := s.modify t fun r => { r with waitQ := none }

def schedReadyLocked (t : ThreadRef) : Sched :=
  if (s.thread t).state = .blocked then
    match (s.thread t).waitQ with
    | some q => ((s.queueRemove (.waitQueue q) t).clearWaitQ t).makeReady t
    | none => (s.queueRemove .sleepList t).makeReady t
  else s

def schedDeliverSignal (t : Option ThreadRef) (sig : Nat) : Sched :=
  match t with
  | none => s
  | some t =>
    if sig = SIGCONT then
      (s.modify t fun r => { r with
        stopped := false, stopReported := false
        sigPending := r.sigPending ||| sigBit sig }).schedReadyLocked t
    else
      (s.modify t fun r => { r with
        sigPending := r.sigPending ||| sigBit sig, stopped := false }).schedReadyLocked t

end

/-- One round of the loop in `sched_signal_pgrp`, with the number of threads hit. -/
def signalPgrpThread (pgid : BitVec 32) (sig : Nat) (acc : Nat × Sched) (t : ThreadRef) :
    Nat × Sched :=
  let r := acc.2.thread t
  if r.cr3 ≠ 0 ∧ r.pgid = pgid then
    (acc.1+1,(acc.2.modify t fun r => { r with
      stopped := false
      stopReported := if sig = SIGCONT then false else r.stopReported
      sigPending := r.sigPending ||| sigBit sig }).schedReadyLocked t)
  else acc

def schedSignalPgrp (s : Sched) (pgid : BitVec 32) (sig : Nat) : Nat × Sched :=
  s.allThreads.foldl (signalPgrpThread pgid sig) (0,s)

section

variable (s : Sched) (c : Nat)

/-- `next->state = THREAD_RUNNING; pc->current = next`, then the stack switch. -/
def switchTo (next : ThreadRef) : Sched :=
  (s.setState next .running).setCurrent c next

/-- Pop the ready queue, falling back to the CPU's idle thread. -/
def pickNext : Option ThreadRef × Sched :=
  match s.queuePop .readyQueue with
  | (some t,s) => (some t,s)
  | (none,s) => ((s.cpu c).idle,s)

/-- The common end of `thread_yield` and `thread_sleep`. A null `cur` or `next`
is dereferenced by the switch, which the model reports as a fault. -/
def reschedule (cur : Option ThreadRef) : Option Sched :=
  let p := s.pickNext c
  if p.1 = cur then some p.2
  else match cur,p.1 with
    | some _,some next => some (p.2.switchTo c next)
    | _,_ => none

def threadYield : Option Sched :=
  match (s.cpu c).current with
  | none => s.reschedule c none
  | some cur =>
    if (s.thread cur).state = .running ∧ some cur ≠ (s.cpu c).idle then
      (s.makeReady cur).reschedule c (some cur)
    else s.reschedule c (some cur)

/-- `now` is the value of `timer_get_ticks()`. -/
def threadSleep (now ticks : BitVec 64) : Option Sched :=
  match (s.cpu c).current with
  | none => s.reschedule c none
  | some cur =>
    if some cur ≠ (s.cpu c).idle then
      let s := s.modify cur fun r => { r with
        state := .blocked, wakeupTick := now+ticks }
      (s.setQueue .sleepList (cur :: s.queue .sleepList)).reschedule c (some cur)
    else s.reschedule c (some cur)

end

/-- The walk over the sleep list: expired threads move to the ready queue, the
others are kept in order. -/
def wakeSleepers (now : BitVec 64) : List ThreadRef → Sched → List ThreadRef × Sched
  | [], s => ([],s)
  | t :: ts, s =>
    if (s.thread t).wakeupTick ≤ now then wakeSleepers now ts (s.makeReady t)
    else
      let p := wakeSleepers now ts s
      (t :: p.1,p.2)

def expireSleepers (s : Sched) (now : BitVec 64) : Sched :=
  let p := wakeSleepers now (s.queue .sleepList) s
  p.2.setQueue .sleepList p.1

def schedulerTick (s : Sched) (c : Nat) (now : BitVec 64) : Sched :=
  match (s.cpu c).current with
  | none => s
  | some cur =>
    let s := if (s.cpu c).isBsp then s.expireSleepers now else s
    match s.queuePop .readyQueue with
    | (none,s) => s
    | (some next,s) =>
      let s := if (s.thread cur).state = .running ∧ some cur ≠ (s.cpu c).idle
        then s.makeReady cur else s
      s.switchTo c next

def schedWaitLocked (s : Sched) (c : Nat) (q : WaitQueue) : Option Sched :=
  match (s.cpu c).current with
  | none => some s
  | some cur =>
    if some cur = (s.cpu c).idle then some s
    else
      let s := s.modify cur fun r => { r with state := .blocked, waitQ := some q }
      let s := s.queuePush (.waitQueue q) cur
      let p := s.pickNext c
      if p.1 = some cur then
        some (((p.2.queueRemove (.waitQueue q) cur).clearWaitQ cur).setState cur .running)
      else match p.1 with
        | some next => some (p.2.switchTo c next)
        | none => none

/-- Take the first waiter off a wait queue and make it ready. -/
def wakeFirst (s : Sched) (q : WaitQueue) : Option Sched :=
  match s.queuePop (.waitQueue q) with
  | (none,_) => none
  | (some t,s) => some ((s.clearWaitQ t).makeReady t)

def wqWakeOne (s : Sched) (q : WaitQueue) : Sched := (s.wakeFirst q).getD s

/-- The loop of `sched_wq_wake_n` with `n` rounds left, counting the threads woken. -/
def wakeLoop (q : WaitQueue) : Nat → Nat → Sched → Nat × Sched
  | 0, woke, s => (woke,s)
  | n+1, woke, s =>
    match s.wakeFirst q with
    | none => (woke,s)
    | some s => wakeLoop q n (woke+1) s

/-- A negative count wakes nobody, as `woke < n` fails at once. -/
def schedWqWakeN (s : Sched) (q : WaitQueue) (n : Int) : Nat × Sched := wakeLoop q n.toNat 0 s

/-- The loop ends when the queue is empty, so its length bounds the rounds. -/
def wqWakeAll (s : Sched) (q : WaitQueue) : Sched :=
  (wakeLoop q (s.queue (.waitQueue q)).length 0 s).2

def schedWakeThread (s : Sched) (t : Option ThreadRef) : Sched :=
  match t with
  | none => s
  | some t =>
    match (s.thread t).state,(s.thread t).waitQ with
    | .blocked,some q => ((s.queueRemove (.waitQueue q) t).clearWaitQ t).makeReady t
    | _,_ => s

/-- The thread structure is built by the caller; tid, group and state are set here. -/
def schedEnqueueThread (s : Sched) (t : ThreadRef) (r : Thread) : Sched :=
  let tid := s.nextTid
  let lead := r.cr3 ≠ 0 ∧ r.pgid = 0
  let r := { r with
    tid := tid
    tgid := if r.tgid = 0 then tid else r.tgid
    state := .ready
    pgid := if lead then tid else r.pgid
    sid := if lead then tid else r.sid }
  let s := { s with
    nextTid := tid+1
    thread := update s.thread t r
    allThreads := t :: s.allThreads }
  s.queuePush .readyQueue t

def schedInitCpu (s : Sched) (c : Nat) : Sched :=
  { s with
    thread := update s.thread (.idle c) { state := .running }
    cpu := update s.cpu c
      { s.cpu c with idle := some (.idle c), current := some (.idle c) } }

def schedSignalPending (s : Sched) (t : ThreadRef) : Bool :=
  (s.thread t).sigPending &&& ~~~(s.thread t).sigMask ≠ 0

/-- The call made on CPU `c`, for its current thread. -/
def signalPendingOn (s : Sched) (c : Nat) : Bool :=
  match (s.cpu c).current with
  | none => false
  | some t => s.schedSignalPending t

end Sched
end Lariat.Kernel
