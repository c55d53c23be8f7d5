import Lariat.Kernel.Futex

/-! The ways a thread ends itself: `sys_exit`, `sys_kill` and the default action of a
signal, each up to its call of `thread_exit`. -/
namespace Lariat.Kernel.Futex
open Foundation.Runs Sched Function

def ESRCH : BitVec 64 := 3
def SIG_DFL : BitVec 64 := 0
def SIG_IGN : BitVec 64 := 1

def State.modify (m : State) (t : ThreadRef) (f : Thread → Thread) : State :=
  { m with sched := m.sched.modify t f }

def State.setWord (m : State) (cr3 : Nat) (uaddr : BitVec 64) (w : BitVec 32) : State :=
  { m with mem := update m.mem cr3 (update (m.mem cr3) uaddr (some w)) }

/-- Zero the word, but only when its page is mapped in this address space. -/
def State.zeroWord (m : State) (cr3 : Nat) (uaddr : BitVec 64) : State :=
  if (m.mem cr3 uaddr).isSome then m.setWord cr3 uaddr 0 else m

/-- The count that stands for all waiters. -/
def INT_MAX : Nat := 0x7fffffff

def clearChildTidOnExit (m : State) (t : ThreadRef) : State :=
  let r := m.sched.thread t
  if r.clearChildTid ≠ 0 then
    (futexWakeAddr (m.zeroWord r.cr3 r.clearChildTid) r.clearChildTid INT_MAX).2.modify t
      fun r => { r with clearChildTid := 0 }
  else m

/-- How a call ends. `exits` calls `thread_exit` next; `stops` is parked by a stop
signal and goes on with the next one when it is resumed. -/
inductive Outcome where
  | returns (v : BitVec 64) (m : State)
  | exits (m : State)
  | stops (s : Nat) (m : State)

def sysExit (m : State) (c : Nat) (code : BitVec 64) : Outcome :=
  match (m.sched.cpu c).current with
  | none => .exits m
  | some t =>
    let m := m.modify t fun r => { r with exitCode := code.setWidth 32 &&& 0xff }
    .exits (clearChildTidOnExit m t)

def schedFindByTid (s : Sched) (tid : BitVec 32) : Option ThreadRef :=
  s.allThreads.find? fun t => (s.thread t).tid = tid

def sysKill (m : State) (c : Nat) (pid sig : BitVec 64) : Outcome :=
  if 32 ≤ sig then .returns (-EINVAL) m
  else
    let p := pid.setWidth 32
    if p.toInt ≤ 0 then
      let self := (m.sched.cpu c).current
      let pgid := if p = 0 then self.elim 0 fun t => (m.sched.thread t).pgid else -p
      if sig = 0 then .returns 0 m
      else
        let q := m.sched.schedSignalPgrp pgid sig.toNat
        .returns (if 0 < q.1 then 0 else -ESRCH) { m with sched := q.2 }
    else match schedFindByTid m.sched p with
      | none => .returns (-ESRCH) m
      | some target =>
        if sig = 0 then .returns 0 m
        else if sig.toNat = SIGKILL ∧ some target = (m.sched.cpu c).current then
          .exits (m.modify target fun r => { r with exitCode := 128+sig.setWidth 32 })
        else .returns 0 { m with sched := m.sched.schedDeliverSignal (some target) sig.toNat }

/-- A 64-bit store through a user pointer, which faults if it is not mapped. -/
def push (m : State) (cr3 : Nat) (addr v : BitVec 64) : Option State :=
  if (m.mem cr3 addr).isSome ∧ (m.mem cr3 (addr+4)).isSome then
    some ((m.setWord cr3 addr (v.setWidth 32)).setWord cr3 (addr+4) ((v >>> 32).setWidth 32))
  else none

/-- Build the user stack frame of a handler and redirect the return into it. -/
def enterHandler (m : State) (t : ThreadRef) (s : Nat) (h retVal : BitVec 64) : Option State :=
  let r := m.sched.thread t
  let usp := (r.tmpRsp-128) &&& ~~~(0xf : BitVec 64)
  let enter := fun (m : State) (usp : BitVec 64) => m.modify t fun r => { r with
    tmpRsp := usp, usrRdi := BitVec.ofNat 64 s, tmpRip := h }
  if r.sigRestorer ≠ 0 then do
    let fr := usp-40
    let m ← push m r.cr3 fr r.tmpRip
    let m ← push m r.cr3 (fr+8) r.tmpRflags
    let m ← push m r.cr3 (fr+16) r.tmpRsp
    let m ← push m r.cr3 (fr+24) retVal
    let m ← push m r.cr3 (fr+32) r.sigMask
    let m ← push m r.cr3 (fr-8) r.sigRestorer
    pure (enter (m.modify t fun r => { r with sigMask := r.sigMask ||| sigBit s }) (fr-8))
  else do
    let m ← push m r.cr3 (usp-8) r.tmpRip
    pure (enter m (usp-8))

/-- The loop of `signal_deliver` over the signals that are left. -/
def deliverLoop (c : Nat) (t : ThreadRef) (retVal : BitVec 64) : List Nat → State → Option Outcome
  | [], m => some (.returns retVal m)
  | s :: ss, m =>
    let r := m.sched.thread t
    if r.sigPending &&& sigBit s = 0 then deliverLoop c t retVal ss m
    else if r.sigMask &&& sigBit s ≠ 0 then deliverLoop c t retVal ss m
    else
      let m := m.modify t fun r => { r with sigPending := r.sigPending &&& ~~~sigBit s }
      let h := r.sigHandlers s
      if h = SIG_IGN then deliverLoop c t retVal ss m
      else if h = SIG_DFL then
        if s = SIGCHLD ∨ s = SIGCONT then deliverLoop c t retVal ss m
        else if s = SIGTSTP ∨ s = SIGSTOP then
          let m := m.modify t fun r => { r with stopped := true, stopReported := false, stopSig := s }
          (m.sched.schedStopCurrent c).map fun sched =>
            .stops s { m with sched := sched, word := m.sched.tag c m.word none }
        else some (.exits (m.modify t fun r => { r with exitCode := BitVec.ofNat 32 (128+s) }))
      else (enterHandler m t s h retVal).map (.returns retVal)

/-- Called for the current thread on the way out of every system call. -/
def signalDeliver (m : State) (c : Nat) (retVal : BitVec 64) : Option Outcome :=
  match (m.sched.cpu c).current with
  | none => some (.returns retVal m)
  | some t =>
    if (m.sched.thread t).cr3 = 0 ∨ (m.sched.thread t).sigPending = 0 then some (.returns retVal m)
    else deliverLoop c t retVal (List.range' 1 31) m

/-- The rest of the loop, once a thread stopped by signal `s` runs again. -/
def signalResume (m : State) (c s : Nat) (retVal : BitVec 64) : Option Outcome :=
  match (m.sched.cpu c).current with
  | none => none
  | some t => deliverLoop c t retVal (List.range' (s+1) (31-s))
      (m.modify t fun r => { r with stopped := false })

inductive Way where
  | sysExit (code : BitVec 64)
  | sysKill (pid sig : BitVec 64)
  | signalDeliver (retVal : BitVec 64)
  | signalResume (s : Nat) (retVal : BitVec 64)

def finish (m : State) (c : Nat) : Way → Option Outcome
  | .sysExit code => some (sysExit m c code)
  | .sysKill pid sig => some (sysKill m c pid sig)
  | .signalDeliver retVal => signalDeliver m c retVal
  | .signalResume s retVal => signalResume m c s retVal

/-- The word is zero, if there is one, and nobody waits on it. -/
structure Notified (m : State) (cr3 : Nat) (uaddr : BitVec 64) : Prop where
  zero : ∀ w, m.mem cr3 uaddr = some w → w = 0
  none : ∀ t, ¬ WaitsOn m cr3 uaddr t

/-- The waiters on the word are among the threads that the exit call wakes. -/
def Reached (m : State) (cr3 : Nat) (uaddr : BitVec 64) : Prop :=
  ∀ t, WaitsOn m cr3 uaddr t → t ∈ (bucket m uaddr).take INT_MAX

variable {m m' : State} {c : Nat} {t : ThreadRef}

/-- The two states look the same to the futex waiters. -/
structure Same (m m' : State) : Prop where
  mem : m'.mem = m.mem
  word : m'.word = m.word
  queue : m'.sched.queue = m.sched.queue
  thread : ∀ u, (m'.sched.thread u).state = (m.sched.thread u).state ∧
    (m'.sched.thread u).cr3 = (m.sched.thread u).cr3

theorem Same.refl (m : State) : Same m m := ⟨rfl,rfl,rfl,fun _ => ⟨rfl,rfl⟩⟩

theorem Same.modify (h : Same m m') {f : Thread → Thread}
    (hs : (f (m'.sched.thread t)).state = (m'.sched.thread t).state)
    (hc : (f (m'.sched.thread t)).cr3 = (m'.sched.thread t).cr3) : Same m (m'.modify t f) := by
  refine ⟨h.mem,h.word,h.queue,fun u => ⟨?_,?_⟩⟩
  · exact (modify_field Thread.state m'.sched t u hs).trans (h.thread u).1
  · exact (modify_field Thread.cr3 m'.sched t u hc).trans (h.thread u).2

variable {cr3 : Nat} {uaddr retVal : BitVec 64}

theorem Same.waitsOn (h : Same m m') (u : ThreadRef) :
    WaitsOn m' cr3 uaddr u ↔ WaitsOn m cr3 uaddr u := by
  rw [WaitsOn,WaitsOn,(h.thread u).1,(h.thread u).2,h.word]

theorem Same.notified (h : Same m m') : Notified m' cr3 uaddr ↔ Notified m cr3 uaddr := by
  constructor
  · intro hn
    exact ⟨fun w hw => hn.zero w (by rwa [h.mem]),fun u hu => hn.none u ((h.waitsOn u).mpr hu)⟩
  · intro hn
    exact ⟨fun w hw => hn.zero w (by rwa [h.mem] at hw),fun u hu => hn.none u ((h.waitsOn u).mp hu)⟩

/-- A fatal signal touches nothing that the waiters see. -/
theorem deliverLoop_exits {ss : List Nat} {m0 : State} (h0 : Same m0 m)
    (h : deliverLoop c t retVal ss m = some (.exits m')) : Same m0 m' := by
  induction ss generalizing m with
  | nil => cases h
  | cons s ss ih =>
    have hclear := h0.modify (t := t)
      (f := fun r => { r with sigPending := r.sigPending &&& ~~~sigBit s }) rfl rfl
    unfold deliverLoop at h
    dsimp only at h
    split_ifs at h
    · exact ih h0 h
    · exact ih h0 h
    · exact ih hclear h
    · exact ih hclear h
    · obtain ⟨_,_,ho⟩ := Option.map_eq_some_iff.mp h
      cases ho
    · cases h
      exact hclear.modify rfl rfl
    · obtain ⟨_,_,ho⟩ := Option.map_eq_some_iff.mp h
      cases ho

theorem sysKill_exits {pid sig : BitVec 64} (h : sysKill m c pid sig = .exits m') : Same m m' := by
  unfold sysKill at h
  cases hf : schedFindByTid m.sched (pid.setWidth 32) with
  | none =>
    simp only [hf] at h
    split_ifs at h
  | some target =>
    simp only [hf] at h
    split_ifs at h
    cases h
    exact (Same.refl m).modify rfl rfl

theorem signalDeliver_exits (h : signalDeliver m c retVal = some (.exits m')) : Same m m' := by
  unfold signalDeliver at h
  split at h
  · cases h
  · split_ifs at h
    · cases h
    · exact deliverLoop_exits (Same.refl m) h

theorem signalResume_exits {s : Nat} (h : signalResume m c s retVal = some (.exits m')) :
    Same m m' := by
  unfold signalResume at h
  split at h
  · cases h
  · exact deliverLoop_exits ((Same.refl m).modify rfl rfl) h

theorem zeroWord_sched (m : State) (cr3 : Nat) (uaddr : BitVec 64) :
    (m.zeroWord cr3 uaddr).sched = m.sched ∧ (m.zeroWord cr3 uaddr).word = m.word := by
  unfold State.zeroWord
  split_ifs
  · exact ⟨rfl,rfl⟩
  · exact ⟨rfl,rfl⟩

theorem zeroWord_zero {w : BitVec 32} (h : (m.zeroWord cr3 uaddr).mem cr3 uaddr = some w) :
    w = 0 := by
  unfold State.zeroWord at h
  split_ifs at h with hmap
  · simp only [State.setWord,update_self,Option.some.injEq] at h
    exact h.symm
  · rw [h] at hmap
    exact absurd rfl hmap

/-- The waiters left by a wake-up are those behind the first `n`. -/
theorem futexWakeAddr_waitsOn {n : Nat} (u : ThreadRef) :
    WaitsOn (futexWakeAddr m uaddr n).2 cr3 uaddr u ↔
      WaitsOn m cr3 uaddr u ∧ u ∉ (bucket m uaddr).take n := by
  have hst := (wakeLoop_spec (futexBucket uaddr) n 0 m.sched).2.2 u
  have hcr3 := wakeLoop_field Thread.cr3 (fun _ _ _ => rfl) (futexBucket uaddr) n 0 m.sched u
  have hcall : (futexWakeAddr m uaddr n).2.sched = (wakeLoop (futexBucket uaddr) n 0 m.sched).2 := rfl
  unfold WaitsOn bucket
  rw [hcall,hst,hcr3]
  by_cases hu : u ∈ (m.sched.queue (.waitQueue (futexBucket uaddr))).take n
  · rw [if_pos hu]
    exact iff_of_false (fun h => ThreadState.noConfusion h.1) fun h => h.2 hu
  · rw [if_neg hu]
    exact (and_iff_left hu).symm

/-- The exit call zeroes the word and takes the first waiters of its bucket. -/
theorem clearChildTidOnExit_notified (hu : (m.sched.thread t).clearChildTid ≠ 0) :
    Notified (clearChildTidOnExit m t) (m.sched.thread t).cr3 (m.sched.thread t).clearChildTid ↔
      Reached m (m.sched.thread t).cr3 (m.sched.thread t).clearChildTid := by
  unfold clearChildTidOnExit
  rw [if_pos hu]
  generalize (m.sched.thread t).cr3 = cr3
  generalize (m.sched.thread t).clearChildTid = uaddr
  obtain ⟨hsched,hword⟩ := zeroWord_sched m cr3 uaddr
  have hsame := (Same.refl (futexWakeAddr (m.zeroWord cr3 uaddr) uaddr INT_MAX).2).modify (t := t)
    (f := fun r => { r with clearChildTid := 0 }) rfl rfl
  rw [hsame.notified]
  have hwait : ∀ u, WaitsOn (futexWakeAddr (m.zeroWord cr3 uaddr) uaddr INT_MAX).2 cr3 uaddr u ↔
      WaitsOn m cr3 uaddr u ∧ u ∉ (bucket m uaddr).take INT_MAX := by
    intro u
    rw [futexWakeAddr_waitsOn,WaitsOn,WaitsOn,bucket,bucket,hsched,hword]
  constructor
  · intro hn u hw
    by_contra hmem
    exact hn.none u ((hwait u).mpr ⟨hw,hmem⟩)
  · intro hr
    refine ⟨fun w hw => zeroWord_zero hw,fun u hw => ?_⟩
    obtain ⟨hw,hmem⟩ := (hwait u).mp hw
    exact hmem (hr u hw)

theorem sysExit_notified {code : BitVec 64} (hc : (m.sched.cpu c).current = some t)
    (hu : (m.sched.thread t).clearChildTid ≠ 0) (h : sysExit m c code = .exits m') :
    Notified m' (m.sched.thread t).cr3 (m.sched.thread t).clearChildTid ↔
      Reached m (m.sched.thread t).cr3 (m.sched.thread t).clearChildTid := by
  unfold sysExit at h
  rw [hc] at h
  cases h
  set m1 := m.modify t fun r => { r with exitCode := code.setWidth 32 &&& 0xff } with hm1
  have hsame : Same m m1 := (Same.refl m).modify rfl rfl
  have htid : (m1.sched.thread t).clearChildTid = (m.sched.thread t).clearChildTid := by
    rw [hm1,State.modify,modify_field Thread.clearChildTid m.sched t t rfl]
  have hkey := clearChildTidOnExit_notified (by rw [htid]; exact hu)
  rw [htid,(hsame.thread t).2] at hkey
  rw [hkey]
  unfold Reached bucket
  simp only [hsame.waitsOn,hsame.queue]

theorem Inv.reached (h : Inv m) (hlen : (bucket m uaddr).length ≤ INT_MAX) :
    Reached m cr3 uaddr := by
  intro u hu
  rw [List.take_of_length_le hlen]
  exact h.waitsOn_bucket hu

/-- A thread that ends through `sys_exit` has notified its joiners when the waiters
are within the woken part of the bucket; one that ends by a signal has done so only
if there was nothing left to do. -/
theorem thread_death_notified_iff (m m' : State) (c : Nat) (t : ThreadRef) (way : Way)
    (hc : (m.sched.cpu c).current = some t) (hu : (m.sched.thread t).clearChildTid ≠ 0)
    (h : finish m c way = some (.exits m')) :
    Notified m' (m.sched.thread t).cr3 (m.sched.thread t).clearChildTid ↔
      match way with
      | .sysExit _ => Reached m (m.sched.thread t).cr3 (m.sched.thread t).clearChildTid
      | _ => Notified m (m.sched.thread t).cr3 (m.sched.thread t).clearChildTid := by
  cases way with
  | sysExit code => exact sysExit_notified hc hu (Option.some.inj h)
  | sysKill pid sig => exact (sysKill_exits (Option.some.inj h)).notified
  | signalDeliver retVal => exact (signalDeliver_exits h).notified
  | signalResume s retVal => exact (signalResume_exits h).notified

/-- Thread 1 joins thread 2, which has a termination signal pending and now runs. -/
def joinedThread : List Event :=
  [.sched (.schedInitCpu 0),.sched (.schedEnqueueThread 1 { cr3 := 1 }),
    .sched (.schedEnqueueThread 2 { cr3 := 1, clearChildTid := 0x1000, sigPending := sigBit 15 }),
    .store 1 0x1000 (some 2),.sched (.threadYield 0),.sysFutex 0 0x1000 128 2]

def joinedState : State := (exec step (boot fun _ => true) joinedThread).getD (boot fun _ => true)

theorem thread_death_notified_sysExit : exec step (boot fun _ => true) joinedThread = some joinedState ∧
    WaitsOn joinedState 1 0x1000 (.heap 1) ∧
    ∃ m', finish joinedState 0 (.sysExit 0) = some (.exits m') ∧ Notified m' 1 0x1000 := by
  refine ⟨rfl,⟨rfl,rfl,rfl⟩,_,rfl,?_⟩
  have hne : (0x1000 : BitVec 64) ≠ 0 := by decide
  refine (thread_death_notified_iff joinedState _ 0 (.heap 2) (.sysExit 0) rfl hne rfl).mpr ?_
  exact (@reachable_inv joinedState (fun _ => true) joinedThread rfl).reached (by decide)

/-- The signal ends thread 2 with its word still set and thread 1 still blocked on it. -/
theorem fatal_signal_strands_joiner :
    exec step (boot fun _ => true) joinedThread = some joinedState ∧
    ∃ m', finish joinedState 0 (.signalDeliver 0) = some (.exits m') ∧ m'.mem 1 0x1000 = some 2 ∧
      WaitsOn m' 1 0x1000 (.heap 1) ∧ ¬ Notified m' 1 0x1000 := by
  refine ⟨rfl,_,rfl,rfl,⟨rfl,rfl,rfl⟩,fun hn => ?_⟩
  exact absurd (hn.zero 2 rfl) (by decide)

end Lariat.Kernel.Futex
