import Lariat.Kernel.Kinship

/-! `sys_waitpid` against `thread_exit` on any number of CPUs. The scan of the children and
the blocking step are two steps, and other CPUs run in between; no run misses a child whose
exit keeps out of that window. -/
namespace Lariat.Kernel.Waitpid
open Foundation.Runs Sched List Option
open Function (update update_comm update_of_ne update_self)

def ECHILD : BitVec 64 := 10

/-- What one pass of the loop in `sys_waitpid` ends with. -/
inductive Scan where
  | done (ret : BitVec 64) (status : Option (BitVec 32))
  | block
  deriving DecidableEq

def pidMatches (pid tid : BitVec 32) : Prop := pid = -1 ∨ tid = pid

instance (pid tid : BitVec 32) : Decidable (pidMatches pid tid) := inferInstanceAs (Decidable (_ ∨ _))

/-- Unlink a zombie child and unregister it; its memory is freed. -/
def reap (s : Sched) (parent child : ThreadRef) : Sched :=
  let s := s.modify child fun r => { r with waited := true }
  let s := s.modify parent fun r => { r with children := r.children.erase child }
  { s with allThreads := s.allThreads.erase child }

/-- The walk over the children that are left, after one that matched if `found`. -/
def scanChildren (parent : ThreadRef) (pid : BitVec 32) (options : BitVec 64) (s : Sched) :
    Bool → List ThreadRef → Scan × Sched
  | found, [] =>
    if ¬ found then (.done (-ECHILD) none,s)
    else if options &&& 1 ≠ 0 then (.done 0 none,s)
    else (.block,s)
  | found, child :: rest =>
    let r := s.thread child
    if pidMatches pid r.tid then
      if options &&& 2 ≠ 0 ∧ r.stopped ∧ ¬ r.stopReported then
        (.done (r.tid.zeroExtend 64) (some ((((BitVec.ofNat 32 r.stopSig) &&& 0xff) <<< 8) ||| 0x7f)),
          s.modify child fun r => { r with stopReported := true })
      else if r.state = .zombie ∧ ¬ r.waited then
        (.done (r.tid.signExtend 64) (some ((r.exitCode &&& 0xff) <<< 8)),reap s parent child)
      else scanChildren parent pid options s true rest
    else scanChildren parent pid options s found rest

/-- Where a thread is: outside `sys_waitpid`, past a scan that found nothing, or past
the blocking step. -/
inductive Place where
  | user
  | scanned (pid : BitVec 32) (options : BitVec 64)
  | waiting (pid : BitVec 32) (options : BitVec 64)
  deriving DecidableEq

structure State where
  sched : Sched
  place : ThreadRef → Place := fun _ => .user

def State.scan (m : State) (parent : ThreadRef) (pid : BitVec 32) (options : BitVec 64) : State :=
  let p := scanChildren parent pid options m.sched false (m.sched.thread parent).children
  { sched := p.2
    place := update m.place parent
      (match p.1 with | .done _ _ => .user | .block => .scanned pid options) }

/-- The child of `process_fork`: the parent's record with a new identity. -/
def forkRecord (parent : ThreadRef) (r : Thread) (cr3 fdt : Nat) : Thread :=
  { r with
    tid := 0, tgid := 0, state := .ready, parent := some parent, children := []
    exitCode := 0, waited := false, cr3 := cr3, fdt := some fdt }

/-- The child of `process_clone`. -/
def cloneRecord (parent : ThreadRef) (r : Thread) (shareVm : Bool) (cr3 fdt : Nat) (ctid : BitVec 64) : Thread :=
  { r with
    tid := 0, tgid := if shareVm then r.tgid else 0, state := .ready
    parent := some parent, children := [], exitCode := 0, waited := false
    stopped := false, stopReported := false, waitQ := none
    cr3 := if shareVm then r.cr3 else cr3, fdt := some fdt, clearChildTid := ctid }

def spawn (s : Sched) (parent : ThreadRef) (addr : Nat) (r : Thread) : Sched :=
  (s.modify parent fun r => { r with children := .heap addr :: r.children }).schedEnqueueThread
    (.heap addr) r

inductive Event where
  | sched (e : Sched.Event)
  | schedSetReaper (t : ThreadRef)
  | processFork (c addr cr3 fdt : Nat)
  | processClone (c addr : Nat) (shareVm : Bool) (cr3 fdt : Nat) (ctid : BitVec 64)
  | sysWaitpid (c : Nat) (pid : BitVec 32) (options : BitVec 64)
  | block (c : Nat)
  | resume (c : Nat)
  | threadExit (c : Nat) (code : BitVec 32)
  | schedStopCurrent (c : Nat)

/-- The thread on CPU `c`, when it is not inside `sys_waitpid`. -/
def State.free (m : State) (c : Nat) : Option ThreadRef :=
  (m.sched.cpu c).current.filter fun t => m.place t = .user

def State.spawned (m : State) (cur : ThreadRef) (addr : Nat) (r : Thread) : Option State :=
  if (m.sched.thread cur).cr3 ≠ 0 ∧ .heap addr ∉ m.sched.allThreads ∧ .heap addr ≠ cur then
    some { sched := spawn m.sched cur addr r, place := update m.place (.heap addr) .user }
  else none

/-- A thread in the middle of `sys_waitpid` takes no other step of its own. -/
def step (m : State) : Event → Option State
  | .sched (.schedEnqueueThread addr r) =>
    if r.children = [] then
      (m.sched.step (.schedEnqueueThread addr r)).map fun s =>
        { sched := s, place := update m.place (.heap addr) .user }
    else none
  | .sched e =>
    match e.caller with
    | none => (m.sched.step e).map fun s => { m with sched := s }
    | some c => (m.free c).bind fun _ => (m.sched.step e).map fun s => { m with sched := s }
  | .schedSetReaper t =>
    if t ∈ m.sched.allThreads ∧ (m.sched.thread t).parent = none then
      some { m with sched := { m.sched with reaper := some t } }
    else none
  | .processFork c addr cr3 fdt => (m.free c).bind fun cur =>
      m.spawned cur addr (forkRecord cur (m.sched.thread cur) cr3 fdt)
  | .processClone c addr shareVm cr3 fdt ctid => (m.free c).bind fun cur =>
      m.spawned cur addr (cloneRecord cur (m.sched.thread cur) shareVm cr3 fdt ctid)
  | .sysWaitpid c pid options => (m.free c).map fun parent => m.scan parent pid options
  | .block c => (m.sched.cpu c).current.bind fun parent =>
      match m.place parent with
      | .scanned pid options => ((m.sched.setState parent .blocked).threadYield c).map fun s =>
          { sched := s, place := update m.place parent (.waiting pid options) }
      | _ => none
  | .resume c => (m.sched.cpu c).current.bind fun parent =>
      match m.place parent with
      | .waiting pid options => some (m.scan parent pid options)
      | _ => none
  | .threadExit c code => (m.free c).bind fun cur =>
      ((m.sched.modify cur fun r => { r with exitCode := code }).threadExit c).map fun s =>
        { m with sched := s }
  | .schedStopCurrent c => (m.free c).bind fun _ =>
      (m.sched.schedStopCurrent c).map fun s => { m with sched := s }

def boot (isBsp : Nat → Bool) : State := { sched := Sched.boot isBsp }

/-- No child of `p` that `waitpid(pid)` could reap. -/
def NoReapable (s : Sched) (p : ThreadRef) (pid : BitVec 32) : Prop :=
  ∀ ch ∈ (s.thread p).children, pidMatches pid (s.thread ch).tid →
    ¬ ((s.thread ch).state = .zombie ∧ (s.thread ch).waited = false)

/-- No parent is blocked in `waitpid` with a matching zombie child left to reap. An
exit is one step, so nothing of a zombie's exit remains to wake its parent. -/
def NoMissedChild (m : State) : Prop :=
  ∀ p pid options, m.place p = .waiting pid options → (m.sched.thread p).state = .blocked →
    NoReapable m.sched p pid

/-- The pid a thread has just scanned for in vain, if it is about to block. -/
def State.scanning (m : State) (p : ThreadRef) : Option (BitVec 32) :=
  match m.place p with
  | .scanned pid _ => some pid
  | _ => none

/-- The side condition on an exit: its parent is not about to block on it, and the
reaper is not about to block on a zombie it adopts. -/
def EventOk (m : State) : Event → Prop
  | .threadExit c _ => ∀ cur ∈ (m.sched.cpu c).current,
      (∀ p ∈ (m.sched.thread cur).parent, ∀ pid ∈ m.scanning p,
        ¬ pidMatches pid (m.sched.thread cur).tid) ∧
      ∀ rp ∈ m.sched.reaper, rp ≠ cur → ∀ pid ∈ m.scanning rp,
        ∀ ch ∈ (m.sched.thread cur).children, pidMatches pid (m.sched.thread ch).tid →
          ¬ ((m.sched.thread ch).state = .zombie ∧ (m.sched.thread ch).waited = false)
  | _ => True

variable {s s' : Sched} {p : ThreadRef} {pid : BitVec 32}

theorem NoReapable.mono (h : NoReapable s p pid)
    (hc : ∀ ch ∈ (s'.thread p).children, ch ∈ (s.thread p).children ∧
      (s'.thread ch).tid = (s.thread ch).tid ∧
      ((s'.thread ch).state = .zombie → (s.thread ch).state = .zombie) ∧
      ((s'.thread ch).waited = false → (s.thread ch).waited = false)) : NoReapable s' p pid := by
  rintro ch hch hm ⟨hz,hw⟩
  obtain ⟨hmem,ht,hz',hw'⟩ := hc ch hch
  exact h ch hmem (ht ▸ hm) ⟨hz' hz,hw' hw⟩

theorem NoReapable.quiet {who : ThreadRef → Prop} {on : Option WaitQueue} (h : NoReapable s p pid)
    (hq : Quiet s s' who on) :
    NoReapable s' p pid := by
  refine h.mono fun ch hch => ?_
  have hk := hq.kin ch
  simp only [kin,Prod.mk.injEq] at hk
  have hc : (s'.thread p).children = (s.thread p).children := congrArg (·.2.1) (hq.kin p)
  exact ⟨hc ▸ hch,hk.2.2.2,hq.zombie ch,fun hw => hk.2.2.1 ▸ hw⟩

/-- The invariant of the machine: a parent that has scanned in vain, or is blocked
after that, still has nothing to reap. -/
structure Inv (m : State) : Prop where
  tree : m.sched.Tree
  scanned : ∀ p pid options, m.place p = .scanned pid options → NoReapable m.sched p pid
  waiting : NoMissedChild m

variable {m m' : State} {t cur parent : ThreadRef} {addr c : Nat}

theorem Inv.quiet {who : ThreadRef → Prop} {on : Option WaitQueue} (h : Inv m)
    (hq : Quiet m.sched s' who on) (hw : ∀ t, who t → m.place t = .user) :
    Inv { m with sched := s' } where
  tree := h.tree.quiet hq
  scanned := fun p pid o hp => (h.scanned p pid o hp).quiet hq
  waiting := by
    intro p pid o hp hb
    rcases hq.blocked p hb with ⟨hb,_⟩ | hp'
    · exact (h.waiting p pid o hp hb).quiet hq
    · rw [hw p hp'] at hp
      cases hp

/-- The record of one thread outside every family is replaced by a new one. -/
structure Fresh (s s' : Sched) (t : ThreadRef) : Prop where
  others : ∀ u, u ≠ t → s'.thread u = s.thread u
  children : (s'.thread t).children = []
  all : ∀ u ∈ s.allThreads, u ∈ s'.allThreads
  reaper : s'.reaper = s.reaper
  orphan : ∀ p, t ∉ (s.thread p).children
  root : s.reaper = some t → (s'.thread t).parent = none

theorem Fresh.tree (hf : Fresh s s' t) (hs : s.Tree) : s'.Tree := by
  refine ⟨?_,?_,?_⟩
  · intro p ch hch
    by_cases hp : p = t
    · rw [hp,hf.children] at hch
      cases hch
    · rw [hf.others p hp] at hch
      obtain ⟨h1,h2,h3⟩ := hs.child p ch hch
      rw [hf.others ch (fun h => hf.orphan p (h ▸ hch))]
      exact ⟨h1,hf.all ch h2,h3⟩
  · intro p
    by_cases hp : p = t
    · rw [hp,hf.children]; exact nodup_nil
    · rw [hf.others p hp]; exact hs.nodup p
  · intro r hr
    rw [hf.reaper] at hr
    obtain ⟨h1,h2⟩ := hs.reaper r hr
    refine ⟨hf.all r h1,?_⟩
    by_cases ht : r = t
    · exact ht ▸ hf.root (ht ▸ hr)
    · rw [hf.others r ht]; exact h2

theorem NoReapable.fresh (hf : Fresh s s' t) (h : p ≠ t → NoReapable s p pid) :
    NoReapable s' p pid := by
  by_cases hp : p = t
  · intro ch hch
    rw [hp,hf.children] at hch
    cases hch
  · refine (h hp).mono fun ch hch => ?_
    rw [hf.others p hp] at hch
    rw [hf.others ch (fun h => hf.orphan p (h ▸ hch))]
    exact ⟨hch,rfl,id,id⟩

theorem Inv.fresh {place : ThreadRef → Place} (h : Inv m) (hf : Fresh m.sched s' t)
    (hpl : ∀ p, p ≠ t → place p = m.place p) : Inv { sched := s', place := place } where
  tree := hf.tree h.tree
  scanned := fun p pid o hp => NoReapable.fresh hf fun ht => h.scanned p pid o (hpl p ht ▸ hp)
  waiting := by
    intro p pid o hp hb
    refine NoReapable.fresh hf fun ht => ?_
    dsimp only at hp hb
    rw [hf.others p ht] at hb
    rw [hpl p ht] at hp
    exact h.waiting p pid o hp hb

theorem fresh_initCpu (hs : s.Tree) (c : Nat) : Fresh s (s.schedInitCpu c) (.idle c) where
  others := fun u hu => update_of_ne hu _ _
  children := by simp [schedInitCpu]
  all := fun u hu => hu
  reaper := rfl
  orphan := fun p h => (hs.child p _ h).2.2.2 c rfl
  root := fun _ => by simp [schedInitCpu]

theorem fresh_enqueue (hs : s.Tree) {r : Thread} (hnew : .heap addr ∉ s.allThreads)
    (hc : r.children = []) : Fresh s (s.schedEnqueueThread (.heap addr) r) (.heap addr) where
  others := fun u hu => update_of_ne hu _ _
  children := by simp [schedEnqueueThread,queuePush,hc]
  all := fun u hu => mem_cons_of_mem _ hu
  reaper := rfl
  orphan := fun p h => hnew (hs.child p _ h).2.1
  root := fun h => absurd (hs.reaper _ h).1 hnew

theorem spawn_eq (hne : .heap addr ≠ cur) (r : Thread) :
    spawn s cur addr r = (s.schedEnqueueThread (.heap addr) r).modify cur fun r =>
      { r with children := .heap addr :: r.children } := by
  unfold spawn schedEnqueueThread queuePush setQueue Sched.modify
  simp only [update_of_ne (Ne.symm hne)]
  rw [update_comm hne]

theorem Inv.move {place : ThreadRef → Place} (h : Inv m) (ht : s'.Tree)
    (hm : ∀ p pid, p ≠ t → NoReapable m.sched p pid → NoReapable s' p pid)
    (hb : ∀ p, p ≠ t → (s'.thread p).state = .blocked → (m.sched.thread p).state = .blocked)
    (hpl : ∀ p, p ≠ t → place p = m.place p)
    (hnew : ∀ pid o, place t = .scanned pid o ∨ place t = .waiting pid o → NoReapable s' t pid) :
    Inv { sched := s', place := place } where
  tree := ht
  scanned := by
    intro p pid o hp
    by_cases hpt : p = t
    · subst hpt; exact hnew pid o (.inl hp)
    · exact hm p pid hpt (h.scanned p pid o ((hpl p hpt).symm.trans hp))
  waiting := by
    intro p pid o hp hblk
    by_cases hpt : p = t
    · subst hpt; exact hnew pid o (.inr hp)
    · exact hm p pid hpt (h.waiting p pid o ((hpl p hpt).symm.trans hp) (hb p hpt hblk))

theorem Inv.spawned {r : Thread} (h : Inv m) (hcur : m.place cur = .user) (hc : r.children = [])
    (hp : r.parent = some cur) (hm : m.spawned cur addr r = some m') : Inv m' := by
  obtain ⟨⟨_,hnew,hne⟩,hm⟩ := ite_none_right_eq_some.mp hm
  cases hm
  have hf := fresh_enqueue h.tree hnew hc
  have h0 := h.fresh hf fun p hp => update_of_ne hp Place.user m.place
  rw [spawn_eq hne]
  set s0 := m.sched.schedEnqueueThread (.heap addr) r with hs0
  have hparent : (s0.thread (.heap addr)).parent = some cur := by
    simp [hs0,schedEnqueueThread,queuePush,hp]
  have hall : .heap addr ∈ s0.allThreads := mem_cons_self
  have horphan : ∀ p, .heap addr ∉ (s0.thread p).children := by
    intro p hmem
    by_cases hpa : p = .heap addr
    · exact (h0.tree.child p _ hmem).2.2.1 hpa.symm
    · rw [hf.others p hpa] at hmem
      exact hf.orphan p hmem
  set s1 := s0.modify cur fun r => { r with children := .heap addr :: r.children } with hs1
  have hkids : ∀ q, (s1.thread q).children =
      if q = cur then .heap addr :: (s0.thread cur).children else (s0.thread q).children := by
    intro q
    by_cases hq : q = cur <;> simp [hs1,hq]
  have hpar : ∀ u, (s1.thread u).parent = (s0.thread u).parent :=
    fun u => modify_field Thread.parent s0 cur u rfl
  have hst : ∀ u, (s1.thread u).state = (s0.thread u).state :=
    fun u => modify_field Thread.state s0 cur u rfl
  have hmild : ∀ q pid, q ≠ cur → NoReapable s0 q pid → NoReapable s1 q pid := by
    intro q pid hq hr
    refine hr.mono fun ch hch => ?_
    rw [hkids,if_neg hq] at hch
    exact ⟨hch,modify_field Thread.tid s0 cur ch rfl,
      fun hz => (hst ch).symm.trans hz,
      fun hw => (modify_field Thread.waited s0 cur ch rfl).symm.trans hw⟩
  have hplace : update m.place (.heap addr) Place.user cur = .user := by
    rw [update_of_ne (Ne.symm hne),hcur]
  have htree : s1.Tree := by
    refine ⟨?_,?_,?_⟩
    · intro q ch hch
      rw [hpar]
      rw [hkids] at hch
      split_ifs at hch with hq
      · subst hq
        rcases mem_cons.mp hch with rfl | hch
        · exact ⟨hparent,hall,hne,by simp⟩
        · exact h0.tree.child q ch hch
      · exact h0.tree.child q ch hch
    · intro q
      rw [hkids]
      split_ifs
      · exact nodup_cons.mpr ⟨horphan cur,h0.tree.nodup cur⟩
      · exact h0.tree.nodup q
    · intro rp hrp
      rw [hpar]
      exact h0.tree.reaper rp hrp
  refine h0.move htree hmild (fun q _ hb => (hst q).symm.trans hb) (fun _ _ => rfl) fun pid o hq => ?_
  rw [hplace] at hq
  rcases hq with hq | hq <;> cases hq

/-- How a pass over `chs` can end: it reports or reaps one of them, it returns with
nothing changed, or it goes on to block because none of them can be reaped. -/
inductive ScanEnd (s : Sched) (parent : ThreadRef) (pid : BitVec 32) (chs : List ThreadRef) :
    Scan × Sched → Prop where
  | stopped {ch : ThreadRef} (h : ch ∈ chs) (ret : BitVec 64) (st : Option (BitVec 32)) :
    ScanEnd s parent pid chs (.done ret st,s.modify ch fun r => { r with stopReported := true })
  | reaped {ch : ThreadRef} (h : ch ∈ chs) (ret : BitVec 64) (st : Option (BitVec 32)) :
    ScanEnd s parent pid chs (.done ret st,reap s parent ch)
  | none (ret : BitVec 64) : ScanEnd s parent pid chs (.done ret none,s)
  | block (h : ∀ ch ∈ chs, pidMatches pid (s.thread ch).tid →
      ¬ ((s.thread ch).state = .zombie ∧ (s.thread ch).waited = false)) :
    ScanEnd s parent pid chs (.block,s)

theorem ScanEnd.cons {ch : ThreadRef} {chs : List ThreadRef} {e : Scan × Sched}
    (h : ScanEnd s parent pid chs e)
    (hno : pidMatches pid (s.thread ch).tid →
      ¬ ((s.thread ch).state = .zombie ∧ (s.thread ch).waited = false)) :
    ScanEnd s parent pid (ch :: chs) e := by
  cases h with
  | stopped h ret st => exact .stopped (mem_cons_of_mem _ h) ret st
  | reaped h ret st => exact .reaped (mem_cons_of_mem _ h) ret st
  | none ret => exact .none ret
  | block h => exact .block (forall_mem_cons.mpr ⟨hno,h⟩)

theorem scanChildren_end (parent : ThreadRef) (pid : BitVec 32) (options : BitVec 64) (s : Sched)
    (found : Bool) (chs : List ThreadRef) :
    ScanEnd s parent pid chs (scanChildren parent pid options s found chs) := by
  induction chs generalizing found with
  | nil =>
    unfold scanChildren
    by_cases h1 : ¬ found
    · rw [if_pos h1]; exact .none _
    rw [if_neg h1]
    by_cases h2 : options &&& 1 ≠ 0
    · rw [if_pos h2]; exact .none _
    · rw [if_neg h2]; exact .block (by simp)
  | cons ch chs ih =>
    unfold scanChildren
    by_cases h1 : pidMatches pid (s.thread ch).tid
    · rw [if_pos h1]
      split_ifs with h2 h3
      · exact .stopped mem_cons_self _ _
      · exact .reaped mem_cons_self _ _
      · exact (ih true).cons fun _ hz => h3 ⟨hz.1,by simp [hz.2]⟩
    · rw [if_neg h1]
      exact (ih found).cons fun h => absurd h h1

private theorem reap_fields (s : Sched) (parent child u : ThreadRef) :
    ((reap s parent child).thread u).parent = (s.thread u).parent ∧
    ((reap s parent child).thread u).state = (s.thread u).state ∧
    ((reap s parent child).thread u).tid = (s.thread u).tid ∧
    ((reap s parent child).thread u).waited = (if u = child then true else (s.thread u).waited) ∧
    ((reap s parent child).thread u).children =
      if u = parent then (s.thread u).children.erase child else (s.thread u).children := by
  have h : (reap s parent child).thread u = ((s.modify child fun r => { r with
      waited := true }).modify parent fun r => { r with children := r.children.erase child }).thread u :=
    rfl
  rw [h]
  refine ⟨?_,?_,?_,?_,?_⟩
  · rw [modify_field Thread.parent _ parent u rfl,modify_field Thread.parent _ child u rfl]
  · rw [modify_field Thread.state _ parent u rfl,modify_field Thread.state _ child u rfl]
  · rw [modify_field Thread.tid _ parent u rfl,modify_field Thread.tid _ child u rfl]
  · rw [modify_field Thread.waited _ parent u rfl,modify_thread]
    by_cases hu : u = child <;> simp [hu]
  · rw [modify_thread]
    by_cases hu : u = parent
    · subst hu
      have hk : ((s.modify child fun r => { r with waited := true }).thread u).children =
          (s.thread u).children := modify_field Thread.children s child u rfl
      rw [if_pos rfl,if_pos rfl,← hk]
    · rw [if_neg hu,if_neg hu,modify_field Thread.children s child u rfl]

theorem Tree.reap (hs : s.Tree) {child : ThreadRef} (hch : child ∈ (s.thread parent).children) :
    (reap s parent child).Tree := by
  have hall : (Waitpid.reap s parent child).allThreads = s.allThreads.erase child := rfl
  have hsub : ∀ p, ∀ ch ∈ ((Waitpid.reap s parent child).thread p).children,
      ch ∈ (s.thread p).children ∧ ch ≠ child := by
    intro p ch h
    rw [(reap_fields s parent child p).2.2.2.2] at h
    split_ifs at h with hp
    · exact ((hs.nodup p).mem_erase_iff.mp h).symm
    refine ⟨h,?_⟩
    rintro rfl
    exact hp (hs.parent_unique h hch)
  refine ⟨?_,?_,?_⟩
  · intro p ch h
    obtain ⟨hmem,hne⟩ := hsub p ch h
    obtain ⟨h1,h2,h3⟩ := hs.child p ch hmem
    rw [(reap_fields s parent child ch).1,hall]
    exact ⟨h1,(mem_erase_of_ne hne).mpr h2,h3⟩
  · intro p
    rw [(reap_fields s parent child p).2.2.2.2]
    split_ifs
    · exact (hs.nodup p).erase child
    · exact hs.nodup p
  · intro r hr
    obtain ⟨h1,h2⟩ := hs.reaper r hr
    rw [(reap_fields s parent child r).1,hall]
    refine ⟨(mem_erase_of_ne ?_).mpr h1,h2⟩
    rintro rfl
    rw [(hs.child parent r hch).1] at h2
    cases h2

theorem NoReapable.reap {child : ThreadRef} (h : NoReapable s p pid) :
    NoReapable (reap s parent child) p pid := by
  refine h.mono fun ch hch => ?_
  obtain ⟨_,hst,ht,hw,_⟩ := reap_fields s parent child ch
  rw [(reap_fields s parent child p).2.2.2.2] at hch
  refine ⟨?_,ht,fun hz => hst ▸ hz,?_⟩
  · split_ifs at hch
    · exact mem_of_mem_erase hch
    · exact hch
  · intro hf
    rw [hw] at hf
    split_ifs at hf
    exact hf

/-- Both the first pass and every later one keep the invariant. -/
theorem Inv.scan (h : Inv m) (parent : ThreadRef) (pid : BitVec 32) (options : BitVec 64) :
    Inv (m.scan parent pid options) := by
  have hend := scanChildren_end parent pid options m.sched false (m.sched.thread parent).children
  unfold State.scan
  set e := scanChildren parent pid options m.sched false (m.sched.thread parent).children
  have hpl : ∀ (x : Place) p, p ≠ parent → update m.place parent x p = m.place p :=
    fun x p hp => update_of_ne hp _ _
  have huser : ∀ s' pid' o, update m.place parent Place.user parent = .scanned pid' o ∨
      update m.place parent Place.user parent = .waiting pid' o → NoReapable s' parent pid' := by
    simp
  clear_value e
  cases hend with
  | @stopped ch hch ret st =>
    have hq : Quiet m.sched (m.sched.modify ch fun r => { r with stopReported := true })
      (fun _ => False) none :=
        (Quiet.refl m.sched).modify ch rfl id (fun h => .inl ⟨h,rfl⟩) (fun _ => .inl)
    refine h.move (h.tree.quiet hq) (fun _ _ _ hr => hr.quiet hq) ?_ (hpl _) (huser _)
    exact fun p _ hb => ((hq.blocked p hb).resolve_right id).1
  | reaped hch ret st =>
    refine h.move (Tree.reap h.tree hch) (fun _ _ _ hr => hr.reap) ?_ (hpl _) (huser _)
    exact fun p _ hb => (reap_fields _ _ _ p).2.1 ▸ hb
  | none ret =>
    exact h.move h.tree (fun _ _ _ hr => hr) (fun _ _ hb => hb) (hpl _) (huser _)
  | block hno =>
    refine h.move h.tree (fun _ _ _ hr => hr) (fun _ _ hb => hb) (hpl _) ?_
    intro pid' o hp
    simp only [update_self] at hp
    rcases hp with hp | hp <;> cases hp
    exact hno

theorem Inv.block {options : BitVec 64} (h : Inv m) (hp : m.place parent = .scanned pid options)
    (hy : (m.sched.setState parent .blocked).threadYield c = some s') :
    Inv { sched := s', place := update m.place parent (.waiting pid options) } := by
  have hq : Quiet m.sched s' (· = parent) none := by
    refine Quiet.threadYield ?_ hy
    exact (Quiet.refl m.sched).modify parent rfl (by simp) (fun _ => .inr rfl) (fun _ => .inl)
  refine h.move (h.tree.quiet hq) (fun _ _ _ hr => hr.quiet hq) ?_
    (fun p hne => update_of_ne hne _ _) ?_
  · exact fun p hne hb => ((hq.blocked p hb).resolve_right hne).1
  · intro pid' o hpl
    simp only [update_self] at hpl
    rcases hpl with hpl | hpl <;> cases hpl
    exact (h.scanned parent pid options hp).quiet hq

/-- An exit leaves nothing to reap for a parent that it does not concern. -/
private theorem NoReapable.leaveZombie (ht : s.Tree) (h : NoReapable s p pid)
    (hpar : (s.thread cur).parent = some p → ¬ pidMatches pid (s.thread cur).tid)
    (hrp : s.reaper = some p → p ≠ cur → ∀ ch ∈ (s.thread cur).children,
      pidMatches pid (s.thread ch).tid →
        ¬ ((s.thread ch).state = .zombie ∧ (s.thread ch).waited = false)) :
    NoReapable (s.leaveZombie cur) p pid := by
  have hself := ht.self_notMem cur
  have hw := leaveZombie_woken s cur hself
  have hzom : ∀ u, ((s.leaveZombie cur).thread u).state = .zombie →
      u = cur ∨ (s.thread u).state = .zombie := by
    intro u hu
    rw [hw.state,zombify_state] at hu
    split_ifs at hu with h1 h2
    · exact .inl h2
    · exact .inr hu
  have hold : ∀ ch ∈ (s.thread p).children, pidMatches pid (s.thread ch).tid →
      ((s.leaveZombie cur).thread ch).state = .zombie → (s.thread ch).waited = false → False := by
    intro ch hch hm hz hf
    rcases hzom ch hz with rfl | hz
    · exact hpar (ht.child p ch hch).1 hm
    · exact h ch hch hm ⟨hz,hf⟩
  rintro ch hch hm ⟨hz,hf⟩
  obtain ⟨_,_,hk | ⟨rp,hr,hne,hk⟩⟩ := leaveZombie_kin s cur hself
  · have hkch := hk ch
    have hkp := hk p
    simp only [kin,Prod.mk.injEq] at hkch hkp
    rw [hkp.2.1] at hch
    rw [hkch.2.2.2] at hm
    rw [hkch.2.2.1] at hf
    exact hold ch hch hm hz hf
  have hkch : ((s.leaveZombie cur).thread ch).waited = (s.thread ch).waited ∧
      ((s.leaveZombie cur).thread ch).tid = (s.thread ch).tid := by
    have hc := hk ch
    split_ifs at hc with h1
    · subst h1
      simp only [kin,Prod.mk.injEq] at hc
      exact hc.2.2
    · simp only [kin,adoptedKin,Prod.mk.injEq] at hc
      exact hc.2.2
  rw [hkch.2] at hm
  rw [hkch.1] at hf
  have hkp := congrArg (·.2.1) (hk p)
  split_ifs at hkp with h1
  · simp only [kin] at hkp
    rw [hkp] at hch
    cases hch
  simp only [kin,adoptedKin] at hkp
  rw [hkp] at hch
  split_ifs at hch with h2
  · subst h2
    rcases mem_append.mp hch with hch | hch
    · rw [mem_reverse] at hch
      rcases hzom ch hz with rfl | hz
      · exact hself hch
      · exact hrp hr h1 ch hch hm ⟨hz,hf⟩
    · exact hold ch hch hm hz hf
  · exact hold ch hch hm hz hf

theorem Inv.exit (h : Inv m) (hc : (m.sched.cpu c).current = some cur)
    (hpar : ∀ p pid o, (m.sched.thread cur).parent = some p → m.place p = .scanned pid o →
      ¬ pidMatches pid (m.sched.thread cur).tid)
    (hrp : ∀ p pid o, m.sched.reaper = some p → p ≠ cur → m.place p = .scanned pid o →
      ∀ ch ∈ (m.sched.thread cur).children, pidMatches pid (m.sched.thread ch).tid →
        ¬ ((m.sched.thread ch).state = .zombie ∧ (m.sched.thread ch).waited = false))
    (hy : m.sched.threadExit c = some s') : Inv { m with sched := s' } := by
  have hq : Quiet (m.sched.leaveZombie cur) s' (fun _ => False) none := Quiet.threadExit hc hy
  refine ⟨(h.tree.leaveZombie cur).quiet hq,?_,?_⟩
  · intro p pid o hp
    exact ((h.scanned p pid o hp).leaveZombie h.tree (hpar p pid o · hp)
      (hrp p pid o · · hp)).quiet hq
  · intro p pid o hp hb
    have hb1 := ((hq.blocked p hb).resolve_right id).1
    have hwake : ¬ m.sched.ExitWakes cur p ∧ p ≠ cur ∧ (m.sched.thread p).state = .blocked := by
      rw [(leaveZombie_woken m.sched cur (h.tree.self_notMem cur)).state,zombify_state] at hb1
      split_ifs at hb1 with h1 h2
      exact ⟨h1,h2,hb1⟩
    obtain ⟨hno,hne,hblk⟩ := hwake
    refine ((h.waiting p pid o hp hblk).leaveZombie h.tree ?_ ?_).quiet hq
    · intro hpc
      exact absurd ⟨hblk,hne,.inl hpc⟩ hno
    · rintro hr _ ch hch _ ⟨hz,_⟩
      exact hno ⟨hblk,hne,.inr ⟨hr,ch,hch,hz⟩⟩

private theorem free_eq (h : m.free c = some t) :
    (m.sched.cpu c).current = some t ∧ m.place t = .user := by
  obtain ⟨h1,h2⟩ := filter_eq_some_iff.mp h
  exact ⟨h1,by simpa using h2⟩

private theorem Inv.sched {e : Sched.Event} (h : Inv m) (hy : Waitpid.step m (.sched e) = some m') :
    Inv m' := by
  cases hnew : e.founds with
  | false =>
    have key : ∀ s', m.sched.step e = some s' →
        (∀ c t, e.caller = some c → (m.sched.cpu c).current = some t → m.place t = .user) →
        Inv { m with sched := s' } :=
      fun s' hs hw => h.quiet (Quiet.step hs hnew hw) fun _ ht => ht
    have hstep : Waitpid.step m (.sched e) = e.caller.elim
        ((m.sched.step e).map fun s => { m with sched := s })
        fun c => (m.free c).bind fun _ => (m.sched.step e).map fun s => { m with sched := s } := by
      cases e with
      | schedEnqueueThread a r => cases hnew
      | _ => rfl
    rw [hstep] at hy
    cases hcall : e.caller with
    | none =>
      rw [hcall] at hy
      obtain ⟨s',hs,rfl⟩ := map_eq_some_iff.mp hy
      exact key s' hs fun c t hct => by rw [hcall] at hct; cases hct
    | some d =>
      rw [hcall] at hy
      obtain ⟨cur,hf,hy⟩ := bind_eq_some_iff.mp hy
      obtain ⟨s',hs,rfl⟩ := map_eq_some_iff.mp hy
      refine key s' hs fun c t hct ht => ?_
      rw [hcall] at hct
      cases hct
      obtain ⟨hc,hu⟩ := free_eq hf
      rw [hc] at ht
      cases ht
      exact hu
  | true =>
    cases e with
    | schedInitCpu d =>
      obtain ⟨s',hs,rfl⟩ := map_eq_some_iff.mp hy
      obtain ⟨_,hs⟩ := ite_none_right_eq_some.mp hs
      cases hs
      exact h.fresh (fresh_initCpu h.tree d) fun _ _ => rfl
    | schedEnqueueThread a r =>
      obtain ⟨hr,hy⟩ := ite_none_right_eq_some.mp hy
      obtain ⟨s',hs,rfl⟩ := map_eq_some_iff.mp hy
      obtain ⟨⟨hfresh,_⟩,hs⟩ := ite_none_right_eq_some.mp hs
      cases hs
      exact h.fresh (fresh_enqueue h.tree hfresh hr) fun p hp => update_of_ne hp _ _
    | _ => cases hnew

theorem Inv.step {e : Event} (h : Inv m) (hok : EventOk m e) (hy : step m e = some m') :
    Inv m' := by
  cases e with
  | sched e => exact h.sched hy
  | schedSetReaper t =>
    obtain ⟨⟨hall,hroot⟩,hy⟩ := ite_none_right_eq_some.mp hy
    cases hy
    refine ⟨⟨h.tree.child,h.tree.nodup,?_⟩,h.scanned,h.waiting⟩
    rintro r hr
    cases hr
    exact ⟨hall,hroot⟩
  | processFork c addr cr3 fdt | processClone c addr shareVm cr3 fdt ctid =>
    obtain ⟨cur,hf,hy⟩ := bind_eq_some_iff.mp hy
    exact h.spawned (free_eq hf).2 rfl rfl hy
  | sysWaitpid c pid options =>
    obtain ⟨parent,_,rfl⟩ := map_eq_some_iff.mp hy
    exact h.scan parent pid options
  | block c =>
    obtain ⟨parent,_,hy⟩ := bind_eq_some_iff.mp hy
    cases hp : m.place parent with
    | user | waiting pid options => simp [hp] at hy
    | scanned pid options =>
      simp only [hp] at hy
      obtain ⟨s',hs,rfl⟩ := map_eq_some_iff.mp hy
      exact h.block hp hs
  | resume c =>
    obtain ⟨parent,_,hy⟩ := bind_eq_some_iff.mp hy
    cases hp : m.place parent with
    | user | scanned pid options => simp [hp] at hy
    | waiting pid options =>
      simp only [hp,Option.some.injEq] at hy
      exact hy ▸ h.scan parent pid options
  | threadExit c code =>
    obtain ⟨cur,hf,hy⟩ := bind_eq_some_iff.mp hy
    obtain ⟨hc,hu⟩ := free_eq hf
    obtain ⟨s',hs,rfl⟩ := map_eq_some_iff.mp hy
    obtain ⟨hpar,hrp⟩ := hok cur hc
    have hq : Quiet m.sched (m.sched.modify cur fun r => { r with exitCode := code })
      (fun _ => False) none :=
        (Quiet.refl m.sched).modify cur rfl id (fun h => .inl ⟨h,rfl⟩) (fun _ => .inl)
    have hscan : ∀ {p pid o}, m.place p = .scanned pid o → m.scanning p = some pid := by
      intro p pid o hp
      simp [State.scanning,hp]
    have hkin := fun u => hq.kin u
    simp only [kin,Prod.mk.injEq] at hkin
    have hst : ∀ u, ((m.sched.modify cur fun r => { r with exitCode := code }).thread u).state =
        (m.sched.thread u).state := fun u => modify_field Thread.state m.sched cur u rfl
    have h1 := h.quiet hq fun _ hf => hf.elim
    refine h1.exit hc ?_ ?_ hs
    · intro p pid o hp hpl
      rw [(hkin cur).1] at hp
      rw [(hkin cur).2.2.2]
      exact hpar p hp pid (hscan hpl)
    · intro p pid o hr hne hpl ch hch hm
      rw [(hkin cur).2.1] at hch
      rw [(hkin ch).2.2.2] at hm
      rw [hst,(hkin ch).2.2.1]
      exact hrp p hr hne pid (hscan hpl) ch hch hm
  | schedStopCurrent c =>
    obtain ⟨cur,hf,hy⟩ := bind_eq_some_iff.mp hy
    obtain ⟨hc,hu⟩ := free_eq hf
    obtain ⟨s',hs,rfl⟩ := map_eq_some_iff.mp hy
    have hq : Quiet m.sched s' (· = cur) (some .stopWq) :=
      Quiet.schedStopCurrent (fun t ht => (Option.some.inj (hc.symm.trans ht)).symm) hs
    exact h.quiet hq fun t ht => ht ▸ hu

theorem boot_inv (isBsp : Nat → Bool) : Inv (boot isBsp) where
  tree := ⟨by simp [boot,Sched.boot],by simp [boot,Sched.boot],by simp [boot,Sched.boot]⟩
  scanned := by simp [boot]
  waiting := by simp [NoMissedChild,boot]

/-- In every run whose exits never hit the window between a parent's vain scan and
its blocking step, no parent misses a child. -/
theorem waitpid_misses_no_child (isBsp : Nat → Bool) (es : List Event)
    (hok : Along step EventOk (boot isBsp) es) : Always step NoMissedChild (boot isBsp) es :=
  always_of_along (fun _ h => Inv.waiting h) (fun _ _ _ h hok hy => Inv.step h hok hy) (boot isBsp)
    es (boot_inv isBsp) hok

/-- A parent forks, waits, is woken by the exit and reaps the child. -/
def waitForChild : List Event :=
  [.sched (.schedInitCpu 0),.sched (.schedEnqueueThread 1 { cr3 := 1 }),.sched (.threadYield 0),
    .processFork 0 2 3 4,.sysWaitpid 0 (-1) 0,.block 0,.threadExit 0 7,.resume 0]

theorem waitpid_misses_no_child_waitForChild :
    Always step NoMissedChild (boot fun _ => true) waitForChild ∧
    (exec step (boot fun _ => true) waitForChild).map
      (fun m => (m.place (.heap 1),(m.sched.thread (.heap 1)).children,m.sched.allThreads)) =
      some (.user,[],[.heap 1]) := by
  refine ⟨waitpid_misses_no_child _ _ ?_,rfl⟩
  refine .cons trivial rfl (.cons trivial rfl (.cons trivial rfl (.cons trivial rfl
    (.cons trivial rfl (.cons trivial rfl (.cons ?_ rfl (.cons trivial rfl trivial)))))))
  rintro cur hcur
  cases hcur
  refine ⟨?_,?_⟩
  · rintro p hp pid hpid
    cases hp
    cases hpid
  · rintro rp hrp
    cases hrp

/-- Two CPUs: the child exits on CPU 1 between the parent's scan and its block. -/
def missedChild : List Event :=
  [.sched (.schedInitCpu 0),.sched (.schedInitCpu 1),.sched (.schedEnqueueThread 1 { cr3 := 1 }),
    .sched (.threadYield 0),.processFork 0 2 3 4,.sched (.threadYield 1),.sysWaitpid 0 (-1) 0,
    .threadExit 1 7,.block 0]

theorem waitpid_misses_child : ¬ Always step NoMissedChild (boot fun _ => true) missedChild := by
  intro h
  have hlast := h.last rfl (.heap 1) (-1) 0 rfl rfl (.heap 2) (by decide) (by decide)
  exact hlast ⟨rfl,rfl⟩

end Lariat.Kernel.Waitpid
