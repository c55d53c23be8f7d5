import Lariat.Kernel.SchedRuns

/-! `thread_exit` and `sched_stop_current`: the adoption of orphans, the wake-ups of
the parent and of the reaper, and whom they make ready. -/
namespace Lariat.Kernel.Sched
open List

/-- One round of the adoption loop, with its wake-up for an adopted zombie. -/
def adoptChild (reaper : ThreadRef) (s : Sched) (child : ThreadRef) : Sched :=
  let s := s.modify child fun r => { r with parent := some reaper }
  let s := s.modify reaper fun r => { r with children := child :: r.children }
  if (s.thread child).state = .zombie ∧ (s.thread reaper).state = .blocked
  then s.makeReady reaper else s

section

variable (s : Sched)

def reparent (cur : ThreadRef) : Sched :=
  match s.reaper with
  | none => s
  | some r =>
    if r ≠ cur ∧ (s.thread cur).children ≠ [] then
      ((s.thread cur).children.foldl (adoptChild r) s).modify cur fun r => { r with children := [] }
    else s

/-- Wake the parent, whatever it is blocked on. -/
def wakeParent (cur : ThreadRef) : Sched :=
  match (s.thread cur).parent with
  | none => s
  | some p => if (s.thread p).state = .blocked then s.makeReady p else s

/-- The files are closed first; then, under the lock, `cur` becomes a zombie. -/
def zombify (cur : ThreadRef) : Sched :=
  ((s.modify cur fun r => { r with fdt := none }).setState cur .zombie).queueRemove .readyQueue cur

/-- The part of `thread_exit` before the next thread is picked. -/
def leaveZombie (cur : ThreadRef) : Sched :=
  ((s.zombify cur).reparent cur).wakeParent cur

/-- A null `cur` or `next` is dereferenced by the switch, which is a fault. -/
def threadExit (c : Nat) : Option Sched :=
  match (s.cpu c).current with
  | none => none
  | some cur =>
    match (s.leaveZombie cur).pickNext c with
    | (some next,s) => some (s.switchTo c next)
    | (none,_) => none

/-- Wake the parent if it is blocked on no wait queue. -/
def wakeWaitingParent (cur : ThreadRef) : Sched :=
  match (s.thread cur).parent with
  | none => s
  | some p =>
    if (s.thread p).state = .blocked ∧ (s.thread p).waitQ = none then s.makeReady p else s

def schedStopCurrent (c : Nat) : Option Sched :=
  match (s.cpu c).current with
  | none => some s
  | some cur =>
    if some cur = (s.cpu c).idle then some s
    else (s.wakeWaitingParent cur).schedWaitLocked c .stopWq

/-- The threads that `thread_exit` of `cur` makes ready. -/
def ExitWakes (cur t : ThreadRef) : Prop :=
  (s.thread t).state = .blocked ∧ t ≠ cur ∧
    ((s.thread cur).parent = some t ∨
      s.reaper = some t ∧ ∃ ch ∈ (s.thread cur).children, (s.thread ch).state = .zombie)

/-- The thread that `sched_stop_current` of `cur` makes ready. -/
def StopWakes (cur t : ThreadRef) : Prop :=
  (s.thread t).state = .blocked ∧ (s.thread t).waitQ = none ∧ (s.thread cur).parent = some t

end

instance (s : Sched) (cur t : ThreadRef) : Decidable (s.ExitWakes cur t) :=
  inferInstanceAs (Decidable (_ ∧ _))

instance (s : Sched) (cur t : ThreadRef) : Decidable (s.StopWakes cur t) :=
  inferInstanceAs (Decidable (_ ∧ _))

variable {s r : Sched} {c : Nat} {cur : ThreadRef} {W : ThreadRef → Prop}

/-- Whether the adoption of `chs` wakes the reaper. -/
def AdoptWakes (s : Sched) (rp : ThreadRef) (chs : List ThreadRef) : Prop :=
  (s.thread rp).state = .blocked ∧ ∃ ch ∈ chs, (s.thread ch).state = .zombie

instance (s : Sched) (rp : ThreadRef) (chs : List ThreadRef) : Decidable (s.AdoptWakes rp chs) :=
  inferInstanceAs (Decidable (_ ∧ _))

theorem adoptWakes_cons (s : Sched) (rp ch : ThreadRef) (chs : List ThreadRef) :
    s.AdoptWakes rp (ch :: chs) ↔ s.AdoptWakes rp [ch] ∨ s.AdoptWakes rp chs := by
  simp only [AdoptWakes,mem_cons,not_mem_nil,or_false,exists_eq_left,exists_eq_or_imp,
    and_or_left]

/-- Threads `W` are made ready, and the records change in nothing else that counts. -/
structure Woken (s r : Sched) (W : ThreadRef → Prop) [DecidablePred W] : Prop where
  cpu : r.cpu = s.cpu
  state : ∀ u, (r.thread u).state = if W u then .ready else (s.thread u).state
  count : ∀ u l, (r.queue l).count u = (s.queue l).count u + if l = .readyQueue ∧ W u then 1 else 0

theorem Woken.refl [DecidablePred W] (s : Sched) (hno : ∀ u, ¬ W u) : Woken s s W where
  cpu := rfl
  state := fun u => by rw [if_neg (hno u)]
  count := fun u l => by rw [if_neg (fun h => hno u h.2)]; rfl

theorem Woken.congr {V : ThreadRef → Prop} [DecidablePred V] [DecidablePred W]
    (h : Woken s r V) (hVW : ∀ u, V u ↔ W u) : Woken s r W where
  cpu := h.cpu
  state := fun u => by rw [h.state]; simp only [hVW]
  count := fun u l => by rw [h.count]; simp only [hVW]

theorem Woken.makeReady (s : Sched) (t : ThreadRef) : Woken s (s.makeReady t) (· = t) where
  cpu := rfl
  state := by
    intro u
    rw [makeReady_thread]
    by_cases h : u = t <;> simp [h]
  count := fun u l => makeReady_count s t u l

theorem Woken.trans {s m r : Sched} {V W U : ThreadRef → Prop} [DecidablePred V]
    [DecidablePred W] [DecidablePred U] (h1 : Woken s m V) (h2 : Woken m r W)
    (hdis : ∀ u, V u → ¬ W u) (hU : ∀ u, U u ↔ V u ∨ W u) : Woken s r U where
  cpu := h2.cpu.trans h1.cpu
  state := by
    intro u
    rw [h2.state,h1.state]
    by_cases hv : V u <;> by_cases hw : W u <;> simp [hU,hv,hw]
  count := by
    intro u l
    rw [h2.count,h1.count]
    by_cases hv : V u
    · simp [hU,hv,hdis u hv]
    · simp [hU,hv]

theorem Woken.ite {p : Prop} [Decidable p] [DecidablePred W] (t : ThreadRef)
    (hW : ∀ u, W u ↔ t = u ∧ p) : Woken s (if p then s.makeReady t else s) W := by
  split_ifs with hp
  · refine (Woken.makeReady s t).congr fun u => ?_
    rw [hW,and_iff_left hp,eq_comm]
  · exact Woken.refl s fun u hu => hp ((hW u).mp hu).2

theorem adoptChild_spec (rp ch : ThreadRef) (s : Sched) :
    Woken s (adoptChild rp s ch) (fun u => u = rp ∧ s.AdoptWakes rp [ch]) ∧
    ∀ u, u ≠ ch → ((adoptChild rp s ch).thread u).parent = (s.thread u).parent := by
  set m := (s.modify ch fun r => { r with parent := some rp }).modify rp fun r =>
    { r with children := ch :: r.children } with hm
  have hstate : ∀ u, (m.thread u).state = (s.thread u).state := by
    intro u
    rw [hm,modify_field Thread.state _ rp u rfl,modify_field Thread.state _ ch u rfl]
  have hpar : ∀ u, u ≠ ch → (m.thread u).parent = (s.thread u).parent := by
    intro u hu
    rw [hm,modify_field Thread.parent _ rp u rfl,modify_thread,if_neg hu]
  have hwoken : Woken s m (fun _ => False) := ⟨rfl,by simpa using hstate,by simp [hm]⟩
  have hif : adoptChild rp s ch = if s.AdoptWakes rp [ch] then m.makeReady rp else m := by
    unfold adoptChild AdoptWakes
    simp only [← hm,hstate,mem_singleton,exists_eq_left,and_comm]
  rw [hif]
  split_ifs with hw
  · refine ⟨hwoken.trans (Woken.makeReady m rp) (fun _ h => h.elim) (by simp [hw]),?_⟩
    intro u hu
    rw [makeReady_thread]
    split_ifs with h
    · exact h ▸ hpar u hu
    · exact hpar u hu
  · exact ⟨by simpa [hw] using hwoken,hpar⟩

theorem adoptLoop_spec (rp : ThreadRef) (chs : List ThreadRef) (s : Sched) :
    Woken s (chs.foldl (adoptChild rp) s) (fun u => u = rp ∧ s.AdoptWakes rp chs) ∧
    ∀ u, u ∉ chs → ((chs.foldl (adoptChild rp) s).thread u).parent = (s.thread u).parent := by
  induction chs generalizing s with
  | nil => exact ⟨⟨rfl,by simp [AdoptWakes],by simp [AdoptWakes]⟩,fun _ _ => rfl⟩
  | cons ch chs ih =>
    obtain ⟨h1,hp1⟩ := adoptChild_spec rp ch s
    obtain ⟨h2,hp2⟩ := ih (adoptChild rp s ch)
    refine ⟨h1.trans h2 ?_ ?_,?_⟩
    · rintro u ⟨rfl,hw⟩ ⟨_,hb,_⟩
      rw [h1.state,if_pos ⟨rfl,hw⟩] at hb
      cases hb
    · intro u
      rw [adoptWakes_cons,and_or_left]
      by_cases hw : s.AdoptWakes rp [ch]
      · have hno : ¬ (adoptChild rp s ch).AdoptWakes rp chs := by
          rintro ⟨hb,_⟩
          rw [h1.state,if_pos ⟨rfl,hw⟩] at hb
          cases hb
        simp only [hw,hno,and_true,and_false,or_false,or_iff_left_iff_imp]
        exact And.left
      · have hsame : ∀ v, ((adoptChild rp s ch).thread v).state = (s.thread v).state := by
          intro v
          rw [h1.state,if_neg (fun h => hw h.2)]
        simp only [AdoptWakes,hsame]
    · intro u hu
      rw [foldl_cons,hp2 u (fun h => hu (mem_cons_of_mem _ h)),
        hp1 u (fun h => hu (h ▸ mem_cons_self))]

theorem reparent_spec (s : Sched) (cur : ThreadRef) (hself : cur ∉ (s.thread cur).children)
    (hcur : (s.thread cur).state ≠ .blocked) :
    Woken s (s.reparent cur)
      (fun u => s.reaper = some u ∧ s.AdoptWakes u (s.thread cur).children) ∧
    ((s.reparent cur).thread cur).parent = (s.thread cur).parent := by
  unfold reparent
  cases hr : s.reaper with
  | none => exact ⟨Woken.refl s (by simp),rfl⟩
  | some rp =>
    dsimp only
    split_ifs with h
    · obtain ⟨hw,hp⟩ := adoptLoop_spec rp (s.thread cur).children s
      set m := (s.thread cur).children.foldl (adoptChild rp) s
      have hm : Woken m (m.modify cur fun r => { r with children := [] }) (fun _ => False) :=
        ⟨rfl,fun u => (modify_field Thread.state m cur u rfl).trans (by simp),by simp⟩
      refine ⟨hw.trans hm (fun _ _ h => h) ?_,?_⟩
      · intro u
        rw [or_false,Option.some.injEq,eq_comm]
        exact and_congr_right fun hu => by rw [hu]
      · rw [modify_field Thread.parent m cur cur rfl,hp cur hself]
    · refine ⟨Woken.refl s ?_,rfl⟩
      rintro u ⟨hu,hb,ch,hch,_⟩
      cases hu
      refine h ⟨?_,ne_nil_of_mem hch⟩
      rintro rfl
      exact hcur hb

theorem wakeParent_spec (s : Sched) (cur : ThreadRef) :
    Woken s (s.wakeParent cur)
      (fun u => (s.thread cur).parent = some u ∧ (s.thread u).state = .blocked) := by
  unfold wakeParent
  cases hp : (s.thread cur).parent with
  | none => exact Woken.refl s (by simp)
  | some p =>
    refine .ite p fun u => ?_
    rw [Option.some.injEq]
    exact and_congr_right fun hu => by rw [hu]

theorem wakeWaitingParent_spec (s : Sched) (cur : ThreadRef) :
    Woken s (s.wakeWaitingParent cur) (s.StopWakes cur) := by
  unfold wakeWaitingParent
  cases hp : (s.thread cur).parent with
  | none => exact Woken.refl s (by simp [StopWakes,hp])
  | some p =>
    refine .ite p fun u => ?_
    rw [StopWakes,hp,Option.some.injEq,← and_assoc,and_comm]
    exact and_congr_right fun hu => by rw [hu]

theorem zombify_state (s : Sched) (cur u : ThreadRef) :
    ((s.zombify cur).thread u).state = if u = cur then .zombie else (s.thread u).state := by
  by_cases h : u = cur <;> simp [zombify,setState,queueRemove,h]

theorem leaveZombie_woken (s : Sched) (cur : ThreadRef) (hself : cur ∉ (s.thread cur).children) :
    Woken (s.zombify cur) (s.leaveZombie cur) (s.ExitWakes cur) := by
  set m := s.zombify cur with hm
  have hmstate := zombify_state s cur
  rw [← hm] at hmstate
  have hmrec : (m.thread cur).parent = (s.thread cur).parent ∧
      (m.thread cur).children = (s.thread cur).children := by
    simp [hm,zombify,setState,queueRemove]
  have hmz : (m.thread cur).state ≠ .blocked := by rw [hmstate,if_pos rfl]; simp
  obtain ⟨h1,hp⟩ := reparent_spec m cur (by rw [hmrec.2]; exact hself) hmz
  have h2 := wakeParent_spec (m.reparent cur) cur
  have hblk : ∀ u, (m.thread u).state = .blocked ↔ (s.thread u).state = .blocked ∧ u ≠ cur := by
    intro u
    rw [hmstate]
    split_ifs with hu
    · exact iff_of_false (by simp) (fun h => h.2 hu)
    · exact (and_iff_left hu).symm
  have hzom : (∃ ch ∈ (m.thread cur).children, (m.thread ch).state = .zombie) ↔
      ∃ ch ∈ (s.thread cur).children, (s.thread ch).state = .zombie := by
    rw [hmrec.2]
    refine exists_congr fun ch => and_congr_right fun hch => ?_
    rw [hmstate,if_neg (fun h : ch = cur => hself (h ▸ hch))]
  refine h1.trans h2 ?_ ?_
  · rintro u hu ⟨_,hb⟩
    rw [h1.state,if_pos hu] at hb
    cases hb
  · intro u
    rw [hp,hmrec.1,h1.state]
    by_cases hV : m.reaper = some u ∧ m.AdoptWakes u (m.thread cur).children
    · obtain ⟨hr,hb,hz⟩ := hV
      obtain ⟨hsb,hne⟩ := (hblk u).mp hb
      exact iff_of_true ⟨hsb,hne,.inr ⟨hr,hzom.mp hz⟩⟩ (.inl ⟨hr,hb,hz⟩)
    rw [if_neg hV,hblk]
    constructor
    · rintro ⟨hb,hne,hpar | ⟨hr,hz⟩⟩
      · exact .inr ⟨hpar,hb,hne⟩
      · exact absurd ⟨hr,(hblk u).mpr ⟨hb,hne⟩,hzom.mpr hz⟩ hV
    · rintro (h | ⟨hpar,hb,hne⟩)
      · exact absurd h hV
      · exact ⟨hb,hne,.inl hpar⟩

end Lariat.Kernel.Sched
