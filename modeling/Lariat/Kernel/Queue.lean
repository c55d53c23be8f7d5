import Mathlib.Data.Fintype.Card
import Lariat.Foundation.Runs
import Lariat.Foundation.Chain

/-! The scheduler's intrusive queues: a head and a tail pointer, linked through
the `next` field that every thread structure has once. -/
namespace Lariat.Kernel
open Foundation Foundation.Runs List Function

/-- One queue with the link fields of all thread structures in memory. -/
structure Queue (α : Type) where
  next : α → Option α
  head : Option α
  tail : Option α

namespace Queue

variable {α : Type} [DecidableEq α]

/-- An empty queue; the link fields hold whatever memory held before. -/
def empty (next : α → Option α) : Queue α := ⟨next,none,none⟩

def queuePush (q : Queue α) (t : α) : Queue α :=
  let next := update q.next t none
  match q.tail with
  | some last => ⟨update next last (some t),q.head,some t⟩
  | none => ⟨next,some t,some t⟩

def queuePop (q : Queue α) : Option α × Queue α :=
  match q.head with
  | none => (none,q)
  | some t =>
    let head := q.next t
    let tail := if head.isNone then none else q.tail
    (some t,⟨update q.next t none,head,tail⟩)

/-- The cursor `pp` of `queue_remove` is the address of a link: `none` is the
queue's own head pointer, `some p` the `next` field of `p`. -/
def load (q : Queue α) : Option α → Option α
  | none => q.head
  | some p => q.next p

def store (q : Queue α) : Option α → Option α → Queue α
  | none, v => { q with head := v }
  | some p, v => { q with next := update q.next p v }

/-- The removal loop. `none` means that the bound on the number of links was
used up, which only a cyclic list can do. -/
def queueRemoveLoop (t : α) : Nat → Option α → Queue α → Option (Queue α)
  | 0, _, _ => none
  | bound+1, pp, q =>
    match q.load pp with
    | none => some q
    | some x =>
      if x = t then
        let q := q.store pp (q.next t)
        -- the source clears the tail whenever the removed cell was the last one
        let q := if (q.load pp).isNone then { q with tail := none } else q
        some { q with next := update q.next t none }
      else queueRemoveLoop t bound (some x) q

/-- A walk longer than the number of thread structures never ends. -/
def queueRemove [Fintype α] (q : Queue α) (t : α) : Option (Queue α) :=
  queueRemoveLoop t (Fintype.card α+1) none q

inductive Op (α : Type) where
  | push (t : α)
  | pop
  | remove (t : α)
  deriving DecidableEq, Repr

def apply [Fintype α] (q : Queue α) : Op α → Option (Queue α)
  | .push t => some (q.queuePush t)
  | .pop => some q.queuePop.2
  | .remove t => q.queueRemove t

/-- The intended contents: pushed and not yet removed, oldest first. -/
def fifo (l : List α) : Op α → List α
  | .push t => l ++ [t]
  | .pop => l.tail
  | .remove t => l.erase t

/-- Both pointers are null and nothing is queued, or the head reaches the tail
over exactly the queued threads in order and the tail's link is null. -/
def WellFormed (q : Queue α) (l : List α) : Prop :=
  (q.head = none ∧ q.tail = none ∧ l = []) ∨
    ∃ last, q.tail = some last ∧ q.next last = none ∧
      Chain q.next q.head l ∧ l.getLast? = some last

/-- Code and intended contents side by side. -/
def step [Fintype α] (s : Queue α × List α) (op : Op α) : Option (Queue α × List α) :=
  (s.1.apply op).map fun q => (q,fifo s.2 op)

/-- A thread is pushed only while it is not queued, and the last thread is not
removed from behind another one. -/
def OpOk (l : List α) : Op α → Prop
  | .push t => t ∉ l
  | .pop => True
  | .remove t => l.getLast? = some t → l = [t]

variable {l pre m : List α} {q : Queue α} {t : α}

omit [DecidableEq α] in
private theorem chain_last {next : α → Option α} {h : Option α} {z : α}
    (hc : Chain next h (l ++ [z])) : next z = none := by
  have hs : Chain next (some z) [z] := hc.suffix
  exact hs.2

omit [DecidableEq α] in
theorem wellFormed_iff (q : Queue α) (l : List α) :
    WellFormed q l ↔ Chain q.next q.head l ∧ q.tail = l.getLast? := by
  constructor
  · rintro (⟨hh,ht,rfl⟩ | ⟨z,ht,_,hc,hl⟩)
    · exact ⟨hh,ht⟩
    · exact ⟨hc,ht.trans hl.symm⟩
  · rintro ⟨hc,ht⟩
    rcases eq_nil_or_concat l with rfl | ⟨m,z,rfl⟩
    · exact .inl ⟨hc,ht,rfl⟩
    · rw [concat_eq_append] at *
      have hl : (m ++ [z]).getLast? = some z := by simp
      exact .inr ⟨z,ht.trans hl,chain_last hc,hc,hl⟩

theorem queuePush_wellFormed (hw : WellFormed q l) (ht : t ∉ l) :
    WellFormed (q.queuePush t) (l ++ [t]) := by
  rw [wellFormed_iff] at hw ⊢
  obtain ⟨hc,hl⟩ := hw
  rcases eq_nil_or_concat l with rfl | ⟨m,z,rfl⟩
  · have hn : q.tail = none := hl
    simp [queuePush,hn]
  · rw [concat_eq_append] at *
    have hz : q.tail = some z := by simpa using hl
    simp only [queuePush,hz]
    exact ⟨hc.snoc ht,by simp⟩

theorem queuePop_wellFormed (hw : WellFormed q l) : WellFormed q.queuePop.2 l.tail := by
  rw [wellFormed_iff] at hw ⊢
  obtain ⟨hc,hl⟩ := hw
  cases l with
  | nil =>
    have hh : q.head = none := hc
    rw [queuePop,hh]
    exact ⟨hc,hl⟩
  | cons a l =>
    have hh : q.head = some a := hc.1
    have ha : a ∉ l := (nodup_cons.mp hc.nodup).1
    simp only [queuePop,hh,tail_cons]
    refine ⟨hc.2.frame ha none,?_⟩
    rw [hc.2.head]
    cases l with
    | nil => rfl
    | cons b l => simpa using hl

omit [DecidableEq α] in
private theorem load_cursor (hc : Chain q.next q.head (pre ++ m)) :
    q.load pre.getLast? = m.head? := by
  rcases eq_nil_or_concat pre with rfl | ⟨p,z,rfl⟩
  · exact hc.head
  rw [concat_eq_append] at *
  have hs : Chain q.next (some z) (z :: m) := by
    rw [append_assoc] at hc
    exact hc.suffix
  simpa [load] using hs.2.head

omit [DecidableEq α] in
private theorem last_eq_iff (ht : t ∉ m) : (pre ++ t :: m).getLast? = some t ↔ m = [] := by
  rcases eq_nil_or_concat m with rfl | ⟨n,z,rfl⟩
  · simp
  rw [concat_eq_append] at *
  have hz : z ≠ t := fun h => ht (by simp [h])
  have he : pre ++ t :: (n ++ [z]) = (pre ++ t :: n) ++ [z] := by simp
  rw [he,getLast?_concat]
  simp [hz]

private theorem erase_middle (ht : t ∉ pre) : (pre ++ t :: m).erase t = pre ++ m := by
  rw [erase_append_right _ ht,erase_cons_head]

private theorem unlink (hc : Chain q.next q.head (pre ++ t :: m)) :
    let r := q.store pre.getLast? (q.next t)
    Chain (update r.next t none) r.head (pre ++ m) ∧
      r.load pre.getLast? = m.head? ∧ r.tail = q.tail ∧ ∀ u ∉ pre, r.next u = q.next u := by
  have hnd := hc.nodup
  have ht : t ∉ pre ++ m := by
    have hp := nodup_middle.mp hnd
    exact (nodup_cons.mp hp).1
  have hm : q.next t = m.head? := by
    have hs : Chain q.next (some t) (t :: m) := hc.suffix
    exact hs.2.head
  rcases eq_nil_or_concat pre with rfl | ⟨p,z,rfl⟩
  · exact ⟨Chain.frame hc.2 ht none,hm,rfl,fun _ _ => rfl⟩
  rw [concat_eq_append] at *
  have hlast : (p ++ [z]).getLast? = some z := by simp
  rw [hlast]
  refine ⟨Chain.frame ?_ ht none,?_,rfl,fun u hu => update_of_ne (fun h => hu (by simp [h])) _ _⟩
  · rw [append_assoc] at hc ⊢
    exact hc.skip
  · simp [store,load,hm]

/-- The loop unlinks the thread wherever it sits, and clears the tail exactly
when the thread was the last one, also when others stay queued before it. -/
theorem queueRemoveLoop_spec (m pre : List α) (bound : Nat)
    (hc : Chain q.next q.head (pre ++ m)) (ht : t ∉ pre) (hb : m.length < bound) :
    ∃ r, queueRemoveLoop t bound pre.getLast? q = some r ∧
      Chain r.next r.head ((pre ++ m).erase t) ∧
      r.tail = (if (pre ++ m).getLast? = some t then none else q.tail) ∧
      ∀ u ∉ pre ++ m, r.next u = q.next u := by
  induction m generalizing pre bound with
  | nil =>
    obtain ⟨b,rfl⟩ : ∃ b, bound = b+1 := ⟨bound-1,by simp at hb; omega⟩
    rw [append_nil] at *
    have hl : q.load pre.getLast? = none := by
      simpa using load_cursor (m := []) (by simpa using hc)
    have hne : pre.getLast? ≠ some t := fun h => ht (mem_of_getLast? h)
    refine ⟨q,by simp [queueRemoveLoop,hl],?_,by rw [if_neg hne],fun _ _ => rfl⟩
    rwa [erase_of_not_mem ht]
  | cons x m ih =>
    obtain ⟨b,rfl⟩ : ∃ b, bound = b+1 := ⟨bound-1,by simp at hb; omega⟩
    have hl : q.load pre.getLast? = some x := load_cursor hc
    by_cases hx : x = t
    · subst hx
      have hxm : x ∉ m := by
        have hs : Chain q.next (some x) (x :: m) := hc.suffix
        exact (nodup_cons.mp hs.nodup).1
      obtain ⟨hch,hld,htl,hkeep⟩ := unlink hc
      simp only [queueRemoveLoop,hl,if_true]
      refine ⟨_,rfl,?_,?_,fun u hu => ?_⟩
      · rw [erase_middle ht]
        split_ifs <;> exact hch
      · simp only [last_eq_iff hxm,hld]
        cases m with
        | nil => simp
        | cons y m => simpa using htl
      · obtain ⟨hpre,hux,-⟩ : u ∉ pre ∧ u ≠ x ∧ u ∉ m := by simpa using hu
        rw [← hkeep u hpre]
        split_ifs <;> exact update_of_ne hux _ _
    · have hpre : t ∉ pre ++ [x] := by
        rw [mem_append,mem_singleton,not_or]
        exact ⟨ht,Ne.symm hx⟩
      have hc' : Chain q.next q.head ((pre ++ [x]) ++ m) := by
        rwa [append_assoc]
      obtain ⟨r,hr,hch,htl,hkeep⟩ := ih (pre ++ [x]) b hc' hpre (by simpa using hb)
      refine ⟨r,?_,by simpa using hch,by simpa using htl,by simpa using hkeep⟩
      have hlast : (pre ++ [x]).getLast? = some x := by simp
      rw [hlast] at hr
      simpa [queueRemoveLoop,hl,hx] using hr

private theorem erase_last (h : l.getLast? ≠ some t) : (l.erase t).getLast? = l.getLast? := by
  by_cases ht : t ∈ l
  · obtain ⟨p,m,hp,rfl,he⟩ := exists_erase_eq ht
    rw [he]
    rcases eq_nil_or_concat m with rfl | ⟨n,z,rfl⟩
    · simp at h
    · have h1 : p ++ n.concat z = (p ++ n) ++ [z] := by simp
      have h2 : p ++ t :: n.concat z = (p ++ t :: n) ++ [z] := by simp
      rw [h1,h2,getLast?_concat,getLast?_concat]
  · rw [erase_of_not_mem ht]

/-- The tail that is left is the last of the list that is left. -/
theorem removed_tail (hok : l.getLast? = some t → l = [t]) :
    (if l.getLast? = some t then none else l.getLast?) = (l.erase t).getLast? := by
  split_ifs with hl
  · rw [hok hl]
    simp
  · rw [erase_last hl]

variable [Fintype α]

theorem queueRemove_spec (t : α) (hw : WellFormed q l) :
    ∃ r, q.queueRemove t = some r ∧ Chain r.next r.head (l.erase t) ∧
      r.tail = if l.getLast? = some t then none else l.getLast? := by
  obtain ⟨hc,hl⟩ := (wellFormed_iff q l).mp hw
  have hb : l.length < Fintype.card α+1 := Nat.lt_succ_of_le hc.nodup.length_le_card
  obtain ⟨r,hr,hch,ht,-⟩ := queueRemoveLoop_spec l [] (Fintype.card α+1) hc (by simp) hb
  exact ⟨r,hr,hch,by rw [ht,hl]; rfl⟩

theorem queueRemove_wellFormed {r : Queue α} (hw : WellFormed q l)
    (hok : l.getLast? = some t → l = [t]) (hr : q.queueRemove t = some r) :
    WellFormed r (l.erase t) := by
  obtain ⟨r',hr',hch,ht⟩ := queueRemove_spec t hw
  cases hr.symm.trans hr'
  exact (wellFormed_iff r _).mpr ⟨hch,ht.trans (removed_tail hok)⟩

/-- Taking the last of several threads out leaves a non-empty list without a tail. -/
theorem queueRemove_loses_tail (hw : WellFormed q l) (hl : l.getLast? = some t) (hne : l ≠ [t]) :
    ∃ r, q.queueRemove t = some r ∧ ¬ WellFormed r (l.erase t) := by
  obtain ⟨r,hr,hch,ht⟩ := queueRemove_spec t hw
  refine ⟨r,hr,fun hbad => ?_⟩
  have htail := ((wellFormed_iff r _).mp hbad).2
  rw [ht,if_pos hl] at htail
  have hnil : l.erase t = [] := getLast?_eq_none_iff.mp htail.symm
  have hmem : t ∈ l := mem_of_getLast? hl
  have hlen := length_erase_of_mem hmem
  rw [hnil,length_nil] at hlen
  obtain ⟨a,rfl⟩ : ∃ a, l = [a] := length_eq_one_iff.mp (by
    have hp := length_pos_of_mem hmem
    omega)
  exact hne (by simpa using hl)

omit [Fintype α] in
/-- Pushing a queued thread again cuts the list behind it or closes a cycle. -/
theorem queuePush_queued (ht : t ∈ l) : ¬ WellFormed (q.queuePush t) (l ++ [t]) := by
  intro hbad
  have hnd := ((wellFormed_iff _ _).mp hbad).1.nodup
  rw [nodup_append] at hnd
  exact hnd.2.2 t ht t (by simp) rfl

private theorem step_keeps (s : Queue α × List α) (op : Op α) (s' : Queue α × List α)
    (hw : WellFormed s.1 s.2) (hok : OpOk s.2 op) (h : step s op = some s') :
    WellFormed s'.1 s'.2 := by
  obtain ⟨q,hq,rfl⟩ := Option.map_eq_some_iff.mp h
  cases op with
  | push t => cases hq; exact queuePush_wellFormed hw hok
  | pop => cases hq; exact queuePop_wellFormed hw
  | remove t => exact queueRemove_wellFormed hw hok hq

private theorem step_breaks (s : Queue α × List α) (op : Op α) (hw : WellFormed s.1 s.2)
    (hok : ¬ OpOk s.2 op) : ∃ s', step s op = some s' ∧ ¬ WellFormed s'.1 s'.2 := by
  cases op with
  | push t => exact ⟨_,rfl,queuePush_queued (not_not.mp hok)⟩
  | pop => exact absurd trivial hok
  | remove t =>
    obtain ⟨hl,hne⟩ := Classical.not_imp.mp hok
    obtain ⟨r,hr,hbad⟩ := queueRemove_loses_tail hw hl hne
    exact ⟨(r,s.2.erase t),by simp [step,apply,fifo,hr],hbad⟩

private theorem step_completes (s : Queue α × List α) (op : Op α) (hw : WellFormed s.1 s.2)
    (hok : OpOk s.2 op) : ∃ s', step s op = some s' ∧ WellFormed s'.1 s'.2 := by
  have hs : ∃ s', step s op = some s' := by
    cases op with
    | push t | pop => exact ⟨_,rfl⟩
    | remove t =>
      obtain ⟨r,hr,_⟩ := queueRemove_spec t hw
      exact ⟨(r,s.2.erase t),by simp [step,apply,fifo,hr]⟩
  exact hs.imp fun s' hs' => ⟨hs',step_keeps s op s' hw hok hs'⟩

/-- From an empty queue, every operation returns and every state reached is a
well-formed FIFO list exactly when no step pushes a queued thread and none
removes the last of several threads. -/
theorem queue_wellFormed_iff (next : α → Option α) (ops : List (Op α)) :
    ((exec step (empty next,[]) ops).isSome ∧
      Always step (fun s => WellFormed s.1 s.2) (empty next,[]) ops) ↔
    Along step (fun s op => OpOk s.2 op) (empty next,[]) ops := by
  have h0 : WellFormed (empty next) [] := .inl ⟨rfl,rfl,rfl⟩
  have hiff := always_iff_along (fun _ hw => hw) step_keeps step_breaks (empty next,[]) ops h0
  exact ⟨fun h => hiff.mp h.2,fun h =>
    ⟨Option.isSome_iff_exists.mpr (h.completes h0 step_completes),hiff.mpr h⟩⟩

omit [DecidableEq α] [Fintype α] in
/-- Threads 1 and 2 are queued, 2 is removed, and the push of 3 then loses 1. -/
theorem queue_push_loses_thread :
    ∃ q : Queue (Fin 4), exec step (empty (fun _ => none),[])
        [.push 1,.push 2,.remove 2,.push 3] = some (q,[1,3]) ∧
      q.head = some 3 ∧ q.next 3 = none ∧ ¬ WellFormed q [1,3] := by
  refine ⟨_,rfl,rfl,rfl,?_⟩
  rw [wellFormed_iff]
  decide

end Queue
end Lariat.Kernel
