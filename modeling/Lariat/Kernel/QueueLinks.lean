import Lariat.Kernel.Queue
import Lariat.Kernel.Sched

/-! The lists of the scheduler as pointers: each has a head, all but the sleep list have a tail, and
all are linked through the one `next` field of a thread. -/
namespace Lariat.Kernel
open Foundation Foundation.Runs List Function

/-- The pointers of the lists, with the link fields of the threads. -/
structure Links where
  next : ThreadRef → Option ThreadRef
  head : ListRef → Option ThreadRef
  tail : ListRef → Option ThreadRef

namespace Links

section

variable (k : Links)

def queue (l : ListRef) : Queue ThreadRef := ⟨k.next,k.head l,k.tail l⟩

def setQueue (l : ListRef) (q : Queue ThreadRef) : Links :=
  ⟨q.next,update k.head l q.head,update k.tail l q.tail⟩

/-- The pointers give the lists, and no thread is in two of them. -/
structure Hold (s : Sched) : Prop where
  chain : ∀ l, Chain k.next (k.head l) (s.queue l)
  tail : ∀ l, l ≠ .sleepList → k.tail l = (s.queue l).getLast?
  apart : ∀ l, ∀ t ∈ s.queue l, ∀ m, t ∈ s.queue m → m = l

end

/-- What the functions of the scheduler do with a list. -/
inductive Op where
  | push (l : ListRef) (t : ThreadRef)
  | pop (l : ListRef)
  | remove (l : ListRef) (t : ThreadRef)
  | sleep (t : ThreadRef)

/-- The operation on lists, as the model of the scheduler has it. -/
def Op.lists (s : Sched) : Op → Sched
  | push l t => s.queuePush l t
  | pop l => (s.queuePop l).2
  | remove l t => s.queueRemove l t
  | sleep t => s.setQueue .sleepList (t :: s.queue .sleepList)

/-- The operation on pointers, as the source has it. A removal is followed for `n` links. The sleep
list has no tail, and what a removal stores there is not read. -/
def Op.links (n : Nat) (k : Links) : Op → Option Links
  | push l t => some (k.setQueue l ((k.queue l).queuePush t))
  | pop l => some (k.setQueue l (k.queue l).queuePop.2)
  | remove l t => (Queue.queueRemoveLoop t n none (k.queue l)).map (k.setQueue l)
  | sleep t => some (k.setQueue .sleepList
      ⟨update k.next t (k.head .sleepList),some t,k.tail .sleepList⟩)

/-- Pointers and lists side by side. -/
def step (n : Nat) (p : Links × Sched) (op : Op) : Option (Links × Sched) :=
  (op.links n p.1).map fun k => (k,op.lists p.2)

/-- What is put into a list is in none, and a removal tears no queue. -/
def Op.Ok (n : Nat) (s : Sched) : Op → Prop
  | push l t => l ≠ .sleepList ∧ ∀ m, t ∉ s.queue m
  | pop l => l ≠ .sleepList
  | remove l t => (s.queueRemove l t).torn = false ∧ (s.queue l).length < n
  | sleep t => ∀ m, t ∉ s.queue m

variable {k : Links} {s s' : Sched} {l : ListRef} {t : ThreadRef} {n : Nat}

section Steps

variable (h : k.Hold s)
include h

/-- A list has changed, and with it the links of the threads it had and has. -/
private theorem Hold.set {q : Queue ThreadRef} {ts : List ThreadRef} (hs : s'.queue = update s.queue l ts)
    (hc : Chain q.next q.head ts) (ht : l ≠ .sleepList → q.tail = ts.getLast?)
    (hkeep : ∀ u ∉ s.queue l, u ∉ ts → q.next u = k.next u)
    (hnew : ∀ u ∈ ts, ∀ m, u ∈ s.queue m → m = l) : (k.setQueue l q).Hold s' := by
  have hlist (m : ListRef) : Chain q.next (update k.head l q.head m) (s'.queue m) ∧
      (m ≠ .sleepList → update k.tail l q.tail m = (s'.queue m).getLast?) := by
    rw [hs]
    by_cases hm : m = l
    · subst hm
      simpa using And.intro hc ht
    · simp only [update_of_ne hm]
      refine ⟨(h.chain m).congr fun u hu => hkeep u (fun h1 => ?_) fun h1 => ?_,h.tail m⟩
      · exact hm (h.apart l u h1 m hu)
      · exact hm (hnew u h1 m hu)
  refine ⟨fun m => (hlist m).1,fun m => (hlist m).2,fun m u hu m' hu' => ?_⟩
  rw [hs] at hu hu'
  by_cases hm : m = l <;> by_cases hm' : m' = l
  · rw [hm,hm']
  · subst hm
    rw [update_self] at hu
    rw [update_of_ne hm'] at hu'
    exact hnew u hu m' hu'
  · subst hm'
    rw [update_self] at hu'
    rw [update_of_ne hm] at hu
    exact (hnew u hu' m hu).symm
  · rw [update_of_ne hm] at hu
    rw [update_of_ne hm'] at hu'
    exact h.apart m u hu m' hu'

private theorem Hold.wellFormed (hl : l ≠ .sleepList) : (k.queue l).WellFormed (s.queue l) :=
  (Queue.wellFormed_iff _ _).mpr ⟨h.chain l,h.tail l hl⟩

private theorem Hold.push (hok : (Op.push l t).Ok n s) :
    (k.setQueue l ((k.queue l).queuePush t)).Hold (s.queuePush l t) := by
  obtain ⟨hl,ht⟩ := hok
  obtain ⟨hc,htail⟩ := (Queue.wellFormed_iff _ _).mp
    (Queue.queuePush_wellFormed (h.wellFormed hl) (ht l))
  refine h.set rfl hc (fun _ => htail) (fun u hu hut => ?_) ?_
  · have hut : u ≠ t := by
      rintro rfl
      simp at hut
    rw [Queue.queuePush]
    split
    · rename_i last hlast
      have hlast : last ∈ s.queue l := mem_of_getLast? ((h.tail l hl).symm.trans hlast)
      exact (update_of_ne (ne_of_mem_of_not_mem hlast hu).symm _ _).trans (update_of_ne hut _ _)
    · exact update_of_ne hut _ _
  · refine forall_mem_append.mpr ⟨h.apart l,forall_mem_singleton.mpr fun m hm => ?_⟩
    exact absurd hm (ht m)

private theorem Hold.pop (hl : l ≠ .sleepList) :
    (k.setQueue l (k.queue l).queuePop.2).Hold (s.queuePop l).2 := by
  obtain ⟨hc,htail⟩ := (Queue.wellFormed_iff _ _).mp (Queue.queuePop_wellFormed (h.wellFormed hl))
  refine h.set ?_ hc (fun _ => htail) (fun u hu _ => ?_) fun u hu =>
    h.apart l u (mem_of_mem_tail hu)
  · unfold Sched.queuePop
    split
    · rename_i hq
      rw [hq,tail_nil,← hq,update_eq_self]
    · rename_i hq
      rw [hq]
      rfl
  · rw [Queue.queuePop]
    split
    · rfl
    · rename_i a ha
      have ha : a ∈ s.queue l := mem_of_mem_head? ((h.chain l).head.symm.trans ha)
      exact update_of_ne (ne_of_mem_of_not_mem ha hu).symm _ _

private theorem Hold.remove (hok : (Op.remove l t).Ok n s) :
    ∃ q, Queue.queueRemoveLoop t n none (k.queue l) = some q ∧
      (k.setQueue l q).Hold (s.queueRemove l t) := by
  obtain ⟨htorn,hn⟩ := hok
  obtain ⟨q,hq,hc,ht,hkeep⟩ := Queue.queueRemoveLoop_spec (t := t) (q := k.queue l) (s.queue l) [] n
    (h.chain l) not_mem_nil hn
  refine ⟨q,hq,h.set rfl hc (fun hl => ?_) (fun u hu _ => hkeep u hu) fun u hu =>
    h.apart l u (mem_of_mem_erase hu)⟩
  rw [← Queue.removed_tail,ht]
  · exact congrArg (ite _ none) (h.tail l hl)
  · intro hlast
    have htorn : s.torn = false ∧ s.queue l = [t] := by
      simpa [Sched.queueRemove,hl,hlast] using htorn
    exact htorn.2

private theorem Hold.sleep (ht : ∀ m, t ∉ s.queue m) :
    (k.setQueue .sleepList ⟨update k.next t (k.head .sleepList),some t,k.tail .sleepList⟩).Hold
      (s.setQueue .sleepList (t :: s.queue .sleepList)) := by
  refine h.set rfl ⟨rfl,?_⟩ (fun hl => absurd rfl hl)
    (fun u _ hu => update_of_ne (ne_of_not_mem_cons hu) _ _) ?_
  · dsimp only
    rw [update_self]
    exact (h.chain _).frame (ht _) _
  · exact forall_mem_cons.mpr ⟨fun m hm => absurd hm (ht m),h.apart _⟩

private theorem Hold.step {op : Op} (hok : op.Ok n s) : ∃ p, step n (k,s) op = some p ∧ p.1.Hold p.2 := by
  cases op with
  | push l t => exact ⟨_,rfl,h.push hok⟩
  | pop l => exact ⟨_,rfl,h.pop hok⟩
  | remove l t =>
    obtain ⟨q,hq,hh⟩ := h.remove hok
    exact ⟨_,by rw [Links.step,Op.links,hq]; rfl,hh⟩
  | sleep t => exact ⟨_,rfl,h.sleep hok⟩

/-- Every run of such operations completes on the pointers, and all along they give the lists. -/
theorem lists_linked {ops : List Op} (hok : Along (step n) (fun p op => op.Ok n p.2) (k,s) ops) :
    (∃ p, exec (step n) (k,s) ops = some p) ∧ Always (step n) (fun p => p.1.Hold p.2) (k,s) ops := by
  refine ⟨hok.completes (I := fun p => p.1.Hold p.2) h fun _ _ hp hop => hp.step hop,
    always_of_along (fun _ hp => hp) ?_ _ _ h hok⟩
  intro p op p' hp hop hs
  obtain ⟨r,hr,hh⟩ := Hold.step hp hop
  cases hs.symm.trans hr
  exact hh

end Steps

/-- All pointers null. -/
def empty : Links := ⟨fun _ => none,fun _ => none,fun _ => none⟩

private theorem empty_hold : empty.Hold {} :=
  ⟨fun _ => rfl,fun _ _ => rfl,fun _ _ h => absurd h not_mem_nil⟩

/-- A thread is made ready, another goes to sleep, and both are taken out again. -/
theorem lists_linked_sleeper :
    (∃ p, exec (step 2) (empty,{}) [.push .readyQueue (.heap 1),.sleep (.heap 2),.pop .readyQueue,
      .remove .sleepList (.heap 2)] = some p) ∧
    Always (step 2) (fun p => p.1.Hold p.2) (empty,{}) [.push .readyQueue (.heap 1),.sleep (.heap 2),
      .pop .readyQueue,.remove .sleepList (.heap 2)] := by
  refine lists_linked empty_hold (.cons ⟨nofun,fun _ => not_mem_nil⟩ rfl (.cons (fun m => ?_) rfl
    (.cons nofun rfl (.cons ⟨by decide,by decide⟩ rfl trivial))))
  cases m with
  | waitQueue q => exact not_mem_nil
  | readyQueue | sleepList => decide

end Links
end Lariat.Kernel
