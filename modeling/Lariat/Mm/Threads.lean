import Lariat.Foundation.Runs
import Lariat.Mm.Calls
import Mathlib.Algebra.Order.Group.Multiset
import Mathlib.Algebra.Order.Sub.Basic

/-! Which thread runs on which page table: the counter of a shared address space through clone,
fork, execve, exit and waitpid. Page tables are known by the frame of their top level. -/
namespace Lariat.Mm

open Foundation.Runs Function Finset Multiset Option

/-- The part of a thread that says what address space it runs on. -/
structure Thread where
  cr3 : Nat := 0
  mmCount : Option Nat := none
  zombie : Bool := false
deriving DecidableEq

/-- The threads and their counters, with a record of the page tables made, of those destroyed and
of those of which only the top-level frame was given back. -/
structure Books where
  live : Finset Nat
  thread : Nat → Thread
  counts : Nat → Int
  nextTid : Nat
  nextCount : Nat
  made : Multiset Nat
  destroyed : Multiset Nat
  dropped : Multiset Nat
  live_lt : ∀ t ∈ live, t < nextTid

namespace Books

variable (b : Books)

def setThread (t : Nat) (th : Thread) : Books :=
  { b with thread := update b.thread t th }

def setCount (c : Nat) (n : Int) : Books := { b with counts := update b.counts c n }

def make (f : Nat) : Books := { b with made := f ::ₘ b.made }

def vmmDestroyPagetable (f : Nat) : Books := { b with destroyed := f ::ₘ b.destroyed }

def drop (f : Nat) : Books := { b with dropped := f ::ₘ b.dropped }

/-- A thread enters the scheduler. -/
def enqueue (th : Thread) : Books where
  live := insert b.nextTid b.live
  thread := update b.thread b.nextTid th
  counts := b.counts
  nextTid := b.nextTid+1
  nextCount := b.nextCount
  made := b.made
  destroyed := b.destroyed
  dropped := b.dropped
  live_lt t ht := by
    rcases mem_insert.mp ht with rfl | ht
    · exact Nat.lt_succ_self _
    · exact Nat.lt_succ_of_lt (b.live_lt t ht)

/-- A thread leaves it. -/
def remove (t : Nat) : Books :=
  { b with
    live := b.live.erase t
    live_lt := fun u hu => b.live_lt u (Finset.mem_of_mem_erase hu) }

/-- `process_create_user`, on table `f` if there is memory for one. -/
def processCreateUser (f : Option Nat) (luck : Luck) : Books :=
  match f with
  | none => b
  | some f =>
    if luck.all then (b.make f).enqueue { cr3 := f } else (b.make f).vmmDestroyPagetable f

/-- A child with the counter `mm` on table `f`, a copy of the parent's if there is memory for one. -/
def copied (t : Nat) (mm f : Option Nat) (ok clean : Bool) : Books :=
  match f with
  | none => b
  | some f =>
    if ok then (b.make f).enqueue { b.thread t with cr3 := f, mmCount := mm }
    else if clean then (b.make f).vmmDestroyPagetable f
    else (b.make f).drop f

/-- `process_fork`. The child is a copy of the parent's thread, its counter included. -/
def processFork (t : Nat) (f : Option Nat) (luck : Luck) : Books :=
  if (b.thread t).cr3 = 0 then b else b.copied t (b.thread t).mmCount f luck.all false

/-- The parent's counter, made when it first shares its address space. -/
def promote (t c : Nat) : Books :=
  ({ b with nextCount := c + 1 }.setCount c 1).setThread t { b.thread t with mmCount := some c }

/-- The second half of a clone that shares the address space. -/
def share (t c : Nat) (luck : Luck) : Books :=
  let b := b.setCount c (b.counts c + 1)
  if luck.all then b.enqueue { b.thread t with mmCount := some c }
  else b.setCount c (b.counts c - 1)

/-- `process_clone`, with CLONE_VM or without. -/
def processClone (t : Nat) (shareVm : Bool) (f : Option Nat) (luck : Luck) : Books :=
  if (b.thread t).cr3 = 0 then b
  else if shareVm then
    match (b.thread t).mmCount with
    | some c => b.share t c luck
    | none => if luck.counter then (b.promote t b.nextCount).share t b.nextCount luck else b
  else b.copied t none f luck.all (luck.kstack && luck.thread)

/-- `elf_execve`, which moves to table `f` or keeps its own when it gets none. -/
def elfExecve (t : Nat) (f : Option Nat) : Books :=
  if (b.thread t).cr3 = 0 then b
  else
    match f with
    | none => b
    | some f =>
      match (b.thread t).mmCount with
      | some c =>
        ((b.make f).setCount c (b.counts c - 1)).setThread t
          { b.thread t with cr3 := f, mmCount := none }
      | none =>
        ((b.make f).setThread t { b.thread t with cr3 := f }).vmmDestroyPagetable (b.thread t).cr3

/-- The part of `sys_waitpid` that reaps a zombie. -/
def reap (t : Nat) : Books :=
  if (b.thread t).cr3 = 0 then b.remove t
  else
    match (b.thread t).mmCount with
    | none => (b.remove t).vmmDestroyPagetable (b.thread t).cr3
    | some c =>
      let b' := (b.remove t).setCount c (b.counts c - 1)
      if b.counts c - 1 = 0 then b'.vmmDestroyPagetable (b.thread t).cr3 else b'

/-- The page allocator hands out no frame that is in use. -/
def Unused (f : Nat) : Prop := f ≠ 0 ∧ f ∉ b.made - (b.destroyed+b.dropped)

def Runs (t : Nat) : Prop := t ∈ b.live ∧ (b.thread t).zombie = false

instance (f : Nat) : Decidable (b.Unused f) := inferInstanceAs (Decidable (_ ∧ _))

instance (t : Nat) : Decidable (b.Runs t) := inferInstanceAs (Decidable (_ ∧ _))

/-- The threads on a table. -/
def users (r : Nat) : Finset Nat := b.live.filter fun u => (b.thread u).cr3 = r

/-- The tables threads run on. -/
def spaces : Finset Nat := (b.live.image fun u => (b.thread u).cr3).erase 0

end Books

inductive ThreadEvent
  | create (f : Option Nat) (luck : Luck)
  | clone (t : Nat) (shareVm : Bool) (f : Option Nat) (luck : Luck)
  | fork (t : Nat) (f : Option Nat) (luck : Luck)
  | execve (t : Nat) (f : Option Nat)
  | exit (t : Nat)
  | waitpid (t : Nat)

def ThreadEvent.run (b : Books) : ThreadEvent → Books
  | .create f luck => b.processCreateUser f luck
  | .clone t shareVm f luck => b.processClone t shareVm f luck
  | .fork t f luck => b.processFork t f luck
  | .execve t f => b.elfExecve t f
  | .exit t => b.setThread t { b.thread t with zombie := true }
  | .waitpid t => b.reap t

/-- A running thread makes the call, a zombie is waited for, and the table a call gets, if any, is
one that is not in use. -/
def ThreadEvent.Enabled (b : Books) : ThreadEvent → Prop
  | .create f _ => ∀ g ∈ f, b.Unused g
  | .clone t _ f _ | .fork t f _ | .execve t f => b.Runs t ∧ ∀ g ∈ f, b.Unused g
  | .exit t => b.Runs t
  | .waitpid t => t ∈ b.live ∧ (b.thread t).zombie

instance (b : Books) : DecidablePred fun e : ThreadEvent => e.Enabled b
  | .create f _ => inferInstanceAs (Decidable (∀ g ∈ f, b.Unused g))
  | .clone t _ f _ => inferInstanceAs (Decidable (b.Runs t ∧ ∀ g ∈ f, b.Unused g))
  | .fork t f _ => inferInstanceAs (Decidable (b.Runs t ∧ ∀ g ∈ f, b.Unused g))
  | .execve t f => inferInstanceAs (Decidable (b.Runs t ∧ ∀ g ∈ f, b.Unused g))
  | .exit t => inferInstanceAs (Decidable (b.Runs t))
  | .waitpid t => inferInstanceAs (Decidable (t ∈ b.live ∧ (b.thread t).zombie))

def threadStep (b : Books) (e : ThreadEvent) : Option Books :=
  if e.Enabled b then some (e.run b) else none

/-- A counter counts the threads on the table it was made for, and every table made was destroyed
once, or is one that a thread runs on and was not. -/
structure Counted (b : Books) : Prop where
  count : ∀ t ∈ b.live, ∀ c, (b.thread t).mmCount = some c →
    b.counts c = (b.users (b.thread t).cr3).card
  same : ∀ t ∈ b.live, ∀ u ∈ b.live, ∀ c, (b.thread t).mmCount = some c →
    (b.thread u).mmCount = some c → (b.thread u).cr3 = (b.thread t).cr3
  tables : b.made = b.destroyed+b.spaces.val

/-- What carries the counts along a run. -/
structure Books.Sound (b : Books) : Prop extends Counted b where
  known : ∀ t ∈ b.live, ∀ c, (b.thread t).mmCount = some c → c < b.nextCount
  user : ∀ t ∈ b.live, ∀ c, (b.thread t).mmCount = some c → (b.thread t).cr3 ≠ 0
  shared : ∀ t ∈ b.live, ∀ u ∈ b.live, u ≠ t → (b.thread t).cr3 ≠ 0 →
    (b.thread u).cr3 = (b.thread t).cr3 →
    (b.thread u).mmCount = (b.thread t).mmCount ∧ (b.thread t).mmCount ≠ none
  kept : b.dropped = 0

namespace Books

variable {b : Books} {t u f c r : Nat} {th : Thread}

theorem mem_users : u ∈ b.users r ↔ u ∈ b.live ∧ (b.thread u).cr3 = r := Finset.mem_filter

theorem mem_spaces : r ∈ b.spaces ↔ r ≠ 0 ∧ ∃ u ∈ b.live, (b.thread u).cr3 = r := by
  rw [spaces,mem_erase,mem_image]

/-- A table not in use is nobody's. -/
theorem Sound.unused (h : b.Sound) : b.Unused f ↔ f ≠ 0 ∧ f ∉ b.spaces := by
  rw [Unused,h.kept,add_zero,h.tables,add_tsub_cancel_left]
  rfl

section

variable {b' : Books} (hcr3 : ∀ u ∈ b.live, (b'.thread u).cr3 = (b.thread u).cr3) (hlive : b'.live = b.live)
include hcr3 hlive

theorem spaces_congr : b'.spaces = b.spaces := by
  rw [spaces,spaces,hlive,image_congr hcr3]

theorem users_congr : b'.users r = b.users r := by
  rw [users,users,hlive]
  exact filter_congr fun u hu => by rw [hcr3 u hu]

end

section Transfer

variable {b' : Books}

/-- The users of a table count with one counter. -/
theorem Sound.counter {w d : Nat} (h : b.Sound) (hu : u ∈ b.live) (hw : w ∈ b.live)
    (hc : (b.thread u).mmCount = some c) (hd : (b.thread w).mmCount = some d)
    (heq : (b.thread u).cr3 = (b.thread w).cr3) : d = c := by
  by_cases huw : u = w
  · subst huw
    exact Option.some.inj (hd.symm.trans hc)
  · have hsh := (h.shared w hw u hu huw (h.user w hw d hd) heq).1
    rw [hc,hd] at hsh
    exact (Option.some.inj hsh).symm

/-- A thread without a counter is alone. -/
theorem Sound.alone (h : b.Sound) (ht : t ∈ b.live) (h0 : (b.thread t).cr3 ≠ 0)
    (hmm : (b.thread t).mmCount = none) :
    ∀ u ∈ b.live, (b.thread u).cr3 = (b.thread t).cr3 → u = t := by
  intro u hu heq
  by_contra hne
  exact (h.shared t ht u hu hne h0 heq).2 hmm

/-- What is left to show where every thread runs on what one ran on before, or, one of them, alone. -/
theorem Sound.transfer (h : b.Sound)
    (hlike : ∀ v ∈ b'.live, (∃ w ∈ b.live, (b'.thread v).cr3 = (b.thread w).cr3 ∧
        (b'.thread v).mmCount = (b.thread w).mmCount ∧ (w = v ∨ (b.thread w).mmCount ≠ none)) ∨
      v = t ∧ (∀ c, (b'.thread v).mmCount = some c →
        c = b.nextCount ∧ c < b'.nextCount ∧ (b'.thread v).cr3 ≠ 0) ∧
      ∀ v' ∈ b'.live, v' ≠ v → (b'.thread v').cr3 ≠ (b'.thread v).cr3)
    (hdrop : b'.dropped = b.dropped) (hnext : b.nextCount ≤ b'.nextCount)
    (hcount : ∀ v ∈ b'.live, ∀ c, (b'.thread v).mmCount = some c →
      b'.counts c = (b'.users (b'.thread v).cr3).card)
    (htables : b'.made = b'.destroyed+b'.spaces.val) : b'.Sound := by
  have hold {v c : Nat} (hv : v ∈ b'.live) (hc : (b'.thread v).mmCount = some c) :
      (∃ w ∈ b.live, (b'.thread v).cr3 = (b.thread w).cr3 ∧ (b.thread w).mmCount = some c) ∨
        v = t ∧ c = b.nextCount ∧ c < b'.nextCount ∧ (b'.thread v).cr3 ≠ 0 := by
    rcases hlike v hv with ⟨w,hw,hr,hm,-⟩ | ⟨hvt,hnew,-⟩
    · exact .inl ⟨w,hw,hr,hm ▸ hc⟩
    · exact .inr ⟨hvt,hnew c hc⟩
  refine ⟨⟨hcount,?_,htables⟩,?_,?_,?_,by rw [hdrop,h.kept]⟩
  · intro v hv v' hv' c hc hc'
    rcases hold hv hc with ⟨w,hw,hr,hc⟩ | ⟨rfl,rfl,-⟩
    · rcases hold hv' hc' with ⟨w',hw',hr',hc'⟩ | ⟨-,rfl,-⟩
      · rw [hr,hr']
        exact h.same w hw w' hw' c hc hc'
      · exact absurd (h.known w hw _ hc) (lt_irrefl _)
    · rcases hold hv' hc' with ⟨w',hw',-,hc'⟩ | ⟨rfl,-⟩
      · exact absurd (h.known w' hw' _ hc') (lt_irrefl _)
      · rfl
  · intro v hv c hc
    rcases hold hv hc with ⟨w,hw,-,hc⟩ | ⟨-,-,hlt,-⟩
    · exact (h.known w hw c hc).trans_le hnext
    · exact hlt
  · intro v hv c hc
    rcases hold hv hc with ⟨w,hw,hr,hc⟩ | ⟨-,-,-,h0⟩
    · rw [hr]
      exact h.user w hw c hc
    · exact h0
  · intro v hv v' hv' hne h0 heq
    rcases hlike v hv with ⟨w,hw,hr,hm,hor⟩ | ⟨-,-,halone⟩
    · rcases hlike v' hv' with ⟨w',hw',hr',hm',hor'⟩ | ⟨-,-,halone⟩
      · rw [hr] at h0
        rw [hr,hr'] at heq
        rw [hm,hm']
        by_cases hww : w' = w
        · subst hww
          refine ⟨rfl,?_⟩
          rcases hor with rfl | hor
          · exact hor'.resolve_left (Ne.symm hne)
          · exact hor
        · exact h.shared w hw w' hw' hww h0 heq
      · exact absurd heq.symm (halone v hv (Ne.symm hne))
    · exact absurd heq (halone v' hv' hne)

end Transfer

/-- Thread `t` joins the others as `th`. -/
structure Joins (b b' : Books) (t : Nat) (th : Thread) : Prop where
  new : t ∉ b.live
  live : b'.live = insert t b.live
  here : b'.thread t = th
  old : ∀ u ∈ b.live, b'.thread u = b.thread u

section Joins

variable {b' : Books}

theorem Joins.mem (h : Joins b b' t th) : u ∈ b'.live ↔ u = t ∨ u ∈ b.live := by
  rw [h.live,mem_insert]

theorem Joins.users (h : Joins b b' t th) (r : Nat) :
    b'.users r = if th.cr3 = r then insert t (b.users r) else b.users r := by
  have hold : (b.live.filter fun u => (b'.thread u).cr3 = r) = b.users r :=
    filter_congr fun u hu => by rw [h.old u hu]
  rw [Books.users,h.live,filter_insert,h.here,hold]

theorem Joins.spaces (h : Joins b b' t th) (h0 : th.cr3 ≠ 0) :
    b'.spaces = insert th.cr3 b.spaces := by
  have hold : (b.live.image fun u => (b'.thread u).cr3) = b.live.image fun u => (b.thread u).cr3 :=
    image_congr fun u hu => congrArg Thread.cr3 (h.old u hu)
  rw [Books.spaces,h.live,image_insert,h.here,hold,erase_insert_of_ne h0,Books.spaces]

section

variable (h : b.Sound) (hdest : b'.destroyed = b.destroyed) (hdrop : b'.dropped = b.dropped)
  (hnext : b'.nextCount = b.nextCount)
include h hdest hdrop hnext

theorem Sound.joinOwn {p : Thread} (hj : Joins b b' t p) (h0 : p.cr3 ≠ 0) (hnew : p.cr3 ∉ b.spaces)
    (hmm : p.mmCount = none) (hmade : b'.made = p.cr3 ::ₘ b.made) (hcounts : b'.counts = b.counts) :
    b'.Sound := by
  have hold {u : Nat} (hu : u ∈ b.live) (hu0 : (b.thread u).cr3 ≠ 0) : (b.thread u).cr3 ≠ p.cr3 :=
    fun h1 => hnew (mem_spaces.mpr ⟨by rw [← h1]; exact hu0,u,hu,h1⟩)
  refine h.transfer (t := t) (fun v hv => ?_) hdrop hnext.ge (fun v hv c hc => ?_) ?_
  · rcases hj.mem.mp hv with rfl | hv
    · refine .inr ⟨rfl,fun c hc => ?_,fun v' hv' hne heq => ?_⟩
      · rw [hj.here,hmm] at hc
        cases hc
      · have hv' := (hj.mem.mp hv').resolve_left hne
        rw [hj.here,hj.old v' hv'] at heq
        exact hold hv' (by rw [heq]; exact h0) heq
    · exact .inl ⟨v,hv,by rw [hj.old v hv],by rw [hj.old v hv],.inl rfl⟩
  · -- a thread with a counter is an old one
    rcases hj.mem.mp hv with rfl | hv
    · rw [hj.here,hmm] at hc
      cases hc
    · rw [hj.old v hv] at hc ⊢
      rw [hcounts,h.count v hv c hc,hj.users,
        if_neg (hold hv (h.user v hv c hc)).symm]
  · rw [hmade,hdest,hj.spaces h0,insert_val_of_notMem hnew,h.tables,add_cons]

theorem Sound.joinShared (hj : Joins b b' t th) (hu : u ∈ b.live)
    (hc : (b.thread u).mmCount = some c) (hcr3 : th.cr3 = (b.thread u).cr3)
    (hmm : th.mmCount = some c) (hmade : b'.made = b.made)
    (hcounts : b'.counts = update b.counts c (b.counts c + 1)) : b'.Sound := by
  have h0 : th.cr3 ≠ 0 := by
    rw [hcr3]
    exact h.user u hu c hc
  have hin : th.cr3 ∈ b.spaces := mem_spaces.mpr ⟨h0,u,hu,hcr3.symm⟩
  -- whatever is known of the newcomer is known of the thread it shares with
  have hlike {v : Nat} (hv : v ∈ b'.live) : ∃ w ∈ b.live, (b'.thread v).cr3 = (b.thread w).cr3 ∧
      (b'.thread v).mmCount = (b.thread w).mmCount ∧ (w = v ∨ (b.thread w).mmCount ≠ none) := by
    rcases hj.mem.mp hv with rfl | hv
    · exact ⟨u,hu,by rw [hj.here,hcr3],by rw [hj.here,hmm,hc],.inr (by rw [hc]; exact nofun)⟩
    · exact ⟨v,hv,by rw [hj.old v hv],by rw [hj.old v hv],.inl rfl⟩
  refine h.transfer (t := t) (fun v hv => .inl (hlike hv)) hdrop hnext.ge (fun v hv d hd => ?_) ?_
  · obtain ⟨w,hw,hr,hm,-⟩ := hlike hv
    rw [hm] at hd
    rw [hr,hcounts]
    by_cases hdc : d = c
    · subst hdc
      have hwu : th.cr3 = (b.thread w).cr3 := hcr3.trans (h.same w hw u hu d hd hc)
      have hcard : t ∉ b.users th.cr3 := fun h1 => hj.new (mem_users.mp h1).1
      rw [update_self,← hwu,hj.users,if_pos rfl,card_insert_of_notMem hcard,
        h.count w hw d hd,hwu]
      rfl
    · rw [update_of_ne hdc,h.count w hw d hd,hj.users,if_neg]
      exact fun heq => hdc (h.counter hu hw hc hd (hcr3.symm.trans heq))
  · rw [hmade,hdest,hj.spaces h0,insert_eq_of_mem hin]
    exact h.tables

end

end Joins

section Remove

theorem remove_users : (b.remove t).users r = (b.users r).erase t := by
  ext u
  rw [mem_erase,mem_users,mem_users]
  exact and_congr_left' mem_erase |>.trans and_assoc

theorem remove_spaces_kept (h : (b.thread t).cr3 = 0 ∨ ∃ u ∈ b.live, u ≠ t ∧
    (b.thread u).cr3 = (b.thread t).cr3) : (b.remove t).spaces = b.spaces := by
  ext r
  rw [mem_spaces,mem_spaces]
  refine and_congr_right fun hr => ⟨?_,?_⟩
  · rintro ⟨u,hu,hcr3⟩
    exact ⟨u,Finset.mem_of_mem_erase hu,hcr3⟩
  · rintro ⟨u,hu,rfl⟩
    by_cases hut : u = t
    · subst hut
      obtain ⟨v,hv,hne,hsame⟩ := h.resolve_left hr
      exact ⟨v,mem_erase.mpr ⟨hne,hv⟩,hsame⟩
    · exact ⟨u,mem_erase.mpr ⟨hut,hu⟩,rfl⟩

theorem remove_spaces_last (h : ∀ u ∈ b.live, (b.thread u).cr3 = (b.thread t).cr3 → u = t) :
    (b.remove t).spaces = b.spaces.erase (b.thread t).cr3 := by
  ext r
  rw [mem_erase,mem_spaces,mem_spaces]
  constructor
  · rintro ⟨hr,u,hu,rfl⟩
    obtain ⟨hut,hu⟩ := mem_erase.mp hu
    exact ⟨fun h1 => hut (h u hu h1),hr,u,hu,rfl⟩
  · rintro ⟨hne,hr,u,hu,rfl⟩
    exact ⟨hr,u,mem_erase.mpr ⟨fun h1 => hne (by rw [h1]),hu⟩,rfl⟩

section

variable (h : b.Sound)
include h

theorem Sound.removed {b' : Books} (hlive : b'.live = b.live.erase t)
    (hthread : b'.thread = b.thread) (hdrop : b'.dropped = b.dropped)
    (hnext : b'.nextCount = b.nextCount)
    (hcount : ∀ u ∈ b.live, u ≠ t → ∀ c, (b.thread u).mmCount = some c → b'.counts c = ((b.users (b.thread u).cr3).erase t).card)
    (htables : b'.made = b'.destroyed + (b.remove t).spaces.val) : b'.Sound := by
  have hmem {u : Nat} (hu : u ∈ b'.live) : u ≠ t ∧ u ∈ b.live := by
    rw [hlive] at hu
    exact mem_erase.mp hu
  have hcr3 : ∀ u ∈ (b.remove t).live, (b'.thread u).cr3 = ((b.remove t).thread u).cr3 := by
    rw [hthread]
    exact fun _ _ => rfl
  refine h.transfer (t := t) (fun u hu => .inl ⟨u,(hmem hu).2,?_⟩) hdrop hnext.ge (fun u hu c hc => ?_) ?_
  · rw [hthread]
    exact ⟨rfl,rfl,.inl rfl⟩
  · rw [hthread] at hc ⊢
    rw [hcount u (hmem hu).2 (hmem hu).1 c hc,users_congr hcr3 hlive,remove_users]
  · rw [htables,spaces_congr hcr3 hlive]

theorem Sound.last (ht : t ∈ b.live) (hc : (b.thread t).mmCount = some c) (h1 : b.counts c = 1) :
    ∀ u ∈ b.live, (b.thread u).cr3 = (b.thread t).cr3 → u = t := by
  intro u hu heq
  have hcard : (b.users (b.thread t).cr3).card = 1 := by
    have := h.count t ht c hc
    omega
  obtain ⟨v,hv⟩ := Finset.card_eq_one.mp hcard
  have hu' : u ∈ b.users (b.thread t).cr3 := mem_users.mpr ⟨hu,heq⟩
  have ht' : t ∈ b.users (b.thread t).cr3 := mem_users.mpr ⟨ht,rfl⟩
  rw [hv,Finset.mem_singleton] at hu' ht'
  exact hu'.trans ht'.symm

theorem Sound.more (ht : t ∈ b.live) (hc : (b.thread t).mmCount = some c) (h1 : b.counts c ≠ 1) :
    ∃ u ∈ b.live, u ≠ t ∧ (b.thread u).cr3 = (b.thread t).cr3 := by
  have ht' : t ∈ b.users (b.thread t).cr3 := mem_users.mpr ⟨ht,rfl⟩
  have hpos := card_pos.mpr ⟨t,ht'⟩
  have hcount := h.count t ht c hc
  obtain ⟨u,hu,hne⟩ := exists_mem_ne (s := b.users (b.thread t).cr3) (by omega) t
  obtain ⟨hlive,heq⟩ := mem_users.mp hu
  exact ⟨u,hlive,hne,heq⟩

theorem Sound.removed_tables (ht : t ∈ b.live) (h0 : (b.thread t).cr3 ≠ 0)
    (hlast : ∀ u ∈ b.live, (b.thread u).cr3 = (b.thread t).cr3 → u = t) :
    b.made = ((b.thread t).cr3 ::ₘ b.destroyed) + (b.remove t).spaces.val := by
  have hin : (b.thread t).cr3 ∈ b.spaces := mem_spaces.mpr ⟨h0,t,ht,rfl⟩
  rw [h.tables,remove_spaces_last hlast,erase_val,cons_add,← add_cons,
    cons_erase hin]

/-- No other thread counts the address space of one that leaves it. -/
theorem Sound.count_other (hu : u ∈ b.live) (hc : (b.thread u).mmCount = some c)
    (hne : (b.thread t).cr3 ≠ (b.thread u).cr3) :
    b.counts c = ((b.users (b.thread u).cr3).erase t).card := by
  rw [h.count u hu c hc,erase_eq_of_notMem fun h1 => hne (mem_users.mp h1).2]

theorem Sound.count_less (ht : t ∈ b.live) (hc : (b.thread t).mmCount = some c) {d : Nat}
    (hu : u ∈ b.live) (hd : (b.thread u).mmCount = some d) : update b.counts c (b.counts c - 1) d =
      ((b.users (b.thread u).cr3).erase t).card := by
  by_cases hdc : d = c
  · subst hdc
    have ht' : t ∈ b.users (b.thread u).cr3 := mem_users.mpr ⟨ht,h.same u hu t ht d hd hc⟩
    have hpos := card_pos.mpr ⟨t,ht'⟩
    rw [update_self,h.count u hu d hd,Finset.card_erase_of_mem ht']
    omega
  · rw [update_of_ne hdc]
    exact h.count_other hu hd fun heq => hdc (h.counter ht hu hc hd heq)

theorem Sound.reap (ht : t ∈ b.live) : (b.reap t).Sound := by
  rw [Books.reap]
  split_ifs with h0
  · refine h.removed rfl rfl rfl rfl (fun u hu _ c hc => ?_) ?_
    · exact h.count_other hu hc (by rw [h0]; exact (h.user u hu c hc).symm)
    · rw [remove_spaces_kept (.inl h0)]
      exact h.tables
  cases hm : (b.thread t).mmCount with
  | none =>
    have hlast := h.alone ht h0 hm
    refine h.removed rfl rfl rfl rfl (fun u hu hne c hc => ?_) (h.removed_tables ht h0 hlast)
    exact h.count_other hu hc fun heq => hne (hlast u hu heq.symm)
  | some c =>
    dsimp only
    split_ifs with h1
    · have hlast := h.last ht hm (by omega)
      exact h.removed rfl rfl rfl rfl (fun u hu _ d hd => h.count_less ht hm hu hd)
        (h.removed_tables ht h0 hlast)
    · refine h.removed rfl rfl rfl rfl (fun u hu _ d hd => h.count_less ht hm hu hd) ?_
      rw [remove_spaces_kept (.inr (h.more ht hm (by omega)))]
      exact h.tables

end

end Remove

section Calls

variable {luck : Luck}

/-- A thread enqueued after changes to counters and tables only. -/
theorem enqueue_joins (b' : Books) (hlive : b'.live = b.live) (hthread : b'.thread = b.thread)
    (th : Thread) : Joins b (b'.enqueue th) b'.nextTid th where
  new h := by
    rw [← hlive] at h
    exact lt_irrefl _ (b'.live_lt _ h)
  live := by
    show insert b'.nextTid b'.live = _
    rw [hlive]
  here := update_self _ _ _
  old u hu := by
    rw [← hlive] at hu
    show update b'.thread b'.nextTid th u = _
    rw [update_of_ne (ne_of_lt (b'.live_lt u hu)),hthread]

theorem Sound.born (h : b.Sound) (hf : b.Unused f) (hcr3 : th.cr3 = f) (hmm : th.mmCount = none) :
    ((b.make f).enqueue th).Sound := by
  subst hcr3
  have hj : Joins b ((b.make th.cr3).enqueue th) b.nextTid th :=
    enqueue_joins (b := b) (b.make th.cr3) rfl rfl th
  exact h.joinOwn rfl rfl rfl hj hf.1 (h.unused.mp hf).2 hmm rfl rfl

theorem Sound.undone (h : b.Sound) (f : Nat) : ((b.make f).vmmDestroyPagetable f).Sound := by
  refine { h with tables := ?_ }
  show f ::ₘ b.made = (f ::ₘ b.destroyed) + b.spaces.val
  rw [h.tables,cons_add]

variable {g : Option Nat}

theorem Sound.processCreateUser (h : b.Sound) (hg : ∀ f ∈ g, b.Unused f) :
    (b.processCreateUser g luck).Sound := by
  cases g with
  | none => exact h
  | some f =>
    rw [Books.processCreateUser]
    split
    · exact h.born (hg f rfl) rfl rfl
    · exact h.undone f

theorem Sound.copied {mm : Option Nat} {ok clean : Bool} (h : b.Sound) (hg : ∀ f ∈ g, b.Unused f)
    (hmm : g.isSome → mm = none ∧ (ok = true ∨ clean = true)) : (b.copied t mm g ok clean).Sound := by
  cases g with
  | none => exact h
  | some f =>
    obtain ⟨rfl,hor⟩ := hmm rfl
    rw [Books.copied]
    split
    · exact h.born (hg f rfl) rfl rfl
    · rw [if_pos (hor.resolve_left ‹_›)]
      exact h.undone f

theorem Sound.processFork (h : b.Sound) (hg : ∀ f ∈ g, b.Unused f)
    (hmm : g.isSome → (b.thread t).mmCount = none ∧ luck.all) : (b.processFork t g luck).Sound := by
  rw [Books.processFork]
  split
  · exact h
  · exact h.copied hg fun hs => ⟨(hmm hs).1,.inl (hmm hs).2⟩

section

variable (h : b.Sound) (ht : t ∈ b.live)
include h ht

/-- The counter a thread gets when it first shares its address space. -/
theorem Sound.promote (h0 : (b.thread t).cr3 ≠ 0)
    (hmm : (b.thread t).mmCount = none) : (b.promote t b.nextCount).Sound := by
  have hsame (u : Nat) : ((b.promote t b.nextCount).thread u).cr3 = (b.thread u).cr3 := by
    show (update b.thread t _ u).cr3 = _
    by_cases hut : u = t
    · rw [hut,update_self]
    · rw [update_of_ne hut]
  have hold {u : Nat} (hut : u ≠ t) :
      ((b.promote t b.nextCount).thread u).mmCount = (b.thread u).mmCount :=
    congrArg Thread.mmCount (update_of_ne hut _ _)
  have hnew {c : Nat} (hc : ((b.promote t b.nextCount).thread t).mmCount = some c) :
      c = b.nextCount := by
    change (update b.thread t _ t).mmCount = some c at hc
    rw [update_self] at hc
    exact (Option.some.inj hc).symm
  have hsole := h.alone ht h0 hmm
  refine h.transfer (t := t) (fun u hu => ?_) rfl (Nat.le_succ _) (fun u hu c hc => ?_) ?_
  · by_cases hut : u = t
    · subst hut
      refine .inr ⟨rfl,fun c hc => ⟨hnew hc,?_,by rw [hsame]; exact h0⟩,fun v hv hne heq => ?_⟩
      · rw [hnew hc]
        exact Nat.lt_succ_self _
      · rw [hsame,hsame] at heq
        exact hne (hsole v hv heq)
    · exact .inl ⟨u,hu,hsame u,hold hut,.inl rfl⟩
  · rw [hsame,users_congr (b := b) (fun v _ => hsame v) rfl]
    by_cases hut : u = t
    · subst hut
      have hone : b.users (b.thread u).cr3 = {u} := by
        ext v
        rw [mem_users,Finset.mem_singleton]
        exact ⟨fun hv => hsole v hv.1 hv.2,fun hv => by rw [hv]; exact ⟨ht,rfl⟩⟩
      rw [hone,Finset.card_singleton,hnew hc]
      exact update_self _ _ _
    · rw [hold hut] at hc
      rw [← h.count u hu c hc]
      exact update_of_ne (ne_of_lt (h.known u hu c hc)) _ _
  · rw [spaces_congr (b := b) (fun v _ => hsame v) rfl]
    exact h.tables

omit h ht in
theorem setCount_back (b : Books) (c : Nat) : (b.setCount c (b.counts c + 1)).setCount c
    ((b.setCount c (b.counts c + 1)).counts c - 1) = b := by
  simp [setCount]

theorem Sound.share (hc : (b.thread t).mmCount = some c) :
    (b.share t c luck).Sound := by
  rw [Books.share]
  split
  · have hj : Joins b ((b.setCount c (b.counts c + 1)).enqueue
        { b.thread t with mmCount := some c }) b.nextTid { b.thread t with mmCount := some c } :=
      enqueue_joins (b := b) (b.setCount c (b.counts c + 1)) rfl rfl _
    exact h.joinShared rfl rfl rfl hj ht hc rfl rfl rfl rfl
  rw [setCount_back]
  exact h

theorem Sound.processClone {shareVm : Bool}
    (hg : ∀ f ∈ g, b.Unused f) (hluck : shareVm = false → g.isSome → luck.kstack ∧ luck.thread) :
    (b.processClone t shareVm g luck).Sound := by
  rw [Books.processClone.eq_def]
  by_cases h0 : (b.thread t).cr3 = 0
  · rw [if_pos h0]
    exact h
  rw [if_neg h0]
  cases shareVm with
  | true =>
    rw [if_pos rfl]
    cases hmm : (b.thread t).mmCount with
    | some c => exact h.share ht hmm
    | none =>
      dsimp only
      split
      · have hpro := h.promote ht h0 hmm
        have hc : ((b.promote t b.nextCount).thread t).mmCount = some b.nextCount := by
          show (update b.thread t _ t).mmCount = _
          rw [update_self]
        exact hpro.share ht hc
      · exact h
  | false =>
    rw [if_neg nofun]
    exact h.copied hg fun hs => ⟨rfl,.inr (by rw [(hluck rfl hs).1,(hluck rfl hs).2]; rfl)⟩

/-- execve leaves the address space as the thread's end would, and goes on with another. -/
theorem Sound.elfExecve (hg : ∀ f ∈ g, b.Unused f)
    (hmore : g.isSome → (b.thread t).mmCount ≠ none →
      ∃ u ∈ b.live, u ≠ t ∧ (b.thread u).cr3 = (b.thread t).cr3) : (b.elfExecve t g).Sound := by
  rw [Books.elfExecve.eq_def]
  split_ifs with h0
  · exact h
  cases g with
  | none => exact h
  | some f =>
    have hf := hg f rfl
    have hgone := h.reap ht
    have hnew : f ∉ (b.remove t).spaces := by
      intro h1
      obtain ⟨hr,u,hu,hcr3⟩ := mem_spaces.mp h1
      exact (h.unused.mp hf).2 (mem_spaces.mpr ⟨hr,u,Finset.mem_of_mem_erase hu,hcr3⟩)
    rw [Books.reap,if_neg h0] at hgone
    cases hmm : (b.thread t).mmCount with
    | none =>
      rw [hmm] at hgone
      refine hgone.joinOwn rfl rfl rfl
        ⟨notMem_erase t b.live,(insert_erase ht).symm,update_self _ _ _,
          fun u hu => update_of_ne (ne_of_mem_erase hu) _ _⟩
        hf.1 hnew hmm rfl rfl
    | some c =>
      obtain ⟨u,hu,hut,heq⟩ := hmore rfl (by rw [hmm]; exact nofun)
      have hne : b.counts c - 1 ≠ 0 := by
        intro h1
        exact hut (h.last ht hmm (by omega) u hu heq)
      rw [hmm] at hgone
      dsimp only at hgone
      rw [if_neg hne] at hgone
      exact hgone.joinOwn rfl rfl rfl
        ⟨notMem_erase t b.live,(insert_erase ht).symm,update_self _ _ _,
          fun u hu => update_of_ne (ne_of_mem_erase hu) _ _⟩
        hf.1 hnew rfl rfl rfl

end

/-- Which threads have ended is no matter of the counts. -/
theorem Sound.exit (h : b.Sound) (t : Nat) :
    (b.setThread t { b.thread t with zombie := true }).Sound := by
  have hsame (u : Nat) : ((b.setThread t { b.thread t with zombie := true }).thread u).cr3 =
      (b.thread u).cr3 ∧ ((b.setThread t { b.thread t with zombie := true }).thread u).mmCount =
      (b.thread u).mmCount := by
    by_cases hut : u = t
    · simp [setThread,hut]
    · simp [setThread,hut]
  refine h.transfer (t := t) (fun u hu => .inl ⟨u,hu,(hsame u).1,(hsame u).2,.inl rfl⟩) rfl le_rfl
    (fun u hu c hc => ?_) ?_
  · rw [users_congr (b := b) (fun v _ => (hsame v).1) rfl,(hsame u).1]
    exact h.count u hu c ((hsame u).2.symm.trans hc)
  · rw [spaces_congr (b := b) (fun v _ => (hsame v).1) rfl]
    exact h.tables

end Calls

end Books

/-- Calls that keep the counts: no fork by a thread that shares its address space or has, no
execve by the last user of one that was shared, and no fork or copying clone that fails for want
of a kernel stack or a thread once the tables are copied, nor a fork that fails at the descriptor
table. -/
def ThreadEvent.Sparing (b : Books) : ThreadEvent → Prop
  | .clone _ shareVm f luck => shareVm = false → f.isSome → luck.kstack ∧ luck.thread
  | .fork t f luck => f.isSome → (b.thread t).mmCount = none ∧ luck.all
  | .execve t f => f.isSome → (b.thread t).mmCount ≠ none →
      ∃ u ∈ b.live, u ≠ t ∧ (b.thread u).cr3 = (b.thread t).cr3
  | _ => True

theorem Books.Sound.step {b b' : Books} {e : ThreadEvent} (h : b.Sound) (he : e.Sparing b)
    (hs : threadStep b e = some b') : b'.Sound := by
  obtain ⟨hen,hs⟩ := ite_none_right_eq_some.mp hs
  cases hs
  cases e with
  | create f luck => exact h.processCreateUser hen
  | clone t shareVm f luck => exact h.processClone hen.1.1 hen.2 he
  | fork t f luck => exact h.processFork hen.2 he
  | execve t f => exact h.elfExecve hen.1.1 hen.2 he
  | exit t => exact h.exit t
  | waitpid t => exact h.reap hen.1

/-- In every run of such calls the counters are right and every page table is destroyed once, when
its last thread is gone. -/
theorem counts_kept {b : Books} (h : b.Sound) {es : List ThreadEvent}
    (hes : Along threadStep (fun b e => e.Sparing b) b es) : Always threadStep Counted b es :=
  always_of_along (fun _ hb => hb.toCounted) (fun _ _ _ hb he hs => hb.step he hs) b es h hes

/-- Before the first process. -/
theorem no_live_lt : ∀ t ∈ (∅ : Finset Nat), t < 0 := fun _ h => absurd h (notMem_empty _)

def noThreads : Books := ⟨∅,fun _ => {},fun _ => 0,0,0,0,0,0,no_live_lt⟩

theorem noThreads_sound : noThreads.Sound where
  count t ht := absurd ht (notMem_empty t)
  same t ht := absurd ht (notMem_empty t)
  tables := rfl
  known t ht := absurd ht (notMem_empty t)
  user t ht := absurd ht (notMem_empty t)
  shared t ht := absurd ht (notMem_empty t)
  kept := rfl

/-- A process makes a thread, which execs, ends and is waited for. -/
theorem spawned_counts : Always threadStep Counted noThreads
    [.create (some 16) {},.clone 0 true none {},.execve 1 (some 17),.exit 1,.waitpid 1] := by
  have hrun : Along threadStep (fun b e => e.Sparing b) noThreads
      [.create (some 16) {},.clone 0 true none {},.execve 1 (some 17),.exit 1,.waitpid 1] := by
    refine .cons trivial rfl (.cons nofun rfl (.cons ?_ rfl (.cons trivial rfl
      (.cons trivial rfl trivial))))
    exact fun _ _ => ⟨0,by decide,by decide,by decide⟩
  exact counts_kept noThreads_sound hrun

/-- A process that has made a thread forks: parent and child share a counter and no memory. -/
theorem fork_shares_counter : ∃ b, exec threadStep noThreads
    [.create (some 16) {},.clone 0 true none {},.fork 0 (some 17) {}] = some b ∧ ¬Counted b := by
  refine ⟨_,rfl,fun h => ?_⟩
  have hsame := h.same 0 (by decide) 2 (by decide) 0 rfl rfl
  revert hsame
  decide

end Lariat.Mm
