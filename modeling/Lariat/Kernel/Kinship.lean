import Mathlib.Data.List.Nodup
import Lariat.Kernel.Quiet

/-! The family tree, and what the adoption of orphans by the reaper does to it. -/
namespace Lariat.Kernel
open List
namespace Sched

theorem kin_makeReady (s : Sched) (t u : ThreadRef) :
    kin ((s.makeReady t).thread u) = kin (s.thread u) := by
  rw [makeReady_thread]
  split_ifs with h
  · rw [h]; rfl
  · rfl

/-- The family of `u` after `rp` has adopted `chs`. -/
def adoptedKin (rp : ThreadRef) (chs : List ThreadRef) (u : ThreadRef) (r : Thread) :
    Option ThreadRef × List ThreadRef × Bool × BitVec 32 :=
  (if u ∈ chs then some rp else r.parent,if u = rp then chs.reverse ++ r.children else r.children,
    r.waited,r.tid)

private theorem adoptChild_kin (rp ch : ThreadRef) (s : Sched) :
    (adoptChild rp s ch).allThreads = s.allThreads ∧ (adoptChild rp s ch).reaper = s.reaper ∧
    ∀ u, kin ((adoptChild rp s ch).thread u) = adoptedKin rp [ch] u (s.thread u) := by
  set m := (s.modify ch fun r => { r with parent := some rp }).modify rp fun r =>
    { r with children := ch :: r.children } with hm
  have hkin : ∀ u, kin (m.thread u) = adoptedKin rp [ch] u (s.thread u) := by
    intro u
    rw [hm,modify_thread,modify_thread,modify_thread]
    by_cases h1 : u = rp
    · subst h1
      by_cases h2 : u = ch <;> simp [kin,adoptedKin,h2]
    · by_cases h2 : u = ch
      · subst h2
        simp [kin,adoptedKin,h1]
      · simp [kin,adoptedKin,h1,h2]
  unfold adoptChild
  simp only [← hm]
  split_ifs
  · exact ⟨rfl,rfl,fun u => (kin_makeReady m rp u).trans (hkin u)⟩
  · exact ⟨rfl,rfl,hkin⟩

private theorem adoptLoop_kin (rp : ThreadRef) (chs : List ThreadRef) (s : Sched) :
    (chs.foldl (adoptChild rp) s).allThreads = s.allThreads ∧
    (chs.foldl (adoptChild rp) s).reaper = s.reaper ∧
    ∀ u, kin ((chs.foldl (adoptChild rp) s).thread u) = adoptedKin rp chs u (s.thread u) := by
  induction chs generalizing s with
  | nil => exact ⟨rfl,rfl,fun u => by simp [kin,adoptedKin]⟩
  | cons ch chs ih =>
    obtain ⟨ha,hr,hk⟩ := ih (adoptChild rp s ch)
    obtain ⟨ha1,hr1,hk1⟩ := adoptChild_kin rp ch s
    refine ⟨ha.trans ha1,hr.trans hr1,fun u => (hk u).trans ?_⟩
    have h := hk1 u
    simp only [kin,adoptedKin,Prod.mk.injEq,mem_singleton,reverse_singleton] at h
    obtain ⟨hp,hc,hw,ht⟩ := h
    simp only [adoptedKin,hp,hc,hw,ht,mem_cons,reverse_cons,append_assoc]
    congr 1
    · by_cases h1 : u ∈ chs <;> simp [h1]
    · by_cases h3 : u = rp <;> simp [h3]

theorem leaveZombie_kin (s : Sched) (cur : ThreadRef) (hself : cur ∉ (s.thread cur).children) :
    (s.leaveZombie cur).allThreads = s.allThreads ∧ (s.leaveZombie cur).reaper = s.reaper ∧
    ((∀ u, kin ((s.leaveZombie cur).thread u) = kin (s.thread u)) ∨
      ∃ rp, s.reaper = some rp ∧ rp ≠ cur ∧ ∀ u, kin ((s.leaveZombie cur).thread u) =
        if u = cur then ((s.thread cur).parent,[],(s.thread cur).waited,(s.thread cur).tid)
        else adoptedKin rp (s.thread cur).children u (s.thread u)) := by
  have hwake : ∀ m : Sched, (m.wakeParent cur).allThreads = m.allThreads ∧
      (m.wakeParent cur).reaper = m.reaper ∧
      ∀ u, kin ((m.wakeParent cur).thread u) = kin (m.thread u) := by
    intro m
    unfold wakeParent
    cases (m.thread cur).parent with
    | none => exact ⟨rfl,rfl,fun _ => rfl⟩
    | some p =>
      dsimp only
      split_ifs
      · exact ⟨rfl,rfl,kin_makeReady m p⟩
      · exact ⟨rfl,rfl,fun _ => rfl⟩
  have hz : ∀ u, kin ((s.zombify cur).thread u) = kin (s.thread u) := by
    intro u
    unfold zombify setState queueRemove
    rw [setQueue_thread,modify_field kin _ cur u rfl,modify_field kin _ cur u rfl]
  obtain ⟨h1,h2,h3⟩ := hwake ((s.zombify cur).reparent cur)
  unfold leaveZombie
  have hchs : ((s.zombify cur).thread cur).children = (s.thread cur).children :=
    congrArg (·.2.1) (hz cur)
  have hrp : (s.zombify cur).reaper = s.reaper := rfl
  unfold reparent at h1 h2 h3 ⊢
  rw [hrp,hchs] at h1 h2 h3 ⊢
  cases hr : s.reaper with
  | none =>
    rw [hr] at h1 h2 h3
    exact ⟨h1,h2.trans hr,.inl fun u => (h3 u).trans (hz u)⟩
  | some rp =>
    rw [hr] at h1 h2 h3
    dsimp only at h1 h2 h3 ⊢
    split_ifs at h1 h2 h3 ⊢ with hne
    · obtain ⟨ha,hr',hk⟩ := adoptLoop_kin rp (s.thread cur).children (s.zombify cur)
      refine ⟨h1.trans ha,h2.trans (hr'.trans hr),.inr ⟨rp,rfl,hne.1,fun u => (h3 u).trans ?_⟩⟩
      have hku := hk u
      have hzu := hz u
      simp only [kin,adoptedKin,Prod.mk.injEq] at hku hzu
      rw [modify_thread]
      split_ifs with hu
      · subst hu
        simp [kin,hku,hzu,hself]
      · simp only [kin,adoptedKin,hku,hzu]
    · exact ⟨h1,h2.trans hr,.inl fun u => (h3 u).trans (hz u)⟩

/-- The family tree: children know their parent, are registered and listed once, and
the reaper has no parent. -/
structure Tree (s : Sched) : Prop where
  child : ∀ p, ∀ ch ∈ (s.thread p).children, (s.thread ch).parent = some p ∧
    ch ∈ s.allThreads ∧ ch ≠ p ∧ ∀ d, ch ≠ .idle d
  nodup : ∀ p, (s.thread p).children.Nodup
  reaper : ∀ r, s.reaper = some r → r ∈ s.allThreads ∧ (s.thread r).parent = none

section

variable {s s' : Sched} (hs : s.Tree)
include hs

theorem Tree.self_notMem (t : ThreadRef) : t ∉ (s.thread t).children :=
  fun h => (hs.child t t h).2.2.1 rfl

theorem Tree.parent_unique {p q ch : ThreadRef} (hp : ch ∈ (s.thread p).children)
    (hq : ch ∈ (s.thread q).children) : p = q :=
  Option.some.inj ((hs.child p ch hp).1.symm.trans (hs.child q ch hq).1)

theorem Tree.congr (hk : ∀ t, kin (s'.thread t) = kin (s.thread t))
    (ha : s'.allThreads = s.allThreads) (hr : s'.reaper = s.reaper) : s'.Tree := by
  have hp : ∀ t, (s'.thread t).parent = (s.thread t).parent := fun t => congrArg (·.1) (hk t)
  have hc : ∀ t, (s'.thread t).children = (s.thread t).children := fun t => congrArg (·.2.1) (hk t)
  refine ⟨?_,?_,?_⟩
  · intro p ch hch
    rw [hp,ha]
    exact hs.child p ch (hc p ▸ hch)
  · intro p
    rw [hc]
    exact hs.nodup p
  · intro r h
    rw [hp,ha]
    exact hs.reaper r (hr ▸ h)

theorem Tree.quiet {who : ThreadRef → Prop} {on : Option WaitQueue} (h : Quiet s s' who on) :
    s'.Tree := hs.congr h.kin h.all h.reaper

end

theorem Tree.leaveZombie {s : Sched} (hs : s.Tree) (cur : ThreadRef) : (s.leaveZombie cur).Tree := by
  have hself := hs.self_notMem cur
  obtain ⟨ha,hr,hk | ⟨rp,hrp,hne,hk⟩⟩ := leaveZombie_kin s cur hself
  · exact hs.congr hk ha hr
  · set m := s.leaveZombie cur
    have hp : ∀ u, (m.thread u).parent =
        if u ∈ (s.thread cur).children then some rp else (s.thread u).parent := by
      intro u
      have h := congrArg Prod.fst (hk u)
      by_cases hu : u = cur
      · subst hu
        simpa [kin,hself] using h
      · simpa [kin,adoptedKin,hu] using h
    have hc : ∀ u, (m.thread u).children = if u = cur then [] else
        if u = rp then (s.thread cur).children.reverse ++ (s.thread rp).children
        else (s.thread u).children := by
      intro u
      have h := congrArg (·.2.1) (hk u)
      by_cases hu : u = cur
      · simpa [kin,hu] using h
      · by_cases hur : u = rp
        · subst hur; simpa [kin,adoptedKin,hu] using h
        · simpa [kin,adoptedKin,hu,hur] using h
    have hroot := (hs.reaper rp hrp).2
    have hrpch : ∀ p, rp ∉ (s.thread p).children := by
      intro p h
      have := (hs.child p rp h).1
      rw [hroot] at this
      cases this
    refine ⟨?_,?_,?_⟩
    · intro p ch hch
      rw [hc] at hch
      rw [hp,ha]
      split_ifs at hch with h1 h2
      · simp at hch
      · subst h2
        rcases mem_append.mp hch with h | h
        · rw [mem_reverse] at h
          obtain ⟨_,hall,_,hid⟩ := hs.child cur ch h
          refine ⟨by rw [if_pos h],hall,?_,hid⟩
          rintro rfl
          exact hrpch _ h
        · obtain ⟨hpar,hrest⟩ := hs.child p ch h
          exact ⟨by rw [hpar,ite_self],hrest⟩
      · obtain ⟨hpar,hrest⟩ := hs.child p ch hch
        refine ⟨?_,hrest⟩
        rw [if_neg,hpar]
        exact fun h => h1 (hs.parent_unique hch h)
    · intro p
      rw [hc]
      split_ifs with h1 h2
      · exact nodup_nil
      · refine nodup_append.mpr ⟨nodup_reverse.mpr (hs.nodup cur),hs.nodup rp,?_⟩
        rintro ch h _ h' rfl
        exact hne (hs.parent_unique h' (mem_reverse.mp h))
      · exact hs.nodup p
    · intro r h
      rw [hr,hrp] at h
      cases h
      rw [hp,ha,if_neg (hrpch cur)]
      exact hs.reaper rp hrp

end Sched
end Lariat.Kernel
