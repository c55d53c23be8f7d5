import Lariat.Mm.Ranges

/-! The pages execve maps: segments, interpreter and stack. -/
namespace Lariat.Mm

open Foundation.TableTree Reader List Option

def Segment.reqs (g : Segment) : List PageReq := pageReqs g.start g.bytes g.writable g.pages

/-- The segments of the program itself, where they are loaded. -/
def Program.segments : Program → List Segment
  | .elf dyn _ loads _ _ => loads.map (·.shift (loadBias dyn loads))
  | .flat len data => [⟨USER_CODE_START,len,len,true,data,none⟩]

/-- The segments of its interpreter, where they are loaded. -/
def Program.interpreter : Program → List Segment
  | .elf _ _ _ interp _ => (interp.getD []).map (·.shift INTERP_BASE)
  | .flat _ _ => []

def Program.reqs (g : Program) : List PageReq :=
  g.segments.flatMap Segment.reqs ++ g.interpreter.flatMap Segment.reqs

/-- The pages of the initial stack. -/
def stackReqs : List PageReq :=
  pageReqs (USER_STACK_TOP-USER_STACK_PAGES * 4096) (fun _ _ => 0) true USER_STACK_PAGES

variable {k : Machine} {m m' : Mem} {roots : Finset Nat} {lost x : Multiset Nat} {r n : Nat}

/-- What mapping a list of pages does that may stop early. -/
inductive LoadedPages (k : Machine) (m : Mem) (roots : Finset Nat) (lost : Multiset Nat) (r : Nat)
    (l : List PageReq) : Mem × Bool → Prop
  | done {m' : Mem} {x : Multiset Nat} {n : Nat} : Laid k m m' roots lost x r l n →
      LoadedPages k m roots lost r l (m',true)
  | part {m' : Mem} {x : Multiset Nat} {l' : List PageReq} {n : Nat} : l' <+: l →
      Laid k m m' roots lost x r l' n → LoadedPages k m roots lost r l (m',false)

/-- The first pages of a range are the first of its requests. -/
theorem pageReqs_initial {i : Nat} (virt : Nat) (bytes : Nat → Nat → UInt8) (wr : Bool)
    (hi : i ≤ n) : pageReqs virt bytes wr i <+: pageReqs virt bytes wr n := by
  obtain ⟨d,rfl⟩ := Nat.exists_eq_add_of_le hi
  rw [pageReqs,pageReqs,range_add,map_append]
  exact prefix_append _ _

section Load

variable (h : Sound k m roots lost) (hr : r ∈ roots)
include h hr

theorem Sound.mapAndFill {g : Segment} (hu : ∀ q ∈ g.reqs, UserAddr q.virt) :
    LoadedPages k m roots lost r g.reqs (mapAndFill m r g) := by
  have hle : min g.pages (g.unreadable.getD g.pages) ≤ g.pages := min_le_left _ _
  have hu' : ∀ i < min g.pages (g.unreadable.getD g.pages), UserAddr (pageAt g.start i) :=
    fun i hi => hu _ (mem_pageReqs.mpr ⟨i,lt_of_lt_of_le hi hle,rfl⟩)
  have hp := h.mapPages hr g.bytes g.writable hu'
  rw [Lariat.Mm.mapAndFill]
  generalize min g.pages (g.unreadable.getD g.pages) = n at hle hu' hp
  generalize Lariat.Mm.mapPages m r g.start g.bytes g.writable n = o at hp
  cases hp with
  | done hl =>
    by_cases hn : n = g.pages
    · rw [decide_eq_true hn]
      rw [hn] at hl
      exact .done hl
    · rw [decide_eq_false hn]
      exact .part (pageReqs_initial g.start g.bytes g.writable hle) hl
  | full hi hl hc =>
    exact .part (pageReqs_initial g.start g.bytes g.writable (le_of_lt (lt_of_lt_of_le hi hle)))
      hl

theorem Sound.loadSegments {gs : List Segment} (hu : ∀ q ∈ gs.flatMap Segment.reqs, UserAddr q.virt) :
    LoadedPages k m roots lost r (gs.flatMap Segment.reqs) (loadSegments r gs m) := by
  induction gs generalizing m lost with
  | nil => exact .done (Laid.nil h)
  | cons g gs ih =>
    rw [flatMap_cons] at hu ⊢
    have hone := h.mapAndFill hr fun q hq => hu q (mem_append_left _ hq)
    rw [Lariat.Mm.loadSegments]
    generalize Lariat.Mm.mapAndFill m r g = o at hone
    cases hone with
    | part hpre hl => exact .part (hpre.trans (prefix_append _ _)) hl
    | @done m1 x n hl =>
      have hrest := ih hl.sound fun q hq => hu q (mem_append_right _ hq)
      dsimp only
      generalize Lariat.Mm.loadSegments r gs m1 = o at hrest
      cases hrest with
      | done hl' => exact .done (hl.append hl')
      | part hpre hl' => exact .part (prefix_append_right_inj _ |>.mpr hpre) (hl.append hl')

/-- What loading a program does: it maps the first pages of the list, all those of the program
itself when it succeeds. -/
structure ProgramLoaded (k : Machine) (m : Mem) (roots : Finset Nat) (lost : Multiset Nat)
    (r : Nat) (g : Program) (m' : Mem) (rc : Int) : Prop where
  laid : ∃ l x n, l <+: g.reqs ∧ (0 ≤ rc → g.segments.flatMap Segment.reqs <+: l) ∧
    Laid k m m' roots lost x r l n

theorem Sound.load_flat {len : Nat} {data : Nat → UInt8}
    (hu : ∀ q ∈ (Program.flat len data).reqs, UserAddr q.virt) :
    ProgramLoaded k m roots lost r (.flat len data) ((Program.flat len data).load r m).1
      ((Program.flat len data).load r m).2 := by
  have hseg : (Program.flat len data).segments.flatMap Segment.reqs =
      Segment.reqs ⟨USER_CODE_START,len,len,true,data,none⟩ := by
    rw [Program.segments,flatMap_singleton]
  have hreqs : (Program.flat len data).reqs =
      Segment.reqs ⟨USER_CODE_START,len,len,true,data,none⟩ := by
    rw [Program.reqs,hseg,Program.interpreter,flatMap_nil,append_nil]
  rw [hreqs] at hu
  have hone := h.mapAndFill hr hu
  have hneg : ¬(0 : Int) ≤ -ENOMEM := by decide
  rw [Program.load]
  generalize (⟨USER_CODE_START,len,len,true,data,none⟩ : Segment) = g at hseg hreqs hone
  generalize Lariat.Mm.mapAndFill m r g = o at hone
  cases hone with
  | done hl =>
    refine ⟨⟨_,_,_,?_,fun _ => ?_,hl⟩⟩
    · rw [hreqs]
    · rw [hseg]
  | part hpre hl =>
    refine ⟨⟨_,_,_,?_,fun h0 => absurd h0 hneg,hl⟩⟩
    rw [hreqs]
    exact hpre

theorem Sound.load_elf {dyn streamed : Bool} {loads : List Segment} {interp : Option (List Segment)}
    {relocs : List (Nat × Nat)} (hu : ∀ q ∈ (Program.elf dyn streamed loads interp relocs).reqs, UserAddr q.virt) :
    ProgramLoaded k m roots lost r (.elf dyn streamed loads interp relocs)
      ((Program.elf dyn streamed loads interp relocs).load r m).1
      ((Program.elf dyn streamed loads interp relocs).load r m).2 := by
  have hmain := h.loadSegments hr fun q hq => hu q (mem_append_left _ hq)
  have hpre : (Program.elf dyn streamed loads interp relocs).segments.flatMap Segment.reqs <+:
      (Program.elf dyn streamed loads interp relocs).reqs := prefix_append _ _
  have hneg : ¬(0 : Int) ≤ -ENOMEM := by decide
  rw [Program.load]
  rw [Program.segments] at hmain
  generalize Lariat.Mm.loadSegments r (loads.map (·.shift (loadBias dyn loads))) m = o at hmain
  cases hmain with
  | part hpre' hl => exact ⟨⟨_,_,_,hpre'.trans hpre,fun h0 => absurd h0 hneg,hl⟩⟩
  | @done m1 x n hl =>
    cases interp with
    | none => exact ⟨⟨_,_,_,hpre,fun _ => prefix_refl _,hl⟩⟩
    | some gs =>
      have hint := hl.sound.loadSegments hr fun q hq => hu q (mem_append_right _ hq)
      rw [Program.interpreter,getD_some] at hint
      dsimp only
      generalize Lariat.Mm.loadSegments r (gs.map (·.shift INTERP_BASE)) m1 = o at hint
      cases hint with
      | done hl' => exact ⟨⟨_,_,_,prefix_refl _,fun _ => hpre,hl.append hl'⟩⟩
      | part hpre' hl' =>
        refine ⟨⟨_,_,_,prefix_append_right_inj _ |>.mpr hpre',fun _ => ?_,hl.append hl'⟩⟩
        exact prefix_append _ _

theorem Sound.load {g : Program} (hu : ∀ q ∈ g.reqs, UserAddr q.virt) :
    ProgramLoaded k m roots lost r g (g.load r m).1 (g.load r m).2 := by
  cases g with
  | flat len data => exact h.load_flat hr hu
  | elf dyn streamed loads interp relocs => exact h.load_elf hr hu

end Load

section Readable

theorem mapAndFill_readable {g : Segment} (h : (Lariat.Mm.mapAndFill m r g).2 = true) :
    g.pages ≤ g.unreadable.getD g.pages := by
  rw [Lariat.Mm.mapAndFill] at h
  split at h
  · cases h
  · have hall := of_decide_eq_true h
    omega

/-- Segments that were loaded could be read to their last page. -/
theorem loadSegments_readable {gs : List Segment} (h : (Lariat.Mm.loadSegments r gs m).2 = true) :
    ∀ g ∈ gs, g.pages ≤ g.unreadable.getD g.pages := by
  induction gs generalizing m with
  | nil => exact nofun
  | cons g gs ih =>
    rw [Lariat.Mm.loadSegments] at h
    cases hone : Lariat.Mm.mapAndFill m r g with
    | mk m1 b =>
      rw [hone] at h
      cases b with
      | false => cases h
      | true =>
        intro g' hg'
        rcases List.mem_cons.mp hg' with rfl | hg'
        · exact mapAndFill_readable (by rw [hone])
        · exact ih h g' hg'

theorem Program.load_segments {p : Program} {rc : Int} (h : p.load r m = (m',rc)) (hrc : 0 ≤ rc) :
    (Lariat.Mm.loadSegments r p.segments m).2 = true := by
  have hneg : ¬(0 : Int) ≤ -ENOMEM := by decide
  cases p with
  | flat len data =>
    rw [Program.load] at h
    rw [Program.segments,Lariat.Mm.loadSegments]
    cases hone : Lariat.Mm.mapAndFill m r ⟨USER_CODE_START,len,len,true,data,none⟩ with
    | mk m1 b =>
      rw [hone] at h
      cases b with
      | false =>
        cases h
        exact absurd hrc hneg
      | true => rfl
  | elf dyn streamed loads interp relocs =>
    rw [Program.load] at h
    rw [Program.segments]
    cases hone : Lariat.Mm.loadSegments r (loads.map (·.shift (loadBias dyn loads))) m with
    | mk m1 b =>
      rw [hone] at h
      cases b with
      | false =>
        cases h
        exact absurd hrc hneg
      | true => rfl

end Readable

theorem stackReqs_user : ∀ q ∈ stackReqs, UserAddr q.virt := by
  intro q hq
  obtain ⟨i,hi,rfl⟩ := mem_pageReqs.mp hq
  simp only [USER_STACK_TOP,USER_STACK_PAGES,UserAddr,pageAt] at hi ⊢
  omega

section Room

theorem length_pageReqs (virt : Nat) (bytes : Nat → Nat → UInt8) (wr : Bool) (n : Nat) :
    (pageReqs virt bytes wr n).length = n := by
  rw [pageReqs,length_map,length_range]

/-- A segment that can be read is loaded if there are frames for it and for its tables. -/
theorem Sound.mapAndFill_room {g : Segment} (h : Sound k m roots lost) (hr : r ∈ roots)
    (hu : ∀ q ∈ g.reqs, UserAddr q.virt) (hread : g.unreadable = none)
    (hroom : 4 * g.reqs.length ≤ m.pmm.free.card) :
    ∃ m' x, Lariat.Mm.mapAndFill m r g = (m',true) ∧
      Laid k m m' roots lost x r g.reqs (4*g.reqs.length) := by
  have hp := h.mapPages hr g.bytes g.writable
    fun i hi => hu _ (mem_pageReqs.mpr ⟨i,hi,rfl⟩)
  have hmin : min g.pages (g.unreadable.getD g.pages) = g.pages := by
    rw [hread,getD_none,min_self]
  rw [Lariat.Mm.mapAndFill,hmin]
  rw [Segment.reqs,length_pageReqs] at hroom ⊢
  generalize Lariat.Mm.mapPages m r g.start g.bytes g.writable g.pages = o at hp
  cases hp with
  | done hl => exact ⟨_,_,by rw [decide_eq_true rfl],hl⟩
  | full hi hl hc => omega

theorem Sound.loadSegments_room {gs : List Segment} (h : Sound k m roots lost) (hr : r ∈ roots)
    (hu : ∀ q ∈ gs.flatMap Segment.reqs, UserAddr q.virt) (hread : ∀ g ∈ gs, g.unreadable = none)
    (hroom : 4 * (gs.flatMap Segment.reqs).length ≤ m.pmm.free.card) :
    ∃ m' x, Lariat.Mm.loadSegments r gs m = (m',true) ∧ Laid k m m' roots lost x r
      (gs.flatMap Segment.reqs) (4 * (gs.flatMap Segment.reqs).length) := by
  induction gs generalizing m lost with
  | nil => exact ⟨m,0,rfl,Laid.nil h⟩
  | cons g gs ih =>
    rw [flatMap_cons] at hu hroom ⊢
    rw [length_append] at hroom ⊢
    obtain ⟨m1,x,hone,hl⟩ := h.mapAndFill_room hr (fun q hq => hu q (mem_append_left _ hq))
      (hread g mem_cons_self) (by omega)
    have hcard := hl.spent.card
    obtain ⟨m2,y,hrest,hl'⟩ := ih hl.sound (fun q hq => hu q (mem_append_right _ hq))
      (fun g hg => hread g (mem_cons_of_mem _ hg)) (by omega)
    refine ⟨m2,y+x,?_,?_⟩
    · rw [Lariat.Mm.loadSegments,hone]
      exact hrest
    · rw [mul_add]
      exact hl.append hl'

/-- Every part of the program can be read, and nothing it needs is missing. -/
def Program.Loadable : Program → Prop
  | .elf _ streamed loads interp _ => (∀ g ∈ loads, g.unreadable = none) ∧
    (∀ gs ∈ interp, ∀ g ∈ gs, g.unreadable = none) ∧ (streamed = true → interp.isSome)
  | .flat _ _ => True

theorem shift_readable {gs : List Segment} {b : Nat} (h : ∀ g ∈ gs, g.unreadable = none) :
    ∀ g ∈ gs.map (·.shift b), g.unreadable = none := by
  intro g hg
  obtain ⟨g',hg',rfl⟩ := List.mem_map.mp hg
  exact h g' hg'

theorem Sound.load_room {g : Program} (h : Sound k m roots lost) (hr : r ∈ roots)
    (hu : ∀ q ∈ g.reqs, UserAddr q.virt) (hload : g.Loadable)
    (hroom : 4 * g.reqs.length ≤ m.pmm.free.card) :
    ∃ m' x rc, g.load r m = (m',rc) ∧ 0 ≤ rc ∧
      Laid k m m' roots lost x r g.reqs (4*g.reqs.length) := by
  have hreqs : g.reqs = g.segments.flatMap Segment.reqs ++ g.interpreter.flatMap Segment.reqs := rfl
  cases g with
  | flat len data =>
    rw [Program.segments,flatMap_singleton,Program.interpreter,flatMap_nil,
      append_nil] at hreqs
    rw [hreqs] at hu hroom ⊢
    obtain ⟨m1,x,hone,hl⟩ := h.mapAndFill_room hr hu rfl hroom
    refine ⟨m1,x,0,?_,Int.le_refl 0,hl⟩
    rw [Program.load,hone]
    rfl
  | elf dyn streamed loads interp relocs =>
    obtain ⟨hmain,hint,hstream⟩ := hload
    rw [hreqs] at hu hroom ⊢
    rw [length_append] at hroom ⊢
    obtain ⟨m1,x,hone,hl⟩ := h.loadSegments_room hr (fun q hq => hu q (mem_append_left _ hq))
      (shift_readable hmain) (by omega)
    have hcard := hl.spent.card
    rw [Program.load]
    rw [Program.segments] at hone
    rw [hone]
    cases interp with
    | none =>
      have hwhole : streamed = false := by
        cases streamed with
        | false => rfl
        | true => cases hstream rfl
      refine ⟨m1,x,0,?_,Int.le_refl 0,?_⟩
      · rw [hwhole]
        rfl
      · rw [Program.interpreter,getD_none,map_nil,flatMap_nil,append_nil]
        exact hl
    | some gs =>
      rw [Program.interpreter,getD_some] at hu hroom ⊢
      have hgs := shift_readable (b := INTERP_BASE) (hint gs (mem_some_self gs))
      obtain ⟨m2,y,hrest,hl'⟩ := hl.sound.loadSegments_room hr
        (fun q hq => hu q (mem_append_right _ hq)) hgs (by omega)
      refine ⟨m2,y+x,0,?_,Int.le_refl 0,?_⟩
      · dsimp only
        rw [hrest]
        rfl
      · rw [mul_add]
        exact hl.append hl'

end Room

end Lariat.Mm
