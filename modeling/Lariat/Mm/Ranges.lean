import Lariat.Mm.SpaceOps

/-! Ranges of pages mapped, unmapped and protected one page after the other. -/
namespace Lariat.Mm

open Foundation.TableTree Reader List

/-- A page to be mapped. -/
structure PageReq where
  virt : Nat
  bytes : Nat → UInt8
  writable : Bool

/-- The address lies on one of the pages. -/
def Covers (l : List PageReq) (v : Nat) : Prop := ∃ q ∈ l, OnPage q.virt v

/-- No page is asked for twice. -/
def Apart (l : List PageReq) : Prop := l.Pairwise fun a b => ¬OnPage a.virt b.virt

/-- The pages are distinct and none of them is mapped. -/
def Fresh (k : Machine) (m : Mem) (r : Nat) (l : List PageReq) : Prop :=
  Apart l ∧ ∀ q ∈ l, k.reader.find m.table [] r (indices q.virt) = none

/-- The page has a frame of its own with the contents asked for. -/
def Placed (k : Machine) (m m' : Mem) (r : Nat) (q : PageReq) : Prop :=
  ∃ f ∈ m.pmm.free, f ∉ m'.pmm.free ∧
    k.reader.find m'.table [] r (indices q.virt) = some ⟨f,userFlags q.writable⟩ ∧
    m'.byte f = q.bytes

variable {k : Machine} {m m' m'' : Mem} {roots : Finset Nat} {lost x y : Multiset Nat} {r n n' : Nat}
  {l l' : List PageReq}

/-- What `r` maps is in frames of the allocator's. -/
def InRam (k : Machine) (m : Mem) (r : Nat) : Prop :=
  ∀ v, UserAddr v → ∀ e, k.reader.find m.table [] r (indices v) = some e → e.frame < k.total

/-- The pages `l` are mapped, in frames of the allocator's. -/
def Backs (k : Machine) (m : Mem) (r : Nat) (l : List PageReq) : Prop :=
  ∀ q ∈ l, UserAddr q.virt ∧
    ∃ e, k.reader.find m.table [] r (indices q.virt) = some e ∧ e.frame < k.total

variable {q : PageReq} {virt w i v : Nat} {bytes : Nat → Nat → UInt8} {wr : Bool}

section

variable (hu : UserAddr q.virt) (hp : PageMapped k m roots lost r q.virt q.bytes q.writable (m',true))
include hu hp

theorem PageMapped.find : ∃ f < k.total, (∀ v, UserAddr v → OnPage q.virt v →
      k.reader.find m'.table [] r (indices v) = some ⟨f,userFlags q.writable⟩) ∧
      ∀ v, UserAddr v → ¬OnPage q.virt v → k.reader.find m'.table [] r (indices v) =
        k.reader.find m.table [] r (indices v) := by
  cases hp with
  | @done _ f hs ht hfind hf hb hk hsp =>
    refine ⟨f,?_,fun v hv hqv => ?_,ht.same⟩
    · rw [← hs.intact.total,hsp.totalPages]
      exact (Pmm.mem_free.mp hf).1
    · rw [(indices_eq_iff hv hu).mpr hqv]
      exact hfind

theorem InRam.one (h : InRam k m r) : InRam k m' r := by
  obtain ⟨f,hlt,hon,hoff⟩ := hp.find hu
  intro v hv e he
  by_cases hqv : OnPage q.virt v
  · rw [hon v hv hqv] at he
    cases he
    exact hlt
  · rw [hoff v hv hqv] at he
    exact h v hv e he

theorem Backs.one (h : Backs k m r l) : Backs k m' r (l ++ [q]) := by
  obtain ⟨f,hlt,hon,hoff⟩ := hp.find hu
  intro q' hq'
  have hu' : UserAddr q'.virt := by
    rcases mem_append.mp hq' with hq' | hq'
    · exact (h q' hq').1
    · rwa [mem_singleton.mp hq']
  refine ⟨hu',?_⟩
  by_cases hqv : OnPage q.virt q'.virt
  · exact ⟨_,hon _ hu' hqv,hlt⟩
  rcases mem_append.mp hq' with hq' | hq'
  · rw [hoff _ hu' hqv]
    exact (h q' hq').2
  · rw [mem_singleton.mp hq'] at hqv
    exact absurd rfl hqv

end

/-- The pages `l` were mapped in turn with at most `n` frames, and nothing else was done. The
frames `x` they replace are nobody's. -/
structure Laid (k : Machine) (m m' : Mem) (roots : Finset Nat) (lost x : Multiset Nat) (r : Nat)
    (l : List PageReq) (n : Nat) : Prop where
  user : ∀ q ∈ l, UserAddr q.virt
  sound : Sound k m' roots (x+lost)
  touched : Touched k m m' roots r (Covers l)
  kept : BytesKept m m'
  spent : Spent m m' n
  loss : Fresh k m r l → x = 0
  placed : Apart l → ∀ q ∈ l, Placed k m m' r q
  inRam : InRam k m r → InRam k m' r
  backs : ∀ l', Backs k m r l' → Backs k m' r (l' ++ l)

theorem Laid.nil (h : Sound k m roots lost) : Laid k m m roots lost 0 r [] 0 where
  user _ hq := nomatch hq
  sound := by rwa [zero_add]
  touched := Touched.refl m roots r _
  kept _ _ := rfl
  spent := Spent.refl m 0
  loss _ := rfl
  placed _ _ hq := nomatch hq
  inRam h := h
  backs l' h := by rwa [append_nil]

theorem Laid.full {r' : Mem × Bool} (hw : r'.2 = false)
    (h : PageMapped k m roots lost r q.virt q.bytes q.writable r') :
    Laid k m r'.1 roots lost 0 r [] 4 ∧ m.pmm.free.card < 4 := by
  cases h with
  | done => cases hw
  | @full m1 hs ht hk hsp hc =>
    have hsame (v : Nat) (hv : UserAddr v) : k.reader.find m1.table [] r (indices v) =
        k.reader.find m.table [] r (indices v) := (ht fun _ => False).same v hv id
    refine ⟨⟨(fun _ hq => nomatch hq),by rwa [zero_add],ht _,hk,hsp,fun _ => rfl,
      (fun _ _ hq => nomatch hq),fun h v hv => ?_,fun l hl q hq => ?_⟩,hc⟩
    · rw [hsame v hv]
      exact h v hv
    · rw [append_nil] at hq
      rw [hsame _ (hl q hq).1]
      exact hl q hq

theorem Laid.one {r' : Mem × Bool} (hr : r ∈ roots) (hu : UserAddr q.virt) (hw : r'.2 = true)
    (h : PageMapped k m roots lost r q.virt q.bytes q.writable r') :
    ∃ x, Laid k m r'.1 roots lost x r [q] 4 := by
  have hmore : (InRam k m r → InRam k r'.1 r) ∧
      ∀ l, Backs k m r l → Backs k r'.1 r (l ++ [q]) := by
    obtain ⟨m',b⟩ := r'
    obtain rfl : b = true := hw
    exact ⟨fun hl => hl.one hu h,fun l hl => hl.one hu h⟩
  cases h with
  | full => cases hw
  | @done m' f hs ht hfind hf hb hk hsp =>
    refine ⟨_,⟨?_,hs,ht.mono fun v hv => ⟨q,mem_singleton_self q,hv⟩,hk,hsp,?_,?_,hmore.1,hmore.2⟩⟩
    · intro q' hq'
      rwa [mem_singleton.mp hq']
    · intro hfresh
      rw [hfresh.2 q (mem_singleton_self q)]
      rfl
    · intro _ q' hq'
      rw [mem_singleton.mp hq']
      exact ⟨f,hf,hs.found_used hr hfind,hfind,hb⟩

theorem Apart.append (ha : Apart (l ++ l')) :
    Apart l ∧ Apart l' ∧ ∀ q ∈ l, ∀ q' ∈ l', ¬OnPage q.virt q'.virt :=
  pairwise_append.mp ha

theorem Laid.append (h : Laid k m m' roots lost x r l n)
    (h' : Laid k m' m'' roots (x+lost) y r l' n') :
    Laid k m m'' roots lost (y+x) r (l ++ l') (n+n') where
  user q hq := (mem_append.mp hq).elim (h.user q) (h'.user q)
  sound := by
    rw [add_assoc]
    exact h'.sound
  touched := by
    refine (h.touched.mono ?_).trans (h'.touched.mono ?_)
    · rintro v ⟨q,hq,hv⟩
      exact ⟨q,mem_append_left l' hq,hv⟩
    · rintro v ⟨q,hq,hv⟩
      exact ⟨q,mem_append_right l hq,hv⟩
  kept := h.kept.trans h.spent h'.kept
  spent := h.spent.trans h'.spent
  loss hfresh := by
    obtain ⟨ha,ha',hapart⟩ := hfresh.1.append
    have hx : x = 0 := h.loss ⟨ha,fun q hq => hfresh.2 q (mem_append_left l' hq)⟩
    have hy : y = 0 := by
      refine h'.loss ⟨ha',fun q hq => ?_⟩
      rw [h.touched.same q.virt (h'.user q hq)]
      · exact hfresh.2 q (mem_append_right l hq)
      · rintro ⟨q0,hq0,hon⟩
        exact hapart q0 hq0 q hq hon
    rw [hx,hy,add_zero]
  placed hapart q hq := by
    obtain ⟨ha,ha',hne⟩ := hapart.append
    rcases mem_append.mp hq with hq | hq
    · obtain ⟨f,hf,hf',hfind,hb⟩ := h.placed ha q hq
      refine ⟨f,hf,fun h0 => hf' (h'.spent.free h0),?_,(h'.kept f hf').trans hb⟩
      rw [h'.touched.same q.virt (h.user q hq)]
      · exact hfind
      · rintro ⟨q0,hq0,hon⟩
        exact hne q hq q0 hq0 hon.symm
    · obtain ⟨f,hf,hrest⟩ := h'.placed ha' q hq
      exact ⟨f,h.spent.free hf,hrest⟩
  inRam h0 := h'.inRam (h.inRam h0)
  backs l0 h0 := by
    rw [← append_assoc]
    exact h'.backs _ (h.backs l0 h0)

/-- The pages a loop over `n` pages asks for. -/
def pageReqs (virt : Nat) (bytes : Nat → Nat → UInt8) (writable : Bool) (n : Nat) : List PageReq :=
  (List.range n).map fun i => ⟨pageAt virt i,bytes i,writable⟩

theorem pageReqs_succ (virt : Nat) (bytes : Nat → Nat → UInt8) (wr : Bool) (n : Nat) :
    pageReqs virt bytes wr (n+1) =
      pageReqs virt bytes wr n ++ [⟨pageAt virt n,bytes n,wr⟩] := by
  rw [pageReqs,range_succ,map_append]
  rfl

theorem mem_pageReqs : q ∈ pageReqs virt bytes wr n ↔ ∃ i < n, q = ⟨pageAt virt i,bytes i,wr⟩ := by
  rw [pageReqs,mem_map]
  constructor
  · rintro ⟨i,hi,rfl⟩
    exact ⟨i,mem_range.mp hi,rfl⟩
  · rintro ⟨i,hi,rfl⟩
    exact ⟨i,mem_range.mpr hi,rfl⟩

/-- What mapping a range of pages does. -/
inductive PagesMapped (k : Machine) (m : Mem) (roots : Finset Nat) (lost : Multiset Nat)
    (r virt : Nat) (bytes : Nat → Nat → UInt8) (wr : Bool) (n : Nat) : Mem × Option Nat → Prop
  | done {m' : Mem} {x : Multiset Nat} :
      Laid k m m' roots lost x r (pageReqs virt bytes wr n) (4*n) →
      PagesMapped k m roots lost r virt bytes wr n (m',none)
  | full {m' : Mem} {x : Multiset Nat} {i : Nat} : i < n →
      Laid k m m' roots lost x r (pageReqs virt bytes wr i) (4 * (i+1)) →
      m.pmm.free.card < 4 * (i+1) → PagesMapped k m roots lost r virt bytes wr n (m',some i)

theorem Sound.mapPages (h : Sound k m roots lost) (hr : r ∈ roots) (bytes : Nat → Nat → UInt8)
    (wr : Bool) (hu : ∀ i < n, UserAddr (pageAt virt i)) :
    PagesMapped k m roots lost r virt bytes wr n (mapPages m r virt bytes wr n) := by
  induction n with
  | zero => exact .done (Laid.nil h)
  | succ n ih =>
    have ih := ih fun i hi => hu i (Nat.lt_succ_of_lt hi)
    rw [Lariat.Mm.mapPages]
    generalize Lariat.Mm.mapPages m r virt bytes wr n = o at ih
    cases ih with
    | full hi hf hc => exact .full (Nat.lt_succ_of_lt hi) hf hc
    | @done m1 x hf =>
      have hun := hu n (Nat.lt_succ_self n)
      have hp := hf.sound.mapPage hr hun (bytes n) wr
      dsimp only
      generalize Lariat.Mm.mapPage m1 r (pageAt virt n) (bytes n) wr = o at hp
      obtain ⟨m2,b⟩ := o
      cases b with
      | true =>
        obtain ⟨y,hone⟩ := Laid.one (q := ⟨pageAt virt n,bytes n,wr⟩) hr hun rfl hp
        refine .done (x := y+x) ?_
        rw [pageReqs_succ]
        exact hf.append hone
      | false =>
        obtain ⟨hnone,hc⟩ := Laid.full (q := ⟨pageAt virt n,bytes n,wr⟩) rfl hp
        refine .full (x := 0+x) (Nat.lt_succ_self n) ?_ ?_
        · have happ := hf.append hnone
          rwa [append_nil] at happ
        · have := hf.spent.card
          omega

/-- The addresses of `n` pages from `virt` on. -/
def pageList (virt n : Nat) : List Nat := (List.range n).map (pageAt virt)

theorem mem_pageList {n : Nat} : w ∈ pageList virt n ↔ ∃ i < n, pageAt virt i = w := by
  rw [pageList,mem_map]
  constructor
  · rintro ⟨i,hi,rfl⟩
    exact ⟨i,mem_range.mp hi,rfl⟩
  · rintro ⟨i,hi,rfl⟩
    exact ⟨i,mem_range.mpr hi,rfl⟩

theorem pageAt_mem {n : Nat} (hi : i < n) : pageAt virt i ∈ pageList virt n :=
  mem_pageList.mpr ⟨i,hi,rfl⟩

/-- The pages at the addresses `l` were unmapped. Their frames `x` are nobody's. -/
structure Cleared (k : Machine) (m m' : Mem) (roots : Finset Nat) (lost x : Multiset Nat) (r : Nat)
    (l : List Nat) : Prop where
  user : ∀ w ∈ l, UserAddr w
  sound : Sound k m' roots (x+lost)
  touched : Touched k m m' roots r fun v => ∃ w ∈ l, OnPage w v
  pmm : m'.pmm = m.pmm
  byte : m'.byte = m.byte
  loss : (∀ w ∈ l, k.reader.find m.table [] r (indices w) = none) → x = 0
  gone : ∀ w ∈ l, k.reader.find m'.table [] r (indices w) = none

theorem Cleared.nil (h : Sound k m roots lost) : Cleared k m m roots lost 0 r [] where
  user _ hw := nomatch hw
  sound := by rwa [zero_add]
  touched := Touched.refl m roots r _
  pmm := rfl
  byte := rfl
  loss _ := rfl
  gone _ hw := nomatch hw

theorem Cleared.snoc {l : List Nat} (h : Cleared k m m' roots lost x r l) (hu : UserAddr w)
    (h' : PageCleared k m' m'' roots (x+lost) r w) :
    ∃ y, Cleared k m m'' roots lost y r (l ++ [w]) := by
  have hold : k.reader.find m.table [] r (indices w) = none →
      k.reader.find m'.table [] r (indices w) = none := by
    intro hnone
    by_cases hcov : ∃ w' ∈ l, OnPage w' w
    · obtain ⟨w',hw',hon⟩ := hcov
      rw [(indices_eq_iff hu (h.user w' hw')).mpr hon]
      exact h.gone w' hw'
    · rw [h.touched.same w hu hcov]
      exact hnone
  refine ⟨k.page (k.reader.find m'.table [] r (indices w)) + x,?_,?_,?_,h'.pmm.trans h.pmm,
    h'.byte.trans h.byte,?_,?_⟩
  · intro w' hw'
    rcases mem_append.mp hw' with hw' | hw'
    · exact h.user w' hw'
    · rwa [mem_singleton.mp hw']
  · rw [add_assoc]
    exact h'.sound
  · refine (h.touched.mono ?_).trans (h'.touched.mono ?_)
    · rintro v ⟨w',hw',hv⟩
      exact ⟨w',mem_append_left _ hw',hv⟩
    · intro v hv
      exact ⟨w,mem_append_right _ (mem_singleton_self w),hv⟩
  · intro hnone
    have hx : x = 0 := h.loss fun w' hw' => hnone w' (mem_append_left _ hw')
    rw [hold (hnone w (mem_append_right _ (mem_singleton_self w))),hx]
    rfl
  · intro w' hw'
    by_cases hon : OnPage w w'
    · have hu' : UserAddr w' := by
        rcases mem_append.mp hw' with hw' | hw'
        · exact h.user w' hw'
        · rwa [mem_singleton.mp hw']
      rw [(indices_eq_iff hu' hu).mpr hon]
      exact h'.find
    rcases mem_append.mp hw' with hw' | hw'
    · rw [h'.touched.same w' (h.user w' hw') hon]
      exact h.gone w' hw'
    · rw [mem_singleton.mp hw'] at hon
      exact absurd rfl hon

theorem Cleared.range {l : List Nat} (h : Cleared k m m' roots lost x r l) (hr : r ∈ roots)
    (hu : ∀ i < n, UserAddr (pageAt virt i)) :
    ∃ y, Cleared k m (vmmUnmapRangeIn m' r virt n) roots lost y r (l ++ pageList virt n) := by
  induction n with
  | zero =>
    refine ⟨x,?_⟩
    rw [vmmUnmapRangeIn,pageList,range_zero,map_nil,append_nil]
    exact h
  | succ n ih =>
    obtain ⟨y,hc⟩ := ih fun i hi => hu i (Nat.lt_succ_of_lt hi)
    have hun := hu n (Nat.lt_succ_self n)
    rw [vmmUnmapRangeIn,pageList,range_succ,map_append,← append_assoc]
    exact hc.snoc hun (hc.sound.unmapPageIn hr hun)

section Mapped

variable (h : Sound k m roots lost) (hr : r ∈ roots)
include h hr

theorem Sound.unmapRangeIn (hu : ∀ i < n, UserAddr (pageAt virt i)) :
    ∃ x, Cleared k m (vmmUnmapRangeIn m r virt n) roots lost x r (pageList virt n) :=
  (Cleared.nil h).range hr hu

theorem Sound.virtToPhys (hw : UserAddr w) : vmmVirtToPhysIn m r w / 4096 =
      (k.reader.find m.table [] r (indices w)).elim 0 (·.frame) := by
  rw [vmmVirtToPhysIn_eq,h.mapping_user hr hw]
  cases k.reader.find m.table [] r (indices w) with
  | none => exact Nat.zero_div 4096
  | some e => exact phys_frame e.frame w

theorem Sound.protectPages (wr : Bool) (hu : ∀ i < n, UserAddr (pageAt virt i)) :
    Sound k (protectPages m r virt wr n) roots lost ∧
      Touched k m (protectPages m r virt wr n) roots r fun v => ∃ i < n, OnPage (pageAt virt i) v := by
  induction n with
  | zero => exact ⟨h,Touched.refl m roots r _⟩
  | succ n ih =>
    obtain ⟨hs,ht⟩ := ih fun i hi => hu i (Nat.lt_succ_of_lt hi)
    have hwider (v : Nat) : (∃ i < n, OnPage (pageAt virt i) v) →
        ∃ i < n+1, OnPage (pageAt virt i) v := by
      rintro ⟨i,hi,hv⟩
      exact ⟨i,Nat.lt_succ_of_lt hi,hv⟩
    have ht := ht.mono hwider
    have hun := hu n (Nat.lt_succ_self n)
    rw [Lariat.Mm.protectPages]
    generalize Lariat.Mm.protectPages m r virt wr n = m1 at hs ht
    split
    · exact ⟨hs,ht⟩
    rename_i hphys
    have hframe := hs.virtToPhys hr hun
    cases hfind : k.reader.find m1.table [] r (indices (pageAt virt n)) with
    | none =>
      rw [vmmVirtToPhysIn_eq,hs.mapping_user hr hun,hfind] at hphys
      exact absurd rfl hphys
    | some e =>
      rw [hfind,Option.elim_some] at hframe
      rw [hframe]
      have hflags : (userFlags wr).huge = false := rfl
      obtain ⟨h1,h2,-⟩ := hs.remapPageIn hflags hr hun hfind
      exact ⟨h1,ht.trans (h2.mono fun v hv => ⟨n,Nat.lt_succ_self n,hv⟩)⟩

end Mapped

/-- The pages of an aligned range cover just the range. -/
theorem onPage_iff {lo n : Nat} (hlo : lo % 4096 = 0) (hhi : lo + n*4096 ≤ 0x10000000000000000) :
    (∃ i < n, OnPage (pageAt lo i) v) ↔ lo ≤ v ∧ v < lo+n * 4096 := by
  constructor
  · rintro ⟨i,hi,hon⟩
    rw [OnPage,pageAt,Nat.mod_eq_of_lt (by omega)] at hon
    omega
  · rintro ⟨h1,h2⟩
    refine ⟨(v-lo) / 4096,by omega,?_⟩
    rw [OnPage,pageAt,Nat.mod_eq_of_lt (by omega)]
    omega

theorem covers_pageReqs {n : Nat} :
    Covers (pageReqs virt bytes wr n) v ↔ ∃ i < n, OnPage (pageAt virt i) v := by
  constructor
  · rintro ⟨q,hq,hon⟩
    obtain ⟨i,hi,rfl⟩ := mem_pageReqs.mp hq
    exact ⟨i,hi,hon⟩
  · rintro ⟨i,hi,hon⟩
    exact ⟨_,mem_pageReqs.mpr ⟨i,hi,rfl⟩,hon⟩

theorem covers_pageList {n : Nat} :
    (∃ w ∈ pageList virt n, OnPage w v) ↔ ∃ i < n, OnPage (pageAt virt i) v := by
  constructor
  · rintro ⟨w,hw,hon⟩
    obtain ⟨i,hi,rfl⟩ := mem_pageList.mp hw
    exact ⟨i,hi,hon⟩
  · rintro ⟨i,hi,hon⟩
    exact ⟨_,pageAt_mem hi,hon⟩

/-- Fewer than 2^52 pages do not wrap around onto each other. -/
theorem pageAt_inj {j : Nat} (hi : i < 0x10000000000000) (hj : j < 0x10000000000000)
    (h : OnPage (pageAt virt i) (pageAt virt j)) : i = j := by
  rw [OnPage,pageAt,pageAt] at h
  omega

theorem apart_pageReqs (hn : n ≤ 0x10000000000000) : Apart (pageReqs virt bytes wr n) := by
  rw [Apart,pageReqs,pairwise_map]
  refine List.Pairwise.imp_of_mem ?_ pairwise_lt_range
  intro i j hi hj hij hon
  have hi := mem_range.mp hi
  have hj := mem_range.mp hj
  exact absurd (pageAt_inj (by omega) (by omega) hon) (ne_of_lt hij)

theorem Laid.find_page {b : Nat} (h : Laid k m m' roots lost x r (pageReqs virt bytes wr n) b)
    (hn : n ≤ 0x10000000000000) (hi : i < n) (hv : UserAddr v) (hon : OnPage (pageAt virt i) v) :
    ∃ f ∈ m.pmm.free, k.reader.find m'.table [] r (indices v) = some ⟨f,userFlags wr⟩ ∧
      m'.byte f = bytes i := by
  have hmem : (⟨pageAt virt i,bytes i,wr⟩ : PageReq) ∈ pageReqs virt bytes wr n :=
    mem_pageReqs.mpr ⟨i,hi,rfl⟩
  obtain ⟨f,hf,-,hfind,hb⟩ := h.placed (apart_pageReqs hn) _ hmem
  rw [(indices_eq_iff hv (h.user _ hmem)).mpr hon]
  exact ⟨f,hf,hfind,hb⟩

theorem Cleared.find_page {l : List Nat} (h : Cleared k m m' roots lost x r l) (hw : w ∈ l)
    (hv : UserAddr v) (hon : OnPage w v) : k.reader.find m'.table [] r (indices v) = none := by
  rw [(indices_eq_iff hv (h.user w hw)).mpr hon]
  exact h.gone w hw

/-- None of the `n` pages from `virt` on is mapped. -/
def Unmapped (k : Machine) (m : Mem) (r virt n : Nat) : Prop :=
  ∀ i < n, k.reader.find m.table [] r (indices (pageAt virt i)) = none

theorem fresh_pageReqs (hn : n ≤ 0x10000000000000) (h : Unmapped k m r virt n) :
    Fresh k m r (pageReqs virt bytes wr n) := by
  refine ⟨apart_pageReqs hn,fun q hq => ?_⟩
  obtain ⟨i,hi,rfl⟩ := mem_pageReqs.mp hq
  exact h i hi

/-- Mapping a device changes the pages of the range only, and loses the frames they had. -/
theorem Sound.deviceMmap {frame : Nat} (h : Sound k m roots lost) (hr : r ∈ roots)
    (hdev : k.total ≤ frame) (hu : ∀ i < n, UserAddr (pageAt virt i)) :
    ∃ x, Sound k (deviceMmap m r virt frame n).1 roots (x+lost) ∧
      Touched k m (deviceMmap m r virt frame n).1 roots r
        (fun v => ∃ i < n, OnPage (pageAt virt i) v) ∧
      (n ≤ 0x10000000000000 → Unmapped k m r virt n → x = 0) := by
  induction n with
  | zero => exact ⟨0,by rwa [zero_add],Touched.refl m roots r _,fun _ _ => rfl⟩
  | succ n ih =>
    obtain ⟨x,hs,ht,hx⟩ := ih fun i hi => hu i (Nat.lt_succ_of_lt hi)
    have hwider (v : Nat) : (∃ i < n, OnPage (pageAt virt i) v) →
        ∃ i < n+1, OnPage (pageAt virt i) v := by
      rintro ⟨i,hi,hv⟩
      exact ⟨i,Nat.lt_succ_of_lt hi,hv⟩
    have hx' : n + 1 ≤ 0x10000000000000 → Unmapped k m r virt (n+1) → x = 0 :=
      fun hn hfree => hx (by omega) fun i hi => hfree i (Nat.lt_succ_of_lt hi)
    have hun := hu n (Nat.lt_succ_self n)
    rw [Lariat.Mm.deviceMmap]
    generalize Lariat.Mm.deviceMmap m r virt frame n = o at hs ht
    obtain ⟨m1,b⟩ := o
    cases b with
    | false => exact ⟨x,hs,ht.mono hwider,hx'⟩
    | true =>
      have hpage : k.page (some ⟨frame+n,{ userFlags true with present := true }⟩) = 0 :=
        if_neg (Nat.not_lt.mpr (Nat.le_add_right_of_le hdev))
      have h1 : Sound k m1 roots
          (k.page (some ⟨frame+n,{ userFlags true with present := true }⟩) + (x+lost)) := by
        rw [hpage,zero_add]
        exact hs
      have hset := h1.mapPageIn rfl hr hun
      dsimp only
      generalize vmmMapPageIn m1 r (pageAt virt n) (frame+n) (userFlags true) = o at hset
      cases hset with
      | done hs2 ht2 =>
        refine ⟨_,by rw [add_assoc]; exact hs2,
          (ht.mono hwider).trans (ht2.mono fun v hv => ⟨n,Nat.lt_succ_self n,hv⟩),?_⟩
        intro hn hfree
        rw [hx' hn hfree,ht.same _ hun,hfree n (Nat.lt_succ_self n)]
        · rfl
        · rintro ⟨i,hi,hon⟩
          exact absurd (pageAt_inj (by omega) (by omega) hon) (ne_of_lt hi)
      | full hs2 ht2 =>
        rw [hpage,zero_add] at hs2
        exact ⟨x,hs2,(ht.mono hwider).trans (ht2 _),hx'⟩

/-- A read into mapped pages writes no frame of another address space. -/
theorem Sound.readInto {base : Nat} (len : Nat) (h : Sound k m roots lost) (hr : r ∈ roots)
    (bytes : Nat → UInt8) (hu : ∀ i < n, UserAddr (pageAt base i)) (A : Nat → Prop) :
    Sound k (readInto m r base len bytes n) roots lost ∧
      Touched k m (readInto m r base len bytes n) roots r A ∧
      (readInto m r base len bytes n).table = m.table ∧
      (readInto m r base len bytes n).pmm = m.pmm := by
  induction n with
  | zero => exact ⟨h,Touched.refl m roots r A,rfl,rfl⟩
  | succ n ih =>
    obtain ⟨hs,ht,htable,hpmm⟩ := ih fun i hi => hu i (Nat.lt_succ_of_lt hi)
    have hun := hu n (Nat.lt_succ_self n)
    rw [Lariat.Mm.readInto]
    generalize Lariat.Mm.readInto m r base len bytes n = m1 at hs ht htable hpmm
    refine ⟨hs.setPage _ _,ht.trans ⟨fun u hu hur f hf => ⟨rfl,?_⟩,fun _ _ _ => rfl⟩,htable,hpmm⟩
    have hne : f ≠ vmmVirtToPhysIn m1 r (pageAt base n) / 4096 := by
      rw [hs.virtToPhys hr hun]
      cases hfind : k.reader.find m1.table [] r (indices (pageAt base n)) with
      | none =>
        rintro rfl
        exact k.zero_notMem (hs.forest.mem_pool_of_owned hu hf)
      | some e =>
        rintro rfl
        rcases leaf_mem rfl (hs.forest.sane r hr) hfind with hmem | hge
        · exact (hs.forest.apart hr hu hur hf).1 hmem
        · exact absurd (hs.lt_total hu _ hf) (not_lt.mpr hge)
    exact Function.update_of_ne hne _ _

end Lariat.Mm
