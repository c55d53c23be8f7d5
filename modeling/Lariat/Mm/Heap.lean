import Lariat.Mm.Conservation

/-! The heap law: what brk keeps and changes. -/
namespace Lariat.Mm

open Foundation.TableTree Reader List Option
open Foundation.Runs

variable {k : Machine} {s s' s₀ : Sys} {m m' : Mem} {roots roots' : Finset Nat}
  {lost lost' x : Multiset Nat} {r t u addr : Nat} {e : Event}

/-- Every page of the heap is mapped for the user to write. -/
def HeapMapped (s : Sys) (t : Nat) : Prop :=
  ∀ v, (s.proc t).brkStart ≤ v → v < roundUp (s.proc t).brkCur →
    ∃ f, mapping s.mem.table (s.proc t).cr3 v = some ⟨f,true,true⟩

/-- Where the break of a process can be: the heap is not set up, or it ends below the arena. -/
def Proc.HeapRange (p : Proc) : Prop :=
  p.brkStart = 0 ∧ p.brkCur = 0 ∨
    p.brkStart = USER_HEAP_BASE ∧ USER_HEAP_BASE ≤ p.brkCur ∧ p.brkCur ≤ USER_MMAP_BASE

/-- The heaps of all processes are in order, and no two processes share an address space. -/
structure HeapsSound (k : Machine) (s : Sys) : Prop where
  housed : ∃ lost, Housed k s lost
  single : ∀ t ∈ s.live, (s.proc t).mmCount = none
  range : ∀ t ∈ s.live, (s.proc t).HeapRange
  mapped : ∀ t ∈ s.live, (s.proc t).cr3 ≠ 0 → HeapMapped s t

variable {v : Nat} {p : Proc}

theorem Sound.mapped_of_find {f : Nat} (h : Sound k m roots lost) (hr : r ∈ roots) (hv : UserAddr v)
    (hfind : k.reader.find m.table [] r (indices v) = some ⟨f,userFlags true⟩) :
    ∃ f, mapping m.table r v = some ⟨f,true,true⟩ := by
  rw [h.mapping_user hr hv,hfind]
  exact ⟨_,rfl⟩

theorem withHeap_range (h : p.HeapRange) : p.withHeap.brkStart = USER_HEAP_BASE ∧
    USER_HEAP_BASE ≤ p.withHeap.brkCur ∧ p.withHeap.brkCur ≤ USER_MMAP_BASE := by
  rw [Proc.withHeap]
  rcases h with ⟨h1,-⟩ | ⟨h1,h2,h3⟩
  · rw [if_pos h1]
    refine ⟨rfl,le_refl _,?_⟩
    show USER_HEAP_BASE ≤ USER_MMAP_BASE
    decide
  · rw [if_neg (by rw [h1]; decide)]
    exact ⟨h1,h2,h3⟩

/-- Below the arena rounding up does not wrap around. -/
theorem roundUp_spec (h : addr ≤ USER_MMAP_BASE) :
    roundUp addr % 4096 = 0 ∧ addr ≤ roundUp addr ∧ roundUp addr < addr+4096 ∧
      roundUp addr ≤ USER_MMAP_BASE := by
  simp only [roundUp,wrap,USER_MMAP_BASE] at h ⊢
  omega

theorem HeapMapped.withHeap (h : HeapMapped s t) :
    ∀ v, (s.proc t).withHeap.brkStart ≤ v → v < roundUp (s.proc t).withHeap.brkCur →
      ∃ f, mapping s.mem.table (s.proc t).cr3 v = some ⟨f,true,true⟩ := by
  intro v h1 h2
  rw [Proc.withHeap] at h1 h2
  split_ifs at h1 h2 with hz
  · have h3 : USER_HEAP_BASE ≤ v := h1
    have h4 : v < roundUp USER_HEAP_BASE := h2
    have h5 : roundUp USER_HEAP_BASE = USER_HEAP_BASE := rfl
    omega
  · exact h v h1 h2

theorem heap_user (h1 : USER_HEAP_BASE ≤ v) (h2 : v < USER_MMAP_BASE) : UserAddr v := by
  simp only [USER_HEAP_BASE,USER_MMAP_BASE,UserAddr] at h1 h2 ⊢
  omega

theorem Proc.HeapRange.user (h : p.HeapRange) (h1 : p.brkStart ≤ v) (h2 : v < roundUp p.brkCur) :
    UserAddr v := by
  rcases h with ⟨hs,hc⟩ | ⟨hs,-,hc⟩
  · rw [hc] at h2
    exact absurd h2 (Nat.not_lt_zero v)
  · have := roundUp_spec hc
    exact heap_user (by omega) (by omega)

/-- The break may go where the heap ends below the arena and the pages can all be had. -/
def BrkAllowed (s : Sys) (t addr : Nat) : Prop :=
  addr = 0 ∨ addr < (s.proc t).withHeap.brkStart ∨
    addr ≤ USER_MMAP_BASE ∧ 4 * growth (s.proc t).withHeap addr ≤ s.mem.pmm.free.card

/-- The address lies between the old break and the new one, both rounded up. -/
def Between (p : Proc) (addr v : Nat) : Prop :=
  min (roundUp p.brkCur) (roundUp addr) ≤ v ∧ v < max (roundUp p.brkCur) (roundUp addr)

/-- Where the two breaks are when the call moves one. -/
structure Moves (p : Proc) (addr : Nat) : Prop where
  cur : roundUp p.brkCur % 4096 = 0 ∧ USER_HEAP_BASE ≤ roundUp p.brkCur ∧
    roundUp p.brkCur ≤ USER_MMAP_BASE
  new : roundUp addr % 4096 = 0 ∧ USER_HEAP_BASE ≤ roundUp addr ∧ roundUp addr ≤ USER_MMAP_BASE

theorem BrkAllowed.moves (hg : BrkAllowed s t addr) (hr : (s.proc t).HeapRange) (hne : addr ≠ 0)
    (hge : (s.proc t).withHeap.brkStart ≤ addr) : Moves (s.proc t).withHeap addr := by
  obtain ⟨h1,h2,h3⟩ := withHeap_range hr
  obtain ⟨hle,-⟩ : addr ≤ USER_MMAP_BASE ∧ _ :=
    (hg.resolve_left hne).resolve_left (not_lt.mpr hge)
  have ha := roundUp_spec hle
  have hc := roundUp_spec h3
  exact ⟨⟨hc.1,by omega,hc.2.2.2⟩,ha.1,by omega,ha.2.2.2⟩

theorem Moves.grow (h : Moves p addr) (hlt : roundUp p.brkCur < roundUp addr) (v : Nat) :
    (∃ i < growth p addr, OnPage (pageAt (roundUp p.brkCur) i) v) ↔ Between p addr v := by
  have hc := h.cur
  have hn := h.new
  have hsize : roundUp p.brkCur + growth p addr * 4096 = roundUp addr := by
    rw [growth]
    omega
  rw [onPage_iff hc.1 (by rw [hsize]; exact le_of_lt (roundUp_lt addr)),hsize,Between,
    min_eq_left (le_of_lt hlt),max_eq_right (le_of_lt hlt)]

theorem Moves.shrink (h : Moves p addr) (hle : roundUp addr ≤ roundUp p.brkCur) (v : Nat) :
    (∃ i < shrinkage p addr, OnPage (pageAt (roundUp addr) i) v) ↔ Between p addr v := by
  have hc := h.cur
  have hn := h.new
  have hsize : roundUp addr + shrinkage p addr * 4096 = roundUp p.brkCur := by
    rw [shrinkage]
    omega
  rw [onPage_iff hn.1 (by rw [hsize]; exact le_of_lt (roundUp_lt p.brkCur)),hsize,Between,
    min_eq_right hle,max_eq_left hle]

theorem Moves.user (h : Moves p addr) (hv : Between p addr v) :
    USER_HEAP_BASE ≤ v ∧ v < USER_MMAP_BASE := by
  have hc := h.cur
  have hn := h.new
  rw [Between] at hv
  omega

theorem brkPages_user (hr : (s.proc t).HeapRange) (hg : BrkAllowed s t addr) :
    ∀ w ∈ brkPages s t addr, UserAddr w := by
  intro w hw
  rw [brkPages] at hw
  split at hw
  · exact absurd hw not_mem_nil
  rename_i hq
  have hm := hg.moves hr (fun h => hq (.inl h)) (not_lt.mp fun h => hq (.inr h))
  have hb : Between (s.proc t).withHeap addr w := by
    split at hw
    · rename_i hlt
      obtain ⟨i,hi,rfl⟩ := mem_pageList.mp hw
      exact (hm.grow hlt _).mp ⟨i,hi,rfl⟩
    · rename_i hle
      obtain ⟨i,hi,rfl⟩ := mem_pageList.mp hw
      exact (hm.shrink (not_lt.mp hle) _).mp ⟨i,hi,rfl⟩
  exact heap_user (hm.user hb).1 (hm.user hb).2

/-- What a brk call answers and does: it moves the break and changes just the pages between the
old one and the new one, or it changes nothing, and below the heap and in the arena it never
changes anything. -/
structure BrkLaw (s : Sys) (t addr : Nat) : Prop where
  outcome : (sysBrk s t addr).2 = addr ∧
      (∀ v, Canonical v → ¬Between (s.proc t).withHeap addr v →
        mapping (sysBrk s t addr).1.mem.table (s.proc t).cr3 v =
          mapping s.mem.table (s.proc t).cr3 v) ∧
      (∀ v, Between (s.proc t).withHeap addr v → roundUp (s.proc t).withHeap.brkCur ≤ v →
        ∃ f, mapping (sysBrk s t addr).1.mem.table (s.proc t).cr3 v = some ⟨f,true,true⟩) ∧
      (∀ v, Between (s.proc t).withHeap addr v → v < roundUp (s.proc t).withHeap.brkCur →
        mapping (sysBrk s t addr).1.mem.table (s.proc t).cr3 v = none) ∨
    (sysBrk s t addr).2 = (s.proc t).withHeap.brkCur ∧
      ∀ v, Canonical v → mapping (sysBrk s t addr).1.mem.table (s.proc t).cr3 v =
        mapping s.mem.table (s.proc t).cr3 v
  outside : ∀ v, Canonical v → v < (s.proc t).withHeap.brkStart ∨ USER_MMAP_BASE ≤ v →
    mapping (sysBrk s t addr).1.mem.table (s.proc t).cr3 v = mapping s.mem.table (s.proc t).cr3 v

theorem sysBrk_law (h : Housed k s lost) (hr : (s.proc t).HeapRange) (ht : t ∈ s.live)
    (h0 : (s.proc t).cr3 ≠ 0) (hg : BrkAllowed s t addr) : BrkLaw s t addr := by
  have hroot := root_mem ht h0
  have hout := sysBrk_outcome h ht h0 (brkPages_user hr hg)
  obtain ⟨hstart,-⟩ := withHeap_range hr
  have hpos : 0 < (s.proc t).withHeap.brkStart := by rw [hstart]; decide
  -- a call that changes the pages between the breaks only has nothing else to show
  have hchange (o : Sys × Int) (ho : sysBrk s t addr = o) (hm : Moves (s.proc t).withHeap addr)
      (h1 : o.2 = addr)
      (h2 : ∀ v, Canonical v → ¬Between (s.proc t).withHeap addr v →
        mapping o.1.mem.table (s.proc t).cr3 v = mapping s.mem.table (s.proc t).cr3 v)
      (h3 : ∀ v, Between (s.proc t).withHeap addr v → roundUp (s.proc t).withHeap.brkCur ≤ v →
        ∃ f, mapping o.1.mem.table (s.proc t).cr3 v = some ⟨f,true,true⟩)
      (h4 : ∀ v, Between (s.proc t).withHeap addr v → v < roundUp (s.proc t).withHeap.brkCur →
        mapping o.1.mem.table (s.proc t).cr3 v = none) : BrkLaw s t addr := by
    rw [← ho] at h1 h2 h3 h4
    refine ⟨.inl ⟨h1,h2,h3,h4⟩,fun v hv hlim => h2 v hv fun hb => ?_⟩
    have := hm.user hb
    omega
  have hkeep (o : Sys × Int) (ho : sysBrk s t addr = o)
      (h1 : o.2 = (s.proc t).withHeap.brkCur) (h2 : o.1.mem = s.mem) : BrkLaw s t addr := by
    rw [← ho] at h1 h2
    exact ⟨.inr ⟨h1,fun v _ => by rw [h2]⟩,fun v _ _ => by rw [h2]⟩
  generalize ho : sysBrk s t addr = o at hout
  cases hout with
  | query => exact hkeep _ ho rfl rfl
  | @grown m' x hge hlt _ hl =>
    have hm := hg.moves hr (by omega) hge
    refine hchange _ ho hm rfl (fun v hv hb => ?_) (fun v hb _ => ?_) (fun v hb hcur => ?_)
    · refine h.sound.mapping_eq hl.sound hroot hroot hv fun huser => hl.touched.same v huser ?_
      rw [covers_pageReqs,hm.grow hlt]
      exact hb
    · have huser := heap_user (hm.user hb).1 (hm.user hb).2
      obtain ⟨i,hi,hon⟩ := (hm.grow hlt v).mpr hb
      obtain ⟨f,-,hfind,-⟩ := hl.find_page (growth_le _ _) hi huser hon
      exact hl.sound.mapped_of_find hroot huser hfind
    · rw [Between,min_eq_left (le_of_lt hlt)] at hb
      omega
  | stuck hge hne hi _ _ hc =>
    -- the pages could all be had
    obtain ⟨-,henough⟩ := (hg.resolve_left hne).resolve_left (not_lt.mpr hge)
    omega
  | shrunk hge hle hpages hc =>
    have hm := hg.moves hr (by omega) hge
    rw [hpages] at hc
    refine hchange _ ho hm rfl (fun v hv hb => ?_) (fun v hb hcur => ?_) (fun v hb _ => ?_)
    · refine h.sound.mapping_eq hc.sound hroot hroot hv fun huser => hc.touched.same v huser ?_
      rw [covers_pageList,hm.shrink hle]
      exact hb
    · rw [Between,max_eq_left hle] at hb
      omega
    · have huser := heap_user (hm.user hb).1 (hm.user hb).2
      obtain ⟨i,hi,hon⟩ := (hm.shrink hle v).mpr hb
      have hmap := hc.sound.mapping_user hroot huser
      rw [hc.find_page (pageAt_mem hi) huser hon] at hmap
      exact hmap

theorem HeapsSound.called (h : HeapsSound k s) (ht : t ∈ s.live) (hc : Called k s s' t lost x)
    (hh : Housed k s lost) (hrange : (s'.proc t).HeapRange)
    (hmapped : (s'.proc t).cr3 ≠ 0 → HeapMapped s' t) : HeapsSound k s' := by
  refine ⟨⟨_,hc.housed⟩,fun u hu => ?_,fun u hu => ?_,fun u hu hu0 => ?_⟩
  · rw [hc.live] at hu
    by_cases hut : u = t
    · subst hut
      rcases hc.mmCount with h1 | h1
      · rw [h1]
        exact h.single u hu
      · exact h1
    · rw [hc.procs u hut]
      exact h.single u hu
  · rw [hc.live] at hu
    by_cases hut : u = t
    · rw [hut]
      exact hrange
    · rw [hc.procs u hut]
      exact h.range u hu
  · by_cases hut : u = t
    · rw [hut] at hu0 ⊢
      exact hmapped hu0
    · have hroot' := root_mem hu hu0
      rw [hc.live] at hu
      have hproc := hc.procs u hut
      rw [hproc] at hu0 hroot'
      have hroot := root_mem hu hu0
      have hmem : (s.proc u).cr3 ∈ s.roots.erase (s.proc t).cr3 := by
        refine Finset.mem_erase.mpr ⟨fun h1 => hut ?_,hroot⟩
        exact hh.sole t ht (h1 ▸ hu0) (h.single t ht) u hu h1
      intro v h1 h2
      rw [hproc] at h1 h2 ⊢
      have huser := (h.range u hu).user h1 h2
      rw [hh.sound.mapping_eq hc.housed.sound hroot hroot' (.inl huser)
        fun _ => hc.others.find_eq hmem v]
      exact h.mapped u hu hu0 v h1 h2

/-- The heap reaches up to the break the call has set. -/
theorem BrkLaw.mapped (law : BrkLaw s t addr) (h : HeapMapped s t)
    (hproc : (sysBrk s t addr).1.proc t = { (s.proc t).withHeap with brkCur := addr })
    (hres : (sysBrk s t addr).2 = addr) (hr : (s.proc t).HeapRange) (hle : addr ≤ USER_MMAP_BASE) :
    HeapMapped (sysBrk s t addr).1 t := by
  obtain ⟨hstart,-,-⟩ := withHeap_range hr
  intro v h1 h2
  rw [hproc] at h1 h2 ⊢
  have h1 : (s.proc t).withHeap.brkStart ≤ v := h1
  have h2 : v < roundUp addr := h2
  have hcr3 := withHeap_cr3 (s.proc t)
  rw [hcr3]
  have huser : UserAddr v := heap_user (by omega) (by have := roundUp_spec hle; omega)
  rcases law.outcome with ⟨-,hsame,hnew,-⟩ | ⟨hold,hsame⟩
  · by_cases hv : v < roundUp (s.proc t).withHeap.brkCur
    · rw [hsame v (.inl huser) fun hb => by rw [Between] at hb; omega]
      exact h.withHeap v h1 hv
    · exact hnew v (by rw [Between]; omega) (not_lt.mp hv)
  rw [hsame v (.inl huser)]
  have haddr : addr = (s.proc t).withHeap.brkCur := by
    rw [hres] at hold
    exact Int.ofNat.inj hold
  exact h.withHeap v h1 (haddr ▸ h2)

theorem HeapsSound.brk (h : HeapsSound k s) (ht : t ∈ s.live) (h0 : (s.proc t).cr3 ≠ 0)
    (hg : BrkAllowed s t addr) : HeapsSound k (sysBrk s t addr).1 := by
  obtain ⟨lost,hh⟩ := h.housed
  have hr := h.range t ht
  have hm := h.mapped t ht h0
  have law := sysBrk_law hh hr ht h0 hg
  have hrange := withHeap_range hr
  obtain ⟨x,hc,-⟩ := sysBrk_called hh ht h0 (brkPages_user hr hg)
  have hmoved (hge : (s.proc t).withHeap.brkStart ≤ addr)
      (hproc : (sysBrk s t addr).1.proc t = { (s.proc t).withHeap with brkCur := addr })
      (hres : (sysBrk s t addr).2 = addr) : HeapsSound k (sysBrk s t addr).1 := by
    have hle : addr ≤ USER_MMAP_BASE := by
      rcases hg with h1 | h1 | h1
      · have := hrange.1
        omega
      · omega
      · exact h1.1
    refine h.called ht hc hh ?_ fun _ => law.mapped hm hproc hres hr hle
    rw [hproc]
    exact .inr ⟨hrange.1,by rw [← hrange.1]; exact hge,hle⟩
  have hout := sysBrk_outcome hh ht h0 (brkPages_user hr hg)
  generalize ho : sysBrk s t addr = o at hout
  cases hout with
  | query =>
    rw [ho] at hc
    refine h.called ht hc hh ?_ fun _ => ?_
    · rw [setProc_same]
      exact .inr hrange
    · intro v h1 h2
      rw [setProc_same] at h1 h2 ⊢
      rw [withHeap_cr3]
      exact hm.withHeap v h1 h2
  | grown hge =>
    rw [← ho]
    exact hmoved hge (by rw [ho]; exact setProc_same _) (by rw [ho])
  | stuck hge hne hi _ _ hcard =>
    obtain ⟨-,henough⟩ := (hg.resolve_left hne).resolve_left (not_lt.mpr hge)
    omega
  | shrunk hge =>
    rw [← ho]
    exact hmoved hge (by rw [ho]; exact setProc_same _) (by rw [ho])

theorem heapMapped_empty (h : roundUp (s.proc t).brkCur ≤ (s.proc t).brkStart) : HeapMapped s t :=
  fun _ h1 h2 => absurd (lt_of_lt_of_le h2 h) (not_lt.mpr h1)

theorem HeapsSound.execve {prog : Program} (h : HeapsSound k s) (ht : t ∈ s.live)
    (h0 : (s.proc t).cr3 ≠ 0) (hu : prog.InUser)
    (hempty : roundUp (s.proc t).brkCur ≤ (s.proc t).brkStart) :
    HeapsSound k (elfExecve s t (.ok prog)).1 := by
  obtain ⟨lost,hh⟩ := h.housed
  obtain ⟨x,hc,-⟩ := elfExecve_called hh ht h0 hu
  have hout := elfExecve_outcome hh ht h0 hu
  generalize elfExecve s t (.ok prog) = o at hc hout
  cases hout with
  | @fresh m1 m' r old y rc counts =>
    refine h.called ht hc hh ?_ fun _ => heapMapped_empty ?_
    · rw [setProc_same]
      exact h.range t ht
    · rw [setProc_same]
      exact hempty
  | reused =>
    refine h.called ht hc hh ?_ fun _ => heapMapped_empty ?_
    · rw [setProc_same]
      exact .inl ⟨rfl,rfl⟩
    · rw [setProc_same]
      show roundUp 0 ≤ 0
      decide

/-- A copied address space maps for writing what the original does. -/
theorem mapped_of_view {c f : Nat} (h : Sound k m roots lost) (hr : r ∈ roots)
    (h' : Sound k m' roots' lost') (hc : c ∈ roots') (hv : UserAddr v)
    (hview : view k m' [] c (indices v) = view k m [] r (indices v))
    (hmap : mapping m.table r v = some ⟨f,true,true⟩) :
    ∃ f, mapping m'.table c v = some ⟨f,true,true⟩ := by
  rw [h.mapping_user hr hv] at hmap
  rw [h'.mapping_user hc hv]
  obtain ⟨e,he,hmap⟩ := map_eq_some_iff.mp hmap
  rw [view,view,he] at hview
  obtain ⟨e',he',hsame⟩ := map_eq_some_iff.mp hview
  have hflags : e'.flags = e.flags := congrArg Prod.fst hsame
  rw [Entry.mapping,Mapping.mk.injEq] at hmap
  rw [he',map_some,Entry.mapping,hflags,hmap.2.1,hmap.2.2]
  exact ⟨_,rfl⟩

theorem HeapsSound.fork (h : HeapsSound k s) (ht : t ∈ s.live) (ok : Bool) :
    HeapsSound k (processFork s t ok) := by
  obtain ⟨lost,hh⟩ := h.housed
  rw [processFork]
  split_ifs with ht0
  · exact h
  have hout := copied_outcome hh ht ht0 (s.proc t).mmCount ok false
  generalize s.copied t (s.proc t).mmCount ok false = s' at hout
  -- what the fork leaves unchanged
  have hold {m' : Mem} {roots' : Finset Nat} {lost' : Multiset Nat} (hs : Sound k m' roots' lost')
      (hsub : s.roots ⊆ roots') (hunch : Unchanged k s.mem m' s.roots) {u : Nat} (hu : u ∈ s.live)
      (hu0 : (s.proc u).cr3 ≠ 0) {v : Nat} (h1 : (s.proc u).brkStart ≤ v)
      (h2 : v < roundUp (s.proc u).brkCur) :
      ∃ f, mapping m'.table (s.proc u).cr3 v = some ⟨f,true,true⟩ := by
    have hroot := root_mem hu hu0
    rw [hh.sound.mapping_eq hs hroot (hsub hroot) (.inl ((h.range u hu).user h1 h2))
      fun _ => hunch.find_eq hroot v]
    exact h.mapped u hu hu0 v h1 h2
  cases hout with
  | failed hx hs hunch =>
    refine ⟨⟨_,hs,hh.sole⟩,h.single,h.range,fun u hu hu0 v h1 h2 => ?_⟩
    exact hold hs (Finset.Subset.refl _) hunch hu hu0 h1 h2
  | @child m' c hc0 hnew hs hunch hview =>
    have hborn := hh.born (p := { s.proc t with cr3 := c }) hc0 hnew hs hunch
    have hchild {u : Nat} (hu : u ∈ insert s.nextTid s.live) (hlive : u ∉ s.live) :
        ((s.setMem m').spawn { s.proc t with cr3 := c }).proc u = { s.proc t with cr3 := c } := by
      obtain rfl := (Finset.mem_insert.mp hu).resolve_right hlive
      exact spawn_new _
    have hsub : s.roots ⊆ insert c s.roots := Finset.subset_insert c s.roots
    refine ⟨⟨_,hborn.housed⟩,fun u hu => ?_,fun u hu => ?_,fun u hu hu0 => ?_⟩
    · by_cases hlive : u ∈ s.live
      · rw [hborn.procs u hlive]
        exact h.single u hlive
      · rw [hborn.fresh u hu hlive]
        exact h.single t ht
    · by_cases hlive : u ∈ s.live
      · rw [hborn.procs u hlive]
        exact h.range u hlive
      · rw [hchild hu hlive]
        exact h.range t ht
    · intro v h1 h2
      by_cases hlive : u ∈ s.live
      · rw [hborn.procs u hlive] at hu0 h1 h2 ⊢
        exact hold hs hsub hunch hlive hu0 h1 h2
      · rw [hchild hu hlive] at h1 h2 ⊢
        obtain ⟨f,hf⟩ := h.mapped t ht ht0 v h1 h2
        exact mapped_of_view hh.sound (root_mem ht ht0) hs (Finset.mem_insert_self c s.roots)
          ((h.range t ht).user h1 h2) (hview (indices v) rfl) hf

/-- The calls that move a break or carry one over. -/
def Event.HeapCall : Event → Prop
  | .brk _ _ => True
  | .fork _ _ => True
  | .execve _ _ => True
  | _ => False

/-- The break stays below the arena and can be had, and only a process without a heap calls
execve, with a program of user addresses. -/
def Event.HeapAllowed (s : Sys) : Event → Prop
  | .brk t addr => BrkAllowed s t addr
  | .execve t (.ok prog) => prog.InUser ∧
      roundUp (s.proc t).brkCur ≤ (s.proc t).brkStart
  | _ => True

/-- A brk call of a process keeps the law of brk. -/
def Event.BrkLawful (s : Sys) : Event → Prop
  | .brk t addr => s.Runs t → (s.proc t).cr3 ≠ 0 → BrkLaw s t addr
  | _ => True

theorem HeapsSound.step (h : HeapsSound k s) (he : e.HeapCall) (hg : e.HeapAllowed s)
    (hstep : step s e = some s') : HeapsSound k s' := by
  cases e with
  | brk t addr =>
    by_cases h0 : (s.proc t).cr3 = 0
    · have hcall : Event.MemoryCall t (.brk t addr) := rfl
      rwa [step_noSpace h0 hcall hstep]
    · obtain ⟨ht,rfl⟩ := runs_of_step hstep
      exact h.brk ht h0 hg
  | fork t ok =>
    obtain ⟨ht,rfl⟩ := runs_of_step hstep
    exact h.fork ht ok
  | execve t prog =>
    by_cases h0 : (s.proc t).cr3 = 0
    · have hcall : Event.MemoryCall t (.execve t prog) := rfl
      rwa [step_noSpace h0 hcall hstep]
    obtain ⟨ht,rfl⟩ := runs_of_step hstep
    cases prog with
    | error rc =>
      rw [elfExecve,if_neg h0]
      exact h
    | ok prog => exact h.execve ht h0 hg.1 hg.2
  | create ok | mmap t addr length write fixed src | munmap t addr length
  | mprotect t addr length write | clone t shareVm luck | exit t | reap t => exact he.elim

theorem HeapsSound.lawful (h : HeapsSound k s) (hg : e.HeapAllowed s) : e.BrkLawful s := by
  obtain ⟨lost,hh⟩ := h.housed
  cases e with
  | brk t addr => exact fun ht h0 => sysBrk_law hh (h.range t ht.1) ht.1 h0 hg
  | _ => trivial

/-- In every run of allowed calls the heaps stay mapped and brk does what it answers. -/
theorem heap_law (h : HeapsSound k s₀) {es : List Event} (he : ∀ e ∈ es, e.HeapCall)
    (hg : Along step (fun s e => e.HeapAllowed s) s₀ es) :
    Always step (fun s => ∀ t ∈ s.live, (s.proc t).cr3 ≠ 0 → HeapMapped s t) s₀ es ∧
      Along step (fun s e => e.BrkLawful s) s₀ es := by
  have hboth : Along step (fun s e => e.HeapCall ∧ e.HeapAllowed s) s₀ es :=
    (Along.of_mem he s₀).and hg
  have hkeep (s : Sys) (e : Event) (s' : Sys) (hs : HeapsSound k s)
      (hg : e.HeapCall ∧ e.HeapAllowed s) (hstep : step s e = some s') : HeapsSound k s' :=
    hs.step hg.1 hg.2 hstep
  exact ⟨always_of_along (fun s hs => hs.mapped) hkeep s₀ es h hboth,
    hboth.meets hkeep h fun s e hs hg => hs.lawful hg.2⟩

theorem firstProcess_heaps : HeapsSound bootMachine firstProcess := by
  have hlive : ∀ t ∈ firstProcess.live, t = 0 := by decide
  refine ⟨⟨0,firstProcess_housed⟩,fun t ht => ?_,fun t ht => ?_,fun t ht _ => ?_⟩
  · rw [hlive t ht]
    rfl
  · rw [hlive t ht]
    exact .inl ⟨rfl,rfl⟩
  · rw [hlive t ht]
    exact heapMapped_empty (by decide)

theorem first_break_lawful : Along step (fun s e => e.BrkLawful s) firstProcess
    [.brk 0 0x50001000,.fork 0 true] := by
  have hrun : Along step (fun s e => e.HeapAllowed s) firstProcess
      [.brk 0 0x50001000,.fork 0 true] :=
    ⟨.inr (.inr ⟨by decide,by decide⟩),fun _ _ => ⟨trivial,fun _ _ => trivial⟩⟩
  refine (heap_law firstProcess_heaps (fun e he => ?_) hrun).2
  rcases mem_cons.mp he with rfl | he
  · trivial
  · rw [mem_singleton.mp he]
    trivial

/-- execve of a process with a heap keeps the break and drops the pages. -/
theorem execve_drops_heap {prog : Program} (h : HeapsSound k s) (ht : t ∈ s.live)
    (h0 : (s.proc t).cr3 ≠ 0) (hu : prog.InUser)
    (hfree : 2 ≤ s.mem.pmm.free.card) (hheap : (s.proc t).brkStart < roundUp (s.proc t).brkCur)
    (hout : ¬Covers prog.pages (s.proc t).brkStart) :
    ¬∀ u ∈ (elfExecve s t (.ok prog)).1.live, ((elfExecve s t (.ok prog)).1.proc u).cr3 ≠ 0 →
      HeapMapped (elfExecve s t (.ok prog)).1 u := by
  obtain ⟨lost,hh⟩ := h.housed
  have huser := (h.range t ht).user (le_refl _) hheap
  have hres := elfExecve_outcome hh ht h0 hu
  generalize elfExecve s t (.ok prog) = o at hres
  cases hres with
  | reused hcard => omega
  | @fresh m1 m' r old x rc counts hr0 hnew hunch hnone hold hload =>
    intro hm
    have hroot : r ∈ (insert r s.roots).erase old := by
      refine Finset.mem_erase.mpr ⟨?_,Finset.mem_insert_self r s.roots⟩
      rcases hold with ⟨-,rfl,-⟩ | ⟨c,-,rfl,-⟩
      · exact fun h1 => hnew (h1 ▸ root_mem ht h0)
      · exact hr0
    have hmap := hm t ht
    dsimp only [HeapMapped] at hmap
    rw [setProc_same] at hmap
    have hmap := hmap hr0 (s.proc t).brkStart
    obtain ⟨f,hf⟩ := hmap (le_refl _) hheap
    have hmap : mapping m'.table r (s.proc t).brkStart = some ⟨f,true,true⟩ := hf
    rw [hload.sound.mapping_user hroot huser,hload.same _ huser hout,hnone] at hmap
    cases hmap

/-- The first process after its first brk. -/
def firstBreak : Sys := (sysBrk firstProcess 0 0x50001000).1

/-- The heap of the first process is gone after execve although its break is not. -/
theorem execve_breaks_heap_law : HeapsSound bootMachine firstProcess ∧
    ¬Always step (fun s => ∀ t ∈ s.live, (s.proc t).cr3 ≠ 0 → HeapMapped s t) firstProcess
      [.brk 0 0x50001000,.execve 0 (.ok (.flat 0 fun _ => 0))] := by
  refine ⟨firstProcess_heaps,fun h => ?_⟩
  have hheaps : HeapsSound bootMachine firstBreak :=
    firstProcess_heaps.brk (by decide) (by decide) (.inr (.inr ⟨by decide,by decide⟩))
  have hrun : firstBreak.Runs 0 := by decide
  have hstep : step firstBreak (.execve 0 (.ok (.flat 0 fun _ => 0))) =
      some (elfExecve firstBreak 0 (.ok (.flat 0 fun _ => 0))).1 := by
    rw [step,if_pos hrun]
  have hlast := (h.2 firstBreak rfl).2 _ hstep
  refine execve_drops_heap hheaps hrun.1 (by decide) ⟨fun q hq => ?_,fun v hv => ?_⟩ (by decide)
    (by decide) ?_ hlast
  · exact absurd hq not_mem_nil
  · exact absurd hv not_mem_nil
  · rintro ⟨q,hq,hon⟩
    rcases mem_append.mp hq with hq | hq
    · exact absurd hq not_mem_nil
    obtain ⟨i,hi,rfl⟩ := mem_pageReqs.mp hq
    have hstart : (firstBreak.proc 0).brkStart = 0x50000000 := rfl
    rw [OnPage,hstart,pageAt] at hon
    simp only [USER_STACK_TOP,USER_STACK_PAGES] at hi hon
    omega

end Lariat.Mm
