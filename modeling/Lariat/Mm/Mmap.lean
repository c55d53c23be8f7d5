import Lariat.Mm.ForkCopy

/-! The mmap law: what a mapping that is not at a fixed address finds, makes and leaves alone. -/
namespace Lariat.Mm

open Foundation.TableTree Reader Function Finset Option

/-- What is mapped: zero pages, or a regular file given by its bytes, the offset, and how much the
file system's read delivers, if it does not fail. -/
inductive MapSource
  | anonymous
  | file (data : List UInt8) (offset : Nat) (limit : Option Nat)

/-- Where `lseek` goes: the offset is signed, and a position before the file is its start. -/
def seekSet (offset : Nat) : Nat := if offset < 0x8000000000000000 then offset else 0

/-- What `vfs_read` delivers from there. -/
def fileRead (data : List UInt8) (offset length : Nat) (limit : Option Nat) : List UInt8 :=
  (data.drop (seekSet offset)).take (min length (limit.getD 0))

def MapSource.backing (length : Nat) : MapSource → Backing
  | .anonymous => .anonymous
  | .file data offset limit =>
    .file (fileRead data offset length limit).length
      fun i => (fileRead data offset length limit).getD i 0

/-- What the mapping ought to hold: the file's bytes from the offset on and then zeros. -/
def MapSource.contents : MapSource → Nat → UInt8
  | .anonymous, _ => 0
  | .file data offset _, i => data.getD (offset+i) 0

/-- What it does hold, fresh pages being zero. -/
def MapSource.delivered (length : Nat) : MapSource → Nat → UInt8
  | .anonymous, _ => 0
  | .file data offset limit, i => (fileRead data offset length limit).getD i 0

variable {k : Machine} {s : Sys} {m m' : Mem} {roots : Finset Nat} {lost x : Multiset Nat}
  {r t base length n : Nat}

section Reading

/-- The frame behind the `i`-th page of a range. -/
def frameAt (m : Mem) (r base i : Nat) : Nat := vmmVirtToPhysIn m r (pageAt base i) / 4096

theorem readInto_table (m : Mem) (r base len : Nat) (bytes : Nat → UInt8) (n : Nat) :
    (readInto m r base len bytes n).table = m.table := by
  induction n with
  | zero => rfl
  | succ n ih => exact ih

theorem frameAt_congr (h : m'.table = m.table) (r base i : Nat) :
    frameAt m' r base i = frameAt m r base i := by
  rw [frameAt,frameAt,vmmVirtToPhysIn_eq,vmmVirtToPhysIn_eq,h]

theorem readInto_succ (len : Nat) (bytes : Nat → UInt8) :
    (readInto m r base len bytes (n+1)).byte =
      update (readInto m r base len bytes n).byte (frameAt m r base n) fun o =>
        if n * 4096+o < len then bytes (n*4096 + o)
        else (readInto m r base len bytes n).byte (frameAt m r base n) o := by
  rw [← frameAt_congr (readInto_table m r base len bytes n)]
  rfl

theorem readInto_other {len f : Nat} (bytes : Nat → UInt8) (hf : ∀ i < n, frameAt m r base i ≠ f) :
    (readInto m r base len bytes n).byte f = m.byte f := by
  induction n with
  | zero => rfl
  | succ n ih =>
    rw [readInto_succ,update_of_ne (hf n (Nat.lt_succ_self n)).symm]
    exact ih fun i hi => hf i (Nat.lt_succ_of_lt hi)

/-- Each page of the range gets its part of what is read, the pages being in frames of their own. -/
theorem readInto_byte (len : Nat) {j : Nat} (bytes : Nat → UInt8)
    (hinj : ∀ i < n, ∀ j < n, frameAt m r base i = frameAt m r base j → i = j) (hj : j < n)
    (o : Nat) : (readInto m r base len bytes n).byte (frameAt m r base j) o =
      if j * 4096+o < len then bytes (j*4096 + o) else m.byte (frameAt m r base j) o := by
  induction n with
  | zero => exact absurd hj (Nat.not_lt_zero j)
  | succ n ih =>
    have hinj' : ∀ i < n, ∀ j < n, frameAt m r base i = frameAt m r base j → i = j :=
      fun i hi j hj => hinj i (Nat.lt_succ_of_lt hi) j (Nat.lt_succ_of_lt hj)
    rw [readInto_succ]
    rcases Nat.lt_succ_iff_lt_or_eq.mp hj with hlt | rfl
    · have hne : frameAt m r base j ≠ frameAt m r base n :=
        fun h => Nat.ne_of_lt hlt (hinj j hj n (Nat.lt_succ_self n) h)
      rw [update_of_ne hne]
      exact ih hinj' hlt
    · rw [update_self,readInto_other bytes fun i hi h =>
        Nat.ne_of_lt hi (hinj i (Nat.lt_succ_of_lt hi) j hj h)]

end Reading

/-- The range lies in user space, on page boundaries. -/
structure UserRange (base n : Nat) : Prop where
  aligned : base % 4096 = 0
  low : 0x40000000 ≤ base
  high : base + n*4096 ≤ 0x800000000000

variable {i : Nat}

theorem UserRange.pageAt_eq (h : UserRange base n) (hi : i < n) :
    pageAt base i = base+i * 4096 := by
  have := h.high
  rw [pageAt]
  exact Nat.mod_eq_of_lt (by omega)

theorem UserRange.user (h : UserRange base n) (hi : i < n*4096) : UserAddr (base+i) := by
  have h1 := h.low
  have h2 := h.high
  exact ⟨by omega,by omega⟩

theorem UserRange.page_user (h : UserRange base n) (hi : i < n) : UserAddr (pageAt base i) := by
  rw [h.pageAt_eq hi]
  exact h.user (by omega)

theorem UserRange.onPage (h : UserRange base n) (hi : i < n*4096) :
    OnPage (pageAt base (i / 4096)) (base+i) := by
  have := h.aligned
  rw [h.pageAt_eq (by omega),OnPage]
  omega

section Pages

variable {bytes : Nat → Nat → UInt8} {wr : Bool} {b : Nat}

section Pages

variable (h : Laid k m m' roots lost x r (pageReqs base bytes wr n) b) (hr : r ∈ roots)
  (hn : n ≤ 0x10000000000000) (hur : UserRange base n)
include h hr hn hur

/-- The page behind an address of a range just mapped. -/
theorem Laid.page {i : Nat} (hi : i < n*4096) : k.reader.find m'.table [] r (indices (base+i)) =
        some ⟨frameAt m' r base (i / 4096),userFlags wr⟩ ∧
      frameAt m' r base (i / 4096) ∈ m.pmm.free ∧
      m'.byte (frameAt m' r base (i / 4096)) = bytes (i / 4096) := by
  have hj : i / 4096 < n := by omega
  have hu := hur.user hi
  have hup := hur.page_user hj
  have hon := hur.onPage hi
  obtain ⟨f,hf,hfind,hb⟩ := h.find_page hn hj hu hon
  have hpage : k.reader.find m'.table [] r (indices (pageAt base (i / 4096))) =
      some ⟨f,userFlags wr⟩ := by
    rw [← (indices_eq_iff hu hup).mpr hon]
    exact hfind
  have hframe : frameAt m' r base (i / 4096) = f := by
    rw [frameAt,h.sound.virtToPhys hr hup,hpage]
    rfl
  rw [hframe]
  exact ⟨hfind,hf,hb⟩

theorem Laid.frames_inj {i j : Nat} (hi : i < n) (hj : j < n)
    (heq : frameAt m' r base i = frameAt m' r base j) : i = j := by
  obtain ⟨hfi,-,-⟩ := h.page hr hn hur (i := i*4096) (by omega)
  obtain ⟨hfj,hfree,-⟩ := h.page hr hn hur (i := j*4096) (by omega)
  have hdiv (a : Nat) : a * 4096 / 4096 = a := Nat.mul_div_cancel a (Nat.succ_pos 4095)
  rw [hdiv] at hfi hfj hfree
  have hlt : frameAt m' r base j < k.total := by
    have hmem := (Pmm.mem_free.mp hfree).1
    rw [← h.spent.totalPages,h.sound.intact.total] at hmem
    exact hmem
  have hpage := h.sound.same_page hr (hur.user (by omega)) (hur.user (by omega)) hfj hfi hlt heq
  rw [OnPage] at hpage
  have := hur.aligned
  omega

theorem Laid.pages_le : n ≤ m.pmm.free.card := by
  have hmaps : ∀ i ∈ Finset.range n, frameAt m' r base i ∈ m.pmm.free := fun i hi => by
    have hi := mem_range.mp hi
    have hpage := (h.page hr hn hur (i := i*4096) (by omega)).2.1
    rwa [Nat.mul_div_cancel i (Nat.succ_pos 4095)] at hpage
  have hinj : Set.InjOn (frameAt m' r base) (Finset.range n) := fun i hi j hj heq =>
    h.frames_inj hr hn hur (mem_range.mp hi) (mem_range.mp hj) heq
  have hcard := card_le_card_of_injOn _ hmaps hinj
  rwa [card_range] at hcard

end Pages

end Pages

/-- The pages of `[base, base + length)`. -/
def OnRange (base length v : Nat) : Prop := ∃ i < length, OnPage (base+i) v

/-- The mapping of `[base, base + length)` is new, whole and right, and no other has changed. -/
structure NewMapping (s s' : Sys) (t base length : Nat) (contents : Nat → UInt8) : Prop where
  unmapped : ∀ i < length, mapping s.mem.table (s.proc t).cr3 (base+i) = none
  mapped : ∀ i < length, ∃ a, mapping s'.mem.table (s.proc t).cr3 (base+i) = some a ∧
    a.user = true
  contents : ∀ i < length, loadByte s'.mem (s.proc t).cr3 (base+i) = some (contents i)
  others : ∀ u ∈ s.live, (s.proc u).cr3 ≠ 0 → ∀ v, Canonical v →
    ¬((s.proc u).cr3 = (s.proc t).cr3 ∧ OnRange base length v) →
    mapping s'.mem.table (s.proc u).cr3 v = mapping s.mem.table (s.proc u).cr3 v

/-- No page of the range is mapped. -/
def Unclaimed (s : Sys) (t base n : Nat) : Prop :=
  ∀ i < n, mapping s.mem.table (s.proc t).cr3 (base+i * 4096) = none

/-- What a mapping needs: a length whose pages can be counted in 64 bits, a range that nothing is
mapped in, and a file system that delivers the file. -/
structure MapFits (s : Sys) (t base length : Nat) (src : MapSource) : Prop where
  size : length ≤ 0xFFFFFFFFFFFFF000
  free : Unclaimed s t base (pagesOf length)
  delivers : ∀ i < length, src.delivered length i = src.contents i

theorem pagesOf_of_le (h : length ≤ 0xFFFFFFFFFFFFF000) (h0 : 0 < length) :
    (pagesOf length - 1) * 4096 < length ∧ length ≤ pagesOf length * 4096 := by
  rw [pagesOf,wrap]
  omega

theorem pagesOf_of_gt (h : 0xFFFFFFFFFFFFF000 < length) (h64 : length < 0x10000000000000000) :
    pagesOf length = 0 := by
  rw [pagesOf,wrap]
  omega

theorem Sound.mapping_eq_none {v : Nat} (h : Sound k m roots lost) (hr : r ∈ roots)
    (hv : UserAddr v) :
    mapping m.table r v = none ↔ k.reader.find m.table [] r (indices v) = none := by
  rw [h.mapping_user hr hv,map_eq_none_iff]

section Call

variable {src : MapSource}

theorem MapSource.fill_table (src : MapSource) (m : Mem) (r base length : Nat) :
    ((src.backing length).fill r base length m).table = m.table := by
  cases src with
  | anonymous => rfl
  | file => exact readInto_table m r base _ _ _

/-- The bytes of fresh pages once the file is read into them. -/
theorem MapSource.fill_byte (src : MapSource) {i : Nat}
    (hinj : ∀ i < pagesOf length, ∀ j < pagesOf length,
      frameAt m r base i = frameAt m r base j → i = j)
    (hi : i < length) (hi' : i < pagesOf length * 4096)
    (hzero : m.byte (frameAt m r base (i / 4096)) = fun _ => 0) :
    ((src.backing length).fill r base length m).byte (frameAt m r base (i / 4096)) (i % 4096) =
      src.delivered length i := by
  cases src with
  | anonymous =>
    show m.byte _ _ = 0
    rw [hzero]
  | file data offset limit =>
    have hsplit : i / 4096*4096 + i % 4096 = i := Nat.div_add_mod' i 4096
    have hread := readInto_byte (min (fileRead data offset length limit).length length)
      (fun i => (fileRead data offset length limit).getD i 0) hinj
      (Nat.div_lt_of_lt_mul (by rw [Nat.mul_comm]; exact hi')) (i % 4096)
    rw [hsplit,hzero] at hread
    refine hread.trans ?_
    show _ = (fileRead data offset length limit).getD i 0
    by_cases hlt : i < (fileRead data offset length limit).length
    · rw [if_pos (Nat.lt_min.mpr ⟨hlt,hi⟩)]
    · rw [if_neg fun h => hlt (Nat.lt_min.mp h).1,List.getD_eq_getElem?_getD,
        List.getElem?_eq_none (Nat.le_of_not_lt hlt),getD_none]

variable {wr : Bool} {b : Nat}

/-- Pages of the range lie in `[base, base + length)`. -/
theorem onRange_of_page {v : Nat} (hur : UserRange base (pagesOf length))
    (hsize : length ≤ 0xFFFFFFFFFFFFF000) (h0 : 0 < length)
    (h : ∃ i < pagesOf length, OnPage (pageAt base i) v) : OnRange base length v := by
  obtain ⟨i,hi,hon⟩ := h
  have := (pagesOf_of_le hsize h0).1
  rw [hur.pageAt_eq hi] at hon
  refine ⟨i*4096,?_,hon⟩
  have hle : i * 4096 ≤ (pagesOf length - 1) * 4096 := Nat.mul_le_mul_right 4096 (by omega)
  exact Nat.lt_of_le_of_lt hle this

/-- What mapping the pages and filling them makes. -/
theorem Laid.newMapping (src : MapSource) {p : Proc} (h : Housed k s lost) (ht : t ∈ s.live)
    (h0 : (s.proc t).cr3 ≠ 0) (hlen : 0 < length) (hur : UserRange base (pagesOf length))
    (hsize : length ≤ 0xFFFFFFFFFFFFF000) (hfree : Unclaimed s t base (pagesOf length))
    (hl : Laid k s.mem m' s.roots lost x (s.proc t).cr3
      (pageReqs base (fun _ _ => 0) wr (pagesOf length)) b) :
    NewMapping s ((s.setMem ((src.backing length).fill (s.proc t).cr3 base length m')).setProc t p)
      t base length (src.delivered length) := by
  have hr := root_mem ht h0
  have hpages := (pagesOf_of_le hsize hlen).2
  have htable := src.fill_table m' (s.proc t).cr3 base length
  refine ⟨fun i hi => ?_,fun i hi => ?_,fun i hi => ?_,fun u hu hu0 v hv hnot => ?_⟩
  · have hi' : i < pagesOf length * 4096 := by omega
    have hnone := hfree (i / 4096) (by omega)
    rw [← hur.pageAt_eq (by omega),h.sound.mapping_eq_none hr (hur.page_user (by omega))] at hnone
    rw [h.sound.mapping_eq_none hr (hur.user hi'),
      (indices_eq_iff (hur.user hi') (hur.page_user (by omega))).mpr (hur.onPage hi')]
    exact hnone
  · have hi' : i < pagesOf length * 4096 := by omega
    obtain ⟨hfind,-,-⟩ := hl.page hr (pagesOf_le _) hur hi'
    rw [setProc_mem,htable,hl.sound.mapping_user hr (hur.user hi'),hfind]
    exact ⟨_,rfl,rfl⟩
  · have hi' : i < pagesOf length * 4096 := by omega
    obtain ⟨hfind,-,hzero⟩ := hl.page hr (pagesOf_le _) hur hi'
    have hbyte := src.fill_byte (fun i hi j hj => hl.frames_inj hr (pagesOf_le _) hur hi hj) hi hi'
      hzero
    have hoff : (base+i) % 4096 = i % 4096 := by
      have := hur.aligned
      omega
    rw [setProc_mem,loadByte,htable,hl.sound.mapping_user hr (hur.user hi'),hfind]
    simp only [map_some,Entry.mapping,phys_frame,phys_offset,hoff,hbyte]
  · have hru := root_mem hu hu0
    rw [setProc_mem,htable]
    refine h.sound.mapping_eq hl.sound hru hru hv fun huser => ?_
    by_cases hcr3 : (s.proc u).cr3 = (s.proc t).cr3
    · rw [hcr3]
      refine hl.touched.same v huser fun hcov => hnot ⟨hcr3,?_⟩
      exact onRange_of_page hur hsize hlen (covers_pageReqs.mp hcov)
    · exact hl.touched.find_other hru hcr3 v

/-- The user pages of every thread are where they were. -/
def SameMappings (s s' : Sys) : Prop :=
  ∀ u ∈ s.live, (s.proc u).cr3 ≠ 0 → ∀ v, Canonical v →
    mapping s'.mem.table (s.proc u).cr3 v = mapping s.mem.table (s.proc u).cr3 v

/-- Pages mapped and unmapped again leave no trace exactly when nothing was in their place. -/
theorem Laid.undone_iff {m1 : Mem} {y : Multiset Nat} {i : Nat} {p : Proc} (h : Housed k s lost)
    (ht : t ∈ s.live) (h0 : (s.proc t).cr3 ≠ 0) (hur : UserRange base n) (hi : i < n)
    (hl : Laid k s.mem m1 s.roots lost x (s.proc t).cr3 (pageReqs base (fun _ _ => 0) wr i) b)
    (hcl : Cleared k m1 m' s.roots (x+lost) y (s.proc t).cr3 (pageList base i)) :
    SameMappings s ((s.setMem m').setProc t p) ↔ Unclaimed s t base i := by
  have hr := root_mem ht h0
  constructor
  · intro hsame j hj
    have hu := hur.page_user (lt_trans hj hi)
    have hmap := hsame t ht h0 _ (.inl hu)
    rw [← hur.pageAt_eq (lt_trans hj hi),← hmap,setProc_mem]
    exact (hcl.sound.mapping_eq_none hr hu).mpr (hcl.find_page (pageAt_mem hj) hu rfl)
  · intro hfree u hu hu0 v hv
    have hru := root_mem hu hu0
    rw [setProc_mem]
    refine h.sound.mapping_eq hcl.sound hru hru hv fun huser => ?_
    by_cases hcr3 : (s.proc u).cr3 = (s.proc t).cr3
    · rw [hcr3]
      by_cases hcov : ∃ j < i, OnPage (pageAt base j) v
      · obtain ⟨j,hj,hon⟩ := hcov
        have hjn : j < n := lt_trans hj hi
        have hnone := hfree j hj
        rw [← hur.pageAt_eq hjn,h.sound.mapping_eq_none hr (hur.page_user hjn)] at hnone
        rw [hcl.find_page (pageAt_mem hj) huser hon,
          (indices_eq_iff huser (hur.page_user hjn)).mpr hon,hnone]
      · rw [hcl.touched.same v huser fun h1 => hcov (covers_pageList.mp h1),
          hl.touched.same v huser fun h1 => hcov (covers_pageReqs.mp h1)]
    · rw [hcl.touched.find_other hru hcr3 v,hl.touched.find_other hru hcr3 v]

/-- Pages after one that could not be mapped are not tried. -/
theorem mapPages_stopped {bytes : Nat → Nat → UInt8} {i j : Nat}
    (h : (mapPages m r base bytes wr n).2 = some i) (hle : n ≤ j) :
    mapPages m r base bytes wr j = mapPages m r base bytes wr n := by
  induction j, hle using Nat.le_induction with
  | base => rfl
  | succ j _ ih =>
    rw [mapPages,ih]
    generalize mapPages m r base bytes wr n = o at h
    obtain ⟨m1,_ | i⟩ := o
    · cases h
    · rfl

/-- Only the pages that can be tried need be user addresses: one more than there is memory for. -/
theorem mapPages_tried (h : Sound k m roots lost) (hr : r ∈ roots) (wr : Bool)
    (hn : n ≤ 0x10000000000000)
    (hur : UserRange base (min n (m.pmm.free.card + 1))) :
    PagesMapped k m roots lost r base (fun _ _ => 0) wr (min n (m.pmm.free.card + 1))
      (mapPages m r base (fun _ _ => 0) wr n) ∧
    ((mapPages m r base (fun _ _ => 0) wr n).2 = none → min n (m.pmm.free.card + 1) = n) := by
  have hp := h.mapPages hr (fun _ _ => 0) wr fun i hi => hur.page_user hi
  by_cases hle : n ≤ m.pmm.free.card + 1
  · rw [Nat.min_eq_left hle] at hp ⊢
    exact ⟨hp,fun _ => rfl⟩
  · rw [Nat.min_eq_right (Nat.le_of_not_le hle)] at hp hur ⊢
    have hsome : ∃ i, (mapPages m r base (fun _ _ => 0) wr (m.pmm.free.card + 1)).2 = some i := by
      generalize mapPages m r base (fun _ _ => 0) wr (m.pmm.free.card + 1) = o at hp
      cases hp with
      | done hl => exact absurd (hl.pages_le hr (by omega) hur) (Nat.not_succ_le_self _)
      | full => exact ⟨_,rfl⟩
    obtain ⟨i,hi⟩ := hsome
    rw [mapPages_stopped hi (Nat.le_of_not_le hle),hi]
    exact ⟨hp,nofun⟩

theorem MapSource.sysMmap_eq (src : MapSource) {addr : Nat} {write : Bool}
    (h0 : (s.proc t).cr3 ≠ 0) (hlen : length ≠ 0) :
    sysMmap s t addr length write false (src.backing length) =
      mmapPages s t (s.proc t).withArena.mmapNext (pagesOf length) (s.proc t).withArena
        ((src.backing length).writable write)
        ((src.backing length).fill (s.proc t).cr3 (s.proc t).withArena.mmapNext length) := by
  rw [sysMmap,if_neg h0,if_neg hlen,if_neg fun h => Bool.false_ne_true h.1]
  dsimp only
  rw [if_neg fun h => Bool.false_ne_true h.1]
  cases src with
  | anonymous => rfl
  | file data offset limit =>
    rw [withArena_cr3]
    rfl

/-- How many pages a call maps before there is no memory left for one. -/
def MapSource.pagesMapped (src : MapSource) (s : Sys) (t length : Nat) (write : Bool) : Nat :=
  ((mapPages s.mem (s.proc t).cr3 (s.proc t).withArena.mmapNext (fun _ _ => 0)
    ((src.backing length).writable write) (pagesOf length)).2).getD (pagesOf length)

theorem NewMapping.congr {s' : Sys} {f g : Nat → UInt8} (h : NewMapping s s' t base length f)
    (hfg : ∀ i < length, f i = g i) : NewMapping s s' t base length g :=
  ⟨h.unmapped,h.mapped,fun i hi => by rw [← hfg i hi]; exact h.contents i hi,h.others⟩

/-- A mapping that was made is a new one exactly when nothing was in its place, the length can be
counted in pages and the file was delivered. A call that fails changes no mapping exactly when
nothing was in the place of the pages it had mapped. -/
theorem mmap_law {addr : Nat} {write : Bool} {s' : Sys} {rc : Int} (h : Housed k s lost)
    (ht : t ∈ s.live) (hlen : length < 0x10000000000000000)
    (hur : UserRange (s.proc t).withArena.mmapNext
      (min (pagesOf length) (s.mem.pmm.free.card + 1)))
    (hcall : sysMmap s t addr length write false (src.backing length) = (s',rc)) :
    (∀ base : Nat, rc = base →
      (NewMapping s s' t base length src.contents ↔ MapFits s t base length src)) ∧
    (rc < 0 → (SameMappings s s' ↔ (s.proc t).cr3 ≠ 0 →
      Unclaimed s t (s.proc t).withArena.mmapNext (src.pagesMapped s t length write))) := by
  by_cases h0 : (s.proc t).cr3 = 0
  · rw [sysMmap,if_pos h0] at hcall
    cases hcall
    refine ⟨fun base hb => ?_,fun _ => iff_of_true (fun _ _ _ _ _ => rfl) fun h => absurd h0 h⟩
    have : (-ENOMEM : Int) < 0 := by decide
    omega
  by_cases hz : length = 0
  · rw [sysMmap,if_neg h0,if_pos hz] at hcall
    cases hcall
    refine ⟨fun base hb => ?_,fun _ => iff_of_true (fun _ _ _ _ _ => rfl) fun _ i hi => ?_⟩
    · have : (-EINVAL : Int) < 0 := by decide
      omega
    · subst hz
      exact absurd hi (Nat.not_lt_zero i)
  have hr := root_mem ht h0
  rw [src.sysMmap_eq h0 hz,mmapPages,withArena_cr3] at hcall
  obtain ⟨hp,hall⟩ := mapPages_tried h.sound hr ((src.backing length).writable write)
    (pagesOf_le length) hur
  have hnoPages (hp : pagesOf length = 0) : (mapPages s.mem (s.proc t).cr3
      (s.proc t).withArena.mmapNext (fun _ _ => 0) ((src.backing length).writable write)
      (pagesOf length)).1 = s.mem := by rw [hp]; rfl
  rw [forall_prop_of_true h0,MapSource.pagesMapped]
  generalize mapPages s.mem (s.proc t).cr3 (s.proc t).withArena.mmapNext (fun _ _ => 0)
    ((src.backing length).writable write) (pagesOf length) = o at hp hall hcall hnoPages
  cases hp with
  | @done m1 x hl =>
    rw [hall rfl] at hl hur
    cases hcall
    refine ⟨fun base hb => ?_,fun hneg => by omega⟩
    obtain rfl : (s.proc t).withArena.mmapNext = base := by omega
    have hnew := fun hsize hfree => hl.newMapping src (p := (s.proc t).withArena.bump
      (s.proc t).withArena.mmapNext (pagesOf length)) h ht h0 (pos_of_ne_zero hz) hur hsize hfree
    constructor
    · intro hmade
      have hsize : length ≤ 0xFFFFFFFFFFFFF000 := by
        by_contra hgt
        obtain ⟨a,ha,-⟩ := hmade.mapped 0 (pos_of_ne_zero hz)
        have hnone := hmade.unmapped 0 (pos_of_ne_zero hz)
        obtain rfl : m1 = s.mem := hnoPages (pagesOf_of_gt (Nat.lt_of_not_le hgt) hlen)
        rw [setProc_mem,src.fill_table] at ha
        cases ha.symm.trans hnone
      have hfree : Unclaimed s t (s.proc t).withArena.mmapNext (pagesOf length) := by
        intro i hi
        have := (pagesOf_of_le hsize (pos_of_ne_zero hz)).1
        have hle : i * 4096 ≤ (pagesOf length - 1) * 4096 := Nat.mul_le_mul_right 4096 (by omega)
        exact hmade.unmapped _ (Nat.lt_of_le_of_lt hle this)
      refine ⟨hsize,hfree,fun i hi => ?_⟩
      exact some.inj (((hnew hsize hfree).contents i hi).symm.trans (hmade.contents i hi))
    · intro hfits
      exact (hnew hfits.size hfits.free).congr hfits.delivers
  | @full m1 x i hi hl =>
    obtain ⟨y,hcl⟩ := hl.sound.unmapRangeIn hr fun j hj => hur.page_user (lt_trans hj hi)
    cases hcall
    refine ⟨fun base hb => ?_,fun _ => hl.undone_iff h ht h0 hur hi hcl⟩
    have : (-ENOMEM : Int) < 0 := by decide
    omega

end Call

/-- A page of a file mapped in the first process of the small machine. -/
theorem file_mapped : ∃ s', sysMmap firstProcess 0 0 100 false false
      ((MapSource.file [1,2,3] 1 (some 100)).backing 100) = (s',(USER_MMAP_BASE : Int)) ∧
    NewMapping firstProcess s' 0 USER_MMAP_BASE 100 (MapSource.contents (.file [1,2,3] 1 (some 100))) := by
  have hcall : (sysMmap firstProcess 0 0 100 false false
      ((MapSource.file [1,2,3] 1 (some 100)).backing 100)).2 = USER_MMAP_BASE := by decide +kernel
  refine ⟨_,Prod.ext rfl hcall,?_⟩
  refine ((mmap_law firstProcess_housed (by decide) (by decide) ?_ (Prod.ext rfl hcall)).1
    USER_MMAP_BASE rfl).mpr ⟨by decide,?_,by decide⟩
  · exact ⟨by decide +kernel,by decide +kernel,by decide +kernel⟩
  · rw [Unclaimed]
    decide +kernel

/-- Two threads in one address space. -/
def twoThreads : Sys := processClone firstProcess 0 true {}

/-- The first of them has mapped a page. -/
def oneMapped : Sys := (sysMmap twoThreads 0 0 4096 true false .anonymous).1

/-- The second thread's arena still starts where the first one has mapped its page, and its own
mapping takes the page's place. -/
theorem threads_share_arena : Housed bootMachine twoThreads 0 ∧
    (oneMapped.proc 1).cr3 = (oneMapped.proc 0).cr3 ∧
    (sysMmap twoThreads 0 0 4096 true false .anonymous).2 = USER_MMAP_BASE ∧
    (sysMmap oneMapped 1 0 4096 true false .anonymous).2 = USER_MMAP_BASE ∧
    ¬NewMapping oneMapped (sysMmap oneMapped 1 0 4096 true false .anonymous).1 1 USER_MMAP_BASE 4096
      (MapSource.contents .anonymous) := by
  refine ⟨processClone_shared firstProcess_housed {} (by decide),by decide +kernel,
    by decide +kernel,by decide +kernel,fun h => ?_⟩
  have hnone := h.unmapped 0 (by decide)
  revert hnone
  decide +kernel

end Lariat.Mm
