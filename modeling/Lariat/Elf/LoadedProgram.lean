import Lariat.Elf.ExecOutcome

/-! What a program finds of its file in memory when it starts. -/
namespace Lariat.Elf

open Foundation.TableTree Reader List Option Bool Nat
open Foundation.ByteStore
open Mm

variable {k : Machine} {s : State} {lost : Multiset Nat} {t r old bias : Nat} {c : ExecCall}
  {o : Outcome} {g : Image} {m m' m0 m1 m2 m3 : Mem} {roots : Finset Nat}

section Relocating

theorem word_backed (h : InRam k m r) (hs : Sound k m roots lost) (hr : r ∈ roots) {w : Nat}
    (hu : ∀ i < 8, UserAddr (wrap (wrap w + i))) (hm : wordMapped m r (wrap w) = true) {i : Nat}
    (hi : i < 8) : Backed k m r (wrap w + i) ∧ wrap (wrap w + i) = wrap w + i := by
  have h0 : UserAddr (wrap w) := by
    have h0 := hu 0 (by decide)
    rw [add_zero] at h0
    have hidem : wrap (wrap w) = wrap w := mod_mod _ _
    rwa [hidem] at h0
  have hwrap : wrap (wrap w + i) = wrap w + i :=
    mod_eq_of_lt (by have := h0.2; omega)
  have hbyte := all_eq_true.mp hm i (mem_range.mpr hi)
  have hui := hu i hi
  rw [hwrap] at hbyte hui
  exact ⟨h.backed hs hr hui hbyte,hwrap⟩

variable {v : Nat}

/-- A turn of the loop leaves the bytes that it does not write to. -/
theorem relocateEntry_view {a : Nat} (h : (relocateEntry m r bias a).2 = some m')
    (hram : InRam k m r) (hs : Sound k m roots lost) (hr : r ∈ roots)
    (hu : ∀ v, Targeted (relocateEntry m r bias a).1 v → UserAddr v)
    (hv : ¬Targeted (relocateEntry m r bias a).1 v) : userView m' r v = userView m r v := by
  rcases relocateEntry_cases h with rfl | ⟨w,n,hw,hmapped,rfl⟩
  · rfl
  have huser (i : Nat) (hi : i < 8) : UserAddr (wrap (wrap w + i)) := hu _ ⟨_,hw,i,hi,rfl⟩
  have hback (i : Nat) (hi : i < 8) := word_backed hram hs hr huser hmapped hi
  rw [hs.storeBytes_view hr fun i hi => (hback i (by rwa [length_le] at hi)).1]
  refine put_outside ?_
  rw [length_le]
  by_contra hin
  have hlt : v - wrap w < 8 := by omega
  refine hv ⟨_,hw,v - wrap w,hlt,?_⟩
  rw [(hback _ hlt).2]
  omega

theorem relocateFrom_view {d : RelaTable} {n i : Nat}
    (h : (relocateFrom r bias d n i m).2 = some m') (hram : InRam k m r) (hs : Sound k m roots lost)
    (hr : r ∈ roots) (hu : ∀ v, Targeted (relocateFrom r bias d n i m).1 v → UserAddr v)
    (hv : ¬Targeted (relocateFrom r bias d n i m).1 v) : userView m' r v = userView m r v := by
  induction n generalizing i m with
  | zero =>
    cases h
    rfl
  | succ n ih =>
    obtain ⟨m1,hone,hrest,hlog⟩ := relocateFrom_succ h
    rw [hlog] at hu hv
    have htouch := relocateEntry_retouched hone
    rw [ih hrest (hram.retouched htouch) (htouch.sound hs)
        (fun w hw => hu w (hw.mono (subset_append_right _ _)))
        (fun hw => hv (hw.mono (subset_append_right _ _)))]
    exact relocateEntry_view hone hram hs hr
      (fun w hw => hu w (hw.mono (subset_append_left _ _)))
      (fun hw => hv (hw.mono (subset_append_left _ _)))

/-- The relocation of a program leaves all bytes but those it is to write. -/
theorem relocated_view (h : (c.relocated g r m m1).2 = some m2) (hram : InRam k m1 r)
    (hs : Sound k m1 roots lost) (hr : r ∈ roots)
    (hu : ∀ v, Targeted (c.relocated g r m m1).1 v → UserAddr v)
    (hv : ¬Targeted (c.relocated g r m m1).1 v) : userView m2 r v = userView m1 r v := by
  rcases relocated_cases h with rfl | ⟨b,_,-,hrun,hlog⟩
  · rfl
  rw [hlog] at hu hv
  rcases applyRelocations_cases hrun with rfl | ⟨d,hrun,hsub⟩
  · rfl
  · exact relocateFrom_view hrun hram hs hr (fun w hw => hu w (hw.mono hsub))
      fun hw => hv (hw.mono hsub)

end Relocating

section Pages

variable {v : Nat}

theorem onStack_covered {w : Nat} (hw : OnStack w) (hon : OnPage w v) : Covers stackReqs v := by
  have hlt : (w-stackBase) / 4096 < USER_STACK_PAGES := by
    have htop : stackBase + USER_STACK_PAGES*4096 = USER_STACK_TOP := by decide
    have := hw.1
    have := hw.2
    omega
  refine ⟨_,mem_pageReqs.mpr ⟨_,hlt,rfl⟩,?_⟩
  have hbase : stackBase = 0x7FBFF00000 := by decide
  have hpages : USER_STACK_PAGES = 256 := rfl
  have hle := hw.1
  rw [OnPage] at hon ⊢
  show v / 4096 = pageAt stackBase ((w-stackBase) / 4096) / 4096
  rw [hbase,pageAt]
  omega

theorem Laid.placed_byte {l : List PageReq} {y : Multiset Nat} {n : Nat}
    (h : Laid k m m1 roots lost y r l n) (hr : r ∈ roots) (hapart : Apart l) {q : PageReq}
    (hq : q ∈ l) (hv : UserAddr v) (hon : OnPage q.virt v) :
    loadByte m1 r v = some (q.bytes (v % 4096)) := by
  obtain ⟨f,-,-,hfind,hbyte⟩ := h.placed hapart q hq
  rw [← (indices_eq_iff hv (h.user q hq)).mpr hon] at hfind
  obtain ⟨x,hx,hxf,hxo⟩ := h.sound.mapping_found hr hv hfind
  rw [loadByte,hx,map_some,hxf,hxo,hbyte]

/-- Nothing that follows the loading of a page changes it, the relocations apart. -/
theorem Stages.page (h : Stages k s lost t c o g r old m0 m1 m2 m3) (hp : UserProgram s t c g)
    {l : List PageReq} {y : Multiset Nat} {n : Nat}
    (hlaid : Laid k m0 m1 (insert r s.sys.roots) lost y r l n) (hapart : Apart (l ++ stackReqs))
    {q : PageReq} (hq : q ∈ l) (hv : UserAddr v) (hon : OnPage q.virt v)
    (hno : ¬Targeted (s.relocationLog t c g) v) :
    loadByte o.state.sys.mem r v = some (q.bytes (v % 4096)) := by
  obtain ⟨y3,hstart⟩ := h.started
  obtain ⟨_,hfrees⟩ := h.freed
  obtain ⟨y',z,n',hs2,hstack⟩ := h.stack
  obtain ⟨hapl,-,hoff⟩ := hapart.append
  obtain ⟨f,hf,-,hfind,-⟩ := hlaid.placed hapl q hq
  have hrel := relocated_retouched h.relocated
  have hr1 : r ∈ insert r s.sys.roots := Finset.mem_insert_self r _
  have hr : r ∈ (insert r s.sys.roots).erase old := Finset.mem_erase.mpr ⟨h.new.2.2,hr1⟩
  have hram : InRam k m1 r := hlaid.inRam fun v _ e he => by
    rw [h.empty v] at he
    cases he
  have hflt : f < k.total := by
    have htotal := hlaid.sound.intact.total
    rw [hlaid.spent.totalPages] at htotal
    exact htotal ▸ (Pmm.mem_free.mp hf).1
  rw [← (indices_eq_iff hv (hlaid.user q hq)).mpr hon] at hfind
  -- where the page is found in the later memories
  have hfind2 : k.reader.find (vmmDestroyPagetable m2 old).table [] r (indices v) =
      some ⟨f,userFlags q.writable⟩ := by
    rw [hfrees.table,hrel.table]
    exact hfind
  have hfree2 := hs2.found_used hr hfind2
  have hnot : ¬Covers stackReqs v := by
    rintro ⟨q',hq',hon'⟩
    exact hoff q hq q' hq' (hon'.symm.trans hon)
  have hfind3 : k.reader.find m3.table [] r (indices v) = some ⟨f,userFlags q.writable⟩ := by
    rw [hstack.touched.same v hv hnot]
    exact hfind2
  have hfind4 : k.reader.find o.state.sys.mem.table [] r (indices v) =
      some ⟨f,userFlags q.writable⟩ := by
    rw [hstart.memory.retouched.table]
    exact hfind3
  have hbyte4 : o.state.sys.mem.byte f = m3.byte f := by
    refine hstart.memory.retouched.byte f fun w hw x hx heq => hnot ?_
    obtain ⟨hwu,e,he,hlt⟩ := hstart.memory.backed w hw
    rw [hstart.memory.retouched.table] at he
    obtain ⟨x',hx',hframe,-⟩ := hstack.sound.mapping_found hr hwu he
    rw [hx'] at hx
    cases hx
    have hpage := hstack.sound.same_page hr hv hwu hfind3 he hflt (hframe.symm.trans heq)
    exact onStack_covered hw hpage
  rw [hstart.memory.sound.loadByte_backed hr ⟨hv,_,hfind4,hflt⟩,
    userView_congr hstack.sound hr hstart.memory.sound hr hv hfind3 hfind4 hbyte4,
    userView_congr hs2 hr hstack.sound hr hv hfind2 hfind3 (hstack.kept f hfree2)]
  have hs1 := hrel.sound hlaid.sound
  have hfindm2 : k.reader.find m2.table [] r (indices v) = some ⟨f,userFlags q.writable⟩ := by
    rw [hrel.table]
    exact hfind
  rw [userView_congr hs1 hr1 hs2 hr hv hfindm2 hfind2 (by rw [hfrees.byte]),
    relocated_view h.relocated hram hlaid.sound hr1 (by rw [h.log]; exact hp.targets)
      (by rw [h.log]; exact hno)]
  rw [userView,if_pos hv,Laid.placed_byte hlaid hr1 hapl hq hv hon,getD_some]

end Pages

section Segments

/-- The end of its last page can be computed. -/
def EndsBelow (g : Segment) : Prop := g.vaddr+g.memsz + 4095 < 0x10000000000000000

/-- Its bytes in the file are bytes of it in memory, and its end can be computed. -/
def RegularSegment (g : Segment) : Prop := g.filesz ≤ g.memsz ∧ EndsBelow g

/-- The number of the page on which a byte of the segment lies. -/
def pageOf (g : Segment) (j : Nat) : Nat := (g.vaddr+j) / 4096-g.vaddr / 4096

variable {sg : Segment} {j : Nat}

theorem pageOf_lt (h : EndsBelow sg) (hj : j < sg.memsz) : pageOf sg j < sg.pages := by
  rw [EndsBelow] at h
  rw [pageOf,Segment.pages,Segment.start,roundUp,roundDown,wrap]
  omega

theorem pageAt_pageOf (h : EndsBelow sg) (hj : j < sg.memsz) :
    pageAt sg.start (pageOf sg j) = (sg.vaddr+j) / 4096 * 4096 := by
  rw [EndsBelow] at h
  rw [pageOf,pageAt,Segment.start,roundDown]
  omega

theorem RegularSegment.wrap_file (h : RegularSegment sg) :
    wrap (sg.vaddr+sg.filesz) = sg.vaddr + sg.filesz := by
  obtain ⟨hsize,hend⟩ := h
  rw [EndsBelow] at hend
  exact wrap_of_lt (by omega)

theorem bytes_pageOf (h : RegularSegment sg) (hj : j < sg.memsz) :
    sg.bytes (pageOf sg j) ((sg.vaddr+j) % 4096) = if j < sg.filesz then sg.data j else 0 := by
  have haddr : (sg.vaddr+j) / 4096*4096 + (sg.vaddr+j) % 4096 = sg.vaddr + j :=
    div_add_mod' _ _
  rw [Segment.bytes,pageAt_pageOf h.2 hj]
  rw [haddr,h.wrap_file,Nat.add_sub_cancel_left]
  refine if_congr ?_ rfl rfl
  omega

theorem slice_pageOf (h : RegularSegment sg) (hj : j < sg.filesz) :
    ∃ x, slice sg (pageOf sg j) = some x ∧ x.1 ≤ j ∧ j < x.1 + x.2 := by
  rw [slice,pageAt_pageOf h.2 (lt_of_lt_of_le hj h.1),h.wrap_file,if_pos (by omega)]
  refine ⟨_,rfl,?_,?_⟩
  · omega
  · omega

theorem pageOf_req (h : EndsBelow sg) (hj : j < sg.memsz) : ∃ q ∈ sg.reqs,
    OnPage q.virt (sg.vaddr+j) ∧ q.bytes = sg.bytes (pageOf sg j) := by
  refine ⟨_,mem_pageReqs.mpr ⟨pageOf sg j,pageOf_lt h hj,rfl⟩,?_,rfl⟩
  show (sg.vaddr+j) / 4096 = pageAt sg.start (pageOf sg j) / 4096
  rw [pageAt_pageOf h hj]
  omega

theorem OnPage.user {v w : Nat} (h : OnPage w v) (hw : UserAddr w) : UserAddr v := by
  rw [OnPage] at h
  rw [UserAddr] at hw ⊢
  omega

/-- Where a loaded segment's bytes are when the program starts. -/
theorem Stages.segment_byte (h : Stages k s lost t c o g r old m0 m1 m2 m3)
    (hp : UserProgram s t c g) {l : List PageReq} {y : Multiset Nat} {n : Nat}
    (hlaid : Laid k m0 m1 (insert r s.sys.roots) lost y r l n) (hapart : Apart (l ++ stackReqs))
    (hsub : sg.reqs ⊆ l) (hreg : RegularSegment sg) (hj : j < sg.memsz)
    (hno : ¬Targeted (s.relocationLog t c g) (sg.vaddr+j)) :
    loadByte o.state.sys.mem r (sg.vaddr+j) = some (if j < sg.filesz then sg.data j else 0) := by
  obtain ⟨q,hq,hon,hbyte⟩ := pageOf_req hreg.2 hj
  have hql := hsub hq
  rw [h.page hp hlaid hapart hql (OnPage.user hon (hlaid.user q hql)) hon hno,hbyte,
    bytes_pageOf hreg hj]

end Segments

section Placements

/-- A header of a loadable segment, the address its file is loaded at, the bytes of the file as far
as they were read, and whether they are held in a buffer as a whole. -/
structure Placement where
  phdr : Phdr
  base : Nat
  file : List UInt8
  buffered : Bool

/-- Where the `j`-th byte of the segment belongs. -/
def Placement.addr (q : Placement) (j : Nat) : Nat := wrap (q.phdr.vaddr+q.base) + j

def Placement.Holds (q : Placement) (v : Nat) : Prop := ∃ j < q.phdr.memsz, v = q.addr j

/-- The segment's bytes come from the file. -/
def Placement.InFile (q : Placement) : Prop :=
  ∀ j < q.phdr.filesz, q.phdr.offset + j < q.file.length

/-- In memory `mem` the segment is as the file has it, up to the addresses in `A`. -/
structure Placement.Copied (q : Placement) (mem : Nat → Option UInt8) (A : Nat → Prop) : Prop where
  inFile : q.InFile
  bytes : ∀ j < q.phdr.filesz, ¬A (q.addr j) → mem (q.addr j) = q.file[q.phdr.offset+j]?
  zeros : ∀ j, q.phdr.filesz ≤ j → j < q.phdr.memsz → ¬A (q.addr j) → mem (q.addr j) = some 0

/-- Every segment is as its file has it, except where a later one covers it or a relocation writes
to it. -/
def LoadedAsFile (mem : Nat → Option UInt8) (log : List Access) (ps : List Placement) : Prop :=
  ∀ before q after, ps = before ++ q :: after →
    q.Copied mem fun v => Targeted log v ∨ ∃ q' ∈ after, q'.Holds v

/-- The bytes of the program's file, as far as they were read. -/
def Image.file : Image → List UInt8
  | .whole b _ => b.bytes
  | .streamed _ f => f.contents

def interpPlacements (b : Buffer) : List Placement :=
  ((phdrs b.view).filter (·.type == PT_LOAD)).map fun p => ⟨p,INTERP_BASE,b.bytes,true⟩

/-- The loadable segments of a program, and of its interpreter if it runs under one. -/
def Image.placements (g : Image) (c : ExecCall) (interp : Bool) : List Placement :=
  if g.isElf then
    (g.loads.map fun p => ⟨p,g.bias,g.file,!g.isStreamed⟩) ++
      (if interp then ((g.interpPath.bind c.interp).elim [] interpPlacements) else [])
  else []

/-- A header that fits itself: the file has no more of the segment than memory has, and the
segment ends below the end of the address space. -/
def Placement.Regular (q : Placement) : Prop :=
  q.phdr.filesz ≤ q.phdr.memsz ∧ q.addr q.phdr.memsz + 4095 < 0x10000000000000000 ∧
    (q.buffered = true → q.file.length < 0x10000000000000000)

/-- The segment `sg` is what the loader makes of the header. -/
structure Placement.Makes (q : Placement) (sg : Segment) : Prop where
  vaddr : sg.vaddr = wrap (q.phdr.vaddr+q.base)
  filesz : sg.filesz = q.phdr.filesz
  memsz : sg.memsz = q.phdr.memsz
  data : ∀ j, q.phdr.offset + j < 0x10000000000000000 → q.phdr.offset+j < q.file.length →
    q.file[q.phdr.offset+j]? = some (sg.data j)

variable {q : Placement}

theorem Placement.Makes.regular {sg : Segment} (h : q.Makes sg) (hq : q.Regular) :
    RegularSegment sg := by
  obtain ⟨h1,h2,-⟩ := hq
  rw [RegularSegment,EndsBelow,h.vaddr,h.filesz,h.memsz]
  exact ⟨h1,h2⟩

theorem view_inside (b : Buffer) {i : Nat} (hi : i < 0x10000000000000000) (hlt : i < b.bytes.length) :
    b.bytes[i]? = some (b.view i) := by
  rw [Buffer.view,wrap_of_lt hi,if_pos hlt,getD_eq_getElem?_getD,getElem?_eq_getElem hlt,
    getD_some]

theorem image_makes (g : Image) (p : Phdr) :
    Placement.Makes ⟨p,g.bias,g.file,!g.isStreamed⟩ ((g.segment p).shift g.bias) := by
  cases g with
  | whole b onHeap => exact ⟨rfl,rfl,rfl,fun j hj hlt => view_inside b hj hlt⟩
  | streamed hdr f =>
    refine ⟨rfl,rfl,rfl,fun j hj hlt => ?_⟩
    have hlt : p.offset + j < f.contents.length := hlt
    show f.contents[p.offset+j]? = some (f.contents.getD (wrap (p.offset+j)) 0)
    rw [wrap_of_lt hj,getD_eq_getElem?_getD,getElem?_eq_getElem hlt,getD_some]

theorem interp_makes (b : Buffer) (p : Phdr) : Placement.Makes ⟨p,INTERP_BASE,b.bytes,true⟩
    ((p.segment fun j => b.view (p.offset+j)).shift INTERP_BASE) :=
  ⟨rfl,rfl,rfl,fun _ hj hlt => view_inside b hj hlt⟩

theorem segment_vaddr (g : Image) (p : Phdr) : (g.segment p).vaddr = p.vaddr := by
  cases g <;> rfl

theorem loadBias_eq (g : Image) :
    loadBias (g.ehdr.type == ET_DYN) (g.loads.map g.segment) = g.bias := by
  refine if_congr (and_congr beq_iff_eq ?_) rfl rfl
  constructor
  · rintro ⟨sg,hsg,h0⟩
    obtain ⟨p,hp,rfl⟩ := mem_map.mp hsg
    exact ⟨p,hp,(segment_vaddr g p) ▸ h0⟩
  · rintro ⟨p,hp,h0⟩
    exact ⟨_,mem_map_of_mem hp,(segment_vaddr g p).trans h0⟩

theorem program_segments (helf : g.isElf = true) :
    (g.program c).segments = g.loads.map fun p => (g.segment p).shift g.bias := by
  rw [Image.program.eq_def,if_pos helf,Program.segments,loadBias_eq,List.map_map]
  rfl

theorem load_interp {p : Program} {rc : Int} (hs : Sound k m roots lost) (hr : r ∈ roots)
    (hu : ∀ q ∈ p.reqs, UserAddr q.virt) (hint : interpLoaded r m p = true)
    (hload : p.load r m = (m1,rc)) (hrc : 0 ≤ rc) : ∃ y n, Laid k m m1 roots lost y r p.reqs n := by
  have hok := Program.load_segments hload hrc
  cases p with
  | flat len data => cases hint
  | elf dyn streamed loads interp =>
    cases interp with
    | none => cases hint
    | some gs =>
      rw [Program.load] at hload
      rw [interpLoaded] at hint
      have hmain := hs.loadSegments hr fun q hq => hu q (mem_append_left _ hq)
      rw [Program.segments] at hok hmain
      generalize loadSegments r (loads.map (·.shift (loadBias dyn loads))) m = x at *
      cases hmain with
      | part => cases hok
      | done hl =>
        have hrest := hl.sound.loadSegments hr fun q hq => hu q (mem_append_right _ hq)
        rw [Program.interpreter,getD_some] at hrest
        dsimp only at hint hload
        generalize loadSegments r (gs.map (·.shift INTERP_BASE)) _ = x at *
        cases hrest with
        | part => cases hint
        | done hl' =>
          cases hload
          exact ⟨_,_,hl.append hl'⟩

theorem program_interpreter {b : Buffer} (helf : g.isElf = true)
    (hb : g.interpPath.bind c.interp = some b) (hint : c.usesInterp g r m = true) :
    (g.program c).interpreter = ((phdrs b.view).filter (·.type == PT_LOAD)).map fun p =>
      (p.segment fun j => b.view (p.offset+j)).shift INTERP_BASE := by
  rw [ExecCall.usesInterp,Image.program.eq_def,if_pos helf,Image.interp,hb,bind_some,
    interpreter] at hint
  rw [Image.program.eq_def,if_pos helf,Image.interp,hb,bind_some,interpreter]
  split_ifs at hint ⊢
  · cases hint
  · rw [map_some,Program.interpreter,getD_some,List.map_map]
    rfl

theorem mem_placements {interp : Bool} (hq : q ∈ g.placements c interp) : g.isElf = true ∧
    ((∃ p ∈ g.loads, q = ⟨p,g.bias,g.file,!g.isStreamed⟩) ∨ interp = true ∧
      ∃ b p, g.interpPath.bind c.interp = some b ∧ p ∈ (phdrs b.view).filter (·.type == PT_LOAD) ∧
        q = ⟨p,INTERP_BASE,b.bytes,true⟩) := by
  rw [Image.placements] at hq
  by_cases helf : g.isElf = true
  · rw [if_pos helf] at hq
    rcases mem_append.mp hq with hq | hq
    · obtain ⟨p,hp,rfl⟩ := mem_map.mp hq
      exact ⟨helf,.inl ⟨p,hp,rfl⟩⟩
    split_ifs at hq with hint
    · cases hb : g.interpPath.bind c.interp with
      | none =>
        rw [hb] at hq
        exact absurd hq not_mem_nil
      | some b =>
        rw [hb,elim_some] at hq
        obtain ⟨p,hp,rfl⟩ := mem_map.mp hq
        exact ⟨helf,.inr ⟨hint,b,p,rfl,hp,rfl⟩⟩
    · exact absurd hq not_mem_nil
  · rw [if_neg helf] at hq
    exact absurd hq not_mem_nil

section

variable (h : Stages k s lost t c o g r old m0 m1 m2 m3) (hp : UserProgram s t c g)
  (hq : q ∈ g.placements c (s.interpUsed t c g))
include h hp hq

theorem Stages.made : ∃ sg l y n, q.Makes sg ∧ l <+: (g.program c).reqs ∧ sg.reqs ⊆ l ∧
      Laid k m0 m1 (insert r s.sys.roots) lost y r l n := by
  obtain ⟨helf,⟨p,hpm,rfl⟩ | ⟨hused,b,p,hb,hpm,rfl⟩⟩ := mem_placements hq
  · obtain ⟨l,y,n,hl,hsub,hlaid⟩ := h.loaded
    refine ⟨_,l,y,n,image_makes g p,hl,fun x hx => hsub.subset ?_,hlaid⟩
    rw [program_segments helf]
    exact mem_flatMap.mpr ⟨_,mem_map_of_mem hpm,hx⟩
  · rw [← h.interp] at hused
    obtain ⟨rc,hload,hrc⟩ := h.load
    obtain ⟨y,n,hlaid⟩ := load_interp h.sound (Finset.mem_insert_self r _) hp.pages hused hload hrc
    refine ⟨_,_,y,n,interp_makes b p,prefix_refl _,fun x hx => ?_,hlaid⟩
    refine mem_append_right _ ?_
    rw [program_interpreter helf hb hused]
    exact mem_flatMap.mpr ⟨_,mem_map_of_mem hpm,hx⟩

/-- A segment that is loaded is as the file has it if the file has it at all. -/
theorem Stages.copied (hapart : Apart (g.program c).pages) (hreg : q.Regular) (hin : q.InFile)
    (hfits : ∀ j < q.phdr.filesz, q.phdr.offset + j < 0x10000000000000000) (A : Nat → Prop) :
    q.Copied (loadByte o.state.sys.mem r) fun v => Targeted (s.relocationLog t c g) v ∨ A v := by
  obtain ⟨sg,l,y,n,hmake,hl,hsub,hlaid⟩ := h.made hp hq
  have hapl : Apart (l ++ stackReqs) :=
    List.Pairwise.sublist (List.Sublist.append hl.sublist (List.Sublist.refl _)) hapart
  have hbyte (j : Nat) (hj : j < q.phdr.memsz) (hno : ¬(Targeted (s.relocationLog t c g) (q.addr j) ∨
      A (q.addr j))) : loadByte o.state.sys.mem r (q.addr j) =
        some (if j < q.phdr.filesz then sg.data j else 0) := by
    rw [Placement.addr,← hmake.vaddr] at hno ⊢
    rw [← hmake.memsz] at hj
    rw [← hmake.filesz]
    exact h.segment_byte hp hlaid hapl hsub (hmake.regular hreg) hj fun ht => hno (.inl ht)
  refine ⟨hin,fun j hj hno => ?_,fun j hle hj hno => ?_⟩
  · rw [hbyte j (lt_of_lt_of_le hj hreg.1) hno,if_pos hj,hmake.data j (hfits j hj) (hin j hj)]
  · rw [hbyte j hj hno,if_neg (not_lt.mpr hle)]

end

theorem unreadable_none (f : ExecFile) (offset : Nat) {sg : Segment} (hreg : RegularSegment sg)
    (hread : sg.pages ≤ (f.unreadable offset sg).getD sg.pages) {j : Nat} (hj : j < sg.filesz) :
    ∃ x y, x ≤ j ∧ j < x+y ∧ f.complete (wrap (offset+x)) y = true := by
  have hlt := pageOf_lt hreg.2 (lt_of_lt_of_le hj hreg.1)
  obtain ⟨x,hx,hle,hgt⟩ := slice_pageOf hreg hj
  refine ⟨x.1,x.2,hle,hgt,?_⟩
  cases hfind : f.unreadable offset sg with
  | some i =>
    rw [hfind,getD_some] at hread
    have := mem_range.mp (mem_of_find?_eq_some hfind)
    omega
  | none =>
    have hall := find?_eq_none.mp hfind _ (mem_range.mpr hlt)
    rw [hx,elim_some,not_eq_true',not_eq_false] at hall
    exact hall

theorem complete_inside {f : ExecFile} {pos n : Nat} (h : f.complete pos n = true) :
    pos < 0x8000000000000000 ∧ pos+n ≤ f.contents.length := by
  rw [ExecFile.complete,and_eq_true,and_eq_true] at h
  exact ⟨of_decide_eq_true h.1.1,of_decide_eq_true h.1.2⟩

/-- A file that is read piece by piece has all bytes of its segments. -/
theorem Stages.streamed_inFile {hdr : Buffer} {f : ExecFile}
    (h : Stages k s lost t c o (.streamed hdr f) r old m0 m1 m2 m3)
    (hp : UserProgram s t c (.streamed hdr f)) (helf : (Image.streamed hdr f).isElf = true) {p : Phdr}
    (hpm : p ∈ (Image.streamed hdr f).loads)
    (hreg : Placement.Regular ⟨p,(Image.streamed hdr f).bias,f.contents,false⟩) {j : Nat}
    (hj : j < p.filesz) : p.offset + j < 0x10000000000000000 ∧ p.offset+j < f.contents.length := by
  have hmem : ((Image.streamed hdr f).segment p).shift (Image.streamed hdr f).bias ∈
      ((Image.streamed hdr f).program c).segments := by
    rw [program_segments helf]
    exact mem_map_of_mem hpm
  obtain ⟨rc,hload,hrc⟩ := h.load
  have hread := loadSegments_readable (Program.load_segments hload hrc) _ hmem
  have hseg := (image_makes (.streamed hdr f) p).regular hreg
  have hall {i : Nat} (hi : i < p.filesz) :=
    unreadable_none f p.offset hseg hread hi
  have hoff := phdr_offset_lt (mem_of_mem_filter hpm)
  have hlow : p.offset < 0x8000000000000000 := by
    obtain ⟨x,y,hx,-,hcomplete⟩ := hall (zero_lt_of_lt hj)
    have hpos := (complete_inside hcomplete).1
    rwa [le_zero.mp hx,add_zero,wrap_of_lt hoff] at hpos
  have huser : j < 0x800000000000 := by
    obtain ⟨q,hq,hon,-⟩ := pageOf_req hseg.2 (lt_of_lt_of_le hj hreg.1)
    have := (OnPage.user hon (hp.pages q
      (mem_append_left _ (mem_flatMap.mpr ⟨_,hmem,hq⟩)))).2
    omega
  obtain ⟨x,y,hx,hy,hcomplete⟩ := hall hj
  have hpos := (complete_inside hcomplete).2
  rw [wrap_of_lt (by omega)] at hpos
  omega

/-- A placement is held in a buffer, or it is of a file that is read piece by piece. -/
theorem placement_cases {interp : Bool} (hq : q ∈ g.placements c interp) :
    q.buffered = true ∨ ∃ hdr f p, g = .streamed hdr f ∧ g.isElf = true ∧ p ∈ g.loads ∧
      q = ⟨p,g.bias,f.contents,false⟩ := by
  obtain ⟨helf,⟨p,hp,rfl⟩ | ⟨-,b,p,-,-,rfl⟩⟩ := mem_placements hq
  · cases g with
    | whole b onHeap => exact .inl rfl
    | streamed hdr f => exact .inr ⟨hdr,f,p,rfl,helf,hp,rfl⟩
  · exact .inl rfl

/-- A program started by execve is in memory as its file has it exactly if the file has all the
bytes its headers speak of. A file that is read piece by piece always has. -/
theorem execve_loads_file (hh : Housed k s.sys lost) (ht : t ∈ s.sys.live)
    (hacq : c.acquire = .ok g) (hp : UserProgram s t c g) (hapart : Apart (g.program c).pages)
    (hreg : ∀ q ∈ g.placements c (s.interpUsed t c g), q.Regular) (h : elfExecve s t c = some o)
    (hrc : 0 ≤ o.rc) :
    LoadedAsFile (loadByte o.state.sys.mem (o.state.sys.proc t).cr3) (s.relocationLog t c g)
        (g.placements c (s.interpUsed t c g)) ↔
      ∀ q ∈ g.placements c (s.interpUsed t c g), q.buffered = true → q.InFile := by
  obtain ⟨g',m1,m2,m3,hran⟩ := elfExecve_ran h hrc
  obtain rfl := Except.ok.inj (hran.acquired.symm.trans hacq)
  obtain ⟨r,old,m0,hst⟩ := hran.stages hh ht hp.pages
  obtain ⟨y,hstart⟩ := hst.started
  rw [hstart.space]
  constructor
  · intro hall q hq _
    obtain ⟨before,after,heq⟩ := append_of_mem hq
    exact (hall before q after heq).inFile
  · intro hall before q after heq
    have hq : q ∈ g'.placements c (s.interpUsed t c g') := by
      rw [heq]
      exact mem_append_right _ mem_cons_self
    rcases placement_cases hq with hbuf | ⟨hdr,f,p,rfl,helf,hpm,rfl⟩
    · have hin := hall q hq hbuf
      exact hst.copied hp hq hapart (hreg q hq) hin
        (fun j hj => lt_trans (hin j hj) ((hreg q hq).2.2 hbuf)) _
    · have hread {j : Nat} (hj : j < p.filesz) := hst.streamed_inFile hp helf hpm (hreg _ hq) hj
      exact hst.copied hp hq hapart (hreg _ hq) (fun j hj => (hread hj).2)
        (fun j hj => (hread hj).1) _

end Placements

section Calls

def phdrBytes (p : Phdr) : List UInt8 :=
  le 4 p.type ++ le 4 p.flags ++ words [p.offset,p.vaddr,p.vaddr,p.filesz,p.memsz,0]

section

variable (ps : List Phdr) (rest : List UInt8)

/-- A program linked at fixed addresses, with its program headers after the file header. -/
def elfBytes : List UInt8 :=
  le 4 ELF_MAGIC ++ le 4 0 ++ le 8 0 ++ le 2 ET_EXEC ++ le 2 62 ++ le 4 1 ++
    words [0x50000000,64,0] ++ le 4 0 ++ (le 2 64 ++ le 2 56 ++ le 2 ps.length ++ le 2 0 ++ le 2 0 ++
      le 2 0) ++ ps.flatMap phdrBytes ++ rest

/-- A call of such a program in a file, which is read as a whole. -/
def execElf : ExecCall :=
  { execFlat [] with
    found := .file ⟨0o755,0,0,true,(elfBytes ps rest).length,elfBytes ps rest,
      (elfBytes ps rest).length,fun _ _ => true⟩ }

def elfImage : Image :=
  .whole ⟨elfBytes ps rest,fun _ => 0⟩ true

theorem execElf_acquire (hlen : (elfBytes ps rest).length ≤ ELF_STREAM_THRESHOLD) :
    (execElf ps rest).acquire = .ok (elfImage ps rest) := by
  have hne : elfBytes ps rest ≠ [] := cons_ne_nil _ _
  simp [ExecCall.acquire,execElf,ExecFile.acquire,execFlat,elfImage,hlen,hne]

end

theorem whole_loadable (hg : g.isStreamed = false) : (g.program c).Loadable := by
  obtain ⟨b,onHeap,rfl⟩ : ∃ b onHeap, g = .whole b onHeap := by
    cases g with
    | whole b onHeap => exact ⟨b,onHeap,rfl⟩
    | streamed => cases hg
  rw [Image.program.eq_def]
  split_ifs
  · refine ⟨fun sg hsg => ?_,fun gs hgs sg hsg => ?_,fun h => absurd h false_ne_true⟩
    · obtain ⟨p,-,rfl⟩ := mem_map.mp hsg
      rfl
    · obtain ⟨x,hx,rfl⟩ := mem_map.mp hgs
      obtain ⟨b',-,hb'⟩ := bind_eq_some_iff.mp hx
      rw [interpreter] at hb'
      split_ifs at hb'
      rw [← some.inj hb'] at hsg
      obtain ⟨p,-,rfl⟩ := mem_map.mp hsg
      rfl
  · exact trivial

variable {ps : List Phdr} {rest : List UInt8} {a : Nat}

theorem virt_of_mem {l : List PageReq} {q : PageReq} (hl : l.map (·.virt) = [a]) (hq : q ∈ l) :
    q.virt = a := by
  have hmem := mem_map_of_mem (f := fun q => q.virt) hq
  rwa [hl,mem_singleton] at hmem

theorem execElf_started (ps : List Phdr) (rest : List UInt8)
    (hfile : (elfBytes ps rest).length ≤ ELF_STREAM_THRESHOLD)
    (hreqs : ((elfImage ps rest).program (execElf ps rest)).reqs.map (·.virt) = [a]) (ha : UserAddr a)
    (hrel : ∀ r m m1, ∃ m2, ((execElf ps rest).relocated (elfImage ps rest) r m m1).2 = some m2) :
    ∃ o, elfExecve (roomyState 2048) 0 (execElf ps rest) = some o ∧ o.rc = 0 := by
  obtain ⟨ht,h0,hroom,-⟩ := roomyState_runs 2048 (by decide)
  have hlen := congrArg List.length hreqs
  rw [length_map] at hlen
  refine elfExecve_room (g := elfImage ps rest) (roomyState_housed 2048) ht h0
    (execElf_acquire ps rest hfile) rfl (fun q hq => ?_) ?_ hrel ?_
  · rwa [virt_of_mem hreqs hq]
  · refine @whole_loadable _ _ ?_
    rfl
  · rw [hlen]
    show 4 * 1+4 * 256+2 ≤ _
    omega

/-- One page below the stack is apart from the stack. -/
theorem page_apart {l : List PageReq} (hl : l.map (·.virt) = [a]) (ha : a < stackBase) :
    Apart (l ++ stackReqs) := by
  have hbase : stackBase % 4096 = 0 := by decide
  refine pairwise_append.mpr ⟨?_,apart_pageReqs (by decide),fun q hq q' hq' hon => ?_⟩
  · have hlen := congrArg List.length hl
    rw [length_map] at hlen
    obtain ⟨q,rfl⟩ := length_eq_one_iff.mp hlen
    exact pairwise_singleton _ q
  · obtain ⟨i,hi,rfl⟩ := mem_pageReqs.mp hq'
    have hpage : pageAt stackBase i = stackBase+i * 4096 := stackBase_range.pageAt_eq hi
    have hon : pageAt stackBase i / 4096 = q.virt / 4096 := hon
    rw [hpage,virt_of_mem hl hq] at hon
    omega

/-- A program of one segment of 120 bytes, at `offset` in the file, and 80 zeros. -/
def oneSegment (offset : Nat) : List Phdr := [⟨PT_LOAD,5,offset,0x50000000,120,200⟩]

theorem relocated_static (h : g.phdrs.find? (·.type == PT_DYNAMIC) = none) (r : Nat) (m m1 : Mem) :
    c.relocated g r m m1 = ([],some m1) := by
  cases g with
  | whole b onHeap =>
    have h : (phdrs b.view).find? (·.type == PT_DYNAMIC) = none := h
    rw [ExecCall.relocated,applyRelocations,h]
    exact ite_self _
  | streamed => rfl

/-- What the loader finds in a program of one segment. -/
@[mk_iff] structure IsOneSegment (offset : Nat) : Prop where
  elf : (elfImage (oneSegment offset) []).isElf = true
  phdrs : (elfImage (oneSegment offset) []).phdrs = oneSegment offset
  bias : (elfImage (oneSegment offset) []).bias = 0
  length : (elfBytes (oneSegment offset) []).length = 120
  reqs : ((elfImage (oneSegment offset) []).program (execElf (oneSegment offset) [])).reqs.map
    (·.virt) = [0x50000000]

variable {offset : Nat}

section

variable (h : IsOneSegment offset)
include h

theorem IsOneSegment.static (r : Nat) (m m1 : Mem) :
    (execElf (oneSegment offset) []).relocated (elfImage (oneSegment offset) []) r m m1 =
      ([],some m1) :=
  relocated_static (by rw [h.phdrs]; rfl) r m m1

theorem IsOneSegment.started :
    ∃ o, elfExecve (roomyState 2048) 0 (execElf (oneSegment offset) []) = some o ∧ o.rc = 0 :=
  execElf_started _ _ (by rw [h.length]; decide) h.reqs (by decide) fun r m m1 => ⟨m1,by rw [h.static]⟩

theorem IsOneSegment.user (s : State) :
    UserProgram s 0 (execElf (oneSegment offset) []) (elfImage (oneSegment offset) []) where
  pages q hq := by
    rw [virt_of_mem h.reqs hq]
    decide
  targets v hv := by
    rw [State.relocationLog,h.static] at hv
    obtain ⟨a,ha,-⟩ := hv
    exact absurd ha not_mem_nil

theorem IsOneSegment.placements (interp : Bool) :
    (elfImage (oneSegment offset) []).placements (execElf (oneSegment offset) []) interp =
      [⟨⟨PT_LOAD,5,offset,0x50000000,120,200⟩,0,elfBytes (oneSegment offset) [],true⟩] := by
  have hloads : (elfImage (oneSegment offset) []).loads = oneSegment offset := by
    rw [Image.loads,h.phdrs]
    rfl
  have hnone : ∀ x : Option (List UInt8), x.bind (execElf (oneSegment offset) []).interp = none :=
    fun x => by cases x <;> rfl
  rw [Image.placements,if_pos h.elf,hloads,h.bias,hnone,elim_none,ite_self,append_nil]
  rfl

end

theorem isOneSegment : ∀ offset ∈ [0,0x1000], IsOneSegment offset := by
  simp only [isOneSegment_iff]
  decide +kernel

theorem oneSegment_zero : IsOneSegment 0 := isOneSegment _ mem_cons_self

theorem oneSegment_page : IsOneSegment 0x1000 := isOneSegment _ (.tail _ (.head _))

/-- A program whose segment is its own headers finds them, and zeros after them. -/
theorem headers_loaded : ∃ o, elfExecve (roomyState 2048) 0 (execElf (oneSegment 0) []) = some o ∧
    o.rc = 0 ∧ LoadedAsFile (loadByte o.state.sys.mem (o.state.sys.proc 0).cr3)
      ((roomyState 2048).relocationLog 0 (execElf (oneSegment 0) []) (elfImage (oneSegment 0) []))
      ((elfImage (oneSegment 0) []).placements (execElf (oneSegment 0) [])
        ((roomyState 2048).interpUsed 0 (execElf (oneSegment 0) []) (elfImage (oneSegment 0) []))) := by
  obtain ⟨o,ho,hrc⟩ := oneSegment_zero.started
  have hlen := oneSegment_zero.length
  have hacq := execElf_acquire (oneSegment 0) [] (by rw [hlen]; decide)
  refine ⟨o,ho,hrc,(execve_loads_file (roomyState_housed 2048) (roomyState_runs 2048 (by decide)).1 hacq
    (oneSegment_zero.user _) (page_apart oneSegment_zero.reqs (by decide)) (fun q hq => ?_) ho
    (Int.le_of_eq hrc.symm)).mpr fun q hq _ j hj => ?_⟩
  · rw [oneSegment_zero.placements,mem_singleton] at hq
    subst hq
    exact ⟨by decide,by decide,fun _ => by rw [hlen]; decide⟩
  · rw [oneSegment_zero.placements,mem_singleton] at hq
    subst hq
    dsimp only at hj ⊢
    omega

/-- A program whose segment lies beyond its file is started with whatever memory the kernel has
there. -/
theorem beyond_loaded : ∃ o, elfExecve (roomyState 2048) 0 (execElf (oneSegment 0x1000) []) = some o ∧
    o.rc = 0 ∧ ¬LoadedAsFile (loadByte o.state.sys.mem (o.state.sys.proc 0).cr3)
      ((roomyState 2048).relocationLog 0 (execElf (oneSegment 0x1000) [])
        (elfImage (oneSegment 0x1000) []))
      ((elfImage (oneSegment 0x1000) []).placements (execElf (oneSegment 0x1000) [])
        ((roomyState 2048).interpUsed 0 (execElf (oneSegment 0x1000) [])
          (elfImage (oneSegment 0x1000) []))) := by
  obtain ⟨o,ho,hrc⟩ := oneSegment_page.started
  have hlen := oneSegment_page.length
  refine ⟨o,ho,hrc,fun hall => ?_⟩
  rw [oneSegment_page.placements] at hall
  have hin : 0x1000 + 0 < (elfBytes (oneSegment 0x1000) []).length :=
    (hall [] _ [] rfl).inFile 0 (by decide)
  omega

end Calls

end Lariat.Elf
