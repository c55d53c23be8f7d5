import Lariat.Elf.LoadedProgram

/-! The relocation of a program execve has loaded stays in the program. -/
namespace Lariat.Elf

open Foundation.ByteStore List Option
open Mm

variable {k : Machine} {s : State} {lost : Multiset Nat} {t r : Nat} {c : ExecCall} {g : Image}
  {m m1 : Mem} {roots : Finset Nat} {b : Buffer} {onHeap : Bool}

/-- The address space execve loads into. -/
def State.execRoot (s : State) (t : Nat) : Nat := ((execSpace s.sys t).1.proc t).cr3

/-- What execve's loading of the image comes to. -/
def State.loadImage (s : State) (t : Nat) (c : ExecCall) (g : Image) : Mem × Int :=
  (g.program c).load (s.execRoot t) (execSpace s.sys t).1.mem

section Loading

section Stages

variable (hh : Housed k s.sys lost) (ht : t ∈ s.sys.live) (h0 : (s.sys.proc t).cr3 ≠ 0)
include hh ht h0

/-- Execve loads into an address space that is sound, whether it is a new one or not. -/
theorem execRoot_sound :
    ∃ roots y, Sound k (execSpace s.sys t).1.mem roots y ∧ s.execRoot t ∈ roots := by
  have hr := root_mem ht h0
  have htaken := execSpace_taken hh ht h0
  rw [State.execRoot]
  generalize execSpace s.sys t = x at htaken
  cases htaken with
  | @reused ma mb y hcard hfree hunch hreset =>
    rw [setProc_same,resetHeap_cr3,setProc_mem]
    exact ⟨_,_,hreset.sound,hr⟩
  | @fresh m0 r old counts hr0 hnew hs hunch hnone hold =>
    rw [setProc_same]
    exact ⟨_,_,hs,Finset.mem_insert_self r _⟩

theorem loadImage_laid (hu : ∀ q ∈ (g.program c).reqs, UserAddr q.virt)
    (hload : 0 ≤ (s.loadImage t c g).2) :
    ∃ roots y z l n, s.execRoot t ∈ roots ∧ l <+: (g.program c).reqs ∧
      (g.program c).segments.flatMap Segment.reqs <+: l ∧
      Laid k (execSpace s.sys t).1.mem (s.loadImage t c g).1 roots y z (s.execRoot t) l n := by
  obtain ⟨roots,y,hs,hr⟩ := execRoot_sound hh ht h0
  obtain ⟨l,z,n,hl,hall,hlaid⟩ := (hs.load hr hu).laid
  exact ⟨roots,y,z,l,n,hr,hl,hall hload,hlaid⟩

theorem loadImage_room (hu : ∀ q ∈ (g.program c).reqs, UserAddr q.virt)
    (hload : (g.program c).Loadable)
    (hroom : 4 * (g.program c).reqs.length + 2 ≤ s.sys.mem.pmm.free.card) :
    0 ≤ (s.loadImage t c g).2 := by
  obtain ⟨roots,y,hs,hr⟩ := execRoot_sound hh ht h0
  have hspace := execSpace_room (t := t) hh (by omega)
  obtain ⟨m1,z,rc,hone,hrc,-⟩ := hs.load_room hr hu hload (by omega)
  rw [State.loadImage,hone]
  exact hrc

end Stages

/-- Segments whose pages have been mapped have frames behind their bytes. -/
theorem segments_backed {l : List PageReq} {y : Multiset Nat} {n : Nat} {segs : List Segment}
    (h : Laid k m m1 roots lost y r l n) (hsub : segs.flatMap Segment.reqs ⊆ l)
    (hend : ∀ sg ∈ segs, EndsBelow sg) : SegmentsBacked k m1 r segs := by
  rintro a ⟨sg,hsg,hlo,hhi⟩ i hi
  obtain ⟨q,hq,hon,-⟩ := pageOf_req (j := a+i - sg.vaddr) (hend sg hsg) (by omega)
  have haddr : sg.vaddr + (a+i - sg.vaddr) = a + i := by omega
  rw [haddr] at hon
  have hbacks := h.backs [] fun _ hq => absurd hq not_mem_nil
  obtain ⟨huser,e,he,hlt⟩ := hbacks q (hsub (List.mem_flatMap.mpr ⟨sg,hsg,hq⟩))
  have hv := OnPage.user hon huser
  refine ⟨hv,e,?_,hlt⟩
  rw [(indices_eq_iff hv huser).mpr hon]
  exact he

end Loading

/-- An image that execve takes for an ELF program and loads is relocated inside its segments, with
what its dynamic table says, exactly if the table and the relocations fit them, or it is left to an
interpreter. -/
theorem execve_relocations_confined (hh : Housed k s.sys lost) (ht : t ∈ s.sys.live)
    (h0 : (s.sys.proc t).cr3 ≠ 0) (hg : g = .whole b onHeap) (helf : g.isElf = true)
    (hu : ∀ q ∈ (g.program c).reqs, UserAddr q.virt) (hload : 0 ≤ (s.loadImage t c g).2)
    (hend : ∀ sg ∈ (g.program c).segments, EndsBelow sg)
    (hlen : b.bytes.length < 0x8000000000000000) :
    Confined b.bytes.length (g.program c).segments (s.relocationLog t c g) ↔
      s.interpUsed t c g = false →
        RelocationsFit b (s.loadImage t c g).1 (s.execRoot t) g.bias (g.program c).segments := by
  obtain ⟨roots,y,z,l,n,hr,-,hsub,hlaid⟩ := loadImage_laid hh ht h0 hu hload
  have hseg := segments_backed hlaid hsub.subset hend
  have hlog : s.relocationLog t c g = (if g.isElf && !s.interpUsed t c g then
      applyRelocations b (s.loadImage t c g).1 (s.execRoot t) g.bias
      else ([],some (s.loadImage t c g).1)).1 := by
    subst hg
    rfl
  rw [hlog,helf,Bool.true_and]
  cases s.interpUsed t c g with
  | true => exact iff_of_true confined_nil nofun
  | false =>
    rw [if_pos (by decide),forall_prop_of_true rfl]
    exact applyRelocations_confined hlaid.sound hr hseg hlen

section Calls

variable {ps : List Phdr} {rest : List UInt8} {a : Nat}

/-- A word of a segment just loaded is the file's. -/
theorem loaded_word {l : List PageReq} {y : Multiset Nat} {n j : Nat} {sg : Segment}
    (h : Laid k m m1 roots lost y r l n) (hr : r ∈ roots) (hapart : Apart l) (hsub : sg.reqs ⊆ l)
    (hreg : RegularSegment sg) (hj : j + 8 ≤ sg.filesz) :
    wordAt m1 r (sg.vaddr+j) = val sg.data 8 j := by
  refine val_congr fun i hi => ?_
  have hfile : j + i < sg.filesz := by omega
  have hmem := lt_of_lt_of_le hfile hreg.1
  have hend := hreg.2
  rw [EndsBelow] at hend
  have hwrap : wrap (sg.vaddr+j + i) = sg.vaddr + (j+i) := by
    rw [add_assoc]
    exact Nat.mod_eq_of_lt (by omega)
  obtain ⟨q,hq,hon,hbytes⟩ := pageOf_req hreg.2 hmem
  rw [hwrap,Laid.placed_byte h hr hapart (hsub hq) (OnPage.user hon (h.user q (hsub hq))) hon,
    getD_some,hbytes,bytes_pageOf hreg hmem,if_pos hfile]

theorem execElf_no_interp (r : Nat) (m : Mem) :
    (execElf ps rest).usesInterp (elfImage ps rest) r m = false := by
  have hnone : (elfImage ps rest).interp (execElf ps rest) = none := by
    rw [Image.interp]
    cases (elfImage ps rest).interpPath <;> rfl
  rw [ExecCall.usesInterp,Image.program.eq_def,hnone]
  split_ifs
  · rfl
  · rfl

/-- A dynamic table that is empty is read as far as its first word. -/
theorem applyRelocations_null {p : Phdr} {bias : Nat}
    (hdyn : (phdrs b.view).find? (·.type == PT_DYNAMIC) = some p)
    (htag : val b.view 8 p.offset = DT_NULL) :
    applyRelocations b m r bias = ([.dyn (wrap p.offset)],some m) := by
  have hmax : DYN_MAX = (DYN_MAX-1) + 1 := by decide
  rw [applyRelocations,hdyn]
  dsimp only
  rw [hmax,scanDyn,if_pos htag]
  rfl

/-- A program that gives a place outside its file for its dynamic table. -/
def strayDynamic : List Phdr :=
  [⟨PT_LOAD,5,0,0x50000000,120,200⟩,⟨PT_DYNAMIC,6,0x1000,0,0,0⟩]

theorem strayDynamic_parsed : (elfImage strayDynamic []).isElf = true ∧
    (phdrs (Buffer.view ⟨elfBytes strayDynamic [],fun _ => 0⟩)).find? (·.type == PT_DYNAMIC) =
      some ⟨PT_DYNAMIC,6,0x1000,0,0,0⟩ ∧
    val (Buffer.view ⟨elfBytes strayDynamic [],fun _ => 0⟩) 8 0x1000 = DT_NULL ∧
    ((elfImage strayDynamic []).program (execElf strayDynamic [])).reqs.map (·.virt) = [0x50000000] ∧
    (elfBytes strayDynamic []).length = 176 := by
  decide +kernel

theorem strayDynamic_relocated (r : Nat) (m m1 : Mem) :
    (execElf strayDynamic []).relocated (elfImage strayDynamic []) r m m1 =
      ([.dyn 0x1000],some m1) := by
  obtain ⟨helf,hdyn,htag,-,-⟩ := strayDynamic_parsed
  rw [elfImage,ExecCall.relocated,← elfImage,helf,execElf_no_interp,Bool.not_false,Bool.and_self,
    if_pos rfl,applyRelocations_null hdyn htag]
  rfl

/-- It is started, and the kernel has read its own memory for the table. -/
theorem strayDynamic_read : ∃ o, elfExecve (roomyState 2048) 0 (execElf strayDynamic []) = some o ∧
    o.rc = 0 ∧ ¬Confined (elfBytes strayDynamic []).length
      ((elfImage strayDynamic []).program (execElf strayDynamic [])).segments
      ((roomyState 2048).relocationLog 0 (execElf strayDynamic []) (elfImage strayDynamic [])) := by
  obtain ⟨-,-,-,hreqs,hlen⟩ := strayDynamic_parsed
  obtain ⟨o,ho,hrc⟩ := execElf_started strayDynamic []
    (by rw [hlen]; decide) hreqs (by decide) fun r m m1 =>
    ⟨m1,by rw [strayDynamic_relocated]⟩
  refine ⟨o,ho,hrc,fun hconf => ?_⟩
  rw [State.relocationLog,strayDynamic_relocated,hlen] at hconf
  exact absurd (hconf _ mem_cons_self) (show ¬0x1000 + 8 ≤ 176 by decide)

/-- A program with one relocation: its only segment is the relocation's entry and the word after
it, which the entry names. -/
def oneRelocation : List Phdr :=
  [⟨PT_LOAD,6,176,0x50000000,32,32⟩,⟨PT_DYNAMIC,6,208,0,48,48⟩]

def oneRelocationData : List UInt8 :=
  words [0x50000018,R_X86_64_RELATIVE,0x50000000,0,DT_RELA,0x50000000,DT_RELASZ,24,DT_NULL,0]

def oneRelocationFile : Buffer := ⟨elfBytes oneRelocation oneRelocationData,fun _ => 0⟩

def oneRelocationImage : Image := .whole oneRelocationFile true

def execOneRelocation : ExecCall := execElf oneRelocation oneRelocationData

/-- What is read of the file, as it was written. -/
structure OneRelocationParsed : Prop where
  elf : oneRelocationImage.isElf = true
  bias : oneRelocationImage.bias = 0
  loads : oneRelocationImage.loads = [⟨PT_LOAD,6,176,0x50000000,32,32⟩]
  reqs : (oneRelocationImage.program execOneRelocation).reqs.map (·.virt) = [0x50000000]
  length : oneRelocationFile.bytes.length = 256
  header : (phdrs oneRelocationFile.view).find? (·.type == PT_DYNAMIC) =
    some ⟨PT_DYNAMIC,6,208,0,48,48⟩
  ends : DynEnd oneRelocationFile.view 208 2
  table : oneRelocationFile.relaTable ⟨PT_DYNAMIC,6,208,0,48,48⟩ 2 = ⟨0x50000000,24,24⟩
  target : val (fun j => oneRelocationFile.view (176+j)) 8 0 = 0x50000018

theorem oneRelocation_values : oneRelocationImage.isElf = true ∧ oneRelocationImage.bias = 0 ∧
    oneRelocationImage.loads = [⟨PT_LOAD,6,176,0x50000000,32,32⟩] ∧
    (oneRelocationImage.program execOneRelocation).reqs.map (·.virt) = [0x50000000] ∧
    oneRelocationFile.bytes.length = 256 ∧
    (phdrs oneRelocationFile.view).find? (·.type == PT_DYNAMIC) =
      some ⟨PT_DYNAMIC,6,208,0,48,48⟩ ∧
    (val oneRelocationFile.view 8 (208+DYN_SIZE * 2) = DT_NULL ∧
      ∀ i < 2, val oneRelocationFile.view 8 (208+DYN_SIZE * i) ≠ DT_NULL) ∧
    oneRelocationFile.relaTable ⟨PT_DYNAMIC,6,208,0,48,48⟩ 2 = ⟨0x50000000,24,24⟩ ∧
    val (fun j => oneRelocationFile.view (176+j)) 8 0 = 0x50000018 := by
  decide +kernel

theorem oneRelocation_parsed : OneRelocationParsed := by
  obtain ⟨h1,h2,h3,h4,h5,h6,h7,h8,h9⟩ := oneRelocation_values
  exact ⟨h1,h2,h3,h4,h5,h6,h7,h8,h9⟩

theorem oneRelocation_user : ∀ q ∈ (oneRelocationImage.program execOneRelocation).reqs,
    UserAddr q.virt := by
  intro q hq
  have hmem := mem_map_of_mem (f := fun q => q.virt) hq
  rw [oneRelocation_parsed.reqs,mem_singleton] at hmem
  rw [hmem]
  decide

theorem oneRelocation_segments : (oneRelocationImage.program execOneRelocation).segments =
    [⟨0x50000000,32,32,true,fun j => oneRelocationFile.view (176+j),none⟩] := by
  have hseg (b : Buffer) :
      ((Image.whole b true).segment ⟨PT_LOAD,6,176,0x50000000,32,32⟩).shift 0 =
        ⟨0x50000000,32,32,true,fun j => b.view (176+j),none⟩ := rfl
  rw [program_segments oneRelocation_parsed.elf,oneRelocation_parsed.loads,
    oneRelocation_parsed.bias,map_singleton,oneRelocationImage,hseg]

/-- The relocation that is read names the word after it. -/
theorem oneRelocation_target (hh : Housed k s.sys lost) (ht : t ∈ s.sys.live)
    (h0 : (s.sys.proc t).cr3 ≠ 0)
    (hload : 0 ≤ (s.loadImage t execOneRelocation oneRelocationImage).2) :
    wordAt (s.loadImage t execOneRelocation oneRelocationImage).1 (s.execRoot t) 0x50000000 =
      0x50000018 := by
  obtain ⟨roots,y,z,l,n,hr,hl,hsub,hlaid⟩ := loadImage_laid hh ht h0 oneRelocation_user hload
  rw [oneRelocation_segments,flatMap_singleton] at hsub
  have hapart : Apart l :=
    List.Pairwise.sublist hl.sublist (page_apart oneRelocation_parsed.reqs (by decide)).append.1
  have hword := loaded_word (j := 0) hlaid hr hapart hsub.subset
    ⟨by decide,show 0x50000000 + 32+4095 < 0x10000000000000000 by decide⟩ (by decide)
  dsimp only at hword
  rw [add_zero,oneRelocation_parsed.target] at hword
  exact hword

/-- The relocation of this program reads and writes nothing but its table and its segment. -/
theorem oneRelocation_confined : Confined oneRelocationFile.bytes.length
    (oneRelocationImage.program execOneRelocation).segments
    ((roomyState 2048).relocationLog 0 execOneRelocation oneRelocationImage) := by
  obtain ⟨ht,h0,hroom,-⟩ := roomyState_runs 2048 (by decide)
  have hlen := congrArg List.length oneRelocation_parsed.reqs
  rw [length_map] at hlen
  have hload : 0 ≤ ((roomyState 2048).loadImage 0 execOneRelocation oneRelocationImage).2 := by
    refine loadImage_room (roomyState_housed 2048) ht h0 oneRelocation_user ?_ ?_
    · refine @whole_loadable _ _ ?_
      rfl
    · rw [hlen]
      show 4 * 1+2 ≤ _
      omega
  have htarget := oneRelocation_target (roomyState_housed 2048) ht h0 hload
  have hentry : entryAddr 0 ⟨0x50000000,24,24⟩ 0 = 0x50000000 := rfl
  have hin (a : Nat) (hlo : 0x50000000 ≤ a) (hhi : a + 8 ≤ 0x50000020) :
      InSegment (oneRelocationImage.program execOneRelocation).segments a := by
    rw [oneRelocation_segments]
    exact ⟨_,mem_cons_self,hlo,hhi⟩
  refine (execve_relocations_confined (g := oneRelocationImage) (roomyState_housed 2048) ht h0 rfl
    oneRelocation_parsed.elf oneRelocation_user hload ?_ ?_).mpr fun _ => ?_
  · rw [oneRelocation_segments]
    exact List.forall_mem_singleton.mpr (show 0x50000000 + 32+4095 < 0x10000000000000000 by decide)
  · rw [oneRelocation_parsed.length]
    decide
  · intro p hp
    obtain rfl := some.inj (oneRelocation_parsed.header.symm.trans hp)
    refine ⟨2,oneRelocation_parsed.ends,?_,?_⟩
    · rw [oneRelocation_parsed.length]
      decide
    rw [oneRelocation_parsed.table,oneRelocation_parsed.bias]
    refine ⟨?_,fun _ _ => trivial⟩
    rw [hentry,EntryFits,htarget]
    exact ⟨hin _ (by decide) (by decide),fun _ => ⟨hin _ (by decide) (by decide),
      hin _ (by decide) (by decide),hin _ (by decide) (by decide)⟩⟩

end Calls

end Lariat.Elf
