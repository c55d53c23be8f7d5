import Lariat.Elf.Execve

/-! What an execve that fails leaves behind. -/
namespace Lariat.Elf

open Mm

/-- The caller and the kernel are as they were before the call, which holds nothing any more. -/
structure Harmless (s : State) (t : Nat) (o : Outcome) : Prop where
  mappings : ∀ v, Canonical v →
    mapping o.state.sys.mem.table (o.state.sys.proc t).cr3 v =
      mapping s.sys.mem.table (s.sys.proc t).cr3 v
  contents : ∀ v, UserAddr v → loadByte o.state.sys.mem (o.state.sys.proc t).cr3 v =
    loadByte s.sys.mem (s.sys.proc t).cr3 v
  thread : o.state.info t = s.info t
  files : o.state.files = s.files
  frames : o.state.sys.mem.pmm.free = s.sys.mem.pmm.free
  held : o.held = 0

/-- The call fails before it has touched anything: there is no program to be had at the path, or
there is no room for the arguments and the program is not one that is kept open. -/
def FailsEarly (s : State) (t : Nat) (c : ExecCall) : Prop :=
  (s.sys.proc t).cr3 = 0 ∨ (∃ e, c.acquire = .error e) ∨
    c.argbuf = false ∧ ∃ b onHeap, c.acquire = .ok (.whole b onHeap)

variable {s : State} {t : Nat} {c : ExecCall} {o : Outcome}

theorem Harmless.refl (s : State) (t : Nat) (rc : Int) : Harmless s t ⟨s,rc,0⟩ :=
  ⟨fun _ _ => rfl,fun _ _ => rfl,rfl,rfl,rfl,rfl⟩

theorem setInfo_same (s : State) (t : Nat) (f : ThreadInfo → ThreadInfo) :
    (s.setInfo t f).info t = f (s.info t) :=
  Function.update_self ..

theorem setIds_name (f : Found) (i : ThreadInfo) : (f.setIds i).name = i.name := by
  cases f with
  | file f =>
    rw [Found.setIds,ThreadInfo.setIds]
    split_ifs <;> rfl
  | _ => rfl

theorem execStack_name (s : State) (t : Nat) (c : ExecCall) (entry : Nat) (aux : List AuxVal)
    (x : Mem × Option Nat) :
    ((execStack s t c entry aux x).state.info t).name = (s.info t).name := by
  obtain ⟨m,_ | i⟩ := x
  · rw [execStack,setInfo_same]
    rfl
  · rfl

theorem execLoad_name {g : Image} (h : execLoad s t c g = some o) :
    (o.state.info t).name = progName c.path := by
  rw [execLoad] at h
  split_ifs at h with hrc
  · cases h
    rw [State.setMem,setInfo_same]
  · obtain ⟨m,-,rfl⟩ := Option.map_eq_some_iff.mp h
    rw [execFinish,execStack_name,setInfo_same,setIds_name,setInfo_same]

/-- A failed execve is harmless if it fails early, and unless the program has the name the thread
has already, only then. -/
theorem failed_execve_harmless (h : elfExecve s t c = some o) (hrc : o.rc < 0) :
    (FailsEarly s t c → Harmless s t o) ∧
      ((s.info t).name ≠ progName c.path → (Harmless s t o ↔ FailsEarly s t c)) := by
  rw [elfExecve] at h
  by_cases h0 : (s.sys.proc t).cr3 = 0
  · rw [if_pos h0] at h
    cases h
    have hharm := Harmless.refl s t (-EINVAL)
    exact ⟨fun _ => hharm,fun _ => iff_of_true hharm (.inl h0)⟩
  rw [if_neg h0] at h
  cases hacq : c.acquire with
  | error e =>
    rw [hacq] at h
    cases h
    have hharm := Harmless.refl s t e.1
    rw [← (acquire_error hacq).2] at hharm
    exact ⟨fun _ => hharm,fun _ => iff_of_true hharm (.inr (.inl ⟨e,hacq⟩))⟩
  | ok g =>
    rw [hacq] at h
    dsimp only at h
    cases hbuf : c.argbuf with
    | true =>
      rw [hbuf,if_neg (by decide)] at h
      have hlate : ¬FailsEarly s t c := by
        rintro (h1 | ⟨e,he⟩ | ⟨h1,-⟩)
        · exact h0 h1
        · cases hacq.symm.trans he
        · cases hbuf.symm.trans h1
      refine ⟨fun h1 => absurd h1 hlate,fun hname => iff_of_false (fun hharm => hname ?_) hlate⟩
      rw [← execLoad_name h,hharm.thread]
    | false =>
      rw [hbuf,if_pos (by decide)] at h
      cases h
      cases g with
      | whole b onHeap =>
        have hharm : Harmless s t ⟨s,-ENOMEM,(Image.whole b onHeap).held - {.heapBuf}⟩ := by
          have hheld : (Image.whole b onHeap).held - {.heapBuf} = 0 := by cases onHeap <;> rfl
          rw [hheld]
          exact Harmless.refl s t _
        exact ⟨fun _ => hharm,fun _ => iff_of_true hharm (.inr (.inr ⟨hbuf,b,onHeap,hacq⟩))⟩
      | streamed hdr f =>
        -- the open file and its headers stay behind
        have hheld : ({.hdrbuf,.streamFile} - {.heapBuf} : Multiset Resource) ≠ 0 := by decide
        have hlate : ¬FailsEarly s t c := by
          rintro (h1 | ⟨e,he⟩ | ⟨-,b,onHeap,hb⟩)
          · exact h0 h1
          · cases hacq.symm.trans he
          · cases hacq.symm.trans hb
        exact ⟨fun h1 => absurd h1 hlate,fun _ => iff_of_false (fun h1 => hheld h1.held) hlate⟩

/-- The first process of the small machine, with a table of its own and no file open. -/
def firstState : State where
  sys := firstProcess
  info _ := {}
  files := ⟨fun t => if t = 0 then some 0 else none,fun _ => ⟨fun _ => none,1⟩,fun _ => 0,
    fun _ => false⟩

/-- Nothing at the path. -/
def execMissing : ExecCall :=
  { path := .ofBytes [97] rfl, found := .missing, argv := [], envp := [] }

theorem missing_execve_harmless : Harmless firstState 0 ⟨firstState,-ENOENT,0⟩ :=
  (failed_execve_harmless (c := execMissing) rfl (by decide)).1 (.inr (.inl ⟨_,rfl⟩))

/-- The header of a position-independent program without segments. -/
def emptyHeader : List UInt8 :=
  [0x7F,0x45,0x4C,0x46,2,1,1,0] ++ List.replicate 8 0 ++ [3,0] ++ List.replicate 14 0 ++
    [64] ++ List.replicate 21 0 ++ [56] ++ List.replicate 9 0

/-- A large file with that header, and no interpreter. -/
def largeFile : ExecFile where
  mode := 0
  uid := 0
  gid := 0
  executable := true
  size := 0x1000001
  contents := emptyHeader ++ List.replicate 0xFFFFC1 0
  delivers := 0x1000001
  reads _ _ := true

def execLarge : ExecCall :=
  { path := .ofBytes [97] rfl, found := .file largeFile, argv := [], envp := [] }

theorem largeFile_complete : largeFile.complete 0 64 = true := by
  have hlen : largeFile.contents.length = 0x1000001 := by
    rw [largeFile,List.length_append,List.length_replicate]
    rfl
  rw [ExecFile.complete,hlen]
  rfl

theorem execLarge_acquire :
    execLarge.acquire = .ok (.streamed ⟨largeFile.contents.take 64,fun _ => 0⟩ largeFile) := by
  have hphsz : wrap ((readEhdr fun i => largeFile.contents.getD i 0).phoff +
      (readEhdr fun i => largeFile.contents.getD i 0).phnum *
        (readEhdr fun i => largeFile.contents.getD i 0).phentsize) = 64 := by decide +kernel
  have hmagic : ((readEhdr fun i => largeFile.contents.getD i 0).magic != ELF_MAGIC) = false := by
    decide +kernel
  show largeFile.acquire execLarge = _
  rw [ExecFile.acquire,if_neg (by decide),if_neg (by decide),if_neg (by decide)]
  dsimp only
  rw [hphsz,hmagic,show EHDR_SIZE = 64 from rfl,largeFile_complete,if_neg (by decide),
    if_neg (by decide),if_neg (by decide),if_neg (by decide)]
  rfl

/-- The image of the large file. -/
def largeImage : Image := .streamed ⟨largeFile.contents.take 64,fun _ => 0⟩ largeFile

theorem largeImage_phdrs : largeImage.phdrs = [] := by
  have hnum : (readEhdr largeImage.header.view).phnum = 0 := by decide +kernel
  rw [Image.phdrs,phdrs,hnum]
  rfl

theorem largeImage_program : largeImage.program execLarge = .elf true true [] none [] := by
  have helf : largeImage.isElf = true := by decide +kernel
  have htype : (largeImage.ehdr.type == ET_DYN) = true := by decide +kernel
  have hloads : largeImage.loads = [] := by rw [Image.loads,largeImage_phdrs]; rfl
  have hinterp : largeImage.interp execLarge = none := by
    have hpath : largeImage.interpPath = none := by
      rw [Image.interpPath.eq_def,largeImage_phdrs]
      rfl
    rw [Image.interp,hpath]
    rfl
  rw [Image.program.eq_def,if_pos helf,htype,hloads,hinterp]
  rfl

/-- Its address space and its name are gone before execve finds that the program cannot run. -/
theorem large_execve_harms : ∃ o, elfExecve firstState 0 execLarge = some o ∧ o.rc < 0 ∧
    ¬Harmless firstState 0 o := by
  have hcall : elfExecve firstState 0 execLarge = execLoad firstState 0 execLarge largeImage := by
    have hbuf : execLarge.argbuf = true := rfl
    rw [elfExecve,if_neg (by decide),execLarge_acquire]
    dsimp only
    rw [hbuf,if_neg (by decide)]
    rfl
  have hload (r : Nat) (m : Mem) : (Program.elf true true [] none []).load r m = (m,-ENOEXEC) := rfl
  have hres : ∃ o, execLoad firstState 0 execLarge largeImage = some o ∧ o.rc < 0 := by
    rw [execLoad,largeImage_program]
    rw [hload,if_pos (by decide)]
    exact ⟨_,rfl,by decide⟩
  obtain ⟨o,ho,hrc⟩ := hres
  refine ⟨o,hcall.trans ho,hrc,fun hharm => ?_⟩
  have hname := execLoad_name ho
  rw [hharm.thread] at hname
  revert hname
  decide

end Lariat.Elf
