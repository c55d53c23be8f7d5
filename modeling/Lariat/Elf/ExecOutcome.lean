import Lariat.Elf.Execve
import Lariat.Mm.Mmap

/-! The stages of an execve that succeeds, and the arguments the program is started with, against
those its caller gave. -/
namespace Lariat.Elf
open Foundation.TableTree Reader Finset List Function Nat
open Foundation.ByteStore Mm

variable {k : Machine} {s : State} {lost : Multiset Nat} {t r bias : Nat} {c : ExecCall} {o : Outcome}
  {g : Image} {m m' m1 m2 m3 : Mem} {roots : Finset Nat}

section Relocating

/-- A relocation writes to `v`. -/
def Targeted (log : List Access) (v : Nat) : Prop :=
  ∃ a, .target a ∈ log ∧ ∃ i < 8, v = wrap (a+i)

theorem Targeted.mono {log log' : List Access} (h : log ⊆ log') {v : Nat} (hv : Targeted log v) :
    Targeted log' v :=
  hv.imp fun _ ha => ⟨h ha.1,ha.2⟩

theorem relocateEntry_cases {a : Nat} (h : (relocateEntry m r bias a).2 = some m') :
    m' = m ∨ ∃ w n, .target (wrap w) ∈ (relocateEntry m r bias a).1 ∧
      wordMapped m r (wrap w) = true ∧ m' = storeBytes m r (wrap w) (le 8 n) := by
  rw [relocateEntry] at h ⊢
  split at h
  · cases h
  split at h
  · cases h
    exact .inl rfl
  split at h
  · cases h
  split at h
  · cases h
  dsimp only at h
  split at h
  · rename_i hmapped
    cases h
    refine .inr ⟨_,_,?_,hmapped,rfl⟩
    simp only [*,Bool.false_eq_true,if_false,List.mem_cons,true_or,or_true]
  · cases h

theorem relocateEntry_retouched {a : Nat} (h : (relocateEntry m r bias a).2 = some m') :
    Retouched r (Targeted (relocateEntry m r bias a).1) m m' := by
  rcases relocateEntry_cases h with rfl | ⟨v,n,hv,-,rfl⟩
  · exact Retouched.refl r _ m'
  · refine (storeBytes_retouched r _ _).mono fun w hw => ?_
    exact ⟨_,hv,hw⟩

theorem relocateFrom_succ {d : RelaTable} {n i : Nat}
    (h : (relocateFrom r bias d (n+1) i m).2 = some m') :
    ∃ m1, (relocateEntry m r bias (entryAddr bias d i)).2 = some m1 ∧
      (relocateFrom r bias d n (i+1) m1).2 = some m' ∧
      (relocateFrom r bias d (n+1) i m).1 =
        (relocateEntry m r bias (entryAddr bias d i)).1 ++ (relocateFrom r bias d n (i+1) m1).1 := by
  rw [relocateFrom] at h ⊢
  cases hone : relocateEntry m r bias (entryAddr bias d i) with
  | mk log x =>
    rw [hone] at h
    cases x with
    | none => cases h
    | some m1 => exact ⟨m1,rfl,h,rfl⟩

theorem relocateFrom_retouched {d : RelaTable} {n i : Nat}
    (h : (relocateFrom r bias d n i m).2 = some m') :
    Retouched r (Targeted (relocateFrom r bias d n i m).1) m m' := by
  induction n generalizing i m with
  | zero =>
    cases h
    exact Retouched.refl r _ _
  | succ n ih =>
    obtain ⟨m1,hone,hrest,hlog⟩ := relocateFrom_succ h
    rw [hlog]
    exact ((relocateEntry_retouched hone).mono fun _ hv =>
      hv.mono (subset_append_left _ _)).trans
        ((ih hrest).mono fun _ hv => hv.mono (subset_append_right _ _))

theorem applyRelocations_cases {b : Buffer} (h : (applyRelocations b m r bias).2 = some m') :
    m' = m ∨ ∃ d, (relocateFrom r bias d d.count 0 m).2 = some m' ∧
      (relocateFrom r bias d d.count 0 m).1 ⊆ (applyRelocations b m r bias).1 := by
  rw [applyRelocations] at h ⊢
  split at h
  · cases h
    exact .inl rfl
  split at h
  · cases h
  · rename_i log d heq
    refine .inr ⟨d,h,?_⟩
    exact subset_append_right log _

theorem applyRelocations_retouched {b : Buffer} (h : (applyRelocations b m r bias).2 = some m') :
    Retouched r (Targeted (applyRelocations b m r bias).1) m m' := by
  rcases applyRelocations_cases h with rfl | ⟨d,hrun,hlog⟩
  · exact Retouched.refl r _ m'
  · exact (relocateFrom_retouched hrun).mono fun _ hv => hv.mono hlog

theorem relocated_cases (h : (c.relocated g r m m1).2 = some m2) :
    m2 = m1 ∨ ∃ b onHeap, g = .whole b onHeap ∧ (applyRelocations b m1 r g.bias).2 = some m2 ∧
      (c.relocated g r m m1).1 = (applyRelocations b m1 r g.bias).1 := by
  cases g with
  | whole b onHeap =>
    rw [ExecCall.relocated] at h ⊢
    split_ifs at h ⊢
    · exact .inr ⟨b,onHeap,rfl,h,rfl⟩
    · cases h
      exact .inl rfl
  | streamed hdr f =>
    cases h
    exact .inl rfl

theorem relocated_retouched (h : (c.relocated g r m m1).2 = some m2) :
    Retouched r (Targeted (c.relocated g r m m1).1) m1 m2 := by
  rcases relocated_cases h with rfl | ⟨b,_,-,hrun,hlog⟩
  · exact Retouched.refl r _ m2
  · rw [hlog]
    exact applyRelocations_retouched hrun

end Relocating

section Inversion

/-- The thread's record when its program is loaded. -/
def ThreadInfo.loading (i : ThreadInfo) (c : ExecCall) : ThreadInfo :=
  c.found.setIds { i.resetSignals with name := progName c.path }

/-- The stages of a successful call, the address space and the table to destroy being those of
`execSpace`: the program loaded, relocated, and its stack mapped. -/
structure Ran (s : State) (t : Nat) (c : ExecCall) (o : Outcome) (g : Image) (m1 m2 m3 : Mem) :
    Prop where
  space : (s.sys.proc t).cr3 ≠ 0
  acquired : c.acquire = .ok g
  loaded : ∃ rc, (g.program c).load ((execSpace s.sys t).1.proc t).cr3 (execSpace s.sys t).1.mem =
    (m1,rc) ∧ 0 ≤ rc
  relocated : (c.relocated g ((execSpace s.sys t).1.proc t).cr3 (execSpace s.sys t).1.mem m1).2 =
    some m2
  stack : mapPages (vmmDestroyPagetable m2 (execSpace s.sys t).2)
    ((execSpace s.sys t).1.proc t).cr3 stackBase (fun _ _ => 0) true USER_STACK_PAGES = (m3,none)
  result : ∃ entry aux, aux.length ≤ 14 ∧ o = execStack
    (({ s with sys := (execSpace s.sys t).1 }).setInfo t (·.loading c)) t c entry aux (m3,none)

theorem setInfo_setInfo (s : State) (t : Nat) (f f' : ThreadInfo → ThreadInfo) :
    (s.setInfo t f).setInfo t f' = s.setInfo t fun i => f' (f i) := by
  simp only [State.setInfo,update_self,update_idem]

theorem aux_length (c : ExecCall) (g : Image) (r : Nat) (m : Mem) (i : ThreadInfo) :
    (c.aux g r m i).length ≤ 14 := by
  have helf (b : Nat) : (g.elfAux b).length = 6 := rfl
  have hcommon : i.aux.length = 8 := rfl
  rw [ExecCall.aux,length_append,hcommon]
  split_ifs
  · rw [helf]
  · rw [helf]
  · exact le_of_ble_eq_true rfl

theorem execFinish_of {entry : Nat} {aux : List AuxVal} (hr : (s.sys.proc t).cr3 = r) :
    execFinish s t c entry aux m =
      execStack s t c entry aux (mapPages m r stackBase (fun _ _ => 0) true USER_STACK_PAGES) := by
  rw [execFinish,hr]

theorem execLoad_ran (h0 : (s.sys.proc t).cr3 ≠ 0) (hacq : c.acquire = .ok g)
    (h : execLoad s t c g = some o) (hrc : 0 ≤ o.rc) : ∃ m1 m2 m3, Ran s t c o g m1 m2 m3 := by
  rw [execLoad] at h
  cases hload : (g.program c).load ((execSpace s.sys t).1.proc t).cr3 (execSpace s.sys t).1.mem with
  | mk m1 rc =>
    rw [hload] at h
    split_ifs at h with hneg
    · cases h
      exact absurd hrc (Int.not_le.mpr hneg)
    obtain ⟨m2,hrel,rfl⟩ := Option.map_eq_some_iff.mp h
    have haux := aux_length c g ((execSpace s.sys t).1.proc t).cr3 (execSpace s.sys t).1.mem
    rw [setInfo_setInfo,execFinish_of (r := ((execSpace s.sys t).1.proc t).cr3) rfl] at hrc ⊢
    cases hstack : mapPages (vmmDestroyPagetable m2 (execSpace s.sys t).2)
        ((execSpace s.sys t).1.proc t).cr3 stackBase (fun _ _ => 0) true USER_STACK_PAGES with
    | mk m3 x =>
      rw [hstack] at hrc
      cases x with
      | some i => exact absurd hrc (show ¬(0 : Int) ≤ -ENOMEM by decide)
      | none =>
        exact ⟨m1,m2,m3,h0,hacq,⟨rc,hload,Int.not_lt.mp hneg⟩,hrel,hstack,_,_,haux _,rfl⟩

theorem elfExecve_ran (h : elfExecve s t c = some o) (hrc : 0 ≤ o.rc) :
    ∃ g m1 m2 m3, Ran s t c o g m1 m2 m3 := by
  rw [elfExecve] at h
  by_cases h0 : (s.sys.proc t).cr3 = 0
  · rw [if_pos h0] at h
    cases h
    exact absurd hrc (show ¬(0 : Int) ≤ -EINVAL by decide)
  rw [if_neg h0] at h
  cases hacq : c.acquire with
  | error e =>
    rw [hacq] at h
    cases h
    exact absurd hrc (Int.not_le.mpr (acquire_error hacq).1)
  | ok g =>
    rw [hacq] at h
    split_ifs at h
    · cases h
      exact absurd hrc (show ¬(0 : Int) ≤ -ENOMEM by decide)
    · exact ⟨g,execLoad_ran h0 hacq h hrc⟩

end Inversion

section Stages

section

variable (s : State) (t : Nat) (c : ExecCall) (g : Image)

/-- The accesses of the relocation in a call that loads the image. -/
def State.relocationLog : List Access :=
  let x := execSpace s.sys t
  let r := (x.1.proc t).cr3
  (c.relocated g r x.1.mem ((g.program c).load r x.1.mem).1).1

/-- The interpreter of the image is loaded in a call that loads the image. -/
def State.interpUsed : Bool :=
  let x := execSpace s.sys t
  c.usesInterp g (x.1.proc t).cr3 x.1.mem

/-- A program that asks for pages in user space only and relocates nothing outside it. -/
structure UserProgram : Prop where
  pages : ∀ q ∈ (g.program c).reqs, UserAddr q.virt
  targets : ∀ v, Targeted (s.relocationLog t c g) v → UserAddr v

end

/-- The stages of a successful call: a fresh address space `r` in memory `m0`, the program loaded
in `m1`, relocated in `m2`, the old address space `old` destroyed unless others use it, and the stack
mapped in `m3`. -/
structure Stages (k : Machine) (s : State) (lost : Multiset Nat) (t : Nat) (c : ExecCall)
    (o : Outcome) (g : Image) (r old : Nat) (m0 m1 m2 m3 : Mem) : Prop where
  new : r ≠ 0 ∧ r ∉ s.sys.roots ∧ r ≠ old
  sound : Sound k m0 (insert r s.sys.roots) lost
  fresh : Unchanged k s.sys.mem m0 s.sys.roots
  kept : BytesKept s.sys.mem m0
  empty : ∀ v, k.reader.find m0.table [] r (indices v) = none
  old_eq : (s.sys.proc t).mmCount = none ∧ old = (s.sys.proc t).cr3 ∨
    (∃ n, (s.sys.proc t).mmCount = some n) ∧ old = 0
  loaded : ∃ l y n, l <+: (g.program c).reqs ∧
    (g.program c).segments.flatMap Segment.reqs <+: l ∧
    Laid k m0 m1 (insert r s.sys.roots) lost y r l n
  load : ∃ rc, (g.program c).load r m0 = (m1,rc) ∧ 0 ≤ rc
  interp : c.usesInterp g r m0 = s.interpUsed t c g
  relocated : (c.relocated g r m0 m1).2 = some m2
  log : (c.relocated g r m0 m1).1 = s.relocationLog t c g
  freed : ∃ x, Frees m2 (vmmDestroyPagetable m2 old) x
  stack : ∃ y z n, Sound k (vmmDestroyPagetable m2 old) ((insert r s.sys.roots).erase old) y ∧
    Laid k (vmmDestroyPagetable m2 old) m3 ((insert r s.sys.roots).erase old) y z r stackReqs n
  result : ∃ counts entry aux, aux.length ≤ 14 ∧ o = execStack (({ s with
    sys := { (s.sys.setMem m0).setProc t { s.sys.proc t with cr3 := r, mmCount := none } with
      counts := counts } }).setInfo t (·.loading c)) t c entry aux (m3,none)

theorem stackBase_range : UserRange stackBase USER_STACK_PAGES :=
  ⟨by decide,by decide,by decide⟩

theorem stack_needs_frames {y z : Multiset Nat} {n : Nat}
    (h : Laid k m m' roots y z r stackReqs n) (hr : r ∈ roots) :
    USER_STACK_PAGES ≤ m.pmm.free.card :=
  h.pages_le hr (by decide) stackBase_range

/-- A program that loads leaves its pages, and its stack is mapped over what the old address space
gave back. -/
theorem load_stages {p : Program} {rc : Int} {old : Nat} (hs : Sound k m roots lost) (hr : r ∈ roots)
    (hold : old = 0 ∨ old ∈ roots) (hne : r ≠ old) (hu : ∀ q ∈ p.reqs, UserAddr q.virt)
    (hload : p.load r m = (m1,rc)) (hrc : 0 ≤ rc) {A : Nat → Prop} (hrel : Retouched r A m1 m2)
    (hstack : mapPages (vmmDestroyPagetable m2 old) r stackBase (fun _ _ => 0) true USER_STACK_PAGES =
      (m3,none)) :
    (∃ l y n, l <+: p.reqs ∧ p.segments.flatMap Segment.reqs <+: l ∧ Laid k m m1 roots lost y r l n) ∧
      (∃ x, Frees m2 (vmmDestroyPagetable m2 old) x) ∧
      ∃ y z n, Sound k (vmmDestroyPagetable m2 old) (roots.erase old) y ∧
        Laid k (vmmDestroyPagetable m2 old) m3 (roots.erase old) y z r stackReqs n := by
  obtain ⟨l,y,n,hl,hall,hlaid⟩ := (hs.load hr hu).laid
  rw [hload] at hall hlaid
  obtain ⟨hsound,hfrees⟩ := (hrel.sound hlaid.sound).destroyOld hold
  have hmapped := hsound.mapPages (mem_erase.mpr ⟨hne,hr⟩) (fun _ _ => 0) true
    fun i hi => stackBase_range.page_user hi
  rw [hstack] at hmapped
  refine ⟨⟨l,y,n,hl,hall hrc,hlaid⟩,hfrees,?_⟩
  cases hmapped with
  | done hpages => exact ⟨_,_,_,hsound,hpages⟩

theorem Ran.stages (h : Ran s t c o g m1 m2 m3) (hh : Housed k s.sys lost) (ht : t ∈ s.sys.live)
    (hu : ∀ q ∈ (g.program c).reqs, UserAddr q.virt) :
    ∃ r old m0, Stages k s lost t c o g r old m0 m1 m2 m3 := by
  obtain ⟨h0,-,⟨rc,hload,hrc⟩,hrel,hstack,entry,aux,haux,ho⟩ := h
  have hr := root_mem ht h0
  have htaken := execSpace_taken hh ht h0
  have hkept := execSpace_bytes hh ht h0
  have hlog : (c.relocated g ((execSpace s.sys t).1.proc t).cr3 (execSpace s.sys t).1.mem m1).1 =
      s.relocationLog t c g := by
    rw [State.relocationLog,hload]
  have hint : c.usesInterp g ((execSpace s.sys t).1.proc t).cr3 (execSpace s.sys t).1.mem =
      s.interpUsed t c g := rfl
  generalize execSpace s.sys t = x at *
  cases htaken with
  | @reused ma mb y hcard hfree hunch hreset =>
    -- loading over the old table only happens with too few frames for a stack
    rw [setProc_same,resetHeap_cr3,setProc_mem] at hload hrel
    rw [setProc_same,resetHeap_cr3] at hstack
    obtain ⟨⟨l,z,n,-,-,hlaid⟩,-,y',z',n',-,hpages⟩ :=
      load_stages hreset.sound hr (.inl rfl) h0 hu hload hrc (relocated_retouched hrel) hstack
    have hneed := stack_needs_frames hpages (mem_erase.mpr ⟨h0,hr⟩)
    have hspent : m1.pmm.free.card ≤ mb.pmm.free.card := card_le_card hlaid.spent.free
    have hsame : m2.pmm = m1.pmm := (relocated_retouched hrel).pmm
    have hpmm : mb.pmm = ma.pmm := hreset.pmm
    have hzero : vmmDestroyPagetable m2 0 = m2 := by rw [vmmDestroyPagetable,if_pos rfl]
    rw [hzero,hsame] at hneed
    rw [hpmm,hfree] at hspent
    exact absurd (hneed.trans hspent) (not_le.mpr (hcard.trans (by decide)))
  | @fresh m0 r old counts hr0 hnew hs hunch hnone hold =>
    obtain ⟨hne,hold'⟩ := SpaceTaken.old_ne ht hr0 h0 hnew hold
    rw [setProc_same] at hload hrel hstack hlog hint
    obtain ⟨hloaded,hfreed,hpages⟩ := load_stages hs (mem_insert_self r s.sys.roots) hold' hne
      hu hload hrc (relocated_retouched hrel) hstack
    refine ⟨r,old,m0,⟨hr0,hnew,hne⟩,hs,hunch,hkept,hnone,?_,hloaded,⟨rc,hload,hrc⟩,hint,hrel,hlog,hfreed,hpages,counts,
      entry,aux,haux,ho⟩
    rcases hold with ⟨hmm,hold,-⟩ | ⟨n,hmm,hold,-⟩
    · exact .inl ⟨hmm,hold⟩
    · exact .inr ⟨⟨n,hmm⟩,hold⟩

end Stages

section Room

theorem execFinish_room {roots : Finset Nat} {entry : Nat} {aux : List AuxVal}
    (hs : Sound k m roots lost) (hr : (s.sys.proc t).cr3 ∈ roots)
    (hroom : 4 * USER_STACK_PAGES ≤ m.pmm.free.card) :
    (execFinish s t c entry aux m).rc = 0 := by
  have hmapped := hs.mapPages hr (fun _ _ => 0) true
    fun i hi => stackBase_range.page_user hi
  rw [execFinish]
  generalize mapPages m (s.sys.proc t).cr3 stackBase (fun _ _ => 0) true USER_STACK_PAGES = x
    at hmapped
  cases hmapped with
  | done => rfl
  | full hi _ hc => omega

/-- A program of user pages that can be read and relocated is started, if there is memory. -/
theorem elfExecve_room (hh : Housed k s.sys lost) (ht : t ∈ s.sys.live) (h0 : (s.sys.proc t).cr3 ≠ 0)
    (hacq : c.acquire = .ok g) (hargs : c.argbuf = true)
    (hu : ∀ q ∈ (g.program c).reqs, UserAddr q.virt) (hload : (g.program c).Loadable)
    (hrel : ∀ r m m1, ∃ m2, (c.relocated g r m m1).2 = some m2)
    (hroom : 4 * (g.program c).reqs.length + 4*USER_STACK_PAGES + 2 ≤ s.sys.mem.pmm.free.card) :
    ∃ o, elfExecve s t c = some o ∧ o.rc = 0 := by
  have htaken := execSpace_taken hh ht h0
  have hspace := execSpace_room (t := t) hh (by omega)
  rw [elfExecve,if_neg h0,hacq]
  dsimp only
  rw [hargs,if_neg (by decide),execLoad]
  generalize execSpace s.sys t = x at htaken hspace
  cases htaken with
  | reused hcard => omega
  | @fresh m0 r old counts hr0 hnew hs hunch hnone hold =>
    obtain ⟨hne,hold'⟩ := SpaceTaken.old_ne ht hr0 h0 hnew hold
    rw [setProc_mem] at hspace
    rw [setProc_same,setProc_mem]
    obtain ⟨m1,y,rc,hone,hrc,hl⟩ := hs.load_room (mem_insert_self r _) hu hload (by omega)
    obtain ⟨m2,hm2⟩ := hrel r m0 m1
    obtain ⟨hsound,z,hfrees⟩ :=
      ((relocated_retouched hm2).sound hl.sound).destroyOld hold'
    have hcard := hl.spent.card
    have hpmm := (relocated_retouched hm2).pmm
    have hmore := hfrees.card_le
    rw [hpmm] at hmore
    rw [hone,if_neg (Int.not_lt.mpr hrc)]
    dsimp only
    rw [hm2]
    refine ⟨_,rfl,execFinish_room hsound ?_ (by omega)⟩
    dsimp only [State.setInfo]
    rw [setProc_same]
    exact mem_erase.mpr ⟨hne,mem_insert_self r _⟩

end Room

section Starting

/-- The addresses of the initial stack. -/
def OnStack (v : Nat) : Prop := stackBase ≤ v ∧ v < USER_STACK_TOP

theorem OnStack.user {v : Nat} (h : OnStack v) : UserAddr v :=
  ⟨le_trans (by decide) h.1,lt_trans h.2 (by decide)⟩

theorem stack_backed {y z : Multiset Nat} {n v : Nat} (hs : Sound k m roots y)
    (h : Laid k m m' roots y z r stackReqs n) (hr : r ∈ roots) (hv : OnStack v) :
    Backed k m' r v := by
  have hlt : v - stackBase < USER_STACK_PAGES * 4096 := by
    have htop : stackBase + USER_STACK_PAGES*4096 = USER_STACK_TOP := by decide
    have := hv.1
    have := hv.2
    omega
  obtain ⟨hfind,hfree,-⟩ := h.page hr (by decide) stackBase_range hlt
  have hv' : USER_STACK_TOP - USER_STACK_PAGES*4096 + (v-stackBase) = v :=
    add_sub_of_le hv.1
  rw [hv'] at hfind
  exact ⟨hv.user,_,hfind,hs.intact.total ▸ (Pmm.mem_free.mp hfree).1⟩

/-- Memory in which only the stack has been written to, `m` being the memory before. -/
structure StackOnly (k : Machine) (m m' : Mem) (roots : Finset Nat) (lost : Multiset Nat) (r : Nat) :
    Prop where
  sound : Sound k m' roots lost
  backed : ∀ v, OnStack v → Backed k m' r v
  retouched : Retouched r OnStack m m'

theorem storeBytes_writes (hr : r ∈ roots) : Writes (fun m a bs => storeBytes m r a bs)
    (fun m => userView m r) (fun m' => StackOnly k m m' roots lost r) stackBase USER_STACK_TOP := by
  intro m' a bs h hlo htop
  have hon (i : Nat) (hi : i < bs.length) : OnStack (a+i) := ⟨by omega,by omega⟩
  have htouch : Retouched r OnStack m' (storeBytes m' r a bs) :=
    (storeBytes_retouched r a bs).mono fun v ⟨i,hi,hv⟩ => by
      have hwrap : wrap (a+i) = a + i :=
        mod_eq_of_lt (lt_trans (hon i hi).user.2 (by decide))
      rw [hv,hwrap]
      exact hon i hi
  exact ⟨⟨htouch.sound h.sound,fun v hv => htouch.backed (h.backed v hv),h.retouched.trans htouch⟩,
    h.sound.storeBytes_view hr fun i hi => h.backed _ (hon i hi)⟩

/-- What the program is started with: an address space of its own, in which nothing but the stack
has been written to since it was mapped, and the stack it finds. -/
structure Started (k : Machine) (s : State) (t : Nat) (c : ExecCall) (o : Outcome)
    (roots : Finset Nat) (lost : Multiset Nat) (r : Nat) (m : Mem) : Prop where
  space : (o.state.sys.proc t).cr3 = r
  others : ∀ u ≠ t, o.state.sys.proc u = s.sys.proc u
  live : o.state.sys.live = s.sys.live
  files : o.state.files = s.files.closeFds t
  memory : StackOnly k m o.state.sys.mem roots lost r
  stack : c.argp = true → c.envpp = true → ∃ aux st rand, InitialStack (userView m r)
    (userView o.state.sys.mem r) (o.state.info t).userRsp stackBase USER_STACK_TOP c.kargv c.kenvp
    aux st rand
  bare : ¬(c.argp = true ∧ c.envpp = true) → (o.state.info t).userRsp = 0

theorem copied_stackNeed (c : ExecCall) {n : Nat} (hn : n ≤ 14) :
    stackNeed USER_STACK_TOP c.kargv c.kenvp n ≤ USER_STACK_PAGES * 4096 := by
  obtain ⟨h1,h2,h3⟩ := c.copied_room
  have hpages : USER_STACK_PAGES * 4096 = 1048576 := rfl
  rw [EXEC_MAXARG] at h1 h2
  rw [EXEC_ARGBUF] at h3
  rw [stackNeed,stackEntries,hpages]
  omega

variable {aux : List AuxVal}

theorem setup_started (h : StackOnly k m m roots lost r) (hr : r ∈ roots) (haux : aux.length ≤ 14)
    {x : Mem × Nat}
    (hx : x = setupUserStack (fun m a bs => storeBytes m r a bs) m USER_STACK_TOP c.argvAt c.kargv
      c.kenvp aux c.argp c.envpp) :
    StackOnly k m x.1 roots lost r ∧ (c.argp = true → c.envpp = true → ∃ st rand, InitialStack
      (userView m r) (userView x.1 r) x.2 stackBase USER_STACK_TOP c.kargv c.kenvp aux st rand) ∧
      (¬(c.argp = true ∧ c.envpp = true) → x.2 = 0) := by
  obtain ⟨hargc,henvc,-⟩ := c.copied_room
  have hneed := copied_stackNeed c haux
  subst hx
  by_cases hok : c.argp = true ∧ c.envpp = true
  · rw [hok.1,hok.2]
    have hfit : stackBase + stackNeed USER_STACK_TOP c.kargv c.kenvp aux.length ≤ USER_STACK_TOP := by
      have htop : stackBase + USER_STACK_PAGES*4096 = USER_STACK_TOP := by decide
      omega
    have hwrites : Writes (fun m a bs => storeBytes m r a bs) (fun m => userView m r)
        (fun m' => StackOnly k m m' roots lost r) stackBase USER_STACK_TOP := storeBytes_writes hr
    obtain ⟨h1,h2,h3⟩ := setupUserStack_sim hwrites h (by decide) c.argvAt hargc henvc hfit
    refine ⟨h1,fun _ _ => ?_,fun hno => absurd ⟨rfl,rfl⟩ hno⟩
    rw [h3,h2]
    exact setupUserStack_startup (userView m r) c.argvAt hargc henvc (by decide) (by decide) hneed
  · have hbare : (!c.argp || !c.envpp) = true := by
      cases h1 : c.argp <;> cases h2 : c.envpp <;> simp_all
    rw [setupUserStack,if_pos hbare]
    exact ⟨h,fun h1 h2 => absurd ⟨h1,h2⟩ hok,fun _ => rfl⟩

/-- The stack of call `c`, set up in the address space `r`. -/
def ExecCall.setup (c : ExecCall) (r : Nat) (aux : List AuxVal) (m : Mem) : Mem × Nat :=
  setupUserStack (fun m a bs => storeBytes m r a bs) m USER_STACK_TOP c.argvAt c.kargv c.kenvp aux
    c.argp c.envpp

theorem execStack_sys {entry : Nat} (hr : (s.sys.proc t).cr3 = r) :
    (execStack s t c entry aux (m,none)).state.sys = s.sys.setMem (c.setup r aux m).1 := by
  rw [← hr]
  rfl

theorem execStack_rsp {entry : Nat} (hr : (s.sys.proc t).cr3 = r) :
    ((execStack s t c entry aux (m,none)).state.info t).userRsp = (c.setup r aux m).2 := by
  rw [← hr]
  exact congrArg ThreadInfo.userRsp (update_self t _ s.info)

theorem Stages.started {old : Nat} {m0 : Mem} (h : Stages k s lost t c o g r old m0 m1 m2 m3) :
    ∃ y, Started k s t c o ((insert r s.sys.roots).erase old) y r m3 := by
  obtain ⟨y,z,n,hs,hlaid⟩ := h.stack
  obtain ⟨counts,entry,aux,haux,ho⟩ := h.result
  have hr : r ∈ (insert r s.sys.roots).erase old :=
    mem_erase.mpr ⟨h.new.2.2,mem_insert_self r _⟩
  have hcr3 := congrArg Proc.cr3
    (setProc_same (s := s.sys.setMem m0) (t := t) { s.sys.proc t with cr3 := r, mmCount := none })
  have hbefore : StackOnly k m3 m3 ((insert r s.sys.roots).erase old) (z+y) r :=
    ⟨hlaid.sound,fun v hv => stack_backed hs hlaid hr hv,Retouched.refl r _ m3⟩
  obtain ⟨h1,h2,h3⟩ := setup_started (x := c.setup r aux m3) hbefore hr haux rfl
  subst ho
  refine ⟨z+y,?_,?_,?_,rfl,?_,?_,?_⟩
  · exact hcr3
  · intro u hu
    exact setProc_other hu
  · rfl
  · rw [execStack_sys hcr3]
    exact h1
  · rw [execStack_rsp hcr3,execStack_sys hcr3]
    exact fun ha he => ⟨aux,h2 ha he⟩
  · rw [execStack_rsp hcr3]
    exact h3

theorem Stages.unchanged {old : Nat} {m0 : Mem} (h : Stages k s lost t c o g r old m0 m1 m2 m3)
    (hp : UserProgram s t c g) :
    Unchanged k s.sys.mem o.state.sys.mem (s.sys.roots.erase old) := by
  obtain ⟨y,hstart⟩ := h.started
  obtain ⟨l,x,n,-,-,hload⟩ := h.loaded
  obtain ⟨_,hfrees⟩ := h.freed
  obtain ⟨y',z,n',hs,hstack⟩ := h.stack
  have hrel := relocated_retouched h.relocated
  rw [h.log] at hrel
  have hr : r ∈ (insert r s.sys.roots).erase old :=
    mem_erase.mpr ⟨h.new.2.2,mem_insert_self r _⟩
  have hsub : s.sys.roots.erase old ⊆ (insert r s.sys.roots).erase r := by
    rw [erase_insert h.new.2.1]
    exact erase_subset _ _
  have hsub' : s.sys.roots.erase old ⊆ ((insert r s.sys.roots).erase old).erase r := by
    rw [erase_right_comm,erase_insert h.new.2.1]
  have h1 := hload.touched.unchanged.subset hsub
  have h2 := (hrel.unchanged hload.sound (mem_insert_self r _) hp.targets).subset hsub
  have h3 := hstack.touched.unchanged.subset hsub'
  have h4 := (hstart.memory.retouched.unchanged hstack.sound hr fun v hv => hv.user).subset hsub'
  exact ((((h.fresh.subset (erase_subset _ _)).trans h1).trans h2).trans
    (hfrees.unchanged _)).trans (h3.trans h4)

theorem elfExecve_stages (hh : Housed k s.sys lost) (ht : t ∈ s.sys.live)
    (h : elfExecve s t c = some o) (hrc : 0 ≤ o.rc)
    (hp : ∀ g, c.acquire = .ok g → UserProgram s t c g) :
    ∃ g r old m0 m1 m2 m3, c.acquire = .ok g ∧ UserProgram s t c g ∧
      Stages k s lost t c o g r old m0 m1 m2 m3 := by
  obtain ⟨g,m1,m2,m3,hran⟩ := elfExecve_ran h hrc
  have hg := hp g hran.acquired
  obtain ⟨r,old,m0,hstages⟩ := hran.stages hh ht hg.pages
  exact ⟨g,r,old,m0,m1,m2,m3,hran.acquired,hg,hstages⟩

end Starting

section Roomy

variable (n : Nat)

/-- The first process of a machine with `n` free frames, with all its descriptors closed. -/
@[irreducible] def roomyState : State where
  sys := processCreateUser (roomySys n) true
  info _ := {}
  files := ⟨fun t => if t = 0 then some 0 else none,fun _ => ⟨fun _ => none,1⟩,fun _ => 0,
    fun _ => false⟩

theorem roomyState_housed : Housed (roomyMachine n) (roomyState n).sys 0 := by
  rw [roomyState]
  exact (processCreateUser_born (roomySys_housed n) true).housed

theorem roomyState_runs (hn : 2 ≤ n) : 0 ∈ (roomyState n).sys.live ∧
    ((roomyState n).sys.proc 0).cr3 ≠ 0 ∧ n ≤ (roomyState n).sys.mem.pmm.free.card + 2 ∧
    (roomyState n).sys.nextTid = 1 := by
  have hsound := roomyMem_sound n
  have hmade := hsound.newSpace
  have hcard := vmmCloneKernelPagetable_card hsound.zero_used
  have hfree : (roomyMem n).pmm.free.card = n := by
    rw [roomyMem_free,Nat.card_Ico,Nat.add_sub_cancel_left]
  have hmem : (roomySys n).mem = roomyMem n := rfl
  rw [roomyState,processCreateUser,hmem]
  generalize vmmCloneKernelPagetable (roomyMem n) = x at hmade hcard
  cases hmade with
  | fail hfew => omega
  | @done m1 r hr0 =>
    dsimp only at hcard
    rw [if_neg hr0,if_pos rfl]
    have hnew : (((roomySys n).setMem m1).spawn { cr3 := r }).proc 0 = { cr3 := r } :=
      spawn_new { cr3 := r }
    refine ⟨mem_insert_self 0 _,?_,?_,rfl⟩
    · exact hr0
    · show n ≤ m1.pmm.free.card+2
      omega

end Roomy

/-- The stack thread `t` is started on lists the strings of the two vectors, all of them and in
order. -/
def ListsArguments (o : Outcome) (t : Nat) (argv envp : List CString) : Prop :=
  let view := userView o.state.sys.mem (o.state.sys.proc t).cr3
  let rsp := (o.state.info t).userRsp
  OnStack rsp ∧ ∃ st, decodeStack view USER_STACK_TOP rsp = some st ∧
    st.argp.map (string view (USER_STACK_TOP-rsp)) = argv.map CString.bytes ∧
    st.envpp.map (string view (USER_STACK_TOP-rsp)) = envp.map CString.bytes

theorem bytes_injective : Injective CString.bytes := by
  rintro ⟨a,_⟩ ⟨b,_⟩ rfl
  rfl

theorem InitialStack.onStack {f f' : Nat → UInt8} {rsp rand : Nat} {argv envp : List CString}
    {aux : List AuxVal} {st : Startup}
    (h : InitialStack f f' rsp stackBase USER_STACK_TOP argv envp aux st rand) : OnStack rsp := by
  obtain ⟨hlo,hhi⟩ := h.packed.within _ mem_cons_self
  have hpos : 0 < stackEntries argv.length envp.length aux.length := by
    rw [stackEntries]
    omega
  exact ⟨hlo,by omega⟩

/-- The stack a program is started on lists what was copied, so that it lists what was given only
if nothing was left out. -/
theorem Started.lists_iff (h : Started k s t c o roots lost r m) :
    ListsArguments o t c.argv c.envp ↔ c.ArgumentsFit ∧ c.argp = true ∧ c.envpp = true := by
  rw [ListsArguments,h.space]
  by_cases hok : c.argp = true ∧ c.envpp = true
  · obtain ⟨aux,st,rand,hst⟩ := h.stack hok.1 hok.2
    have hon := hst.onStack
    rw [and_iff_right hon,and_iff_left hok,← c.copied_eq_iff]
    constructor
    · rintro ⟨st',hdec,hargs,henvs⟩
      obtain rfl : st = st' := Option.some.inj (hst.decoded.symm.trans hdec)
      exact ⟨bytes_injective.list_map (hst.args.symm.trans hargs),
        bytes_injective.list_map (hst.envs.symm.trans henvs)⟩
    · rintro ⟨hargs,henvs⟩
      refine ⟨st,hst.decoded,?_,?_⟩
      · rw [hst.args,hargs]
      · rw [hst.envs,henvs]
  · refine iff_of_false (fun hlists => ?_) fun hfit => hok hfit.2
    have hzero := hlists.1.1
    rw [h.bare hok] at hzero
    exact absurd hzero (by decide)

/-- A program is started with the arguments its caller gave exactly if these are few and short
enough to be copied and there is memory for the two vectors of pointers. -/
theorem execve_arguments (hh : Housed k s.sys lost) (ht : t ∈ s.sys.live)
    (hp : ∀ g, c.acquire = .ok g → UserProgram s t c g) (h : elfExecve s t c = some o)
    (hrc : 0 ≤ o.rc) :
    ListsArguments o t c.argv c.envp ↔ c.ArgumentsFit ∧ c.argp = true ∧ c.envpp = true := by
  obtain ⟨g,r,old,m0,m1,m2,m3,-,-,hstages⟩ := elfExecve_stages hh ht h hrc hp
  obtain ⟨y,hstart⟩ := hstages.started
  exact hstart.lists_iff

section Calls

/-- A program of one instruction in the kernel image, called with the arguments `argv`. -/
def execFlat (argv : List CString) : ExecCall :=
  { path := .ofBytes [98] rfl, found := .embedded [0xC3], argv := argv, envp := [] }

variable (argv : List CString)

def flatImage : Image := .whole ⟨[0xC3],fun _ => 0⟩ false

theorem flatImage_program :
    flatImage.program (execFlat argv) = .flat 1 (Buffer.view ⟨[0xC3],fun _ => 0⟩) := rfl

theorem flat_reqs (data : Nat → UInt8) :
    (Program.flat 1 data).reqs.map (·.virt) = [USER_CODE_START] := by
  have hpages : (⟨USER_CODE_START,1,1,true,data,none⟩ : Segment).pages = 1 :=
    show (roundUp (USER_CODE_START+1) - roundDown USER_CODE_START) / 4096 = 1 by decide
  have hpage : pageAt (roundDown USER_CODE_START) 0 = USER_CODE_START := by decide
  rw [Program.reqs,Program.segments,Program.interpreter,flatMap_singleton,
    flatMap_nil,append_nil,Segment.reqs,hpages]
  exact congrArg (· :: []) hpage

theorem execFlat_user (s : State) : UserProgram s 0 (execFlat argv) flatImage where
  pages q hq := by
    rw [flatImage_program] at hq
    have hmem := mem_map_of_mem (f := fun q => q.virt) hq
    rw [flat_reqs,List.mem_singleton] at hmem
    rw [hmem]
    decide
  targets v hv := by
    obtain ⟨a,ha,-⟩ := hv
    exact absurd ha not_mem_nil

theorem execFlat_started (hh : Housed k s.sys lost) (ht : 0 ∈ s.sys.live)
    (h0 : (s.sys.proc 0).cr3 ≠ 0) (hroom : 1030 ≤ s.sys.mem.pmm.free.card) :
    ∃ o, elfExecve s 0 (execFlat argv) = some o ∧ o.rc = 0 := by
  refine elfExecve_room (g := flatImage) hh ht h0 rfl rfl (execFlat_user argv s).pages trivial
    (fun r m m1 => ⟨m1,rfl⟩) ?_
  exact hroom

theorem execFlat_roomy : ∃ o, elfExecve (roomyState 2048) 0 (execFlat argv) = some o ∧ o.rc = 0 := by
  obtain ⟨ht,h0,hroom,-⟩ := roomyState_runs 2048 (by decide)
  exact execFlat_started argv (roomyState_housed 2048) ht h0 (by omega)

theorem acquire_flat {g : Image} (h : (execFlat argv).acquire = .ok g) : g = flatImage :=
  (Except.ok.inj h).symm

/-- One short argument arrives. -/
theorem one_argument_listed : ∃ o, elfExecve (roomyState 2048) 0 (execFlat [.ofBytes [108,115] rfl]) =
    some o ∧ o.rc = 0 ∧ ListsArguments o 0 [.ofBytes [108,115] rfl] [] := by
  obtain ⟨o,ho,hrc⟩ := execFlat_roomy [.ofBytes [108,115] rfl]
  refine ⟨o,ho,hrc,(execve_arguments (roomyState_housed 2048) (roomyState_runs 2048 (by decide)).1
    (fun g hg => ?_) ho (Int.le_of_eq hrc.symm)).mpr ⟨⟨by decide,by decide,by decide⟩,rfl,rfl⟩⟩
  rw [acquire_flat _ hg]
  exact execFlat_user _ _

/-- Of 513 arguments the last one is dropped, and the program is started all the same. -/
theorem last_argument_dropped : ∃ o, elfExecve (roomyState 2048) 0
    (execFlat (List.replicate 513 (.ofBytes [97] rfl))) = some o ∧ o.rc = 0 ∧
    ¬ListsArguments o 0 (List.replicate 513 (.ofBytes [97] rfl)) [] := by
  obtain ⟨o,ho,hrc⟩ := execFlat_roomy (List.replicate 513 (.ofBytes [97] rfl))
  refine ⟨o,ho,hrc,fun hlists => ?_⟩
  obtain ⟨g,r,old,m0,m1,m2,m3,-,-,hstages⟩ := elfExecve_stages (roomyState_housed 2048)
    (roomyState_runs 2048 (by decide)).1 ho (Int.le_of_eq hrc.symm) fun g hg => by
      rw [acquire_flat _ hg]
      exact execFlat_user _ _
  obtain ⟨y,hstart⟩ := hstages.started
  have hfit := (hstart.lists_iff.mp hlists).1.1
  have hmany : (execFlat (List.replicate 513 (.ofBytes [97] rfl))).argv.length = 513 :=
    length_replicate
  rw [hmany] at hfit
  exact absurd hfit (by decide)

end Calls

end Lariat.Elf
