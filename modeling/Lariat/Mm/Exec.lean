import Lariat.Mm.Processes

/-! What execve does to the address spaces. -/
namespace Lariat.Mm

open Foundation.TableTree Reader Finset List Function
open Foundation.ByteStore

variable {k : Machine} {m m' : Mem} {roots : Finset Nat} {lost x : Multiset Nat} {r old : Nat}
  {prog : Program} {rc : Int}

section Stores

variable {m'' : Mem} {v c virt : Nat} {A B : Nat → Prop}

theorem storeByte_table (m : Mem) (pml4 virt : Nat) (x : UInt8) :
    (storeByte m pml4 virt x).table = m.table := by
  rw [storeByte]
  cases mapping m.table pml4 virt with
  | none => rfl
  | some a => rfl

theorem storeByte_other {f : Nat} {x : UInt8}
    (hf : ∀ a, mapping m.table c virt = some a → a.phys / 4096 ≠ f) :
    (storeByte m c virt x).byte f = m.byte f := by
  rw [storeByte]
  cases ha : mapping m.table c virt with
  | none => rfl
  | some a => exact update_of_ne (hf a ha).symm _ _

/-- Only the pages under addresses in `A` may hold other bytes. -/
structure Retouched (r : Nat) (A : Nat → Prop) (m m' : Mem) : Prop where
  table : m'.table = m.table
  pmm : m'.pmm = m.pmm
  kernelPml4 : m'.kernelPml4 = m.kernelPml4
  byte : ∀ f, (∀ v, A v → ∀ x, mapping m.table r v = some x → x.phys / 4096 ≠ f) →
    m'.byte f = m.byte f

theorem Retouched.refl (r : Nat) (A : Nat → Prop) (m : Mem) : Retouched r A m m :=
  ⟨rfl,rfl,rfl,fun _ _ => rfl⟩

theorem Retouched.trans (h : Retouched r A m m') (h' : Retouched r A m' m'') :
    Retouched r A m m'' where
  table := h'.table.trans h.table
  pmm := h'.pmm.trans h.pmm
  kernelPml4 := h'.kernelPml4.trans h.kernelPml4
  byte f hf := (h'.byte f fun v hv x hx => hf v hv x (h.table ▸ hx)).trans (h.byte f hf)

theorem Retouched.mono (h : Retouched r A m m') (hab : ∀ v, A v → B v) : Retouched r B m m' :=
  ⟨h.table,h.pmm,h.kernelPml4,fun f hf => h.byte f fun v hv => hf v (hab v hv)⟩

theorem Retouched.sound (h : Retouched r A m m') (hs : Sound k m roots lost) :
    Sound k m' roots lost where
  intact := ⟨h.kernelPml4.trans hs.intact.pml4,by rw [h.pmm]; exact hs.intact.total,
    fun g hg => by rw [h.table]; exact hs.intact.tables g hg⟩
  counted := by rw [h.pmm]; exact hs.counted
  forest := by
    have hstore : m'.store = m.store := by rw [Mem.store,Mem.store,h.table,h.pmm]
    rw [hstore]
    exact hs.forest

theorem storeByte_retouched (r v : Nat) (b : UInt8) :
    Retouched r (· = v) m (storeByte m r v b) := by
  refine ⟨storeByte_table m r v b,?_,?_,fun f hf => storeByte_other fun x hx => hf v rfl x hx⟩
  · rw [storeByte]
    cases mapping m.table r v <;> rfl
  · rw [storeByte]
    cases mapping m.table r v <;> rfl

theorem storeBytes_retouched (r a : Nat) (bs : List UInt8) :
    Retouched r (fun v => ∃ i < bs.length, v = wrap (a+i)) m (storeBytes m r a bs) := by
  induction bs generalizing m a with
  | nil => exact Retouched.refl r _ m
  | cons b bs ih =>
    have hone := storeByte_retouched (m := m) r (wrap a) b
    refine (hone.mono fun v hv => ⟨0,Nat.succ_pos _,hv⟩).trans ((ih (a+1)).mono ?_)
    rintro v ⟨i,hi,rfl⟩
    exact ⟨i+1,Nat.succ_lt_succ hi,by rw [Nat.add_assoc,Nat.add_comm 1]⟩

/-- The frame of a user page is the space's own, or no frame of the allocator's. -/
theorem Sound.frame_owned (hs : Sound k m roots lost) (hr : r ∈ roots) (hv : UserAddr v)
    {x : Mapping} (hx : mapping m.table r v = some x) :
    x.phys / 4096 ∈ k.reader.owned m.table 4 [] r ∨ k.total ≤ x.phys / 4096 := by
  rw [hs.mapping_user hr hv] at hx
  obtain ⟨e,he,rfl⟩ := Option.map_eq_some_iff.mp hx
  show (e.frame * 4096 ||| v % 4096) / 4096 ∈ _ ∨ _ ≤ (e.frame * 4096 ||| v % 4096) / 4096
  rw [phys_frame]
  exact leaf_mem rfl (hs.forest.sane r hr) he

theorem Retouched.unchanged (h : Retouched r A m m') (hs : Sound k m roots lost) (hr : r ∈ roots)
    (hA : ∀ v, A v → UserAddr v) : Unchanged k m m' (roots.erase r) := by
  intro u hu f hf
  obtain ⟨hne,hu⟩ := Finset.mem_erase.mp hu
  refine ⟨by rw [h.table],h.byte f fun v hv x hx heq => ?_⟩
  rcases hs.frame_owned hr (hA v hv) hx with hown | hge
  · exact (hs.forest.apart hr hu hne hf).1 (heq ▸ hown)
  · exact absurd (hs.lt_total hu f hf) (not_lt.mpr (heq ▸ hge))

/-- The addresses the relocation of the program stores to. -/
def Program.targets : Program → List Nat
  | .elf _ _ _ _ relocs => relocs.flatMap fun w => (List.range 8).map fun i => wrap (w.1+i)
  | .flat _ _ => []

theorem applyRelocations_retouched (relocs : List (Nat × Nat)) : Retouched r
    (· ∈ relocs.flatMap fun w => (List.range 8).map fun i => wrap (w.1+i)) m
      (applyRelocations r m relocs) := by
  induction relocs generalizing m with
  | nil => exact Retouched.refl r _ m
  | cons w ws ih =>
    have hone := storeBytes_retouched (m := m) r w.1 (le 8 w.2)
    refine (hone.mono ?_).trans (ih.mono fun v hv => ?_)
    · rintro v ⟨i,hi,rfl⟩
      rw [length_le] at hi
      exact mem_append_left _ (List.mem_map_of_mem (List.mem_range.mpr hi))
    · exact mem_append_right _ hv

theorem relocate_retouched (prog : Program) : Retouched r (· ∈ prog.targets) m' (prog.relocate r m m') := by
  cases prog with
  | flat len data => exact Retouched.refl r _ m'
  | elf dyn streamed loads interp relocs =>
    rw [Program.relocate]
    split
    · exact Retouched.refl r _ m'
    · exact applyRelocations_retouched relocs

end Stores

/-- The part of execve that follows the choice of the address space. -/
def execLoad (prog : Program) (m : Mem) (cr3 old : Nat) : Mem × Int :=
  let r := prog.load cr3 m
  if r.2 < 0 then (vmmDestroyPagetable r.1 old,r.2)
  else
    match mapPages (vmmDestroyPagetable (prog.relocate cr3 m r.1) old) cr3 (USER_STACK_TOP-USER_STACK_PAGES * 4096)
        (fun _ _ => 0) true USER_STACK_PAGES with
    | (m,some _) => (m,-ENOMEM)
    | (m,none) => (m,0)

theorem elfExecve_ok {s : Sys} {t : Nat} (h0 : (s.proc t).cr3 ≠ 0) :
    elfExecve s t (.ok prog) =
      ((execSpace s t).1.setMem
        (execLoad prog (execSpace s t).1.mem ((execSpace s t).1.proc t).cr3 (execSpace s t).2).1,
        (execLoad prog (execSpace s t).1.mem ((execSpace s t).1.proc t).cr3 (execSpace s t).2).2) := by
  rw [elfExecve,if_neg h0]
  generalize execSpace s t = o
  obtain ⟨s1,old⟩ := o
  dsimp only
  rw [execLoad]
  generalize mapPages (vmmDestroyPagetable (prog.relocate (s1.proc t).cr3 s1.mem
    (prog.load (s1.proc t).cr3 s1.mem).1) old) (s1.proc t).cr3 (USER_STACK_TOP-USER_STACK_PAGES * 4096) (fun _ _ => 0) true
    USER_STACK_PAGES = o
  obtain ⟨m,i⟩ := o
  split
  · rfl
  · cases i with
    | none => rfl
    | some i => rfl

/-- All pages execve maps. -/
def Program.pages (prog : Program) : List PageReq := prog.reqs ++ stackReqs

theorem Sound.destroyOld (h : Sound k m roots lost) (hold : old = 0 ∨ old ∈ roots) :
    Sound k (vmmDestroyPagetable m old) (roots.erase old) lost ∧
      ∃ y, Frees m (vmmDestroyPagetable m old) y := by
  rcases hold with rfl | hold
  · have hno : 0 ∉ roots := fun h0 => h.root_ne_zero h0 rfl
    rw [vmmDestroyPagetable,if_pos rfl,erase_eq_of_notMem hno]
    exact ⟨h,0,Frees.refl m⟩
  · obtain ⟨h1,h2⟩ := h.destroy hold
    exact ⟨h1,_,h2⟩

/-- The program asks for pages in user space only and relocates nothing outside it. -/
structure Program.InUser (prog : Program) : Prop where
  pages : ∀ q ∈ prog.reqs, UserAddr q.virt
  targets : ∀ v ∈ prog.targets, UserAddr v

/-- What loading a program into address space `r` does, where the old address space `old` goes. -/
structure ExecLoaded (k : Machine) (m m' : Mem) (roots : Finset Nat) (lost x : Multiset Nat)
    (r old : Nat) (prog : Program) : Prop where
  sound : Sound k m' (roots.erase old) (x+lost)
  others : Unchanged k m m' ((roots.erase old).erase r)
  same : ∀ v, UserAddr v → ¬Covers prog.pages v →
    k.reader.find m'.table [] r (indices v) = k.reader.find m.table [] r (indices v)
  loss : Fresh k m r prog.pages → x = 0

variable {m1 m2 : Mem} {y z : Multiset Nat} {l l' : List PageReq} {n n' : Nat}

theorem Covers.mono (h : ∀ q ∈ l, q ∈ l') {v : Nat} (hv : Covers l v) : Covers l' v := by
  obtain ⟨q,hq,hon⟩ := hv
  exact ⟨q,h q hq,hon⟩

/-- The pages of the program, relocated, the old address space destroyed, then the pages of the
stack. -/
theorem Laid.exec (hl : Laid k m m1 roots lost y r l n) (hpre : l <+: prog.reqs) (hr : r ∈ roots)
    {m2 m3 : Mem} {A : Nat → Prop} (hrel : Retouched r A m1 m2) (hA : ∀ v, A v → UserAddr v)
    {g : Multiset Nat} (hf : Frees m2 m3 g)
    (hl' : Laid k m3 m' (roots.erase old) (y+lost) z r l' n') (hpre' : l' <+: stackReqs) :
    ExecLoaded k m m' roots lost (z+y) r old prog := by
  have hsub : ∀ q ∈ l, q ∈ prog.pages :=
    fun q hq => mem_append_left _ (hpre.subset hq)
  have hsub' : ∀ q ∈ l', q ∈ prog.pages :=
    fun q hq => mem_append_right _ (hpre'.subset hq)
  have hsublist : (l ++ l').Sublist prog.pages := hpre.sublist.append hpre'.sublist
  have hunch : Unchanged k m m2 ((roots.erase old).erase r) :=
    (hl.touched.unchanged.trans (hrel.unchanged hl.sound hr hA)).subset
      (erase_subset_erase r (erase_subset old roots))
  have hfind (v : Nat) : k.reader.find m3.table [] r (indices v) =
      k.reader.find m1.table [] r (indices v) := by rw [hf.table,hrel.table]
  refine ⟨?_,?_,?_,?_⟩
  · rw [add_assoc]
    exact hl'.sound
  · exact (hunch.trans (hf.unchanged _)).trans hl'.touched.unchanged
  · intro v hv hcov
    rw [hl'.touched.same v hv fun h0 => hcov (h0.mono hsub'),hfind,
      hl.touched.same v hv fun h0 => hcov (h0.mono hsub)]
  · rintro ⟨hap,hfree⟩
    obtain ⟨ha,ha',hne⟩ := Apart.append (List.Pairwise.sublist hsublist hap)
    have hy : y = 0 := hl.loss ⟨ha,fun q hq => hfree q (hsub q hq)⟩
    have hz : z = 0 := by
      refine hl'.loss ⟨ha',fun q hq => ?_⟩
      rw [hfind,hl.touched.same q.virt (hl'.user q hq)]
      · exact hfree q (hsub' q hq)
      · rintro ⟨q0,hq0,hon⟩
        exact hne q0 hq0 q hq hon
    rw [hy,hz,add_zero]

theorem Sound.execLoad (h : Sound k m roots lost) (hr : r ∈ roots)
    (hold : old = 0 ∨ old ∈ roots) (hne : r ≠ old) (hu : prog.InUser) :
    ∃ x, ExecLoaded k m (execLoad prog m r old).1 roots lost x r old prog := by
  obtain ⟨l,y,n,hpre,-,hl⟩ := (h.load hr hu.pages).laid
  have hr' : r ∈ roots.erase old := Finset.mem_erase.mpr ⟨hne,hr⟩
  have hu' : ∀ i < USER_STACK_PAGES,
      UserAddr (pageAt (USER_STACK_TOP-USER_STACK_PAGES * 4096) i) :=
    fun i hi => stackReqs_user _ (mem_pageReqs.mpr ⟨i,hi,rfl⟩)
  rw [Lariat.Mm.execLoad]
  generalize prog.load r m = o at hl
  obtain ⟨m1,rc⟩ := o
  by_cases hrc : rc < 0
  · obtain ⟨h2,g,hf⟩ := hl.sound.destroyOld hold
    rw [if_pos hrc]
    exact ⟨_,hl.exec hpre hr (Retouched.refl r (fun _ => False) m1) nofun hf (Laid.nil h2) nil_prefix⟩
  rw [if_neg hrc]
  have hrel : Retouched r (· ∈ prog.targets) m1 (prog.relocate r m m1) := relocate_retouched prog
  obtain ⟨h2,g,hf⟩ := (hrel.sound hl.sound).destroyOld hold
  have hp := h2.mapPages hr' (fun _ _ => 0) true hu'
  dsimp only
  generalize Lariat.Mm.mapPages (vmmDestroyPagetable (prog.relocate r m m1) old) r
    (USER_STACK_TOP-USER_STACK_PAGES * 4096) (fun _ _ => 0) true USER_STACK_PAGES = o at hp
  cases hp with
  | done hl' => exact ⟨_,hl.exec hpre hr hrel hu.targets hf hl' (prefix_refl _)⟩
  | full hi hl' hc =>
    exact ⟨_,hl.exec hpre hr hrel hu.targets hf hl' (pageReqs_initial _ _ _ (Nat.le_of_lt hi))⟩

/-- The addresses the fallback of execve unmaps. -/
def resetPages : List Nat :=
  USER_CODE_START :: pageList (USER_STACK_TOP-USER_STACK_PAGES * 4096) USER_STACK_PAGES

theorem Sound.resetAddressSpace (h : Sound k m roots lost) (hr : r ∈ roots) :
    ∃ x, Cleared k m (resetAddressSpace m r) roots lost x r resetPages := by
  have hcode : UserAddr USER_CODE_START := by decide
  have hnil : Cleared k m m roots lost 0 r [] := Cleared.nil h
  obtain ⟨x,hone⟩ := hnil.snoc hcode (hnil.sound.unmapPageIn hr hcode)
  refine hone.range hr fun i hi => ?_
  exact stackReqs_user _ (mem_pageReqs.mpr ⟨i,hi,rfl⟩)

variable {s : Sys} {t : Nat}

/-- The address space execve loads into: one of its own, the old one being left to the others or to
be destroyed, or the old one when there is no memory for a new one. -/
inductive SpaceTaken (k : Machine) (s : Sys) (lost : Multiset Nat) (t : Nat) : Sys × Nat → Prop
  | fresh {m1 : Mem} {r old : Nat} {counts : Nat → Int} :
      r ≠ 0 → r ∉ s.roots → Sound k m1 (insert r s.roots) lost → Unchanged k s.mem m1 s.roots →
      (∀ v, k.reader.find m1.table [] r (indices v) = none) →
      ((s.proc t).mmCount = none ∧ old = (s.proc t).cr3 ∧ counts = s.counts ∨
        ∃ c, (s.proc t).mmCount = some c ∧ old = 0 ∧
          counts = update s.counts c (s.counts c - 1)) →
      SpaceTaken k s lost t ({ (s.setMem m1).setProc t { s.proc t with cr3 := r, mmCount := none } with
        counts := counts },old)
  | reused {m0 m1 : Mem} {y : Multiset Nat} : s.mem.pmm.free.card < 2 →
      m0.pmm.free = s.mem.pmm.free → Unchanged k s.mem m0 s.roots →
      Cleared k m0 m1 s.roots lost y (s.proc t).cr3 resetPages →
      SpaceTaken k s lost t ((s.setMem m1).setProc t (s.proc t).resetHeap,0)

theorem execSpace_taken (h : Housed k s lost) (ht : t ∈ s.live) (h0 : (s.proc t).cr3 ≠ 0) :
    SpaceTaken k s lost t (execSpace s t) := by
  have hr := root_mem ht h0
  have hmade := h.sound.newSpace
  rw [execSpace]
  generalize vmmCloneKernelPagetable s.mem = o at hmade
  cases hmade with
  | @fail m0 hcard hs hunch hfree =>
    obtain ⟨y,hreset⟩ := hs.resetAddressSpace hr
    rw [if_pos rfl]
    exact .reused hcard hfree hunch hreset
  | @done m1 r hr0 hnew hs hunch hnone =>
    rw [if_neg hr0]
    cases hmm : (s.proc t).mmCount with
    | none => exact .fresh hr0 hnew hs hunch hnone (.inl ⟨hmm,rfl,rfl⟩)
    | some c => exact .fresh hr0 hnew hs hunch hnone (.inr ⟨c,hmm,rfl,rfl⟩)

theorem execSpace_bytes (h : Housed k s lost) (ht : t ∈ s.live) (h0 : (s.proc t).cr3 ≠ 0) :
    BytesKept s.mem (execSpace s t).1.mem := by
  have hnew := vmmCloneKernelPagetable_new h.sound.intact h.sound.kernel_used h.sound.zero_used
  have hmade := h.sound.newSpace
  rw [execSpace]
  generalize vmmCloneKernelPagetable s.mem = o at hnew hmade
  cases hnew with
  | @fail m0 hcard hfree hw =>
    cases hmade with
    | done hr0 => exact absurd rfl hr0
    | fail _ hs =>
      obtain ⟨y,hreset⟩ := hs.resetAddressSpace (root_mem ht h0)
      generalize Lariat.Mm.resetAddressSpace m0 (s.proc t).cr3 = m1 at hreset
      intro f hf
      rw [if_pos rfl]
      exact (congrFun hreset.byte f).trans (hw.byte f hf)
  | @done m1 r hr0 _ _ _ hw =>
    rw [if_neg hr0]
    cases (s.proc t).mmCount with
    | none | some c => exact hw.byte

theorem execSpace_room (h : Housed k s lost) (hroom : 2 ≤ s.mem.pmm.free.card) :
    s.mem.pmm.free.card ≤ (execSpace s t).1.mem.pmm.free.card + 2 := by
  have hmade := h.sound.newSpace
  have hcard := vmmCloneKernelPagetable_card h.sound.zero_used
  rw [execSpace]
  generalize vmmCloneKernelPagetable s.mem = o at hmade hcard
  cases hmade with
  | fail hfew => omega
  | done hr0 =>
    rw [if_neg hr0]
    have hcard := hcard hr0
    cases (s.proc t).mmCount with
    | none | some c => exact hcard

theorem SpaceTaken.old_ne {r old : Nat} {counts : Nat → Int} (ht : t ∈ s.live) (hr0 : r ≠ 0)
    (h0 : (s.proc t).cr3 ≠ 0) (hnew : r ∉ s.roots)
    (hold : (s.proc t).mmCount = none ∧ old = (s.proc t).cr3 ∧ counts = s.counts ∨
      ∃ c, (s.proc t).mmCount = some c ∧ old = 0 ∧
        counts = update s.counts c (s.counts c - 1)) :
    r ≠ old ∧ (old = 0 ∨ old ∈ insert r s.roots) := by
  have hr := root_mem ht h0
  rcases hold with ⟨-,rfl,-⟩ | ⟨c,-,rfl,-⟩
  · exact ⟨fun h1 => hnew (h1 ▸ hr),.inr (mem_insert_of_mem hr)⟩
  · exact ⟨hr0,.inl rfl⟩

/-- What execve of a program can do: load it into an address space of its own and leave the old
one to the others or destroy it, or load it over the old one when there is no memory for a new
one. -/
inductive ExecOutcome (k : Machine) (s : Sys) (lost : Multiset Nat) (t : Nat) (prog : Program) :
    Sys × Int → Prop
  | fresh {m1 m' : Mem} {r old : Nat} {x : Multiset Nat} {rc : Int} {counts : Nat → Int} :
      r ≠ 0 → r ∉ s.roots → Unchanged k s.mem m1 s.roots →
      (∀ v, k.reader.find m1.table [] r (indices v) = none) →
      ((s.proc t).mmCount = none ∧ old = (s.proc t).cr3 ∧ counts = s.counts ∨
        ∃ c, (s.proc t).mmCount = some c ∧ old = 0 ∧
          counts = update s.counts c (s.counts c - 1)) →
      ExecLoaded k m1 m' (insert r s.roots) lost x r old prog →
      ExecOutcome k s lost t prog
        ({ (s.setMem m').setProc t { s.proc t with cr3 := r, mmCount := none } with
          counts := counts },rc)
  | reused {m0 m1 m' : Mem} {x y : Multiset Nat} {rc : Int} : s.mem.pmm.free.card < 2 →
      Unchanged k s.mem m0 s.roots → Cleared k m0 m1 s.roots lost y (s.proc t).cr3 resetPages →
      ExecLoaded k m1 m' s.roots (y+lost) x (s.proc t).cr3 0 prog →
      ExecOutcome k s lost t prog ((s.setMem m').setProc t (s.proc t).resetHeap,rc)

theorem setProc_mem (m : Mem) (p : Proc) : ((s.setMem m).setProc t p).mem = m := rfl

theorem resetHeap_cr3 (p : Proc) : p.resetHeap.cr3 = p.cr3 := rfl

theorem setProc_setMem (m : Mem) (p : Proc) (m' : Mem) :
    ((s.setMem m).setProc t p).setMem m' = (s.setMem m').setProc t p := rfl

theorem elfExecve_outcome (h : Housed k s lost) (ht : t ∈ s.live) (h0 : (s.proc t).cr3 ≠ 0)
    (hu : prog.InUser) :
    ExecOutcome k s lost t prog (elfExecve s t (.ok prog)) := by
  have hr := root_mem ht h0
  have htaken := execSpace_taken h ht h0
  rw [elfExecve_ok h0]
  generalize execSpace s t = o at htaken
  cases htaken with
  | @reused m0 m1 y hcard hfree hunch hreset =>
    obtain ⟨x,hload⟩ := hreset.sound.execLoad hr (.inl rfl) h0 hu
    rw [setProc_same,setProc_setMem,setProc_mem,resetHeap_cr3]
    exact .reused hcard hunch hreset hload
  | @fresh m1 r old counts hr0 hnew hs hunch hnone hold =>
    obtain ⟨hne,hold'⟩ := SpaceTaken.old_ne ht hr0 h0 hnew hold
    obtain ⟨x,hload⟩ := hs.execLoad (mem_insert_self r s.roots) hold' hne hu
    rw [setProc_same]
    exact .fresh hr0 hnew hunch hnone hold hload

end Lariat.Mm
