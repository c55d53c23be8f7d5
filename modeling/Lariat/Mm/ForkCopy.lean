import Lariat.Mm.Conservation

/-! What a process and its fork's copy of memory have in common, and what they do not. -/
namespace Lariat.Mm

open Foundation.TableTree Reader Function Finset Option Multiset

/-- The byte a program on table `pml4` reads at an address. -/
def loadByte (m : Mem) (pml4 virt : Nat) : Option UInt8 :=
  (mapping m.table pml4 virt).map fun a => m.byte (a.phys / 4096) (a.phys % 4096)

/-- A store through one of two tables. -/
structure Write where
  pml4 : Nat
  virt : Nat
  value : UInt8

def storeAll (m : Mem) (ws : List Write) : Mem :=
  ws.foldl (fun m w => storeByte m w.pml4 w.virt w.value) m

variable {k : Machine} {m m' m'' : Mem} {s c a b v : Nat}

/-- No user page of `a` lies in the frame of one of `b`. -/
def FramesApart (table : Nat → Table) (a b : Nat) : Prop :=
  ∀ v w, UserAddr v → UserAddr w → ∀ x y, mapping table a v = some x → mapping table b w = some y →
    x.phys / 4096 ≠ y.phys / 4096

theorem FramesApart.symm {table : Nat → Table} (h : FramesApart table a b) :
    FramesApart table b a := fun v w hv hw x y hx hy heq => h w v hw hv y x hy hx heq.symm

/-- Two memories with the same tables whose user pages of `a` hold the same bytes. -/
structure Agree (a : Nat) (m m' : Mem) : Prop where
  table : m'.table = m.table
  byte : ∀ v, UserAddr v → ∀ x, mapping m.table a v = some x →
    m'.byte (x.phys / 4096) = m.byte (x.phys / 4096)

theorem Agree.load (h : Agree a m m') (hv : UserAddr v) : loadByte m' a v = loadByte m a v := by
  rw [loadByte,loadByte,h.table]
  cases hx : mapping m.table a v with
  | none => rfl
  | some x => rw [map_some,map_some,h.byte v hv x hx]

/-- The same store through `a` in both. -/
theorem Agree.both (h : Agree a m m') (hv : UserAddr virt) (x : UInt8) :
    Agree a (storeByte m a virt x) (storeByte m' a virt x) where
  table := by rw [storeByte_table,storeByte_table,h.table]
  byte v' hv' y hy := by
    rw [storeByte_table] at hy
    rw [storeByte,storeByte,h.table]
    cases hz : mapping m.table a virt with
    | none => exact h.byte v' hv' y hy
    | some z =>
      show update m'.byte _ _ _ = update m.byte _ _ _
      rw [h.byte virt hv z hz]
      by_cases heq : y.phys / 4096 = z.phys / 4096
      · rw [heq,update_self,update_self]
      · rw [update_of_ne heq,update_of_ne heq,h.byte v' hv' y hy]

/-- A store through the other table in one of them. -/
theorem Agree.one (h : Agree a m m') (hab : FramesApart m.table a b) (hv : UserAddr virt)
    (x : UInt8) : Agree a m (storeByte m' b virt x) where
  table := by rw [storeByte_table,h.table]
  byte v' hv' y hy := by
    rw [storeByte_other,h.byte v' hv' y hy]
    intro z hz heq
    rw [h.table] at hz
    exact hab v' virt hv' hv y z hy hz heq.symm

/-- Of a run of stores through two tables, a reader of one sees its own only. -/
theorem storeAll_agree {ws : List Write} (h : Agree a m m') (hab : FramesApart m.table a b)
    (hws : ∀ w ∈ ws, UserAddr w.virt ∧ (w.pml4 = a ∨ w.pml4 = b)) :
    Agree a (storeAll m (ws.filter (·.pml4 = a))) (storeAll m' ws) := by
  induction ws generalizing m m' with
  | nil => exact h
  | cons w ws ih =>
    obtain ⟨⟨hv,hw⟩,hrest⟩ := List.forall_mem_cons.mp hws
    by_cases ha : w.pml4 = a
    · rw [List.filter_cons_of_pos (by simpa using ha)]
      have hstep : Agree a (storeByte m w.pml4 w.virt w.value)
          (storeByte m' w.pml4 w.virt w.value) := by
        rw [ha]
        exact h.both hv w.value
      exact ih hstep (by rw [storeByte_table]; exact hab) hrest
    rw [List.filter_cons_of_neg (by simpa using ha)]
    have hb : w.pml4 = b := hw.resolve_left ha
    have hstep := h.one hab hv w.value
    rw [← hb] at hstep
    exact ih hstep hab hrest

theorem presentEntry_kernel {path : List (Fin 512)} {e : Entry} (hok : CellOk k path e)
    (hp : ¬UserPath path) : presentEntry e = presentEntry (k.entry path) := by
  rcases hok.kernel hp with rfl | ⟨h1,h2⟩
  · rfl
  · rw [presentEntry,presentEntry,h1,h2]
    rfl

/-- What `vmm_clone_pagetable` makes of table `s`: table `c`. -/
structure ForkCopy (k : Machine) (m m' : Mem) (s c : Nat) : Prop where
  pages : ∀ v, UserAddr v → ∀ x, mapping m.table s v = some x →
    ∃ f ∈ m.pmm.free \ m'.pmm.free,
      mapping m'.table c v = some { x with phys := f * 4096 ||| v % 4096 } ∧
        m'.byte f = m.byte (x.phys / 4096)
  flags : ∀ v, UserAddr v → (k.reader.find m'.table [] c (indices v)).map (·.flags) =
    (k.reader.find m.table [] s (indices v)).map (·.flags)
  apart : ∀ v w, UserAddr v → UserAddr w → ∀ x y, mapping m'.table c v = some x →
    mapping m'.table c w = some y → x.phys / 4096 = y.phys / 4096 → v / 4096 = w / 4096
  absent : ∀ v, UserAddr v → mapping m.table s v = none → mapping m'.table c v = none
  upper : ∀ i : Fin 512, 256 ≤ i.val →
    presentEntry (m'.table c i) = presentEntry (m.table m.kernelPml4 i)
  low : presentEntry (m'.table (m'.table c 0).frame 0) =
    presentEntry (m.table (m.table m.kernelPml4 0).frame 0)
  kernel : ∀ v, KernelAddr v → mapping m'.table c v = mapping m.table s v
  source : ∀ f ∉ m.pmm.free, m'.table f = m.table f ∧ m'.byte f = m.byte f
  separate : ∀ ws : List Write, (∀ w ∈ ws, UserAddr w.virt ∧ (w.pml4 = s ∨ w.pml4 = c)) →
    ∀ v, UserAddr v →
      loadByte (storeAll m' ws) s v = loadByte (storeAll m' (ws.filter (·.pml4 = s))) s v ∧
      loadByte (storeAll m' ws) c v = loadByte (storeAll m' (ws.filter (·.pml4 = c))) c v
  destroyed : (vmmDestroyPagetable m' c).pmm.free = m.pmm.free

theorem mapping_found {x : Mapping} (hs : k.reader.Sane m.table 4 [] s) (hv : UserAddr v)
    (hx : mapping m.table s v = some x) : ∃ e, k.reader.find m.table [] s (indices v) = some e ∧
      x = e.mapping v true true ∧ x.phys / 4096 = e.frame := by
  rw [mapping_user hs hv] at hx
  obtain ⟨e,he,rfl⟩ := map_eq_some_iff.mp hx
  exact ⟨e,he,rfl,phys_frame e.frame v⟩

section Made

variable (hc : CopyMade k m m' 4 [] s c)
include hc

theorem CopyMade.nodup : (k.reader.owned m'.table 4 [] c + m'.pmm.free.val).Nodup := by
  rw [← hc.ledger]
  exact m.pmm.free.nodup

theorem CopyMade.free_subset : m'.pmm.free ⊆ m.pmm.free := by
  intro f hf
  rw [← mem_val,hc.ledger]
  exact mem_add.mpr (.inr hf)

theorem CopyMade.fresh {q : List (Fin 512)} {e : Entry} (hq : q.length = 4)
    (hf : k.reader.find m'.table [] c q = some e) : e.frame ∈ m.pmm.free \ m'.pmm.free := by
  have hlt := hc.managed q hq e hf
  have hs : k.reader.Sane m'.table q.length [] c := by
    rw [hq]
    exact hc.sane
  have hlen : ([] : List (Fin 512)).length + q.length = 4 := by rw [List.length_nil,hq]
  have hmem := (leaf_mem hlen hs hf).resolve_right (not_le.mpr hlt)
  rw [hq] at hmem
  refine mem_sdiff.mpr ⟨?_,fun h0 => ?_⟩
  · exact mem_val_left hc.ledger hmem
  · exact disjoint_left.mp (nodup_add.mp hc.nodup).2.2 hmem h0

theorem CopyMade.page {e : Entry} (hf : k.reader.find m.table [] s (indices v) = some e) :
    ∃ f ∈ m.pmm.free \ m'.pmm.free, k.reader.find m'.table [] c (indices v) = some ⟨f,e.flags⟩ ∧
      m'.byte f = m.byte e.frame := by
  have hview := hc.view (indices v) rfl
  rw [Lariat.Mm.view,Lariat.Mm.view,hf] at hview
  cases hf' : k.reader.find m'.table [] c (indices v) with
  | none =>
    rw [hf'] at hview
    cases hview
  | some e' =>
    rw [hf'] at hview
    obtain ⟨h1,h2⟩ := Prod.mk.inj (some.inj hview)
    refine ⟨e'.frame,hc.fresh rfl hf',?_,h2⟩
    rw [← h1]

theorem CopyMade.absent (hf : k.reader.find m.table [] s (indices v) = none) :
    k.reader.find m'.table [] c (indices v) = none := by
  have hview := hc.view (indices v) rfl
  rw [Lariat.Mm.view,Lariat.Mm.view,hf] at hview
  exact map_eq_none_iff.mp hview

theorem CopyMade.flags (v : Nat) : (k.reader.find m'.table [] c (indices v)).map (·.flags) =
    (k.reader.find m.table [] s (indices v)).map (·.flags) := by
  cases hf : k.reader.find m.table [] s (indices v) with
  | none => rw [hc.absent hf]
  | some e =>
    obtain ⟨f,-,hf',-⟩ := hc.page hf
    rw [hf']
    rfl

theorem CopyMade.apart {w : Nat} {x y : Mapping} (hv : UserAddr v) (hw : UserAddr w)
    (hx : mapping m'.table c v = some x) (hy : mapping m'.table c w = some y)
    (heq : x.phys / 4096 = y.phys / 4096) : v / 4096 = w / 4096 := by
  obtain ⟨e,he,-,hxe⟩ := mapping_found hc.sane hv hx
  obtain ⟨e',he',-,hye⟩ := mapping_found hc.sane hw hy
  rw [hxe,hye] at heq
  have hn := (nodup_add.mp hc.nodup).1
  have hlen : (indices v).length = (indices w).length := rfl
  have hq := leaf_inj rfl hc.sane he' hlen hn he (hc.managed _ rfl _ he') heq
  exact (indices_eq_iff hv hw).mp hq

/-- Giving back the top-level table alone loses the rest of the copy: there is always a PDPT below
its first slot. -/
theorem CopyMade.leaks {m'' : Mem} (hsub : m''.pmm.free ⊆ insert c m'.pmm.free) :
    m''.pmm.free ≠ m.pmm.free := by
  have hnext := low_next hc.sane
  obtain ⟨hn,-,hdisj⟩ := nodup_add.mp hc.nodup
  have hbelow : (m'.table c 0).frame ∈ k.reader.branch m'.table 3 [] 0 (m'.table c 0) :=
    mem_branch.mpr ⟨_,hnext,self_mem_owned⟩
  have howned : (m'.table c 0).frame ∈ k.reader.owned m'.table 4 [] c :=
    mem_owned_succ.mpr (.inr ⟨0,hbelow⟩)
  intro heq
  have hfree : (m'.table c 0).frame ∈ m''.pmm.free := by
    rw [heq]
    exact mem_val_left hc.ledger howned
  rcases mem_insert.mp (hsub hfree) with h0 | h0
  · rw [h0] at hbelow
    exact self_notMem_branch hn 0 hbelow
  · exact disjoint_left.mp hdisj howned h0

variable (h : Source k m 4 [] s)
include h

theorem CopyMade.source_table {f : Nat} (hf : f ∈ k.reader.owned m.table 4 [] s) :
    m'.table f = m.table f := hc.within.table f (h.used f hf)

theorem CopyMade.source_mapping (hv : UserAddr v) :
    mapping m'.table s v = mapping m.table s v := by
  have hs : k.reader.Sane m'.table 4 [] s := h.sane.congr fun f => hc.source_table h
  have hfind : k.reader.find m'.table [] s (indices v) = k.reader.find m.table [] s (indices v) :=
    find_congr (le_refl 4) fun f => hc.source_table h
  rw [mapping_user hs hv,mapping_user h.sane hv,hfind]

/-- A page of the source lies in no frame that was free. -/
theorem CopyMade.framesApart : FramesApart m'.table s c := by
  intro v w hv hw x y hx hy heq
  rw [hc.source_mapping h hv] at hx
  obtain ⟨e,he,-,hxe⟩ := mapping_found h.sane hv hx
  obtain ⟨e',he',-,hye⟩ := mapping_found hc.sane hw hy
  have hfree := (mem_sdiff.mp (hc.fresh rfl he')).1
  rw [← hye,← heq,hxe] at hfree
  rcases leaf_mem rfl h.sane he with hused | hout
  · exact h.used _ hused hfree
  · exact not_lt.mpr hout (h.free_lt hfree)

/-- The kernel's tables, as the copy sees them. -/
theorem CopyMade.intact : KernelIntact k m' := h.intact.within hc.within h.kernel

theorem CopyMade.upper {i : Fin 512} (hi : 256 ≤ i.val) :
    presentEntry (m'.table c i) = presentEntry (m.table m.kernelPml4 i) := by
  have hok : CellOk k [i] (m'.table c i) := (hc.sane i).1
  have hk : m.table m.kernelPml4 i = k.entry [i] := by
    rw [h.intact.pml4,h.intact.tables k.pml4 (.inl rfl)]
    rfl
  rw [hk]
  exact presentEntry_kernel hok (not_lt.mpr hi)

theorem CopyMade.low : presentEntry (m'.table (m'.table c 0).frame 0) =
    presentEntry (m.table (m.table m.kernelPml4 0).frame 0) := by
  have hok : CellOk k [0,0] (m'.table (m'.table c 0).frame 0) :=
    ((hc.sane 0).2 _ (low_next hc.sane) 0).1
  have hk : m.table (m.table m.kernelPml4 0).frame 0 = k.entry [0,0] := by
    rw [h.intact.pml4,h.intact.tables k.pml4 (.inl rfl),Machine.entry,if_pos k.low]
    have hr : Reads k.tables 3 k.pml4 (k.tables k.pml4 0).frame :=
      .inr ⟨0,k.low,(absurd · (by decide)),.inl rfl⟩
    rw [h.intact.tables _ hr]
  rw [hk]
  exact presentEntry_kernel hok fun h0 => h0.2 ⟨rfl,rfl⟩

theorem CopyMade.lt_total : ∀ f ∈ k.reader.owned m'.table 4 [] c, f < k.total := by
  intro f hf
  exact h.free_lt (mem_val_left hc.ledger hf)

theorem CopyMade.destroyed (hc0 : c ≠ 0) :
    (vmmDestroyPagetable m' c).pmm.free = m.pmm.free := by
  have hfrees := vmmDestroyPagetable_frees (hc.intact h) (fun i _ => (hc.sane i).1)
    (hc.lt_total h) hc0 hc.nodup
  exact val_injective (hfrees.free.trans hc.ledger.symm)

theorem CopyMade.separate {ws : List Write}
    (hws : ∀ w ∈ ws, UserAddr w.virt ∧ (w.pml4 = s ∨ w.pml4 = c)) (hv : UserAddr v) :
    loadByte (storeAll m' ws) s v = loadByte (storeAll m' (ws.filter (·.pml4 = s))) s v ∧
      loadByte (storeAll m' ws) c v = loadByte (storeAll m' (ws.filter (·.pml4 = c))) c v := by
  have hrefl (a : Nat) : Agree a m' m' := ⟨rfl,fun _ _ _ _ => rfl⟩
  have hapart := hc.framesApart h
  exact ⟨(storeAll_agree (hrefl s) hapart hws).load hv,
    (storeAll_agree (hrefl c) hapart.symm fun w hw => ⟨(hws w hw).1,(hws w hw).2.symm⟩).load hv⟩

theorem CopyMade.forkCopy (hc0 : c ≠ 0) : ForkCopy k m m' s c where
  pages v hv x hx := by
    obtain ⟨e,he,rfl,hframe⟩ := mapping_found h.sane hv hx
    obtain ⟨f,hf,hfind,hbyte⟩ := hc.page he
    refine ⟨f,hf,?_,by rw [hframe]; exact hbyte⟩
    rw [mapping_user hc.sane hv,hfind]
    rfl
  flags v _ := hc.flags v
  apart v w hv hw x y hx hy heq := hc.apart hv hw hx hy heq
  absent v hv hx := by
    rw [mapping_user h.sane hv,map_eq_none_iff] at hx
    rw [mapping_user hc.sane hv,hc.absent hx]
    rfl
  upper i hi := hc.upper h hi
  low := hc.low h
  kernel v hv := by rw [mapping_shared (hc.intact h) hc.sane hv,mapping_shared h.intact h.sane hv]
  source f hf := ⟨hc.within.table f hf,hc.within.byte f hf⟩
  separate ws hws v hv := hc.separate h hws hv
  destroyed := hc.destroyed h hc0

end Made

/-- A fork either gets a whole copy of its parent's memory, which nobody else can see or change,
or takes no memory at all. -/
theorem vmmClonePagetable_copies (h : Source k m 4 [] s) :
    (vmmClonePagetable m s).2 = 0 ∧ (vmmClonePagetable m s).1.pmm.free = m.pmm.free ∨
      (vmmClonePagetable m s).2 ≠ 0 ∧
        ForkCopy k m (vmmClonePagetable m s).1 s (vmmClonePagetable m s).2 := by
  have hr := vmmClonePagetable_cloned h
  generalize vmmClonePagetable m s = r at hr ⊢
  cases hr with
  | done hc0 hmade => exact .inr ⟨hc0,hmade.forkCopy h hc0⟩
  | fail hfree _ => exact .inl ⟨rfl,hfree⟩

theorem onePageMapped_source :
    Source bootMachine onePageMapped.mem 4 [] (onePageMapped.proc 0).cr3 :=
  onePageMapped_sparing.housed.sound.source (root_mem (by decide +kernel) (by decide +kernel))

/-- The memory of a process with a page of its own is copied. -/
theorem onePage_copied :
    (mapping onePageMapped.mem.table (onePageMapped.proc 0).cr3 USER_MMAP_BASE).isSome ∧
      (vmmClonePagetable onePageMapped.mem (onePageMapped.proc 0).cr3).2 ≠ 0 ∧
      ForkCopy bootMachine onePageMapped.mem
        (vmmClonePagetable onePageMapped.mem (onePageMapped.proc 0).cr3).1 (onePageMapped.proc 0).cr3
        (vmmClonePagetable onePageMapped.mem (onePageMapped.proc 0).cr3).2 := by
  refine ⟨by decide +kernel,?_⟩
  rcases vmmClonePagetable_copies onePageMapped_source with ⟨h0,-⟩ | hcopy
  · exact absurd h0 (by decide +kernel)
  · exact hcopy

end Lariat.Mm
