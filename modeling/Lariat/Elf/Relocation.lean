import Lariat.Elf.Image
import Lariat.Mm.UserBytes

/-! `apply_relocations`: the words it reads and writes, and when they all lie where they should. -/
namespace Lariat.Elf

open Foundation.ByteStore List Nat
open Mm

def DT_NULL : Nat := 0
def DT_RELA : Nat := 7
def DT_RELASZ : Nat := 8
def DT_RELAENT : Nat := 9
def R_X86_64_RELATIVE : Nat := 8
def RELA_SIZE : Nat := 24
def DYN_SIZE : Nat := 16

/-- A word the function reads or writes: of the dynamic table, by its offset in the image, of a
relocation entry, or of the program. -/
inductive Access
  | dyn (off : Nat)
  | entry (addr : Nat)
  | target (addr : Nat)

/-- The relocation table, as the dynamic table gives it. -/
structure RelaTable where
  addr : Nat := 0
  size : Nat := 0
  ent : Nat := RELA_SIZE
  deriving DecidableEq

def RelaTable.record (d : RelaTable) (tag value : Nat) : RelaTable :=
  if tag = DT_RELA then { d with addr := value }
  else if tag = DT_RELASZ then { d with size := value }
  else if tag = DT_RELAENT then { d with ent := value }
  else d

/-- The tag's value is read. -/
def isRelaTag (tag : Nat) : Bool := tag == DT_RELA || tag == DT_RELASZ || tag == DT_RELAENT

/-- Walks the dynamic table up to its end. After `n` entries without one, which is more than memory
has room for, it goes on for ever. -/
def scanDyn (image : Nat → UInt8) : Nat → Nat → RelaTable → List Access × Option RelaTable
  | 0, _, _ => ([],none)
  | n+1, off, d =>
    let tag := val image 8 off
    if tag = DT_NULL then ([.dyn (wrap off)],some d)
    else
      let r := scanDyn image n (off+DYN_SIZE) (d.record tag (val image 8 (off+8)))
      (.dyn (wrap off) :: ((if isRelaTag tag then [.dyn (wrap (off+8))] else []) ++ r.1),r.2)

/-- The word at an address, bytes that are not mapped taken for zero. -/
def wordAt (m : Mem) (r a : Nat) : Nat := val (fun x => (loadByte m r (wrap x)).getD 0) 8 a

def wordMapped (m : Mem) (r a : Nat) : Bool :=
  (List.range 8).all fun i => (loadByte m r (wrap (a+i))).isSome

/-- The entry at `a` is a relocation of the kind that is applied. -/
def IsRelative (m : Mem) (r a : Nat) : Prop :=
  wordAt m r (a+8) % 0x100000000 = R_X86_64_RELATIVE

instance (m : Mem) (r a : Nat) : Decidable (IsRelative m r a) :=
  inferInstanceAs (Decidable (_ = _))

/-- One turn of the loop. A page fault of the kernel is the end of it. -/
def relocateEntry (m : Mem) (r bias a : Nat) : List Access × Option Mem :=
  if !wordMapped m r (a+8) then ([.entry (wrap (a+8))],none)
  else if ¬IsRelative m r a then ([.entry (wrap (a+8))],some m)
  else if !wordMapped m r a then ([.entry (wrap (a+8)),.entry (wrap a)],none)
  else if !wordMapped m r (a+16) then
    ([.entry (wrap (a+8)),.entry (wrap a),.entry (wrap (a+16))],none)
  else
    let target := wrap (bias + wordAt m r a)
    ([.entry (wrap (a+8)),.entry (wrap a),.entry (wrap (a+16)),.target target],
      if wordMapped m r target then
        some (storeBytes m r target (le 8 (wrap (bias + wordAt m r (a+16)))))
      else none)

def entryAddr (bias : Nat) (d : RelaTable) (i : Nat) : Nat := wrap (bias+d.addr + i*d.ent)

/-- `n` entries from the `i`-th on. -/
def relocateFrom (r bias : Nat) (d : RelaTable) : Nat → Nat → Mem → List Access × Option Mem
  | 0, _, m => ([],some m)
  | n+1, i, m =>
    match relocateEntry m r bias (entryAddr bias d i) with
    | (log,none) => (log,none)
    | (log,some m) =>
      let o := relocateFrom r bias d n (i+1) m
      (log ++ o.1,o.2)

/-- The number of entries; a table that is not given in full has none. -/
def RelaTable.count (d : RelaTable) : Nat :=
  if d.addr = 0 ∨ d.size = 0 ∨ d.ent = 0 then 0 else d.size / d.ent

/-- More entries than a dynamic table can have. -/
def DYN_MAX : Nat := 0x1000000000000000

/-- `apply_relocations` on memory `m` and the address space `r`. -/
def applyRelocations (b : Buffer) (m : Mem) (r bias : Nat) : List Access × Option Mem :=
  match (phdrs b.view).find? (·.type == PT_DYNAMIC) with
  | none => ([],some m)
  | some p =>
    match scanDyn b.view DYN_MAX p.offset {} with
    | (log,none) => (log,none)
    | (log,some d) =>
      let o := relocateFrom r bias d d.count 0 m
      (log ++ o.1,o.2)

/-- The word at `a` lies in one of the segments. -/
def InSegment (segs : List Segment) (a : Nat) : Prop :=
  ∃ g ∈ segs, g.vaddr ≤ a ∧ a+8 ≤ g.vaddr+g.memsz

def Access.Inside (len : Nat) (segs : List Segment) : Access → Prop
  | .dyn off => off+8 ≤ len
  | .entry a => InSegment segs a
  | .target a => InSegment segs a ∧ UserAddr a ∧ UserAddr (a+7)

/-- Everything the function reads and writes lies where it should. -/
def Confined (len : Nat) (segs : List Segment) (log : List Access) : Prop :=
  ∀ x ∈ log, x.Inside len segs

section Entries

/-- The entry lies in a segment and so does the word it names. -/
def EntryFits (m : Mem) (r bias : Nat) (segs : List Segment) (a : Nat) : Prop :=
  InSegment segs (wrap (a+8)) ∧ (IsRelative m r a → InSegment segs (wrap a) ∧
    InSegment segs (wrap (a+16)) ∧ InSegment segs (wrap (bias + wordAt m r a)))

variable {k : Machine} {m m' : Mem} {roots : Finset Nat} {lost : Multiset Nat} {r bias len : Nat}
  {segs : List Segment}

/-- The segments are mapped in user space, in frames of the allocator's. -/
def SegmentsBacked (k : Machine) (m : Mem) (r : Nat) (segs : List Segment) : Prop :=
  ∀ a, InSegment segs a → ∀ i < 8, Backed k m r (a+i)

variable {a i : Nat} {log : List Access}

theorem wrap_add (h : wrap a + i < 0x10000000000000000) : wrap (a+i) = wrap a + i := by
  rw [wrap] at h ⊢
  rw [wrap]
  omega

section Backed

variable (h : SegmentsBacked k m r segs)
include h

theorem SegmentsBacked.wrap_add (ha : InSegment segs (wrap a)) (hi : i < 8) :
    wrap (a+i) = wrap a + i :=
  Elf.wrap_add (lt_trans (h _ ha i hi).1.2 (by decide))

theorem SegmentsBacked.wordMapped (hs : Sound k m roots lost) (hr : r ∈ roots)
    (ha : InSegment segs (wrap a)) : wordMapped m r a = true := by
  refine all_eq_true.mpr fun i hi => ?_
  have hi := mem_range.mp hi
  rw [h.wrap_add ha hi,hs.loadByte_backed hr (h _ ha i hi)]
  rfl

theorem SegmentsBacked.retouched {A : Nat → Prop} (ht : Retouched r A m m') :
    SegmentsBacked k m' r segs :=
  fun a ha i hi => ht.backed (h a ha i hi)

end Backed

theorem confined_cons {x : Access} :
    Confined len segs (x :: log) ↔ x.Inside len segs ∧ Confined len segs log :=
  forall_mem_cons

theorem confined_append {log' : List Access} :
    Confined len segs (log ++ log') ↔ Confined len segs log ∧ Confined len segs log' :=
  forall_mem_append

theorem confined_nil : Confined len segs [] := nofun

theorem SegmentsBacked.user (h : SegmentsBacked k m r segs) (ha : InSegment segs a) :
    UserAddr a ∧ UserAddr (a+7) :=
  ⟨(h a ha 0 (by decide)).1,(h a ha 7 (by decide)).1⟩

theorem confined_mem {x : Access} (h : Confined len segs log) (hx : x ∈ log) :
    x.Inside len segs := h x hx

/-- What one turn reads and writes is in place exactly if the entry fits. -/
theorem relocateEntry_confined (hs : Sound k m roots lost) (hr : r ∈ roots)
    (hseg : SegmentsBacked k m r segs) (a : Nat) :
    Confined len segs (relocateEntry m r bias a).1 ↔ EntryFits m r bias segs a := by
  rw [relocateEntry,EntryFits]
  by_cases hinfo : InSegment segs (wrap (a+8))
  · rw [hseg.wordMapped hs hr hinfo,if_neg (by decide)]
    by_cases hrel : IsRelative m r a
    · rw [if_neg (not_not_intro hrel)]
      by_cases hoff : InSegment segs (wrap a)
      · rw [hseg.wordMapped hs hr hoff,if_neg (by decide)]
        by_cases hadd : InSegment segs (wrap (a+16))
        · rw [hseg.wordMapped hs hr hadd,if_neg (by decide)]
          simp only [confined_cons,confined_nil,Access.Inside,hinfo,hoff,hadd,hrel,true_and,
            and_true,forall_const]
          exact and_iff_left_of_imp hseg.user
        · refine iff_of_false (fun h => hadd ?_) fun h => hadd (h.2 hrel).2.1
          refine confined_mem (x := .entry (wrap (a+16))) h ?_
          split_ifs <;> simp
      · refine iff_of_false (fun h => hoff ?_) fun h => hoff (h.2 hrel).1
        refine confined_mem (x := .entry (wrap a)) h ?_
        split_ifs <;> simp
    · rw [if_pos hrel]
      simp only [confined_cons,confined_nil,Access.Inside,hinfo,hrel,true_and,false_implies]
  · refine iff_of_false (fun h => hinfo ?_) fun h => hinfo h.1
    refine confined_mem (x := .entry (wrap (a+8))) h ?_
    split_ifs <;> simp

/-- An entry that fits is dealt with: at most the word it names has changed. -/
theorem relocateEntry_done (hs : Sound k m roots lost) (hr : r ∈ roots)
    (hseg : SegmentsBacked k m r segs) (hfits : EntryFits m r bias segs a) :
    ∃ m', (relocateEntry m r bias a).2 = some m' ∧
      (m' = m ∨ IsRelative m r a ∧ InSegment segs (wrap (bias + wordAt m r a)) ∧
        ∃ n, m' = storeBytes m r (wrap (bias + wordAt m r a)) (le 8 n)) := by
  obtain ⟨hinfo,hrest⟩ := hfits
  rw [relocateEntry,hseg.wordMapped hs hr hinfo,if_neg (by decide)]
  by_cases hrel : IsRelative m r a
  · obtain ⟨hoff,hadd,htarget⟩ := hrest hrel
    have hwrap : wrap (wrap (bias + wordAt m r a)) = wrap (bias + wordAt m r a) :=
      mod_mod _ _
    rw [if_neg (not_not_intro hrel),hseg.wordMapped hs hr hoff,if_neg (by decide),
      hseg.wordMapped hs hr hadd,if_neg (by decide)]
    dsimp only
    rw [hseg.wordMapped hs hr (hwrap.symm ▸ htarget),if_pos rfl]
    exact ⟨_,rfl,.inr ⟨hrel,htarget,_,rfl⟩⟩
  · rw [if_pos hrel]
    exact ⟨m,rfl,.inl rfl⟩

/-- Each of `n` entries from the `i`-th on fits, in memory as it is when its turn comes: a relocation
may write over the table. -/
def TableFits (r bias : Nat) (d : RelaTable) (segs : List Segment) : Nat → Nat → Mem → Prop
  | 0, _, _ => True
  | n+1, i, m => EntryFits m r bias segs (entryAddr bias d i) ∧
    ∀ m' ∈ (relocateEntry m r bias (entryAddr bias d i)).2, TableFits r bias d segs n (i+1) m'

/-- The entries from the `i`-th on are in place exactly if each of them fits. -/
theorem relocateFrom_confined {d : RelaTable} {n : Nat} (hs : Sound k m roots lost) (hr : r ∈ roots)
    (hseg : SegmentsBacked k m r segs) :
    Confined len segs (relocateFrom r bias d n i m).1 ↔ TableFits r bias d segs n i m := by
  induction n generalizing i m with
  | zero => exact iff_of_true confined_nil trivial
  | succ n ih =>
    have hone : Confined len segs (relocateEntry m r bias (entryAddr bias d i)).1 ↔
        EntryFits m r bias segs (entryAddr bias d i) := relocateEntry_confined hs hr hseg _
    rw [relocateFrom,TableFits]
    by_cases hfits : EntryFits m r bias segs (entryAddr bias d i)
    · obtain ⟨m',hsome,hcase⟩ := relocateEntry_done hs hr hseg hfits
      have hnext : Sound k m' roots lost ∧ SegmentsBacked k m' r segs := by
        rcases hcase with rfl | ⟨-,-,w,rfl⟩
        · exact ⟨hs,hseg⟩
        · have ht := storeBytes_retouched (m := m) r (wrap (bias + wordAt m r (entryAddr bias d i))) (le 8 w)
          exact ⟨ht.sound hs,hseg.retouched ht⟩
      generalize relocateEntry m r bias (entryAddr bias d i) = o at hone hsome ⊢
      obtain ⟨log,o⟩ := o
      obtain rfl : o = some m' := hsome
      rw [confined_append,hone,ih hnext.1 hnext.2]
      simp
    -- the run goes wrong here, whatever follows
    · refine iff_of_false (fun hall => hfits (hone.mp ?_)) fun h0 => hfits h0.1
      generalize relocateEntry m r bias (entryAddr bias d i) = o at hall ⊢
      obtain ⟨log,_ | m'⟩ := o
      · exact hall
      · exact (confined_append.mp hall).1

end Entries

section Dynamic

/-- The `j`-th entry is the first with the tag that ends the table. -/
def DynEnd (image : Nat → UInt8) (off j : Nat) : Prop :=
  val image 8 (off+DYN_SIZE * j) = DT_NULL ∧
    ∀ i < j, val image 8 (off+DYN_SIZE * i) ≠ DT_NULL

/-- What `j` entries say about the relocations. -/
def dynTable (image : Nat → UInt8) : Nat → Nat → RelaTable → RelaTable
  | _, 0, d => d
  | off, j+1, d =>
    dynTable image (off+DYN_SIZE) j (d.record (val image 8 off) (val image 8 (off+8)))

variable {image : Nat → UInt8} {len n off j : Nat} {d : RelaTable} {segs : List Segment}

theorem dynEnd_zero : DynEnd image off 0 ↔ val image 8 off = DT_NULL :=
  ⟨fun h => h.1,fun h => ⟨h,nofun⟩⟩

theorem dynEnd_succ : DynEnd image off (j+1) ↔
    val image 8 off ≠ DT_NULL ∧ DynEnd image (off+DYN_SIZE) j := by
  have hat (i : Nat) : off + DYN_SIZE * (i+1) = off+DYN_SIZE + DYN_SIZE * i := by
    rw [DYN_SIZE]
    omega
  constructor
  · rintro ⟨hend,hbefore⟩
    refine ⟨hbefore 0 (succ_pos j),by rw [← hat]; exact hend,fun i hi => ?_⟩
    rw [← hat]
    exact hbefore (i+1) (succ_lt_succ hi)
  · rintro ⟨h0,hend,hbefore⟩
    refine ⟨by rw [hat]; exact hend,fun i hi => ?_⟩
    cases i with
    | zero => exact h0
    | succ i =>
      rw [hat]
      exact hbefore i (lt_of_succ_lt_succ hi)

/-- A table that ends is walked to its end. -/
theorem scanDyn_end (h : DynEnd image off j) (hj : j < n) :
    (scanDyn image n off d).2 = some (dynTable image off j d) := by
  induction n generalizing off j d with
  | zero => omega
  | succ n ih =>
    rw [scanDyn]
    cases j with
    | zero => rw [if_pos (dynEnd_zero.mp h)]; rfl
    | succ j =>
      obtain ⟨h0,hrest⟩ := dynEnd_succ.mp h
      rw [if_neg h0]
      exact ih hrest (lt_of_succ_lt_succ hj)

/-- The walk stays in the image exactly if the table ends there. -/
theorem scanDyn_confined (hlen : len < 0x8000000000000000) (hoff : off < 0x10000000000000000)
    (hn : len + 8 < 16*n + off) (hlow : off ≤ len+8 ∨ 0 < n) :
    Confined len segs (scanDyn image n off d).1 ↔
      ∃ j, DynEnd image off j ∧ off+DYN_SIZE * j+8 ≤ len := by
  induction n generalizing off d with
  | zero => omega
  | succ n ih =>
    rw [scanDyn,wrap_of_lt hoff]
    by_cases hin : off + 8 ≤ len
    · by_cases htag : val image 8 off = DT_NULL
      · rw [if_pos htag]
        exact iff_of_true (confined_cons.mpr ⟨hin,confined_nil⟩) ⟨0,dynEnd_zero.mpr htag,hin⟩
      · have hrest : Confined len segs (scanDyn image n (off+DYN_SIZE)
            (d.record (val image 8 off) (val image 8 (off+8)))).1 ↔
            ∃ j, DynEnd image (off+DYN_SIZE) j ∧ off+DYN_SIZE + DYN_SIZE*j + 8 ≤ len :=
          ih (by rw [DYN_SIZE]; omega) (by rw [DYN_SIZE]; omega) (by rw [DYN_SIZE]; omega)
        rw [if_neg htag,wrap_of_lt (by omega : off+8 < _)]
        constructor
        · intro h
          obtain ⟨j,hend,hj⟩ := hrest.mp (confined_append.mp (confined_cons.mp h).2).2
          refine ⟨j+1,dynEnd_succ.mpr ⟨htag,hend⟩,?_⟩
          rw [DYN_SIZE] at hj ⊢
          omega
        · rintro ⟨j,hend,hj⟩
          cases j with
          | zero => exact absurd (dynEnd_zero.mp hend) htag
          | succ j =>
            rw [DYN_SIZE] at hj
            refine confined_cons.mpr ⟨hin,confined_append.mpr ⟨?_,hrest.mpr ⟨j,?_,?_⟩⟩⟩
            · split_ifs
              · exact confined_cons.mpr ⟨show off + 8+8 ≤ len by omega,confined_nil⟩
              · exact confined_nil
            · exact (dynEnd_succ.mp hend).2
            · rw [DYN_SIZE]
              omega
    -- the first word is outside already
    · refine iff_of_false (fun h => hin ?_) ?_
      · refine confined_mem (x := .dyn off) h ?_
        split_ifs <;> simp
      · rintro ⟨j,-,hj⟩
        rw [DYN_SIZE] at hj
        omega

theorem DynEnd.unique {i : Nat} (h : DynEnd image off j) (h' : DynEnd image off i) : j = i := by
  rcases lt_trichotomy j i with hlt | heq | hgt
  · exact absurd h.1 (h'.2 j hlt)
  · exact heq
  · exact absurd h'.1 (h.2 i hgt)

end Dynamic

section Relocations

variable {k : Machine} {m : Mem} {roots : Finset Nat} {lost : Multiset Nat} {r bias : Nat}
  {b : Buffer} {segs : List Segment}

/-- The relocation table of an image whose dynamic table has `j` entries. -/
def Buffer.relaTable (b : Buffer) (p : Phdr) (j : Nat) : RelaTable := dynTable b.view p.offset j {}

/-- An image that can be relocated: its dynamic table ends in the image, its relocation entries lie
in the segments, and so do the words they name. -/
def RelocationsFit (b : Buffer) (m : Mem) (r bias : Nat) (segs : List Segment) : Prop :=
  ∀ p, (phdrs b.view).find? (·.type == PT_DYNAMIC) = some p →
    ∃ j, DynEnd b.view p.offset j ∧ p.offset+DYN_SIZE * j+8 ≤ b.bytes.length ∧
      TableFits r bias (b.relaTable p j) segs (b.relaTable p j).count 0 m

theorem phdr_offset_lt {view : Nat → UInt8} {p : Phdr} (h : p ∈ phdrs view) :
    p.offset < 0x10000000000000000 := by
  obtain ⟨i,-,rfl⟩ := mem_map.mp h
  exact val_lt view 8 _

/-- What the relocation of an image reads and writes lies in the image and its segments exactly if
the image can be relocated. -/
theorem applyRelocations_confined (hs : Sound k m roots lost) (hr : r ∈ roots)
    (hseg : SegmentsBacked k m r segs) (hlen : b.bytes.length < 0x8000000000000000) :
    Confined b.bytes.length segs (applyRelocations b m r bias).1 ↔
      RelocationsFit b m r bias segs := by
  rw [applyRelocations,RelocationsFit]
  cases hdyn : (phdrs b.view).find? (·.type == PT_DYNAMIC) with
  | none => exact iff_of_true confined_nil nofun
  | some p =>
    have hoff := phdr_offset_lt (mem_of_find?_eq_some hdyn)
    have hscan : Confined b.bytes.length segs (scanDyn b.view DYN_MAX p.offset {}).1 ↔
        ∃ j, DynEnd b.view p.offset j ∧ p.offset+DYN_SIZE * j+8 ≤ b.bytes.length :=
      scanDyn_confined hlen hoff (by rw [DYN_MAX]; omega) (.inr (by decide))
    have hend (j : Nat) (h : DynEnd b.view p.offset j) (hj : j < DYN_MAX) :
        (scanDyn b.view DYN_MAX p.offset {}).2 = some (b.relaTable p j) := scanDyn_end h hj
    dsimp only
    generalize scanDyn b.view DYN_MAX p.offset {} = o at hscan hend
    obtain ⟨log,o⟩ := o
    by_cases hdyn' : ∃ j, DynEnd b.view p.offset j ∧ p.offset+DYN_SIZE * j+8 ≤ b.bytes.length
    · obtain ⟨j,hj,hin⟩ := hdyn'
      have hlog := hscan.mpr ⟨j,hj,hin⟩
      have hjmax : j < DYN_MAX := by
        rw [DYN_SIZE] at hin
        rw [DYN_MAX]
        omega
      obtain rfl := hend j hj hjmax
      rw [confined_append,relocateFrom_confined hs hr hseg]
      constructor
      · rintro ⟨-,hall⟩ p' hp'
        cases hp'
        exact ⟨j,hj,hin,hall⟩
      · intro hall
        obtain ⟨j',hj',-,hfits⟩ := hall p rfl
        obtain rfl := hj.unique hj'
        exact ⟨hlog,hfits⟩
    · have hlog : ¬Confined b.bytes.length segs log := fun h => hdyn' (hscan.mp h)
      refine iff_of_false (fun h => hlog ?_) fun h => hdyn' ?_
      · cases o with
        | none => exact h
        | some d => exact (confined_append.mp h).1
      · obtain ⟨j,hj,hin,-⟩ := h p rfl
        exact ⟨j,hj,hin⟩

end Relocations

end Lariat.Elf
