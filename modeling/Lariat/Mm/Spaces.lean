import Lariat.Mm.KernelCopy

/-! The address spaces of a machine: what each address means in them, and what one page mapped or
unmapped in one of them does to all of them. -/
namespace Lariat.Mm

open Foundation.TableTree Reader Nat

/-- The address spaces rooted at `roots` share no frame with each other, with the kernel or with
the free frames; `lost` are the frames of the pool that nobody has. -/
structure Sound (k : Machine) (m : Mem) (roots : Finset Nat) (lost : Multiset Nat) : Prop where
  intact : KernelIntact k m
  counted : m.pmm.Counted
  forest : k.reader.Forest 4 k.pool m.store roots lost

/-- An address that belongs to user programs. -/
def UserAddr (virt : Nat) : Prop := 0x40000000 ≤ virt ∧ virt < 0x800000000000

/-- An address the kernel keeps for itself: the low identity map and the upper half. -/
def KernelAddr (virt : Nat) : Prop :=
  virt < 0x40000000 ∨ 0xFFFF800000000000 ≤ virt ∧ virt < 0x10000000000000000

instance (virt : Nat) : Decidable (UserAddr virt) := inferInstanceAs (Decidable (_ ∧ _))

instance (virt : Nat) : Decidable (KernelAddr virt) := inferInstanceAs (Decidable (_ ∨ _))

theorem ptIndex_val (virt level : Nat) :
    (ptIndex virt level).val = virt >>> (12+level * 9) % 512 := rfl

theorem userRoute_indices {v : Nat} (hv : UserAddr v) : UserRoute [] (indices v) := by
  obtain ⟨h1,h2⟩ := hv
  have h3 : (ptIndex v 3).val < 256 := by
    rw [ptIndex_val]
    omega
  refine ⟨h3,⟨h3,fun h => ?_⟩,trivial,trivial,trivial⟩
  have ha := congrArg Fin.val h.1
  have hb := congrArg Fin.val h.2
  rw [ptIndex_val] at ha hb
  omega

/-- Two user addresses have the same indices exactly when they lie on the same page. -/
theorem indices_eq_iff {v w : Nat} (hv : UserAddr v) (hw : UserAddr w) :
    indices v = indices w ↔ v / 4096 = w / 4096 := by
  obtain ⟨-,hv⟩ := hv
  obtain ⟨-,hw⟩ := hw
  simp only [indices,List.cons.injEq,and_true,Fin.ext_iff,ptIndex_val]
  omega

variable {k : Machine} {m m' : Mem} {roots : Finset Nat} {lost : Multiset Nat} {r v : Nat}

theorem walk_congr {h h' : Nat → Table} {n t : Nat} (w u : Bool)
    (hh : ∀ f, Reads h n t f → h' f = h f) : walk h' v n t w u = walk h v n t w u := by
  induction n generalizing t w u with
  | zero => rw [walk,walk,hh t rfl]
  | succ n ih =>
    rw [walk,walk,hh t (.inl rfl)]
    cases he : ptIsPresent (h t (ptIndex v (n+1))) with
    | false => rw [Bool.not_false,if_pos rfl,if_pos rfl]
    | true =>
      by_cases hhuge : n = 0 ∧ ptIsHuge (h t (ptIndex v (n+1)))
      · rw [if_pos hhuge,if_pos hhuge]
      · rw [if_neg hhuge,if_neg hhuge,ih]
        intro f hf
        refine hh f (.inr ⟨_,he,fun h0 => ?_,hf⟩)
        exact Bool.eq_false_iff.mpr fun h1 => hhuge ⟨h0,h1⟩

/-- The indices of an address from a level down. -/
def indicesFrom (virt : Nat) : Nat → List (Fin 512)
  | 0 => [ptIndex virt 0]
  | level+1 => ptIndex virt (level+1) :: indicesFrom virt level

theorem indicesFrom_ne_nil (v l : Nat) : ∃ i q, indicesFrom v l = i :: q := by
  cases l with
  | zero | succ l => exact ⟨_,_,rfl⟩

/-- The mapping a page entry stands for, given what the levels above allow. -/
def Entry.mapping (e : Entry) (virt : Nat) (w u : Bool) : Mapping :=
  ⟨e.frame * 4096 ||| virt % 4096,w && e.flags.writable,u && e.flags.user⟩

theorem phys_eq (f v : Nat) : f * 4096 ||| v % 4096 = f*4096 + v % 4096 := by
  have hlt : v % 4096 < 2 ^ 12 := mod_lt v (by decide)
  have hor : 2 ^ 12 * f + v % 4096 = 2 ^ 12 * f ||| v % 4096 := two_pow_add_eq_or_of_lt hlt f
  rw [mul_comm f 4096]
  exact hor.symm

theorem phys_frame (f v : Nat) : (f * 4096 ||| v % 4096) / 4096 = f := by
  rw [phys_eq]
  omega

theorem phys_offset (f v : Nat) : (f * 4096 ||| v % 4096) % 4096 = v % 4096 := by
  rw [phys_eq]
  omega

/-- In the user part of an address space the processor's walk is the tree's. -/
theorem walk_user {l t : Nat} {p : List (Fin 512)} (hlen : p.length + (l+1) = 4)
    (hr : UserRoute p (indicesFrom v l)) (hs : k.reader.Sane m.table (l+1) p t) (w u : Bool) :
    walk m.table v l t w u =
      (k.reader.find m.table p t (indicesFrom v l)).map (·.mapping v w u) := by
  induction l generalizing p t w u with
  | zero =>
    rw [walk,indicesFrom,find_slot,presentEntry]
    cases he : ptIsPresent (m.table t (ptIndex v 0)) with
    | false => rfl
    | true => rfl
  | succ l ih =>
    obtain ⟨j,q,hq⟩ := indicesFrom_ne_nil v l
    have hok : CellOk k (ptIndex v (l+1) :: p) (m.table t (ptIndex v (l+1))) :=
      (hs (ptIndex v (l+1))).1
    rw [walk,indicesFrom]
    cases he : ptIsPresent (m.table t (ptIndex v (l+1))) with
    | false =>
      have hnext : k.next (ptIndex v (l+1) :: p) (m.table t (ptIndex v (l+1))) = none :=
        next_absent he
      rw [if_pos (by simp),hq,find_of_none hnext]
      rfl
    | true =>
      obtain ⟨hhuge,-,hflags⟩ := hok.user hr.1 he
      have hlt : (ptIndex v (l+1) :: p).length < 4 := by
        rw [List.length_cons]
        omega
      have hnext : k.next (ptIndex v (l+1) :: p) (m.table t (ptIndex v (l+1))) =
          some (m.table t (ptIndex v (l+1))).frame := by
        rw [next_user hok hr.1 he,if_pos (.inl (Nat.ne_of_lt hlt))]
      rw [if_neg (by simp),if_neg (by simp [hhuge]),(hflags hlt).1,(hflags hlt).2,Bool.and_true,
        Bool.and_true,ih (by rw [List.length_cons]; omega) hr.2 ((hs _).2 _ hnext),hq,
        find_of_some hnext]

theorem mapping_user (hs : k.reader.Sane m.table 4 [] r) (hv : UserAddr v) :
    mapping m.table r v =
      (k.reader.find m.table [] r (indices v)).map (·.mapping v true true) :=
  walk_user rfl (userRoute_indices hv) hs true true

theorem Sound.mapping_user (h : Sound k m roots lost) (hr : r ∈ roots) (hv : UserAddr v) :
    mapping m.table r v =
      (k.reader.find m.table [] r (indices v)).map (·.mapping v true true) :=
  Lariat.Mm.mapping_user (h.forest.sane r hr) hv

/-- The processor's walk from an entry on. -/
def walkBelow (table : Nat → Table) (virt level : Nat) (e : Entry) (w u : Bool) : Option Mapping :=
  if !ptIsPresent e then none
  else if level = 0 ∧ ptIsHuge e then
    some ⟨e.frame * 4096 ||| virt % 0x200000,w && e.flags.writable,u && e.flags.user⟩
  else walk table virt level e.frame (w && e.flags.writable) (u && e.flags.user)

theorem walk_succ (table : Nat → Table) (l t : Nat) (w u : Bool) :
    walk table v (l+1) t w u = walkBelow table v l (table t (ptIndex v (l+1))) w u := rfl

/-- Below an entry of the kernel's the walk reads the kernel's tables only. -/
theorem walkBelow_kernel {l : Nat} {path : List (Fin 512)} {e : Entry} (hi : KernelIntact k m)
    (hok : CellOk k path e) (hp : ¬UserPath path)
    (hreads : ∀ f, ptIsPresent (k.entry path) → (l = 0 → ptIsHuge (k.entry path) = false) →
      Reads k.tables l (k.entry path).frame f → Reads k.tables 3 k.pml4 f) (w u : Bool) :
    walkBelow m.table v l e w u = walkBelow k.tables v l (k.entry path) w u := by
  rcases hok.kernel hp with rfl | ⟨h1,h2⟩
  · rw [walkBelow,walkBelow]
    cases he : ptIsPresent (k.entry path) with
    | false => rw [Bool.not_false,if_pos rfl,if_pos rfl]
    | true =>
      by_cases hhuge : l = 0 ∧ ptIsHuge (k.entry path)
      · rw [if_pos hhuge,if_pos hhuge]
      · rw [if_neg hhuge,if_neg hhuge,walk_congr]
        intro f hf
        refine hi.tables f (hreads f he (fun h0 => ?_) hf)
        exact Bool.eq_false_iff.mpr fun h1 => hhuge ⟨h0,h1⟩
  · rw [walkBelow,walkBelow,h1,h2,Bool.not_false,if_pos rfl,if_pos rfl]

/-- What a kernel address means in a process: the low map is reached through the process's own
PDPT, the upper half through the kernel's top-level slots. -/
def Machine.mapping (k : Machine) (virt : Nat) : Option Mapping :=
  if virt < 0x40000000 then walkBelow k.tables virt 1 (k.entry [0,0]) true true
  else walkBelow k.tables virt 2 (k.entry [ptIndex virt 3]) true true

theorem userPath_low : UserPath [0] := by
  show (0 : Fin 512).val < 256
  decide

/-- Every address space has a PDPT of its own for the low slot. -/
theorem low_next (hs : k.reader.Sane m.table 4 [] r) :
    k.next [0] (m.table r 0) = some (m.table r 0).frame := by
  have hok : CellOk k [0] (m.table r 0) := (hs 0).1
  rw [next_user hok userPath_low (hok.low rfl)]
  rfl

/-- Kernel addresses mean the same in every address space. -/
theorem mapping_shared (hi : KernelIntact k m) (hs : k.reader.Sane m.table 4 [] r)
    (hv : KernelAddr v) : mapping m.table r v = k.mapping v := by
  rw [Lariat.Mm.mapping,Machine.mapping,walk_succ]
  rcases hv with hv | ⟨hv,hv'⟩
  · have h3 : ptIndex v 3 = 0 := by
      rw [Fin.ext_iff,ptIndex_val,Fin.val_zero]
      omega
    have h2 : ptIndex v 2 = 0 := by
      rw [Fin.ext_iff,ptIndex_val,Fin.val_zero]
      omega
    have hok : CellOk k [0] (m.table r 0) := (hs 0).1
    have he := hok.low rfl
    have hflags := (hok.user userPath_low he).2.2 (by decide)
    have hok2 : CellOk k [0,0] (m.table (m.table r 0).frame 0) := ((hs 0).2 _ (low_next hs) 0).1
    rw [if_pos hv,h3,walkBelow,if_neg (by simp [he]),if_neg (by simp),hflags.1,hflags.2,walk_succ,
      h2]
    refine walkBelow_kernel hi hok2 (fun h0 => h0.2 ⟨rfl,rfl⟩) (fun f hpres _ hf => ?_) true true
    rw [Machine.entry,if_pos k.low] at hpres hf
    exact .inr ⟨0,k.low,(absurd · (by decide)),.inr ⟨0,hpres,(absurd · (by decide)),hf⟩⟩
  · have h3 : 256 ≤ (ptIndex v 3).val := by
      rw [ptIndex_val]
      omega
    have hok : CellOk k [ptIndex v 3] (m.table r (ptIndex v 3)) := (hs _).1
    rw [if_neg (by omega)]
    refine walkBelow_kernel hi hok (not_lt.mpr h3) (fun f hpres _ hf => ?_) true true
    exact .inr ⟨_,hpres,(absurd · (by decide)),hf⟩

theorem Sound.mapping_shared (h : Sound k m roots lost) (hr : r ∈ roots) (hv : KernelAddr v) :
    mapping m.table r v = k.mapping v :=
  Lariat.Mm.mapping_shared h.intact (h.forest.sane r hr) hv

/-- An address a program or the kernel can use. -/
def Canonical (v : Nat) : Prop := UserAddr v ∨ KernelAddr v

/-- Two address spaces with the same user pages mean the same by every address. -/
theorem Sound.mapping_eq {roots' : Finset Nat} {lost' : Multiset Nat} {r' : Nat}
    (h : Sound k m roots lost) (h' : Sound k m' roots' lost')
    (hr : r ∈ roots) (hr' : r' ∈ roots') (hv : Canonical v)
    (hfind : UserAddr v → k.reader.find m'.table [] r' (indices v) =
      k.reader.find m.table [] r (indices v)) :
    mapping m'.table r' v = mapping m.table r v := by
  rcases hv with hv | hv
  · rw [h'.mapping_user hr' hv,h.mapping_user hr hv,hfind hv]
  · rw [h'.mapping_shared hr' hv,h.mapping_shared hr hv]

end Lariat.Mm
