import Lariat.Foundation.Runs
import Mathlib.Algebra.Order.Ring.Nat
import Mathlib.Data.Nat.Find

/-! The files of ramfs: a buffer that doubles when it has to grow, and handles with positions. -/
namespace Lariat.Vfs.Ramfs
open Foundation.Runs List Function Option

/-- `ramfs_inode_t`, whose size and capacity have 32 bits; `room` is what was really allocated. A
file without a buffer has size 0, and no loop reads it. -/
structure File where
  data : Nat → UInt8 := fun _ => 0
  size : Nat := 0
  capacity : Nat := 0
  room : Nat := 0

def double (newCap : Nat) : Nat := newCap*2 % 2^64

/-- The loop `while (new_cap < need) new_cap *= 2`, for so many rounds. -/
def growLoop : Nat → Nat → Nat → Option Nat
  | 0,_,_ => none
  | fuel+1,newCap,need => if newCap < need then growLoop fuel (double newCap) need else some newCap

namespace File

variable (f : File) (fuel : Nat) (luck : Bool)

/-- A buffer for `need` bytes. There is a result if the loop has ended, and a file in it unless
memory was short. -/
def grow (start need : Nat) : Option (Option File) :=
  if f.capacity < need then
    (growLoop fuel start need).map fun newCap =>
      if luck then
        some { f with
          data := fun i => if i < f.size then f.data i else 0
          capacity := newCap % 2^32
          room := newCap }
      else none
  else some (some f)

/-- `ramfs_write`; the handle's position is the caller's to move. -/
def write (pos : Nat) (src : Nat → UInt8) (count : Nat) : Option (Option File) :=
  let need := (pos+count) % 2^64
  (f.grow fuel luck (if f.capacity = 0 then 4096 else f.capacity*2 % 2^32) need).map (·.map fun g =>
    { g with
      data := fun i => if pos ≤ i ∧ i < pos+count then src (i-pos) else g.data i
      size := if g.size < need then need % 2^32 else g.size })

/-- `ramfs_truncate`. -/
def truncate (length : Int) : Option (Option File) :=
  if length < 0 then some none
  else
    let newlen := length.toNat
    (f.grow fuel luck (if f.capacity = 0 then 4096 else f.capacity) newlen).map (·.map fun g =>
      { g with
        data := fun i => if min newlen g.size ≤ i ∧ i < max g.size newlen then 0 else g.data i
        size := newlen % 2^32 })

/-- Size and capacity hold their true values. -/
structure Whole : Prop where
  size_le : f.size ≤ f.capacity
  lt : f.capacity < 2^32
  room : f.room = f.capacity

end File

/-- After so many doublings, and no fewer, there is enough. -/
def Grown (start need k : Nat) : Prop := need ≤ double^[k] start ∧ ∀ j < k, double^[j] start < need

theorem growLoop_eq_some {fuel start need c : Nat} : growLoop fuel start need = some c ↔
    ∃ k < fuel, Grown start need k ∧ double^[k] start = c := by
  induction fuel generalizing start with
  | zero => exact ⟨nofun,fun ⟨k,hk,_⟩ => absurd hk k.not_lt_zero⟩
  | succ fuel ih =>
    rw [growLoop]
    split
    · rename_i hlt
      rw [ih]
      constructor
      · rintro ⟨k,hk,⟨hge,hless⟩,hc⟩
        refine ⟨k+1,Nat.succ_lt_succ hk,⟨hge,fun j hj => ?_⟩,hc⟩
        cases j with
        | zero => exact hlt
        | succ j => exact hless j (Nat.lt_of_succ_lt_succ hj)
      · rintro ⟨k,hk,⟨hge,hless⟩,hc⟩
        cases k with
        | zero => exact absurd hlt (not_lt.mpr hge)
        | succ k =>
          exact ⟨k,Nat.lt_of_succ_lt_succ hk,⟨hge,fun j hj => hless (j+1) (Nat.succ_lt_succ hj)⟩,hc⟩
    · rename_i hge
      constructor
      · intro h
        cases h
        exact ⟨0,Nat.succ_pos _,⟨Nat.not_lt.mp hge,nofun⟩,rfl⟩
      · rintro ⟨k,-,⟨-,hless⟩,hc⟩
        cases k with
        | zero => rw [← hc]; rfl
        | succ k => exact absurd (hless 0 k.succ_pos) hge

/-- The call ends. If it succeeds, the file has this size, and the fields say so. -/
def Settled (call : Nat → Option (Option File)) (size : Nat) : Prop :=
  ∃ fuel r, call fuel = some r ∧ ∀ g, r = some g → g.Whole ∧ g.size = size

/-- There is room, or some `start*2^k` is enough and has 32 bits. If memory is short it is enough
that the loop ends: from 0 it does not, and for more than 2^63 it may pass what is needed by. -/
def Reaches (luck : Bool) (capacity start need : Nat) : Prop :=
  need ≤ capacity ∨ if luck then ∃ k, need ≤ start*2^k ∧ start*2^k < 2^32
    else start ≠ 0 ∧ need ≤ 2^63 ∨ ∃ k < 64, need ≤ start*2^k % 2^64

theorem iterate_double {start : Nat} (h : start < 2^64) (k : Nat) : double^[k] start = start*2^k % 2^64 := by
  induction k with
  | zero => rw [iterate_zero_apply,pow_zero,mul_one,Nat.mod_eq_of_lt h]
  | succ k ih => rw [iterate_succ_apply',ih,double,Nat.mod_mul_mod,Nat.mul_assoc,← Nat.pow_succ]

theorem exists_grown {start need k : Nat} (h : need ≤ double^[k] start) : ∃ j ≤ k, Grown start need j := by
  classical
  have hex : ∃ k, need ≤ double^[k] start := ⟨k,h⟩
  exact ⟨Nat.find hex,Nat.find_min' hex h,Nat.find_spec hex,fun j hj => not_le.mp (Nat.find_min hex hj)⟩

/-- Before the loop ends within 32 bits nothing wraps around. -/
theorem Grown.eq_mul {start need k : Nat} (h : Grown start need k) (hlt : double^[k] start < 2^32) {j : Nat}
    (hj : j ≤ k) : double^[j] start = start*2^j := by
  induction j with
  | zero => rw [iterate_zero_apply,pow_zero,mul_one]
  | succ j ih =>
    have hless := h.2 j hj
    have hge := h.1
    rw [iterate_succ_apply',double,Nat.mod_eq_of_lt (by omega),ih (Nat.le_of_succ_le hj),pow_succ,mul_assoc]

/-- From any value but 0 the doubling comes to between 2^63 and 2^64. -/
theorem exists_doubled {start : Nat} (h : start < 2^64) (h0 : start ≠ 0) :
    ∃ k < 64, 2^63 ≤ start*2^k ∧ start*2^k < 2^64 := by
  have hlog : start.log2 < 64 := (Nat.log2_lt h0).mpr h
  have hle := Nat.mul_le_mul_right (2^(63-start.log2)) (Nat.log2_self_le h0)
  have hlt := Nat.mul_lt_mul_of_pos_right (Nat.lt_log2_self : start < 2^(start.log2+1))
    (Nat.two_pow_pos (63-start.log2))
  rw [← pow_add] at hle hlt
  exact ⟨63-start.log2,by omega,by rwa [show start.log2+(63-start.log2) = 63 by omega] at hle,
    by rwa [show start.log2+1+(63-start.log2) = 64 by omega] at hlt⟩

theorem grown_iff {start need : Nat} (h : start < 2^64) (hpos : 0 < need) (luck : Bool) :
    (∃ k, Grown start need k ∧ (luck = false ∨ double^[k] start < 2^32)) ↔
      if luck then ∃ k, need ≤ start*2^k ∧ start*2^k < 2^32
      else start ≠ 0 ∧ need ≤ 2^63 ∨ ∃ k < 64, need ≤ start*2^k % 2^64 := by
  cases luck with
  | true =>
    rw [if_pos rfl]
    constructor
    · rintro ⟨k,hk,hlt⟩
      have hlt := hlt.resolve_left (by decide)
      have heq := hk.eq_mul hlt (Nat.le_refl k)
      exact ⟨k,heq ▸ hk.1,heq ▸ hlt⟩
    · rintro ⟨k,hge,hlt⟩
      have hmod : double^[k] start = start*2^k := by rw [iterate_double h,Nat.mod_eq_of_lt (by omega)]
      obtain ⟨j,hj,hg⟩ := exists_grown (hmod ▸ hge)
      have hle := Nat.mul_le_mul_left start (Nat.pow_le_pow_right Nat.two_pos hj)
      exact ⟨j,hg,.inr (by rw [iterate_double h,Nat.mod_eq_of_lt (by omega)]; omega)⟩
  | false =>
    rw [if_neg (by decide)]
    constructor
    · rintro ⟨k,hk,-⟩
      have hge := hk.1
      rw [iterate_double h] at hge
      refine .inr ⟨k,?_,hge⟩
      by_contra hlarge
      -- 64 doublings leave nothing of the start
      obtain ⟨i,rfl⟩ := Nat.exists_eq_add_of_le (not_lt.mp hlarge)
      rw [pow_add,mul_left_comm,Nat.mul_mod_right] at hge
      omega
    · intro hcase
      obtain ⟨k,hge⟩ : ∃ k, need ≤ double^[k] start := by
        rcases hcase with ⟨h0,hneed⟩ | ⟨k,-,hge⟩
        · obtain ⟨k,-,hge,hlt⟩ := exists_doubled h h0
          exact ⟨k,by rw [iterate_double h,Nat.mod_eq_of_lt hlt]; omega⟩
        · exact ⟨k,by rwa [iterate_double h]⟩
      obtain ⟨j,-,hg⟩ := exists_grown hge
      exact ⟨j,hg,.inl rfl⟩

section

variable {f : File} {luck : Bool} {need : Nat}

theorem settled_iff {size start : Nat} {upd : File → Nat → UInt8} {s : Nat → Nat} (hf : f.Whole) (hstart : start < 2^64)
    (hsize : need < 2^32 → s f.size = size) (hle : size ≤ f.capacity ∨ size ≤ need) :
    Settled (fun fuel => (f.grow fuel luck start need).map
      (·.map fun g => { g with data := upd g, size := s g.size })) size ↔
        Reaches luck f.capacity start need := by
  have hlt := hf.lt
  by_cases hneed : f.capacity < need
  · simp only [Settled,File.grow,if_pos hneed,Reaches,or_iff_right (not_le.mpr hneed)]
    rw [← grown_iff hstart (by omega)]
    constructor
    · rintro ⟨fuel,r,hr,hg⟩
      obtain ⟨r',hr',rfl⟩ := map_eq_some_iff.mp hr
      obtain ⟨newCap,hloop,rfl⟩ := map_eq_some_iff.mp hr'
      obtain ⟨k,-,hk,rfl⟩ := growLoop_eq_some.mp hloop
      refine ⟨k,hk,?_⟩
      cases luck with
      | false => exact .inl rfl
      | true =>
        have heq : double^[k] start = double^[k] start % 2^32 := (hg _ rfl).1.room
        exact .inr (heq ▸ Nat.mod_lt _ (by decide))
    · rintro ⟨k,hk,h⟩
      refine ⟨k+1,_,by rw [growLoop_eq_some.mpr ⟨k,k.lt_succ_self,hk,rfl⟩]; rfl,fun g hg => ?_⟩
      cases luck with
      | false => cases hg
      | true =>
        cases hg
        have h32 := h.resolve_left (by decide)
        have hge := hk.1
        have hs := hsize (lt_of_le_of_lt hge h32)
        have hmod := Nat.mod_eq_of_lt h32
        refine ⟨⟨?_,Nat.mod_lt _ (by decide),hmod.symm⟩,hs⟩
        show s f.size ≤ double^[k] start % 2^32
        omega
  · refine iff_of_true ⟨0,_,by simp only [File.grow,if_neg hneed]; rfl,fun g hg => ?_⟩
      (.inl (not_lt.mp hneed))
    cases hg
    have hs := hsize (by omega)
    exact ⟨⟨by show s f.size ≤ f.capacity; omega,hlt,hf.room⟩,hs⟩

/-- `ramfs_write` and `ramfs_truncate` end well exactly if the doubling reaches what they need. -/
theorem resize_settled_iff (hf : f.Whole) :
    (∀ pos src count, pos < 2^63 → count < 2^63 →
      (Settled (fun fuel => f.write fuel luck pos src count) (max f.size (pos+count)) ↔
        Reaches luck f.capacity (if f.capacity = 0 then 4096 else f.capacity*2 % 2^32) (pos+count))) ∧
      ∀ length : Int, length < 2^63 →
        (Settled (fun fuel => f.truncate fuel luck length) length.toNat ↔ length < 0 ∨
          Reaches luck f.capacity (if f.capacity = 0 then 4096 else f.capacity) length.toNat) := by
  constructor
  · intro pos src count hpos hcount
    have hneed : (pos+count) % 2^64 = pos+count := Nat.mod_eq_of_lt (by omega)
    simp only [File.write,hneed]
    refine settled_iff (s := fun n => if n < pos+count then (pos+count) % 2^32 else n) hf (by split <;> omega) ?_ ?_
    · intro h32
      rw [Nat.mod_eq_of_lt h32]
      split <;> omega
    · have := hf.size_le
      omega
  · intro length hlength
    simp only [File.truncate]
    split
    · exact iff_of_true ⟨0,none,rfl,nofun⟩ (.inl ‹_›)
    · rw [or_iff_right ‹_›]
      have hcap := hf.lt
      exact settled_iff (s := fun _ => length.toNat % 2^32) hf (by split <;> omega) Nat.mod_eq_of_lt
        (.inr (Nat.le_refl _))

end

/-- A first write gets a page. -/
theorem resize_settled_page : Settled (fun fuel => File.write {} fuel true 0 (fun _ => 1) 5) 5 :=
  ((resize_settled_iff ⟨le_refl 0,by decide,rfl⟩).1 0 _ 5 (by decide) (by decide)).mpr
    (.inr ⟨0,by decide,by decide⟩)

/-- With two gigabytes of capacity the doubling in a write starts from 0, and does not end. -/
theorem write_past_two_gigabytes : ¬Settled (fun fuel =>
    File.write { capacity := 2^31, room := 2^31 } fuel true (2^31) (fun _ => 0) 1) (max 0 (2^31+1)) := by
  rintro ⟨fuel,r,hr,-⟩
  obtain ⟨r',hr',-⟩ := map_eq_some_iff.mp hr
  obtain ⟨c,hloop,-⟩ := map_eq_some_iff.mp hr'
  obtain ⟨k,-,hk,-⟩ := growLoop_eq_some.mp hloop
  have hzero : double^[k] 0 = 0 := Function.iterate_fixed rfl k
  exact absurd (hzero ▸ hk.1) (by decide)

/-- Any number of handles on one file, with the last call's return value and bytes read. -/
structure Sys where
  file : File := {}
  pos : Nat → Nat := fun _ => 0
  ret : Int := 0
  got : List UInt8 := []

inductive Event where
  | write (h : Nat) (src : Nat → UInt8) (count : Nat) (luck : Bool)
  | read (h count : Nat)
  | lseek (h : Nat) (offset : Int) (whence : Nat)
  | truncate (length : Int) (luck : Bool)

/-- Where `ramfs_lseek` goes, before it takes a negative position for 0. -/
def Sys.sought (s : Sys) (h : Nat) (offset : Int) : Nat → Option Int
  | 0 => some offset
  | 1 => some (s.pos h+offset)
  | 2 => some (s.file.size+offset)
  | _ => none

def step (s : Sys) : Event → Option Sys
  | .write h src count luck => (s.file.write 64 luck (s.pos h) src count).map fun
    | none => { s with ret := -1 }
    | some f => { s with file := f, pos := update s.pos h (s.pos h+count), ret := count }
  | .read h count =>
    let n := if s.file.size ≤ s.pos h then 0 else min count (s.file.size-s.pos h)
    some { s with
      pos := update s.pos h (s.pos h+n)
      ret := n
      got := (List.range n).map fun i => s.file.data (s.pos h+i) }
  | .lseek h offset whence =>
    match s.sought h offset whence with
    | none => some { s with ret := -1 }
    | some p => some { s with pos := update s.pos h p.toNat, ret := p.toNat }
  | .truncate length luck => (s.file.truncate 64 luck length).map fun
    | none => { s with ret := -1 }
    | some f => { s with file := f, ret := 0 }

/-- An array of bytes with zeros after its end. -/
structure Flat where
  size : Nat
  byte : Nat → UInt8

def File.flat (f : File) : Flat := ⟨f.size,fun i => if i < f.size then f.data i else 0⟩

def Flat.write (a : Flat) (pos : Nat) (src : Nat → UInt8) (count : Nat) : Flat :=
  ⟨max a.size (pos+count),fun i => if pos ≤ i ∧ i < pos+count then src (i-pos) else a.byte i⟩

def Flat.truncate (a : Flat) (n : Nat) : Flat := ⟨n,fun i => if i < n then a.byte i else 0⟩

def Flat.read (a : Flat) (pos count : Nat) : List UInt8 :=
  (List.range (min count (a.size-pos))).map fun i => a.byte (pos+i)

/-- What each call does to the array and to its handle's position; a failed one changes nothing. -/
def Effect (s s' : Sys) : Event → Prop
  | .write h src count luck =>
    (s'.ret = -1 ∧ luck = false ∧ s'.file = s.file ∧ s'.pos = s.pos) ∨
      (s'.ret = count ∧ s'.file.flat = s.file.flat.write (s.pos h) src count ∧
        s'.pos = update s.pos h (s.pos h+count))
  | .read h count =>
    s'.file = s.file ∧ s'.got = s.file.flat.read (s.pos h) count ∧ s'.ret = s'.got.length ∧
      s'.pos = update s.pos h (s.pos h+s'.got.length)
  | .lseek h offset whence =>
    s'.file = s.file ∧ match s.sought h offset whence with
    | none => s'.ret = -1 ∧ s'.pos = s.pos
    | some p => s'.ret = max p 0 ∧ s'.pos = update s.pos h p.toNat
  | .truncate length luck => s'.pos = s.pos ∧
    ((s'.ret = -1 ∧ (length < 0 ∨ luck = false) ∧ s'.file = s.file) ∨
      (s'.ret = 0 ∧ 0 ≤ length ∧ s'.file.flat = s.file.flat.truncate length.toNat))

/-- The call returns, and has its effect. -/
def Exact (s : Sys) (e : Event) : Prop :=
  ∃ s', step s e = some s' ∧ Effect s s' e ∧ s'.file.size ≤ s'.file.capacity

/-- Positions and sizes stay below 2^31. -/
def Small (s : Sys) : Event → Prop
  | .write h _ count _ => s.pos h+count < 2^31
  | .read _ _ => True
  | .lseek h offset whence => ∀ p ∈ s.sought h offset whence, p < 2^31
  | .truncate length _ => length < 2^31

/-- The capacity is a power of two, and the buffer has zeros after the file's end. -/
structure File.Inv (f : File) : Prop extends f.Whole where
  power : f.capacity = 0 ∨ ∃ a ≤ 31, f.capacity = 2^a
  small : f.size < 2^31
  zero : ∀ i, f.size ≤ i → f.data i = 0

/-- A resize fails for want of memory only, and else leaves the array `a`. -/
def Leaves (luck : Bool) (a : Flat) (r : Option (Option File)) : Prop :=
  (luck = false ∧ r = some none) ∨ ∃ g : File, r = some (some g) ∧ g.flat = a ∧ g.Inv

section

variable {f : File} {need : Nat}

theorem File.Inv.flat (hf : f.Inv) : f.flat = ⟨f.size,f.data⟩ := by
  rw [File.flat]
  congr
  funext i
  split
  · rfl
  · exact (hf.zero i (not_lt.mp ‹_›)).symm

theorem growLoop_power (fuel : Nat) {a : Nat} (ha : a ≤ 31) (hfuel : 31-a < fuel) (hneed : need ≤ 2^31) :
    ∃ b ≤ 31, growLoop fuel (2^a) need = some (2^b) ∧ need ≤ 2^b := by
  induction fuel generalizing a with
  | zero => exact absurd hfuel (Nat.not_lt_zero _)
  | succ fuel ih =>
    rw [growLoop]
    split
    · rename_i hlt
      have ha := (Nat.pow_lt_pow_iff_right Nat.one_lt_two).mp (Nat.lt_of_lt_of_le hlt hneed)
      have hdouble : double (2^a) = 2^(a+1) :=
        Nat.mod_eq_of_lt (Nat.pow_lt_pow_right Nat.one_lt_two (by omega : a+1 < 64))
      rw [hdouble]
      exact ih ha (by omega)
    · exact ⟨a,ha,rfl,not_lt.mp ‹_›⟩

theorem File.Inv.resize (hf : f.Inv) {start size : Nat} {u : Nat → (Nat → UInt8) → Nat → UInt8}
    {s : Nat → Nat} (luck : Bool) (hneed : need < 2^31)
    (hstart : f.capacity < need → ∃ a ≤ 31, start = 2^a) (hs : s f.size = size)
    (hle : size ≤ f.size ∨ size ≤ need) (hzero : ∀ i, size ≤ i → u f.size f.data i = 0) :
    Leaves luck ⟨size,u f.size f.data⟩ ((f.grow 64 luck start need).map
      (·.map fun g => { g with data := u g.size g.data, size := s g.size })) := by
  have hsize := hf.size_le
  have hsmall := hf.small
  have hend {g : File} (hg : g.Inv) : g.flat = ⟨g.size,g.data⟩ ∧ g.Inv := ⟨hg.flat,hg⟩
  subst hs
  rw [File.grow]
  split
  · rename_i hlt
    obtain ⟨a,ha,rfl⟩ := hstart hlt
    obtain ⟨b,hb,hloop,hge⟩ := growLoop_power 64 ha (by omega) (le_of_lt hneed)
    have hb32 : 2^b < 2^32 := Nat.pow_lt_pow_right (by decide) (by omega)
    have hdata : (fun i => if i < f.size then f.data i else 0) = f.data := congrArg Flat.byte hf.flat
    rw [hloop,map_some,Nat.mod_eq_of_lt hb32,hdata]
    cases luck with
    | false => exact .inl ⟨rfl,rfl⟩
    | true =>
      refine .inr ⟨_,rfl,hend ⟨⟨?_,hb32,rfl⟩,.inr ⟨b,hb,rfl⟩,?_,hzero⟩⟩
      · show s f.size ≤ 2^b
        omega
      · show s f.size < 2^31
        omega
  · refine .inr ⟨_,rfl,hend ⟨⟨?_,hf.lt,hf.room⟩,hf.power,?_,hzero⟩⟩
    · show s f.size ≤ f.capacity
      omega
    · show s f.size < 2^31
      omega

theorem File.Inv.write (hf : f.Inv) (luck : Bool) {pos count : Nat} (src : Nat → UInt8)
    (hsmall : pos+count < 2^31) :
    Leaves luck (f.flat.write pos src count) (f.write 64 luck pos src count) := by
  have hneed : (pos+count) % 2^64 = pos+count := Nat.mod_eq_of_lt (by omega)
  have hmod : (pos+count) % 2^32 = pos+count := Nat.mod_eq_of_lt (by omega)
  rw [File.write,hneed,hmod,hf.flat]
  refine hf.resize (u := fun _ data i => if pos ≤ i ∧ i < pos+count then src (i-pos) else data i)
    (s := fun n => if n < pos+count then pos+count else n) luck hsmall ?_ (max_def_lt _ _).symm ?_ fun i hi => ?_
  · intro hlt
    rcases hf.power with h0 | ⟨a,ha,h⟩
    · exact ⟨12,by decide,if_pos h0⟩
    · rw [h] at hlt ⊢
      have ha := (Nat.pow_lt_pow_iff_right Nat.one_lt_two).mp (Nat.lt_trans hlt hsmall)
      have hlt : 2^(a+1) < 2^32 := Nat.pow_lt_pow_right Nat.one_lt_two (by omega)
      exact ⟨a+1,ha,by rw [if_neg (Nat.two_pow_pos a).ne',← Nat.pow_succ,Nat.mod_eq_of_lt hlt]⟩
  · dsimp only
    omega
  · dsimp only at hi
    rw [if_neg (by omega)]
    exact hf.zero i (by omega)

theorem File.Inv.truncate (hf : f.Inv) (luck : Bool) {length : Int} (hlen : 0 ≤ length)
    (hsmall : length < 2^31) :
    Leaves luck (f.flat.truncate length.toNat) (f.truncate 64 luck length) := by
  have hflat : f.flat.truncate length.toNat = ⟨length.toNat,fun i =>
      if min length.toNat f.size ≤ i ∧ i < max f.size length.toNat then 0 else f.data i⟩ := by
    rw [hf.flat,Flat.truncate]
    congr
    funext i
    have hzero := hf.zero i
    split <;> split <;> grind
  simp only [File.truncate,if_neg (Int.not_lt.mpr hlen),hflat]
  refine hf.resize
    (u := fun size data i => if min length.toNat size ≤ i ∧ i < max size length.toNat then 0 else data i)
    (s := fun _ => length.toNat % 2^32) luck (by omega) ?_ (Nat.mod_eq_of_lt (by omega))
    (.inr (Nat.le_refl _)) fun i hi => ?_
  · intro hlt
    rcases hf.power with h0 | ⟨a,ha,h⟩
    · exact ⟨12,by decide,if_pos h0⟩
    · exact ⟨a,ha,by rw [h,if_neg (Nat.two_pow_pos a).ne']⟩
  · split
    · rfl
    · exact hf.zero i (by omega)

theorem step_effect {s : Sys} {e : Event} (hf : s.file.Inv) (hsmall : Small s e) :
    ∃ s', step s e = some s' ∧ Effect s s' e ∧ s'.file.Inv := by
  cases e with
  | write h src count luck =>
    rw [step]
    rcases hf.write luck src hsmall with ⟨hl,hw⟩ | ⟨g,hw,hflat,hg⟩
    · rw [hw]
      exact ⟨_,rfl,.inl ⟨rfl,hl,rfl,rfl⟩,hf⟩
    · rw [hw]
      exact ⟨_,rfl,.inr ⟨rfl,hflat,rfl⟩,hg⟩
  | read h count =>
    have hn : (if s.file.size ≤ s.pos h then 0 else min count (s.file.size-s.pos h)) =
        min count (s.file.size-s.pos h) := by
      split <;> omega
    refine ⟨_,rfl,⟨rfl,?_⟩,hf⟩
    simp only [hn,hf.flat,Flat.read,length_map,length_range,and_self]
  | lseek h offset whence =>
    rw [step]
    cases hsought : s.sought h offset whence with
    | none => exact ⟨_,rfl,⟨rfl,by rw [hsought]; exact ⟨rfl,rfl⟩⟩,hf⟩
    | some p => exact ⟨_,rfl,⟨rfl,by rw [hsought]; exact ⟨Int.toNat_eq_max p,rfl⟩⟩,hf⟩
  | truncate length luck =>
    rw [step]
    by_cases hneg : length < 0
    · rw [File.truncate,if_pos hneg]
      exact ⟨_,rfl,⟨rfl,.inl ⟨rfl,.inl hneg,rfl⟩⟩,hf⟩
    rcases hf.truncate luck (Int.not_lt.mp hneg) hsmall with ⟨hl,hw⟩ | ⟨g,hw,hflat,hg⟩
    · rw [hw]
      exact ⟨_,rfl,⟨rfl,.inl ⟨rfl,.inr hl,rfl⟩⟩,hf⟩
    · rw [hw]
      exact ⟨_,rfl,⟨rfl,.inr ⟨rfl,Int.not_lt.mp hneg,hflat⟩⟩,hg⟩

/-- With small positions and sizes every call on a new file returns with exactly its effect. -/
theorem calls_exact (es : List Event) (h : Along step Small {} es) : Along step Exact {} es := by
  have hnew : File.Inv {} := ⟨⟨le_refl 0,by decide,rfl⟩,.inl rfl,by decide,fun _ _ => rfl⟩
  refine h.meets (I := fun s => s.file.Inv) (fun s e s' hf he hs => ?_) hnew fun s e hf he => ?_
  · obtain ⟨t,ht,-,hi⟩ := step_effect hf he
    rw [hs] at ht
    cases ht
    exact hi
  · obtain ⟨t,ht,heff,hi⟩ := step_effect hf he
    exact ⟨t,ht,heff,hi.size_le⟩

/-- A file is written and cut short. -/
theorem calls_exact_cut : Along step Exact {} [.write 0 (fun _ => 7) 3 true,.truncate 1 true] :=
  calls_exact _ (.cons (show 0+3 < 2^31 by decide) rfl
    (.cons (show (1 : Int) < 2^31 by decide) rfl trivial))

end

end Lariat.Vfs.Ramfs
