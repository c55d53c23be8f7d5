import Mathlib.Algebra.BigOperators.Group.List.Basic
import Mathlib.Algebra.Ring.Nat

/-! One's-complement sums of sixteen-bit words, and how the sum depends on the byte order. -/
namespace Lariat.Foundation.OnesComplement
open List

/-- Addition with the carry brought round. -/
def add (a b : Nat) : Nat := if a+b < 65536 then a+b else a+b-65535

def sum (words : List Nat) : Nat := words.foldl add 0

/-- The words of a byte sequence, most significant byte first. An odd byte is padded with zero. -/
def bigEndian : List UInt8 → List Nat
  | a :: b :: rest => (256*a.toNat+b.toNat) :: bigEndian rest
  | [a] => [256*a.toNat]
  | [] => []

def littleEndian : List UInt8 → List Nat
  | a :: b :: rest => (a.toNat+256*b.toNat) :: littleEndian rest
  | [a] => [a.toNat]
  | [] => []

/-- Carries are folded in until none is left. -/
def fold (s : Nat) : Nat := if s < 65536 then s else fold (s%65536+s/65536)
termination_by s
decreasing_by omega

/-- What folding may do to a sum. -/
theorem fold_spec (s : Nat) : fold s < 65536 ∧ fold s%65535 = s%65535 ∧ (fold s = 0 → s = 0) := by
  induction s using fold.induct with
  | case1 s hs =>
    rw [fold,if_pos hs]
    exact ⟨hs,rfl,id⟩
  | case2 s hs ih =>
    rw [fold,if_neg hs]
    obtain ⟨hlt,hmod,hzero⟩ := ih
    exact ⟨hlt,by omega,fun h => by have := hzero h; omega⟩

private theorem foldl_add {words : List Nat} (hw : ∀ w ∈ words, w < 65536) {a : Nat} (ha : a < 65536) :
    words.foldl add a < 65536 ∧ words.foldl add a%65535 = (a+words.sum)%65535 ∧
      (words.foldl add a = 0 → a+words.sum = 0) := by
  induction words generalizing a with
  | nil => exact ⟨ha,rfl,id⟩
  | cons w words ih =>
    obtain ⟨hlt,hrest⟩ := List.forall_mem_cons.mp hw
    have hadd : add a w < 65536 ∧ add a w%65535 = (a+w)%65535 ∧ (add a w = 0 → a+w = 0) := by
      rw [add]
      split <;> omega
    obtain ⟨hr,hmod,hzero⟩ := ih hrest hadd.1
    rw [foldl_cons,sum_cons]
    exact ⟨hr,by omega,fun h => by have := hzero h; omega⟩

theorem bigEndian_lt (bs : List UInt8) : ∀ w ∈ bigEndian bs, w < 65536 := by
  induction bs using bigEndian.induct with
  | case1 a b rest ih =>
    have ha := a.toNat_lt
    have hb := b.toNat_lt
    exact List.forall_mem_cons.mpr ⟨by omega,ih⟩
  | case2 a =>
    have ha := a.toNat_lt
    exact List.forall_mem_cons.mpr ⟨by omega,fun _ h => nomatch h⟩
  | case3 => exact fun _ h => nomatch h

/-- Swapping the bytes of every word multiplies the sum by 256. -/
theorem bigEndian_mod (bs : List UInt8) :
    (bigEndian bs).sum%65535 = 256*(littleEndian bs).sum%65535 ∧
      ((bigEndian bs).sum = 0 → (littleEndian bs).sum = 0) := by
  induction bs using bigEndian.induct with
  | case1 a b rest ih =>
    simp only [bigEndian,littleEndian,sum_cons]
    omega
  | case2 a =>
    simp only [bigEndian,littleEndian,sum_cons,sum_nil]
    omega
  | case3 => exact ⟨rfl,fun _ => rfl⟩

theorem littleEndian_append {bs : List UInt8} (h : 2 ∣ bs.length) (cs : List UInt8) :
    (littleEndian (bs ++ cs)).sum = (littleEndian bs).sum+(littleEndian cs).sum := by
  induction bs using littleEndian.induct with
  | case1 a b rest ih =>
    have hrest : 2 ∣ rest.length := (Nat.dvd_add_left (Nat.dvd_refl 2)).mp h
    simp only [cons_append,littleEndian,sum_cons,ih hrest]
    omega
  | case2 a => exact absurd (show 2 ∣ 1 from h) (by decide)
  | case3 => exact (Nat.zero_add _).symm

theorem littleEndian_le (bs : List UInt8) : (littleEndian bs).sum ≤ 65535*(bs.length/2+bs.length%2) := by
  induction bs using littleEndian.induct with
  | case1 a b rest ih =>
    have ha := a.toNat_lt
    have hb := b.toNat_lt
    simp only [littleEndian,sum_cons,length_cons]
    omega
  | case2 a =>
    have ha := a.toNat_lt
    simp only [littleEndian,sum_cons,sum_nil,length_cons,length_nil]
    omega
  | case3 => exact Nat.zero_le _

/-- It is enough to look at the words in the machine's order. -/
theorem sum_bigEndian {bs : List UInt8} (hmod : (littleEndian bs).sum%65535 = 0)
    (hpos : (littleEndian bs).sum ≠ 0) : sum (bigEndian bs) = 65535 := by
  obtain ⟨hlt,hsum,hzero⟩ := foldl_add (bigEndian_lt bs) (Nat.zero_lt_succ 65535)
  obtain ⟨hswap,hnz⟩ := bigEndian_mod bs
  have hne : sum (bigEndian bs) ≠ 0 := fun h => hpos (hnz (by have := hzero h; omega))
  rw [sum] at hne ⊢
  omega

end Lariat.Foundation.OnesComplement
