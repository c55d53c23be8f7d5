import Mathlib.Data.Nat.Init

/-! Serial numbers of 32 bits: places behind a base, and comparison by the sign of the difference.
-/
namespace Lariat.Foundation.Serial

/-- The number `n` places behind a base. -/
def nth (b : UInt32) (n : Nat) : UInt32 := b + UInt32.ofNat n

variable {b : UInt32} {m n : Nat}

@[simp] theorem nth_zero (b : UInt32) : nth b 0 = b := UInt32.add_zero b

theorem nth_add (b : UInt32) (m n : Nat) : nth b (m+n) = nth b m + UInt32.ofNat n := by
  rw [nth,nth,UInt32.ofNat_add,UInt32.add_assoc]

theorem nth_succ (b : UInt32) (n : Nat) : nth b (n+1) = nth b n + 1 := nth_add b n 1

theorem nth_nth (b : UInt32) (m n : Nat) : nth (nth b m) n = nth b (m+n) := (nth_add b m n).symm

theorem nth_base_succ (b : UInt32) (n : Nat) : nth (b+1) n = nth b (n+1) := by
  rw [Nat.add_comm,nth_add,nth]
  rfl

theorem nth_sub_base (b a : UInt32) : nth b (a-b).toNat = a := by
  rw [nth,UInt32.ofNat_toNat,UInt32.add_comm,UInt32.sub_add_cancel]

theorem nth_sub (h : n ≤ m) : nth b m - nth b n = UInt32.ofNat (m-n) := by
  obtain ⟨d,rfl⟩ := Nat.exists_eq_add_of_le h
  rw [nth_add,Nat.add_sub_cancel_left,UInt32.add_comm,UInt32.add_sub_cancel]

/-- The distance of two places less than 2^32 apart. -/
theorem toNat_nth_sub (h : n ≤ m) (hlt : m-n < 0x100000000) : (nth b m - nth b n).toNat = m-n := by
  rw [nth_sub h,UInt32.toNat_ofNat_of_lt' hlt]

theorem toNat_nth_sub_back (h : n < m) (hlt : m-n < 0x100000000) :
    (nth b n - nth b m).toNat = 0x100000000-(m-n) := by
  have hd := toNat_nth_sub (b := b) (Nat.le_of_lt h) hlt
  rw [UInt32.toNat_sub] at hd ⊢
  have h1 := (nth b m).toNat_lt
  have h2 := (nth b n).toNat_lt
  omega

theorem nth_inj (h1 : m < n+0x100000000) (h2 : n < m+0x100000000) : nth b m = nth b n ↔ m = n := by
  refine ⟨fun h => ?_,fun h => congrArg _ h⟩
  rcases Nat.lt_or_ge m n with hlt | hge
  · have hd := toNat_nth_sub (b := b) (Nat.le_of_lt hlt) (by omega)
    rw [h,UInt32.sub_self] at hd
    exact absurd hd.symm (Nat.sub_ne_zero_of_lt hlt)
  · have hd := toNat_nth_sub (b := b) hge (by omega)
    rw [h,UInt32.sub_self] at hd
    exact Nat.le_antisymm (Nat.sub_eq_zero_iff_le.mp hd.symm) hge

theorem neg_iff (d : UInt32) : d.toInt32 < 0 ↔ 0x80000000 ≤ d.toNat := by
  rw [Int32.lt_iff_toInt_lt]
  show d.toBitVec.toInt < 0 ↔ _
  have hlt := d.toNat_lt
  have heq : d.toBitVec.toNat = d.toNat := rfl
  rw [BitVec.toInt_eq_toNat_cond]
  split <;> omega

theorem toInt_nth_sub (h : n ≤ m) (hlt : m-n < 0x80000000) :
    (nth b m - nth b n).toInt32.toInt = (m-n : Nat) := by
  have hd := toNat_nth_sub (b := b) h (by omega)
  show (nth b m - nth b n).toBitVec.toInt = _
  rw [BitVec.toInt_eq_toNat_of_lt (by rw [UInt32.toNat_toBitVec]; omega),UInt32.toNat_toBitVec,hd]

theorem nonpos_iff (d : UInt32) : d.toInt32 ≤ 0 ↔ d.toNat = 0 ∨ 0x80000000 ≤ d.toNat := by
  rw [Int32.le_iff_toInt_le]
  show d.toBitVec.toInt ≤ 0 ↔ _
  have hlt := d.toNat_lt
  have heq : d.toBitVec.toNat = d.toNat := rfl
  rw [BitVec.toInt_eq_toNat_cond]
  split <;> omega

theorem pos_iff (d : UInt32) : 0 < d.toInt32 ↔ 0 < d.toNat ∧ d.toNat < 0x80000000 := by
  rw [← Int32.not_le,nonpos_iff]
  omega

/-- Places less than 2^31 apart compare as their numbers do. -/
theorem neg_nth_sub (h1 : m < n+0x80000000) (h2 : n < m+0x80000000) :
    (nth b m - nth b n).toInt32 < 0 ↔ m < n := by
  rw [neg_iff]
  rcases Nat.lt_or_ge m n with hlt | hge
  · rw [toNat_nth_sub_back hlt (by omega)]
    omega
  · rw [toNat_nth_sub hge (by omega)]
    omega

end Lariat.Foundation.Serial
