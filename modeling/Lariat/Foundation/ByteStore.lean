import Mathlib.Algebra.Ring.Nat
import Mathlib.Data.List.GetD
import Mathlib.Logic.Function.Basic

/-! Byte-addressed memory: putting bytes into it, little-endian numbers and terminated strings. -/
namespace Lariat.Foundation.ByteStore
open List Function

/-- The memory with `bs` put at `a`. -/
def put (m : Nat → UInt8) (a : Nat) (bs : List UInt8) : Nat → UInt8 :=
  fun x => if a ≤ x ∧ x < a + bs.length then bs.getD (x-a) 0 else m x

/-- The bytes `bs` stand at `a`. -/
def Stands (m : Nat → UInt8) (a : Nat) (bs : List UInt8) : Prop :=
  ∀ i < bs.length, m (a+i) = bs.getD i 0

/-- The `w` low bytes of a number, the lowest first. -/
def le : Nat → Nat → List UInt8
  | 0, _ => []
  | w+1, n => UInt8.ofNat n :: le w (n / 256)

/-- The number in the `w` bytes at `a`. -/
def val (m : Nat → UInt8) : Nat → Nat → Nat
  | 0, _ => 0
  | w+1, a => (m a).toNat + 256 * val m w (a+1)

/-- The string at `a`, up to its terminator. -/
def string (m : Nat → UInt8) : Nat → Nat → List UInt8
  | 0, _ => []
  | n+1, a => if m a = 0 then [] else m a :: string m n (a+1)

variable {m m' : Nat → UInt8} {a b x : Nat} {bs cs : List UInt8}

theorem put_outside (h : x < a ∨ a+bs.length ≤ x) : put m a bs x = m x := by
  rw [put,if_neg]
  omega

theorem put_stands (m : Nat → UInt8) (a : Nat) (bs : List UInt8) : Stands (put m a bs) a bs := by
  intro i hi
  rw [put,if_pos ⟨Nat.le_add_right a i,Nat.add_lt_add_left hi a⟩,Nat.add_sub_cancel_left]

theorem put_nil (m : Nat → UInt8) (a : Nat) : put m a [] = m := by
  funext x
  exact put_outside (by rw [length_nil]; omega)

theorem put_cons (m : Nat → UInt8) (a : Nat) (c : UInt8) (bs : List UInt8) :
    put m a (c :: bs) = put (update m a c) (a+1) bs := by
  funext x
  rcases lt_trichotomy x a with hlt | rfl | hgt
  · rw [put_outside (Or.inl hlt),put_outside (Or.inl (by omega)),
      update_of_ne (ne_of_lt hlt)]
  · rw [put,if_pos ⟨Nat.le_refl x,by rw [length_cons]; omega⟩,Nat.sub_self,
      put_outside (Or.inl (Nat.lt_succ_self x)),update_self,getD_cons_zero]
  · obtain ⟨d,rfl⟩ : ∃ d, x = a+1 + d := ⟨x - (a+1),by omega⟩
    by_cases hd : d < bs.length
    · rw [put,put,if_pos ⟨by omega,by rw [length_cons]; omega⟩,if_pos ⟨by omega,by omega⟩,
        show a + 1+d - a = d + 1 by omega,Nat.add_sub_cancel_left,getD_cons_succ]
    · rw [put_outside (Or.inr (by rw [length_cons]; omega)),put_outside (Or.inr (by omega)),
        update_of_ne (by omega)]

theorem Stands.congr (h : Stands m a bs) (heq : ∀ i < bs.length, m' (a+i) = m (a+i)) :
    Stands m' a bs :=
  fun i hi => (heq i hi).trans (h i hi)

theorem stands_append :
    Stands m a (bs ++ cs) ↔ Stands m a bs ∧ Stands m (a+bs.length) cs := by
  constructor
  · intro h
    refine ⟨fun i hi => ?_,fun i hi => ?_⟩
    · rw [h i (by rw [length_append]; omega),getD_append _ _ _ _ hi]
    · rw [add_assoc,h (bs.length+i) (by rw [length_append]; omega),
        getD_append_right _ _ _ _ (Nat.le_add_right _ i),Nat.add_sub_cancel_left]
  · rintro ⟨h,h'⟩ i hi
    rw [length_append] at hi
    by_cases hlt : i < bs.length
    · rw [h i hlt,getD_append _ _ _ _ hlt]
    · rw [getD_append_right _ _ _ _ (Nat.le_of_not_lt hlt),← h' _ (by omega),
        show a + bs.length + (i-bs.length) = a + i by omega]

theorem stands_cons {c : UInt8} : Stands m a (c :: bs) ↔ m a = c ∧ Stands m (a+1) bs := by
  have hone : Stands m a [c] ↔ m a = c := by
    constructor
    · intro h
      exact h 0 Nat.one_pos
    · intro h i hi
      obtain rfl : i = 0 := by rw [length_singleton] at hi; omega
      exact h
  rw [← singleton_append,stands_append,hone,length_singleton]

@[simp] theorem length_le (w n : Nat) : (le w n).length = w := by
  induction w generalizing n with
  | zero => rfl
  | succ w ih => rw [le,length_cons,ih]

/-- Decoding a number undoes encoding it, up to its width. -/
theorem Stands.val {w n : Nat} (h : Stands m a (le w n)) : ByteStore.val m w a = n % 256 ^ w := by
  induction w generalizing a n with
  | zero => rw [ByteStore.val,Nat.pow_zero,Nat.mod_one]
  | succ w ih =>
    obtain ⟨h0,h1⟩ := stands_cons.mp h
    rw [ByteStore.val,h0,ih h1,Nat.pow_succ,Nat.mul_comm (256 ^ w),Nat.mod_mul]
    rfl

theorem val_congr {w : Nat} (h : ∀ i < w, m' (b+i) = m (a+i)) : val m' w b = val m w a := by
  induction w generalizing a b with
  | zero => rfl
  | succ w ih =>
    have h0 : m' b = m a := h 0 (Nat.succ_pos w)
    rw [val,val,h0,ih fun i hi => ?_]
    rw [add_assoc,add_assoc,add_comm 1]
    exact h (i+1) (Nat.succ_lt_succ hi)

theorem val_lt (m : Nat → UInt8) (w a : Nat) : val m w a < 256 ^ w := by
  induction w generalizing a with
  | zero => exact Nat.one_pos
  | succ w ih =>
    have hb := (m a).toNat_lt
    have hrest := ih (a+1)
    rw [val,pow_succ]
    omega

theorem Stands.string {n : Nat} (h : Stands m a (bs ++ [0])) (h0 : ∀ c ∈ bs, c ≠ 0)
    (hn : bs.length < n) : ByteStore.string m n a = bs := by
  induction bs generalizing a n with
  | nil =>
    obtain ⟨n,rfl⟩ := Nat.exists_eq_succ_of_ne_zero (Nat.ne_of_gt hn)
    rw [ByteStore.string,if_pos (stands_cons.mp h).1]
  | cons c bs ih =>
    obtain ⟨n,rfl⟩ := Nat.exists_eq_succ_of_ne_zero (Nat.ne_zero_of_lt hn)
    obtain ⟨hc,hbs⟩ := stands_cons.mp h
    rw [ByteStore.string,hc,if_neg (h0 c mem_cons_self),
      ih hbs (fun d hd => h0 d (mem_cons_of_mem c hd)) (Nat.lt_of_succ_lt_succ hn)]

section Words

/-- 64-bit words one after the other. -/
def words (ws : List Nat) : List UInt8 := ws.flatMap (le 8)

theorem length_words (ws : List Nat) : (words ws).length = 8 * ws.length := by
  induction ws with
  | nil => rfl
  | cons w ws ih =>
    rw [words,flatMap_cons,length_append,length_le,length_cons]
    rw [words] at ih
    omega

theorem stands_words_append {ws vs : List Nat} : Stands m a (words (ws ++ vs)) ↔
    Stands m a (words ws) ∧ Stands m (a+8 * ws.length) (words vs) := by
  rw [words,flatMap_append,stands_append,← length_words]
  rfl

theorem stands_words_cons {w : Nat} {ws : List Nat} : Stands m a (words (w :: ws)) ↔
    Stands m a (le 8 w) ∧ Stands m (a+8) (words ws) := by
  rw [words,flatMap_cons,stands_append,length_le]
  rfl

end Words

section Ranges

/-- Two ranges, each a start and a length, have no address in common. -/
def Apart (p q : Nat × Nat) : Prop := p.1+p.2 ≤ q.1 ∨ q.1+q.2 ≤ p.1

/-- Ranges within `[lo, hi)` no two of which meet. -/
structure Packed (lo hi : Nat) (rs : List (Nat × Nat)) : Prop where
  within : ∀ r ∈ rs, lo ≤ r.1 ∧ r.1+r.2 ≤ hi
  apart : rs.Pairwise Apart

variable {lo mid hi : Nat} {rs rs' : List (Nat × Nat)}

theorem Packed.nil (lo hi : Nat) : Packed lo hi [] := ⟨nofun,List.Pairwise.nil⟩

theorem Packed.append (h : Packed lo mid rs) (h' : Packed mid hi rs') (hlo : lo ≤ mid)
    (hhi : mid ≤ hi) : Packed lo hi (rs ++ rs') := by
  refine ⟨fun r hr => ?_,pairwise_append.mpr ⟨h.apart,h'.apart,fun r hr r' hr' => ?_⟩⟩
  · rcases mem_append.mp hr with hr | hr
    · exact ⟨(h.within r hr).1,le_trans (h.within r hr).2 hhi⟩
    · exact ⟨le_trans hlo (h'.within r hr).1,(h'.within r hr).2⟩
  · exact Or.inl (le_trans (h.within r hr).2 (h'.within r' hr').1)

theorem Packed.singleton {r : Nat × Nat} (hlo : lo ≤ r.1) (hhi : r.1 + r.2 ≤ hi) :
    Packed lo hi [r] :=
  ⟨fun _ hr => mem_singleton.mp hr ▸ ⟨hlo,hhi⟩,pairwise_singleton _ _⟩

theorem Packed.cons_below {r : Nat × Nat} (h : Packed lo hi rs) (hr : hi ≤ r.1) (hlo : lo ≤ hi) :
    Packed lo (r.1+r.2) (r :: rs) := by
  refine ⟨fun q hq => ?_,pairwise_cons.mpr ⟨fun q hq => ?_,h.apart⟩⟩
  · rcases mem_cons.mp hq with rfl | hq
    · exact ⟨le_trans hlo hr,le_refl _⟩
    · have := h.within q hq
      exact ⟨this.1,by omega⟩
  · exact Or.inr (le_trans (h.within q hq).2 hr)

end Ranges

end Lariat.Foundation.ByteStore
