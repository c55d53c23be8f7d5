import Mathlib.Order.Basic

/-! One upward pass over a set of numbers that grows while the pass is paused: what
it meets, and what arrives behind it and is left. -/
namespace Lariat.Foundation.Sweep

/-- What the pass does with an element it meets. -/
inductive Act where
  | skip
  | pause
  | quit
  deriving DecidableEq, Repr

variable (act : Nat → Act) (arr : Nat → Nat → Bool)

/-- Visit `n` numbers from `a` on. An element met is removed; a pause at `a` adds the
arrivals `arr a`; the first `quit` ends the pass. -/
def sweep : Nat → Nat → (Nat → Bool) → Except Nat (Nat → Bool)
  | 0, _, P => .ok P
  | n+1, a, P =>
    if P a then
      match act a with
      | .skip => sweep n (a+1) fun k => P k && k != a
      | .pause => sweep n (a+1) fun k => P k && k != a || arr a k
      | .quit => .error a
    else sweep n (a+1) P

/-- The elements that a pass from `a` on meets if nothing ends it. -/
inductive Due (a : Nat) (P : Nat → Bool) : Nat → Prop where
  | here {k : Nat} : a ≤ k → P k → Due a P k
  | arrives {m k : Nat} : Due a P m → act m = .pause → m < k → arr m k → Due a P k

variable {act arr} {a k n : Nat} {P Q : Nat → Bool}

theorem Due.le (h : Due act arr a P k) : a ≤ k := by
  induction h with
  | here ha _ => exact ha
  | arrives _ _ hlt _ ih => omega

/-- Only the element itself can make the first position due. -/
theorem due_self : Due act arr a P a ↔ P a := by
  constructor
  · intro h
    cases h with
    | here _ hp => exact hp
    | arrives hm _ hlt _ => exact absurd hm.le (by omega)
  · exact fun h => .here (Nat.le_refl a) h

/-- A pass that has dealt with `a` meets the same elements above it, when the set it
goes on with is the old one and what a pause at `a` has added. -/
theorem due_succ {P' : Nat → Bool}
    (h : ∀ k, a < k → (P' k ↔ P k ∨ P a ∧ act a = .pause ∧ arr a k)) (hk : a < k) :
    Due act arr (a+1) P' k ↔ Due act arr a P k := by
  constructor
  · intro hd
    clear hk
    induction hd with
    | here ha hp =>
      rcases (h _ ha).mp hp with hp | ⟨hpa,hs,hr⟩
      · exact .here (by omega) hp
      · exact .arrives (due_self.mpr hpa) hs ha hr
    | arrives _ hs hlt hr ih => exact .arrives ih hs hlt hr
  · intro hd
    induction hd with
    | here _ hp => exact .here hk ((h _ hk).mpr (.inl hp))
    | @arrives m k hm hs hlt hr ih =>
      rcases Nat.lt_or_ge a m with hlt' | hge
      · exact .arrives (ih hlt') hs hlt hr
      · obtain rfl : m = a := Nat.le_antisymm hge hm.le
        exact .here hk ((h _ hk).mpr (.inr ⟨due_self.mp hm,hs,hr⟩))

/-- The set after the position `a` has been dealt with. -/
def after (act : Nat → Act) (arr : Nat → Nat → Bool) (P : Nat → Bool) (a k : Nat) : Bool :=
  P k && k != a || P a && decide (act a = .pause) && arr a k

theorem sweep_succ : sweep act arr (n+1) a P =
    if P a ∧ act a = .quit then .error a else sweep act arr n (a+1) (after act arr P a) := by
  rw [sweep]
  cases hp : P a with
  | false =>
    have he : after act arr P a = P := by
      funext k
      by_cases hk : k = a
      · simp [after,hk,hp]
      · simp [after,hk,hp]
    simp [he]
  | true =>
    cases hs : act a with
    | skip =>
      have he : after act arr P a = fun k => P k && k != a := by
        funext k
        simp [after,hp,hs]
      simp [he]
    | pause =>
      have he : after act arr P a = fun k => P k && k != a || arr a k := by
        funext k
        simp [after,hp,hs]
      simp [he]
    | quit => simp

theorem after_of_lt (hk : a < k) :
    after act arr P a k ↔ P k ∨ P a ∧ act a = .pause ∧ arr a k := by
  simp [after,Nat.ne_of_gt hk,and_assoc]

theorem sweep_empty : sweep act arr n a (fun _ => false) = .ok fun _ => false := by
  induction n generalizing a with
  | zero => rfl
  | succ n ih => exact ih

/-- The pass is ended by the first due element that quits. -/
theorem sweep_eq_error {q : Nat} (h : sweep act arr n a P = .error q) :
    q < a+n ∧ Due act arr a P q ∧ act q = .quit ∧
      ∀ k, Due act arr a P k → act k = .quit → q ≤ k := by
  induction n generalizing a P with
  | zero => cases h
  | succ n ih =>
    rw [sweep_succ] at h
    split_ifs at h with hq
    · cases h
      exact ⟨by omega,due_self.mpr hq.1,hq.2,fun k hk _ => hk.le⟩
    obtain ⟨h1,h2,h3,h4⟩ := ih h
    refine ⟨by omega,(due_succ (fun _ => after_of_lt) h2.le).mp h2,h3,fun k hk hs => ?_⟩
    rcases Nat.eq_or_lt_of_le hk.le with rfl | hlt
    · exact absurd ⟨due_self.mp hk,hs⟩ hq
    · exact h4 k ((due_succ (fun _ => after_of_lt) hlt).mpr hk) hs

/-- A pass that gets to its end met nothing that quits. -/
theorem sweep_eq_ok (h : sweep act arr n a P = .ok Q) (hk : k < a+n) (hd : Due act arr a P k) :
    act k ≠ .quit := by
  induction n generalizing a P with
  | zero => exact absurd hd.le (by omega)
  | succ n ih =>
    rw [sweep_succ] at h
    split_ifs at h with hq
    intro hs
    rcases Nat.eq_or_lt_of_le hd.le with rfl | hlt
    · exact hq ⟨due_self.mp hd,hs⟩
    · exact ih h (by omega) ((due_succ (fun _ => after_of_lt) hlt).mpr hd) hs

/-- What is left when the pass gets to its end: what it did not visit, and the
arrivals that came too late to be met. -/
def Left (act : Nat → Act) (arr : Nat → Nat → Bool) (n a : Nat) (P : Nat → Bool) (k : Nat) : Prop :=
  P k ∧ (k < a ∨ a+n ≤ k) ∨
    ∃ m, m < a+n ∧ Due act arr a P m ∧ act m = .pause ∧ arr m k ∧ (k ≤ m ∨ a+n ≤ k)

theorem sweep_left (h : sweep act arr n a P = .ok Q) (k : Nat) : Q k ↔ Left act arr n a P k := by
  induction n generalizing a P with
  | zero =>
    obtain rfl : P = Q := by simpa [sweep] using h
    constructor
    · exact fun hp => .inl ⟨hp,Nat.lt_or_ge k a⟩
    · rintro (⟨hp,_⟩ | ⟨m,hm,hd,_⟩)
      · exact hp
      · exact absurd hd.le (by omega)
  | succ n ih =>
    rw [sweep_succ] at h
    split_ifs at h with hq
    rw [ih h]
    have hdue : ∀ m, a < m → (Due act arr (a+1) (after act arr P a) m ↔ Due act arr a P m) :=
      fun m hm => due_succ (fun _ => after_of_lt) hm
    constructor
    · rintro (⟨hp,hk⟩ | ⟨m,hm,hd,hs,hr,hk⟩)
      · simp only [after,Bool.or_eq_true,Bool.and_eq_true,bne_iff_ne,decide_eq_true_eq] at hp
        rcases hp with ⟨hp,hne⟩ | ⟨⟨hpa,hs⟩,hr⟩
        · exact .inl ⟨hp,by omega⟩
        · exact .inr ⟨a,by omega,due_self.mpr hpa,hs,hr,by omega⟩
      · exact .inr ⟨m,by omega,(hdue m hd.le).mp hd,hs,hr,by omega⟩
    · rintro (⟨hp,hk⟩ | ⟨m,hm,hd,hs,hr,hk⟩)
      · exact .inl ⟨by simp [after,hp,show k ≠ a by omega],by omega⟩
      · rcases Nat.eq_or_lt_of_le hd.le with rfl | hlt
        · exact .inl ⟨by simp [after,due_self.mp hd,hs,hr],by omega⟩
        · exact .inr ⟨m,by omega,(hdue m hlt).mpr hd,hs,hr,by omega⟩

end Lariat.Foundation.Sweep
