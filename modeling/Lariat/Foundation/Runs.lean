import Mathlib.Data.List.Basic

/-! Finite runs of a partial step function. A step that faults ends its run. -/
namespace Lariat.Foundation.Runs

open Option

variable {σ ε : Type*}

/-- The state after an event list, when no step faults. -/
def exec (step : σ → ε → Option σ) : σ → List ε → Option σ
  | s, [] => some s
  | s, e :: es => (step s e).bind fun s' => exec step s' es

/-- The predicate holds in every state the run visits, its first and last included. -/
def Always (step : σ → ε → Option σ) (p : σ → Prop) : σ → List ε → Prop
  | s, [] => p s
  | s, e :: es => p s ∧ ∀ s', step s e = some s' → Always step p s' es

/-- Every step the run takes meets the guard in the state before it. -/
def Along (step : σ → ε → Option σ) (g : σ → ε → Prop) : σ → List ε → Prop
  | _, [] => True
  | s, e :: es => g s e ∧ ∀ s', step s e = some s' → Along step g s' es

variable {step : σ → ε → Option σ} {I p : σ → Prop} {g : σ → ε → Prop} {a : ε → Prop}

@[simp] theorem exec_nil (s : σ) : exec step s [] = some s := rfl

theorem exec_cons (s : σ) (e : ε) (es : List ε) :
    exec step s (e :: es) = (step s e).bind fun s' => exec step s' es := rfl

theorem exec_append (s : σ) (es fs : List ε) :
    exec step s (es ++ fs) = (exec step s es).bind fun m => exec step m fs := by
  induction es generalizing s with
  | nil => rfl
  | cons e es ih => simp only [List.cons_append,exec_cons,ih,bind_assoc]

variable {es : List ε} {s t : σ} {g' : σ → ε → Prop}

theorem Along.of_mem (ha : ∀ e ∈ es, a e) (s : σ) : Along step (fun _ e => a e) s es := by
  induction es generalizing s with
  | nil => trivial
  | cons e es ih =>
    obtain ⟨ha1,ha2⟩ := List.forall_mem_cons.mp ha
    exact ⟨ha1,fun s' _ => ih ha2 s'⟩

theorem Along.cons {m : σ} {e : ε} (hg : g s e) (h : step s e = some m) (hm : Along step g m es) :
    Along step g s (e :: es) :=
  ⟨hg,fun s' h' => by rw [h] at h'; cases h'; exact hm⟩

theorem Along.and (h : Along step g s es) (h' : Along step g' s es) :
    Along step (fun s e => g s e ∧ g' s e) s es := by
  induction es generalizing s with
  | nil => trivial
  | cons e es ih => exact ⟨⟨h.1,h'.1⟩,fun s' hs => ih (h.2 s' hs) (h'.2 s' hs)⟩

/-- Guarded runs keep whatever follows from an inductive invariant. -/
theorem always_of_along (imp : ∀ s, I s → p s)
    (keep : ∀ s e s', I s → g s e → step s e = some s' → I s')
    (s : σ) (es : List ε) (hs : I s) (hg : Along step g s es) : Always step p s es := by
  induction es generalizing s with
  | nil => exact imp s hs
  | cons e es ih => exact ⟨imp s hs,fun s' h => ih s' (keep s e s' hs hg.1 h) (hg.2 s' h)⟩

/-- An invariant that the events of a run keep holds where the run ends. -/
theorem exec_keeps (keep : ∀ s e s', I s → a e → step s e = some s' → I s') {s t : σ}
    {es : List ε} (hs : I s) (ha : ∀ e ∈ es, a e) (h : exec step s es = some t) : I t := by
  induction es generalizing s with
  | nil => cases h; exact hs
  | cons e es ih =>
    obtain ⟨ha1,ha2⟩ := List.forall_mem_cons.mp ha
    obtain ⟨m,hm,ht⟩ := bind_eq_some_iff.mp h
    exact ih (keep s e m hs ha1 hm) ha2 ht

/-- When every unguarded step visibly breaks `p`, the guarded runs are exactly
those that keep it. The invariant that carries the runs may say more than `p`. -/
theorem always_iff_along (imp : ∀ s, I s → p s)
    (keep : ∀ s e s', I s → g s e → step s e = some s' → I s')
    (brk : ∀ s e, I s → ¬ g s e → ∃ s', step s e = some s' ∧ ¬ p s')
    (s : σ) (es : List ε) (hs : I s) : Always step p s es ↔ Along step g s es := by
  induction es generalizing s with
  | nil => exact ⟨fun _ => trivial,fun _ => imp s hs⟩
  | cons e es ih =>
    constructor
    · intro ha
      have hg : g s e := by
        by_contra hn
        obtain ⟨s',h',hbad⟩ := brk s e hs hn
        cases es with
        | nil => exact hbad (ha.2 s' h')
        | cons e' es => exact hbad (ha.2 s' h').1
      exact ⟨hg,fun s' h => (ih s' (keep s e s' hs hg h)).mp (ha.2 s' h)⟩
    · intro hg
      exact ⟨imp s hs,fun s' h => (ih s' (keep s e s' hs hg.1 h)).mpr (hg.2 s' h)⟩

theorem Always.last (h : Always step p s es) (he : exec step s es = some t) : p t := by
  induction es generalizing s with
  | nil => cases he; exact h
  | cons e es ih =>
    obtain ⟨m,hm,ht⟩ := bind_eq_some_iff.mp he
    exact ih (h.2 m hm) ht

section

variable (hg : Along step g s es) (keep : ∀ s e s', I s → g s e → step s e = some s' → I s')
  (hs : I s)
include hg keep hs

theorem Along.keeps (he : exec step s es = some t) : I t :=
  (always_of_along (fun _ h => h) keep s es hs hg).last he

/-- What guarded steps from the invariant meet is met all along a guarded run. -/
theorem Along.meets (meet : ∀ s e, I s → g s e → g' s e) : Along step g' s es := by
  induction es generalizing s with
  | nil => trivial
  | cons e es ih => exact ⟨meet s e hs hg.1,fun s' h => ih (hg.2 s' h) (keep s e s' hs hg.1 h)⟩

end

/-- Guards that agree wherever the invariant holds are met along the same runs. -/
theorem Along.congr (keep : ∀ s e s', I s → step s e = some s' → I s')
    (agree : ∀ s e, I s → (g s e ↔ g' s e)) (hs : I s) :
    Along step g s es ↔ Along step g' s es := by
  induction es generalizing s with
  | nil => exact Iff.rfl
  | cons e es ih =>
    exact and_congr (agree s e hs) (forall₂_congr fun s' h => ih (keep s e s' hs h))

theorem Along.after {m : σ} {fs : List ε} (h : Along step g s (es ++ fs))
    (he : exec step s es = some m) : Along step g m fs := by
  induction es generalizing s with
  | nil => cases he; exact h
  | cons e es ih =>
    obtain ⟨s',hs,he⟩ := bind_eq_some_iff.mp he
    exact ih (h.2 s' hs) he

/-- A guarded run does not get stuck where guarded steps from the invariant succeed. -/
theorem Along.completes (hg : Along step g s es) (hs : I s)
    (next : ∀ s e, I s → g s e → ∃ s', step s e = some s' ∧ I s') :
    ∃ t, exec step s es = some t := by
  induction es generalizing s with
  | nil => exact ⟨s,rfl⟩
  | cons e es ih =>
    obtain ⟨s',h1,h2⟩ := next s e hs hg.1
    obtain ⟨t,ht⟩ := ih (hg.2 s' h1) h2
    exact ⟨t,by rw [exec_cons,h1]; exact ht⟩

end Lariat.Foundation.Runs
