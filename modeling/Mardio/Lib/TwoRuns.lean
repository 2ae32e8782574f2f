import Mathlib

/-!
Two runs of one machine, with and without the operations of another party. What a
party sees are the results of its own operations.
-/

set_option autoImplicit false

namespace TwoRuns

def seen {σ α β : Type} (step : σ → α → β × σ) (own : α → Bool) : σ → List α → List β
  | _, [] => []
  | s, a :: as =>
      if own a then (step s a).1 :: seen step own (step s a).2 as else seen step own (step s a).2 as

/-- The unwinding rule: when the operations of others keep a relation to the run
without them, and own operations answer alike in related states and keep it too, both
runs are seen alike. -/
theorem seen_filter {σ α β : Type} {step : σ → α → β × σ} {own : α → Bool} {I : σ → Prop}
    {R : σ → σ → Prop} (hI : ∀ s a, I s → I (step s a).2)
    (hown : ∀ s t a, I s → R s t → own a = true →
      (step s a).1 = (step t a).1 ∧ R (step s a).2 (step t a).2)
    (hother : ∀ s t a, I s → R s t → own a = false → R (step s a).2 t)
    (as : List α) (s t : σ) (hs : I s) (hr : R s t) :
    seen step own s as = seen step own t (as.filter own) := by
  induction as generalizing s t with
  | nil => rfl
  | cons a as ih =>
    cases ha : own a with
    | true =>
      obtain ⟨heq,hr'⟩ := hown s t a hs hr ha
      simp only [List.filter_cons,seen,ha,if_true,heq]
      rw [ih _ _ (hI s a hs) hr']
    | false =>
      simp only [List.filter_cons,seen,ha,Bool.false_eq_true,if_false]
      exact ih _ _ (hI s a hs) (hother s t a hs hr ha)

end TwoRuns
