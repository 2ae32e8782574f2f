import Mathlib

/-!
A store that is written call by call and read at one place. A call either sets what is
read there or leaves it alone, so after any number of calls the place holds what the
last one that concerns it has set.
-/

set_option autoImplicit false

namespace LastCall

/-- The last call that concerns the place. -/
def last {κ : Type} (concerns : κ → Bool) (calls : List κ) : Option κ :=
  calls.reverse.find? concerns

theorem last_concat {κ : Type} (concerns : κ → Bool) (calls : List κ) (k : κ) :
    last concerns (calls ++ [k]) = if concerns k then some k else last concerns calls := by
  cases hk : concerns k <;> simp [last,hk]

/-- What is read after a run. -/
theorem read_foldl {σ κ β : Type} {step : σ → κ → σ} (read : σ → β) {concerns : κ → Bool}
    {value : κ → β} (hset : ∀ s k, concerns k = true → read (step s k) = value k)
    (hkeep : ∀ s k, concerns k = false → read (step s k) = read s) (calls : List κ) (s : σ) :
    read (calls.foldl step s) = ((last concerns calls).map value).getD (read s) := by
  induction calls using List.reverseRecOn with
  | nil => rfl
  | append_singleton calls k ih =>
    rw [List.foldl_concat,last_concat]
    cases hk : concerns k with
    | true => simp [hset _ k hk]
    | false => simp [hkeep _ k hk,ih]

end LastCall
