import Mathlib

/-!
Occurrences of a pattern in a list that a separator cuts in two.
-/

set_option autoImplicit false

namespace Infix

variable {α : Type} {d : α}

theorem prefix_append_cons_iff {s : List α} (hd : d ∉ s) (a b : List α) :
    s <+: a ++ d :: b ↔ s <+: a := by
  refine ⟨fun h => ?_,fun h => h.trans (List.prefix_append a (d :: b))⟩
  induction a generalizing s with
  | nil =>
    cases s with
    | nil => exact List.nil_prefix
    | cons c s => exact absurd (by simp [(List.cons_prefix_cons.mp h).1]) hd
  | cons e a ih =>
    cases s with
    | nil => exact List.nil_prefix
    | cons c s =>
      obtain ⟨rfl,htail⟩ := List.cons_prefix_cons.mp h
      exact List.cons_prefix_cons.mpr ⟨rfl,ih (fun hm => hd (List.mem_cons_of_mem c hm)) htail⟩

/-- A pattern without the separator does not reach over it. -/
theorem infix_append_cons_iff {s : List α} (hd : d ∉ s) (a b : List α) :
    s <:+: a ++ d :: b ↔ s <:+: a ∨ s <:+: b := by
  induction a with
  | nil =>
    have hp := prefix_append_cons_iff hd [] b
    rw [List.nil_append] at hp ⊢
    rw [List.infix_cons_iff,hp,List.prefix_nil,List.infix_nil]
  | cons c a ih =>
    rw [List.cons_append,List.infix_cons_iff,ih,← List.cons_append,prefix_append_cons_iff hd,
      List.infix_cons_iff,or_assoc]

end Infix
