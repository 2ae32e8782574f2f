import Mathlib

/-!
Runs of a machine given by a partial step function. A step without a result is
a call that does not return, so a run never continues past it. The conditions
on runs are stated on the state before a step, and every rule below is proved
once by induction on the run.
-/

set_option autoImplicit false

namespace Runs

/-- The states reached from `init` by steps that each meet `ok` in the state
they are taken in. -/
inductive Reach {σ α : Type} (step : σ → α → Option σ) (ok : σ → α → Prop) (init : σ) :
    σ → Prop where
  | start : Reach step ok init init
  | next {s t : σ} {a : α} : Reach step ok init s → ok s a → step s a = some t →
      Reach step ok init t

theorem Reach.invariant {σ α : Type} {step : σ → α → Option σ} {ok : σ → α → Prop}
    {init : σ} {I : σ → Prop} (h0 : I init)
    (hs : ∀ s a t, I s → ok s a → step s a = some t → I t)
    {s : σ} (h : Reach step ok init s) : I s := by
  induction h with
  | start => exact h0
  | next _ hok hstep ih => exact hs _ _ _ ih hok hstep

/-- `P` holds in every state of the run, the first and the last included. -/
def Always {σ α : Type} (step : σ → α → Option σ) (P : σ → Prop) : σ → List α → Prop
  | s, [] => P s
  | s, a :: as => P s ∧ ∀ t, step s a = some t → Always step P t as

/-- Every step of the run meets `ok` in the state it is taken in. -/
def Guarded {σ α : Type} (step : σ → α → Option σ) (ok : σ → α → Prop) : σ → List α → Prop
  | _, [] => True
  | s, a :: as => ok s a ∧ ∀ t, step s a = some t → Guarded step ok t as

instance decidableGuarded {σ α : Type} (step : σ → α → Option σ) (ok : σ → α → Prop)
    [∀ s a, Decidable (ok s a)] : (s : σ) → (as : List α) → Decidable (Guarded step ok s as)
  | _, [] => isTrue trivial
  | s, a :: as =>
      match h : step s a with
      | none => decidable_of_iff (ok s a) (by simp [Guarded,h])
      | some t =>
          have := decidableGuarded step ok t as
          decidable_of_iff (ok s a ∧ Guarded step ok t as) (by simp [Guarded,h])

instance decidableAlways {σ α : Type} (step : σ → α → Option σ) (P : σ → Prop)
    [∀ s, Decidable (P s)] : (s : σ) → (as : List α) → Decidable (Always step P s as)
  | s, [] => inferInstanceAs (Decidable (P s))
  | s, a :: as =>
      match h : step s a with
      | none => decidable_of_iff (P s) (by simp [Always,h])
      | some t =>
          have := decidableAlways step P t as
          decidable_of_iff (P s ∧ Always step P t as) (by simp [Always,h])

theorem always_of_guarded {σ α : Type} {step : σ → α → Option σ} {ok : σ → α → Prop}
    {I P : σ → Prop} (hP : ∀ s, I s → P s)
    (hs : ∀ s a t, I s → ok s a → step s a = some t → I t)
    (as : List α) (s : σ) (hI : I s) (hg : Guarded step ok s as) : Always step P s as := by
  induction as generalizing s with
  | nil => exact hP s hI
  | cons a as ih => exact ⟨hP s hI,fun t ht => ih t (hs s a t hI hg.1 ht) (hg.2 t ht)⟩

theorem always_of_invariant {σ α : Type} {step : σ → α → Option σ} {I P : σ → Prop}
    (hP : ∀ s, I s → P s) (hs : ∀ s a t, I s → step s a = some t → I t)
    (as : List α) (s : σ) (hI : I s) : Always step P s as := by
  induction as generalizing s with
  | nil => exact hP s hI
  | cons a as ih => exact ⟨hP s hI,fun t ht => ih t (hs s a t hI ht)⟩

theorem Always.head {σ α : Type} {step : σ → α → Option σ} {P : σ → Prop} {s : σ} {as : List α}
    (h : Always step P s as) : P s := by
  cases as with
  | nil => exact h
  | cons a as => exact h.1

/-- When a step outside the condition leads out of `P` at once, the condition is
exact: among the runs that keep an assumption, those that stay in `P` are those whose
steps all meet it. -/
theorem always_iff_guarded_under {σ α : Type} {step : σ → α → Option σ} {asm ok : σ → α → Prop}
    {I P : σ → Prop} (hP : ∀ s, I s → P s)
    (hs : ∀ s a t, I s → asm s a → ok s a → step s a = some t → I t)
    (hbad : ∀ s a, I s → asm s a → ¬ ok s a → ∃ t, step s a = some t ∧ ¬ P t)
    (as : List α) (s : σ) (hI : I s) (hasm : Guarded step asm s as) :
    Always step P s as ↔ Guarded step ok s as := by
  induction as generalizing s with
  | nil => exact ⟨fun _ => trivial,fun _ => hP s hI⟩
  | cons a as ih =>
    by_cases hok : ok s a
    · have hrest : ∀ t, step s a = some t → (Always step P t as ↔ Guarded step ok t as) :=
        fun t ht => ih t (hs s a t hI hasm.1 hok ht) (hasm.2 t ht)
      exact ⟨fun h => ⟨hok,fun t ht => (hrest t ht).mp (h.2 t ht)⟩,
        fun h => ⟨hP s hI,fun t ht => (hrest t ht).mpr (h.2 t ht)⟩⟩
    · obtain ⟨t,ht,hn⟩ := hbad s a hI hasm.1 hok
      exact iff_of_false (fun h => hn (h.2 t ht).head) (fun h => hok h.1)

theorem guarded_true {σ α : Type} {step : σ → α → Option σ} (as : List α) (s : σ) :
    Guarded step (fun _ _ => True) s as := by
  induction as generalizing s with
  | nil => trivial
  | cons a as ih => exact ⟨trivial,fun t _ => ih t⟩

theorem always_iff_guarded {σ α : Type} {step : σ → α → Option σ} {ok : σ → α → Prop}
    {I P : σ → Prop} (hP : ∀ s, I s → P s)
    (hs : ∀ s a t, I s → ok s a → step s a = some t → I t)
    (hbad : ∀ s a, I s → ¬ ok s a → ∃ t, step s a = some t ∧ ¬ P t)
    (as : List α) (s : σ) (hI : I s) : Always step P s as ↔ Guarded step ok s as :=
  always_iff_guarded_under hP (fun s a t h _ => hs s a t h) (fun s a h _ => hbad s a h) as s hI
    (guarded_true as s)

theorem guarded_and {σ α : Type} {step : σ → α → Option σ} {ok ok' : σ → α → Prop} (as : List α)
    (s : σ) :
    Guarded step (fun s a => ok s a ∧ ok' s a) s as ↔
      Guarded step ok s as ∧ Guarded step ok' s as := by
  induction as generalizing s with
  | nil => simp [Guarded]
  | cons a as ih =>
    simp only [Guarded,ih]
    grind

/-- A machine that takes fewer of the steps has fewer of them to guard. -/
theorem Guarded.restrict {σ α : Type} {step step' : σ → α → Option σ} {ok : σ → α → Prop}
    (hstep : ∀ s a t, step s a = some t → step' s a = some t) {as : List α} {s : σ}
    (hg : Guarded step' ok s as) : Guarded step ok s as := by
  induction as generalizing s with
  | nil => trivial
  | cons a as ih => exact ⟨hg.1,fun t ht => ih (hg.2 t (hstep s a t ht))⟩

/-- A bound on a counter that some operations advance is a bound on their number. -/
theorem guarded_count_iff {σ α : Type} {step : σ → α → Option σ} (count : σ → Nat) {p : α → Bool}
    (htotal : ∀ s a, ∃ t, step s a = some t)
    (hstep : ∀ s a t, step s a = some t → count t = count s+(p a).toNat)
    (bound : Nat) (as : List α) (s : σ) (hs : count s < bound) :
    Guarded step (fun s a => p a = true → count s+1 < bound) s as ↔
      count s+as.countP p < bound := by
  induction as generalizing s with
  | nil => simpa [Guarded] using hs
  | cons a as ih =>
    obtain ⟨t,ht⟩ := htotal s a
    have hcount := hstep s a t ht
    simp only [Guarded,ht,Option.some.injEq,forall_eq',List.countP_cons]
    cases ha : p a with
    | true =>
      simp only [ha,Bool.toNat_true] at hcount
      by_cases hlt : count s+1 < bound
      · rw [ih t (by omega)]
        simp only [hlt,if_true,imp_self,true_and]
        omega
      · simp only [hlt,if_true,imp_false]
        constructor
        · rintro ⟨hn,-⟩
          exact absurd trivial hn
        · omega
    | false =>
      simp only [ha,Bool.toNat_false] at hcount
      rw [ih t (by omega)]
      simp [hcount]

/-- A reader of the inputs alone gets to the end of them. -/
def Accepts {φ α : Type} (read : φ → α → Option φ) : φ → List α → Prop
  | _, [] => True
  | p, a :: as => ∃ q, read p a = some q ∧ Accepts read q as

/-- When the reader goes on exactly at the steps that stay in `P`, the runs that do
are those whose inputs it accepts. -/
theorem always_iff_accepts {σ α φ : Type} {step : σ → α → Option σ} {read : φ → α → Option φ}
    {I : φ → σ → Prop} {P : σ → Prop} (hP : ∀ p s, I p s → P s)
    (hs : ∀ p s a q, I p s → read p a = some q → ∃ t, step s a = some t ∧ I q t)
    (hbad : ∀ p s a, I p s → read p a = none → ∃ t, step s a = some t ∧ ¬ P t)
    (as : List α) (p : φ) (s : σ) (hI : I p s) : Always step P s as ↔ Accepts read p as := by
  induction as generalizing p s with
  | nil => exact ⟨fun _ => trivial,fun _ => hP p s hI⟩
  | cons a as ih =>
    cases hr : read p a with
    | some q =>
      obtain ⟨t,ht,hq⟩ := hs p s a q hI hr
      simp [Always,Accepts,hP p s hI,ht,hr,ih q t hq]
    | none =>
      obtain ⟨t,ht,hn⟩ := hbad p s a hI hr
      -- whatever follows, the run has already left `P`
      have hleft : ¬ Always step P t as := fun h => hn h.head
      simp [Always,Accepts,ht,hr,hleft]

end Runs
