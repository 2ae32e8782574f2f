import Mardio.Lib.Runs

/-!
Runs of one machine followed by runs of another. A step may be matched by any of
several steps, so the run that follows is chosen as the first one goes on.
-/

set_option autoImplicit false

namespace Simulation
open Runs
variable {σ τ α β : Type}

/-- The state after all operations, if each of them has a result. -/
def run (step : σ → α → Option σ) : σ → List α → Option σ
  | s, [] => some s
  | s, a :: as => (step s a).bind fun t => run step t as

/-- A run whose steps meet a condition under which every step has a result. -/
theorem run_of_guarded {step : σ → α → Option σ} {ok : σ → α → Prop} {I : σ → Prop}
    (hs : ∀ s a, I s → ok s a → ∃ t, step s a = some t ∧ I t) (as : List α) (s : σ) (hI : I s)
    (hg : Guarded step ok s as) : ∃ t, run step s as = some t ∧ I t := by
  induction as generalizing s with
  | nil => exact ⟨s,rfl,hI⟩
  | cons a as ih =>
    obtain ⟨t,ht,hIt⟩ := hs s a hI hg.1
    simpa [run,ht] using ih t hIt (hg.2 t ht)

theorem run_invariant {step : σ → α → Option σ} {ok : α → Prop} {I : σ → Prop}
    (hs : ∀ s a t, I s → ok a → step s a = some t → I t) (as : List α) (hok : ∀ a ∈ as, ok a)
    {s t : σ} (hI : I s) (h : run step s as = some t) : I t := by
  induction as generalizing s with
  | nil =>
    cases h
    exact hI
  | cons a as ih =>
    obtain ⟨u,hu,hrest⟩ := Option.bind_eq_some_iff.mp h
    have hIu := hs s a u hI (hok a List.mem_cons_self) hu
    exact ih (fun b hb => hok b (List.mem_cons_of_mem a hb)) hIu hrest

theorem run_follows {step : σ → α → Option σ} {step' : τ → β → Option τ} {M : α → β → Prop}
    {R : σ → τ → Prop} (hs : ∀ s a s' t, R s t → step s a = some s' →
      ∃ b t', M a b ∧ step' t b = some t' ∧ R s' t')
    (as : List α) {s s' : σ} {t : τ} (hR : R s t) (h : run step s as = some s') :
    ∃ bs t', List.Forall₂ M as bs ∧ run step' t bs = some t' ∧ R s' t' := by
  induction as generalizing s t with
  | nil =>
    cases h
    exact ⟨[],t,.nil,rfl,hR⟩
  | cons a as ih =>
    obtain ⟨u,hu,hrest⟩ := Option.bind_eq_some_iff.mp h
    obtain ⟨b,t1,hM,ht1,hR1⟩ := hs s a u t hR hu
    obtain ⟨bs,t',hMs,hrun,hR'⟩ := ih hR1 hrest
    exact ⟨b :: bs,t',.cons hM hMs,by simpa [run,ht1] using hrun,hR'⟩

end Simulation
