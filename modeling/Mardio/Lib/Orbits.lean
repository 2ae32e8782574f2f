import Mathlib

/-!
Orbits of a partial step function without inputs. Where finitely many states are
visited, the orbit ends exactly if it never comes back to a state.
-/

set_option autoImplicit false

namespace Orbits

variable {σ : Type} {f : σ → Option σ} {s t : σ}

/-- The state after `n` steps. -/
def orbit (f : σ → Option σ) : Nat → σ → Option σ
  | 0, s => some s
  | n+1, s => (f s).bind (orbit f n)

theorem orbit_add (f : σ → Option σ) (n k : Nat) (s : σ) :
    orbit f (n+k) s = (orbit f n s).bind (orbit f k) := by
  induction n generalizing s with
  | zero => simp [orbit]
  | succ n ih =>
    simp only [Nat.succ_add,orbit,ih,Option.bind_assoc]

/-- An orbit that comes back once goes round for ever. -/
theorem orbit_ne_none {n k : Nat} (hn : orbit f n s = some t) (hk : orbit f (k+1) t = some t)
    (j : Nat) :
    orbit f j s ≠ none := by
  have hround : ∀ r, orbit f (n+(k+1)*r) s = some t := by
    intro r
    induction r with
    | zero => exact hn
    | succ r ih => rw [Nat.mul_succ,← Nat.add_assoc,orbit_add,ih,Option.bind_some,hk]
  intro hj
  obtain ⟨d,hd⟩ : ∃ d, n+(k+1)*j = j+d := ⟨n+k*j,by ring⟩
  have hend := hround j
  rw [hd,orbit_add,hj] at hend
  cases hend

theorem orbit_ends_iff (hfin : {t | ∃ n, orbit f n s = some t}.Finite) :
    (∃ n, orbit f n s = none) ↔ ∀ n k t, orbit f n s = some t → orbit f (k+1) t ≠ some t := by
  constructor
  · rintro ⟨j,hj⟩ n k t hn hk
    exact orbit_ne_none hn hk j hj
  · intro hnew
    by_contra hends
    have hsome : ∀ n, ∃ t, orbit f n s = some t :=
      fun n => Option.ne_none_iff_exists'.mp fun h => hends ⟨n,h⟩
    choose visited hvisited using hsome
    have hmem : ∀ n, visited n ∈ {t | ∃ n, orbit f n s = some t} := fun n => ⟨n,hvisited n⟩
    obtain ⟨m,n,hlt,he⟩ := hfin.exists_lt_map_eq_of_forall_mem hmem
    obtain ⟨k,rfl⟩ := Nat.exists_eq_add_of_lt hlt
    have hback := hvisited (m+k+1)
    rw [Nat.add_assoc,orbit_add,hvisited m,Option.bind_some,← Nat.add_assoc,← he] at hback
    exact hnew m k _ (hvisited m) hback

end Orbits
