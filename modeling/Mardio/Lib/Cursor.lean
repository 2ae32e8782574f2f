import Mathlib

/-!
Programs that read fields off a bit string through a cursor. A cursor stands at a
position, and a program that consumes a fixed number of bits is described by that
number and by its value as a function of the position it starts at.
-/

set_option autoImplicit false

namespace Cursor
variable {σ α β : Type} {Valid : σ → Prop} {pos : σ → Nat}

/-- From any valid cursor `r` returns what `f` says of the position, and leaves the
cursor `len` bits further on. -/
def Reads (Valid : σ → Prop) (pos : σ → Nat) (r : StateM σ α) (len : Nat) (f : Nat → α) : Prop :=
  ∀ c, Valid c → (r.run c).1 = f (pos c) ∧ Valid (r.run c).2 ∧ pos (r.run c).2 = pos c+len

theorem Reads.congr {r : StateM σ α} {len len' : Nat} {f f' : Nat → α} (h : Reads Valid pos r len f)
    (hl : len = len') (hf : ∀ p, f p = f' p) : Reads Valid pos r len' f' := by
  intro c hc
  obtain ⟨hv,hc',hp⟩ := h c hc
  exact ⟨hv.trans (hf _),hc',hl ▸ hp⟩

theorem Reads.pure (a : α) : Reads Valid pos (pure a) 0 fun _ => a :=
  fun _ hc => ⟨rfl,hc,rfl⟩

theorem Reads.bind {r : StateM σ α} {k : α → StateM σ β} {len len' : Nat} {f : Nat → α}
    {g : α → Nat → β} (h : Reads Valid pos r len f) (hk : ∀ a, Reads Valid pos (k a) len' (g a)) :
    Reads Valid pos (r >>= k) (len+len') fun p => g (f p) (p+len) := by
  intro c hc
  obtain ⟨hv,hc',hp⟩ := h c hc
  obtain ⟨hv',hc'',hp'⟩ := hk (r.run c).1 (r.run c).2 hc'
  rw [hp] at hv' hp'
  refine ⟨?_,hc'',by rw [← Nat.add_assoc]; exact hp'⟩
  change ((k (r.run c).1).run (r.run c).2).1 = _
  rw [hv',hv]

theorem Reads.ite {c : Prop} [Decidable c] {r r' : StateM σ α} {len : Nat} {f f' : Nat → α}
    (h : Reads Valid pos r len f) (h' : Reads Valid pos r' len f') :
    Reads Valid pos (if c then r else r') len fun p => if c then f p else f' p := by
  split
  · exact h
  · exact h'

/-- `n` records of one width, one behind the other. -/
def recordsAt (f : Nat → α) (len n p : Nat) : List α := (List.range n).map fun i => f (p+i*len)

theorem recordsAt_succ (f : Nat → α) (len n p : Nat) :
    recordsAt f len (n+1) p = f p :: recordsAt f len n (p+len) := by
  simp only [recordsAt,List.range_succ_eq_map,List.map_cons,List.map_map,Nat.zero_mul,Nat.add_zero]
  refine congrArg _ (List.map_congr_left fun i _ => ?_)
  simp only [Function.comp_apply]
  rw [Nat.succ_mul,Nat.add_assoc,Nat.add_comm len]

def repeatRead (r : StateM σ α) : Nat → StateM σ (List α)
  | 0 => Pure.pure []
  | n+1 => do
      let a ← r
      let as ← repeatRead r n
      return a :: as

theorem Reads.repeat {r : StateM σ α} {len : Nat} {f : Nat → α} (h : Reads Valid pos r len f)
    (n : Nat) :
    Reads Valid pos (repeatRead r n) (n*len) (recordsAt f len n) := by
  induction n with
  | zero => exact (Reads.pure []).congr (by simp) fun _ => rfl
  | succ n ih =>
    refine (h.bind fun a => ih.bind fun as => Reads.pure (a :: as)).congr ?_ fun p => ?_
    · rw [Nat.succ_mul]
      omega
    · rw [recordsAt_succ]

end Cursor
