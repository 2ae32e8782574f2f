import Mathlib

/-!
Integer samples: clipping to an interval, floor division by the quantum, and
attenuation by a ratio `k/d`.
-/

set_option autoImplicit false

namespace FixedPoint

def clamp (lo hi x : Int) : Int := max lo (min hi x)

theorem clamp_mono {lo hi x y : Int} (h : x ≤ y) : clamp lo hi x ≤ clamp lo hi y :=
  max_le_max le_rfl (min_le_min le_rfl h)

theorem clamp_mem {lo hi : Int} (h : lo ≤ hi) (x : Int) : lo ≤ clamp lo hi x ∧ clamp lo hi x ≤ hi :=
  ⟨le_max_left lo _,max_le h (min_le_left hi x)⟩

theorem clamp_nonneg {lo hi x : Int} (hhi : 0 ≤ hi) (hx : 0 ≤ x) : 0 ≤ clamp lo hi x :=
  le_max_of_le_right (le_min hhi hx)

/-- Clipping before the division and after it give the same, if the clipping
interval is made of whole quanta. -/
theorem clamp_ediv {d : Int} (hd : 0 < d) (lo hi x : Int) :
    clamp (lo*d) (hi*d+(d-1)) x / d = clamp lo hi (x / d) := by
  have hmax : ∀ a b : Int, max a b / d = max (a / d) (b / d) := fun a b =>
    (Monotone.map_max fun _ _ h => Int.ediv_le_ediv hd h)
  have hmin : ∀ a b : Int, min a b / d = min (a / d) (b / d) := fun a b =>
    (Monotone.map_min fun _ _ h => Int.ediv_le_ediv hd h)
  have htop : (hi*d+(d-1)) / d = hi := by
    rw [Int.add_comm,Int.add_mul_ediv_right _ _ (by omega),
      Int.ediv_eq_zero_of_lt (by omega) (by omega)]
    omega
  rw [clamp,hmax,hmin,htop,Int.mul_ediv_cancel _ (by omega),clamp]

def attenuate (d k x : Int) : Int := x*k / d

section
variable {d k x : Int}

theorem attenuate_mono (hd : 0 < d) (hk : 0 ≤ k) {y : Int} (h : x ≤ y) :
    attenuate d k x ≤ attenuate d k y :=
  Int.ediv_le_ediv hd (mul_le_mul_of_nonneg_right h hk)

theorem attenuate_ratio_mono (hd : 0 < d) {k' : Int} (h : k ≤ k') (hx : 0 ≤ x) :
    attenuate d k x ≤ attenuate d k' x :=
  Int.ediv_le_ediv hd (mul_le_mul_of_nonneg_left h hx)

theorem attenuate_ratio_anti (hd : 0 < d) {k' : Int} (h : k ≤ k') (hx : x ≤ 0) :
    attenuate d k' x ≤ attenuate d k x :=
  Int.ediv_le_ediv hd (mul_le_mul_of_nonpos_left h hx)

@[simp] theorem attenuate_zero (d x : Int) : attenuate d 0 x = 0 := by
  simp [attenuate]

@[simp] theorem attenuate_self (hd : 0 < d) (x : Int) : attenuate d d x = x :=
  Int.mul_ediv_cancel x (by omega)

theorem attenuate_nonneg (hd : 0 < d) (hk : 0 ≤ k) (hx : 0 ≤ x) : 0 ≤ attenuate d k x := by
  have h := attenuate_ratio_mono hd hk hx
  rwa [attenuate_zero] at h

theorem attenuate_nonpos (hd : 0 < d) (hk : 0 ≤ k) (hx : x ≤ 0) : attenuate d k x ≤ 0 := by
  have h := attenuate_ratio_anti hd hk hx
  rwa [attenuate_zero] at h

/-- A larger ratio never gives a smaller magnitude. Floor division rounds negative
values away from zero, which is why the sign decides the direction. -/
theorem abs_attenuate_mono (hd : 0 < d) (hk : 0 ≤ k) {k' : Int} (h : k ≤ k') :
    |attenuate d k x| ≤ |attenuate d k' x| := by
  obtain hx | hx := le_total 0 x
  · rw [abs_of_nonneg (attenuate_nonneg hd hk hx),
      abs_of_nonneg (attenuate_nonneg hd (hk.trans h) hx)]
    exact attenuate_ratio_mono hd h hx
  · rw [abs_of_nonpos (attenuate_nonpos hd hk hx),
      abs_of_nonpos (attenuate_nonpos hd (hk.trans h) hx)]
    exact neg_le_neg (attenuate_ratio_anti hd h hx)

theorem abs_attenuate_le (hd : 0 < d) (hk : 0 ≤ k) (h : k ≤ d) : |attenuate d k x| ≤ |x| := by
  have := abs_attenuate_mono (x := x) hd hk h
  rwa [attenuate_self hd] at this

end

end FixedPoint
