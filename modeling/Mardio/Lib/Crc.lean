import Mathlib

/-!
Cyclic redundancy checks one bit at a time, highest bit first. The remainder is
linear in its state and in the message, so what a message of at most `w` bits
does is what `w` zero bits do to a remainder it was added to. A table for whole
bytes and the detection of bursts both follow from that.
-/

set_option autoImplicit false

namespace Crc

variable {w : Nat} (poly : BitVec w)

def step (c : BitVec w) (b : Bool) : BitVec w :=
  if c.msb ^^ b then c <<< 1 ^^^ poly else c <<< 1

def run (c : BitVec w) (bs : List Bool) : BitVec w := bs.foldl (step poly) c

@[simp] theorem run_nil (c : BitVec w) : run poly c [] = c := rfl

@[simp] theorem run_cons (c : BitVec w) (b : Bool) (bs : List Bool) :
    run poly c (b :: bs) = run poly (step poly c b) bs := rfl

theorem run_append (c : BitVec w) (as bs : List Bool) :
    run poly c (as ++ bs) = run poly (run poly c as) bs := List.foldl_append

theorem step_xor (c d : BitVec w) (a b : Bool) :
    step poly (c ^^^ d) (a ^^ b) = step poly c a ^^^ step poly d b := by
  have hc : poly ^^^ poly = 0#w := BitVec.xor_self
  simp only [step,BitVec.msb_xor,BitVec.shiftLeft_xor_distrib]
  cases c.msb <;> cases d.msb <;> cases a <;> cases b <;> simp <;>
    first | ac_rfl | (rw [show ∀ x y : BitVec w, x ^^^ poly ^^^ (y ^^^ poly) =
      x ^^^ y ^^^ (poly ^^^ poly) by
      intros; ac_rfl,hc,BitVec.xor_zero])

theorem run_xor_zeros (c d : BitVec w) (n : Nat) :
    run poly (c ^^^ d) (List.replicate n false) =
      run poly c (List.replicate n false) ^^^ run poly d (List.replicate n false) := by
  induction n generalizing c d with
  | zero => rfl
  | succ n ih =>
    have hs := step_xor poly c d false false
    rw [Bool.xor_false] at hs
    simp only [List.replicate_succ,run_cons]
    rw [hs,ih]

/-- Bits at the top of a remainder only move while there are zeros above them. -/
theorem run_zeros_shift (c : BitVec w) (n : Nat) (h : ∀ i, i < n → c.getMsbD i = false) :
    run poly c (List.replicate n false) = c <<< n := by
  induction n generalizing c with
  | zero => simp
  | succ n ih =>
    have hm : c.msb = false := h 0 (Nat.succ_pos n)
    have hs : step poly c false = c <<< 1 := by simp [step,hm]
    rw [List.replicate_succ,run_cons,hs,ih,← BitVec.shiftLeft_add,Nat.add_comm]
    intro i hi
    rw [BitVec.getMsbD_shiftLeft]
    exact h (i+1) (by omega)

/-- A message as an addition to the remainder it meets. -/
def align : List Bool → BitVec w
  | [] => 0#w
  | b :: bs => (if b then BitVec.twoPow w (w-1) else 0#w) ^^^ align bs >>> 1

theorem align_bit (bs : List Bool) (i : Nat) :
    (align bs : BitVec w).getMsbD i = (decide (i < w) && bs.getD i false) := by
  induction bs generalizing i with
  | nil => simp [align]
  | cons b bs ih =>
    by_cases hi : i < w
    · rw [align,BitVec.getMsbD_xor,BitVec.getMsbD_ushiftRight]
      cases i with
      | zero => cases b <;> simp [hi,BitVec.getMsbD_eq_getLsbD]
      | succ i =>
        have hne : ¬ w-1 = w-1-(i+1) := by omega
        cases b <;> simp [hi,ih,BitVec.getMsbD_eq_getLsbD,BitVec.getLsbD_twoPow,hne] <;> omega
    · rw [BitVec.getMsbD_of_ge _ _ (Nat.le_of_not_lt hi)]
      simp [hi]

theorem align_inj {as bs : List Bool} (hl : as.length = bs.length) (hw : as.length ≤ w)
    (h : (align as : BitVec w) = align bs) : as = bs := by
  refine List.ext_getElem hl fun i ha hb => ?_
  have hi := congrArg (fun v : BitVec w => v.getMsbD i) h
  simpa [align_bit,ha,hb,show i < w by omega] using hi

theorem step_align (c : BitVec w) (b : Bool) {bs : List Bool} (h : bs.length < w) :
    step poly (c ^^^ align (b :: bs)) false = step poly c b ^^^ align bs := by
  have hx := step_xor poly c (align (b :: bs)) b b
  have hm : (align (b :: bs) : BitVec w).msb = b := by
    have h0 := align_bit (b :: bs) (w := w) 0
    simpa [BitVec.msb,show 0 < w by omega] using h0
  have ha : (align (b :: bs) : BitVec w) <<< 1 = align bs := by
    apply BitVec.eq_of_getMsbD_eq
    intro i hi
    rw [BitVec.getMsbD_shiftLeft,align_bit,align_bit]
    by_cases hlt : i+1 < w
    · simp [hlt,hi]
    · simp [hlt,List.getElem?_eq_none (show bs.length ≤ i by omega)]
  have hs : step poly (align (b :: bs)) b = align bs := by
    rw [step,hm,Bool.xor_self,if_neg Bool.false_ne_true,ha]
  rw [Bool.xor_self,hs] at hx
  exact hx

/-- A message that is no longer than the remainder may as well be added to it. -/
theorem run_eq_zeros (c : BitVec w) {bs : List Bool} (h : bs.length ≤ w) :
    run poly c bs = run poly (c ^^^ align bs) (List.replicate bs.length false) := by
  induction bs generalizing c with
  | nil => simp [align]
  | cons b bs ih =>
    rw [List.length_cons] at h
    rw [List.length_cons,List.replicate_succ,run_cons,run_cons,ih _ (by omega),
      step_align poly c b (by omega)]

variable {poly}

/-- With a constant term in the polynomial no two remainders are merged. -/
theorem step_inj (hp : poly.getLsbD 0 = true) {c d : BitVec w} {b : Bool}
    (h : step poly c b = step poly d b) : c = d := by
  have hx := step_xor poly c d b b
  rw [h,BitVec.xor_self,Bool.xor_self,step,Bool.xor_false] at hx
  have hz : c ^^^ d = 0#w := by
    cases hm : (c ^^^ d).msb with
    | true =>
      rw [hm,if_pos rfl] at hx
      have h0 := congrArg (fun v : BitVec w => v.getLsbD 0) hx
      simp [hp] at h0
    | false =>
      rw [hm,if_neg Bool.false_ne_true] at hx
      apply BitVec.eq_of_getMsbD_eq
      intro i hi
      cases i with
      | zero => simpa [BitVec.msb] using hm
      | succ i =>
        have hb := congrArg (fun v : BitVec w => v.getMsbD i) hx
        simpa [BitVec.getMsbD_shiftLeft] using hb
  exact BitVec.xor_eq_zero_iff.mp hz

theorem run_inj (hp : poly.getLsbD 0 = true) {c d : BitVec w} {bs : List Bool}
    (h : run poly c bs = run poly d bs) : c = d := by
  induction bs generalizing c d with
  | nil => exact h
  | cons b bs ih => exact step_inj hp (ih h)

/-- Messages that differ only within as many bits as the remainder has leave
different remainders. -/
theorem run_burst (hp : poly.getLsbD 0 = true) (c : BitVec w) (as cs : List Bool)
    {xs ys : List Bool} (hl : xs.length = ys.length) (hw : xs.length ≤ w)
    (h : run poly c (as ++ xs ++ cs) = run poly c (as ++ ys ++ cs)) : xs = ys := by
  simp only [run_append] at h
  have hm := run_inj hp h
  have hx := run_eq_zeros poly (run poly c as) hw
  have hy := run_eq_zeros poly (run poly c as) (hl ▸ hw)
  rw [hx,hy,← hl] at hm
  exact align_inj hl hw (BitVec.xor_right_inj _ |>.mp (run_inj hp hm))

end Crc
