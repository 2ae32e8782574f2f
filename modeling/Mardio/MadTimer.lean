import Mardio.Cmd

/-!
The time type of the decoding library: whole seconds and a fraction in units of
one 352800000th, a number that every sampling frequency divides. Durations of
frames are therefore exact, and so is any sum of them whose seconds fit a `long`.
-/

set_option autoImplicit false

namespace Mardio

/-- A number in a `signed long` of the host. -/
def Host.long (h : Host) (n : Int) : Int := Int.bmod n (2^h.longBits)

structure MadTimer where
  seconds : Int
  fraction : Nat
  deriving DecidableEq, Repr

def madTimerResolution : Nat := 352800000

def madTimerZero : MadTimer := ⟨0,0⟩

def reduceTimer (h : Host) (timer : MadTimer) : MadTimer :=
  ⟨h.long (timer.seconds+timer.fraction/madTimerResolution),timer.fraction % madTimerResolution⟩

def madGcd (num1 num2 : Nat) : Nat :=
  if num2 = 0 then num1 else madGcd num2 (num1 % num2)
termination_by num2
decreasing_by exact Nat.mod_lt _ (by omega)

/-- `numer` and `denom` in lowest terms. -/
def reduceRational (numer denom : Nat) : Nat × Nat :=
  let factor := madGcd numer denom
  (numer/factor,denom/factor)

/-- Products and sums are `unsigned long`s of the host. -/
def scaleRational (h : Host) (numer denom scale : Nat) : Nat :=
  let (numer,denom) := reduceRational numer denom
  let (scale,denom) := reduceRational scale denom
  let mul (a b : Nat) : Nat := a*b % 2^h.longBits
  if denom < scale then (mul numer (scale/denom)+mul numer (scale % denom)/denom) % 2^h.longBits
  else if denom < numer then (mul scale (numer/denom)+mul scale (numer % denom)/denom) %
    2^h.longBits
  else mul numer scale/denom

/-- The denominators that the switch has a multiplication for. -/
def timerRates : List Nat :=
  [1000,8000,11025,12000,16000,22050,24000,32000,44100,48000]

def madTimerSet (h : Host) (seconds numer denom : Nat) : MadTimer :=
  let whole := numer ≥ denom ∧ denom > 0
  let seconds : Int := h.long (if whole then seconds+numer/denom else seconds)
  let numer := if whole then numer % denom else numer
  let fraction :=
    if denom = 0 ∨ denom = 1 then 0
    else if denom = madTimerResolution then numer
    else if denom ∈ timerRates then numer*(madTimerResolution/denom) % 2^h.longBits
    else scaleRational h numer denom madTimerResolution
  if fraction ≥ madTimerResolution then reduceTimer h ⟨seconds,fraction⟩ else ⟨seconds,fraction⟩

def madTimerAdd (h : Host) (timer incr : MadTimer) : MadTimer :=
  let sum : MadTimer :=
    ⟨h.long (timer.seconds+incr.seconds),(timer.fraction+incr.fraction) % 2^h.longBits⟩
  if sum.fraction ≥ madTimerResolution then reduceTimer h sum else sum

/-! Exact values. -/

theorem Host.long_add (h : Host) (a b : Int) : h.long (h.long a+b) = h.long (a+b) :=
  Int.bmod_add_bmod

theorem Host.add_long (h : Host) (a b : Int) : h.long (a+h.long b) = h.long (a+b) :=
  Int.add_bmod_bmod

theorem Host.long_eq (h : Host) {n : Nat} (hn : n < 2^(h.longBits-1)) : h.long n = n := by
  cases h <;> simp only [Host.longBits,Host.long] at * <;>
    exact Int.bmod_eq_of_le_mul_two (by omega) (by omega)

/-- So many units of a 352800000th; the seconds are what a `signed long` has of them. -/
def MadTimer.ofUnits (h : Host) (n : Nat) : MadTimer :=
  ⟨h.long (n/madTimerResolution : Nat),n % madTimerResolution⟩

def MadTimer.units (t : MadTimer) : Int := t.seconds*madTimerResolution+t.fraction

theorem MadTimer.ofUnits_units (h : Host) {n : Nat} (hn : n < 2^(h.longBits-1)*madTimerResolution) :
    (MadTimer.ofUnits h n).units = n := by
  have hseconds : n/madTimerResolution < 2^(h.longBits-1) :=
    Nat.div_lt_of_lt_mul (by rwa [Nat.mul_comm])
  have hsplit := Nat.div_add_mod' n madTimerResolution
  simp only [MadTimer.units,MadTimer.ofUnits,Host.long_eq h hseconds]
  exact_mod_cast hsplit

theorem madTimerAdd_ofUnits (h : Host) (m n : Nat) :
    madTimerAdd h (.ofUnits h m) (.ofUnits h n) = .ofUnits h (m+n) := by
  let fraction := m % madTimerResolution+n % madTimerResolution
  have hlong : 2*madTimerResolution ≤ 2^h.longBits := by cases h <;> decide
  have hfraction : fraction < 2*madTimerResolution := by
    have hm := Nat.mod_lt m (show madTimerResolution > 0 by decide)
    have hn := Nat.mod_lt n (show madTimerResolution > 0 by decide)
    omega
  have hseconds : (m+n)/madTimerResolution =
      m/madTimerResolution+n/madTimerResolution+fraction/madTimerResolution := by
    simp only [fraction,madTimerResolution]
    omega
  have hrest : (m+n) % madTimerResolution = fraction % madTimerResolution := Nat.add_mod m n _
  have hsum : h.long (h.long (m/madTimerResolution : Nat)+h.long (n/madTimerResolution : Nat)) =
      h.long (m/madTimerResolution+n/madTimerResolution : Nat) := by
    rw [Host.long_add,Host.add_long,Nat.cast_add]
  simp only [madTimerAdd,MadTimer.ofUnits,hsum]
  rw [Nat.mod_eq_of_lt (hfraction.trans_le hlong),hseconds,hrest]
  split
  · simp only [reduceTimer,Host.long_add]
    norm_cast
  · have hlt : fraction < madTimerResolution := Nat.lt_of_not_ge ‹_›
    rw [Nat.div_eq_of_lt hlt,Nat.mod_eq_of_lt hlt,Nat.add_zero]

/-- The duration of `numer` samples at one of the rates, without rounding. -/
theorem madTimerSet_ofUnits (h : Host) {rate : Nat} (hr : rate ∈ timerRates) (numer : Nat) :
    madTimerSet h 0 numer rate = .ofUnits h (numer*(madTimerResolution/rate)) := by
  have hrate : 1 < rate ∧ rate ≠ madTimerResolution ∧
      rate*(madTimerResolution/rate) = madTimerResolution := by
    revert rate
    decide
  obtain ⟨h1,hne,hq⟩ := hrate
  have hpos : 0 < madTimerResolution/rate := Nat.pos_of_mul_pos_left (by rw [hq]; decide)
  have hlt : numer % rate*(madTimerResolution/rate) < madTimerResolution := by
    calc numer % rate*(madTimerResolution/rate)
        < rate*(madTimerResolution/rate) :=
          Nat.mul_lt_mul_of_pos_right (Nat.mod_lt _ (by omega)) hpos
      _ = madTimerResolution := hq
  have hlong : madTimerResolution ≤ 2^h.longBits := by cases h <;> decide
  have hsec : (if numer ≥ rate ∧ rate > 0 then (0 : Nat)+(numer : Int)/rate else (0 : Nat)) =
      (numer/rate : Nat) := by
    split
    · simp
    · rw [Nat.div_eq_of_lt (by omega)]
  have hnum : (if numer ≥ rate ∧ rate > 0 then numer % rate else numer) = numer % rate := by
    split
    · rfl
    · rw [Nat.mod_eq_of_lt (by omega)]
  have hset : madTimerSet h 0 numer rate =
      ⟨h.long (numer/rate : Nat),numer % rate*(madTimerResolution/rate)⟩ := by
    simp only [madTimerSet,hsec,hnum,if_neg (show ¬ (rate = 0 ∨ rate = 1) by omega),if_neg hne,
      if_pos hr,Nat.mod_eq_of_lt (hlt.trans_le hlong),if_neg (Nat.not_le.mpr hlt)]
  have hdiv : numer*(madTimerResolution/rate)/madTimerResolution = numer/rate := by
    have hcancel := Nat.mul_div_mul_right numer rate hpos
    rwa [hq] at hcancel
  have hmod : numer*(madTimerResolution/rate) % madTimerResolution =
      numer % rate*(madTimerResolution/rate) := by
    have hcancel := Nat.mul_mod_mul_right (madTimerResolution/rate) numer rate
    rwa [hq] at hcancel
  rw [hset,MadTimer.ofUnits,hdiv,hmod]

end Mardio
