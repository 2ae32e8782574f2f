import Mardio.Lib.ByteMem

/-!
A byte memory read as one long string of bits, the highest bit of each byte
first, and the number that a stretch of it denotes.
-/

set_option autoImplicit false

namespace BitString
open ByteMem

def bitAt (m : Mem) (i : Nat) : Bool := (m (i/8)).toNat.testBit (7-i%8)

def bits (m : Mem) (pos : Nat) : Nat → List Bool
  | 0 => []
  | n+1 => bitAt m pos :: bits m (pos+1) n

/-- The number a list of bits denotes, highest bit first. -/
def value : List Bool → Nat
  | [] => 0
  | b :: bs => b.toNat*2^bs.length+value bs

/-- The lowest `n` bits of a number, highest first. -/
def digits : Nat → Nat → List Bool
  | 0, _ => []
  | n+1, v => v.testBit n :: digits n v

def field (m : Mem) (pos n : Nat) : Nat := value (bits m pos n)

@[simp] theorem bits_length (m : Mem) (pos n : Nat) : (bits m pos n).length = n := by
  induction n generalizing pos with
  | zero => rfl
  | succ n ih => simp [bits,ih]

theorem bits_add (m : Mem) (pos n k : Nat) :
    bits m pos (n+k) = bits m pos n ++ bits m (pos+n) k := by
  induction n generalizing pos with
  | zero => simp [bits]
  | succ n ih => rw [Nat.succ_add,bits,ih,bits,List.cons_append,Nat.add_assoc,Nat.add_comm 1]

@[simp] theorem digits_length (n v : Nat) : (digits n v).length = n := by
  induction n with
  | zero => rfl
  | succ n ih => simp [digits,ih]

theorem value_lt (bs : List Bool) : value bs < 2^bs.length := by
  induction bs with
  | nil => simp [value]
  | cons b bs ih =>
    have hb := b.toNat_le
    simp only [value,List.length_cons,Nat.pow_succ]
    nlinarith

theorem value_append (as bs : List Bool) :
    value (as ++ bs) = value as*2^bs.length+value bs := by
  induction as with
  | nil => simp [value]
  | cons a as ih => simp only [List.cons_append,value,List.length_append,ih,Nat.pow_add]; ring

/-- The digits of a number only depend on its lowest bits. -/
theorem digits_congr {n v w : Nat} (h : ∀ i, i < n → v.testBit i = w.testBit i) :
    digits n v = digits n w := by
  induction n with
  | zero => rfl
  | succ n ih => rw [digits,digits,h n (Nat.lt_succ_self n),ih fun i hi => h i (by omega)]

theorem digits_value (bs : List Bool) : digits bs.length (value bs) = bs := by
  induction bs with
  | nil => rfl
  | cons b bs ih =>
    have hlt := value_lt bs
    rw [List.length_cons,digits,value,Nat.mul_comm,Nat.testBit_two_pow_mul_add _ hlt,
      if_neg (Nat.lt_irrefl _),Nat.sub_self]
    congr 1
    · cases b <;> rfl
    · refine Eq.trans (digits_congr fun i hi => ?_) ih
      rw [Nat.testBit_two_pow_mul_add _ hlt,if_pos hi]

theorem digits_add (n k v : Nat) : digits (n+k) v = digits n (v >>> k) ++ digits k v := by
  induction n with
  | zero => rw [Nat.zero_add]; rfl
  | succ n ih =>
    rw [Nat.succ_add,digits,ih,digits,List.cons_append,Nat.testBit_shiftRight,Nat.add_comm k]

theorem digits_getD (n v i : Nat) :
    (digits n v).getD i false = (decide (i < n) && v.testBit (n-1-i)) := by
  induction n generalizing i with
  | zero => simp [digits]
  | succ n ih =>
    cases i with
    | zero => simp [digits]
    | succ i => rw [digits,List.getD_cons_succ,ih,Nat.sub_sub,Nat.add_comm 1]; simp

theorem field_zero (m : Mem) (pos : Nat) : field m pos 0 = 0 := rfl

theorem field_add (m : Mem) (pos n k : Nat) :
    field m pos (n+k) = field m pos n*2^k+field m (pos+n) k := by
  rw [field,bits_add,value_append,bits_length]
  rfl

theorem field_lt (m : Mem) (pos n : Nat) : field m pos n < 2^n := by
  have h := value_lt (bits m pos n)
  rwa [bits_length] at h

theorem bits_eq_digits (m : Mem) (pos n : Nat) : bits m pos n = digits n (field m pos n) := by
  have h := digits_value (bits m pos n)
  rw [bits_length] at h
  exact h.symm

/-- A stretch that lies in one byte. -/
theorem field_in_byte (m : Mem) (a off n : Nat) (h : off+n ≤ 8) :
    field m (8*a+off) n = (m a).toNat/2^(8-off-n) % 2^n := by
  induction n generalizing off with
  | zero => simp [field_zero,Nat.mod_one]
  | succ n ih =>
    have hi := ih (off+1) (by omega)
    have hb : bitAt m (8*a+off) = (m a).toNat.testBit (7-off) := by
      rw [bitAt,show (8*a+off)/8 = a by omega,show (8*a+off) % 8 = off by omega]
    have hk : 8-(off+1)-n = 8-off-(n+1) := by omega
    have hs : 8-off-(n+1)+n = 7-off := by omega
    unfold field at hi ⊢
    rw [bits,value,bits_length,hb,Nat.add_assoc,hi,hk,Nat.mod_pow_succ,Nat.toNat_testBit,
      Nat.div_div_eq_div_mul,← Nat.pow_add,hs]
    ring

theorem field_offset (m : Mem) (a k n : Nat) (h : k % 8+n ≤ 8) :
    field m (8*a+k) n = (m (a+k/8)).toNat/2^(8-k % 8-n) % 2^n := by
  rw [← field_in_byte m (a+k/8) (k % 8) n h]
  congr 1
  omega

theorem field_byte (m : Mem) (a : Nat) : field m (8*a) 8 = (m a).toNat := by
  have h := field_in_byte m a 0 8 (by omega)
  have hlt := (m a).toNat_lt
  rw [Nat.add_zero] at h
  rw [h]
  omega

/-- The first bits of a byte. -/
theorem field_front (m : Mem) (a n : Nat) (h : n ≤ 8) :
    field m (8*a) n = (m a).toNat >>> (8-n) := by
  have hf := field_in_byte m a 0 n (by omega)
  have hlt : (m a).toNat < 2^(8-n)*2^n := by
    rw [← Nat.pow_add,Nat.sub_add_cancel h]
    exact (m a).toNat_lt
  rw [Nat.add_zero,Nat.sub_zero,Nat.mod_eq_of_lt (Nat.div_lt_of_lt_mul hlt)] at hf
  rw [hf,Nat.shiftRight_eq_div_pow]

/-- The last bits of a byte, and of these the first ones. -/
theorem field_back (m : Mem) (a k n : Nat) (hk : k ≤ 8) (hn : n ≤ k) :
    field m (8*a+(8-k)) n = ((m a).toNat &&& (1 <<< k)-1) >>> (k-n) := by
  have hp : 2^k = 2^(k-n)*2^n := by rw [← Nat.pow_add,Nat.sub_add_cancel hn]
  rw [field_in_byte m a (8-k) n (by omega),Nat.one_shiftLeft,Nat.and_two_pow_sub_one_eq_mod,
    Nat.shiftRight_eq_div_pow,hp,Nat.mod_mul_right_div_self,show 8-(8-k)-n = k-n by omega]

/-- Equal bytes have equal bits, wherever they lie. -/
theorem field_window_congr {m m' : Mem} {a a' len k n : Nat} (h : window m a len = window m' a' len)
    (hk : k+n ≤ 8*len) : field m (8*a+k) n = field m' (8*a'+k) n := by
  have hbytes : ∀ i < len, m (a+i) = m' (a'+i) := by
    intro i hi
    simpa [window,hi] using congrArg (·[i]?) h
  have hbit : ∀ i < 8*len, bitAt m (8*a+i) = bitAt m' (8*a'+i) := by
    intro i hi
    have hdiv : ∀ b, (8*b+i)/8 = b+i/8 := by omega
    have hmod : ∀ b, (8*b+i) % 8 = i % 8 := by omega
    rw [bitAt,bitAt,hdiv,hdiv,hmod,hmod,hbytes _ (by omega)]
  unfold field
  congr 1
  induction n generalizing k with
  | zero => rfl
  | succ n ih =>
    rw [bits,bits,hbit k (by omega),Nat.add_assoc,Nat.add_assoc,ih (by omega)]

end BitString
