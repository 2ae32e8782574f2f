import Mathlib

/-!
Byte memory as a function of the address, with the two copy loops a `memmove`
chooses between. Addresses are never reduced, so a write outside an object is
visible as a changed byte at an address outside it.
-/

set_option autoImplicit false

namespace ByteMem

abbrev Mem := Nat → UInt8

/-- Copies `n` bytes, lowest address first. -/
def copyUp (m : Mem) (dst src : Nat) : Nat → Mem
  | 0 => m
  | n+1 => copyUp (Function.update m dst (m src)) (dst+1) (src+1) n

/-- Copies `n` bytes, highest address first. -/
def copyDown (m : Mem) (dst src : Nat) : Nat → Mem
  | 0 => m
  | n+1 => copyDown (Function.update m (dst+n) (m (src+n))) dst src n

def store (m : Mem) (dst : Nat) : List UInt8 → Mem
  | [] => m
  | b :: bs => store (Function.update m dst b) (dst+1) bs

def window (m : Mem) (a n : Nat) : List UInt8 := (List.range n).map fun i => m (a+i)

@[simp] theorem window_length (m : Mem) (a n : Nat) : (window m a n).length = n := by
  simp [window]

theorem window_zero (m : Mem) (a : Nat) : window m a 0 = [] := rfl

theorem window_add (m : Mem) (a n k : Nat) :
    window m a (n+k) = window m a n ++ window m (a+n) k := by
  simp [window,List.range_add,List.map_append,Function.comp_def,Nat.add_assoc]

theorem window_congr {m m' : Mem} {a a' n : Nat} (h : ∀ i, i < n → m (a+i) = m' (a'+i)) :
    window m a n = window m' a' n := by
  refine List.map_congr_left fun i hi => ?_
  exact h i (List.mem_range.mp hi)

/-- Moving towards lower addresses reads every source byte before it is
overwritten, even when the two areas overlap. -/
theorem copyUp_apply (m : Mem) (dst src n x : Nat) (h : dst ≤ src) :
    copyUp m dst src n x = if dst ≤ x ∧ x < dst+n then m (src+(x-dst)) else m x := by
  induction n generalizing m dst src with
  | zero => rw [copyUp,if_neg (by omega)]
  | succ n ih =>
    rw [copyUp,ih _ _ _ (by omega)]
    by_cases hx : dst+1 ≤ x ∧ x < dst+1+n
    · have hne : src+1+(x-(dst+1)) ≠ dst := by omega
      have he : src+1+(x-(dst+1)) = src+(x-dst) := by omega
      rw [if_pos hx,if_pos (by omega),Function.update_of_ne hne,he]
    · rw [if_neg hx]
      by_cases hd : x = dst
      · subst hd
        rw [if_pos (by omega),Function.update_self]
        simp
      · rw [if_neg (by omega),Function.update_of_ne hd]

theorem copyDown_apply (m : Mem) (dst src n x : Nat) (h : src ≤ dst) :
    copyDown m dst src n x = if dst ≤ x ∧ x < dst+n then m (src+(x-dst)) else m x := by
  induction n generalizing m with
  | zero => rw [copyDown,if_neg (by omega)]
  | succ n ih =>
    rw [copyDown,ih]
    by_cases hx : dst ≤ x ∧ x < dst+n
    · have hne : src+(x-dst) ≠ dst+n := by omega
      rw [if_pos hx,if_pos (by omega),Function.update_of_ne hne]
    · rw [if_neg hx]
      by_cases hd : x = dst+n
      · subst hd
        rw [if_pos (by omega),Function.update_self]
        congr 1
        omega
      · rw [if_neg (by omega),Function.update_of_ne hd]

theorem store_outside (m : Mem) (dst x : Nat) (bs : List UInt8)
    (h : x < dst ∨ dst+bs.length ≤ x) : store m dst bs x = m x := by
  induction bs generalizing m dst with
  | nil => rfl
  | cons b bs ih =>
    rw [List.length_cons] at h
    rw [store,ih _ _ (by omega),Function.update_of_ne (by omega)]

theorem store_window (m : Mem) (dst : Nat) (bs : List UInt8) :
    window (store m dst bs) dst bs.length = bs := by
  induction bs generalizing m dst with
  | nil => rfl
  | cons b bs ih =>
    rw [store,List.length_cons,Nat.add_comm bs.length 1,window_add,ih]
    have hb := store_outside (Function.update m dst b) (dst+1) dst bs (by omega)
    simp [window,hb]

theorem store_append (m : Mem) (dst : Nat) (bs cs : List UInt8) :
    store m dst (bs ++ cs) = store (store m dst bs) (dst+bs.length) cs := by
  induction bs generalizing m dst with
  | nil => rfl
  | cons b bs ih =>
    rw [List.cons_append,store,ih,store,List.length_cons,Nat.add_assoc,Nat.add_comm 1]

theorem window_drop (m : Mem) (a n k : Nat) : (window m a n).drop k = window m (a+k) (n-k) := by
  obtain h | h := Nat.le_total k n
  · obtain ⟨j,rfl⟩ := Nat.exists_eq_add_of_le h
    rw [window_add,List.drop_left' (window_length m a k),Nat.add_sub_cancel_left]
  · rw [List.drop_eq_nil_of_le (by simpa using h),Nat.sub_eq_zero_of_le h,window_zero]

/-- A store at the start of a longer window changes its front. -/
theorem store_window_front (m : Mem) (dst n : Nat) (bs : List UInt8) (h : bs.length ≤ n) :
    window (store m dst bs) dst n = bs ++ (window m dst n).drop bs.length := by
  obtain ⟨k,rfl⟩ := Nat.exists_eq_add_of_le h
  rw [window_add,store_window,window_drop,Nat.add_sub_cancel_left]
  congr 1
  refine window_congr fun i hi => ?_
  exact store_outside m dst _ bs (.inr (by omega))

/-! Single bits. -/

def bit (m : Mem) (i : Nat) (k : Fin 8) : Bool := (m i).toNat.testBit k.val

def mask (k : Fin 8) : UInt8 := 1 <<< UInt8.ofNat k.val

theorem mask_testBit (k l : Fin 8) :
    (mask k).toNat.testBit l.val = decide (l = k) ∧
      (~~~mask k).toNat.testBit l.val = !decide (l = k) := by
  revert k l
  decide

theorem bit_update (m : Mem) (i j : Nat) (b : UInt8) (l : Fin 8) :
    bit (Function.update m i b) j l = if j = i then b.toNat.testBit l.val else bit m j l := by
  by_cases hj : j = i
  · simp [bit,hj]
  · simp [bit,hj]

/-- Setting a bit leaves the seven others of its byte and all other bytes alone. -/
theorem bit_set (m : Mem) (i j : Nat) (k l : Fin 8) :
    bit (Function.update m i (m i ||| mask k)) j l = if j = i ∧ l = k then true else bit m j l := by
  rw [bit_update,UInt8.toNat_or,Nat.testBit_or,(mask_testBit k l).1]
  by_cases hj : j = i
  · by_cases hl : l = k <;> simp [hj,hl,bit]
  · simp [hj]

theorem bit_clear (m : Mem) (i j : Nat) (k l : Fin 8) :
    bit (Function.update m i (m i &&& ~~~mask k)) j l = if j = i ∧ l = k then false
      else bit m j l := by
  rw [bit_update,UInt8.toNat_and,Nat.testBit_and,(mask_testBit k l).2]
  by_cases hj : j = i
  · by_cases hl : l = k <;> simp [hj,hl,bit]
  · simp [hj]

end ByteMem
