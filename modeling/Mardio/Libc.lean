import Mardio.Lib.ByteMem

/-!
The freestanding string routines. Strings are lists of bytes without their
terminator.
-/

set_option autoImplicit false

namespace Mardio
open ByteMem

abbrev Str := List UInt8

/-- Chooses the copy direction by comparing the two addresses. -/
def ucMemmove (m : Mem) (s p n : Nat) : Mem :=
  if p ≥ s then copyUp m s p n else copyDown m s p n

theorem ucMemmove_apply (m : Mem) (s p n x : Nat) :
    ucMemmove m s p n x = if s ≤ x ∧ x < s+n then m (p+(x-s)) else m x := by
  unfold ucMemmove
  split
  · exact copyUp_apply m s p n x (by omega)
  · exact copyDown_apply m s p n x (by omega)

theorem ucMemmove_window (m : Mem) (s p n : Nat) :
    window (ucMemmove m s p n) s n = window m p n := by
  refine window_congr fun i hi => ?_
  rw [ucMemmove_apply,if_pos (by omega)]
  congr 1
  omega

def ucMemset (m : Mem) (s : Nat) (c : UInt8) : Nat → Mem
  | 0 => m
  | n+1 => ucMemset (Function.update m s c) (s+1) c n

theorem ucMemset_eq_store (m : Mem) (s : Nat) (c : UInt8) (n : Nat) :
    ucMemset m s c n = store m s (List.replicate n c) := by
  induction n generalizing m s with
  | zero => rfl
  | succ n ih => rw [ucMemset,ih,List.replicate_succ,store]

def ucMemcmp : Str → Str → Nat → Int
  | a :: as, b :: bs, n+1 =>
      if (a.toNat : Int)-b.toNat = 0 then ucMemcmp as bs n else (a.toNat : Int)-b.toNat
  | _, _, _ => 0

/-- The comparison of two objects of memory; it has no result where it reads behind the
end of one of them. -/
def ucMemcmpIn : Str → Str → Nat → Option Int
  | _, _, 0 => some 0
  | a :: as, b :: bs, n+1 =>
      if (a.toNat : Int)-b.toNat = 0 then ucMemcmpIn as bs n else some ((a.toNat : Int)-b.toNat)
  | _, _, _+1 => none

theorem ucMemcmp_of_in {s t : Str} {n : Nat} {r : Int} (hr : ucMemcmpIn s t n = some r) :
    ucMemcmp s t n = r := by
  fun_induction ucMemcmpIn s t n with
  | case1 =>
    cases hr
    simp [ucMemcmp]
  | case2 a as b bs n he ih => simpa [ucMemcmp,he] using ih hr
  | case3 a as b bs n he => simpa [ucMemcmp,he] using hr
  | case4 => cases hr

theorem byte_sub_eq_zero (a b : UInt8) : (a.toNat : Int)-b.toNat = 0 ↔ a = b := by
  rw [Int.sub_eq_zero,Int.ofNat_inj,UInt8.toNat_inj]

theorem ucMemcmpIn_ne {a b : UInt8} (hab : a ≠ b) (s t : Str) (n : Nat) :
    ∃ r, ucMemcmpIn (a :: s) (b :: t) (n+1) = some r ∧
      (r = 0 ↔ (a :: s).take (n+1) = (b :: t).take (n+1)) := by
  have hne := mt (byte_sub_eq_zero a b).mp hab
  exact ⟨_,by rw [ucMemcmpIn,if_neg hne],by simp [hne,hab]⟩

/-- Two strings differ no later than where the shorter one ends, so that the comparison
stays inside both as long as it is inside one. -/
theorem ucMemcmpIn_terminated {s t : Str} (hs : 0 ∉ s) (ht : 0 ∉ t) {n : Nat}
    (hn : n ≤ max s.length t.length) :
    ∃ r, ucMemcmpIn (s ++ [0]) (t ++ [0]) n = some r ∧
      (r = 0 ↔ (s ++ [0]).take n = (t ++ [0]).take n) := by
  induction s generalizing t n with
  | nil =>
    match t, n with
    | t, 0 => exact ⟨0,by simp [ucMemcmpIn]⟩
    | [], n+1 => simp at hn
    | b :: t, n+1 => exact ucMemcmpIn_ne (fun h0 => ht (by simp [h0])) _ _ n
  | cons a s ih =>
    match t, n with
    | t, 0 => exact ⟨0,by simp [ucMemcmpIn]⟩
    | [], n+1 => exact ucMemcmpIn_ne (fun h0 => hs (by simp [h0])) _ _ n
    | b :: t, n+1 =>
      by_cases hab : a = b
      · obtain ⟨r,hr,hzero⟩ := ih (t := t) (n := n) (fun h0 => hs (List.mem_cons_of_mem _ h0))
          (fun h0 => ht (List.mem_cons_of_mem _ h0)) (by simp at hn; omega)
        exact ⟨r,by simpa [ucMemcmpIn,hab] using hr,by simpa [hab] using hzero⟩
      · exact ucMemcmpIn_ne hab _ _ n

/-- The comparison with the whole of a string that has no zero in it. -/
theorem ucMemcmp_eq_zero_iff {t : Str} (ht : 0 ∉ t) (s : Str) :
    ucMemcmp (s ++ [0]) t t.length = 0 ↔ t <+: s := by
  induction t generalizing s with
  | nil => simp [ucMemcmp]
  | cons b t ih =>
    have hb : b ≠ 0 := fun h0 => ht (by simp [h0])
    cases s with
    | nil =>
      have hne := mt (byte_sub_eq_zero 0 b).mp hb.symm
      simpa [ucMemcmp] using hne
    | cons a s =>
      by_cases hab : a = b
      · simp [ucMemcmp,hab,ih (fun h0 => ht (List.mem_cons_of_mem _ h0))]
      · have hne := mt (byte_sub_eq_zero a b).mp hab
        simp [ucMemcmp,hne,Ne.symm hab]

def ucStrncmp : Str → Str → Nat → Int
  | _, _, 0 => 0
  | [], [], _+1 => 0
  | [], b :: _, _+1 => -(b.toNat : Int)
  | a :: _, [], _+1 => a.toNat
  | a :: as, b :: bs, n+1 =>
      if (a.toNat : Int)-b.toNat = 0 then ucStrncmp as bs n else (a.toNat : Int)-b.toNat

theorem ucStrncmp_eq_zero_iff {t : Str} (ht : 0 ∉ t) (s : Str) :
    ucStrncmp s t t.length = 0 ↔ t <+: s := by
  induction t generalizing s with
  | nil => simp [ucStrncmp]
  | cons b t ih =>
    have hb : b ≠ 0 := fun h0 => ht (by simp [h0])
    cases s with
    | nil =>
      have hne := mt UInt8.toNat_inj.mp hb
      simpa [ucStrncmp] using hne
    | cons a s =>
      by_cases hab : a = b
      · simp [ucStrncmp,hab,ih (fun h0 => ht (List.mem_cons_of_mem _ h0))]
      · have hne := mt (byte_sub_eq_zero a b).mp hab
        simp [ucStrncmp,hne,Ne.symm hab]

/-- The rest of `s1` from the first place where `s2` occurs. -/
def ucStrstr : Str → Str → Option Str
  | [], s2 => if s2 = [] then some [] else none
  | c :: s1, s2 => if s2.isPrefixOf (c :: s1) then some (c :: s1) else ucStrstr s1 s2

theorem ucStrstr_isSome_iff (s1 s2 : Str) : (ucStrstr s1 s2).isSome = true ↔ s2 <:+: s1 := by
  induction s1 with
  | nil =>
    rw [ucStrstr,List.infix_nil]
    split <;> simp_all
  | cons c s1 ih =>
    rw [ucStrstr,List.infix_cons_iff]
    split
    · simp_all [List.isPrefixOf_iff_prefix]
    · rename_i hp
      rw [List.isPrefixOf_iff_prefix] at hp
      simp [ih,hp]

/-- How the comparison at one place ends: at the end of the pattern, or at a byte. -/
inductive StrAt where
  | found
  | differs (c : UInt8)
  deriving DecidableEq, Repr

/-- The comparison of the pattern `p` with an object of memory from `s` on. It has no
result where it reads behind the end of the object. -/
def strstrAt : Str → Str → Option StrAt
  | _, [] => some .found
  | [], _ :: _ => none
  | c :: s, d :: p => if d = c then strstrAt s p else some (.differs c)

/-- `uc_strstr` on an object of memory. A comparison that ends at a zero byte ends the
search; any other one starts again one byte later. -/
def ucStrstrIn : Str → Str → Option (Option Str)
  | [], s2 => if s2 = [] then some (some []) else none
  | b :: s1, s2 =>
      match strstrAt (b :: s1) s2 with
      | none => none
      | some .found => some (some (b :: s1))
      | some (.differs c) => if c = 0 then some none else ucStrstrIn s1 s2

theorem strstrAt_terminated {s p : Str} (hs : 0 ∉ s) (hp : 0 ∉ p) (rest : Str) :
    p <+: s ∧ strstrAt (s ++ 0 :: rest) p = some .found ∨
      ¬ p <+: s ∧ ∃ c, strstrAt (s ++ 0 :: rest) p = some (.differs c) ∧
        (c = 0 → s.length < p.length) := by
  induction s generalizing p with
  | nil =>
    cases p with
    | nil => exact .inl ⟨List.nil_prefix,by simp [strstrAt]⟩
    | cons d p =>
      have hd : d ≠ 0 := fun h0 => hp (by simp [h0])
      exact .inr ⟨by simp,0,by simp [strstrAt,hd],by simp⟩
  | cons a s ih =>
    cases p with
    | nil => exact .inl ⟨List.nil_prefix,by simp [strstrAt]⟩
    | cons d p =>
      have ha : a ≠ 0 := fun h0 => hs (by simp [h0])
      by_cases hda : d = a
      · subst hda
        have h := ih (fun h0 => hs (List.mem_cons_of_mem d h0))
          (fun h0 => hp (List.mem_cons_of_mem d h0))
        simpa [strstrAt,List.cons_prefix_cons] using h
      · exact .inr ⟨by simp [List.cons_prefix_cons,hda],a,by simp [strstrAt,hda],
          fun h0 => absurd h0 ha⟩

/-- On a string the search never leaves it, and finds what occurs in it. -/
theorem ucStrstrIn_terminated {s s2 : Str} (hs : 0 ∉ s) (h2 : 0 ∉ s2) (rest : Str) :
    ∃ r, ucStrstrIn (s ++ 0 :: rest) s2 = some r ∧ (r.isSome = true ↔ s2 <:+: s) := by
  induction s with
  | nil =>
    cases s2 with
    | nil => exact ⟨some (0 :: rest),by simp [ucStrstrIn,strstrAt],by simp⟩
    | cons d p =>
      have hd : d ≠ 0 := fun h0 => h2 (by simp [h0])
      exact ⟨none,by simp [ucStrstrIn,strstrAt,hd],by simp⟩
  | cons a s ih =>
    have hat := strstrAt_terminated hs h2 rest
    rw [List.cons_append] at hat ⊢
    rw [ucStrstrIn]
    cases hat with
    | inl hat =>
      rw [hat.2]
      exact ⟨_,rfl,by simpa using hat.1.isInfix⟩
    | inr hat =>
      obtain ⟨hno,c,hc,hlen⟩ := hat
      rw [hc]
      by_cases h0 : c = 0
      · refine ⟨none,by simp [h0],?_⟩
        have := hlen h0
        simpa using fun h : s2 <:+: a :: s => absurd h.length_le (by omega)
      · obtain ⟨r,hr,hin⟩ := ih fun h0 => hs (List.mem_cons_of_mem a h0)
        exact ⟨r,by simp [h0,hr],by simp [hin,List.infix_cons_iff,hno]⟩

theorem strstrAt_open (s p : Str) :
    p <+: s ∧ strstrAt s p = some .found ∨
      ¬ p <+: s ∧ (s.length < p.length ∧ strstrAt s p = none ∨
        ∃ c ∈ s, strstrAt s p = some (.differs c)) := by
  induction s generalizing p with
  | nil =>
    cases p with
    | nil => exact .inl ⟨List.nil_prefix,rfl⟩
    | cons d p => exact .inr ⟨by simp,.inl ⟨by simp,rfl⟩⟩
  | cons a s ih =>
    cases p with
    | nil => exact .inl ⟨List.nil_prefix,rfl⟩
    | cons d p =>
      by_cases hda : d = a
      · subst hda
        simp only [strstrAt,List.cons_prefix_cons,if_pos,true_and,List.length_cons,
          Nat.add_lt_add_iff_right]
        obtain h | ⟨hp,h | ⟨c,hc,h⟩⟩ := ih p
        · exact .inl h
        · exact .inr ⟨hp,.inl h⟩
        · exact .inr ⟨hp,.inr ⟨c,List.mem_cons_of_mem d hc,h⟩⟩
      · exact .inr ⟨by simp [List.cons_prefix_cons,hda],
          .inr ⟨a,List.mem_cons_self ..,by simp [strstrAt,hda]⟩⟩

/-- Where there is no zero byte only a find ends the search inside the object. -/
theorem ucStrstrIn_open {s : Str} (hs : 0 ∉ s) (s2 : Str) :
    s2 <:+: s ∧ (∃ r, ucStrstrIn s s2 = some (some r)) ∨ ¬ s2 <:+: s ∧ ucStrstrIn s s2 = none := by
  induction s with
  | nil =>
    rw [ucStrstrIn,List.infix_nil]
    split <;> simp_all
  | cons a s ih =>
    have hih := ih fun h0 => hs (List.mem_cons_of_mem a h0)
    rw [ucStrstrIn,List.infix_cons_iff]
    obtain ⟨hp,hat⟩ | ⟨hp,⟨hlen,hat⟩ | ⟨c,hc,hat⟩⟩ := strstrAt_open (a :: s) s2
    · exact .inl ⟨.inl hp,by simp [hat]⟩
    · have hno : ¬ s2 <:+: s :=
        fun h => absurd h.length_le (by rw [List.length_cons] at hlen; omega)
      exact .inr ⟨by simp [hp,hno],by simp [hat]⟩
    · have h0 : c ≠ 0 := fun h0 => hs (h0 ▸ hc)
      simpa [hat,h0,hp] using hih

end Mardio
