import Mardio.DottedQuad
import Mardio.Xprintf

/-!
Numbers as text. What the formatter writes for `%d`, with any width and either
justification, is what the console reads back; zeros for padding come in front
of the sign, so with them only numbers without one are read back.
-/

set_option autoImplicit false

namespace Mardio
open ByteMem

/-! Digits. -/

theorem decimal_length {n k : Nat} (h : n < 10^(k+1)) : (decimal n).length ≤ k+1 := by
  induction k generalizing n with
  | zero =>
    rw [decimal_eq,if_pos (by simpa using h)]
    simp
  | succ k ih =>
    rw [decimal_eq]
    split
    · simp
    · have hi := ih (n := n/10) (by rw [Nat.pow_succ] at h; omega)
      simp
      omega

theorem decimal_head {n : Nat} (h : 0 < n) :
    ∃ c s, decimal n = c :: s ∧ c ≠ 48 ∧ isDigit c = true := by
  induction n using Nat.strong_induction_on with
  | _ n ih =>
    rw [decimal_eq]
    split
    · rename_i hlt
      refine ⟨digit n,[],rfl,fun h0 => ?_,(digit_spec hlt).1⟩
      have hn := (digit_spec hlt).2
      rw [h0,show (48 : UInt8).toNat = 48 from rfl] at hn
      omega
    · obtain ⟨c,s,hs,hc⟩ := ih (n/10) (by omega) (by omega)
      exact ⟨c,s ++ [digit (n % 10)],by rw [hs]; rfl,hc⟩

theorem digitsValue_append {s : Str} (hs : ∀ c ∈ s, isDigit c = true) (v : Nat) (rest : Str) :
    digitsValue v (s ++ rest) = digitsValue (digitsValue v s) rest := by
  induction s generalizing v with
  | nil => rfl
  | cons c s ih =>
    obtain ⟨hc,hs⟩ := List.forall_mem_cons.mp hs
    have hr : 48 ≤ c ∧ c ≤ 57 := by simpa [isDigit] using hc
    simp only [List.cons_append,digitsValue,hr,and_self,if_true]
    exact ih hs _

theorem digitsValue_digit {k : Nat} (hk : k < 10) (v : Nat) : digitsValue v [digit k] = v*10+k := by
  obtain ⟨hd,hn⟩ := digit_spec hk
  have hr : 48 ≤ digit k ∧ digit k ≤ 57 := by simpa [isDigit] using hd
  rw [digitsValue,if_pos hr,digitsValue,hn]
  omega

theorem digitsValue_decimal (n : Nat) : digitsValue 0 (decimal n) = n := by
  induction n using Nat.strong_induction_on with
  | _ n ih =>
    rw [decimal_eq]
    split
    · rename_i hlt
      rw [digitsValue_digit hlt]
      omega
    · rw [digitsValue_append (decimal_digits _).2,ih (n/10) (by omega),
        digitsValue_digit (Nat.mod_lt _ (by decide))]
      omega

theorem digitsValue_stop (v : Nat) {s : Str} (hs : ∀ c ∈ s.head?, isDigit c = false) :
    digitsValue v s = v := by
  cases s with
  | nil => rfl
  | cons c s =>
    have hc : ¬ (48 ≤ c ∧ c ≤ 57) := by simpa [isDigit] using hs c rfl
    rw [digitsValue,if_neg hc]

/-- The formatter collects the digits from the last one on. -/
theorem xdigits_decimal (lower : Bool) {n v : Nat} (h : v < 10^(n+1)) :
    (xdigits 10 lower (n+1) v).reverse = decimal v := by
  have hdigit : ∀ k < 10, UInt8.ofNat (48+k+if k > 9 then (if lower then 0x27 else 0x07) else 0) =
      digit k := by
    intro k hk
    rw [if_neg (by omega)]
    rfl
  induction n generalizing v with
  | zero =>
    have hv : v < 10 := by simpa using h
    rw [decimal_eq,if_pos hv]
    simp only [xdigits]
    rw [hdigit _ (Nat.mod_lt v (by decide)),if_pos (by omega),Nat.mod_eq_of_lt hv]
    rfl
  | succ n ih =>
    rw [xdigits,hdigit _ (Nat.mod_lt v (by decide)),List.reverse_cons,decimal_eq]
    by_cases hv : v < 10
    · rw [if_pos (by omega),if_pos hv,Nat.mod_eq_of_lt hv]
      rfl
    · rw [if_neg (by omega),if_neg hv,ih (by rw [Nat.pow_succ] at h; omega)]

/-! Conversions. -/

/-- A number with its sign. -/
def decimalInt (v : Int) : Str := if v < 0 then 45 :: decimal v.natAbs else decimal v.natAbs

/-- The argument as the conversion takes it from the list. -/
def rawArg (h : Host) (signed : Bool) (f : XFlags) (v : Int) : Nat :=
  ((if f.long then v else if signed then Int.bmod v (2^32) else v % 2^32) % 2^h.longBits).toNat

theorem xnumber_decimal (h : Host) (signed lower : Bool) (f : XFlags) (w : Nat) {v : Int}
    {negative : Bool} {n : Nat} (hs : (signed && (rawArg h signed f v).testBit 31) = negative)
    (hn : (if negative then (2^h.longBits-rawArg h signed f v) % 2^h.longBits
      else rawArg h signed f v) = n)
    (hlt : n < 10^15) :
    xnumber h 10 signed lower f w v =
      some (xpad f.left (if f.zero then 48 else 32) w
        ((if negative then [45] else []) ++ decimal n).length
        ((if negative then [45] else []) ++ decimal n)) := by
  have hdec : (xdigits 10 lower 16 n).reverse = decimal n := xdigits_decimal lower (by omega)
  have hlen : (xdigits 10 lower 16 n).length ≤ 15 := by
    rw [← List.length_reverse,hdec]
    exact decimal_length (k := 14) hlt
  unfold rawArg at hs hn
  simp only [xnumber,hs,hn]
  rw [if_neg (by omega)]
  cases negative
  · simp [← hdec]
  · simp [← hdec,Nat.add_comm]

theorem xnumber_signed (h : Host) (lower : Bool) {f : XFlags} (hf : f.long = false) (w : Nat)
    {v : Int} (hl : -2^31 ≤ v) (hu : v < 2^31) :
    xnumber h 10 true lower f w v =
      some (xpad f.left (if f.zero then 48 else 32) w (decimalInt v).length (decimalInt v)) := by
  have hb : Int.bmod v (2^32) = v := Int.bmod_eq_of_le_mul_two (by omega) (by omega)
  have hraw : rawArg h true f v = (v % 2^h.longBits).toNat := by
    rw [rawArg,hf,if_neg Bool.false_ne_true,if_pos rfl,hb]
  have hsign : (rawArg h true f v).testBit 31 = decide (v < 0) := by
    rw [hraw,Nat.testBit_eq_decide_div_mod_eq,decide_eq_decide]
    cases h <;> simp only [Host.longBits] <;> omega
  have habs : (if decide (v < 0) then (2^h.longBits-rawArg h true f v) % 2^h.longBits
      else rawArg h true f v) =
      v.natAbs := by
    rw [hraw]
    by_cases hneg : v < 0
    · simp only [hneg,decide_true,if_true]
      cases h <;> simp only [Host.longBits] <;> omega
    · simp only [hneg,decide_false,Bool.false_eq_true,if_false]
      cases h <;> simp only [Host.longBits] <;> omega
  have hd : decimalInt v = (if decide (v < 0) then [45] else []) ++ decimal v.natAbs := by
    by_cases hneg : v < 0 <;> simp [decimalInt,hneg]
  rw [xnumber_decimal h true lower f w (by rw [Bool.true_and,hsign]) habs (by omega),hd]

/-! Formats. -/

inductive Padding where
  | right | left | zeros
  deriving DecidableEq, Repr

def Padding.flags : Padding → XFlags
  | .right => ⟨false,false,false⟩
  | .left => ⟨false,true,false⟩
  | .zeros => ⟨true,false,false⟩

def Padding.text : Padding → Str
  | .right => []
  | .left => [45]
  | .zeros => [48]

/-- No width is one of 0. -/
def widthText (w : Nat) : Str := if w = 0 then [] else decimal w

theorem xvprintf_digit (h : Host) (f : XFlags) {u k : Nat} (hk : k < 10) (hu : u*10+k < 2^32)
    (fmt : Str) (args : List XArg) :
    xvprintf h (.width f u) (digit k :: fmt) args = xvprintf h (.width f (u*10+k)) fmt args := by
  obtain ⟨hd,hn⟩ := digit_spec hk
  have hr : 48 ≤ digit k ∧ digit k ≤ 57 := by simpa [isDigit] using hd
  have hstep : xstep (.width f u) (digit k) = .next (.width f (u*10+k)) := by
    rw [xstep,xwidth,if_pos hr,hn]
    congr 2
    omega
  rw [xvprintf,hstep]

theorem xvprintf_width (h : Host) (f : XFlags) {w : Nat} (hw : w < 2^32) (fmt : Str)
    (args : List XArg) :
    xvprintf h (.width f 0) (decimal w ++ fmt) args = xvprintf h (.width f w) fmt args := by
  induction w using Nat.strong_induction_on generalizing fmt with
  | _ w ih =>
    rw [decimal_eq]
    split
    · rename_i hlt
      rw [List.singleton_append,xvprintf_digit h f hlt (by omega)]
      congr 2
      omega
    · rw [List.append_assoc,ih (w/10) (by omega) (by omega),List.singleton_append,
        xvprintf_digit h f (Nat.mod_lt _ (by decide)) (by omega)]
      congr 2
      omega

theorem xvprintf_widthText (h : Host) (f : XFlags) {w : Nat} (hw : w < 2^32) (fmt : Str)
    (args : List XArg) :
    xvprintf h (.width f 0) (widthText w ++ fmt) args = xvprintf h (.width f w) fmt args := by
  unfold widthText
  split
  · rename_i h0
    rw [h0]
    rfl
  · exact xvprintf_width h f hw fmt args

/-- Without a flag the first character belongs to the width or to the type. -/
theorem xvprintf_noFlag (h : Host) {c : UInt8} (h0 : c ≠ 48) (hm : c ≠ 45) (fmt : Str)
    (args : List XArg) :
    xvprintf h .flag (c :: fmt) args = xvprintf h (.width ⟨false,false,false⟩ 0)
      (c :: fmt) args := by
  have hstep : xstep .flag c = xstep (.width ⟨false,false,false⟩ 0) c := by simp [xstep,xflag,h0,hm]
  rw [xvprintf,hstep,xvprintf]

/-- A conversion with its flag, its width and its type. -/
theorem xvprintf_conversion (h : Host) (p : Padding) {w : Nat} (hw : w < 2^32) {c : UInt8}
    (hc : isDigit c = false) (hl : c ≠ 108 ∧ c ≠ 76) (hm : c ≠ 45) (fmt : Str) (args : List XArg) :
    xvprintf h .text (37 :: (p.text ++ (widthText w ++ c :: fmt))) args =
      (xconvert h c p.flags w args).bind fun r => (xvprintf h .text fmt r.2).map (r.1 ++ ·) := by
  have hpercent : xstep .text 37 = .next .flag := rfl
  have hnd : ¬ (48 ≤ c ∧ c ≤ 57) := by simpa [isDigit] using hc
  have hend : xstep (.width p.flags w) c = .convert p.flags w := by
    rw [xstep,xwidth,if_neg hnd,if_neg (by tauto)]
  have hfirst : xvprintf h .flag (p.text ++ (widthText w ++ c :: fmt)) args =
      xvprintf h (.width p.flags 0) (widthText w ++ c :: fmt) args := by
    cases p with
    | left => rfl
    | zeros => rfl
    | right =>
      by_cases h0 : w = 0
      · have hc0 : c ≠ 48 := by rintro rfl; exact hnd (by decide)
        simpa [Padding.text,Padding.flags,widthText,h0] using xvprintf_noFlag h hc0 hm fmt args
      · obtain ⟨d,s,hs,hd0,hd⟩ := decimal_head (Nat.pos_of_ne_zero h0)
        have hdm : d ≠ 45 := digit_ne hd (by decide)
        simpa [Padding.text,Padding.flags,widthText,h0,hs] using
          xvprintf_noFlag h hd0 hdm (s ++ c :: fmt) args
  rw [xvprintf,hpercent]
  simp only
  rw [hfirst,xvprintf_widthText h _ hw,xvprintf,hend]

/-! Reading back. -/

theorem numberBehind_digits (h : Host) {t : Str} (ht : t ≠ []) (hd : ∀ c ∈ t, isDigit c = true)
    {rest : Str} (hr : ∀ c ∈ rest.head?, isDigit c = false) :
    numberBehind (fun c => !h.above c) (t ++ rest) = digitsValue 0 t := by
  obtain ⟨d,s,rfl⟩ := List.exists_cons_of_ne_nil ht
  obtain ⟨habove,hplus,hminus⟩ := digit_first h (hd d List.mem_cons_self)
  have hsigned : signedValue (d :: (s ++ rest)) = digitsValue 0 (d :: s ++ rest) := by
    simp [signedValue,hplus,hminus]
  rw [numberBehind,List.cons_append]
  simp only [List.dropWhile_cons,habove,Bool.not_true,Bool.false_eq_true,if_false]
  rw [hsigned,digitsValue_append hd,digitsValue_stop _ hr]

theorem numberBehind_decimalInt (h : Host) (v : Int) {rest : Str}
    (hr : ∀ c ∈ rest.head?, isDigit c = false) :
    numberBehind (fun c => !h.above c) (decimalInt v ++ rest) = v := by
  obtain ⟨hne,hdigits⟩ := decimal_digits v.natAbs
  unfold decimalInt
  split
  · have hminus : h.above 45 = true := by cases h <;> rfl
    rw [numberBehind,List.cons_append]
    simp only [List.dropWhile_cons,hminus,Bool.not_true,Bool.false_eq_true,if_false,signedValue]
    rw [digitsValue_append hdigits,digitsValue_decimal,digitsValue_stop _ hr]
    omega
  · rw [numberBehind_digits h hne hdigits hr,digitsValue_decimal]
    omega

theorem numberBehind_spaces (h : Host) (n : Nat) (s : Str) :
    numberBehind (fun c => !h.above c) (List.replicate n 32 ++ s) =
      numberBehind (fun c => !h.above c) s := by
  have hspace : h.above 32 = false := by cases h <;> rfl
  induction n with
  | zero => rfl
  | succ n ih =>
    rw [List.replicate_succ,List.cons_append,numberBehind,List.dropWhile_cons,hspace]
    exact ih

theorem digitsValue_zeros (n : Nat) : digitsValue 0 (List.replicate n 48) = 0 := by
  induction n with
  | zero => rfl
  | succ n ih => simpa [List.replicate_succ,digitsValue] using ih

/-- A number as it is put out. -/
def paddedInt (p : Padding) (w : Nat) (v : Int) : Str :=
  xpad p.flags.left (if p.flags.zero then 48 else 32) w (decimalInt v).length (decimalInt v)

/-- Padding does not change what is read, zeros in front of a sign apart. -/
theorem numberBehind_paddedInt (h : Host) (p : Padding) (w : Nat) {v : Int}
    (hz : p = .zeros → 0 ≤ v) :
    numberBehind (fun c => !h.above c) (paddedInt p w v) = v := by
  have hplain : numberBehind (fun c => !h.above c) (decimalInt v ++ []) = v :=
    numberBehind_decimalInt h v (by simp)
  rw [List.append_nil] at hplain
  cases p with
  | right => exact (numberBehind_spaces h _ _).trans hplain
  | left =>
    refine numberBehind_decimalInt h v fun c hc => ?_
    cases hk : w-(decimalInt v).length with
    | zero => simp [hk] at hc
    | succ k =>
      rw [hk,List.replicate_succ,List.head?_cons,Option.mem_some_iff] at hc
      rw [← hc]
      rfl
  | zeros =>
    have hnat : decimalInt v = decimal v.natAbs := if_neg (by have := hz rfl; omega)
    obtain ⟨hne,hdigits⟩ := decimal_digits v.natAbs
    have hall : ∀ c ∈ List.replicate (w-(decimalInt v).length) 48 ++ decimalInt v, isDigit c =
        true := by
      intro c hc
      rcases List.mem_append.mp hc with h0 | hd
      · rw [List.eq_of_mem_replicate h0]
        rfl
      · exact hdigits c (hnat ▸ hd)
    have hdigs : numberBehind (fun c => !h.above c)
        (List.replicate (w-(decimalInt v).length) 48 ++ decimalInt v ++ []) =
        digitsValue 0 (List.replicate (w-(decimalInt v).length) 48 ++ decimalInt v) :=
      numberBehind_digits h (by simp [hnat,hne]) hall (by simp)
    rw [List.append_nil,digitsValue_append fun c hc => hall c (List.mem_append_left _ hc),
      digitsValue_zeros,hnat,digitsValue_decimal,← hnat] at hdigs
    refine Eq.trans hdigs ?_
    have := hz rfl
    omega

theorem paddedInt_length (p : Padding) (w : Nat) (v : Int) :
    (paddedInt p w v).length = max w (decimalInt v).length := by
  unfold paddedInt
  cases p.flags.left <;> simp [xpad] <;> omega

/-- The conversion `%d` of any padding and width, with whatever follows it. -/
theorem xvprintf_int (h : Host) (p : Padding) {w : Nat} (hw : w < 2^32) {v : Int} (hl : -2^31 ≤ v)
    (hu : v < 2^31) (fmt : Str) (args : List XArg) :
    xvprintf h .text (37 :: (p.text ++ (widthText w ++ 100 :: fmt))) (.int v :: args) =
      (xvprintf h .text fmt args).map (paddedInt p w v ++ ·) := by
  have hlong : p.flags.long = false := by cases p <;> rfl
  have hconv : xconvert h 100 p.flags w (.int v :: args) = some (paddedInt p w v,args) := by
    have hn := xnumber_signed h false hlong w hl hu
    simpa [xconvert,upperCase,paddedInt] using hn
  rw [xvprintf_conversion h p hw rfl (by decide) (by decide),hconv,Option.bind_some]

/-- The format of a number: `%`, a flag, a width and `d`. -/
def numberFormat (p : Padding) (w : Nat) : Str := 37 :: (p.text ++ (widthText w ++ [100]))

/-- A number written with `%d`, a flag and a width is as long as it should be and read
back as the number it is, on both hosts. -/
theorem xvprintf_q3Atoi (h : Host) (p : Padding) (w : Nat) (v : Int) (hw : w < 2^32)
    (hl : -2^31 ≤ v) (hu : v < 2^31) (hz : p = .zeros → 0 ≤ v) :
    ∃ out, xvprintf h .text (numberFormat p w) [.int v] = some out ∧
      out.length = max w (decimalInt v).length ∧ q3Atoi h out = v := by
  refine ⟨paddedInt p w v,?_,paddedInt_length p w v,?_⟩
  · rw [numberFormat,xvprintf_int h p hw hl hu]
    simp [xvprintf]
  · rw [q3Atoi_eq,numberBehind_paddedInt h p w hz]
    exact Int.bmod_eq_of_le_mul_two (by omega) (by omega)

theorem xvprintf_q3Atoi_least : ∃ out, xvprintf .stm32 .text (numberFormat .left 14)
    [.int (-2147483648)] = some out ∧
    out.length = max 14 (decimalInt (-2147483648)).length ∧ q3Atoi .stm32 out = -2147483648 :=
  xvprintf_q3Atoi .stm32 .left 14 (-2147483648) (by decide) (by decide) (by decide) (by decide)

/-! Addresses. -/

def quadFormat : Str := ascii ['%','d','.','%','d','.','%','d','.','%','d']

def inetFormat : Str :=
  ascii [' ',' ',' ',' ','i','n','e','t',' '] ++
    (quadFormat ++ (ascii [' ','n','e','t','m','a','s','k',' '] ++
    (quadFormat ++ (ascii [' ','g','w',' '] ++ (quadFormat ++ [10])))))

/-- The lowest byte of the word comes first. -/
def quadArgs (addr : UInt32) : List XArg :=
  [.int ((addr >>> 0) &&& 0xFF).toNat,.int ((addr >>> 8) &&& 0xFF).toNat,
    .int ((addr >>> 16) &&& 0xFF).toNat,.int ((addr >>> 24) &&& 0xFF).toNat]

/-- The line of `net_ifconfig` with the addresses. -/
def inetLine (h : Host) (ipAddr netmask gw : UInt32) : Option Str :=
  xvprintf h .text inetFormat (quadArgs ipAddr ++ (quadArgs netmask ++ quadArgs gw))

theorem decimal_octet {n : Nat} (hn : n < 256) : Octet (decimal n) := by
  obtain ⟨hne,hdigits⟩ := decimal_digits n
  refine ⟨List.length_pos_iff.mpr hne,decimal_length (k := 2) (by omega),hdigits,?_⟩
  rw [digitsValue_decimal]
  omega

/-- `%d` alone. -/
theorem xvprintf_plain (h : Host) {n : Nat} (hn : n < 256) (fmt : Str) (args : List XArg) :
    xvprintf h .text (37 :: 100 :: fmt) (.int n :: args) =
      (xvprintf h .text fmt args).map (decimal n ++ ·) := by
  have hint := xvprintf_int h .right (w := 0) (by decide) (v := n) (by omega) (by omega) fmt args
  have hd : paddedInt .right 0 n = decimal n := by simp [paddedInt,Padding.flags,xpad,decimalInt]
  rw [hd] at hint
  exact hint

theorem xvprintf_dot (h : Host) (fmt : Str) (args : List XArg) :
    xvprintf h .text (46 :: fmt) args = (xvprintf h .text fmt args).map ([46] ++ ·) :=
  xvprintf_text h (s := [46]) (by decide) fmt args

def wordByte (addr : UInt32) (i : Nat) : Nat := addr.toNat/256^i % 256

def quadText (addr : UInt32) : Str :=
  decimal (wordByte addr 0) ++ [46] ++ decimal (wordByte addr 1) ++ [46] ++
    decimal (wordByte addr 2) ++ [46] ++
    decimal (wordByte addr 3)

theorem wordByte_lt (addr : UInt32) (i : Nat) : wordByte addr i < 256 := Nat.mod_lt _ (by decide)

theorem quadArgs_eq (addr : UInt32) :
    quadArgs addr = [.int (wordByte addr 0),.int (wordByte addr 1),.int (wordByte addr 2),
      .int (wordByte addr 3)] := by
  have hbyte : ∀ k, ((addr.toNat >>> k) &&& 255) = addr.toNat/2^k % 256 := by
    intro k
    rw [Nat.shiftRight_eq_div_pow,show (255 : Nat) = 2^8-1 from rfl,Nat.and_two_pow_sub_one_eq_mod]
  have hlow : addr.toNat &&& 255 = addr.toNat % 256 := by simpa using hbyte 0
  simp [quadArgs,wordByte,hbyte,hlow]

theorem xvprintf_quad (h : Host) (addr : UInt32) (fmt : Str) (args : List XArg) :
    xvprintf h .text (quadFormat ++ fmt) (quadArgs addr ++ args) =
      (xvprintf h .text fmt args).map (quadText addr ++ ·) := by
  have hf : quadFormat ++ fmt = 37 :: 100 :: 46 :: 37 :: 100 :: 46 :: 37 :: 100 :: 46 :: 37 ::
      100 :: fmt := rfl
  rw [hf,quadArgs_eq]
  simp only [List.cons_append,List.nil_append,xvprintf_plain h (wordByte_lt addr _),xvprintf_dot,
    Option.map_map]
  simp [quadText,Function.comp_def]

theorem quadText_quad (addr : UInt32) :
    DottedQuad (decimal (wordByte addr 0)) (decimal (wordByte addr 1)) (decimal (wordByte addr 2))
      (decimal (wordByte addr 3)) (quadText addr) :=
  ⟨decimal_octet (wordByte_lt addr 0),decimal_octet (wordByte_lt addr 1),
    decimal_octet (wordByte_lt addr 2),decimal_octet (wordByte_lt addr 3),rfl⟩

/-- The bytes of a word in the other order. -/
def swapBytes (addr : UInt32) : UInt32 :=
  UInt32.ofNat (wordByte addr 0*2^24+wordByte addr 1*2^16+wordByte addr 2*2^8+wordByte addr 3)

theorem netStr2ip_quadText (h : Host) (addr ip : UInt32) :
    netStr2ip h (some (quadText addr)) ip = (0,swapBytes addr) := by
  rw [(quadText_quad addr).read h ip]
  simp only [quadValue,digitsValue_decimal,swapBytes]

/-- Every address that is shown is read back by `net_str2ip`, in host order. -/
theorem inetLine_netStr2ip (h : Host) (ipAddr netmask gw : UInt32) :
    ∃ a b c, inetLine h ipAddr netmask gw =
      some (ascii [' ',' ',' ',' ','i','n','e','t',' '] ++ (a ++
        (ascii [' ','n','e','t','m','a','s','k',' '] ++
          (b ++ (ascii [' ','g','w',' '] ++ (c ++ [13,10])))))) ∧
      ∀ ip, netStr2ip h (some a) ip = (0,swapBytes ipAddr) ∧
        netStr2ip h (some b) ip = (0,swapBytes netmask) ∧
          netStr2ip h (some c) ip = (0,swapBytes gw) := by
  refine ⟨quadText ipAddr,quadText netmask,quadText gw,?_,fun ip =>
    ⟨netStr2ip_quadText h ipAddr ip,netStr2ip_quadText h netmask ip,netStr2ip_quadText h gw ip⟩⟩
  have hquad := xvprintf_quad h gw [10] []
  rw [List.append_nil] at hquad
  have hline : xvprintf h .text [10] [] = some [13,10] := rfl
  rw [inetLine,inetFormat,xvprintf_text h (by decide),xvprintf_quad,xvprintf_text h (by decide),
    xvprintf_quad,xvprintf_text h (by decide),hquad,hline]
  rfl

end Mardio
