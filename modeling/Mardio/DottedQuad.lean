import Mardio.Url
import Mardio.Volume

/-!
Reading an address in dotted form. Two cursors go over the text; at a dot and at the end
the segment between them is copied and read as a number. Behind a dot both move on and
one of them moves again at the end of the loop, so the character behind a dot is never
compared with one.
-/

set_option autoImplicit false

namespace Mardio

/-- The text of a segment is copied to a cleared buffer, which ends it. -/
def closeSegment (h : Host) (segment : Str) (tmpIp : UInt32) : Option UInt32 :=
  if 3 < segment.length then none
  else
    let tmpSeg := UInt32.ofInt (q3Atoi h segment)
    if 255 < tmpSeg then none else some (tmpIp <<< 8 ||| tmpSeg)

/-- The bytes from `tail` up to `head`. -/
def between (s : Str) (tail head : Nat) : Str := (s.drop tail).take (head-tail)

def str2ipLoop (h : Host) (str : Str) (len head tail : Nat) (tmpIp : UInt32) : Option UInt32 :=
  if len < head then some tmpIp
  else if str.getD head 0 = 46 ∨ head = len then
    match closeSegment h (between str tail head) tmpIp with
    | none => none
    | some tmpIp => str2ipLoop h str len (head+2) (head+1) tmpIp
  else str2ipLoop h str len (head+1) tail tmpIp
termination_by len+1-head

/-- The length is a signed 32-bit integer. -/
def intLength (s : Str) : Int := Int.bmod s.length (2^32)

/-- What is returned, and what the pointer designates then. -/
def netStr2ip (h : Host) (str : Option Str) (ip : UInt32) : Int × UInt32 :=
  match str with
  | none => (-1,ip)
  | some str =>
    let len := intLength str
    if len = 0 ∨ len < 7 then (-1,ip)
    else
      match str2ipLoop h str len.toNat 0 0 0 with
      | none => (-1,ip)
      | some tmpIp => (0,tmpIp)

/-! How the text is cut. -/

/-- The segments of a text, with the part of the first one that is behind the cursor. -/
def piecesFrom (segment : Str) : Str → List Str
  | [] => [segment]
  | c :: rest =>
    if c = 46 then
      match rest with
      | [] => [segment]
      | d :: rest => segment :: piecesFrom [d] rest
    else piecesFrom (segment ++ [c]) rest

/-- A dot separates, unless it stands right behind one that does; and behind a last dot
that separates there is no segment. -/
def pieces (s : Str) : List Str := piecesFrom [] s

theorem piecesFrom_dot_cons (segment : Str) (d : UInt8) (rest : Str) :
    piecesFrom segment (46 :: d :: rest) = segment :: piecesFrom [d] rest := by simp [piecesFrom]

theorem piecesFrom_char {c : UInt8} (hc : c ≠ 46) (segment rest : Str) :
    piecesFrom segment (c :: rest) = piecesFrom (segment ++ [c]) rest := by
  cases rest <;> simp [piecesFrom,hc]

theorem between_self (s : Str) (k : Nat) : between s k k = [] := by simp [between]

theorem between_succ {s : Str} {tail head : Nat} (ht : tail ≤ head) (hh : head < s.length) :
    between s tail (head+1) = between s tail head ++ [s.getD head 0] := by
  obtain ⟨n,rfl⟩ := Nat.exists_eq_add_of_le ht
  have hn : n < (s.drop tail).length := by
    rw [List.length_drop]
    omega
  rw [between,between,Nat.add_assoc,Nat.add_sub_cancel_left,Nat.add_sub_cancel_left,
    List.take_add_one,List.getElem?_eq_getElem hn,List.getElem_drop,List.getD_eq_getElem _ _ hh]
  rfl

theorem drop_take_cons {s : Str} {len head : Nat} (hlen : len ≤ s.length) (hh : head < len) :
    (s.take len).drop head = s.getD head 0 :: (s.take len).drop (head+1) := by
  have hin : head < (s.take len).length := by
    rw [List.length_take]
    omega
  rw [List.drop_eq_getElem_cons hin,List.getElem_take,List.getD_eq_getElem _ _ (by omega)]

theorem str2ipLoop_over (h : Host) (str : Str) {len head : Nat} (hh : len < head) (tail : Nat) :
    str2ipLoop h str len head tail = some := by
  funext tmpIp
  rw [str2ipLoop,if_pos hh]

theorem str2ipLoop_close (h : Host) {str : Str} {len head : Nat} (hh : head ≤ len)
    (hcut : str.getD head 0 = 46 ∨ head = len) (tail : Nat) (tmpIp : UInt32) :
    str2ipLoop h str len head tail tmpIp =
      (closeSegment h (between str tail head) tmpIp).bind
        (str2ipLoop h str len (head+2) (head+1)) := by
  rw [str2ipLoop,if_neg (by omega),if_pos hcut]
  cases closeSegment h (between str tail head) tmpIp <;> rfl

theorem str2ipLoop_next (h : Host) {str : Str} {len head : Nat} (hh : head < len)
    (hdot : str.getD head 0 ≠ 46) (tail : Nat) (tmpIp : UInt32) :
    str2ipLoop h str len head tail tmpIp = str2ipLoop h str len (head+1) tail tmpIp := by
  rw [str2ipLoop,if_neg (by omega),if_neg]
  rintro (h46 | hend)
  · exact hdot h46
  · omega

/-- The segments one after the other. -/
def readPieces (h : Host) : List Str → UInt32 → Option UInt32
  | [], tmpIp => some tmpIp
  | p :: ps, tmpIp => (closeSegment h p tmpIp).bind (readPieces h ps)

/-- The loop reads the pieces: the induction is on what is left of the text, and behind a
dot two characters go at once. -/
theorem str2ipLoop_eq (h : Host) {str : Str} {len : Nat} (hlen : len ≤ str.length)
    (head tail : Nat) (tmpIp : UInt32) (ht : tail ≤ head) (hh : head ≤ len) :
    str2ipLoop h str len head tail tmpIp =
      readPieces h (piecesFrom (between str tail head) ((str.take len).drop head)) tmpIp := by
  induction hn : len-head using Nat.strong_induction_on generalizing head tail tmpIp with
  | _ n ih =>
    rcases Nat.eq_or_lt_of_le hh with hend | hlt
    · have hrest : (str.take len).drop head = [] := by simp [hend]
      rw [str2ipLoop_close h hh (.inr hend),str2ipLoop_over h str (by omega),hrest]
      rfl
    · rw [drop_take_cons hlen hlt]
      by_cases hdot : str.getD head 0 = 46
      · rw [str2ipLoop_close h hh (.inl hdot),hdot]
        by_cases hlast : head+1 = len
        · have hrest : (str.take len).drop (head+1) = [] := by simp [hlast]
          rw [str2ipLoop_over h str (by omega),hrest]
          rfl
        · rw [drop_take_cons hlen (by omega),piecesFrom_dot_cons,readPieces]
          congr 1
          funext ip
          rw [ih (len-(head+2)) (by omega) (head+2) (head+1) ip (by omega) (by omega) rfl,
            between_succ (Nat.le_refl _) (by omega),between_self]
          rfl
      · rw [str2ipLoop_next h hlt hdot,piecesFrom_char hdot,
          ih (len-(head+1)) (by omega) (head+1) tail tmpIp (by omega) (by omega) rfl,
            between_succ ht (by omega)]

/-! What a segment counts for. -/

/-- The number at the front of a segment, behind what the host takes for blanks. -/
def segmentValue (h : Host) (p : Str) : Int := numberBehind (fun c => !h.above c) p

def SegmentFits (h : Host) (p : Str) : Prop :=
  p.length ≤ 3 ∧ 0 ≤ segmentValue h p ∧ segmentValue h p ≤ 255

instance (h : Host) (p : Str) : Decidable (SegmentFits h p) :=
  inferInstanceAs (Decidable (_ ∧ _ ∧ _))

theorem digitsValue_lt (v : Nat) (s : Str) : digitsValue v s < (v+1)*10^s.length := by
  induction s generalizing v with
  | nil => simp [digitsValue]
  | cons c s ih =>
    rw [digitsValue,List.length_cons,Nat.pow_succ]
    split
    · rename_i hc
      have hle : c.toNat ≤ 57 := UInt8.le_iff_toNat_le.mp hc.2
      have hstep : v*10+(c.toNat-48)+1 ≤ (v+1)*10 := by omega
      calc digitsValue (v*10+(c.toNat-48)) s
          < (v*10+(c.toNat-48)+1)*10^s.length := ih _
        _ ≤ (v+1)*10*10^s.length := Nat.mul_le_mul_right _ hstep
        _ = (v+1)*(10^s.length*10) := by ring
    · have hpos : 1 ≤ 10^s.length*10 := by
        have := Nat.one_le_pow s.length 10 (by decide)
        omega
      calc v < (v+1)*1 := by omega
        _ ≤ (v+1)*(10^s.length*10) := Nat.mul_le_mul_left _ hpos

theorem digitsValue_short {s : Str} (hs : s.length ≤ 3) : digitsValue 0 s < 1000 :=
  (digitsValue_lt 0 s).trans_le (by simpa using Nat.pow_le_pow_right (show 1 ≤ 10 by decide) hs)

theorem signedValue_short {s : Str} (hs : s.length ≤ 3) :
    -1000 < signedValue s ∧ signedValue s < 1000 := by
  fun_cases signedValue s with
  | case1 s =>
    have := digitsValue_short (s := s) (by simp at hs; omega)
    omega
  | case2 s =>
    have := digitsValue_short (s := s) (by simp at hs; omega)
    omega
  | case3 s =>
    have := digitsValue_short hs
    omega

theorem segmentValue_short (h : Host) {p : Str} (hp : p.length ≤ 3) :
    -1000 < segmentValue h p ∧ segmentValue h p < 1000 :=
  signedValue_short ((List.dropWhile_suffix _).length_le.trans hp)

/-- Three characters do not overflow. -/
theorem q3Atoi_short (h : Host) {p : Str} (hp : p.length ≤ 3) : q3Atoi h p = segmentValue h p := by
  have hbounds := segmentValue_short h hp
  have heq : q3Atoi h p = Int.bmod (segmentValue h p) (2^32) := q3Atoi_eq h p
  rw [heq]
  exact Int.bmod_eq_of_le_mul_two (by omega) (by omega)

theorem ofInt_toNat (v : Int) : (UInt32.ofInt v).toNat = (v % 2^32).toNat := by
  rw [UInt32.ofInt,UInt32.toNat_ofNat']
  omega

/-- A byte goes behind the others. -/
theorem shift_or_eq (ip seg : UInt32) (hseg : seg.toNat ≤ 255) : ip <<< 8 ||| seg = ip*256+seg := by
  have hhigh : ip.toNat <<< 8 % 2^32 = (ip.toNat % 2^24) <<< 8 := by
    rw [Nat.shiftLeft_eq,Nat.shiftLeft_eq]
    omega
  apply UInt32.toNat_inj.mp
  rw [UInt32.toNat_or,UInt32.toNat_shiftLeft,show (8 : UInt32).toNat % 32 = 8 from rfl,hhigh,
    ← Nat.shiftLeft_add_eq_or_of_lt (show seg.toNat < 2^8 by omega),UInt32.toNat_add,
    UInt32.toNat_mul,Nat.shiftLeft_eq,show (256 : UInt32).toNat = 256 from rfl]
  omega

theorem closeSegment_eq (h : Host) (p : Str) (tmpIp : UInt32) :
    closeSegment h p tmpIp =
      if SegmentFits h p then some (tmpIp*256+UInt32.ofInt (segmentValue h p)) else none := by
  rw [closeSegment]
  by_cases hlong : 3 < p.length
  · rw [if_pos hlong,if_neg fun hfits => absurd hfits.1 (by omega)]
  · have hshort := Nat.not_lt.mp hlong
    have hbounds := segmentValue_short h hshort
    have hnat := ofInt_toNat (segmentValue h p)
    simp only [if_neg hlong,q3Atoi_short h hshort]
    by_cases hover : 255 < UInt32.ofInt (segmentValue h p)
    · -- also where the number is negative
      have hbig : 255 < (UInt32.ofInt (segmentValue h p)).toNat := UInt32.lt_iff_toNat_lt.mp hover
      rw [if_pos hover,if_neg fun hfits => absurd hfits.2 (by omega)]
    · have hsmall : (UInt32.ofInt (segmentValue h p)).toNat ≤ 255 :=
        UInt32.le_iff_toNat_le.mp (UInt32.not_lt.mp hover)
      have hfits : SegmentFits h p := ⟨hshort,by omega,by omega⟩
      rw [if_neg hover,if_pos hfits,shift_or_eq _ _ hsmall]

/-- The bytes of the address, one behind the other. -/
def joinPieces (h : Host) (ps : List Str) (tmpIp : UInt32) : UInt32 :=
  ps.foldl (fun ip p => ip*256+UInt32.ofInt (segmentValue h p)) tmpIp

theorem readPieces_eq (h : Host) (ps : List Str) (tmpIp : UInt32) :
    readPieces h ps tmpIp = if ∀ p ∈ ps, SegmentFits h p then some (joinPieces h ps tmpIp)
      else none := by
  induction ps generalizing tmpIp with
  | nil => simp [readPieces,joinPieces]
  | cons p ps ih =>
    rw [readPieces,closeSegment_eq]
    by_cases hp : SegmentFits h p
    · simp [hp,ih,joinPieces]
    · simp [hp]

/-- Too short a text, or a segment that does not fit. -/
def Refused (h : Host) (s : Str) : Prop :=
  intLength s < 7 ∨ ∃ p ∈ pieces (s.take (intLength s).toNat), ¬ SegmentFits h p

instance (h : Host) (s : Str) : Decidable (Refused h s) :=
  inferInstanceAs (Decidable (_ ∨ ∃ p ∈ _, _))

theorem bmod_le_self (n m : Nat) : Int.bmod n m ≤ n := by
  have hmod : (n : Int) % m ≤ n := by exact_mod_cast Nat.mod_le n m
  rw [Int.bmod_def]
  split
  · exact hmod
  · omega

theorem intLength_le (s : Str) : intLength s ≤ s.length := bmod_le_self s.length (2^32)

theorem intLength_eq {s : Str} (hs : s.length < 2^31) : intLength s = s.length :=
  Int.bmod_eq_of_le_mul_two (by omega) (by omega)

/-- The function as a whole. -/
theorem netStr2ip_eq (h : Host) (s : Str) (ip : UInt32) :
    netStr2ip h (some s) ip =
      if Refused h s then (-1,ip) else (0,
        joinPieces h (pieces (s.take (intLength s).toNat)) 0) := by
  have hle := intLength_le s
  rw [netStr2ip]
  by_cases hshort : intLength s < 7
  · rw [if_pos (.inr hshort),if_pos (.inl hshort)]
  · have hloop : str2ipLoop h s (intLength s).toNat 0 0 0 =
        readPieces h (pieces (s.take (intLength s).toNat)) 0 := by
      rw [str2ipLoop_eq h (by omega) 0 0 0 (Nat.le_refl 0) (Nat.zero_le _),between_self,
        List.drop_zero,pieces]
    simp only [if_neg (show ¬ (intLength s = 0 ∨ intLength s < 7) by omega),hloop,readPieces_eq]
    by_cases hfits : ∀ p ∈ pieces (s.take (intLength s).toNat), SegmentFits h p
    · have hn : ¬ Refused h s := by
        rintro (hlt | ⟨p,hp,hnot⟩)
        · exact hshort hlt
        · exact hnot (hfits p hp)
      rw [if_neg hn,if_pos hfits]
    · have hr : Refused h s := .inr (by simpa using hfits)
      rw [if_pos hr,if_neg hfits]

/-! The grammar. -/

structure Octet (a : Str) : Prop where
  nonempty : 1 ≤ a.length
  short : a.length ≤ 3
  digits : ∀ c ∈ a, isDigit c = true
  small : digitsValue 0 a ≤ 255

structure DottedQuad (a b c d s : Str) : Prop where
  first : Octet a
  second : Octet b
  third : Octet c
  fourth : Octet d
  text : s = a ++ [46] ++ b ++ [46] ++ c ++ [46] ++ d

def quadValue (a b c d : Str) : UInt32 :=
  UInt32.ofNat (digitsValue 0 a*2^24+digitsValue 0 b*2^16+digitsValue 0 c*2^8+digitsValue 0 d)

theorem digit_bounds {c : UInt8} (hc : isDigit c = true) : 48 ≤ c.toNat ∧ c.toNat ≤ 57 := by
  simpa [isDigit,UInt8.le_iff_toNat_le] using hc

theorem digit_ne {c : UInt8} (hc : isDigit c = true) {b : UInt8} (hb : b.toNat < 48) : c ≠ b := by
  have := digit_bounds hc
  rintro rfl
  omega

theorem piecesFrom_digits {a : Str} (ha : ∀ c ∈ a, isDigit c = true) (segment rest : Str) :
    piecesFrom segment (a ++ rest) = piecesFrom (segment ++ a) rest := by
  induction a generalizing segment with
  | nil => simp
  | cons c a ih =>
    obtain ⟨hc,ha⟩ := List.forall_mem_cons.mp ha
    rw [List.cons_append,piecesFrom_char (digit_ne hc (by decide)),ih ha,List.append_assoc,
      List.singleton_append]

theorem Octet.pieces {b : Str} (hb : Octet b) (segment rest : Str) :
    piecesFrom segment (46 :: (b ++ rest)) = segment :: piecesFrom b rest := by
  obtain ⟨hne,-,hdigits,-⟩ := hb
  cases b with
  | nil => simp at hne
  | cons x b =>
    rw [List.cons_append,piecesFrom_dot_cons,piecesFrom_digits (List.forall_mem_cons.mp hdigits).2]
    rfl

theorem Octet.value {a : Str} (ha : Octet a) (h : Host) : segmentValue h a = digitsValue 0 a := by
  obtain ⟨hne,-,hdigits,-⟩ := ha
  cases a with
  | nil => simp at hne
  | cons x a =>
    have hx := (List.forall_mem_cons.mp hdigits).1
    have hbounds := digit_bounds hx
    have habove : h.above x = true := by
      cases h <;> simp [Host.above,UInt8.lt_iff_toNat_lt] <;> omega
    have hplus := digit_ne hx (b := 43) (by decide)
    have hminus := digit_ne hx (b := 45) (by decide)
    simp [segmentValue,numberBehind,habove,signedValue,hplus,hminus]

theorem Octet.fits {a : Str} (ha : Octet a) (h : Host) : SegmentFits h a := by
  refine ⟨ha.short,?_⟩
  rw [ha.value h]
  have := ha.small
  omega

theorem DottedQuad.pieces {a b c d s : Str} (hq : DottedQuad a b c d s) :
    Mardio.pieces s = [a,b,c,d] := by
  obtain ⟨ha,hb,hc,hd,rfl⟩ := hq
  have hlast := hd.pieces c []
  rw [List.append_nil] at hlast
  have htext : a ++ [46] ++ b ++ [46] ++ c ++ [46] ++ d =
      a ++ 46 :: (b ++ 46 :: (c ++ 46 :: d)) := by simp
  rw [htext,Mardio.pieces,piecesFrom_digits ha.digits,List.nil_append,hb.pieces,hc.pieces,hlast]
  rfl

theorem DottedQuad.intLength {a b c d s : Str} (hq : DottedQuad a b c d s) :
    Mardio.intLength s = s.length ∧ 7 ≤ s.length := by
  obtain ⟨⟨_,_,-,-⟩,⟨_,_,-,-⟩,⟨_,_,-,-⟩,⟨_,_,-,-⟩,rfl⟩ := hq
  have hlen : (a ++ [46] ++ b ++ [46] ++ c ++ [46] ++ d).length =
      a.length+b.length+c.length+d.length+3 := by
    simp
    omega
  exact ⟨intLength_eq (by omega),by omega⟩

/-- As long as there is room, nothing is shifted out. -/
theorem joinPieces_toNat (h : Host) (ps : List Str) (tmpIp : UInt32) (hps : ∀ p ∈ ps, Octet p)
    (hroom : (tmpIp.toNat+1)*256^ps.length ≤ 2^32) :
    (joinPieces h ps tmpIp).toNat = ps.foldl (fun n p => n*256+digitsValue 0 p) tmpIp.toNat := by
  induction ps generalizing tmpIp with
  | nil => rfl
  | cons p ps ih =>
    obtain ⟨hp,hps⟩ := List.forall_mem_cons.mp hps
    have hsmall := hp.small
    rw [List.length_cons,Nat.pow_succ',← Nat.mul_assoc] at hroom
    have hbyte : (tmpIp.toNat+1)*256 ≤ 2^32 :=
      (Nat.le_mul_of_pos_right _ (Nat.pow_pos (by decide))).trans hroom
    have hstep : (tmpIp*256+UInt32.ofInt (segmentValue h p)).toNat =
        tmpIp.toNat*256+digitsValue 0 p := by
      rw [hp.value,UInt32.toNat_add,UInt32.toNat_mul,ofInt_toNat,show (256 : UInt32).toNat =
        256 from rfl]
      omega
    have hrest : (tmpIp.toNat*256+digitsValue 0 p+1)*256^ps.length ≤ 2^32 :=
      (Nat.mul_le_mul_right _ (by omega)).trans hroom
    have htail := ih (tmpIp*256+UInt32.ofInt (segmentValue h p)) hps (by rwa [hstep])
    rwa [hstep] at htail

theorem DottedQuad.join {a b c d s : Str} (hq : DottedQuad a b c d s) (h : Host) :
    joinPieces h [a,b,c,d] 0 = quadValue a b c d := by
  have h1 := hq.first.small
  have h2 := hq.second.small
  have h3 := hq.third.small
  have h4 := hq.fourth.small
  have hps : ∀ p ∈ [a,b,c,d], Octet p := by simp [hq.first,hq.second,hq.third,hq.fourth]
  apply UInt32.toNat_inj.mp
  rw [joinPieces_toNat h _ 0 hps (by simp),quadValue,UInt32.toNat_ofNat']
  simp only [List.foldl_cons,List.foldl_nil,UInt32.toNat_zero]
  omega

theorem DottedQuad.read {a b c d s : Str} (hq : DottedQuad a b c d s) (h : Host) (ip : UInt32) :
    netStr2ip h (some s) ip = (0,quadValue a b c d) := by
  obtain ⟨hint,hseven⟩ := hq.intLength
  have htake : s.take (Mardio.intLength s).toNat = s := by rw [hint]; simp
  have hfits : ∀ p ∈ [a,b,c,d], SegmentFits h p := by
    simp [hq.first.fits h,hq.second.fits h,hq.third.fits h,hq.fourth.fits h]
  have hread : ¬ Refused h s := by
    rintro (hlt | ⟨p,hp,hnot⟩)
    · omega
    · rw [htake,hq.pieces] at hp
      exact hnot (hfits p hp)
  rw [netStr2ip_eq,if_neg hread,htake,hq.pieces,hq.join]

theorem Octet.dots {a : Str} (ha : Octet a) : a.count 46 = 0 :=
  List.count_eq_zero.mpr fun hmem => digit_ne (ha.digits 46 hmem) (by decide) rfl

theorem DottedQuad.dots {a b c d s : Str} (hq : DottedQuad a b c d s) : s.count 46 = 3 := by
  obtain ⟨ha,hb,hc,hd,rfl⟩ := hq
  simp [List.count_append,ha.dots,hb.dots,hc.dots,hd.dots]

/-- The result is 0 for a dotted quad and no other text, the address is then the one of
the quad, and otherwise the result is -1 and the address as it was. -/
def ReadsGrammar (h : Host) (s : Str) (ip : UInt32) : Prop :=
  ((netStr2ip h (some s) ip).1 = 0 ↔ ∃ a b c d, DottedQuad a b c d s) ∧
    (∀ a b c d, DottedQuad a b c d s → (netStr2ip h (some s) ip).2 = quadValue a b c d) ∧
    ((¬ ∃ a b c d, DottedQuad a b c d s) → netStr2ip h (some s) ip = (-1,ip))

/-- Every dotted quad is read as it should be, so the grammar is kept exactly where a text
is one or is refused. -/
theorem netStr2ip_grammar_iff (h : Host) (s : Str) (ip : UInt32) :
    ReadsGrammar h s ip ↔ Refused h s ∨ ∃ a b c d, DottedQuad a b c d s := by
  by_cases hq : ∃ a b c d, DottedQuad a b c d s
  · obtain ⟨a,b,c,d,habcd⟩ := hq
    refine iff_of_true ⟨?_,?_,?_⟩ (.inr ⟨a,b,c,d,habcd⟩)
    · rw [habcd.read h ip]
      exact iff_of_true rfl ⟨a,b,c,d,habcd⟩
    · intro a' b' c' d' hq'
      rw [hq'.read h ip]
    · intro hn
      exact absurd ⟨a,b,c,d,habcd⟩ hn
  · rw [or_iff_left hq]
    constructor
    · intro hg
      by_contra hr
      have hresult := hg.2.2 hq
      rw [netStr2ip_eq,if_neg hr] at hresult
      simp at hresult
    · intro hr
      have hresult : netStr2ip h (some s) ip = (-1,ip) := by rw [netStr2ip_eq,if_pos hr]
      refine ⟨?_,?_,fun _ => hresult⟩
      · rw [hresult]
        exact iff_of_false (by simp) hq
      · intro a b c d habcd
        exact absurd ⟨a,b,c,d,habcd⟩ hq

theorem ReadsGrammar.dots {h : Host} {s : Str} {ip : UInt32} (hg : ReadsGrammar h s ip)
    (hread : (netStr2ip h (some s) ip).1 = 0) : s.count 46 = 3 := by
  obtain ⟨a,b,c,d,hq⟩ := hg.1.mp hread
  exact hq.dots

def threeParts : Str := ascii ['1','9','2','.','1','6','8','.','0']
def fiveParts : Str := ascii ['1','.','2','.','3','.','4','.','5']
def letterParts : Str := ascii ['a','b','c','.','d','e','f']

/-- `192.168.0` is read as 0.192.168.0, the first of five parts is shifted out, and letters
are read as zeros. -/
theorem netStr2ip_threeParts :
    netStr2ip .stm32 (some threeParts) 7 = (0,192*2^16+168*2^8) ∧
      netStr2ip .stm32 (some fiveParts) 7 = (0,2*2^24+3*2^16+4*2^8+5) ∧
      netStr2ip .stm32 (some letterParts) 7 = (0,0) ∧
      ¬ ReadsGrammar .stm32 threeParts 7 ∧ ¬ ReadsGrammar .stm32 fiveParts 7 ∧
        ¬ ReadsGrammar .stm32 letterParts 7 := by
  have hthree : netStr2ip .stm32 (some threeParts) 7 = (0,192*2^16+168*2^8) := by
    rw [netStr2ip_eq]
    decide
  have hfive : netStr2ip .stm32 (some fiveParts) 7 = (0,2*2^24+3*2^16+4*2^8+5) := by
    rw [netStr2ip_eq]
    decide
  have hletters : netStr2ip .stm32 (some letterParts) 7 = (0,0) := by
    rw [netStr2ip_eq]
    decide
  refine ⟨hthree,hfive,hletters,fun hg => ?_,fun hg => ?_,fun hg => ?_⟩
  · exact absurd (hg.dots (by rw [hthree])) (by decide)
  · exact absurd (hg.dots (by rw [hfive])) (by decide)
  · exact absurd (hg.dots (by rw [hletters])) (by decide)

end Mardio
