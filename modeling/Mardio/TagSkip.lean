import Mardio.Cmd
import Mardio.Libmad

/-!
The length `libmad_error` passes to `mad_stream_skip` at a lost synchronisation,
through all the integer types it goes through, against the size of the tag.
-/

set_option autoImplicit false

namespace Mardio

/-- `id3_tag_query` gives back its `uint32_t` as a `signed long`, which `libmad_error`
keeps in an `int`. The length of the window is passed as a `uint32_t`. -/
def tagsize (h : Host) (data : Str) : Int :=
  Int.bmod (Int.bmod (id3TagQuery data (data.length % 2^32)) (2^h.longBits)) (2^32)

/-- The `unsigned long` parameter of `mad_stream_skip`, if it is called. -/
def skipLength (h : Host) (data : Str) : Option Nat :=
  if tagsize h data = 0 then none else some (tagsize h data % 2^h.longBits).toNat

/-- The tags a stream can contain in front of their audio, with their sizes in
bytes. A footer stands behind its tag, so no tag starts at one. -/
inductive TagAt (data : Str) : Nat → Prop
  | id3v1 (rest : Str) (h : data = [0x54,0x41,0x47] ++ rest) : TagAt data 128
  | id3v2 (major revision flags a b c d : UInt8) (rest : Str)
      (h : data = [0x49,0x44,0x33,major,revision,flags,a,b,c,d] ++ rest)
      (ha : a.toNat < 128) (hb : b.toNat < 128) (hc : c.toNat < 128) (hd : d.toNat < 128) :
      TagAt data (10+(a.toNat*2^21+b.toNat*2^14+c.toNat*2^7+d.toNat)+if flags.toNat.testBit 4
        then 10 else 0)

/-- Every conversion keeps the 32 bits of the query; the last one extends their sign. -/
theorem tagsize_eq (h : Host) (data : Str) :
    tagsize h data = Int.bmod (id3TagQuery data (data.length % 2^32)) (2^32) := by
  cases h with
  | linux => exact Int.bmod_bmod_of_dvd (by decide)
  | stm32 => exact Int.bmod_bmod_of_dvd (by decide)

theorem skipLength_of_lt {h : Host} {data : Str} (h0 : 0 < id3TagQuery data (data.length % 2^32))
    (hlt : id3TagQuery data (data.length % 2^32) < 2^31) :
    skipLength h data = some (id3TagQuery data (data.length % 2^32)) := by
  have hb : Int.bmod (id3TagQuery data (data.length % 2^32)) (2^32) =
      id3TagQuery data (data.length % 2^32) := Int.bmod_eq_of_le_mul_two (by omega) (by omega)
  rw [skipLength,tagsize_eq,hb,if_neg (by omega)]
  refine congrArg some ?_
  cases h with
  | linux => simp only [Host.longBits]; omega
  | stm32 => simp only [Host.longBits]; omega

theorem skipLength_footer {h : Host} {data : Str}
    (ht : tagtype data (data.length % 2^32) = .id3v2Footer) :
    skipLength h data = some (2^h.longBits-(parseSyncsafe data 6+10)) := by
  have hs := parseSyncsafe_lt data 6
  have hq : (id3TagQuery data (data.length % 2^32) : Int) = 2^32-(parseSyncsafe data 6+10) := by
    simp only [id3TagQuery,ht]
    omega
  have hb : Int.bmod (2^32-(parseSyncsafe data 6+10)) (2^32) = -(parseSyncsafe data 6+10) := by
    rw [← Int.sub_bmod_right]
    refine (Int.bmod_eq_of_le_mul_two ?_ ?_).trans ?_ <;> omega
  rw [skipLength,tagsize_eq,hq,hb,if_neg (by omega)]
  refine congrArg some ?_
  cases h with
  | linux => simp only [Host.longBits]; omega
  | stm32 => simp only [Host.longBits]; omega

theorem parseSyncsafe_eq {data : Str} {k : Nat} (ha : byteAt data k < 128)
    (hb : byteAt data (k+1) < 128) (hc : byteAt data (k+2) < 128) (hd : byteAt data (k+3) < 128) :
    parseSyncsafe data k =
      byteAt data k*2^21+byteAt data (k+1)*2^14+byteAt data (k+2)*2^7+byteAt data (k+3) := by
  rw [parseSyncsafe]
  omega

theorem tagtype_id3v1 {data : Str} {length : Nat} (ht : tagtype data length = .id3v1) :
    3 < length ∧ byteAt data 0 = 0x54 ∧ byteAt data 1 = 0x41 ∧ byteAt data 2 = 0x47 := by
  rw [tagtype] at ht
  split at ht
  case isTrue h => exact h
  case isFalse => split at ht <;> [split at ht; skip] <;> cases ht

theorem tagtype_id3v2 {data : Str} {length : Nat} (ht : tagtype data length = .id3v2) :
    10 < length ∧ byteAt data 0 = 0x49 ∧ byteAt data 1 = 0x44 ∧ byteAt data 2 = 0x33 ∧
      byteAt data 6 < 128 ∧ byteAt data 7 < 128 ∧ byteAt data 8 < 128 ∧ byteAt data 9 < 128 := by
  rw [tagtype] at ht
  split at ht
  case isTrue => cases ht
  case isFalse =>
    split at ht
    case isFalse => cases ht
    case isTrue h =>
      split at ht
      case isFalse => cases ht
      case isTrue h0 =>
        obtain ⟨hl,hmark,-,-,h6,h7,h8,h9⟩ := h
        cases hmark with
        | inl hmark => exact ⟨hl,h0,hmark.2.1,hmark.2.2,h6,h7,h8,h9⟩
        | inr hmark => omega

theorem tagAt_id3v1 {data : Str} (ht : tagtype data (data.length % 2^32) = .id3v1) :
    TagAt data 128 := by
  obtain ⟨hl,h0,h1,h2⟩ := tagtype_id3v1 ht
  match data with
  | a :: b :: c :: rest =>
    have ha : a = 0x54 := UInt8.toNat_inj.mp h0
    have hb : b = 0x41 := UInt8.toNat_inj.mp h1
    have hc : c = 0x47 := UInt8.toNat_inj.mp h2
    exact .id3v1 rest (by rw [ha,hb,hc]; rfl)
  | [] | [_] | [_,_] => simp at hl

theorem tenBytes (data : Str) (h : 10 < data.length) :
    data = [data.getD 0 0,data.getD 1 0,data.getD 2 0,data.getD 3 0,data.getD 4 0,data.getD 5 0,
      data.getD 6 0,data.getD 7 0,data.getD 8 0,data.getD 9 0] ++ data.drop 10 := by
  match data with
  | _ :: _ :: _ :: _ :: _ :: _ :: _ :: _ :: _ :: _ :: _ => rfl
  | [] | [_] | [_,_] | [_,_,_] | [_,_,_,_] | [_,_,_,_,_] | [_,_,_,_,_,_] | [_,_,_,_,_,_,_]
  | [_,_,_,_,_,_,_,_] | [_,_,_,_,_,_,_,_,_] => simp at h

theorem id3TagQuery_id3v2 {data : Str} {length : Nat} (ht : tagtype data length = .id3v2) :
    id3TagQuery data length =
      10+parseSyncsafe data 6+if (byteAt data 5).testBit 4 then 10 else 0 := by
  have hflag : id3TagFlagFooterPresent (byteAt data 5) = (byteAt data 5).testBit 4 := by
    rw [id3TagFlagFooterPresent,Nat.testBit_eq_decide_div_mod_eq]
    rfl
  simp only [id3TagQuery,ht,hflag]
  split <;> omega

theorem tagAt_id3v2 {data : Str} (ht : tagtype data (data.length % 2^32) = .id3v2) :
    TagAt data (id3TagQuery data (data.length % 2^32)) := by
  obtain ⟨hl,h0,h1,h2,h6,h7,h8,h9⟩ := tagtype_id3v2 ht
  have hi : data.getD 0 0 = 0x49 := UInt8.toNat_inj.mp h0
  have hd : data.getD 1 0 = 0x44 := UInt8.toNat_inj.mp h1
  have hthree : data.getD 2 0 = 0x33 := UInt8.toNat_inj.mp h2
  have hten := tenBytes data (by omega)
  rw [hi,hd,hthree] at hten
  rw [id3TagQuery_id3v2 ht,parseSyncsafe_eq h6 h7 h8 h9]
  exact .id3v2 _ _ _ _ _ _ _ _ hten h6 h7 h8 h9

structure SkipSound (h : Host) (data : Str) : Prop where
  tag : ∀ n, skipLength h data = some n → TagAt data n
  bounded : ∀ n, skipLength h data = some n → n ≤ 2^28+20

theorem not_skipSound_footer {h : Host} {data : Str}
    (ht : tagtype data (data.length % 2^32) = .id3v2Footer) : ¬ SkipSound h data := by
  intro hs
  have hlt := parseSyncsafe_lt data 6
  have hle := hs.bounded _ (skipLength_footer ht)
  cases h with
  | linux => simp only [Host.longBits] at hle; omega
  | stm32 => simp only [Host.longBits] at hle; omega

theorem skipSound_of_tag {h : Host} {data : Str} (h0 : 0 < id3TagQuery data (data.length % 2^32))
    (hle : id3TagQuery data (data.length % 2^32) ≤ 2^28+20)
    (htag : TagAt data (id3TagQuery data (data.length % 2^32))) : SkipSound h data := by
  have hsome := skipLength_of_lt (h := h) h0 (by omega)
  constructor
  · intro n hn
    cases hsome.symm.trans hn
    exact htag
  · intro n hn
    cases hsome.symm.trans hn
    exact hle

theorem skipLength_sound_iff (h : Host) (data : Str) :
    SkipSound h data ↔ tagtype data (data.length % 2^32) ≠ .id3v2Footer := by
  refine ⟨fun hs ht => not_skipSound_footer ht hs,fun hne => ?_⟩
  cases ht : tagtype data (data.length % 2^32) with
  | none =>
    have hq : id3TagQuery data (data.length % 2^32) = 0 := (id3TagQuery_eq_zero_iff _ _).mpr ht
    have hnone : skipLength h data = none := by
      rw [skipLength,tagsize_eq,hq]
      rfl
    constructor <;> simp [hnone]
  | id3v1 =>
    have hq : id3TagQuery data (data.length % 2^32) = 128 := by simp only [id3TagQuery,ht]
    refine skipSound_of_tag (by omega) (by omega) ?_
    rw [hq]
    exact tagAt_id3v1 ht
  | id3v2 =>
    have hlt := parseSyncsafe_lt data 6
    have hq := id3TagQuery_id3v2 ht
    have hle : id3TagQuery data (data.length % 2^32) ≤ 2^28+20 := by
      rw [hq]
      split <;> omega
    exact skipSound_of_tag (by omega) hle (tagAt_id3v2 ht)
  | id3v2Footer => exact absurd ht hne

/-- A window that starts with the footer of an empty tag. -/
theorem skipLength_empty_footer :
    skipLength .linux [0x33,0x44,0x49,4,0,0x10,0,0,0,0,0xFF] = some (2^64-10) ∧
      skipLength .stm32 [0x33,0x44,0x49,4,0,0x10,0,0,0,0,0xFF] = some (2^32-10) ∧
      ¬ SkipSound .linux [0x33,0x44,0x49,4,0,0x10,0,0,0,0,0xFF] ∧
      ¬ SkipSound .stm32 [0x33,0x44,0x49,4,0,0x10,0,0,0,0,0xFF] :=
  ⟨by decide,by decide,not_skipSound_footer (by decide),not_skipSound_footer (by decide)⟩

theorem intToUlong_eq (h : Host) {n : Nat} (hn : n < 2^32) :
    intToUlong h n = (Int.bmod n (2^32) % 2^h.longBits).toNat := by
  rw [intToUlong]
  split
  · rw [Int.bmod_eq_of_le_mul_two (by omega) (by omega)]
    cases h <;> simp only [Host.longBits] <;> omega
  · rw [← Int.sub_bmod_right,Int.bmod_eq_of_le_mul_two (by omega) (by omega)]
    cases h <;> simp only [Host.longBits] <;> omega

/-- The skip of the decoder glue is this length. -/
theorem libmadError_skip (h : Host) (ls : Ls) (data : Str)
    (hlen : ls.stream.bufend-ls.stream.thisFrame < 2^32)
    (hdata : data = ByteMem.window ls.buffer ls.stream.thisFrame
      (ls.stream.bufend-ls.stream.thisFrame)) :
    libmadError h .lostsync ls = (.cont,{ ls with
      stream := (skipLength h data).elim ls.stream fun n =>
        { ls.stream with skiplen := (ls.stream.skiplen+n) % 2^h.longBits } }) := by
  have hl : data.length = ls.stream.bufend-ls.stream.thisFrame := by simp [hdata]
  have hlong := intToUlong_eq h (id3TagQuery_lt data data.length)
  have hmod : data.length % 2^32 = data.length := Nat.mod_eq_of_lt (by omega)
  rw [libmadError,← hdata,← hl,skipLength,tagsize_eq,hmod]
  by_cases h0 : id3TagQuery data data.length = 0
  · simp [h0]
  · have hne : Int.bmod (id3TagQuery data data.length) (2^32) ≠ 0 := by
      intro hb
      have hpow : 2^32 ≤ 2^h.longBits := by cases h <;> decide
      rw [hb,intToUlong] at hlong
      split at hlong <;> simp at hlong <;> omega
    rw [if_pos h0,if_neg hne,← hlong]
    rfl

end Mardio
