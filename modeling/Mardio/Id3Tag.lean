import Mardio.Libc

/-!
Recognition of ID3 tags at the start of a block of bytes.
-/

set_option autoImplicit false

namespace Mardio

inductive TagType where
  | none | id3v1 | id3v2 | id3v2Footer
  deriving DecidableEq, Repr

def byteAt (data : List UInt8) (k : Nat) : Nat := (data.getD k 0).toNat

def tagtype (data : List UInt8) (length : Nat) : TagType :=
  -- "TAG"
  if length > 3 ∧ byteAt data 0 = 0x54 ∧ byteAt data 1 = 0x41 ∧ byteAt data 2 = 0x47 then .id3v1
  -- "ID3" or "3DI"
  else if length > 10 ∧
      ((byteAt data 0 = 0x49 ∧ byteAt data 1 = 0x44 ∧ byteAt data 2 = 0x33) ∨
        (byteAt data 0 = 0x33 ∧ byteAt data 1 = 0x44 ∧ byteAt data 2 = 0x49)) ∧
      byteAt data 3 < 0xFF ∧ byteAt data 4 < 0xFF ∧
      byteAt data 6 < 0x80 ∧ byteAt data 7 < 0x80 ∧ byteAt data 8 < 0x80 ∧ byteAt data 9 < 0x80 then
    if byteAt data 0 = 0x49 then .id3v2 else .id3v2Footer
  else .none

def parseSyncsafe (data : List UInt8) (k : Nat) : Nat :=
  (((byteAt data k % 128)*128+byteAt data (k+1) % 128)*128+byteAt data (k+2) % 128)*128+
    byteAt data (k+3) % 128

def id3TagFlagFooterPresent (flags : Nat) : Bool := flags / 16 % 2 == 1

/-- The 32-bit unsigned result. For a footer tag it is `-size-10` modulo `2^32`. -/
def id3TagQuery (data : List UInt8) (length : Nat) : Nat :=
  match tagtype data length with
  | .id3v1 => 128
  | .id3v2 =>
      let size := parseSyncsafe data 6
      let size := if id3TagFlagFooterPresent (byteAt data 5) then size+10 else size
      10+size
  | .id3v2Footer => 2^32-parseSyncsafe data 6-10
  | .none => 0

theorem parseSyncsafe_lt (data : List UInt8) (k : Nat) : parseSyncsafe data k < 2^28 := by
  unfold parseSyncsafe
  omega

/-- A tag of any kind has a length of 32 bits that is not zero. -/
theorem id3TagQuery_cases (data : List UInt8) (length : Nat) :
    tagtype data length = .none ∧ id3TagQuery data length = 0 ∨
      tagtype data length ≠ .none ∧ 0 < id3TagQuery data length ∧
        id3TagQuery data length < 2^32 := by
  have hs := parseSyncsafe_lt data 6
  unfold id3TagQuery
  cases tagtype data length with
  | none => simp
  | id3v1 => simp
  | id3v2 =>
    simp only [reduceCtorEq,false_and,ne_eq,not_false_eq_true,true_and,false_or]
    split <;> omega
  | id3v2Footer =>
    simp only [reduceCtorEq,false_and,ne_eq,not_false_eq_true,true_and,false_or]
    omega

theorem id3TagQuery_eq_zero_iff (data : List UInt8) (length : Nat) :
    id3TagQuery data length = 0 ↔ tagtype data length = .none := by
  obtain ⟨ht,hq⟩ | ⟨ht,hq,-⟩ := id3TagQuery_cases data length
  · exact iff_of_true hq ht
  · exact iff_of_false hq.ne' ht

theorem id3TagQuery_lt (data : List UInt8) (length : Nat) : id3TagQuery data length < 2^32 := by
  obtain ⟨-,hq⟩ | ⟨-,-,hq⟩ := id3TagQuery_cases data length
  · omega
  · exact hq

end Mardio
