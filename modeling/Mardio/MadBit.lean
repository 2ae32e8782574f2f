import Mardio.Lib.BitString
import Mardio.Lib.Crc

/-!
The bit pointer of the decoding library. `left` counts the bits of the current
byte that are still to be read; after a skip it can be 0, and then the next bit
is the first one of the byte behind. Read and skip together make the pointer a
position in the bit string of the memory.
-/

set_option autoImplicit false

namespace Mardio
open ByteMem BitString

structure MadBitptr where
  byte : Nat
  cache : Nat
  left : Nat
  deriving DecidableEq, Repr

def madBitInit (byte : Nat) : MadBitptr := ⟨byte,0,8⟩

/-- The difference of the two pointers may be negative; the sum is an `unsigned int`. -/
def madBitLength (begin_ end_ : MadBitptr) : Nat :=
  ((begin_.left+8*((end_.byte : Int)-(begin_.byte+1))+(8-end_.left)) % 2^32).toNat

def madBitNextbyte (bitptr : MadBitptr) : Nat :=
  if bitptr.left = 8 then bitptr.byte else bitptr.byte+1

/-- `left` is an `unsigned short`: it wraps when the skip passes the end of the byte. -/
def madBitSkip (m : Mem) (bitptr : MadBitptr) (len : Nat) : MadBitptr :=
  let p := { bitptr with byte := bitptr.byte+len/8, left := (bitptr.left+2^16-len % 8) % 2^16 }
  let p := if p.left > 8 then { p with byte := p.byte+1, left := (p.left+8) % 2^16 } else p
  if p.left < 8 then { p with cache := (m p.byte).toNat } else p

/-- The whole bytes of a read: `len` is at least 8 for as long as the loop runs. -/
def madBitBytes (m : Mem) : Nat → Nat → Nat → Nat × Nat
  | 0, byte, value => (byte,value)
  | n+1, byte, value => madBitBytes m n (byte+1) (value <<< 8 ||| (m byte).toNat)

/-- No caller reads more than 32 bits, so that no shift loses one in an `unsigned long`. -/
def madBitRead (m : Mem) (bitptr : MadBitptr) (len : Nat) : Nat × MadBitptr :=
  let p := if bitptr.left = 8 then { bitptr with cache := (m bitptr.byte).toNat } else bitptr
  let rest := p.cache &&& (1 <<< p.left)-1
  if len < p.left then (rest >>> (p.left-len),{ p with left := p.left-len })
  else
    let len := len-p.left
    let (byte,value) := madBitBytes m (len/8) (p.byte+1) rest
    let len := len % 8
    if len > 0 then
      let cache := (m byte).toNat
      (value <<< len ||| cache >>> (8-len),⟨byte,cache,8-len⟩)
    else (value,⟨byte,p.cache,8⟩)

/-! The pointer as a position. -/

def MadBitptr.pos (p : MadBitptr) : Nat := 8*p.byte+(8-p.left)

structure MadBitptr.Valid (m : Mem) (p : MadBitptr) : Prop where
  left : p.left ≤ 8
  cache : p.left < 8 → p.cache = (m p.byte).toNat

theorem madBitInit_valid (m : Mem) (byte : Nat) : (madBitInit byte).Valid m :=
  ⟨Nat.le_refl 8,fun h => absurd h (Nat.lt_irrefl 8)⟩

@[simp] theorem madBitInit_pos (byte : Nat) : (madBitInit byte).pos = 8*byte := rfl

theorem madBitNextbyte_eq {m : Mem} {p : MadBitptr} (h : p.Valid m) :
    madBitNextbyte p = (p.pos+7)/8 := by
  have hl := h.left
  unfold madBitNextbyte MadBitptr.pos
  split <;> omega

theorem madBitLength_eq {m : Mem} {p q : MadBitptr} (hp : p.Valid m) (hq : q.Valid m)
    (h : p.pos ≤ q.pos) : madBitLength p q = (q.pos-p.pos) % 2^32 := by
  have hl := hp.left
  have hl' := hq.left
  unfold madBitLength
  unfold MadBitptr.pos at *
  omega

theorem madBitSkip_spec {m : Mem} {p : MadBitptr} (h : p.Valid m) (len : Nat) :
    (madBitSkip m p len).Valid m ∧ (madBitSkip m p len).pos = p.pos+len := by
  have hl := h.left
  have hm := Nat.div_add_mod len 8
  unfold madBitSkip MadBitptr.pos
  by_cases hr : len % 8 ≤ p.left
  · have hleft : (p.left+2^16-len % 8) % 2^16 = p.left-len % 8 := by omega
    simp only [hleft,if_neg (show ¬ p.left-len % 8 > 8 by omega)]
    split
    · exact ⟨⟨by simp only; omega,fun _ => rfl⟩,by simp only; omega⟩
    · exact ⟨⟨by simp only; omega,fun h8 => absurd h8 ‹_›⟩,by simp only; omega⟩
  · have hleft : (p.left+2^16-len % 8) % 2^16 = 2^16+p.left-len % 8 := by omega
    have hwrap : (2^16+p.left-len % 8+8) % 2^16 = p.left+8-len % 8 := by omega
    simp only [hleft,if_pos (show 2^16+p.left-len % 8 > 8 by omega),hwrap,
      if_pos (show p.left+8-len % 8 < 8 by omega)]
    exact ⟨⟨by simp only; omega,fun _ => rfl⟩,by omega⟩

theorem madBitBytes_eq (m : Mem) (n byte value : Nat) :
    madBitBytes m n byte value = (byte+n,value*2^(8*n)+field m (8*byte) (8*n)) := by
  induction n generalizing byte value with
  | zero => simp [madBitBytes,field_zero]
  | succ n ih =>
    have hb := (m byte).toNat_lt
    have hs : 8*(n+1) = 8+8*n := by omega
    rw [madBitBytes,ih,← Nat.shiftLeft_add_eq_or_of_lt hb,Nat.shiftLeft_eq,hs,field_add,field_byte,
      Nat.pow_add,show 8*(byte+1) = 8*byte+8 by omega]
    ext
    · simp only; omega
    · simp only; ring

/-- The pointer with its cache filled, as a read first makes it. -/
theorem MadBitptr.Valid.fill {m : Mem} {p : MadBitptr} (h : p.Valid m) :
    (if p.left = 8 then { p with cache := (m p.byte).toNat } else p) =
      (⟨p.byte,(m p.byte).toNat,p.left⟩ : MadBitptr) := by
  have hl := h.left
  split
  · rfl
  · rw [← h.cache (by omega)]

theorem madBitRead_spec {m : Mem} {p : MadBitptr} (h : p.Valid m) (len : Nat) :
    (madBitRead m p len).1 = field m p.pos len ∧
      (madBitRead m p len).2.Valid m ∧ (madBitRead m p len).2.pos = p.pos+len := by
  have hl := h.left
  simp only [madBitRead,h.fill,madBitBytes_eq]
  by_cases hlen : len < p.left
  · rw [if_pos hlen]
    exact ⟨(field_back m p.byte p.left len hl hlen.le).symm,⟨by simp only; omega,fun _ => rfl⟩,
      by simp only [MadBitptr.pos]; omega⟩
  · -- the rest of this byte, then whole bytes, then the front of one more
    obtain ⟨n,rfl⟩ := Nat.exists_eq_add_of_le (Nat.le_of_not_lt hlen)
    have hn := Nat.div_add_mod n 8
    have hrest : field m p.pos p.left = (m p.byte).toNat &&& (1 <<< p.left)-1 := by
      have hb := field_back m p.byte p.left p.left hl (Nat.le_refl _)
      rwa [Nat.sub_self,Nat.shiftRight_zero] at hb
    have hpos : p.pos+p.left = 8*(p.byte+1) := by simp only [MadBitptr.pos]; omega
    have hwhole : field m p.pos (p.left+8*(n/8)) =
        ((m p.byte).toNat &&& (1 <<< p.left)-1)*2^(8*(n/8))+field m (8*(p.byte+1)) (8*(n/8)) := by
      rw [field_add,hrest,hpos]
    rw [if_neg hlen,Nat.add_sub_cancel_left,← hwhole]
    by_cases hr : n % 8 > 0
    · have hfront := field_front m (p.byte+1+n/8) (n % 8) (by omega)
      have hlt := field_lt m (8*(p.byte+1+n/8)) (n % 8)
      have hsum : field m p.pos (p.left+n) = field m p.pos (p.left+8*(n/8))*2^(n % 8)+
          field m (8*(p.byte+1+n/8)) (n % 8) := by
        conv_lhs => rw [← hn,← Nat.add_assoc,field_add,← Nat.add_assoc,hpos,← Nat.mul_add]
      rw [if_pos hr,← hfront,← Nat.shiftLeft_add_eq_or_of_lt hlt,Nat.shiftLeft_eq,← hsum]
      exact ⟨rfl,⟨by simp only; omega,fun _ => rfl⟩,by simp only [MadBitptr.pos]; omega⟩
    · have hz : 8*(n/8) = n := by omega
      rw [if_neg hr,hz]
      exact ⟨rfl,⟨Nat.le_refl 8,fun h8 => absurd h8 (Nat.lt_irrefl 8)⟩,
        by simp only [MadBitptr.pos]; omega⟩

theorem madBitRead_eq {m : Mem} {p : MadBitptr} (h : p.Valid m) (len : Nat) :
    ∃ q, madBitRead m p len = (field m p.pos len,q) ∧ q.Valid m ∧ q.pos = p.pos+len := by
  obtain ⟨hv,hq,hp⟩ := madBitRead_spec h len
  exact ⟨_,Prod.ext hv rfl,hq,hp⟩

/-! The check word. -/

def crcTable : List (BitVec 16) := [
    0x0000,0x8005,0x800f,0x000a,0x801b,0x001e,0x0014,0x8011,0x8033,0x0036,0x003c,0x8039,
    0x0028,0x802d,0x8027,0x0022,0x8063,0x0066,0x006c,0x8069,0x0078,0x807d,0x8077,0x0072,
    0x0050,0x8055,0x805f,0x005a,0x804b,0x004e,0x0044,0x8041,0x80c3,0x00c6,0x00cc,0x80c9,
    0x00d8,0x80dd,0x80d7,0x00d2,0x00f0,0x80f5,0x80ff,0x00fa,0x80eb,0x00ee,0x00e4,0x80e1,
    0x00a0,0x80a5,0x80af,0x00aa,0x80bb,0x00be,0x00b4,0x80b1,0x8093,0x0096,0x009c,0x8099,
    0x0088,0x808d,0x8087,0x0082,0x8183,0x0186,0x018c,0x8189,0x0198,0x819d,0x8197,0x0192,
    0x01b0,0x81b5,0x81bf,0x01ba,0x81ab,0x01ae,0x01a4,0x81a1,0x01e0,0x81e5,0x81ef,0x01ea,
    0x81fb,0x01fe,0x01f4,0x81f1,0x81d3,0x01d6,0x01dc,0x81d9,0x01c8,0x81cd,0x81c7,0x01c2,
    0x0140,0x8145,0x814f,0x014a,0x815b,0x015e,0x0154,0x8151,0x8173,0x0176,0x017c,0x8179,
    0x0168,0x816d,0x8167,0x0162,0x8123,0x0126,0x012c,0x8129,0x0138,0x813d,0x8137,0x0132,
    0x0110,0x8115,0x811f,0x011a,0x810b,0x010e,0x0104,0x8101,0x8303,0x0306,0x030c,0x8309,
    0x0318,0x831d,0x8317,0x0312,0x0330,0x8335,0x833f,0x033a,0x832b,0x032e,0x0324,0x8321,
    0x0360,0x8365,0x836f,0x036a,0x837b,0x037e,0x0374,0x8371,0x8353,0x0356,0x035c,0x8359,
    0x0348,0x834d,0x8347,0x0342,0x03c0,0x83c5,0x83cf,0x03ca,0x83db,0x03de,0x03d4,0x83d1,
    0x83f3,0x03f6,0x03fc,0x83f9,0x03e8,0x83ed,0x83e7,0x03e2,0x83a3,0x03a6,0x03ac,0x83a9,
    0x03b8,0x83bd,0x83b7,0x03b2,0x0390,0x8395,0x839f,0x039a,0x838b,0x038e,0x0384,0x8381,
    0x0280,0x8285,0x828f,0x028a,0x829b,0x029e,0x0294,0x8291,0x82b3,0x02b6,0x02bc,0x82b9,
    0x02a8,0x82ad,0x82a7,0x02a2,0x82e3,0x02e6,0x02ec,0x82e9,0x02f8,0x82fd,0x82f7,0x02f2,
    0x02d0,0x82d5,0x82df,0x02da,0x82cb,0x02ce,0x02c4,0x82c1,0x8243,0x0246,0x024c,0x8249,
    0x0258,0x825d,0x8257,0x0252,0x0270,0x8275,0x827f,0x027a,0x826b,0x026e,0x0264,0x8261,
    0x0220,0x8225,0x822f,0x022a,0x823b,0x023e,0x0234,0x8231,0x8213,0x0216,0x021c,0x8219,
    0x0208,0x820d,0x8207,0x0202]

def crcPoly : BitVec 16 := 0x8005

/-- A step by a whole byte. The index keeps only the lowest eight bits of what is
under the remainder. -/
def crcByte (crc : BitVec 32) (data : Nat) : BitVec 32 :=
  crc <<< 8 ^^^ (crcTable.getD (((crc >>> 8).toNat ^^^ data) &&& 0xff) 0).setWidth 32

def crcWords (m : Mem) : Nat → MadBitptr → BitVec 32 → MadBitptr × BitVec 32
  | 0, bitptr, crc => (bitptr,crc)
  | n+1, bitptr, crc =>
      let (data,bitptr) := madBitRead m bitptr 32
      crcWords m n bitptr
        (crcByte (crcByte (crcByte (crcByte crc (data >>> 24)) (data >>> 16)) (data >>> 8)) data)

/-- The cases of the switch fall through, each with one byte. -/
def crcBytes (m : Mem) : Nat → MadBitptr → BitVec 32 → MadBitptr × BitVec 32
  | 0, bitptr, crc => (bitptr,crc)
  | n+1, bitptr, crc =>
      let (data,bitptr) := madBitRead m bitptr 8
      crcBytes m n bitptr (crcByte crc data)

def crcBits (m : Mem) : Nat → MadBitptr → BitVec 32 → BitVec 32
  | 0, _, crc => crc
  | n+1, bitptr, crc =>
      let (bit,bitptr) := madBitRead m bitptr 1
      let msb := bit ^^^ (crc >>> 15).toNat
      crcBits m n bitptr (if msb &&& 1 = 1 then crc <<< 1 ^^^ crcPoly.setWidth 32 else crc <<< 1)

def madBitCrc (m : Mem) (bitptr : MadBitptr) (len : Nat) (init : BitVec 16) : BitVec 16 :=
  let (bitptr,crc) := crcWords m (len/32) bitptr (init.setWidth 32)
  let len := len % 32
  let (bitptr,crc) := crcBytes m (len/8) bitptr crc
  (crcBits m (len % 8) bitptr crc).setWidth 16

/-- Each entry is what eight message bits leave of an empty remainder. -/
theorem crcTable_entry : ∀ i, i < 256 → crcTable.getD i 0 = Crc.run crcPoly 0 (digits 8 i) := by
  decide +kernel

theorem low_byte_bit (c : BitVec 16) (i : Nat) :
    (c &&& 0xff#16).getLsbD i = (decide (i < 8) && c.getLsbD i) := by
  have h : (0xff#16).getLsbD i = decide (i < 8) := by
    rw [BitVec.getLsbD_ofNat,show (255 : Nat) = 2^8-1 by rfl,Nat.testBit_two_pow_sub_one]
    by_cases hi : i < 8 <;> simp [hi]; omega
  rw [BitVec.getLsbD_and,h,Bool.and_comm]

/-- The upper byte of the remainder meets the message byte, the lower one only moves. -/
theorem run_digits (c : BitVec 16) (d : Nat) :
    Crc.run crcPoly c (digits 8 d) =
      c <<< 8 ^^^ Crc.run crcPoly 0#16 (digits 8 ((c >>> 8).toNat ^^^ d)) := by
  have hsplit : c ^^^ Crc.align (digits 8 d) =
      Crc.align (digits 8 ((c >>> 8).toNat ^^^ d)) ^^^ (c &&& 0xff#16) := by
    apply BitVec.eq_of_getMsbD_eq
    intro i hi
    rw [BitVec.getMsbD_xor,BitVec.getMsbD_xor,Crc.align_bit,Crc.align_bit,digits_getD,digits_getD,
      BitVec.getMsbD_eq_getLsbD,BitVec.getMsbD_eq_getLsbD,low_byte_bit,Nat.testBit_xor]
    simp only [BitVec.testBit_toNat,BitVec.getLsbD_ushiftRight]
    by_cases h8 : i < 8
    · have ht : ¬ 16-1-i < 8 := by omega
      have he : 8+(8-1-i) = 16-1-i := by omega
      simp [hi,h8,ht,he]
    · have ht : 16-1-i < 8 := by omega
      simp [hi,h8,ht]
  have hlow : (c &&& 0xff#16) <<< 8 = c <<< 8 := by
    apply BitVec.eq_of_getLsbD_eq
    intro i hi
    rw [BitVec.getLsbD_shiftLeft,BitVec.getLsbD_shiftLeft,low_byte_bit]
    simp [show i-8 < 8 by omega]
  have hzero : ∀ i, i < 8 → (c &&& 0xff#16).getMsbD i = false := by
    intro i hi
    rw [BitVec.getMsbD_eq_getLsbD,low_byte_bit]
    simp [show ¬ 16-1-i < 8 by omega]
  rw [Crc.run_eq_zeros crcPoly c (by simp),Crc.run_eq_zeros crcPoly 0#16 (by simp),hsplit,
    digits_length,digits_length,BitVec.zero_xor,Crc.run_xor_zeros,
    Crc.run_zeros_shift crcPoly _ 8 hzero,hlow,BitVec.xor_comm]

theorem crcByte_run (crc : BitVec 32) (d : Nat) :
    (crcByte crc d).setWidth 16 = Crc.run crcPoly (crc.setWidth 16) (digits 8 d) := by
  have hi : ((crc >>> 8).toNat ^^^ d) &&& 0xff < 256 :=
    Nat.and_lt_two_pow _ (by decide : 0xff < 2^8)
  have hd : digits 8 (((crc >>> 8).toNat ^^^ d) &&& 0xff) =
      digits 8 ((crc.setWidth 16 >>> 8).toNat ^^^ d) := by
    refine digits_congr fun i hi8 => ?_
    have h255 : Nat.testBit 255 i = true := by
      rw [show (255 : Nat) = 2^8-1 by rfl,Nat.testBit_two_pow_sub_one]
      simp [hi8]
    rw [Nat.testBit_and,Nat.testBit_xor,Nat.testBit_xor,h255,Bool.and_true]
    simp only [BitVec.testBit_toNat,BitVec.getLsbD_ushiftRight,BitVec.getLsbD_setWidth]
    simp [show 8+i < 16 by omega]
  have he : crcTable.getD (((crc >>> 8).toNat ^^^ d) &&& 0xff) 0 = Crc.run crcPoly 0#16 _ :=
    crcTable_entry _ hi
  rw [run_digits,← hd,← he,crcByte]
  simp

theorem crcBit_step (crc : BitVec 32) (b : Bool) :
    (if (b.toNat ^^^ (crc >>> 15).toNat) &&& 1 = 1 then crc <<< 1 ^^^ crcPoly.setWidth 32
      else crc <<< 1).setWidth 16 = Crc.step crcPoly (crc.setWidth 16) b := by
  have hm : (crc.setWidth 16).msb = (crc >>> 15).toNat.testBit 0 := by
    simp [BitVec.msb_eq_getLsbD_last,BitVec.testBit_toNat]
  have hb : (b.toNat ^^^ (crc >>> 15).toNat) &&& 1 = 1 ↔ ((crc.setWidth 16).msb ^^ b) = true := by
    rw [hm,Nat.and_one_is_mod,← decide_eq_true_iff (p := _ = 1),← Nat.testBit_zero,Nat.testBit_xor]
    cases b <;> cases (crc >>> 15).toNat.testBit 0 <;> simp
  rw [Crc.step]
  by_cases h : ((crc.setWidth 16).msb ^^ b) = true
  · rw [if_pos (hb.mpr h),if_pos h]
    simp
  · rw [if_neg fun hx => h (hb.mp hx),if_neg h]
    simp

theorem digits_word (v : Nat) : digits 32 v =
    digits 8 (v >>> 24) ++ digits 8 (v >>> 16) ++ digits 8 (v >>> 8) ++ digits 8 v := by
  rw [digits_add 24 8,digits_add 16 8,digits_add 8 8]
  simp only [← Nat.shiftRight_add]

theorem crcWords_spec {m : Mem} (n : Nat) {p : MadBitptr} (h : p.Valid m) (crc : BitVec 32) :
    (crcWords m n p crc).1.Valid m ∧ (crcWords m n p crc).1.pos = p.pos+32*n ∧
      (crcWords m n p crc).2.setWidth 16 =
        Crc.run crcPoly (crc.setWidth 16) (bits m p.pos (32*n)) := by
  induction n generalizing p crc with
  | zero => exact ⟨h,rfl,rfl⟩
  | succ n ih =>
    obtain ⟨hd,hv,hp⟩ := madBitRead_spec h 32
    obtain ⟨hv',hp',hc⟩ := ih hv (crcByte (crcByte (crcByte (crcByte crc (field m p.pos 32 >>> 24))
      (field m p.pos 32 >>> 16)) (field m p.pos 32 >>> 8)) (field m p.pos 32))
    simp only [crcWords,hd]
    refine ⟨hv',by omega,?_⟩
    rw [hc,hp,show 32*(n+1) = 32+32*n by omega,bits_add,Crc.run_append,bits_eq_digits m p.pos,
      digits_word]
    simp only [crcByte_run,Crc.run_append]

theorem crcBytes_spec {m : Mem} (n : Nat) {p : MadBitptr} (h : p.Valid m) (crc : BitVec 32) :
    (crcBytes m n p crc).1.Valid m ∧ (crcBytes m n p crc).1.pos = p.pos+8*n ∧
      (crcBytes m n p crc).2.setWidth 16 =
        Crc.run crcPoly (crc.setWidth 16) (bits m p.pos (8*n)) := by
  induction n generalizing p crc with
  | zero => exact ⟨h,rfl,rfl⟩
  | succ n ih =>
    obtain ⟨hd,hv,hp⟩ := madBitRead_spec h 8
    obtain ⟨hv',hp',hc⟩ := ih hv (crcByte crc (field m p.pos 8))
    simp only [crcBytes,hd]
    refine ⟨hv',by omega,?_⟩
    rw [hc,hp,show 8*(n+1) = 8+8*n by omega,bits_add,Crc.run_append,bits_eq_digits m p.pos,
      crcByte_run]

theorem crcBits_spec {m : Mem} (n : Nat) {p : MadBitptr} (h : p.Valid m) (crc : BitVec 32) :
    (crcBits m n p crc).setWidth 16 = Crc.run crcPoly (crc.setWidth 16) (bits m p.pos n) := by
  induction n generalizing p crc with
  | zero => rfl
  | succ n ih =>
    obtain ⟨hd,hv,hp⟩ := madBitRead_spec h 1
    have hb : field m p.pos 1 = (bitAt m p.pos).toNat := by simp [field,bits,value]
    simp only [crcBits,hd,hb]
    rw [ih hv,hp,crcBit_step,bits,Crc.run_cons]

/-- The check word by words, bytes and bits is the remainder of the plain division. -/
theorem madBitCrc_run {m : Mem} {p : MadBitptr} (h : p.Valid m) (len : Nat) (init : BitVec 16) :
    madBitCrc m p len init = Crc.run crcPoly init (bits m p.pos len) := by
  obtain ⟨hv,hp,hc⟩ := crcWords_spec (len/32) h (init.setWidth 32)
  obtain ⟨hv',hp',hc'⟩ := crcBytes_spec (len % 32/8) hv (crcWords m (len/32) p (init.setWidth 32)).2
  have hl : 32*(len/32)+(8*(len % 32/8)+len % 32 % 8) = len := by omega
  simp only [madBitCrc]
  rw [crcBits_spec _ hv',hp',hc',hp,hc]
  conv_rhs => rw [← hl,bits_add,bits_add,Crc.run_append,Crc.run_append]
  simp

/-! Runs of the pointer. -/

/-- The calls a parser makes; it never asks for more than 32 bits at once. -/
inductive BitOp where
  | skip (len : Nat)
  | read (len : Fin 33)
  deriving DecidableEq, Repr

def BitOp.len : BitOp → Nat
  | .skip len => len
  | .read len => len

def bitRun (m : Mem) : List BitOp → MadBitptr → List Nat × MadBitptr
  | [], p => ([],p)
  | .skip len :: ops, p => bitRun m ops (madBitSkip m p len)
  | .read len :: ops, p =>
      let (value,p) := madBitRead m p len
      (value :: (bitRun m ops p).1,(bitRun m ops p).2)

/-- What the reads should return: the numbers at consecutive places of the bit string. -/
def fieldsFrom (m : Mem) : List BitOp → Nat → List Nat
  | [], _ => []
  | .skip len :: ops, pos => fieldsFrom m ops (pos+len)
  | .read len :: ops, pos => field m pos len :: fieldsFrom m ops (pos+len)

theorem bitRun_spec {m : Mem} (ops : List BitOp) {p : MadBitptr} (h : p.Valid m) :
    (bitRun m ops p).1 = fieldsFrom m ops p.pos ∧ (bitRun m ops p).2.Valid m ∧
      (bitRun m ops p).2.pos = p.pos+(ops.map BitOp.len).sum := by
  induction ops generalizing p with
  | nil => exact ⟨rfl,h,rfl⟩
  | cons op ops ih =>
    cases op with
    | skip len =>
      obtain ⟨hv,hp⟩ := madBitSkip_spec h len
      obtain ⟨hr,hv',hp'⟩ := ih hv
      simp only [bitRun,fieldsFrom,List.map_cons,List.sum_cons,BitOp.len]
      exact ⟨by rw [hr,hp],hv',by rw [hp',hp,Nat.add_assoc]⟩
    | read len =>
      obtain ⟨hd,hv,hp⟩ := madBitRead_spec h len
      obtain ⟨hr,hv',hp'⟩ := ih hv
      simp only [bitRun,fieldsFrom,List.map_cons,List.sum_cons,BitOp.len]
      exact ⟨by rw [hd,hr,hp],hv',by rw [hp',hp,Nat.add_assoc]⟩

/-- Whatever a parser reads and skips from the start of a byte on, it gets the numbers
at these places of the bit string, the next whole byte is the one behind them and the
length it measures is what it has passed. -/
theorem bitRun_bitString (m : Mem) (byte : Nat) (ops : List BitOp) :
    (bitRun m ops (madBitInit byte)).1 = fieldsFrom m ops (8*byte) ∧
      madBitNextbyte (bitRun m ops (madBitInit byte)).2 = byte+((ops.map BitOp.len).sum+7)/8 ∧
      madBitLength (madBitInit byte) (bitRun m ops (madBitInit byte)).2 =
        (ops.map BitOp.len).sum % 2^32 := by
  have hi := madBitInit_valid m byte
  obtain ⟨hr,hv,hp⟩ := bitRun_spec ops hi
  rw [madBitInit_pos] at hr hp
  refine ⟨hr,?_,?_⟩
  · rw [madBitNextbyte_eq hv,hp]
    omega
  · rw [madBitLength_eq hi hv (by rw [hp,madBitInit_pos]; omega),hp,madBitInit_pos,
      Nat.add_sub_cancel_left]

end Mardio
