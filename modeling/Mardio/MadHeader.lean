import Mardio.Libmad
import Mardio.MadBit
import Mardio.MadTimer

/-!
The header of a frame. `decode_header` reads it field by field and stops at the
first one that has a reserved value; what it has set up to there stays. The
fields as numbers make up a `HeaderWord`, and what the function does is said in
terms of them.
-/

set_option autoImplicit false

namespace Mardio
open ByteMem BitString

structure MadFlags where
  nprivateIII : Nat
  incomplete : Bool
  protection : Bool
  copyright : Bool
  original : Bool
  padding : Bool
  freeformat : Bool
  lsfExt : Bool
  mpeg25Ext : Bool
  deriving DecidableEq, Repr

def MadFlags.none : MadFlags := ⟨0,false,false,false,false,false,false,false,false⟩

structure MadHeader where
  layer : Nat
  mode : Nat
  modeExtension : Nat
  emphasis : Nat
  bitrate : Nat
  samplerate : Nat
  crcCheck : BitVec 16
  crcTarget : BitVec 16
  flags : MadFlags
  privateBits : Nat
  duration : MadTimer
  deriving DecidableEq, Repr

def madHeaderInit : MadHeader := ⟨0,0,0,0,0,0,0,0,.none,0,madTimerZero⟩

def madPrivateHeader : Nat := 0x0100

def bitrateTable : List (List Nat) := [
  -- MPEG-1
  [0,32000,64000,96000,128000,160000,192000,224000,256000,288000,320000,352000,384000,416000,
  448000],[0,32000,48000,56000,64000,80000,96000,112000,128000,160000,192000,224000,256000,320000,
  384000],[0,32000,40000,48000,56000,64000,80000,96000,112000,128000,160000,192000,224000,256000,
    320000],
  -- MPEG-2 LSF
  [0,32000,48000,56000,64000,80000,96000,112000,128000,144000,160000,176000,192000,224000,256000],
  [0,8000,16000,24000,32000,40000,48000,56000,64000,80000,96000,112000,128000,144000,160000]]

def samplerateTable : List Nat := [44100,48000,32000]

def bitrateAt (row index : Nat) : Nat := (bitrateTable.getD row []).getD index 0

def decodeHeader (m : Mem) (header : MadHeader) (ptr : MadBitptr) :
    MadError × MadHeader × MadBitptr :=
  let header := { header with flags := .none, privateBits := 0 }
  -- the syncword
  let ptr := madBitSkip m ptr 11
  let (mpeg25,ptr) := madBitRead m ptr 1
  let header := { header with flags := { header.flags with mpeg25Ext := mpeg25 == 0 } }
  let (id,ptr) := madBitRead m ptr 1
  if id ≠ 0 ∧ header.flags.mpeg25Ext then (.lostsync,header,ptr)
  else
    let header := { header with flags := { header.flags with lsfExt := id == 0 } }
    let (layer,ptr) := madBitRead m ptr 2
    let header := { header with layer := 4-layer }
    if header.layer = 4 then (.badlayer,header,ptr)
    else
      let (protection,ptr) := madBitRead m ptr 1
      let crcCheck := if protection = 0 then madBitCrc m ptr 16 0xffff else header.crcCheck
      let header := { header with
        flags := { header.flags with protection := protection == 0 }, crcCheck := crcCheck }
      let (index,ptr) := madBitRead m ptr 4
      if index = 15 then (.badbitrate,header,ptr)
      else
        let bitrate := if header.flags.lsfExt then bitrateAt (3+(header.layer >>> 1)) index
          else bitrateAt (header.layer-1) index
        let header := { header with bitrate := bitrate }
        let (index,ptr) := madBitRead m ptr 2
        if index = 3 then (.badsamplerate,header,ptr)
        else
          let rate := samplerateTable.getD index 0
          let rate := if header.flags.lsfExt
            then (if header.flags.mpeg25Ext then rate/2/2 else rate/2) else rate
          let header := { header with samplerate := rate }
          let (padding,ptr) := madBitRead m ptr 1
          let (private_,ptr) := madBitRead m ptr 1
          let (mode,ptr) := madBitRead m ptr 2
          let (modeExtension,ptr) := madBitRead m ptr 2
          let (copyright,ptr) := madBitRead m ptr 1
          let (original,ptr) := madBitRead m ptr 1
          let (emphasis,ptr) := madBitRead m ptr 2
          let header := { header with
            flags := { header.flags with
              padding := padding != 0, copyright := copyright != 0, original := original != 0 }
            privateBits := if private_ ≠ 0 then madPrivateHeader else 0
            mode := 3-mode
            modeExtension := modeExtension
            emphasis := emphasis }
          if header.flags.protection then
            let (target,ptr) := madBitRead m ptr 16
            (.none,{ header with crcTarget := BitVec.ofNat 16 target },ptr)
          else (.none,header,ptr)

/-! The header by its fields. -/

structure HeaderWord where
  mpeg25 : Nat
  id : Nat
  layer : Nat
  protection : Nat
  bitrate : Nat
  samplerate : Nat
  padding : Nat
  private_ : Nat
  mode : Nat
  modeExtension : Nat
  copyright : Nat
  original : Nat
  emphasis : Nat
  deriving DecidableEq, Repr

/-- The fields behind the syncword of eleven bits. -/
def headerWord (m : Mem) (pos : Nat) : HeaderWord where
  mpeg25 := field m (pos+11) 1
  id := field m (pos+12) 1
  layer := field m (pos+13) 2
  protection := field m (pos+15) 1
  bitrate := field m (pos+16) 4
  samplerate := field m (pos+20) 2
  padding := field m (pos+22) 1
  private_ := field m (pos+23) 1
  mode := field m (pos+24) 2
  modeExtension := field m (pos+26) 2
  copyright := field m (pos+28) 1
  original := field m (pos+29) 1
  emphasis := field m (pos+30) 2

/-- The first reserved value. -/
def HeaderWord.error (w : HeaderWord) : MadError :=
  if w.mpeg25 = 0 ∧ w.id ≠ 0 then .lostsync
  else if w.layer = 0 then .badlayer
  else if w.bitrate = 15 then .badbitrate
  else if w.samplerate = 3 then .badsamplerate
  else .none

def HeaderWord.rate (w : HeaderWord) : Nat :=
  let rate := samplerateTable.getD w.samplerate 0
  if w.id = 0 then (if w.mpeg25 = 0 then rate/2/2 else rate/2) else rate

def HeaderWord.bitrateOf (w : HeaderWord) : Nat :=
  if w.id = 0 then bitrateAt (3+(4-w.layer)/2) w.bitrate else bitrateAt (3-w.layer) w.bitrate

def HeaderWord.flags (w : HeaderWord) : MadFlags :=
  { MadFlags.none with
    mpeg25Ext := w.mpeg25 == 0, lsfExt := w.id == 0, protection := w.protection == 0
    padding := w.padding != 0, copyright := w.copyright != 0, original := w.original != 0 }

/-- What an accepted header is: the check words are those at `pos`, and stay as they
were where there are none. -/
def HeaderWord.header (w : HeaderWord) (m : Mem) (pos : Nat) (old : MadHeader) : MadHeader where
  layer := 4-w.layer
  mode := 3-w.mode
  modeExtension := w.modeExtension
  emphasis := w.emphasis
  bitrate := w.bitrateOf
  samplerate := w.rate
  crcCheck := if w.protection = 0 then Crc.run crcPoly 0xffff (bits m (pos+16) 16) else old.crcCheck
  crcTarget := if w.protection = 0 then BitVec.ofNat 16 (field m (pos+32) 16) else old.crcTarget
  flags := w.flags
  privateBits := if w.private_ ≠ 0 then madPrivateHeader else 0
  duration := old.duration

theorem decodeHeader_spec {m : Mem} {p : MadBitptr} (h : p.Valid m) (header : MadHeader) :
    (decodeHeader m header p).1 = (headerWord m p.pos).error ∧
      ((headerWord m p.pos).error = .none →
        (decodeHeader m header p).2.1 = (headerWord m p.pos).header m p.pos header ∧
        (decodeHeader m header p).2.2.Valid m ∧
        (decodeHeader m header p).2.2.pos =
          p.pos+32+(if (headerWord m p.pos).protection = 0 then 16 else 0)) := by
  obtain ⟨v0,q0⟩ := madBitSkip_spec h 11
  generalize hp0 : madBitSkip m p 11 = p0 at v0 q0
  obtain ⟨p1,r1,v1,q1⟩ := madBitRead_eq v0 1
  obtain ⟨p2,r2,v2,q2⟩ := madBitRead_eq v1 1
  obtain ⟨p3,r3,v3,q3⟩ := madBitRead_eq v2 2
  obtain ⟨p4,r4,v4,q4⟩ := madBitRead_eq v3 1
  obtain ⟨p5,r5,v5,q5⟩ := madBitRead_eq v4 4
  obtain ⟨p6,r6,v6,q6⟩ := madBitRead_eq v5 2
  obtain ⟨p7,r7,v7,q7⟩ := madBitRead_eq v6 1
  obtain ⟨p8,r8,v8,q8⟩ := madBitRead_eq v7 1
  obtain ⟨p9,r9,v9,q9⟩ := madBitRead_eq v8 2
  obtain ⟨p10,r10,v10,q10⟩ := madBitRead_eq v9 2
  obtain ⟨p11,r11,v11,q11⟩ := madBitRead_eq v10 1
  obtain ⟨p12,r12,v12,q12⟩ := madBitRead_eq v11 1
  obtain ⟨p13,r13,v13,q13⟩ := madBitRead_eq v12 2
  obtain ⟨p14,r14,v14,q14⟩ := madBitRead_eq v13 16
  have hcrc := madBitCrc_run v4 16 0xffff
  have e13 : p13.pos = p.pos+32 := by omega
  have e14 : p14.pos = p.pos+32+16 := by omega
  simp only [q0,q1,q2,q3,q4,q5,q6,q7,q8,q9,q10,q11,q12,q13,Nat.add_assoc,Nat.reduceAdd]
    at r1 r2 r3 r4 r5 r6 r7 r8 r9 r10 r11 r12 r13 r14 hcrc
  simp only [decodeHeader,hp0,r1,r2,r3,r4,r5,r6,r7,r8,r9,r10,r11,r12,r13,r14,hcrc]
  have hlayer : field m (p.pos+13) 2 < 4 := field_lt m (p.pos+13) 2
  simp only [headerWord,HeaderWord.error]
  by_cases h1 : field m (p.pos+11) 1 = 0 ∧ field m (p.pos+12) 1 ≠ 0
  · simp [h1]
  · have h1' : ¬ (field m (p.pos+12) 1 ≠ 0 ∧ (field m (p.pos+11) 1 == 0) = true) := by
      simpa [and_comm] using h1
    by_cases h2 : field m (p.pos+13) 2 = 0
    · simp only [h1',h1,h2,if_false,if_true,Nat.sub_zero]
      simp
    · have h2' : ¬ 4-field m (p.pos+13) 2 = 4 := by omega
      by_cases h3 : field m (p.pos+16) 4 = 15
      · simp only [h1',h1,h2',h2,h3,if_false,if_true]
        simp
      · by_cases h4 : field m (p.pos+20) 2 = 3
        · simp only [h1',h1,h2',h2,h3,h4,if_false,if_true]
          simp
        · have hrow : 4-field m (p.pos+13) 2-1 = 3-field m (p.pos+13) 2 := by omega
          simp only [h1',h1,h2',h2,h3,h4,if_false,hrow,Nat.shiftRight_eq_div_pow,pow_one]
          by_cases h5 : field m (p.pos+15) 1 = 0
          · simp [h5,HeaderWord.header,HeaderWord.flags,HeaderWord.rate,HeaderWord.bitrateOf,v14,
              e14]
          · simp [h5,HeaderWord.header,HeaderWord.flags,HeaderWord.rate,HeaderWord.bitrateOf,v13,
              e13]

/-! The four bytes of a header. -/

/-- The mark of a frame: eleven bits set. -/
def syncAt (m : Mem) (ptr : Nat) : Bool := m ptr == 0xff && m (ptr+1) &&& 0xe0 == 0xe0

theorem syncAt_iff (m : Mem) (ptr : Nat) :
    syncAt m ptr = true ↔ (m ptr).toNat = 255 ∧ (m (ptr+1)).toNat/32 = 7 := by
  have hmask : ∀ n < 256, n &&& 0xe0 = 0xe0 ↔ n/32 = 7 := by decide +kernel
  simp only [syncAt,Bool.and_eq_true,beq_iff_eq,← UInt8.toNat_inj,UInt8.toNat_and]
  exact and_congr Iff.rfl (hmask _ (m (ptr+1)).toNat_lt)

structure HeaderWord.InRange (w : HeaderWord) : Prop where
  mpeg25 : w.mpeg25 < 2
  id : w.id < 2
  layer : w.layer < 4
  protection : w.protection < 2
  bitrate : w.bitrate < 16
  samplerate : w.samplerate < 4
  padding : w.padding < 2
  private_ : w.private_ < 2
  mode : w.mode < 4
  modeExtension : w.modeExtension < 4
  copyright : w.copyright < 2
  original : w.original < 2
  emphasis : w.emphasis < 4

def HeaderWord.bytes (w : HeaderWord) : List UInt8 :=
  [0xff,UInt8.ofNat (0xe0+w.mpeg25*16+w.id*8+w.layer*2+w.protection),
    UInt8.ofNat (w.bitrate*16+w.samplerate*4+w.padding*2+w.private_),
    UInt8.ofNat (w.mode*64+w.modeExtension*16+w.copyright*8+w.original*4+w.emphasis)]

theorem headerWord_inRange (m : Mem) (pos : Nat) : (headerWord m pos).InRange :=
  ⟨field_lt m _ 1,field_lt m _ 1,field_lt m _ 2,field_lt m _ 1,field_lt m _ 4,field_lt m _ 2,
    field_lt m _ 1,field_lt m _ 1,field_lt m _ 2,field_lt m _ 2,field_lt m _ 1,field_lt m _ 1,
      field_lt m _ 2⟩

/-- The fields by the bytes they lie in. -/
theorem headerWord_eq (m : Mem) (a : Nat) :
    headerWord m (8*a) =
      { mpeg25 := (m (a+1)).toNat/16 % 2, id := (m (a+1)).toNat/8 % 2,
        layer := (m (a+1)).toNat/2 % 4
        protection := (m (a+1)).toNat % 2, bitrate := (m (a+2)).toNat/16 % 16
        samplerate := (m (a+2)).toNat/4 % 4, padding := (m (a+2)).toNat/2 % 2
        private_ := (m (a+2)).toNat % 2, mode := (m (a+3)).toNat/64 % 4
        modeExtension := (m (a+3)).toNat/16 % 4, copyright := (m (a+3)).toNat/8 % 2
        original := (m (a+3)).toNat/4 % 2, emphasis := (m (a+3)).toNat % 4 } := by
  simp only [headerWord,field_offset m a _ 1 (show 11 % 8+1 ≤ 8 by decide),
    field_offset m a _ 1 (show 12 % 8+1 ≤ 8 by decide),
    field_offset m a _ 2 (show 13 % 8+2 ≤ 8 by decide),
      field_offset m a _ 1 (show 15 % 8+1 ≤ 8 by decide),
    field_offset m a _ 4 (show 16 % 8+4 ≤ 8 by decide),
      field_offset m a _ 2 (show 20 % 8+2 ≤ 8 by decide),
    field_offset m a _ 1 (show 22 % 8+1 ≤ 8 by decide),
      field_offset m a _ 1 (show 23 % 8+1 ≤ 8 by decide),
    field_offset m a _ 2 (show 24 % 8+2 ≤ 8 by decide),
      field_offset m a _ 2 (show 26 % 8+2 ≤ 8 by decide),
    field_offset m a _ 1 (show 28 % 8+1 ≤ 8 by decide),
      field_offset m a _ 1 (show 29 % 8+1 ≤ 8 by decide),
        field_offset m a _ 2 (show 30 % 8+2 ≤ 8 by decide)]
  simp

/-- The fields of the bytes they make up. -/
theorem headerWord_bytes {m : Mem} {a : Nat} {w : HeaderWord} (hr : w.InRange)
    (h : window m a 4 = w.bytes) : headerWord m (8*a) = w := by
  obtain ⟨r1,r2,r3,r4,r5,r6,r7,r8,r9,r10,r11,r12,r13⟩ := hr
  have hw : window m a 4 = [m a,m (a+1),m (a+2),m (a+3)] := rfl
  simp only [hw,HeaderWord.bytes,List.cons.injEq,and_true] at h
  obtain ⟨-,h1,h2,h3⟩ := h
  rw [headerWord_eq,h1,h2,h3]
  simp only [UInt8.toNat_ofNat']
  cases w
  simp only [HeaderWord.mk.injEq] at *
  omega

/-- Every four bytes that begin with the mark are made up of their fields. -/
theorem bytes_headerWord {m : Mem} {a : Nat} (h : syncAt m a = true) :
    window m a 4 = (headerWord m (8*a)).bytes := by
  have hw : window m a 4 = [m a,m (a+1),m (a+2),m (a+3)] := rfl
  obtain ⟨h0,h1⟩ := (syncAt_iff m a).mp h
  have e1 := (m (a+1)).toNat_lt
  have e2 := (m (a+2)).toNat_lt
  have e3 := (m (a+3)).toNat_lt
  rw [hw,headerWord_eq]
  simp only [HeaderWord.bytes,List.cons.injEq,and_true]
  refine ⟨UInt8.toNat_inj.mp h0,?_,?_,?_⟩ <;>
    (apply UInt8.toNat_inj.mp; rw [UInt8.toNat_ofNat']; omega)

/-- A header is accepted exactly where its four bytes are written from legal values of the
fields, and what comes out are these values and what they stand for. -/
theorem decodeHeader_accepts_iff (m : Mem) (a : Nat) (old new : MadHeader)
    (hs : syncAt m a = true) :
    (decodeHeader m old (madBitInit a)).1 = .none ∧ (decodeHeader m old (madBitInit a)).2.1 = new ↔
      ∃ w : HeaderWord, w.InRange ∧ w.error = .none ∧ window m a 4 = w.bytes ∧
        new = w.header m (8*a) old := by
  obtain ⟨herr,hok⟩ := decodeHeader_spec (madBitInit_valid m a) old
  rw [madBitInit_pos] at herr hok
  constructor
  · rintro ⟨he,rfl⟩
    exact ⟨headerWord m (8*a),headerWord_inRange m _,herr ▸ he,bytes_headerWord hs,
      (hok (herr ▸ he)).1⟩
  · rintro ⟨w,hr,he,hb,rfl⟩
    rw [headerWord_bytes hr hb] at herr hok
    exact ⟨herr.trans he,(hok he).1⟩

/-- Layer III at 128 kbit/s and 44.1 kHz, not protected. -/
def plainWord : HeaderWord := ⟨1,1,1,1,9,0,0,0,0,0,0,0,0⟩

theorem decodeHeader_accepts_plain :
    (decodeHeader (store (fun _ => 0) 0 [0xff,0xfb,0x90,0x00]) madHeaderInit (madBitInit 0)).1 =
      .none ∧
      (decodeHeader (store (fun _ => 0) 0 [0xff,0xfb,0x90,0x00]) madHeaderInit (madBitInit 0)).2.1 =
        plainWord.header (store (fun _ => 0) 0 [0xff,0xfb,0x90,0x00]) 0 madHeaderInit :=
  (decodeHeader_accepts_iff _ 0 madHeaderInit _ (by decide)).mpr
    ⟨plainWord,⟨by decide,by decide,by decide,by decide,by decide,by decide,by decide,by decide,
      by decide,by decide,by decide,by decide,by decide⟩,by decide,by decide,rfl⟩

end Mardio
