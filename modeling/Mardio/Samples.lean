import Mardio.Lib.FixedPoint
import Mardio.LibmadSpace
import Mardio.Player

/-!
The samples on their way from the decoder to the device: quantising, packing into
an output buffer and the volume.
-/

set_option autoImplicit false

namespace Mardio
open FixedPoint

/-- An array of bytes read as little-endian signed 16-bit samples. -/
def samplesOf : List UInt8 → List Int
  | lo :: hi :: rest => int16 lo hi :: samplesOf rest
  | _ => []

def IsInt16 (v : Int) : Prop := -2^15 ≤ v ∧ v < 2^15

theorem int16_isInt16 (lo hi : UInt8) : IsInt16 (int16 lo hi) :=
  ⟨Int.le_bmod (by decide),Int.bmod_lt (by decide)⟩

theorem byte_toNat (x : Int) : ((UInt8.ofNat (x % 256).toNat).toNat : Int) = x % 256 := by
  rw [UInt8.toNat_ofNat']
  omega

theorem int16_bytes {v : Int} (h : IsInt16 v) :
    int16 (UInt8.ofNat (v % 256).toNat) (UInt8.ofNat (v / 256 % 256).toNat) = v := by
  have hlo := h.1
  have hhi := h.2
  have hsum : v % 256+256*(v / 256 % 256) = v % ((2^16:Nat):Int) := by omega
  unfold int16
  rw [byte_toNat,byte_toNat,hsum,Int.emod_bmod]
  exact Int.bmod_eq_of_le_mul_two (by omega) (by omega)

theorem samplesOf_int16Bytes {v : Int} (h : IsInt16 v) (rest : List UInt8) :
    samplesOf (int16Bytes v ++ rest) = v :: samplesOf rest := by
  simp only [int16Bytes,List.cons_append,List.nil_append,samplesOf,int16_bytes h]

theorem isInt16_of_mem {data : List UInt8} {s : Int} (h : s ∈ samplesOf data) : IsInt16 s := by
  induction data using samplesOf.induct with
  | case1 lo hi rest ih =>
    rw [samplesOf,List.mem_cons] at h
    cases h with
    | inl h =>
      rw [h]
      exact int16_isInt16 lo hi
    | inr h => exact ih h
  | case2 data hno =>
    rw [samplesOf] at h
    · cases h
    · exact hno

/-- The rounding sum is 32 bits wide; what is left of it is clipped and quantised. -/
theorem scale_eq (s : Int) :
    scale s = clamp (-32768) 32767 (Int.bmod (s+4096) (2^32) / 8192) := by
  rw [← clamp_ediv (by decide : (0:Int) < 8192)]
  simp only [scale,madFOne,madFFracbits,clamp]
  norm_num
  congr 1
  split
  · omega
  · split <;> omega

theorem scale_isInt16 (s : Int) : IsInt16 (scale s) := by
  rw [scale_eq]
  obtain ⟨hlo,hhi⟩ := clamp_mem (by decide : (-32768:Int) ≤ 32767) (Int.bmod (s+4096) (2^32) / 8192)
  exact ⟨hlo,by omega⟩

/-- The quantised sample over the integers. -/
def quantised (s : Int) : Int := clamp (-32768) 32767 ((s+4096) / 8192)

theorem quantised_mono {s t : Int} (h : s ≤ t) : quantised s ≤ quantised t :=
  clamp_mono (Int.ediv_le_ediv (by decide) (by omega))

theorem scale_quantised {s : Int} (hlo : -2^31 ≤ s) (hhi : s < 2^31-4096) :
    scale s = quantised s := by
  rw [scale_eq,Int.bmod_eq_of_le_mul_two (by omega) (by omega),quantised]

theorem scale_wraps {s : Int} (hlo : 2^31-4096 ≤ s) (hhi : s < 2^31) : scale s = -32768 := by
  have hb : Int.bmod (s+4096) (2^32) = s+4096-2^32 := by
    rw [← Int.sub_bmod_right]
    exact Int.bmod_eq_of_le_mul_two (by omega) (by omega)
  have hneg : (s+4096-2^32) / 8192 ≤ -32768 := by omega
  rw [scale_eq,hb,clamp,min_eq_right (by omega),max_eq_left hneg]

structure ScaleSaturates (s : Int32) : Prop where
  value : scale s.toInt = quantised s.toInt
  mono : ∀ t : Int32, t ≤ s → scale t.toInt ≤ scale s.toInt
  sign : 0 ≤ s → 0 ≤ scale s.toInt

theorem not_scaleSaturates {s : Int32} (h : 2^31-4096 ≤ s.toInt) : ¬ ScaleSaturates s := by
  intro hs
  have hlt : s.toInt < 2^31 := s.toInt_lt
  have hsign : (0:Int32) ≤ s := Int32.le_iff_toInt_le.mpr (by simpa using by omega)
  have := hs.sign hsign
  rw [scale_wraps h hlt] at this
  omega

theorem scale_saturates_iff (s : Int32) : ScaleSaturates s ↔ s.toInt < 2^31-4096 := by
  refine ⟨fun hs => Int.not_le.mp fun h => not_scaleSaturates h hs,fun h => ?_⟩
  have hval : ∀ t : Int32, t ≤ s → scale t.toInt = quantised t.toInt := by
    intro t ht
    have hts := Int32.le_iff_toInt_le.mp ht
    exact scale_quantised t.le_toInt (by omega)
  refine ⟨hval s (Int32.le_refl s),fun t ht => ?_,fun h0 => ?_⟩
  · rw [hval t ht,hval s (Int32.le_refl s)]
    exact quantised_mono (Int32.le_iff_toInt_le.mp ht)
  · have hs0 : 0 ≤ s.toInt := by simpa using Int32.le_iff_toInt_le.mp h0
    rw [hval s (Int32.le_refl s)]
    exact clamp_nonneg (by decide) (by omega)

theorem scale_saturates_max :
    Int32.maxValue.toInt = 2147483647 ∧ scale 2147483647 = -32768 ∧ quantised 2147483647 = 32767 ∧
      ¬ ScaleSaturates Int32.maxValue :=
  ⟨by decide,by decide,by decide,not_scaleSaturates (by decide)⟩

/-- One row of the block: the left sample, and the right one of a stereo block. -/
def pcmRow (channels : Nat) (left right : Int) : List Int :=
  scale left :: if channels = 2 then [scale right] else []

def interleaved (pcm : Pcm) : List Int :=
  (List.range pcm.length).flatMap fun i =>
    pcmRow pcm.channels (pcm.left.getD i 0) (pcm.right.getD i 0)

theorem pcmBytes_succ (channels length : Nat) (left right : List Int) :
    pcmBytes channels (length+1) left right =
      (pcmRow channels (left.headD 0) (right.headD 0)).flatMap int16Bytes ++
        pcmBytes channels length left.tail right.tail := by
  rw [pcmBytes,pcmRow]
  split <;> simp

theorem samplesOf_row (channels : Nat) (left right : Int) (rest : List UInt8) :
    samplesOf ((pcmRow channels left right).flatMap int16Bytes ++ rest) =
      pcmRow channels left right ++ samplesOf rest := by
  rw [pcmRow]
  split
  · simp only [List.flatMap_cons,List.flatMap_nil,List.append_nil,List.append_assoc]
    rw [samplesOf_int16Bytes (scale_isInt16 left),samplesOf_int16Bytes (scale_isInt16 right)]
    rfl
  · simp only [List.flatMap_cons,List.flatMap_nil,List.append_nil]
    rw [samplesOf_int16Bytes (scale_isInt16 left)]
    rfl

-- The loop advances both channel pointers, so a row's index is counted from the front of the tails.
theorem samplesOf_pcmBytes (channels length : Nat) (left right : List Int) :
    samplesOf (pcmBytes channels length left right) =
      (List.range length).flatMap fun i => pcmRow channels (left.getD i 0) (right.getD i 0) := by
  induction length generalizing left right with
  | zero => rfl
  | succ length ih =>
    have hhead : ∀ l : List Int, l.headD 0 = l.getD 0 0 := fun l => by cases l <;> rfl
    have htail : ∀ (l : List Int) (i : Nat), l.tail.getD i 0 = l.getD (i+1) 0 := fun l i => by
      cases l <;> rfl
    rw [pcmBytes_succ,samplesOf_row,ih,List.range_succ_eq_map,List.flatMap_cons,List.flatMap_map]
    simp only [hhead,htail]

theorem pcmBytes_length {channels : Nat} (hc : channels = 1 ∨ channels = 2) (length : Nat)
    (left right : List Int) : (pcmBytes channels length left right).length = channels*length*2 := by
  induction length generalizing left right with
  | zero => rfl
  | succ length ih =>
    have hrow : ((pcmRow channels (left.headD 0) (right.headD 0)).flatMap int16Bytes).length =
        channels*2 := by
      cases hc with
      | inl hc => simp [hc,pcmRow,int16Bytes]
      | inr hc => simp [hc,pcmRow,int16Bytes]
    rw [pcmBytes_succ,List.length_append,hrow,ih]
    ring

structure Packed (pcm : Pcm) (buff : Output) : Prop where
  used : buff.used = pcm.channels*pcm.length*2
  fits : buff.used ≤ buff.size
  samples : samplesOf buff.data = interleaved pcm
  written : buff.data.length = buff.used

theorem libmadOutput_packs (pcm : Pcm) (hl : pcm.length ≤ 1152)
    (hc : pcm.channels = 1 ∨ pcm.channels = 2) (ls : Ls) (io : Io) :
    ∃ buff : Output, libmadOutput pcm ls io = (ls,setOutput (oPush io).2 (oPush io).1 buff) ∧
      buff.channels = pcm.channels ∧ buff.rate = sndFreq2rate pcm.samplerate ∧ Packed pcm buff := by
  have hp : pcm.Legal := ⟨hl,by omega,by omega⟩
  obtain ⟨hused,hfits⟩ := packedBuffer_used hp
  refine ⟨packedBuffer pcm,libmadOutput_eq pcm hp ls io,rfl,rfl,hused,hfits,?_,?_⟩
  · exact samplesOf_pcmBytes pcm.channels pcm.length pcm.left pcm.right
  · exact (pcmBytes_length hc _ _ _).trans hused.symm

/-- A stereo block of one row whose left sample is clipped. -/
theorem libmadOutput_packs_stereo :
    ∃ buff : Output, libmadOutput ⟨44100,2,1,[2^29],[-8192]⟩ libmadInit Io.zero =
        (libmadInit,setOutput (oPush Io.zero).2 (oPush Io.zero).1 buff) ∧
      buff.channels = 2 ∧ buff.rate = .hz44100 ∧ buff.used = 4 ∧
        samplesOf buff.data = [32767,-1] := by
  obtain ⟨buff,heq,hch,hrate,hb⟩ :=
    libmadOutput_packs ⟨44100,2,1,[2^29],[-8192]⟩ (by decide) (by decide) libmadInit Io.zero
  exact ⟨buff,heq,hch,hrate,hb.used,hb.samples.trans (by decide)⟩

theorem int16Bytes_int16 (lo hi : UInt8) : int16Bytes (int16 lo hi) = [lo,hi] := by
  have hlo := lo.toNat_lt
  have hhi := hi.toNat_lt
  have hmod : int16 lo hi % 65536 = lo.toNat+256*hi.toNat := by
    have h : int16 lo hi % ((2^16:Nat):Int) = (lo.toNat+256*hi.toNat) % ((2^16:Nat):Int) := by
      unfold int16
      exact Int.bmod_emod
    omega
  have h0 : (int16 lo hi % 256).toNat = lo.toNat := by omega
  have h1 : (int16 lo hi / 256 % 256).toNat = hi.toNat := by omega
  rw [int16Bytes,h0,h1,UInt8.ofNat_toNat,UInt8.ofNat_toNat]

@[simp] theorem pcmApplyVolume_zero (data : List UInt8) (volume : Nat) :
    pcmApplyVolume data 0 volume = data := by
  cases data with
  | nil => rfl
  | cons lo rest => cases rest <;> rfl

theorem scaleSample_isInt16 (s : Int) (volume : Nat) : IsInt16 (scaleSample s volume) :=
  ⟨Int.le_bmod (by decide),Int.bmod_lt (by decide)⟩

/-- The walk over the samples, two bytes at a time while the count lasts. -/
@[elab_as_elim] theorem samples_induction {motive : List UInt8 → Nat → Prop}
    (zero : ∀ data, motive data 0) (nil : ∀ count, motive [] (count+1))
    (odd : ∀ b count, motive [b] (count+1))
    (pair : ∀ lo hi rest count, motive rest count → motive (lo :: hi :: rest) (count+1))
    (data : List UInt8) (count : Nat) : motive data count := by
  induction count generalizing data with
  | zero => exact zero data
  | succ count ih =>
    match data with
    | [] => exact nil count
    | [b] => exact odd b count
    | lo :: hi :: rest => exact pair lo hi rest count (ih rest)

theorem samplesOf_pcmApplyVolume (data : List UInt8) (count volume : Nat) :
    samplesOf (pcmApplyVolume data count volume) =
      ((samplesOf data).take count).map (scaleSample · volume) ++ (samplesOf data).drop count := by
  induction data, count using samples_induction with
  | zero data => simp
  | nil count => rfl
  | odd b count => rfl
  | pair lo hi rest count ih =>
    rw [pcmApplyVolume,samplesOf_int16Bytes (scaleSample_isInt16 _ _),ih]
    rfl

theorem pcmApplyVolume_rest (data : List UInt8) (count volume : Nat) :
    (pcmApplyVolume data count volume).length = data.length ∧
      (pcmApplyVolume data count volume).drop (2*count) = data.drop (2*count) := by
  induction data, count using samples_induction with
  | zero data => simp
  | nil count => exact ⟨rfl,rfl⟩
  | odd b count => exact ⟨rfl,rfl⟩
  | pair lo hi rest count ih =>
    obtain ⟨hl,hd⟩ := ih
    refine ⟨?_,?_⟩
    · simp [pcmApplyVolume,int16Bytes,hl]
    · exact hd

theorem isInt16_attenuate {s k : Int} (hs : IsInt16 s) (h0 : 0 ≤ k) (hk : k ≤ 256) :
    IsInt16 (attenuate 256 k s) := by
  have hlo := hs.1
  have hhi := hs.2
  obtain hs0 | hs0 := le_total 0 s
  · have hge := attenuate_nonneg (by decide : (0:Int) < 256) h0 hs0
    have hle := attenuate_ratio_mono (by decide : (0:Int) < 256) hk hs0
    rw [attenuate_self (by decide)] at hle
    exact ⟨by omega,by omega⟩
  · have hle := attenuate_nonpos (by decide : (0:Int) < 256) h0 hs0
    have hge := attenuate_ratio_anti (by decide : (0:Int) < 256) hk hs0
    rw [attenuate_self (by decide)] at hge
    exact ⟨by omega,by omega⟩

theorem volume_sq_le {volume : Nat} (hv : volume ≤ plMaxVolume) : (volume:Int)^2 ≤ 256 := by
  have h16 : (volume:Int) ≤ 16 := by exact_mod_cast hv
  nlinarith

/-- The volume is squared, and nothing is lost in the 16 bits of the result. -/
theorem scaleSample_eq {s : Int} (hs : IsInt16 s) {volume : Nat} (hv : volume ≤ plMaxVolume) :
    scaleSample s volume = attenuate 256 (volume^2) s := by
  have hfit := isInt16_attenuate hs (sq_nonneg (volume:Int)) (volume_sq_le hv)
  have hlo := hfit.1
  have hhi := hfit.2
  have hsq : s*volume*volume / 256 = attenuate 256 (volume^2) s := by
    rw [attenuate,pow_two,mul_assoc]
  rw [scaleSample,hsq]
  exact Int.bmod_eq_of_le_mul_two (by omega) (by omega)

theorem scaleSample_products {s : Int} (hs : IsInt16 s) {volume : Nat} (hv : volume ≤ plMaxVolume) :
    |s*volume| < 2^31 ∧ |s*volume*volume| < 2^31 := by
  have habs : |s| ≤ 2^15 := abs_le.mpr ⟨hs.1,hs.2.le⟩
  have hv0 : (0:Int) ≤ volume := Int.natCast_nonneg volume
  have hv16 : (volume:Int) ≤ 16 := by exact_mod_cast hv
  have h1 : |s*volume| ≤ 2^15*16 := by
    rw [abs_mul,abs_of_nonneg hv0]
    exact mul_le_mul habs hv16 hv0 (by decide)
  have h2 : |s*volume*volume| ≤ 2^15*16*16 := by
    rw [abs_mul,abs_of_nonneg hv0]
    exact mul_le_mul h1 hv16 hv0 (by decide)
  exact ⟨by omega,by omega⟩

def sampleAt (data : List UInt8) (i : Nat) : Int := (samplesOf data).getD i 0

theorem sampleAt_isInt16 (data : List UInt8) (i : Nat) : IsInt16 (sampleAt data i) := by
  rw [sampleAt,List.getD_eq_getElem?_getD]
  cases hg : (samplesOf data)[i]? with
  | none => exact ⟨by decide,by decide⟩
  | some s => exact isInt16_of_mem (List.mem_of_getElem? hg)

theorem sampleAt_pcmApplyVolume {data : List UInt8} {count volume : Nat}
    (hv : volume ≤ plMaxVolume) {i : Nat} (hi : i < count) (hc : count ≤ (samplesOf data).length) :
    sampleAt (pcmApplyVolume data count volume) i = attenuate 256 (volume^2) (sampleAt data i) := by
  rw [← scaleSample_eq (sampleAt_isInt16 data i) hv,sampleAt,samplesOf_pcmApplyVolume,sampleAt]
  simp only [List.getD_eq_getElem?_getD]
  rw [List.getElem?_append_left (by simp; omega)]
  simp [hi,List.getElem?_eq_getElem (Nat.lt_of_lt_of_le hi hc)]

theorem pcmApplyVolume_full (data : List UInt8) (count : Nat) :
    pcmApplyVolume data count plMaxVolume = data := by
  induction data, count using samples_induction with
  | zero data => simp
  | nil count => rfl
  | odd b count => rfl
  | pair lo hi rest count ih =>
    have hself : attenuate 256 ((plMaxVolume:Int)^2) (int16 lo hi) = int16 lo hi :=
      attenuate_self (by decide) _
    rw [pcmApplyVolume,ih,scaleSample_eq (int16_isInt16 lo hi) le_rfl,hself,int16Bytes_int16]
    rfl

structure Attenuates (data : List UInt8) (count volume : Nat) : Prop where
  value : ∀ i, i < count →
    sampleAt (pcmApplyVolume data count volume) i = sampleAt data i*volume^2 / 256
  fits32 : ∀ i, i < count → |sampleAt data i*volume| < 2^31 ∧ |sampleAt data i*volume*volume| < 2^31
  fits16 : ∀ i, i < count → IsInt16 (sampleAt data i*volume^2 / 256)
  length : (pcmApplyVolume data count volume).length = data.length
  rest : (pcmApplyVolume data count volume).drop (2*count) = data.drop (2*count)
  shrinks : ∀ i, i < count → |sampleAt (pcmApplyVolume data count volume) i| ≤ |sampleAt data i|
  ordered : ∀ i j, i < count → j < count → sampleAt data i ≤ sampleAt data j →
    sampleAt (pcmApplyVolume data count volume) i ≤ sampleAt (pcmApplyVolume data count volume) j
  full : volume = plMaxVolume → pcmApplyVolume data count volume = data
  silent : volume = 0 → ∀ i, i < count → sampleAt (pcmApplyVolume data count volume) i = 0

/-- Turning the volume up moves no sample towards zero. -/
structure Louder (data : List UInt8) (count quieter louder : Nat) : Prop where
  positive : ∀ i, i < count → 0 ≤ sampleAt data i →
    sampleAt (pcmApplyVolume data count quieter) i ≤ sampleAt (pcmApplyVolume data count louder) i
  negative : ∀ i, i < count → sampleAt data i ≤ 0 →
    sampleAt (pcmApplyVolume data count louder) i ≤ sampleAt (pcmApplyVolume data count quieter) i
  magnitude : ∀ i, i < count →
    |sampleAt (pcmApplyVolume data count quieter) i| ≤
      |sampleAt (pcmApplyVolume data count louder) i|

section
variable {data : List UInt8} {count volume : Nat}

theorem attenuates (hc : count ≤ (samplesOf data).length) (hv : volume ≤ plMaxVolume) :
    Attenuates data count volume := by
  have hval : ∀ i, i < count → sampleAt (pcmApplyVolume data count volume) i =
      attenuate 256 (volume^2) (sampleAt data i) := fun i hi => sampleAt_pcmApplyVolume hv hi hc
  obtain ⟨hlength,hrest⟩ := pcmApplyVolume_rest data count volume
  constructor
  case value => exact hval
  case fits32 => exact fun i _ => scaleSample_products (sampleAt_isInt16 data i) hv
  case fits16 =>
    exact fun i _ => isInt16_attenuate (sampleAt_isInt16 data i) (sq_nonneg _) (volume_sq_le hv)
  case length => exact hlength
  case rest => exact hrest
  case shrinks =>
    intro i hi
    rw [hval i hi]
    exact abs_attenuate_le (by decide) (sq_nonneg _) (volume_sq_le hv)
  case ordered =>
    intro i j hi hj h
    rw [hval i hi,hval j hj]
    exact attenuate_mono (by decide) (sq_nonneg _) h
  case full =>
    rintro rfl
    exact pcmApplyVolume_full data count
  case silent =>
    rintro rfl i hi
    rw [hval i hi]
    exact attenuate_zero 256 _

theorem louder {quieter : Nat} (hc : count ≤ (samplesOf data).length) (hv : volume ≤ plMaxVolume)
    (hq : quieter ≤ volume) : Louder data count quieter volume := by
  have hval : ∀ v, v ≤ plMaxVolume → ∀ i, i < count → sampleAt (pcmApplyVolume data count v) i =
      attenuate 256 (v^2) (sampleAt data i) := fun v h i hi => sampleAt_pcmApplyVolume h hi hc
  have hsq : (quieter:Int)^2 ≤ (volume:Int)^2 := by exact_mod_cast Nat.pow_le_pow_left hq 2
  constructor
  case positive =>
    intro i hi h0
    rw [hval _ (hq.trans hv) i hi,hval _ hv i hi]
    exact attenuate_ratio_mono (by decide) hsq h0
  case negative =>
    intro i hi h0
    rw [hval _ (hq.trans hv) i hi,hval _ hv i hi]
    exact attenuate_ratio_anti (by decide) hsq h0
  case magnitude =>
    intro i hi
    rw [hval _ (hq.trans hv) i hi,hval _ hv i hi]
    exact abs_attenuate_mono (by decide) (sq_nonneg _) hsq

theorem pcmApplyVolume_attenuates (hc : count ≤ (samplesOf data).length)
    (hv : volume ≤ plMaxVolume) :
    Attenuates data count volume ∧
      ∀ quieter, quieter ≤ volume → Louder data count quieter volume :=
  ⟨attenuates hc hv,fun _ hq => louder hc hv hq⟩

end

/-- Two samples, -1 and 512, of which the volume reaches the first one. -/
theorem pcmApplyVolume_attenuates_two :
    samplesOf (pcmApplyVolume [255,255,0,2] 1 8) = [-1,512] ∧ Attenuates [255,255,0,2] 1 8 ∧
      Louder [255,255,0,2] 1 4 8 := by
  have h := @pcmApplyVolume_attenuates [255,255,0,2] 1 8 (by decide) (by decide)
  exact ⟨by decide,h.1,h.2 4 (by decide)⟩

end Mardio
