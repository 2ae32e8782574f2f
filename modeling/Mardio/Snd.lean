import Mathlib

/-!
The platform-independent part of the sound module: sample rates and the volume
scaling of 16-bit little-endian samples.
-/

set_option autoImplicit false

namespace Mardio

inductive SoundState where
  | unknown | init | playing | pause | error
  deriving DecidableEq, Repr

inductive SoundRate where
  | unknown | hz8000 | hz11025 | hz12000 | hz16000 | hz22050 | hz24000 | hz32000 | hz44100 | hz48000
  deriving DecidableEq, Repr

def sndRate2freq : SoundRate → Nat
  | .unknown => 0
  | .hz8000 => 8000
  | .hz11025 => 11025
  | .hz12000 => 12000
  | .hz16000 => 16000
  | .hz22050 => 22050
  | .hz24000 => 24000
  | .hz32000 => 32000
  | .hz44100 => 44100
  | .hz48000 => 48000

/-- The parameter is a 16-bit unsigned integer; callers pass wider values. -/
def sndFreq2rate (freq : Nat) : SoundRate :=
  match freq % 2^16 with
  | 8000 => .hz8000
  | 11025 => .hz11025
  | 12000 => .hz12000
  | 16000 => .hz16000
  | 22050 => .hz22050
  | 24000 => .hz24000
  | 32000 => .hz32000
  | 44100 => .hz44100
  | 48000 => .hz48000
  | _ => .unknown

def int16 (lo hi : UInt8) : Int := Int.bmod (lo.toNat+256*hi.toNat) (2^16)

def int16Bytes (v : Int) : List UInt8 :=
  [UInt8.ofNat (v % 256).toNat,UInt8.ofNat (v / 256 % 256).toNat]

def scaleSample (sample : Int) (volume : Nat) : Int :=
  Int.bmod (sample*volume*volume / 256) (2^16)

/-- Scales the first `count` samples in place. Bytes of the array that were never
written are zero and stay zero. -/
def pcmApplyVolume : List UInt8 → Nat → Nat → List UInt8
  | lo :: hi :: samples, count+1, volume =>
      int16Bytes (scaleSample (int16 lo hi) volume) ++ pcmApplyVolume samples count volume
  | samples, _, _ => samples

example : sndFreq2rate (44100+65536) = .hz44100 := by decide

end Mardio
