import Mardio.Lib.CounterRing
import Mardio.Snd

/-!
The input ring between the sources and the decoder and the output ring between
the decoder and the sound device.
-/

set_option autoImplicit false

namespace Mardio
open CounterRing

def maxInputBuffers : Nat := 4
def maxOutputBuffers : Nat := 4
def ioInputBufferSize : Nat := 1024
def ioOutputBufferSize : Nat := 4608

/-- `data` is the front of the array: the bytes written since the buffer was
cleared. Every byte behind them is zero. -/
structure Input where
  data : List UInt8
  size : Nat
  used : Nat
  deriving DecidableEq, Repr

structure Output where
  data : List UInt8
  size : Nat
  used : Nat
  rate : SoundRate
  channels : Nat
  deriving DecidableEq, Repr

/-- The counters of one ring. `maxBuffers` is set at reset and never changes. -/
structure IoS (maxBuffers : Nat) where
  head : UInt32
  tail : UInt32
  deriving DecidableEq, Repr

def ioUsed {n : Nat} (io : IoS n) : UInt16 := (io.head-io.tail).toUInt16

def ioFree {n : Nat} (io : IoS n) : UInt16 := (UInt32.ofNat n-(io.head-io.tail)).toUInt16

def ioInputResetBuffer : Input := ⟨[],ioInputBufferSize,0⟩

def ioOutputResetBuffer : Output := ⟨[],ioOutputBufferSize,0,.unknown,0⟩

structure Io where
  i : IoS maxInputBuffers
  o : IoS maxOutputBuffers
  input : Fin maxInputBuffers → Input
  output : Fin maxOutputBuffers → Output

def Io.zero : Io := ⟨⟨0,0⟩,⟨0,0⟩,fun _ => ⟨[],0,0⟩,fun _ => ⟨[],0,0,.unknown,0⟩⟩

def ioResetInput (s : Io) : Io := { s with i := ⟨0,0⟩, input := fun _ => ioInputResetBuffer }

def ioResetOutput (s : Io) : Io := { s with o := ⟨0,0⟩, output := fun _ => ioOutputResetBuffer }

def ioInit (s : Io) : Io := ioResetOutput (ioResetInput s)

/-- The overflow test of the source is `head-tail > max_buffers`, one element
late: a full ring takes one more element without moving its tail. -/
def ioPush {n : Nat} (io : IoS n) : UInt16 × IoS n :=
  let index := (io.head % UInt32.ofNat n).toUInt16
  let io := if io.head-io.tail > UInt32.ofNat n then { io with tail := io.tail+1 } else io
  (index,{ io with head := io.head+1 })

def ioPop {n : Nat} (io : IoS n) : UInt16 × IoS n :=
  if io.head > io.tail then
    ((io.tail % UInt32.ofNat n).toUInt16,{ io with tail := io.tail+1 })
  else (0xFFFF,io)

instance : NeZero maxInputBuffers := ⟨by decide⟩
instance : NeZero maxOutputBuffers := ⟨by decide⟩

def slotAt (n : Nat) [NeZero n] (index : UInt16) : Fin n := slotOf n index.toNat

/-- The body `i_push` and `o_push` share. The result is the address of the
cleared slot. -/
def pushSlot {β : Type} {n : Nat} [NeZero n] (reset : β) (io : IoS n) (slots : Fin n → β) :
    Fin n × IoS n × (Fin n → β) :=
  let (index,io) := ioPush io
  let p := slotAt n index
  (p,io,Function.update slots p reset)

def popSlot {n : Nat} [NeZero n] (io : IoS n) : Option (Fin n) × IoS n :=
  let (index,io) := ioPop io
  (if index = 0xFFFF then none else some (slotAt n index),io)

def iPush (s : Io) : Fin maxInputBuffers × Io :=
  let (p,i,input) := pushSlot ioInputResetBuffer s.i s.input
  (p,{ s with i := i, input := input })

def iPop (s : Io) : Option (Fin maxInputBuffers) × Io :=
  let (p,i) := popSlot s.i
  (p,{ s with i := i })

def iFree (s : Io) : UInt16 := ioFree s.i

def iUsed (s : Io) : UInt16 := ioUsed s.i

def oPush (s : Io) : Fin maxOutputBuffers × Io :=
  let (p,o,output) := pushSlot ioOutputResetBuffer s.o s.output
  (p,{ s with o := o, output := output })

def oPop (s : Io) : Option (Fin maxOutputBuffers) × Io :=
  let (p,o) := popSlot s.o
  (p,{ s with o := o })

def oPeek (s : Io) : Option (Fin maxOutputBuffers) :=
  if s.o.head > s.o.tail then
    some (slotAt maxOutputBuffers (s.o.tail % UInt32.ofNat maxOutputBuffers).toUInt16)
  else none

def oFree (s : Io) : UInt16 := ioFree s.o

def oFreeSize (s : Io) : UInt16 := UInt16.ofNat ((ioFree s.o).toNat*ioOutputBufferSize)

def oUsed (s : Io) : UInt16 := ioUsed s.o

def ioStarving (s : Io) : Bool := iUsed s == 0 && oUsed s == 0

def setInput (s : Io) (p : Fin maxInputBuffers) (b : Input) : Io :=
  { s with input := Function.update s.input p b }

def setOutput (s : Io) (p : Fin maxOutputBuffers) (b : Output) : Io :=
  { s with output := Function.update s.output p b }

/-- The number of queued buffers before it is cut to 16 bits. -/
def IoS.queued {n : Nat} (io : IoS n) : Nat := (io.head-io.tail).toNat

theorem ofNat_toNat {n : Nat} (hn : n < 2^16) : (UInt32.ofNat n).toNat = n := by
  simp; omega

theorem ioUsed_toNat {n : Nat} (io : IoS n) (h : io.queued < 2^16) :
    (ioUsed io).toNat = io.queued := by
  simp only [ioUsed,UInt32.toNat_toUInt16]
  exact Nat.mod_eq_of_lt h

theorem ioFree_toNat {n : Nat} (io : IoS n) (hn : n < 2^16) (h : io.queued ≤ n) :
    (ioFree io).toNat = n-io.queued := by
  have hd : (ioFree io).toNat = (2^32-io.queued+n) % 2^32 % 2^16 := by
    rw [ioFree,UInt32.toNat_toUInt16,UInt32.toNat_sub,ofNat_toNat hn,IoS.queued]
  omega

theorem used_eq_zero_iff {n : Nat} (io : IoS n) (h : io.queued < 2^16) :
    ioUsed io = 0 ↔ io.queued = 0 := by
  rw [← UInt16.toNat_inj,ioUsed_toNat io h]
  rfl

theorem counters_sum {n : Nat} (io : IoS n) (hn : n < 2^16) (h : io.queued ≤ n) :
    (ioUsed io).toNat = io.queued ∧ (ioFree io).toNat+(ioUsed io).toNat = n := by
  have hu := ioUsed_toNat io (by omega)
  have hf := ioFree_toNat io hn h
  omega

theorem queued_lt_of_free {n : Nat} (io : IoS n) (hn : n < 2^16) (h : io.queued ≤ n)
    (hf : ioFree io ≠ 0) : io.queued < n := by
  have ht := ioFree_toNat io hn h
  have hne : (ioFree io).toNat ≠ 0 := fun h0 => hf (UInt16.toNat_inj.mp h0)
  omega

theorem queued_push {n : Nat} (io : IoS n) (h : io.queued+1 < 2^32) :
    (⟨io.head+1,io.tail⟩ : IoS n).queued = io.queued+1 := by
  have hh := io.head.toNat_lt
  have ht := io.tail.toNat_lt
  simp only [IoS.queued,toNat_diff,toNat_succ] at *
  omega

theorem queued_pop {n : Nat} (io : IoS n) (h : io.tail < io.head) :
    (⟨io.head,io.tail+1⟩ : IoS n).queued+1 = io.queued := by
  have hh := io.head.toNat_lt
  rw [UInt32.lt_iff_toNat_lt] at h
  simp only [IoS.queued,toNat_diff,toNat_succ] at *
  omega

theorem tail_lt_head {n : Nat} {io : IoS n} (h : io.queued ≤ io.head.toNat) (hq : 0 < io.queued) :
    io.tail < io.head := by
  have hh := io.head.toNat_lt
  have ht := io.tail.toNat_lt
  rw [UInt32.lt_iff_toNat_lt]
  simp only [IoS.queued,toNat_diff] at *
  omega

theorem slotAt_mod {n : Nat} [NeZero n] (hn : n < 2^16) (c : UInt32) :
    slotAt n (c % UInt32.ofNat n).toUInt16 = slotOf n c.toNat := by
  have hlt := Nat.mod_lt c.toNat (Nat.pos_of_ne_zero (NeZero.ne n))
  rw [slotAt,slotOf_eq_iff,UInt32.toNat_toUInt16,UInt32.toNat_mod,ofNat_toNat hn,
    Nat.mod_eq_of_lt (by omega : c.toNat % n < 2^16),Nat.mod_mod]

theorem index_ne_null {n : Nat} [NeZero n] (hn : n < 2^16) (c : UInt32) :
    (c % UInt32.ofNat n).toUInt16 ≠ 0xFFFF := by
  intro h
  have hlt := Nat.mod_lt c.toNat (Nat.pos_of_ne_zero (NeZero.ne n))
  have he := congrArg UInt16.toNat h
  rw [UInt32.toNat_toUInt16,UInt32.toNat_mod,ofNat_toNat hn,
    Nat.mod_eq_of_lt (by omega : c.toNat % n < 2^16)] at he
  have h16 : (0xFFFF : UInt16).toNat = 65535 := rfl
  omega

theorem ioPush_index {n : Nat} [NeZero n] (hn : n < 2^16) (io : IoS n) :
    slotAt n (ioPush io).1 = slotOf n io.head.toNat := slotAt_mod hn io.head

theorem ioPush_below {n : Nat} (io : IoS n) (hn : n < 2^16) (h : io.queued ≤ n) :
    (ioPush io).2 = ⟨io.head+1,io.tail⟩ := by
  have hle : ¬ io.head-io.tail > UInt32.ofNat n := by
    rw [gt_iff_lt,UInt32.lt_iff_toNat_lt,ofNat_toNat hn]
    exact Nat.not_lt.mpr h
  simp [ioPush,hle]

theorem ioPush_above {n : Nat} (io : IoS n) (hn : n < 2^16) (h : n < io.queued) :
    (ioPush io).2 = ⟨io.head+1,io.tail+1⟩ := by
  have hlt : io.head-io.tail > UInt32.ofNat n := by
    rw [gt_iff_lt,UInt32.lt_iff_toNat_lt,ofNat_toNat hn]
    exact h
  simp [ioPush,hlt]

theorem ioPush_overfull {n : Nat} (io : IoS n) (hn : n < 2^16) (h : io.queued ≤ n+1) :
    (ioPush io).2.queued ≤ n+1 := by
  by_cases hq : io.queued ≤ n
  · rw [ioPush_below io hn hq,queued_push io (by omega)]
    omega
  · have hh := io.head.toNat_lt
    have ht := io.tail.toNat_lt
    rw [ioPush_above io hn (by omega)]
    simp only [IoS.queued,toNat_diff,toNat_succ] at *
    omega

def ringOf {β : Type} {n : Nat} (io : IoS n) (slots : Fin n → β) : CounterRing β n :=
  ⟨io.head,io.tail,slots⟩

def Io.inRing (s : Io) : CounterRing Input maxInputBuffers := ringOf s.i s.input

def Io.outRing (s : Io) : CounterRing Output maxOutputBuffers := ringOf s.o s.output

/-- Pushing and storing is adding to the ring, as long as the ring is not
overfull already. -/
theorem pushSlot_ring {β : Type} {n : Nat} [NeZero n] (hn : n < 2^16) (reset b : β) (io : IoS n)
    (slots : Fin n → β) (h : io.queued ≤ n) :
    ringOf (pushSlot reset io slots).2.1
        (Function.update (pushSlot reset io slots).2.2 (pushSlot reset io slots).1 b) =
      (ringOf io slots).put b := by
  have hp := ioPush_below io hn h
  have hi := ioPush_index hn io
  simp [pushSlot,ringOf,CounterRing.put,hp,hi]

theorem popSlot_some {n : Nat} [NeZero n] (hn : n < 2^16) (io : IoS n) (h : io.tail < io.head) :
    popSlot io = (some (slotOf n io.tail.toNat),⟨io.head,io.tail+1⟩) := by
  have hne := index_ne_null hn io.tail
  have hs := slotAt_mod hn io.tail
  simp [popSlot,ioPop,h,hne,hs]

theorem popSlot_none {n : Nat} [NeZero n] (io : IoS n) (h : ¬ io.tail < io.head) :
    popSlot io = (none,io) := by
  simp [popSlot,ioPop,h]

theorem popSlot_ring {β : Type} {n : Nat} [NeZero n] (hn : n < 2^16) (io : IoS n)
    (slots : Fin n → β) (h : io.tail < io.head) :
    (popSlot io).1.map (fun p => (p,slots p)) = some ((ringOf io slots).entry 0) ∧
      ringOf (popSlot io).2 slots = (ringOf io slots).take := by
  rw [popSlot_some hn io h]
  exact ⟨rfl,rfl⟩

theorem maxInputBuffers_lt : maxInputBuffers < 2^16 := by decide
theorem maxOutputBuffers_lt : maxOutputBuffers < 2^16 := by decide
theorem maxInputBuffers_dvd : maxInputBuffers ∣ 2^32 := by decide
theorem maxOutputBuffers_dvd : maxOutputBuffers ∣ 2^32 := by decide

theorem iPush_slot (s : Io) : (iPush s).1 = slotOf maxInputBuffers s.i.head.toNat :=
  ioPush_index maxInputBuffers_lt s.i

theorem oPush_slot (s : Io) : (oPush s).1 = slotOf maxOutputBuffers s.o.head.toNat :=
  ioPush_index maxOutputBuffers_lt s.o

theorem iPush_inRing (s : Io) (b : Input) (h : s.i.queued ≤ maxInputBuffers) :
    (setInput (iPush s).2 (iPush s).1 b).inRing = s.inRing.put b :=
  pushSlot_ring maxInputBuffers_lt ioInputResetBuffer b s.i s.input h

theorem oPush_outRing (s : Io) (b : Output) (h : s.o.queued ≤ maxOutputBuffers) :
    (setOutput (oPush s).2 (oPush s).1 b).outRing = s.outRing.put b :=
  pushSlot_ring maxOutputBuffers_lt ioOutputResetBuffer b s.o s.output h

theorem oPeek_eq_oPop (s : Io) : oPeek s = (oPop s).1 := by
  by_cases h : s.o.tail < s.o.head
  · simp [oPeek,oPop,h,slotAt_mod maxOutputBuffers_lt,popSlot_some maxOutputBuffers_lt s.o h]
  · simp [oPeek,oPop,h,popSlot_none s.o h]

end Mardio
