import Mardio.Cmd
import Mardio.Id3Tag
import Mardio.IoBuffer

/-!
The decoder glue between the two rings. The decoding library is a parameter: one
call of `libmad_loop` is given what the library does in each turn of its inner
loop, and the list ends where the library asks for more input. Addresses are
offsets into `libmad_buffer`.
-/

set_option autoImplicit false

namespace Mardio
open ByteMem

/-- The player state of `player.h`, which the decoder asks for. -/
inductive PlState where
  | unknown | stop | playing | buffering
  deriving DecidableEq, Repr

def maxLibmadErrors : Nat := 4
def libmadBufferSize : Nat := 2*1024+32
def decompressSize : Nat := libmadBufferSize*8
def madBufferGuard : Nat := 8
def madFFracbits : Nat := 28
def madFOne : Int := 0x10000000

inductive LibmadState where
  | unknown | init | done | error
  deriving DecidableEq, Repr

inductive MadError where
  | none | buflen | bufptr | nomem | lostsync | badlayer | badbitrate | badsamplerate | bademphasis
  | badcrc | badbitalloc | badscalefactor | badmode | badframelen | badbigvalues | badblocktype
  | badscfsi | baddataptr | badpart3len | badhufftable | badhuffdata | badstereo
  deriving DecidableEq, Repr

/-- `MAD_RECOVERABLE`: the code has a bit in its second byte. -/
def madRecoverable : MadError → Bool
  | .none | .buflen | .bufptr | .nomem => false
  | _ => true

inductive MadFlow where
  | cont | stop | brk | ignore
  deriving DecidableEq, Repr

structure MadStream where
  bufend : Nat
  thisFrame : Nat
  nextFrame : Nat
  skiplen : Nat
  deriving DecidableEq, Repr

structure Pcm where
  samplerate : Nat
  channels : Nat
  length : Nat
  left : List Int
  right : List Int
  deriving DecidableEq, Repr

/-- What the library does in one turn of the loop: the errors of header and frame
decoding, the bytes each of them moves `next_frame` over, the place it calls the
current frame and the samples it synthesises. -/
structure MadIter where
  header : MadError
  headerSize : Nat
  thisFrame : Nat
  frame : MadError
  frameSize : Nat
  pcm : Pcm
  deriving DecidableEq, Repr

/-- `popped` and `passed` are history: the bytes of all buffers taken from the
input ring and the bytes `next_frame` has moved over. -/
structure Ls where
  stream : MadStream
  buffer : Mem
  errCount : Nat
  state : LibmadState
  popped : List UInt8
  passed : List UInt8

def Ls.zero : Ls := ⟨⟨0,0,0,0⟩,fun _ => 0,0,.unknown,[],[]⟩

def libmadInit : Ls := ⟨⟨0,0,0,0⟩,fun _ => 0,0,.init,[],[]⟩

def libmadDone (ls : Ls) : Ls := { ls with state := .done }

/-- The library moves `next_frame` forward, never past `bufend`. -/
def Ls.advance (ls : Ls) (n : Nat) : Ls :=
  let k := min n (ls.stream.bufend-ls.stream.nextFrame)
  { ls with
    stream := { ls.stream with nextFrame := ls.stream.nextFrame+k }
    passed := ls.passed ++ window ls.buffer ls.stream.nextFrame k }

def Ls.setThisFrame (ls : Ls) (a : Nat) : Ls :=
  { ls with stream := { ls.stream with thisFrame := min a ls.stream.bufend } }

/-- A 32-bit pattern as an `int`, in an `unsigned long` of the host. -/
def intToUlong (h : Host) (v : Nat) : Nat := if v < 2^31 then v else v+2^h.longBits-2^32

def madStreamSkip (h : Host) (stream : MadStream) (length : Nat) : MadStream :=
  { stream with skiplen := (stream.skiplen+intToUlong h length) % 2^h.longBits }

def libmadError (h : Host) (err : MadError) (ls : Ls) : MadFlow × Ls :=
  match err with
  | .badcrc => (.ignore,ls)
  | .baddataptr => (.cont,ls)
  | .lostsync =>
      let length := ls.stream.bufend-ls.stream.thisFrame
      let tagsize := id3TagQuery (window ls.buffer ls.stream.thisFrame length) length
      if tagsize ≠ 0 then (.cont,{ ls with stream := madStreamSkip h ls.stream tagsize })
      else (.cont,ls)
  | _ =>
      let errCount := ls.errCount+1
      (.cont,{ ls with
        errCount := errCount
        state := if errCount > maxLibmadErrors then .error else ls.state })

/-- The fixed-point sample is 32 bits wide, and so is the rounding sum. -/
def scale (sample : Int) : Int :=
  let sample := Int.bmod (sample+2^(madFFracbits-16)) (2^32)
  let sample := if sample ≥ madFOne then madFOne-1
    else if sample < -madFOne then -madFOne else sample
  sample / 2^(madFFracbits+1-16)

def Input.bytes (b : Input) : List UInt8 := (b.data ++ List.replicate b.used 0).take b.used

@[simp] theorem Input.bytes_length (b : Input) : b.bytes.length = b.used := by
  simp [Input.bytes]

def Ls.remain (ls : Ls) : Nat := ls.stream.bufend-ls.stream.nextFrame

def carryOver (ls : Ls) : Ls :=
  if ls.remain ≠ 0 then
    { ls with buffer := ucMemmove ls.buffer 0 ls.stream.nextFrame ls.remain }
  else ls

/-- History: a buffer has left the input ring. -/
def Ls.pop (ls : Ls) (buff : Input) : Ls := { ls with popped := ls.popped ++ buff.bytes }

def appendInput (ls : Ls) (buff : Input) : MadFlow × Ls :=
  let remain := ls.remain
  if buff.used+remain > libmadBufferSize then (.stop,{ ls with state := .error })
  else
    let ls := { ls with buffer := store ls.buffer remain buff.bytes }
    if buff.used+remain = 0 then (.stop,ls)
    else (.cont,{ ls with stream := { ls.stream with
      bufend := buff.used+remain, thisFrame := 0, nextFrame := 0 } })

/-- The tail is moved before a new input buffer is taken, whether or not there is
one. -/
def libmadInput (ls : Ls) (io : Io) : MadFlow × Ls × Io :=
  match iPop io with
  | (none,io) => (.stop,carryOver ls,io)
  | (some p,io) => ((appendInput ((carryOver ls).pop (io.input p)) (io.input p)).1,
      (appendInput ((carryOver ls).pop (io.input p)) (io.input p)).2,io)

def pcmBytes (nchannels : Nat) : Nat → List Int → List Int → List UInt8
  | 0, _, _ => []
  | length+1, left, right =>
      int16Bytes (scale (left.headD 0)) ++
        (if nchannels = 2 then int16Bytes (scale (right.headD 0)) else []) ++
        pcmBytes nchannels length left.tail right.tail

def pcmHeader (pcm : Pcm) (buff : Output) : Output :=
  { buff with
    channels := pcm.channels
    used := pcm.channels*pcm.length*2 % 2^16
    rate := sndFreq2rate pcm.samplerate }

def libmadOutput (pcm : Pcm) (ls : Ls) (io : Io) : Ls × Io :=
  let p := (oPush io).1
  let io := (oPush io).2
  let buff := pcmHeader pcm (io.output p)
  if buff.used > buff.size then ({ ls with state := .error },setOutput io p buff)
  else
    (ls,setOutput io p { buff with data := pcmBytes pcm.channels pcm.length pcm.left pcm.right })

inductive Turn where
  | fall | again | leave
  deriving DecidableEq, Repr

/-- The two copies of the error switch in `libmad_loop`. -/
def afterDecode (h : Host) (err : MadError) (ls : Ls) : Turn × Ls :=
  if err = .none then (.fall,ls)
  else if madRecoverable err = false then (.leave,ls)
  else match libmadError h err ls with
    | (.stop,ls) => (.leave,ls)
    | (.brk,ls) => (.leave,ls)
    | (.ignore,ls) => (.fall,ls)
    | (.cont,ls) => (.again,ls)

/-- What the library does is given, and nothing here reads `skiplen`: the width of the
Linux host stands for both. -/
def decodeFrame (it : MadIter) (ls : Ls) : Turn × Ls :=
  match afterDecode .linux it.header ((ls.advance it.headerSize).setThisFrame it.thisFrame) with
  | (.fall,ls) => afterDecode .linux it.frame (ls.advance it.frameSize)
  | r => r

def madFrames : List MadIter → Ls → Io → Ls × Io
  | [], ls, io => (ls,io)
  | it :: its, ls, io =>
      if ls.state ≠ .init then (ls,io)
      else match decodeFrame it ls with
        | (.leave,ls) => (ls,io)
        | (.again,ls) => madFrames its ls io
        | (.fall,ls) => madFrames its (libmadOutput it.pcm ls io).1 (libmadOutput it.pcm ls io).2

def libmadReady (pl : PlState) (ls : Ls) (io : Io) : Bool :=
  ls.state == .init && pl != .buffering && iUsed io != 0 && decide
    (decompressSize ≤ (oFreeSize io).toNat)

def libmadLoop (pl : PlState) (its : List MadIter) (ls : Ls) (io : Io) : Ls × Io :=
  if libmadReady pl ls io then
    match libmadInput ls io with
    | (.stop,ls,io) => (ls,io)
    | (.brk,ls,io) => (ls,io)
    | (_,ls,io) => madFrames its ls io
  else (ls,io)

end Mardio
