import Mardio.LibmadStream

/-!
Output space in one call of `libmad_loop`: the byte estimate is tested once, the
pushes happen once per decoded frame.
-/

set_option autoImplicit false

namespace Mardio
open ByteMem CounterRing

/-- The states of the rings at each call of `o_push` the inner loop makes. -/
def outputCalls : List MadIter → Ls → Io → List Io
  | [], _, _ => []
  | it :: its, ls, io =>
      if ls.state ≠ .init then []
      else match decodeFrame it ls with
        | (.leave,_) => []
        | (.again,ls) => outputCalls its ls io
        | (.fall,ls) => io :: outputCalls its (libmadOutput it.pcm ls io).1
            (libmadOutput it.pcm ls io).2

def loopPushes (pl : PlState) (its : List MadIter) (ls : Ls) (io : Io) : List Io :=
  if libmadReady pl ls io then
    match libmadInput ls io with
    | (.cont,ls,io) => outputCalls its ls io
    | _ => []
  else []

/-- How the loop treats the result of a decoding call: a good frame, an error that
is passed over, one that is counted, or the end of the call. -/
inductive ErrKind where
  | good | passed | counted | fatal
  deriving DecidableEq, Repr

def errKind (e : MadError) : ErrKind :=
  match e with
  | .none | .badcrc => .good
  | .baddataptr | .lostsync => .passed
  | .buflen | .bufptr | .nomem => .fatal
  | _ => .counted

def MadIter.kind (it : MadIter) : ErrKind :=
  match errKind it.header with
  | .good => errKind it.frame
  | k => k

/-- The number of frames decoded out of one window when `budget` more errors are
tolerated. -/
def framesDecoded : Nat → List MadIter → Nat
  | _, [] => 0
  | budget, it :: its =>
      match it.kind with
      | .good => framesDecoded budget its+1
      | .passed => framesDecoded budget its
      | .counted =>
          match budget with
          | 0 => 0
          | budget+1 => framesDecoded budget its
      | .fatal => 0

/-- One PCM block of a legal frame: at most 1152 samples in one or two channels. -/
def Pcm.Legal (pcm : Pcm) : Prop := pcm.length ≤ 1152 ∧ 1 ≤ pcm.channels ∧ pcm.channels ≤ 2

instance (pcm : Pcm) : Decidable pcm.Legal :=
  inferInstanceAs (Decidable (pcm.length ≤ 1152 ∧ 1 ≤ pcm.channels ∧ pcm.channels ≤ 2))

/-- Whole frames of at least 24 bytes that all lie inside a window of `size` bytes,
with the guard bytes the library wants behind the last one. -/
def LegalFrames (its : List MadIter) (size : Nat) : Prop :=
  (∀ it ∈ its, it.kind = .good ∧ 24 ≤ it.headerSize+it.frameSize ∧ it.pcm.Legal) ∧
    (its.map fun it => it.headerSize+it.frameSize).sum+madBufferGuard ≤ size

instance (its : List MadIter) (size : Nat) : Decidable (LegalFrames its size) :=
  inferInstanceAs (Decidable (_ ∧ _))

/-- What the error switch does in each case. Counting an error on an exhausted
budget stops the decoder. -/
def TurnSpec (ls : Ls) (r : Turn × Ls) : ErrKind → Prop
  | .good => r.1 = .fall ∧ r.2.state = ls.state ∧ r.2.errCount = ls.errCount
  | .passed => r.1 = .again ∧ r.2.state = ls.state ∧ r.2.errCount = ls.errCount
  | .counted => r.1 = .again ∧ r.2.errCount = ls.errCount+1 ∧
      r.2.state = if ls.errCount+1 > maxLibmadErrors then .error else ls.state
  | .fatal => r.1 = .leave

theorem libmadError_lostsync (h : Host) (ls : Ls) :
    ∃ stream, libmadError h .lostsync ls = (.cont,{ ls with stream := stream }) := by
  simp only [libmadError]
  split
  · exact ⟨_,rfl⟩
  · exact ⟨ls.stream,rfl⟩

theorem afterDecode_spec (h : Host) (e : MadError) (ls : Ls) :
    TurnSpec ls (afterDecode h e ls) (errKind e) := by
  cases e with
  | lostsync =>
    obtain ⟨stream,he⟩ := libmadError_lostsync h ls
    simp [errKind,TurnSpec,afterDecode,madRecoverable,he]
  | _ => simp [errKind,TurnSpec,afterDecode,madRecoverable,libmadError]

theorem decodeFrame_spec (it : MadIter) (ls : Ls) : TurnSpec ls (decodeFrame it ls) it.kind := by
  have hh := afterDecode_spec .linux it.header
    ((ls.advance it.headerSize).setThisFrame it.thisFrame)
  unfold MadIter.kind decodeFrame
  rcases hd : afterDecode .linux it.header
    ((ls.advance it.headerSize).setThisFrame it.thisFrame) with ⟨turn,ls1⟩
  rw [hd] at hh
  cases hk : errKind it.header with
  | good =>
    rw [hk] at hh
    obtain ⟨rfl,hs,hc⟩ := hh
    have hf := afterDecode_spec .linux it.frame (ls1.advance it.frameSize)
    have hs1 : (ls1.advance it.frameSize).state = ls.state := hs
    have hc1 : (ls1.advance it.frameSize).errCount = ls.errCount := hc
    simp only
    cases hf' : errKind it.frame <;> simpa only [hf',TurnSpec,hs1,hc1] using hf
  | passed =>
    rw [hk] at hh
    obtain ⟨rfl,hs,hc⟩ := hh
    exact ⟨rfl,hs,hc⟩
  | counted =>
    rw [hk] at hh
    obtain ⟨rfl,hs,hc⟩ := hh
    exact ⟨rfl,hs,hc⟩
  | fatal =>
    rw [hk] at hh
    cases hh
    rfl

/-- What `libmad_output` leaves in the pushed buffer when the block fits it. -/
def packedBuffer (pcm : Pcm) : Output :=
  { pcmHeader pcm ioOutputResetBuffer with
    data := pcmBytes pcm.channels pcm.length pcm.left pcm.right }

theorem packedBuffer_used {pcm : Pcm} (hp : pcm.Legal) :
    (packedBuffer pcm).used = pcm.channels*pcm.length*2 ∧
      (packedBuffer pcm).used ≤ (packedBuffer pcm).size := by
  obtain ⟨hl,_,hc⟩ := hp
  have hmul : pcm.channels*pcm.length ≤ 2*1152 := Nat.mul_le_mul hc hl
  simp only [packedBuffer,pcmHeader,ioOutputResetBuffer,ioOutputBufferSize]
  omega

theorem libmadOutput_eq (pcm : Pcm) (hp : pcm.Legal) (ls : Ls) (io : Io) :
    libmadOutput pcm ls io = (ls,setOutput (oPush io).2 (oPush io).1 (packedBuffer pcm)) := by
  have hslot : (oPush io).2.output (oPush io).1 = ioOutputResetBuffer := by
    simp [oPush,pushSlot]
  have hused : ¬ (pcmHeader pcm ioOutputResetBuffer).used >
      (pcmHeader pcm ioOutputResetBuffer).size :=
    Nat.not_lt.mpr (packedBuffer_used hp).2
  rw [libmadOutput,hslot,if_neg hused]
  rfl

theorem libmadOutput_legal (pcm : Pcm) (hp : pcm.Legal) (ls : Ls) (io : Io) :
    (libmadOutput pcm ls io).1 = ls ∧ (libmadOutput pcm ls io).2.o = (ioPush io.o).2 := by
  rw [libmadOutput_eq pcm hp]
  exact ⟨rfl,rfl⟩

theorem libmadOutput_queued (pcm : Pcm) (hp : pcm.Legal) (ls : Ls) (io : Io)
    (hq : io.o.queued ≤ maxOutputBuffers) :
    (libmadOutput pcm ls io).2.o.queued = io.o.queued+1 := by
  have hlt := maxOutputBuffers_lt
  rw [(libmadOutput_legal pcm hp ls io).2,ioPush_below io.o hlt hq]
  exact queued_push io.o (by omega)

theorem outputCalls_stopped (its : List MadIter) {ls : Ls} (io : Io) (h : ls.state ≠ .init) :
    outputCalls its ls io = [] := by
  cases its with
  | nil => rfl
  | cons it its => simp [outputCalls,h]

theorem outputCalls_fit_iff (its : List MadIter) (ls : Ls) (io : Io) (hi : ls.state = .init)
    (hp : ∀ it ∈ its, it.pcm.Legal) :
    (∀ r ∈ outputCalls its ls io, r.o.queued < maxOutputBuffers) ↔
      framesDecoded (maxLibmadErrors-ls.errCount) its ≤ maxOutputBuffers-io.o.queued := by
  induction its generalizing ls io with
  | nil => simp [outputCalls,framesDecoded]
  | cons it its ih =>
    have hp' : ∀ it ∈ its, it.pcm.Legal := fun x hx => hp x (List.mem_cons_of_mem _ hx)
    have hd := decodeFrame_spec it ls
    rcases hdec : decodeFrame it ls with ⟨turn,ls1⟩
    rw [hdec] at hd
    simp only [outputCalls,framesDecoded,hi,hdec,ne_eq,not_true_eq_false,if_false]
    cases hk : it.kind with
    | good =>
      rw [hk] at hd
      obtain ⟨rfl,hs,hc⟩ := hd
      simp only [List.mem_cons,forall_eq_or_imp]
      by_cases hq : io.o.queued < maxOutputBuffers
      · obtain ⟨hls,_⟩ := libmadOutput_legal it.pcm (hp it (List.mem_cons_self ..)) ls1 io
        have hqn := libmadOutput_queued it.pcm (hp it (List.mem_cons_self ..)) ls1 io
          (Nat.le_of_lt hq)
        rw [ih _ _ (by rw [hls,hs,hi]) hp',hls,hqn,hc]
        omega
      · omega
    | passed =>
      rw [hk] at hd
      obtain ⟨rfl,hs,hc⟩ := hd
      have hc' : ls1.errCount = ls.errCount := hc
      simp only [ih ls1 io (hs.trans hi) hp',hc']
    | counted =>
      rw [hk] at hd
      obtain ⟨rfl,hc,hs⟩ := hd
      have hc' : ls1.errCount = ls.errCount+1 := hc
      by_cases hm : ls.errCount+1 > maxLibmadErrors
      · have hz : maxLibmadErrors-ls.errCount = 0 := by omega
        have hs' : ls1.state ≠ .init := by
          rw [if_pos hm] at hs
          exact fun h => LibmadState.noConfusion (hs.symm.trans h)
        simp only [outputCalls_stopped its io hs',hz]
        simp
      · have hz : maxLibmadErrors-ls.errCount = maxLibmadErrors-ls1.errCount+1 := by omega
        rw [if_neg hm] at hs
        simp only [ih ls1 io (hs.trans hi) hp',hz]
    | fatal =>
      rw [hk] at hd
      cases hd
      simp

theorem loopPushes_cont {pl : PlState} {ls : Ls} {io : Io} (hr : libmadReady pl ls io = true)
    (hf : (libmadInput ls io).1 = .cont) (its : List MadIter) :
    loopPushes pl its ls io = outputCalls its (libmadInput ls io).2.1 (libmadInput ls io).2.2 := by
  rcases hin : libmadInput ls io with ⟨flow,ls1,io1⟩
  rw [hin] at hf
  cases hf
  simp [loopPushes,hr,hin]

theorem madFrames_overfull (its : List MadIter) (ls : Ls) (io : Io)
    (h : io.o.queued ≤ maxOutputBuffers+1) :
    (madFrames its ls io).2.o.queued ≤ maxOutputBuffers+1 := by
  induction its generalizing ls io with
  | nil => exact h
  | cons it its ih =>
    unfold madFrames
    split
    · exact h
    · split
      · exact h
      · exact ih _ _ h
      · refine ih _ _ ?_
        have hp := ioPush_overfull io.o maxOutputBuffers_lt h
        rw [libmadOutput]
        split <;> exact hp

theorem libmadLoop_took {pl : PlState} {ls : Ls} {io : Io} (hr : libmadReady pl ls io = true)
    (ht : io.i.tail < io.i.head) (ho : io.o.queued ≤ maxOutputBuffers+1) (its : List MadIter) :
    (libmadLoop pl its ls io).2.inRing = io.inRing.take ∧
      (libmadLoop pl its ls io).1.popped = ls.popped ++ io.front.bytes ∧
      ((libmadLoop pl its ls io).1.state = .init ∨ (libmadLoop pl its ls io).1.state = .error) ∧
      (libmadLoop pl its ls io).2.o.queued ≤ maxOutputBuffers+1 := by
  obtain ⟨_,hst,_,hpop⟩ := carryOver_rest ls
  have hinit := (libmadReady_init hr).1
  have hin : libmadInput ls io = _ := libmadInput_some ht
  obtain ⟨_,he⟩ | ⟨_,he⟩ | ⟨_,_,he⟩ := appendInput_cases (carryOver ls) io.front
  · rw [libmadLoop_stop hr (by rw [hin,he]),hin,he,hpop]
    exact ⟨rfl,rfl,.inr rfl,ho⟩
  · rw [libmadLoop_stop hr (by rw [hin,he]),hin,he,hpop]
    exact ⟨rfl,rfl,.inl (hst.trans hinit),ho⟩
  · rw [libmadLoop_cont hr (by rw [hin,he]),madFrames_inRing,madFrames_popped,hin,he,hpop]
    refine ⟨rfl,rfl,?_,madFrames_overfull its _ _ ho⟩
    exact (madFrames_state its _ _).imp_left fun h => h.trans (hst.trans hinit)

/-- In a call that passed the space test, no queued output buffer is overwritten
exactly when the frames in the window are no more than the free slots. -/
theorem libmadLoop_fits_iff (pl : PlState) (its : List MadIter) (ls : Ls) (io : Io)
    (hr : libmadReady pl ls io = true) (hf : (libmadInput ls io).1 = .cont)
    (hp : ∀ it ∈ its, it.pcm.Legal) :
    (∀ r ∈ loopPushes pl its ls io, r.o.queued < maxOutputBuffers) ↔
      framesDecoded (maxLibmadErrors-ls.errCount) its ≤ maxOutputBuffers-io.o.queued := by
  obtain ⟨hs,he,ho⟩ := libmadInput_cont hf
  rw [loopPushes_cont hr hf,outputCalls_fit_iff its _ _ (hs.trans (libmadReady_init hr).1) hp,he,ho]

/-- A silent mono frame of 8 kbit/s at 24 kHz: header, then side information and main
data that are all zero. -/
def smallFrame : List UInt8 := [0xFF,0xF3,0x14,0xC0] ++ List.replicate 20 0

/-- `n` such frames, decoded one after the other from the front of the window. -/
def smallFrames (n : Nat) : List MadIter :=
  (List.range n).map fun k => ⟨.none,24,24*k,.none,0,⟨24000,1,576,List.replicate 576 0,[]⟩⟩

/-- One input buffer with `n` of the frames and the first bytes of the next one: the
library decodes a frame only when the guard bytes behind it are there. -/
def smallFramesIo (n : Nat) : Io :=
  setInput (iPush (ioInit Io.zero)).2 (iPush (ioInit Io.zero)).1
    ⟨(List.replicate n smallFrame).flatten ++
      smallFrame.take madBufferGuard,ioInputBufferSize,24*n+madBufferGuard⟩

theorem libmadLoop_four_frames :
    libmadReady .playing libmadInit (smallFramesIo 4) = true ∧
      ∀ r ∈ loopPushes .playing (smallFrames 4) libmadInit (smallFramesIo 4),
        r.o.queued < maxOutputBuffers :=
  ⟨by decide,(libmadLoop_fits_iff .playing (smallFrames 4) libmadInit (smallFramesIo 4) (by decide)
    (by decide) (by decide)).mpr (by decide)⟩

/-- Five such frames are legal and fit the window with the guard bytes behind them,
and the fifth push meets a full ring. -/
theorem libmadLoop_five_frames :
    LegalFrames (smallFrames 5) (24*5+madBufferGuard) ∧
      libmadReady .playing libmadInit (smallFramesIo 5) = true ∧
      ¬ ∀ r ∈ loopPushes .playing (smallFrames 5) libmadInit (smallFramesIo 5),
        r.o.queued < maxOutputBuffers := by
  decide

end Mardio
