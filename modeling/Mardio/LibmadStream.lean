import Mardio.Lib.Runs
import Mardio.Libmad

/-!
The byte stream the decoder sees: whatever the library leaves undecoded is
carried over in front of the next input buffer.
-/

set_option autoImplicit false

namespace Mardio
open ByteMem CounterRing Runs

/-- The bytes the library has moved over, followed by those it still has in front
of it. -/
def Ls.given (ls : Ls) : List UInt8 := ls.passed ++ window ls.buffer ls.stream.nextFrame ls.remain

def Continuous (ls : Ls) : Prop := ls.given = ls.popped

structure Windowed (ls : Ls) : Prop where
  ordered : ls.stream.nextFrame ≤ ls.stream.bufend
  fits : ls.stream.bufend ≤ libmadBufferSize

theorem Windowed.advance {ls : Ls} (h : Windowed ls) (n : Nat) : Windowed (ls.advance n) := by
  have ho := h.ordered
  refine ⟨?_,h.fits⟩
  simp only [Ls.advance]
  omega

theorem Continuous.advance {ls : Ls} (h : Continuous ls) (n : Nat) : Continuous (ls.advance n) := by
  unfold Continuous Ls.given at *
  simp only [Ls.advance,Ls.remain]
  rw [List.append_assoc,← window_add,← h,Ls.remain]
  congr 2
  omega

/-- The bytes passed and the bytes of the window are all that were popped. -/
theorem Continuous.count {ls : Ls} (h : Continuous ls) :
    ls.passed.length+ls.remain = ls.popped.length := by
  have hlen := congrArg List.length h
  rwa [Ls.given,List.length_append,window_length] at hlen

theorem libmadError_bytes (h : Host) (err : MadError) (ls : Ls) :
    (libmadError h err ls).2.buffer = ls.buffer ∧ (libmadError h err ls).2.popped = ls.popped ∧
      (libmadError h err ls).2.passed = ls.passed ∧
      (libmadError h err ls).2.stream.bufend = ls.stream.bufend ∧
      (libmadError h err ls).2.stream.nextFrame = ls.stream.nextFrame := by
  cases err with
  | lostsync =>
    simp only [libmadError]
    split <;> simp [madStreamSkip]
  | _ => exact ⟨rfl,rfl,rfl,rfl,rfl⟩

theorem Windowed.error {h : Host} {ls : Ls} (hw : Windowed ls) (err : MadError) :
    Windowed (libmadError h err ls).2 := by
  obtain ⟨_,_,_,he,hn⟩ := libmadError_bytes h err ls
  exact ⟨by rw [he,hn]; exact hw.ordered,by rw [he]; exact hw.fits⟩

theorem Continuous.error {h : Host} {ls : Ls} (hc : Continuous ls) (err : MadError) :
    Continuous (libmadError h err ls).2 := by
  obtain ⟨hb,hp,hd,he,hn⟩ := libmadError_bytes h err ls
  unfold Continuous Ls.given Ls.remain
  rw [hb,hp,hd,he,hn]
  exact hc

theorem afterDecode_keeps {P : Ls → Prop} {h : Host} (herr : ∀ e l, P l → P (libmadError h e l).2)
    (err : MadError) {ls : Ls} (hp : P ls) : P (afterDecode h err ls).2 := by
  have he := herr err ls hp
  unfold afterDecode
  split
  · exact hp
  · split
    · exact hp
    · split <;> rename_i heq <;> rw [heq] at he <;> exact he

theorem decodeFrame_keeps {P : Ls → Prop} (herr : ∀ e l, P l → P (libmadError .linux e l).2)
    (hadv : ∀ n l, P l → P (l.advance n)) (hthis : ∀ a l, P l → P (l.setThisFrame a))
    (it : MadIter) {ls : Ls} (h : P ls) : P (decodeFrame it ls).2 := by
  have h1 := afterDecode_keeps herr it.header (hthis it.thisFrame _ (hadv it.headerSize _ h))
  unfold decodeFrame
  split
  · rename_i ls1 heq
    rw [heq] at h1
    exact afterDecode_keeps herr it.frame (hadv it.frameSize _ h1)
  · exact h1

theorem madFrames_keeps {P : Ls → Prop} (herr : ∀ e l, P l → P (libmadError .linux e l).2)
    (hadv : ∀ n l, P l → P (l.advance n)) (hthis : ∀ a l, P l → P (l.setThisFrame a))
    (hout : ∀ l, P l → P { l with state := .error })
    (its : List MadIter) {ls : Ls} (io : Io) (h : P ls) : P (madFrames its ls io).1 := by
  induction its generalizing ls io with
  | nil => exact h
  | cons it its ih =>
    have hd := decodeFrame_keeps herr hadv hthis it h
    unfold madFrames
    split
    · exact h
    · split <;> rename_i ls1 heq <;> rw [heq] at hd
      · exact hd
      · exact ih io hd
      · refine ih _ ?_
        rw [libmadOutput]
        split
        · exact hout _ hd
        · exact hd

theorem Windowed.madFrames {ls : Ls} (h : Windowed ls) (its : List MadIter) (io : Io) :
    Windowed (madFrames its ls io).1 :=
  madFrames_keeps (fun e _ h => h.error e) (fun n _ h => h.advance n)
    (fun _ _ h => ⟨h.ordered,h.fits⟩) (fun _ h => ⟨h.ordered,h.fits⟩) its io h

theorem Continuous.madFrames {ls : Ls} (h : Continuous ls) (its : List MadIter) (io : Io) :
    Continuous (madFrames its ls io).1 :=
  madFrames_keeps (fun e _ h => h.error e) (fun n _ h => h.advance n)
    (fun _ _ h => h) (fun _ h => h) its io h

theorem carryOver_buffer (ls : Ls) (x : Nat) :
    (carryOver ls).buffer x =
      if x < ls.remain then ls.buffer (ls.stream.nextFrame+x) else ls.buffer x := by
  unfold carryOver
  split
  · simp [ucMemmove_apply]
  · rw [if_neg (by omega)]

theorem carryOver_rest (ls : Ls) :
    (carryOver ls).stream = ls.stream ∧ (carryOver ls).state = ls.state ∧
      (carryOver ls).passed = ls.passed ∧ (carryOver ls).popped = ls.popped := by
  unfold carryOver
  split <;> exact ⟨rfl,rfl,rfl,rfl⟩

def Io.front (io : Io) : Input := io.input (slotOf maxInputBuffers io.i.tail.toNat)

theorem libmadInput_none {ls : Ls} {io : Io} (h : ¬ io.i.tail < io.i.head) :
    libmadInput ls io = (.stop,carryOver ls,io) := by
  simp only [libmadInput,iPop,popSlot_none io.i h]

theorem libmadInput_some {ls : Ls} {io : Io} (h : io.i.tail < io.i.head) :
    libmadInput ls io = ((appendInput ((carryOver ls).pop io.front) io.front).1,
      (appendInput ((carryOver ls).pop io.front) io.front).2,
        { io with i := ⟨io.i.head,io.i.tail+1⟩ }) := by
  simp only [libmadInput,iPop,popSlot_some maxInputBuffers_lt io.i h]
  rfl

/-- What is done with a buffer that has just left the ring. -/
theorem appendInput_cases (ls : Ls) (b : Input) :
    (libmadBufferSize < b.used+ls.remain ∧ appendInput (ls.pop b) b =
        (.stop,{ ls with popped := ls.popped ++ b.bytes, state := .error })) ∨
      (b.used+ls.remain = 0 ∧ appendInput (ls.pop b) b = (.stop,{ ls with
        popped := ls.popped ++ b.bytes, buffer := store ls.buffer ls.remain b.bytes })) ∨
      (0 < b.used+ls.remain ∧ b.used+ls.remain ≤ libmadBufferSize ∧
        appendInput (ls.pop b) b = (.cont,{ ls with
        popped := ls.popped ++ b.bytes, buffer := store ls.buffer ls.remain b.bytes,
        stream := { ls.stream with
          bufend := b.used+ls.remain, thisFrame := 0, nextFrame := 0 } })) := by
  have hr : (ls.pop b).remain = ls.remain := rfl
  unfold appendInput
  rw [hr]
  by_cases h1 : b.used+ls.remain > libmadBufferSize
  · exact .inl ⟨h1,by rw [if_pos h1]; rfl⟩
  · by_cases h2 : b.used+ls.remain = 0
    · exact .inr (.inl ⟨h2,by rw [if_neg h1,if_pos h2]; rfl⟩)
    · exact .inr (.inr ⟨by omega,by omega,by rw [if_neg h1,if_neg h2]; rfl⟩)

/-- Nothing behind the first `LIBMAD_BUFFER_SIZE` bytes is written. -/
theorem libmadInput_bounded {ls : Ls} (hw : Windowed ls) (io : Io) (x : Nat)
    (hx : libmadBufferSize ≤ x) : (libmadInput ls io).2.1.buffer x = ls.buffer x := by
  have hfit := hw.fits
  have hm : (carryOver ls).buffer x = ls.buffer x := by
    rw [carryOver_buffer,if_neg (by unfold Ls.remain; omega)]
  by_cases h : io.i.tail < io.i.head
  · rw [libmadInput_some h,← hm]
    obtain ⟨_,he⟩ | ⟨h0,he⟩ | ⟨_,hle,he⟩ := appendInput_cases (carryOver ls) io.front
    · rw [he]
    · rw [he]
      exact store_outside _ _ _ _ (.inr (by rw [Input.bytes_length]; omega))
    · rw [he]
      exact store_outside _ _ _ _ (.inr (by rw [Input.bytes_length]; omega))
  · rw [libmadInput_none h,hm]

theorem Windowed.input {ls : Ls} (hw : Windowed ls) (io : Io) :
    Windowed (libmadInput ls io).2.1 := by
  have hc : Windowed (carryOver ls) := by
    obtain ⟨hs,_⟩ := carryOver_rest ls
    exact ⟨by rw [hs]; exact hw.ordered,by rw [hs]; exact hw.fits⟩
  by_cases h : io.i.tail < io.i.head
  · rw [libmadInput_some h]
    obtain ⟨_,he⟩ | ⟨_,he⟩ | ⟨_,hle,he⟩ := appendInput_cases (carryOver ls) io.front <;> rw [he]
    · exact ⟨hc.ordered,hc.fits⟩
    · exact ⟨hc.ordered,hc.fits⟩
    · exact ⟨Nat.zero_le _,hle⟩
  · rw [libmadInput_none h]
    exact hc

theorem appendInput_window (ls : Ls) (b : Input) :
    window (store (carryOver ls).buffer ls.remain b.bytes) 0 (b.used+ls.remain) =
      window ls.buffer ls.stream.nextFrame ls.remain ++ b.bytes := by
  rw [Nat.add_comm,window_add]
  congr 1
  · refine window_congr fun i hi => ?_
    rw [store_outside _ _ _ _ (.inl (by omega)),carryOver_buffer,if_pos (by omega),Nat.zero_add]
  · have hw := store_window (carryOver ls).buffer ls.remain b.bytes
    rw [Input.bytes_length] at hw
    rw [Nat.zero_add]
    exact hw

theorem Continuous.input {ls : Ls} {io : Io} (hc : Continuous ls) (h : io.i.tail < io.i.head)
    (hi : (libmadInput ls io).2.1.state ≠ .error) : Continuous (libmadInput ls io).2.1 := by
  rw [libmadInput_some h] at hi ⊢
  obtain ⟨hs,_,hpass,hpop⟩ := carryOver_rest ls
  have hr : (carryOver ls).remain = ls.remain := by rw [Ls.remain,hs,Ls.remain]
  obtain ⟨_,he⟩ | ⟨h0,he⟩ | ⟨_,_,he⟩ := appendInput_cases (carryOver ls) io.front
  · rw [he] at hi
    exact absurd rfl hi
  · have hb : io.front.bytes = [] :=
      List.eq_nil_of_length_eq_zero (by rw [Input.bytes_length]; omega)
    have hz : ls.remain = 0 := by omega
    rw [Continuous,Ls.given,hz,window_zero] at hc
    rw [he]
    simp only [Continuous,Ls.given,Ls.remain,hs,hpass,hpop,hb,List.append_nil] at hz ⊢
    rw [hz,window_zero]
    exact hc
  · have hw := appendInput_window ls io.front
    rw [he,hr]
    simp only [Continuous,Ls.given,Ls.remain,Nat.sub_zero] at hc hw ⊢
    rw [hw,hpass,hpop,← hc,List.append_assoc]

theorem libmadOutput_inRing (pcm : Pcm) (ls : Ls) (io : Io) :
    (libmadOutput pcm ls io).2.inRing = io.inRing := by
  rw [libmadOutput]
  split <;> rfl

theorem madFrames_inRing (its : List MadIter) (ls : Ls) (io : Io) :
    (madFrames its ls io).2.inRing = io.inRing := by
  induction its generalizing ls io with
  | nil => rfl
  | cons it its ih =>
    unfold madFrames
    split
    · rfl
    · split
      · rfl
      · exact ih _ _
      · rw [ih,libmadOutput_inRing]

theorem libmadError_state (h : Host) (err : MadError) (ls : Ls) :
    (libmadError h err ls).2.state = ls.state ∨ (libmadError h err ls).2.state = .error := by
  unfold libmadError
  split
  · exact .inl rfl
  · exact .inl rfl
  · simp only
    split <;> exact .inl rfl
  · simp only
    split
    · exact .inr rfl
    · exact .inl rfl

theorem madFrames_state (its : List MadIter) (ls : Ls) (io : Io) :
    (madFrames its ls io).1.state = ls.state ∨ (madFrames its ls io).1.state = .error :=
  madFrames_keeps (P := fun l => l.state = ls.state ∨ l.state = .error)
    (fun e l h => (libmadError_state .linux e l).elim (fun he => he ▸ h) .inr)
    (fun _ _ h => h) (fun _ _ h => h) (fun _ _ => .inr rfl) its io (.inl rfl)

theorem madFrames_popped (its : List MadIter) (ls : Ls) (io : Io) :
    (madFrames its ls io).1.popped = ls.popped :=
  madFrames_keeps (P := fun l => l.popped = ls.popped)
    (fun e l h => (libmadError_bytes .linux e l).2.1.trans h) (fun _ _ h => h) (fun _ _ h => h)
    (fun _ h => h) its io rfl

theorem libmadLoop_idle {pl : PlState} {ls : Ls} {io : Io} (h : libmadReady pl ls io = false)
    (its : List MadIter) : libmadLoop pl its ls io = (ls,io) := by
  simp [libmadLoop,h]

theorem libmadLoop_stop {pl : PlState} {ls : Ls} {io : Io} (h : libmadReady pl ls io = true)
    (hf : (libmadInput ls io).1 = .stop) (its : List MadIter) :
    libmadLoop pl its ls io = (libmadInput ls io).2 := by
  rcases hin : libmadInput ls io with ⟨flow,ls1,io1⟩
  rw [hin] at hf
  cases hf
  simp [libmadLoop,h,hin]

theorem libmadLoop_cont {pl : PlState} {ls : Ls} {io : Io} (h : libmadReady pl ls io = true)
    (hf : (libmadInput ls io).1 = .cont) (its : List MadIter) :
    libmadLoop pl its ls io = madFrames its (libmadInput ls io).2.1 (libmadInput ls io).2.2 := by
  rcases hin : libmadInput ls io with ⟨flow,ls1,io1⟩
  rw [hin] at hf
  cases hf
  simp [libmadLoop,h,hin]

theorem libmadLoop_wrapped {pl : PlState} {ls : Ls} {io : Io} (hr : libmadReady pl ls io = true)
    (ht : ¬ io.i.tail < io.i.head) (its : List MadIter) :
    libmadLoop pl its ls io = (carryOver ls,io) := by
  rw [libmadLoop_stop hr (by rw [libmadInput_none ht]),libmadInput_none ht]

theorem libmadInput_flow (ls : Ls) (io : Io) :
    (libmadInput ls io).1 = .stop ∨ (libmadInput ls io).1 = .cont := by
  by_cases h : io.i.tail < io.i.head
  · rw [libmadInput_some h]
    obtain ⟨_,he⟩ | ⟨_,he⟩ | ⟨_,_,he⟩ := appendInput_cases (carryOver ls) io.front <;> simp [he]
  · exact .inl (by rw [libmadInput_none h])

theorem libmadInput_cont {ls : Ls} {io : Io} (hf : (libmadInput ls io).1 = .cont) :
    (libmadInput ls io).2.1.state = ls.state ∧ (libmadInput ls io).2.1.errCount = ls.errCount ∧
      (libmadInput ls io).2.2.o = io.o := by
  by_cases ho : io.i.tail < io.i.head
  · have hs : (carryOver ls).state = ls.state ∧ (carryOver ls).errCount = ls.errCount := by
      unfold carryOver
      split <;> exact ⟨rfl,rfl⟩
    rw [libmadInput_some ho] at hf ⊢
    obtain ⟨_,he⟩ | ⟨_,he⟩ | ⟨_,_,he⟩ := appendInput_cases (carryOver ls) io.front
    · simp [he] at hf
    · simp [he] at hf
    · simp [he,hs]
  · rw [libmadInput_none ho] at hf
    cases hf

theorem libmadReady_init {pl : PlState} {ls : Ls} {io : Io} (h : libmadReady pl ls io = true) :
    ls.state = .init ∧ pl ≠ .buffering ∧ iUsed io ≠ 0 ∧ decompressSize ≤ (oFreeSize io).toNat := by
  simpa [libmadReady,and_assoc] using h

structure Feed where
  ls : Ls
  io : Io

inductive FeedOp where
  | queue : Input → FeedOp
  | loop : PlState → List MadIter → FeedOp
  | play : FeedOp

/-- A source queues a buffer when a slot is free, the decoder is polled, or the
sound device takes an output buffer. -/
def feedStep (s : Feed) : FeedOp → Option Feed
  | .queue b =>
      if iFree s.io ≠ 0 then some { s with io := setInput (iPush s.io).2 (iPush s.io).1 b }
        else some s
  | .loop pl its => some ⟨(libmadLoop pl its s.ls s.io).1,(libmadLoop pl its s.ls s.io).2⟩
  | .play => some { s with io := (oPop s.io).2 }

def feedStart (io : Io) : Feed := ⟨libmadInit,ioInit io⟩

/-- Once the head counter has wrapped no removal succeeds, and the stream is left
as it is. -/
structure FeedInv (s : Feed) : Prop where
  queued : s.io.i.queued ≤ maxInputBuffers
  windowed : Windowed s.ls
  stream : s.ls.state = .init → Continuous s.ls ∨ s.io.i.head < s.io.i.tail

theorem push_wrapped {n : Nat} {i : IoS n} (hn : n < 2^16) (hq : i.queued < n)
    (h : i.head < i.tail) :
    i.head+1 < i.tail := by
  have hh := i.head.toNat_lt
  have ht := i.tail.toNat_lt
  rw [UInt32.lt_iff_toNat_lt] at *
  simp only [IoS.queued,toNat_diff,toNat_succ] at *
  omega

theorem FeedInv.queue {s : Feed} (h : FeedInv s) (b : Input) (hf : iFree s.io ≠ 0) :
    FeedInv { s with io := setInput (iPush s.io).2 (iPush s.io).1 b } := by
  have hq := queued_lt_of_free s.io.i maxInputBuffers_lt h.queued hf
  have hi : (setInput (iPush s.io).2 (iPush s.io).1 b).i = ⟨s.io.i.head+1,s.io.i.tail⟩ :=
    ioPush_below s.io.i maxInputBuffers_lt h.queued
  have hlt := maxInputBuffers_lt
  refine ⟨?_,h.windowed,fun hs => ?_⟩
  · rw [hi,queued_push s.io.i (by omega)]
    exact hq
  · rw [hi]
    exact (h.stream hs).imp_right (push_wrapped maxInputBuffers_lt hq)

theorem FeedInv.take {s : Feed} (h : FeedInv s) {pl : PlState}
    (hr : libmadReady pl s.ls s.io = true) :
    FeedInv ⟨(libmadInput s.ls s.io).2.1,(libmadInput s.ls s.io).2.2⟩ := by
  have hw := h.windowed.input s.io
  obtain ⟨hinit,_,hused,_⟩ := libmadReady_init hr
  by_cases ho : s.io.i.tail < s.io.i.head
  · have hq : (⟨s.io.i.head,s.io.i.tail+1⟩ : IoS maxInputBuffers).queued ≤ maxInputBuffers := by
      have hp := queued_pop s.io.i ho
      have hb := h.queued
      omega
    have hc : Continuous s.ls := (h.stream hinit).resolve_right (UInt32.lt_asymm ho)
    refine ⟨?_,hw,fun hs => .inl (hc.input ho ?_)⟩
    · rw [libmadInput_some ho]
      exact hq
    · simp only at hs
      rw [hs]
      exact LibmadState.noConfusion
  · -- the ring is not empty, so a failed pop means that the head counter has wrapped
    rw [libmadInput_none ho] at hw ⊢
    have hne : s.io.i.head ≠ s.io.i.tail := by
      intro he
      simp [iUsed,ioUsed,he] at hused
    exact ⟨h.queued,hw,fun _ => .inr (UInt32.lt_of_le_of_ne (UInt32.not_lt.mp ho) hne)⟩

theorem FeedInv.decode {s : Feed} (h : FeedInv s) (hc : Continuous s.ls) (its : List MadIter) :
    FeedInv ⟨(madFrames its s.ls s.io).1,(madFrames its s.ls s.io).2⟩ := by
  have hr : ∀ io' : Io, io'.inRing = s.io.inRing → io'.i.queued ≤ maxInputBuffers := by
    intro io' he
    have hu : io'.inRing.used = s.io.inRing.used := by rw [he]
    exact Nat.le_trans (Nat.le_of_eq hu) h.queued
  exact ⟨hr _ (madFrames_inRing its s.ls s.io),h.windowed.madFrames its s.io,
    fun _ => .inl (hc.madFrames its s.io)⟩

theorem FeedInv.presented {s : Feed} (h : FeedInv s) {pl : PlState}
    (hr : libmadReady pl s.ls s.io = true) (hf : (libmadInput s.ls s.io).1 = .cont) :
    Continuous (libmadInput s.ls s.io).2.1 := by
  by_cases ho : s.io.i.tail < s.io.i.head
  · have hinit := (libmadReady_init hr).1
    have hc : Continuous s.ls := (h.stream hinit).resolve_right (UInt32.lt_asymm ho)
    refine hc.input ho ?_
    rw [(libmadInput_cont hf).1,hinit]
    exact LibmadState.noConfusion
  · rw [libmadInput_none ho] at hf
    cases hf

theorem FeedInv.step {s t : Feed} {op : FeedOp} (h : FeedInv s) (hs : feedStep s op = some t) :
    FeedInv t := by
  cases op with
  | queue b =>
    by_cases hf : iFree s.io ≠ 0
    · rw [feedStep,if_pos hf] at hs
      cases hs
      exact h.queue b hf
    · rw [feedStep,if_neg hf] at hs
      cases hs
      exact h
  | loop pl its =>
    cases hs
    cases hr : libmadReady pl s.ls s.io with
    | false => rw [libmadLoop_idle hr]; exact h
    | true =>
      have ht := h.take hr
      obtain hf | hf := libmadInput_flow s.ls s.io
      · rw [libmadLoop_stop hr hf]
        exact ht
      · rw [libmadLoop_cont hr hf]
        exact ht.decode (h.presented hr hf) its
  | play =>
    cases hs
    exact ⟨h.queued,h.windowed,h.stream⟩

theorem feedStart_inv (io : Io) : FeedInv (feedStart io) :=
  ⟨(by decide : (⟨0,0⟩ : IoS maxInputBuffers).queued ≤ maxInputBuffers),
    ⟨Nat.le_refl _,Nat.zero_le _⟩,fun _ => .inl rfl⟩

/-- The bytes of the buffers the tail of the input ring has moved over. -/
def Io.removed (io io' : Io) : List UInt8 :=
  (List.range (io'.i.tail-io.i.tail).toNat).flatMap fun k => (io.inRing.entry k).2.bytes

theorem Io.removed_none {io io' : Io} (h : io'.i.tail = io.i.tail) : io.removed io' = [] := by
  simp [Io.removed,h]

theorem Io.removed_one {io io' : Io} (h : io'.i.tail = io.i.tail+1) :
    io.removed io' = io.front.bytes := by
  simp [Io.removed,h,Io.front,Io.inRing,ringOf,entry]

/-- The rings and the decoder, and the bytes of all buffers that have left the input
ring. -/
structure Conveyor where
  feed : Feed
  taken : List UInt8

/-- What a step takes is read off the ring before and after it. -/
def conveyStep (s : Conveyor) (op : FeedOp) : Option Conveyor :=
  (feedStep s.feed op).map fun feed => ⟨feed,s.taken ++ s.feed.io.removed feed.io⟩

def conveyStart (io : Io) : Conveyor := ⟨feedStart io,[]⟩

/-- Nothing behind the buffer is written, and while the decoder is up what it was given
is what left the ring: after every operation, and whenever a call of `libmad_input`
presents bytes to the library, before and after any number of decoding turns. -/
structure Presents (s : Conveyor) : Prop where
  bounded : ∀ pl, libmadReady pl s.feed.ls s.feed.io = true → ∀ x, libmadBufferSize ≤ x →
    (libmadInput s.feed.ls s.feed.io).2.1.buffer x = s.feed.ls.buffer x
  stream : s.feed.ls.state = .init → s.feed.ls.given = s.taken
  presented : ∀ pl, libmadReady pl s.feed.ls s.feed.io = true →
    (libmadInput s.feed.ls s.feed.io).1 = .cont →
    (libmadInput s.feed.ls s.feed.io).2.1.given = s.taken ++ s.feed.io.front.bytes ∧
      ∀ its, (madFrames its (libmadInput s.feed.ls s.feed.io).2.1
        (libmadInput s.feed.ls s.feed.io).2.2).1.given =
        s.taken ++ s.feed.io.front.bytes

/-- Moving the rest of the window to the front of the buffer does not change what is
read at its old place. -/
def Ls.Still (ls : Ls) : Prop :=
  ∀ x, ls.stream.nextFrame+x < ls.remain →
    ls.buffer (ls.stream.nextFrame+(ls.stream.nextFrame+x)) = ls.buffer (ls.stream.nextFrame+x)

/-- A call that gets as far as `libmad_input` finds the head counter above the tail, or
a window that stands the move without a new buffer. -/
def PopsOrStill (s : Conveyor) : FeedOp → Prop
  | .loop pl _ => libmadReady pl s.feed.ls s.feed.io = true →
      s.feed.io.i.tail < s.feed.io.i.head ∨ s.feed.ls.Still
  | _ => True

structure ConveyInv (s : Conveyor) : Prop where
  feed : FeedInv s.feed
  stream : s.feed.ls.state = .init → Continuous s.feed.ls
  taken : s.feed.ls.popped = s.taken

theorem carryOver_given (ls : Ls) : (carryOver ls).given = ls.given ↔ ls.Still := by
  obtain ⟨hst,-,hpass,-⟩ := carryOver_rest ls
  have hrem : (carryOver ls).remain = ls.remain := by rw [Ls.remain,hst,Ls.remain]
  simp only [Ls.given,hrem,hst,hpass,List.append_cancel_left_eq,window,List.map_inj_left,
    List.mem_range,carryOver_buffer]
  constructor
  · intro h x hx
    have hmoved := h x (by omega)
    rwa [if_pos hx] at hmoved
  · intro h x _
    split
    · exact h x ‹_›
    · rfl

theorem libmadInput_popped (ls : Ls) {io : Io} (h : io.i.tail < io.i.head) :
    (libmadInput ls io).2.1.popped = ls.popped ++ io.front.bytes ∧
      (libmadInput ls io).2.2.i = ⟨io.i.head,io.i.tail+1⟩ := by
  obtain ⟨-,-,-,hpop⟩ := carryOver_rest ls
  rw [libmadInput_some h]
  obtain ⟨_,he⟩ | ⟨_,he⟩ | ⟨_,_,he⟩ := appendInput_cases (carryOver ls) io.front <;> rw [he] <;>
    exact ⟨by simp [hpop],rfl⟩

/-- The three ways a call of `libmad_loop` treats the input ring: it does not look at it,
it takes a buffer, or it finds the head counter wrapped and only moves the window. -/
theorem libmadLoop_takes (pl : PlState) (its : List MadIter) (ls : Ls) (io : Io) :
    (libmadReady pl ls io = false ∧ libmadLoop pl its ls io = (ls,io)) ∨
      (libmadReady pl ls io = true ∧ io.i.tail < io.i.head ∧
        (libmadLoop pl its ls io).1.popped = ls.popped ++ io.front.bytes ∧
        (libmadLoop pl its ls io).2.i = ⟨io.i.head,io.i.tail+1⟩ ∧
        (Continuous ls → (libmadLoop pl its ls io).1.state = .init →
          Continuous (libmadLoop pl its ls io).1)) ∨
      (libmadReady pl ls io = true ∧ ¬ io.i.tail < io.i.head ∧
        libmadLoop pl its ls io = (carryOver ls,io)) := by
  cases hr : libmadReady pl ls io with
  | false => exact .inl ⟨rfl,libmadLoop_idle hr its⟩
  | true =>
    by_cases hlt : io.i.tail < io.i.head
    · obtain ⟨hpop,htail⟩ := libmadInput_popped ls hlt
      refine .inr (.inl ⟨rfl,hlt,?_⟩)
      obtain hf | hf := libmadInput_flow ls io
      · rw [libmadLoop_stop hr hf]
        refine ⟨hpop,htail,fun hc hi => hc.input hlt ?_⟩
        rw [hi]
        exact LibmadState.noConfusion
      · have hring := madFrames_inRing its (libmadInput ls io).2.1 (libmadInput ls io).2.2
        rw [libmadLoop_cont hr hf]
        refine ⟨(madFrames_popped _ _ _).trans hpop,?_,
          fun hc _ => (hc.input hlt ?_).madFrames its _⟩
        · exact (congrArg (fun r : CounterRing Input maxInputBuffers =>
            (⟨r.head,r.tail⟩ : IoS maxInputBuffers)) hring).trans htail
        · rw [(libmadInput_cont hf).1,(libmadReady_init hr).1]
          exact LibmadState.noConfusion
    · exact .inr (.inr ⟨rfl,hlt,libmadLoop_wrapped hr hlt its⟩)

theorem ConveyInv.presents {s : Conveyor} (h : ConveyInv s) : Presents s := by
  refine ⟨fun pl _ => libmadInput_bounded h.feed.windowed s.feed.io,
    fun hi => (h.stream hi).trans h.taken,fun pl hr hf => ?_⟩
  have hc := h.feed.presented hr hf
  have hlt : s.feed.io.i.tail < s.feed.io.i.head := by
    by_contra hn
    rw [libmadInput_none hn] at hf
    cases hf
  have hpop := (libmadInput_popped s.feed.ls hlt).1
  rw [h.taken] at hpop
  exact ⟨hc.trans hpop,fun its => (hc.madFrames its _).trans ((madFrames_popped _ _ _).trans hpop)⟩

/-- A step that leaves the decoder and the tail of the ring alone. -/
theorem ConveyInv.untaken {s : Conveyor} (h : ConveyInv s) {feed : Feed} (hfeed : FeedInv feed)
    (hls : feed.ls = s.feed.ls) (htail : feed.io.i.tail = s.feed.io.i.tail) :
    ConveyInv ⟨feed,s.taken ++ s.feed.io.removed feed.io⟩ := by
  rw [Io.removed_none htail,List.append_nil]
  exact ⟨hfeed,by rw [hls]; exact h.stream,by rw [hls]; exact h.taken⟩

theorem ConveyInv.step {s t : Conveyor} {op : FeedOp} (h : ConveyInv s) (hok : PopsOrStill s op)
    (ht : conveyStep s op = some t) : ConveyInv t := by
  obtain ⟨feed,hfeed,rfl⟩ := Option.map_eq_some_iff.mp ht
  have hinv := h.feed.step hfeed
  cases op with
  | queue b =>
    by_cases hf : iFree s.feed.io ≠ 0
    · rw [feedStep,if_pos hf] at hfeed
      cases hfeed
      have htail : (ioPush s.feed.io.i).2.tail = s.feed.io.i.tail := by
        rw [ioPush_below s.feed.io.i maxInputBuffers_lt h.feed.queued]
      exact h.untaken hinv rfl htail
    · rw [feedStep,if_neg hf] at hfeed
      cases hfeed
      exact h.untaken hinv rfl rfl
  | play =>
    cases hfeed
    exact h.untaken hinv rfl rfl
  | loop pl its =>
    cases hfeed
    obtain ⟨-,he⟩ | ⟨hr,-,hpop,hring,hstream⟩ | ⟨hr,hlt,he⟩ :=
      libmadLoop_takes pl its s.feed.ls s.feed.io
    · exact h.untaken hinv (congrArg Prod.fst he) (congrArg (fun r : Ls × Io => r.2.i.tail) he)
    · refine ⟨hinv,hstream (h.stream (libmadReady_init hr).1),?_⟩
      rw [Io.removed_one (congrArg IoS.tail hring),hpop,h.taken]
    · -- no buffer leaves the ring, so the window has to stand the move
      obtain ⟨-,-,-,hpop⟩ := carryOver_rest s.feed.ls
      have hstill : s.feed.ls.Still := (hok hr).resolve_left hlt
      have hgiven := (carryOver_given s.feed.ls).mpr hstill
      rw [he] at hinv ⊢
      refine ⟨hinv,fun _ => ?_,?_⟩
      · exact hgiven.trans ((h.stream (libmadReady_init hr).1).trans hpop.symm)
      · rw [Io.removed_none rfl,List.append_nil]
        exact hpop.trans h.taken

/-- The window is moved, no buffer is put behind it, and its old place reads otherwise. -/
theorem ConveyInv.damaged {s : Conveyor} {op : FeedOp} (h : ConveyInv s) (hn : ¬ PopsOrStill s op) :
    ∃ t, conveyStep s op = some t ∧ ¬ Presents t := by
  cases op with
  | queue b => exact absurd trivial hn
  | play => exact absurd trivial hn
  | loop pl its =>
    simp only [PopsOrStill,Classical.not_imp,not_or] at hn
    obtain ⟨hr,hlt,hstill⟩ := hn
    have he := libmadLoop_wrapped hr hlt its
    have hinit := (libmadReady_init hr).1
    refine ⟨_,rfl,fun hp => hstill ((carryOver_given s.feed.ls).mp ?_)⟩
    have hafter := hp.stream
    simp only [he,Io.removed_none,List.append_nil] at hafter
    rw [hafter ((carryOver_rest s.feed.ls).2.1.trans hinit),← h.taken]
    exact (h.stream hinit).symm

theorem conveyStart_inv (io : Io) : ConveyInv (conveyStart io) :=
  ⟨feedStart_inv io,fun _ => rfl,rfl⟩

def FeedOp.isQueue : FeedOp → Bool
  | .queue _ => true
  | _ => false

theorem feedStep_counters {s t : Feed} {op : FeedOp} (h : FeedInv s) (hs : feedStep s op = some t)
    (ho : s.io.i.tail.toNat ≤ s.io.i.head.toNat)
    (hroom : s.io.i.head.toNat+op.isQueue.toNat < 2^32) :
    t.io.i.tail.toNat ≤ t.io.i.head.toNat ∧
      t.io.i.head.toNat ≤ s.io.i.head.toNat+op.isQueue.toNat := by
  cases op with
  | queue b =>
    by_cases hf : iFree s.io ≠ 0
    · rw [feedStep,if_pos hf] at hs
      cases hs
      have hi : (setInput (iPush s.io).2 (iPush s.io).1 b).i = ⟨s.io.i.head+1,s.io.i.tail⟩ :=
        ioPush_below s.io.i maxInputBuffers_lt h.queued
      have hsucc := toNat_succ s.io.i.head
      simp only [hi,hsucc]
      simp only [FeedOp.isQueue,Bool.toNat_true] at hroom ⊢
      omega
    · rw [feedStep,if_neg hf] at hs
      cases hs
      exact ⟨ho,Nat.le_add_right _ _⟩
  | play =>
    cases hs
    exact ⟨ho,Nat.le_add_right _ _⟩
  | loop pl its =>
    cases hs
    obtain ⟨-,he⟩ | ⟨-,hlt,-,hring,-⟩ | ⟨-,-,he⟩ := libmadLoop_takes pl its s.ls s.io
    · rw [he]
      exact ⟨ho,Nat.le_add_right _ _⟩
    · have hsucc := toNat_succ s.io.i.tail
      have hnat := UInt32.lt_iff_toNat_lt.mp hlt
      simp only [hring,hsucc]
      omega
    · rw [he]
      exact ⟨ho,Nat.le_add_right _ _⟩

/-- Less than 2^32 buffers do not wrap the head counter. -/
theorem popsOrStill_of_few (ops : List FeedOp) (s : Conveyor) (h : FeedInv s.feed)
    (ho : s.feed.io.i.tail.toNat ≤ s.feed.io.i.head.toNat)
    (hfew : s.feed.io.i.head.toNat+ops.countP FeedOp.isQueue < 2^32) :
    Guarded conveyStep PopsOrStill s ops := by
  induction ops generalizing s with
  | nil => trivial
  | cons op ops ih =>
    have hcount : (op :: ops).countP FeedOp.isQueue =
        op.isQueue.toNat+ops.countP FeedOp.isQueue := by
      rw [List.countP_cons]
      cases op.isQueue <;> simp [Nat.add_comm]
    refine ⟨?_,fun t ht => ?_⟩
    · cases op with
      | loop pl its =>
        intro hr
        have hused := (libmadReady_init hr).2.2.1
        have hne : s.feed.io.i.head ≠ s.feed.io.i.tail :=
          fun he => by simp [iUsed,ioUsed,he] at hused
        have hnat : s.feed.io.i.head.toNat ≠ s.feed.io.i.tail.toNat :=
          fun he => hne (UInt32.toNat_inj.mp he)
        exact .inl (UInt32.lt_iff_toNat_lt.mpr (by omega))
      | queue b => trivial
      | play => trivial
    · obtain ⟨feed,hfeed,rfl⟩ := Option.map_eq_some_iff.mp ht
      obtain ⟨ho',hhead⟩ := feedStep_counters h hfeed ho (by omega)
      refine ih _ (h.step hfeed) ho' ?_
      change feed.io.i.head.toNat+_ < _
      omega

theorem presents_iff_guarded (io : Io) (ops : List FeedOp) :
    Always conveyStep Presents (conveyStart io) ops ↔
      Guarded conveyStep PopsOrStill (conveyStart io) ops :=
  always_iff_guarded (fun _ h => ConveyInv.presents h) (fun _ _ _ h hok ht => h.step hok ht)
    (fun _ _ h hn => h.damaged hn) ops (conveyStart io) (conveyStart_inv io)

/-- Along every run of sources, decoder and sound device, the library is given the bytes
that leave the ring, in order and none of them lost, exactly as long as no call finds the
head counter wrapped and moves a window that does not stand it. Less than 2^32 buffers
never lead there. -/
theorem conveyRun_presents_iff (io : Io) (ops : List FeedOp) :
    (Always conveyStep Presents (conveyStart io) ops ↔
      Guarded conveyStep PopsOrStill (conveyStart io) ops) ∧
      (ops.countP FeedOp.isQueue < 2^32 → Always conveyStep Presents (conveyStart io) ops) := by
  have hiff := presents_iff_guarded io ops
  refine ⟨hiff,fun hfew => hiff.mpr (popsOrStill_of_few ops _ (feedStart_inv io)
    (Nat.le_refl _) ?_)⟩
  simpa [conveyStart,feedStart,ioInit,ioResetOutput,ioResetInput] using hfew

/-- The library moves over `n` bytes and asks for the next turn. -/
def skipIter (n : Nat) : MadIter := ⟨.none,n,0,.baddataptr,0,⟨44100,2,0,[],[]⟩⟩

theorem conveyRun_presents_two :
    Always conveyStep Presents (conveyStart Io.zero)
      [.queue ⟨[1,2,3],ioInputBufferSize,3⟩,.loop .playing [skipIter 1],
        .queue ⟨[4],ioInputBufferSize,1⟩,.loop .playing []] :=
  (conveyRun_presents_iff Io.zero _).2 (by decide)

/-- The decoder is up and nothing waits in the rings. -/
structure Drained (s : Feed) (c : Nat) : Prop where
  up : s.ls.state = .init
  level : s.io.i.head = s.io.i.tail
  count : s.io.i.head.toNat = c
  out : s.io.o = ⟨0,0⟩

theorem madFrames_skip {ls : Ls} (hi : ls.state = .init) (n : Nat) (io : Io) :
    madFrames [skipIter n] ls io = (((ls.advance n).setThisFrame 0).advance 0,io) := by
  simp [madFrames,hi,skipIter,decodeFrame,afterDecode,madRecoverable,libmadError]

theorem Drained.queue {s : Feed} {c : Nat} (h : Drained s c) (b : Input) :
    ∃ io, feedStep s (.queue b) = some { s with io := io } ∧ io.i = ⟨s.io.i.head+1,s.io.i.tail⟩ ∧
      io.o = ⟨0,0⟩ ∧ io.front = b := by
  have hq : s.io.i.queued = 0 := by simp [IoS.queued,h.level]
  have hfree : iFree s.io ≠ 0 := by
    intro h0
    have hf := ioFree_toNat s.io.i maxInputBuffers_lt (by omega)
    rw [show ioFree s.io.i = 0 from h0,hq] at hf
    cases hf
  have hi : (setInput (iPush s.io).2 (iPush s.io).1 b).i = ⟨s.io.i.head+1,s.io.i.tail⟩ :=
    ioPush_below s.io.i maxInputBuffers_lt (by omega)
  refine ⟨_,by rw [feedStep,if_pos hfree],hi,h.out,?_⟩
  rw [Io.front,hi,← h.level,← iPush_slot]
  simp [setInput]

theorem Drained.ready {s : Feed} {c : Nat} (h : Drained s c) {io : Io}
    (hi : io.i = ⟨s.io.i.head+1,s.io.i.tail⟩) (ho : io.o = ⟨0,0⟩) :
    libmadReady .playing s.ls io = true := by
  have hused : iUsed io = 1 := by simp [iUsed,ioUsed,hi,h.level]
  have hspace : decompressSize ≤ (oFreeSize io).toNat := by
    rw [oFreeSize,ho]
    decide
  simp [libmadReady,h.up,hused,hspace]

/-- A buffer taken when nothing is left becomes the whole window. -/
theorem libmadInput_all {ls : Ls} {io : Io} (hup : ls.state = .init) (hrest : ls.remain = 0)
    (hlt : io.i.tail < io.i.head) (hb : 0 < io.front.used ∧ io.front.used ≤ libmadBufferSize) :
    ∃ ls1, libmadInput ls io = (.cont,ls1,{ io with i := ⟨io.i.head,io.i.tail+1⟩ }) ∧
      ls1.state = .init ∧
      ls1.stream.nextFrame = 0 ∧ ls1.stream.bufend = io.front.used ∧
      window ls1.buffer 0 io.front.used = io.front.bytes := by
  obtain ⟨hst,hstate,-⟩ := carryOver_rest ls
  have hrem : (carryOver ls).remain = 0 := by
    rw [Ls.remain,hst]
    exact hrest
  have hwin := appendInput_window ls io.front
  rw [hrest,Nat.add_zero,window_zero,List.nil_append] at hwin
  rw [libmadInput_some hlt]
  obtain ⟨hbig,-⟩ | ⟨hzero,-⟩ | ⟨-,-,he⟩ := appendInput_cases (carryOver ls) io.front
  · omega
  · omega
  · rw [he,hrem]
    exact ⟨_,rfl,hstate.trans hup,rfl,rfl,hwin⟩

/-- One buffer comes and the library moves over its first `n` bytes. -/
theorem Drained.turn {s : Feed} {c : Nat} (h : Drained s c) (hrest : s.ls.remain = 0)
    (hc : c+1 < 2^32) (b : Input) (n : Nat) (hb : 0 < b.used ∧ b.used ≤ libmadBufferSize)
    (hn : n ≤ b.used) :
    ∃ s1 s2, feedStep s (.queue b) = some s1 ∧ feedStep s1 (.loop .playing [skipIter n]) = some s2 ∧
      Drained s2 (c+1) ∧ s2.ls.stream.nextFrame = n ∧ s2.ls.stream.bufend = b.used ∧
      window s2.ls.buffer 0 b.used = b.bytes := by
  obtain ⟨io,hqueue,hi,ho,hfront⟩ := h.queue b
  have hready := h.ready hi ho
  have hsucc : (s.io.i.head+1).toNat = c+1 := by
    rw [toNat_succ,h.count]
    omega
  have hlt : io.i.tail < io.i.head := by
    rw [hi,UInt32.lt_iff_toNat_lt,hsucc,← h.level,h.count]
    omega
  obtain ⟨ls1,hin,hup,hnext,hend,hwin⟩ := libmadInput_all h.up hrest hlt (by rwa [hfront])
  rw [hfront] at hend hwin
  have hloop := libmadLoop_cont hready (by rw [hin]) [skipIter n]
  rw [hin] at hloop
  simp only [madFrames_skip hup] at hloop
  refine ⟨_,_,hqueue,by rw [feedStep,hloop],⟨hup,?_,?_,ho⟩,?_,?_,?_⟩
  · simp [hi,h.level]
  · simp only [hi]
    exact hsucc
  · simp [Ls.advance,Ls.setThisFrame,hnext,hend,hn]
  · simp [Ls.advance,Ls.setThisFrame,hend]
  · simpa [Ls.advance,Ls.setThisFrame,window_zero] using hwin

/-- `k` buffers of one byte that the library moves over, one of three bytes of which it
leaves two, and one more that `i_pop` does not find. -/
def lostRun (k : Nat) : List FeedOp :=
  (List.replicate k [FeedOp.queue ⟨[0],ioInputBufferSize,1⟩,
    FeedOp.loop .playing [skipIter 1]]).flatten ++
    [FeedOp.queue ⟨[1,2,3],ioInputBufferSize,3⟩,FeedOp.loop .playing [skipIter 1],
      FeedOp.queue ⟨[4],ioInputBufferSize,1⟩,FeedOp.loop .playing []]

theorem lostRun_unguarded (k : Nat) (s : Conveyor) (h : Drained s.feed (2^32-2-k))
    (hrest : s.feed.ls.remain = 0) (hk : k ≤ 2^32-2) :
    ¬ Guarded conveyStep PopsOrStill s (lostRun k) := by
  induction k generalizing s with
  | zero =>
    intro hg
    obtain ⟨s1,s2,h1,h2,hd,hnext,hend,hwin⟩ :=
      h.turn hrest (by omega) ⟨[1,2,3],ioInputBufferSize,3⟩ 1
      (by decide) (by decide)
    obtain ⟨io,hqueue,hi,ho,-⟩ := hd.queue ⟨[4],ioInputBufferSize,1⟩
    have hready := hd.ready hi ho
    -- follow the run to its last call
    obtain ⟨-,hg⟩ := hg
    obtain ⟨-,hg⟩ := hg _ (by rw [conveyStep,h1,Option.map_some])
    obtain ⟨-,hg⟩ := hg _ (by rw [conveyStep,h2,Option.map_some])
    obtain ⟨hlast,-⟩ := hg _ (by rw [conveyStep,hqueue,Option.map_some])
    obtain hlt | hstill := hlast hready
    · rw [UInt32.lt_iff_toNat_lt,show io.i = _ from hi,toNat_succ,hd.count] at hlt
      omega
    · have hbytes : s2.ls.buffer 0 = 1 ∧ s2.ls.buffer 1 = 2 ∧ s2.ls.buffer 2 = 3 := by
        simpa [window,List.range_succ,Input.bytes] using hwin
      have hmoved := hstill 0 (by simp [Ls.remain,hnext,hend])
      simp [hnext,hbytes] at hmoved
  | succ k ih =>
    obtain ⟨s1,s2,h1,h2,hd,hnext,hend,-⟩ := h.turn hrest (by omega) ⟨[0],ioInputBufferSize,1⟩ 1
      (by decide) (by decide)
    intro hg
    simp only [lostRun,List.replicate_succ,List.flatten_cons,List.cons_append,List.nil_append] at hg
    obtain ⟨-,hg⟩ := hg
    obtain ⟨-,hg⟩ := hg _ (by rw [conveyStep,h1,Option.map_some])
    have hg' := hg _ (by rw [conveyStep,h2,Option.map_some])
    refine ih ⟨s2,_⟩ ?_ (by simp [Ls.remain,hnext,hend]) (by omega) hg'
    have hcount : 2^32-2-k = 2^32-2-(k+1)+1 := by omega
    rw [hcount]
    exact hd

/-- The head counter wraps with the last buffer: two of the bytes given are lost. -/
theorem conveyRun_window_lost : ¬ Always conveyStep Presents (conveyStart Io.zero)
    (lostRun (2^32-2)) := by
  rw [presents_iff_guarded]
  exact lostRun_unguarded _ _ ⟨rfl,rfl,rfl,rfl⟩ rfl (Nat.le_refl _)

end Mardio
