import Mardio.LibmadSpace

/-!
Whether the undecoded tail and the next input buffer fit the decode buffer. How
much the library leaves behind depends only on the frames of the stream and on
how many bytes have been delivered, so the question is one about these two.
-/

set_option autoImplicit false

namespace Mardio
open ByteMem CounterRing Runs

/-- The frames at the start of a window that the library decodes: it stops at the
first one that is not there with its guard bytes. -/
def decodable : List Nat → Nat → List Nat
  | [], _ => []
  | f :: fs, w => if f+madBufferGuard ≤ w then f :: decodable fs (w-f) else []

/-- The frame boundary the library has come to when `d` bytes were delivered. -/
def boundary (frames : List Nat) (d : Nat) : Nat := (decodable frames d).sum

def framesAfter (frames : List Nat) (d : Nat) : List Nat := frames.drop (decodable frames d).length

theorem boundary_le (frames : List Nat) (d : Nat) : boundary frames d ≤ d := by
  unfold boundary
  induction frames generalizing d with
  | nil => simp [decodable]
  | cons f fs ih =>
    have h := ih (d-f)
    simp only [decodable]
    split
    · simp
      omega
    · simp

/-- More bytes only add frames to those already decoded. -/
theorem decodable_add (frames : List Nat) {d d' : Nat} (h : d ≤ d') :
    decodable frames d' =
      decodable frames d ++ decodable (framesAfter frames d) (d'-boundary frames d) := by
  unfold framesAfter boundary
  induction frames generalizing d d' with
  | nil => simp [decodable]
  | cons f fs ih =>
    by_cases hf : f+madBufferGuard ≤ d
    · have hf' : f+madBufferGuard ≤ d' := by omega
      have hi := ih (show d-f ≤ d'-f by omega)
      simp only [decodable,hf,hf',if_true,List.length_cons,List.drop_succ_cons,List.sum_cons,
        List.cons_append]
      rw [hi,Nat.sub_sub]
    · simp [decodable,hf]

theorem boundary_add (frames : List Nat) {d d' : Nat} (h : d ≤ d') :
    boundary frames d' =
      boundary frames d+(decodable (framesAfter frames d) (d'-boundary frames d)).sum := by
  rw [boundary,decodable_add frames h,List.sum_append]
  rfl

theorem framesAfter_add (frames : List Nat) {d d' : Nat} (h : d ≤ d') :
    framesAfter frames d' = (framesAfter frames d).drop
      (decodable (framesAfter frames d) (d'-boundary frames d)).length := by
  rw [framesAfter,decodable_add frames h,List.length_append,← List.drop_drop]
  rfl

/-- A decoded frame: the header moves `next_frame` over the whole frame, and what
is wrong with its data, if anything, does not end the call. -/
structure MadIter.Clean (it : MadIter) : Prop where
  header : it.header = .none
  frameSize : it.frameSize = 0
  frame : errKind it.frame ≠ .fatal

/-- The decoder with the frames it has not come to yet. `overflowed` is history:
some call of `libmad_input` found its buffer too small. -/
structure Fit where
  feed : Feed
  left : List Nat
  overflowed : Bool

/-- The test of `libmad_input` on the buffer it takes. -/
def inputOverflows (ls : Ls) (io : Io) : Bool :=
  match (iPop io).1 with
  | none => false
  | some p => decide ((io.input p).used+ls.remain > libmadBufferSize)

/-- The window the call presents to the library. -/
def Feed.presented (s : Feed) : Nat := (libmadInput s.ls s.io).2.1.remain

def Feed.decodes (s : Feed) (pl : PlState) : Prop :=
  libmadReady pl s.ls s.io = true ∧ (libmadInput s.ls s.io).1 = .cont

instance (s : Feed) (pl : PlState) : Decidable (s.decodes pl) :=
  inferInstanceAs (Decidable (_ ∧ _))

/-- What is assumed of the library: a call that reaches it decodes the frames in
front of it as long as they are complete. -/
def Conforms (s : Fit) (pl : PlState) (its : List MadIter) : Prop :=
  s.feed.decodes pl → its.map MadIter.headerSize = decodable s.left s.feed.presented ∧
    ∀ it ∈ its, it.Clean

instance MadIter.decidableClean (it : MadIter) : Decidable it.Clean :=
  decidable_of_iff (it.header = .none ∧ it.frameSize = 0 ∧ errKind it.frame ≠ .fatal)
    ⟨fun h => ⟨h.1,h.2.1,h.2.2⟩,fun h => ⟨h.header,h.frameSize,h.frame⟩⟩

instance (s : Fit) (pl : PlState) (its : List MadIter) : Decidable (Conforms s pl its) :=
  inferInstanceAs (Decidable (_ → _ ∧ _))

def fitStep (s : Fit) : FeedOp → Option Fit
  | .loop pl its =>
      if Conforms s pl its then
        (feedStep s.feed (.loop pl its)).map fun feed =>
          { feed := feed
            left := if s.feed.decodes pl then s.left.drop its.length else s.left
            overflowed := s.overflowed ||
              (libmadReady pl s.feed.ls s.feed.io && inputOverflows s.feed.ls s.feed.io) }
      else none
  | op => (feedStep s.feed op).map fun feed => { s with feed := feed }

def fitStart (io : Io) (frames : List Nat) : Fit := ⟨feedStart io,frames,false⟩

def NoOverflow (s : Fit) : Prop := s.overflowed = false

/-- The bytes delivered up to and with the next buffer, from the boundary reached
before it, are no more than the decode buffer holds. -/
def FrameHasRoom (frames : List Nat) (s : Fit) : FeedOp → Prop
  | .loop pl _ => libmadReady pl s.feed.ls s.feed.io = true → s.feed.io.i.tail < s.feed.io.i.head →
      s.feed.ls.popped.length+s.feed.io.front.used-boundary frames s.feed.ls.popped.length ≤
        libmadBufferSize
  | _ => True

/-- The library has passed `n` bytes of what it was given since `ls`. -/
def PassedBy (ls : Ls) (n : Nat) (l : Ls) : Prop :=
  l.passed.length = ls.passed.length+n ∧ l.remain+n = ls.remain ∧ l.popped = ls.popped

theorem passedBy_advance {ls : Ls} {n : Nat} (h : n ≤ ls.remain) :
    PassedBy ls n (ls.advance n) := by
  unfold Ls.remain at h
  refine ⟨?_,?_,rfl⟩
  · simp [Ls.advance,window,Nat.min_eq_left h]
  · simp only [Ls.advance,Ls.remain]
    omega

theorem PassedBy.error {h : Host} {ls l : Ls} {n : Nat} (hpass : PassedBy ls n l) (e : MadError) :
    PassedBy ls n (libmadError h e l).2 := by
  obtain ⟨_,hp,hd,he,hn⟩ := libmadError_bytes h e l
  simpa only [PassedBy,Ls.remain,hp,hd,he,hn] using hpass

theorem decodeFrame_clean {it : MadIter} {ls : Ls} (hc : it.Clean)
    (hf : it.headerSize ≤ ls.remain) :
    (decodeFrame it ls).1 ≠ .leave ∧ PassedBy ls it.headerSize (decodeFrame it ls).2 := by
  have hd : decodeFrame it ls =
      afterDecode .linux it.frame (((ls.advance it.headerSize).setThisFrame it.thisFrame).advance
        0) := by
    simp [decodeFrame,hc.header,hc.frameSize,afterDecode]
  have hp : PassedBy ls it.headerSize
      (((ls.advance it.headerSize).setThisFrame it.thisFrame).advance 0) := by
    simpa [PassedBy,Ls.advance,Ls.setThisFrame,Ls.remain,window] using passedBy_advance hf
  rw [hd]
  refine ⟨?_,afterDecode_keeps (P := PassedBy ls it.headerSize) (fun e _ h => h.error e)
    it.frame hp⟩
  have hs := afterDecode_spec .linux it.frame
    (((ls.advance it.headerSize).setThisFrame it.thisFrame).advance 0)
  have hk := hc.frame
  cases hkind : errKind it.frame with
  | good =>
    rw [hkind] at hs
    simp [hs.1]
  | passed =>
    rw [hkind] at hs
    simp [hs.1]
  | counted =>
    rw [hkind] at hs
    simp [hs.1]
  | fatal => exact absurd hkind hk

theorem PassedBy.trans {a b c : Ls} {m n : Nat} (h : PassedBy a m b) (h' : PassedBy b n c) :
    PassedBy a (m+n) c := by
  obtain ⟨hp,hr,hq⟩ := h
  obtain ⟨hp',hr',hq'⟩ := h'
  exact ⟨by omega,by omega,hq'.trans hq⟩

theorem madFrames_stopped (its : List MadIter) {ls : Ls} (io : Io) (h : ls.state ≠ .init) :
    madFrames its ls io = (ls,io) := by
  cases its with
  | nil => rfl
  | cons it its => simp [madFrames,h]

/-- Frames decoded one after the other are passed, unless the decoder gives up. -/
theorem madFrames_clean (its : List MadIter) {fs : List Nat} {ls : Ls} {io : Io}
    (hd : its.map MadIter.headerSize = decodable fs ls.remain) (hc : ∀ it ∈ its, it.Clean)
    (hs : (madFrames its ls io).1.state = .init) :
    PassedBy ls (decodable fs ls.remain).sum (madFrames its ls io).1 := by
  induction its generalizing fs ls io with
  | nil => simp [← hd,PassedBy,madFrames]
  | cons it its ih =>
    cases fs with
    | nil => simp [decodable] at hd
    | cons f fs =>
      simp only [decodable] at hd ⊢
      split at hd
      case isFalse => simp at hd
      case isTrue hfit =>
        simp only [List.map_cons,List.cons.injEq] at hd
        obtain ⟨hf,hrest⟩ := hd
        by_cases hinit : ls.state = .init
        case neg =>
          rw [madFrames_stopped _ io hinit] at hs
          exact absurd hs hinit
        obtain ⟨hleave,hpass⟩ :=
          decodeFrame_clean (hc it (by simp)) (show it.headerSize ≤ ls.remain by omega)
        have htail : ∀ x ∈ its, x.Clean := fun x hx => hc x (by simp [hx])
        rw [hf] at hpass
        -- what is left of the window after this frame is the window of the others
        have hnext : ∀ l : Ls, l.remain = (decodeFrame it ls).2.remain →
            its.map MadIter.headerSize = decodable fs l.remain := by
          intro l hl
          rw [hl,hrest]
          congr 1
          have := hpass.2.1
          omega
        have hw : ls.remain-f = (decodeFrame it ls).2.remain := by
          have := hpass.2.1
          omega
        rw [if_pos hfit,List.sum_cons,hw]
        unfold madFrames at hs ⊢
        rw [if_neg (by simp [hinit])] at hs ⊢
        rcases hdf : decodeFrame it ls with ⟨turn,l⟩
        rw [hdf] at hs hpass hnext hleave
        cases turn with
        | leave => exact absurd rfl hleave
        | again => exact hpass.trans (ih (hnext l rfl) htail hs)
        | fall =>
          have hout : (libmadOutput it.pcm l io).1.remain = l.remain ∧
              PassedBy l 0 (libmadOutput it.pcm l io).1 := by
            rw [libmadOutput]
            split <;> exact ⟨rfl,rfl,rfl,rfl⟩
          have hrun := ih (hnext _ hout.1) htail hs
          rw [hout.1] at hrun
          simpa using (hpass.trans hout.2).trans hrun

theorem inputOverflows_none {ls : Ls} {io : Io} (h : ¬ io.i.tail < io.i.head) :
    inputOverflows ls io = false := by
  simp [inputOverflows,iPop,popSlot_none io.i h]

theorem inputOverflows_some {ls : Ls} {io : Io} (h : io.i.tail < io.i.head) :
    inputOverflows ls io = decide (libmadBufferSize < io.front.used+ls.remain) := by
  simp only [inputOverflows,iPop,popSlot_some maxInputBuffers_lt io.i h]
  rfl

/-- The library stands at the boundary that the delivered bytes determine, with
the frames behind it still to come. -/
structure Synced (frames : List Nat) (ls : Ls) (left : List Nat) : Prop where
  counted : ls.passed.length+ls.remain = ls.popped.length
  passed : ls.passed.length = boundary frames ls.popped.length
  left : left = framesAfter frames ls.popped.length

structure FitInv (frames : List Nat) (s : Fit) : Prop where
  fits : s.overflowed = false
  synced : s.feed.ls.state = .init → Synced frames s.feed.ls s.left

theorem Synced.remain {frames left : List Nat} {ls : Ls} (h : Synced frames ls left) :
    ls.remain = ls.popped.length-boundary frames ls.popped.length := by
  have hc := h.counted
  have hp := h.passed
  omega

theorem Synced.same {frames left : List Nat} {ls ls1 : Ls} (h : Synced frames ls left)
    (hpop : ls1.popped = ls.popped) (hpass : ls1.passed = ls.passed)
    (hrem : ls1.remain = ls.remain) : Synced frames ls1 left := by
  refine ⟨?_,?_,?_⟩
  · rw [hpop,hpass,hrem]
    exact h.counted
  · rw [hpop,hpass]
    exact h.passed
  · rw [hpop]
    exact h.left

theorem carryOver_remain (ls : Ls) : (carryOver ls).remain = ls.remain := by
  obtain ⟨hst,_⟩ := carryOver_rest ls
  simp only [Ls.remain,hst]

/-- A new buffer and the frames decoded after it keep the library in step. -/
theorem Synced.decode {frames left : List Nat} {ls ls1 : Ls} (h : Synced frames ls left)
    (used : Nat) (hpop : ls1.popped.length = ls.popped.length+used) (hpass : ls1.passed = ls.passed)
    (hrem : ls1.remain = used+ls.remain) {its : List MadIter} {io : Io}
    (hd : its.map MadIter.headerSize = decodable left ls1.remain) (hc : ∀ it ∈ its, it.Clean)
    (hs : (madFrames its ls1 io).1.state = .init) :
    Synced frames (madFrames its ls1 io).1 (left.drop its.length) := by
  obtain ⟨hp,hr,hq⟩ := madFrames_clean its hd hc hs
  have hle : ls.popped.length ≤ ls1.popped.length := by omega
  have hb := boundary_le frames ls.popped.length
  have hwin : ls1.remain = ls1.popped.length-boundary frames ls.popped.length := by
    rw [hrem,h.remain,hpop]
    omega
  have hcount := h.counted
  rw [hpass] at hp
  refine ⟨?_,?_,?_⟩
  · rw [hq]
    omega
  · rw [hq,boundary_add frames hle,hp,h.passed,hwin,h.left]
  · have hlen : its.length = (decodable left ls1.remain).length := by rw [← hd,List.length_map]
    rw [hq,framesAfter_add frames hle,hlen,hwin,h.left]

theorem FitInv.loop {frames : List Nat} {s t : Fit} {pl : PlState} {its : List MadIter}
    (h : FitInv frames s) (hf : FrameHasRoom frames s (.loop pl its))
    (ht : fitStep s (.loop pl its) = some t) :
    FitInv frames t := by
  obtain ⟨hconf,⟨⟩⟩ := Option.ite_none_right_eq_some.mp ht
  have hfits := h.fits
  cases hr : libmadReady pl s.feed.ls s.feed.io with
  | false =>
    have hdec : ¬ s.feed.decodes pl := fun hd => by simp [hd.1] at hr
    exact ⟨by simp [hfits],by simpa [libmadLoop_idle hr,hdec] using h.synced⟩
  | true =>
    have hinit := (libmadReady_init hr).1
    have hsync := h.synced hinit
    obtain ⟨hst,_,hpass,hpop⟩ := carryOver_rest s.feed.ls
    have hrem := carryOver_remain s.feed.ls
    by_cases hlt : s.feed.io.i.tail < s.feed.io.i.head
    · have hin : libmadInput s.feed.ls s.feed.io = _ := libmadInput_some hlt
      have hroom := hf hr hlt
      have hb := boundary_le frames s.feed.ls.popped.length
      have hnot : ¬ libmadBufferSize < s.feed.io.front.used+s.feed.ls.remain := by
        rw [hsync.remain]
        omega
      have hover : inputOverflows s.feed.ls s.feed.io = false := by
        simp [inputOverflows_some hlt,hnot]
      obtain ⟨hbig,_⟩ | ⟨hzero,he⟩ | ⟨_,_,he⟩ :=
        appendInput_cases (carryOver s.feed.ls) s.feed.io.front
      · exact absurd (hrem ▸ hbig) hnot
      · -- nothing was left and the buffer is empty
        have hstop : (libmadInput s.feed.ls s.feed.io).1 = .stop := by rw [hin,he]
        have hdec : ¬ s.feed.decodes pl := fun hd => by simp [hd.2] at hstop
        have hnil : s.feed.io.front.bytes = [] :=
          List.eq_nil_of_length_eq_zero (by rw [Input.bytes_length]; omega)
        refine ⟨by simp [hfits,hover],fun _ => ?_⟩
        simp only [libmadLoop_stop hr hstop,hin,he,hdec,if_false]
        exact hsync.same (by simp [hpop,hnil]) hpass hrem
      · have hcont : (libmadInput s.feed.ls s.feed.io).1 = .cont := by rw [hin,he]
        have hdec : s.feed.decodes pl := ⟨hr,hcont⟩
        obtain ⟨hsizes,hclean⟩ := hconf hdec
        refine ⟨by simp [hfits,hover],fun hs => ?_⟩
        simp only [libmadLoop_cont hr hcont,hdec,if_true] at hs ⊢
        refine hsync.decode s.feed.io.front.used ?_ ?_ ?_ hsizes hclean hs
        · simp [hin,he,hpop]
        · simp [hin,he,hpass]
        · simp [hin,he,Ls.remain,hst]
    · have hover : inputOverflows s.feed.ls s.feed.io = false := inputOverflows_none hlt
      have hin : libmadInput s.feed.ls s.feed.io = _ := libmadInput_none hlt
      have hstop : (libmadInput s.feed.ls s.feed.io).1 = .stop := by rw [hin]
      have hdec : ¬ s.feed.decodes pl := fun hd => by simp [hd.2] at hstop
      refine ⟨by simp [hfits,hover],fun _ => ?_⟩
      simp only [libmadLoop_stop hr hstop,hin,hdec,if_false]
      exact hsync.same hpop hpass hrem

theorem FitInv.step {frames : List Nat} {s t : Fit} {op : FeedOp} (h : FitInv frames s)
    (hf : FrameHasRoom frames s op) (ht : fitStep s op = some t) : FitInv frames t := by
  cases op with
  | loop pl its => exact h.loop hf ht
  | queue b =>
    obtain ⟨feed,hfeed,rfl⟩ := Option.map_eq_some_iff.mp ht
    rw [feedStep] at hfeed
    split at hfeed <;> cases hfeed <;> exact ⟨h.fits,h.synced⟩
  | play =>
    cases ht
    exact ⟨h.fits,h.synced⟩

/-- The next buffer does not fit, and the call that takes it finds out. -/
theorem FitInv.overflow {frames : List Nat} {s : Fit} {op : FeedOp} (h : FitInv frames s)
    (hf : ¬ FrameHasRoom frames s op) : ∃ t, fitStep s op = some t ∧ ¬ NoOverflow t := by
  cases op with
  | queue b => exact absurd trivial hf
  | play => exact absurd trivial hf
  | loop pl its =>
    simp only [FrameHasRoom,Classical.not_imp,Nat.not_le] at hf
    obtain ⟨hr,hlt,hbig⟩ := hf
    have hsync := h.synced (libmadReady_init hr).1
    have hb := boundary_le frames s.feed.ls.popped.length
    have hover : libmadBufferSize < s.feed.io.front.used+s.feed.ls.remain := by
      rw [hsync.remain]
      omega
    have hrem := carryOver_remain s.feed.ls
    have hstop : (libmadInput s.feed.ls s.feed.io).1 = .stop := by
      rw [libmadInput_some hlt]
      obtain ⟨_,he⟩ | ⟨_,_⟩ | ⟨_,_,_⟩ := appendInput_cases (carryOver s.feed.ls) s.feed.io.front
      · rw [he]
      · omega
      · omega
    have hconf : Conforms s pl its := fun hd => by simp [hd.2] at hstop
    refine ⟨_,by rw [fitStep,if_pos hconf,feedStep,Option.map_some],?_⟩
    simp [NoOverflow,hr,inputOverflows_some hlt,hover]

theorem fitStart_inv (io : Io) (frames : List Nat) : FitInv frames (fitStart io frames) := by
  have h0 : decodable frames 0 = [] := by
    cases frames <;> simp [decodable,madBufferGuard]
  refine ⟨rfl,fun _ => ⟨rfl,?_,?_⟩⟩
  · simp [fitStart,feedStart,libmadInit,boundary,h0]
  · simp [fitStart,feedStart,libmadInit,framesAfter,h0]

/-- No call finds the decode buffer too small exactly when, for each buffer taken,
the bytes delivered since the last frame boundary before it fit together with it. -/
theorem fitRun_noOverflow_iff (io : Io) (frames : List Nat) (ops : List FeedOp) :
    Always fitStep NoOverflow (fitStart io frames) ops ↔
      Guarded fitStep (FrameHasRoom frames) (fitStart io frames) ops :=
  always_iff_guarded (fun _ h => FitInv.fits h) (fun _ _ _ h hf ht => h.step hf ht)
    (fun _ _ h hf => h.overflow hf) ops _ (fitStart_inv io frames)

instance (s : Fit) : Decidable (NoOverflow s) := inferInstanceAs (Decidable (s.overflowed = false))

/-- A full input buffer is queued and taken, and the output is played. -/
def fedWith (its : List MadIter) : List FeedOp :=
  [.queue ⟨List.replicate ioInputBufferSize 0,ioInputBufferSize,ioInputBufferSize⟩,
    .loop .playing its,.play]

/-- A frame of 320 kbit/s at 32 kHz. -/
def frame1440 : MadIter := ⟨.none,1440,0,.none,0,⟨32000,2,1152,[],[]⟩⟩

/-- Such a stream in full buffers leaves 1024, 608, 192 and 1216 bytes behind, and
with the fifth buffer it is too much. -/
theorem fitRun_overflows :
    ¬ Always fitStep NoOverflow (fitStart Io.zero (List.replicate 4 1440))
      (fedWith [] ++ fedWith [frame1440] ++ fedWith [frame1440] ++ fedWith [] ++ fedWith []) := by
  decide +kernel

end Mardio
