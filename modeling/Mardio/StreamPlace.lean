import Mardio.DecoderRun

/-!
Where the decoder stands in a stream of frames. The frames that follow one another
are taken one by one as long as they are complete, so that the place the decoder has
come to depends only on how many bytes it was given, not on the buffers they came in.
-/

set_option autoImplicit false

namespace Mardio
open ByteMem BitString Runs Simulation

/-! One turn. -/

/-- The library expects a header at `next_frame`. -/
structure Lm.InStep (l : Lm) : Prop where
  inv : l.Inv
  sync : l.stream.sync = true
  skip : l.stream.skiplen = 0

theorem Lm.InStep.start {l : Lm} (h : l.InStep) : l.stream.start = l.stream.nextFrame := by
  rw [MadBitstream.start,if_pos h.skip]

theorem Lm.InStep.inStep {l : Lm} (h : l.InStep) : l.stream.inStep = true := by
  rw [MadBitstream.inStep,h.sync,Bool.true_or]

/-- The frame is passed, or the turn leaves the loop in front of it. -/
inductive PlaceTurn (l : Lm) (n : Nat) : Turn × Lm × Io → Prop where
  | leave {l' : Lm} {io' : Io} (next : l'.ls.stream.nextFrame = l.ls.stream.nextFrame)
      (bufend : l'.ls.stream.bufend = l.ls.stream.bufend) (skip : l'.ls.stream.skiplen = 0)
      (short : l.ls.stream.bufend-l.ls.stream.nextFrame < n+madBufferGuard) :
      PlaceTurn l n (.leave,l',io')
  | again {l' : Lm} {io' : Io} (next : l'.ls.stream.nextFrame = l.ls.stream.nextFrame+n)
      (sync : l'.stream.sync = true) (skip : l'.stream.skiplen = 0)
      (room : n+madBufferGuard ≤ l.ls.stream.bufend-l.ls.stream.nextFrame) :
      PlaceTurn l n (.again,l',io')

/-- The place behind a frame whose header has been read. -/
theorem frameTurn_place {h : Host} {codec : Codec} (hplain : codec.Plain) {l : Lm} {io : Io}
    {header : MadHeader} {t : MadBitstream} (hshort : l.reservoir.mdLen ≤ 511)
    (hinc : header.flags.incomplete = true) (hv : t.ptr.Valid l.ls.buffer) {a : Nat}
    (hpos : t.ptr.pos = 8*a) (hsync : t.sync = true) (hskip : t.skiplen = 0) {x : Turn × Lm × Io}
    (hx : frameTurn h codec l.ls { l.moved l.ls t with header := header } io = some x) :
    x.1 = .again ∧ x.2.1.ls.stream.nextFrame = t.nextFrame ∧ x.2.1.stream.sync = true ∧
      x.2.1.stream.skiplen = 0 := by
  rw [frameTurn_eq h codec l io t hinc] at hx
  obtain ⟨⟨error,header',t',r⟩,haudio,rfl⟩ := Option.map_eq_some_iff.mp hx
  let l' : Lm := { l.moved l.ls t' with header := header', reservoir := r }
  change (endTurn h codec error l' io).1 = _ ∧
    (endTurn h codec error l' io).2.1.ls.stream.nextFrame = _ ∧
    (endTurn h codec error l' io).2.1.stream.sync = true ∧
      (endTurn h codec error l' io).2.1.stream.skiplen = 0
  cases decodeAudio_turn codec hshort hv hpos haudio with
  | nomem plain stream next' short => exact absurd hplain plain
  | done tol plain same stream next' short =>
    have hsync' : t'.sync = true := stream.sync.trans hsync
    have hskip' : t'.skiplen = 0 := stream.skiplen.trans hskip
    obtain hafter | ⟨k,c,st,hk,hafter⟩ := afterDecode_tolerable h tol (l.moved l.ls t').ls
    · have hstream : (emitFrame h codec l' io).1.stream = t' := emitFrame_stream h codec l' io
      rw [endTurn_fall codec (l := l') hafter]
      exact ⟨rfl,(congrArg (·.nextFrame) hstream).trans next',
        (congrArg (·.sync) hstream).trans hsync',(congrArg (·.skiplen) hstream).trans hskip'⟩
    · rw [endTurn_else codec (l := l') hafter (by decide)]
      exact ⟨rfl,next',hsync',(hk (plain hplain)).trans hskip'⟩

theorem madTurn_place {h : Host} {codec : Nat → Codec} (hplain : ∀ i, (codec i).Plain) {l : Lm}
    {io : Io} (hin : l.InStep) {n : Nat} (hf : FrameAt l.ls.buffer l.ls.stream.nextFrame n)
    (hroom : l.ls.stream.nextFrame+madBufferGuard ≤ l.ls.stream.bufend) {x : Turn × Lm × Io}
    (hx : madTurn h codec l io = some x) : PlaceTurn l n x := by
  have hinv := hin.inv
  have hstart : l.stream.start = l.ls.stream.nextFrame := hin.start
  obtain ⟨ptr,hv,hpos,hd⟩ := madHeaderDecode_inStep h l.header hinv.attached hinv.range hin.inStep
    (hstart.symm ▸ hf) (hstart.symm ▸ hroom)
  obtain ⟨-,-,hlen,-,-⟩ := beginFrame_frameAt h hf l.header l.stream
  rw [hstart] at hd hpos
  let header := namedHeader h l.ls.buffer l.ls.stream.nextFrame l.header
  let s0 : MadBitstream :=
    ⟨⟨l.ls.stream.bufend,l.ls.stream.nextFrame,l.ls.stream.nextFrame+1,0⟩,l.attached,true,
    l.freerate,ptr⟩
  have hd0 : madHeaderDecode h l.ls.buffer l.header l.stream = headerDone (closeFrame header s0) :=
    hd
  obtain ⟨-,hlong,hc⟩ | ⟨hfits,hc⟩ := closeFrame_spec header s0
  · let t : MadBitstream := { s0 with nextFrame := s0.thisFrame, sync := false }
    have hd' : madHeaderDecode h l.ls.buffer l.header l.stream = (.buflen,header,t) := by
      rw [hd0,hc]
      rfl
    have hafter : afterDecode h .buflen (l.moved l.ls t).ls = (.leave,(l.moved l.ls t).ls) := rfl
    rw [madTurn_else hd' hafter (by decide),Option.some.injEq] at hx
    subst hx
    exact .leave rfl rfl rfl (hlen ▸ hlong)
  · let t : MadBitstream := { s0 with nextFrame := s0.thisFrame+frameLength header }
    let header' : MadHeader := { header with flags := { header.flags with incomplete := true } }
    have hd' : madHeaderDecode h l.ls.buffer l.header l.stream = (.none,header',t) := by
      rw [hd0,hc]
      rfl
    have hafter : afterDecode h .none (l.moved l.ls t).ls = (.fall,(l.moved l.ls t).ls) := rfl
    rw [madTurn_fall hd' hafter] at hx
    obtain ⟨hagain,hnext,hsync,hskip⟩ :=
      frameTurn_place (hplain t.thisFrame) hinv.short rfl hv (pos_body hpos) rfl rfl hx
    obtain ⟨turn,l',io'⟩ := x
    cases hagain
    exact .again (hlen ▸ hnext) hsync hskip (hlen ▸ hfits)

/-- No room is left for a header. -/
theorem madTurn_end {h : Host} {codec : Nat → Codec} {l : Lm} {io : Io} (hin : l.InStep)
    (hend : l.ls.stream.bufend < l.ls.stream.nextFrame+madBufferGuard) (n : Nat)
    {x : Turn × Lm × Io} (hx : madTurn h codec l io = some x) : PlaceTurn l n x := by
  have hinv := hin.inv
  have hstart : l.stream.start = l.ls.stream.nextFrame := hin.start
  have hnext : l.ls.stream.nextFrame ≤ l.ls.stream.bufend := hinv.range.next
  have hd := madHeaderDecode_end h l.ls.buffer l.header hinv.attached hinv.range hin.inStep
    (hstart.trans_le hnext)
    (hstart.symm ▸ hend)
  let t : MadBitstream := { l.stream with skiplen := 0, nextFrame := l.stream.start, sync := false }
  have hafter : afterDecode h .buflen (l.moved l.ls t).ls = (.leave,(l.moved l.ls t).ls) := rfl
  rw [madTurn_else hd hafter (by decide),Option.some.injEq] at hx
  subst hx
  exact .leave hstart rfl rfl (by omega)

/-! One call. -/

/-- Frames of these lengths follow one another from `p` on, as far as the window goes. -/
def FramesAt (m : Mem) (bufend : Nat) : List Nat → Nat → Prop
  | [], p => bufend < p+madBufferGuard
  | n :: ns, p => (p+madBufferGuard ≤ bufend → FrameAt m p n) ∧ FramesAt m bufend ns (p+n)

theorem FramesAt.turn {h : Host} {codec : Nat → Codec} (hplain : ∀ i, (codec i).Plain) {l : Lm}
    {io : Io} (hin : l.InStep) {n : Nat} {ns : List Nat}
    (hf : FramesAt l.ls.buffer l.ls.stream.bufend (n :: ns) l.ls.stream.nextFrame)
    {x : Turn × Lm × Io} (hx : madTurn h codec l io = some x) : PlaceTurn l n x := by
  by_cases hroom : l.ls.stream.nextFrame+madBufferGuard ≤ l.ls.stream.bufend
  · exact madTurn_place hplain hin (hf.1 hroom) hroom hx
  · exact madTurn_end hin (Nat.lt_of_not_le hroom) n hx

/-- The loop stops in front of the first frame that is not complete. -/
theorem LoopEnds.place {h : Host} {codec : Nat → Codec} (hplain : ∀ i, (codec i).Plain) {l : Lm}
    {io : Io} {r : Lm × Io} (hr : LoopEnds h codec l io r) (hin : l.InStep) {ns : List Nat}
    (hf : FramesAt l.ls.buffer l.ls.stream.bufend ns l.ls.stream.nextFrame)
    (hinit : r.1.ls.state = .init) :
    r.1.ls.stream.nextFrame =
        l.ls.stream.nextFrame+(decodable ns (l.ls.stream.bufend-l.ls.stream.nextFrame)).sum ∧
      r.1.ls.stream.bufend = l.ls.stream.bufend ∧ r.1.ls.stream.skiplen = 0 := by
  have hg : madBufferGuard = 8 := rfl
  induction hr generalizing ns with
  | stopped state => exact absurd hinit state
  | leave state turn =>
    rename_i l l' io io'
    cases ns with
    | nil =>
      cases madTurn_end hin hf 0 turn with
      | leave next bufend skip short => exact ⟨by simpa [decodable] using next,bufend,skip⟩
    | cons n ns =>
      cases hf.turn hplain hin turn with
      | leave next bufend skip short =>
        have hnone : ¬ n+madBufferGuard ≤ l.ls.stream.bufend-l.ls.stream.nextFrame :=
          Nat.not_le_of_lt short
        exact ⟨by simpa [decodable,hnone] using next,bufend,skip⟩
  | again state turn rest ih =>
    rename_i l l' io io' r
    have hahead := (madTurn_sim hin.inv turn).ahead
    cases ns with
    | nil =>
      have hend : l.ls.stream.bufend < l.ls.stream.nextFrame+madBufferGuard := hf
      cases madTurn_end hin hf 0 turn with
      | again next sync skip room => omega
    | cons n ns =>
      cases hf.turn hplain hin turn with
      | again next sync skip room =>
        have hrest := hf.2
        rw [← next,← hahead.buffer,← hahead.bufend] at hrest
        obtain ⟨hnext,hbuf,hskip⟩ := ih ⟨hahead.inv,sync,skip⟩ hrest hinit
        refine ⟨?_,hbuf.trans hahead.bufend,hskip⟩
        rw [hnext,next,hahead.bufend,decodable,if_pos room,List.sum_cons,Nat.add_assoc,Nat.sub_sub]

/-! The stream. -/

/-- Frames of these lengths follow one another in the stream, from `p` on. -/
def StreamFrames (stream : Mem) : List Nat → Nat → Prop
  | [], _ => True
  | n :: ns, p => FrameAt stream p n ∧ StreamFrames stream ns (p+n)

theorem frameLength_congr {a b : MadHeader} (hl : a.layer = b.layer) (hb : a.bitrate = b.bitrate)
    (hr : a.samplerate = b.samplerate) (hf : a.flags = b.flags) :
    frameLength a = frameLength b := by
  simp only [frameLength,slotsPerFrame,padSlot,hl,hb,hr,hf]

theorem FrameAt.congr {m m' : Mem} {p p' n : Nat} (hf : FrameAt m' p' n)
    (h : ∀ i < 4, m (p+i) = m' (p'+i)) :
    FrameAt m p n := by
  have hmark : syncAt m p = true := by
    have h0 := h 0 (by omega)
    have h1 := h 1 (by omega)
    have hm := hf.mark
    simp only [Nat.add_zero] at h0
    rw [syncAt] at hm ⊢
    rw [h0,h1]
    exact hm
  have hword : headerWord m (8*p) = headerWord m' (8*p') :=
    headerWord_bytes (headerWord_inRange m' _) ((window_congr h).trans (bytes_headerWord hf.mark))
  refine ⟨hmark,hword ▸ hf.error,hword ▸ hf.rate,?_⟩
  -- the length does not depend on the check word, which is read from the memory
  rw [hf.length,hword]
  exact frameLength_congr rfl rfl rfl rfl

theorem StreamFrames.window {stream m : Mem} {q bufend : Nat}
    (hm : ∀ i < bufend, m i = stream (q+i)) {ns : List Nat} {p : Nat}
    (hf : StreamFrames stream ns (q+p)) (hend : bufend ≤ p+ns.sum) :
    FramesAt m bufend ns p := by
  have hg : madBufferGuard = 8 := rfl
  induction ns generalizing p with
  | nil =>
    simp only [List.sum_nil] at hend
    simp only [FramesAt]
    omega
  | cons n ns ih =>
    rw [List.sum_cons] at hend
    refine ⟨fun hroom => hf.1.congr fun i hi => ?_,
      ih (by rw [← Nat.add_assoc]; exact hf.2) (by omega)⟩
    rw [hm (p+i) (by omega),Nat.add_assoc]

theorem StreamFrames.after {stream : Mem} {ns : List Nat} {p : Nat} (hf : StreamFrames stream ns p)
    (d : Nat) :
    StreamFrames stream (framesAfter ns d) (p+boundary ns d) ∧
      boundary ns d+(framesAfter ns d).sum = ns.sum := by
  unfold framesAfter boundary
  induction ns generalizing p d with
  | nil => simpa [decodable] using hf
  | cons n ns ih =>
    simp only [decodable]
    split
    · obtain ⟨hrest,hsum⟩ := ih hf.2 (d-n)
      simp only [List.length_cons,List.drop_succ_cons,List.sum_cons]
      exact ⟨by rw [← Nat.add_assoc]; exact hrest,by omega⟩
    · simpa using hf

/-! Runs. -/

theorem bytes_of_prefix {xs : List UInt8} {m stream : Mem} {a n len : Nat}
    (h : xs ++ window m a n <+: window stream 0 len) : ∀ i < n, m (a+i) = stream (xs.length+i) := by
  intro i hi
  have hlen := h.length_le
  simp only [List.length_append,window_length] at hlen
  have hget := h.getElem (show xs.length+i < (xs ++ window m a n).length by simp [window_length,hi])
  simpa [window,List.getElem_append_right] using hget

theorem libmadInput_stop {ls ls' : Ls} {io io' : Io} (h : libmadInput ls io = (.stop,ls',io'))
    (hinit : ls'.state = .init) :
    ls'.popped = ls.popped ∧ ls'.passed = ls.passed ∧ ls'.stream = ls.stream := by
  obtain ⟨hst,-,hpass,hpop⟩ := carryOver_rest ls
  by_cases hlt : io.i.tail < io.i.head
  · rw [libmadInput_some hlt] at h
    obtain ⟨_,he⟩ | ⟨hzero,he⟩ | ⟨_,_,he⟩ := appendInput_cases (carryOver ls) io.front
    · rw [he] at h
      cases h
      cases hinit
    · have hnil : io.front.bytes = [] :=
        List.eq_nil_of_length_eq_zero (by rw [Input.bytes_length]; omega)
      rw [he] at h
      cases h
      exact ⟨by simp [hpop,hnil],hpass,hst⟩
    · rw [he] at h
      cases h
  · rw [libmadInput_none hlt] at h
    cases h
    exact ⟨hpop,hpass,hst⟩

/-- As long as the bytes given are those of the stream, the decoder stands in front of
the first frame that is not complete with its guard bytes. -/
structure Placed (stream : Mem) (frames : List Nat) (s : Decoder) : Prop where
  kept : s.lm.Kept
  feed : FeedInv ⟨s.lm.ls,s.io⟩
  place : s.lm.ls.state = .init → s.lm.ls.popped <+: window stream 0 frames.sum →
    s.lm.ls.stream.skiplen = 0 ∧
    s.lm.ls.passed.length = boundary frames s.lm.ls.popped.length

def DecoderOp.Plain : DecoderOp → Prop
  | .loop _ codec => ∀ i, (codec i).Plain
  | _ => True

/-- A call that reaches the library. -/
theorem Placed.decode {stream : Mem} {frames : List Nat} (hframes : StreamFrames stream frames 0)
    {h : Host} {codec : Nat → Codec} (hplain : ∀ i, (codec i).Plain) {s : Decoder}
    (hp : Placed stream frames s) {pl : PlState} {ls : Ls} {io' : Io} {r : Lm × Io}
    (hready : libmadReady pl s.lm.ls s.io = true) (hin : libmadInput s.lm.ls s.io = (.cont,ls,io'))
    (hends : LoopEnds h codec (s.lm.refilled ls) io' r) (hinit : r.1.ls.state = .init)
    (hpre : r.1.ls.popped <+: window stream 0 frames.sum) :
    r.1.ls.stream.skiplen = 0 ∧ r.1.ls.passed.length = boundary frames r.1.ls.popped.length := by
  have hrefill := libmadInput_refill hin
  have hgrow := hrefill.popped
  have hpass := hrefill.passed
  have hzero := hrefill.next
  have hinv := refilled_inv hp.kept hin
  obtain ⟨its,hsim⟩ := hends.sim hinv
  obtain ⟨k,hrun⟩ := hsim.turns
  have hcont : Continuous ls := by
    have hc := hp.feed.presented hready (by rw [hin])
    rwa [hin] at hc
  have hcont' : Continuous r.1.ls := by
    have hc := hcont.madFrames its io'
    rw [show madFrames its ls io' = _ from hrun] at hc
    exact hc
  have hpop : r.1.ls.popped = ls.popped := by
    have hk := madFrames_popped its ls io'
    rw [show madFrames its ls io' = _ from hrun] at hk
    exact hk
  rw [hpop] at hpre
  obtain ⟨hskip,hplace⟩ := hp.place (libmadReady_init hready).1 (hgrow.trans hpre)
  have hcount : ls.passed.length+ls.stream.bufend = ls.popped.length := by
    have hcount := hcont.count
    rwa [Ls.remain,hzero,Nat.sub_zero] at hcount
  have hcount' : r.1.ls.passed.length+(r.1.ls.stream.bufend-r.1.ls.stream.nextFrame) =
      ls.popped.length := by
    rw [← hpop]
    exact hcont'.count
  -- the window has the bytes of the stream from the place reached before
  have hbytes : ∀ i < ls.stream.bufend, ls.buffer i = stream (ls.passed.length+i) := by
    have hpre' := hpre
    rw [← hcont,Ls.given,Ls.remain,hzero,Nat.sub_zero] at hpre'
    simpa using bytes_of_prefix hpre'
  have hle : ls.popped.length ≤ frames.sum := by
    have := hpre.length_le
    rwa [window_length] at this
  obtain ⟨hafter,hsum⟩ := hframes.after s.lm.ls.popped.length
  rw [Nat.zero_add,← hplace,← hpass] at hafter
  rw [← hplace,← hpass] at hsum
  have hfr : FramesAt ls.buffer ls.stream.bufend (framesAfter frames s.lm.ls.popped.length)
      ls.stream.nextFrame := by
    rw [hzero]
    exact StreamFrames.window hbytes hafter (by omega)
  obtain ⟨hnext,hbuf,hskip'⟩ := hends.place hplain ⟨hinv,rfl,hrefill.skip.trans hskip⟩ hfr hinit
  have hnext' : r.1.ls.stream.nextFrame =
      (decodable (framesAfter frames s.lm.ls.popped.length) ls.stream.bufend).sum := by
    rw [hnext]
    change ls.stream.nextFrame+(decodable _ (ls.stream.bufend-ls.stream.nextFrame)).sum = _
    rw [hzero,Nat.zero_add,Nat.sub_zero]
  have hbuf' : r.1.ls.stream.bufend = ls.stream.bufend := hbuf
  have hroom : (decodable (framesAfter frames s.lm.ls.popped.length) ls.stream.bufend).sum ≤
      ls.stream.bufend :=
    boundary_le _ _
  have hwindow : ls.popped.length-boundary frames s.lm.ls.popped.length = ls.stream.bufend := by
    rw [← hplace,← hpass]
    omega
  refine ⟨hskip',?_⟩
  rw [hpop,boundary_add frames hgrow.length_le,hwindow,← hplace,← hpass]
  omega

theorem Placed.step {stream : Mem} {frames : List Nat} (hframes : StreamFrames stream frames 0)
    {h : Host} (s : Decoder) (op : DecoderOp) (t : Decoder) (hp : Placed stream frames s)
    (hop : op.Plain) (hs : decoderStep h s op = some t) : Placed stream frames t := by
  cases op with
  | queue b =>
    cases hs
    exact ⟨hp.kept,hp.feed.step (feedStep_queue _ b),hp.place⟩
  | play =>
    cases hs
    have hplay : feedStep ⟨s.lm.ls,s.io⟩ .play = some ⟨s.lm.ls,(oPop s.io).2⟩ := rfl
    exact ⟨hp.kept,hp.feed.step hplay,hp.place⟩
  | loop pl codec =>
    obtain ⟨r,hr,rfl⟩ := Option.map_eq_some_iff.mp hs
    have hret := (decoderLoop_iff hp.kept r).mp hr
    obtain ⟨its,hsim⟩ := hret.sim hp.kept
    obtain ⟨k,hcall⟩ := hsim.call s.lm.ls.stream.skiplen
    have hfeed : FeedInv ⟨r.1.ls.withSkip k,r.2⟩ := by
      have hloop : feedStep ⟨s.lm.ls,s.io⟩ (.loop pl its) = some ⟨r.1.ls.withSkip k,r.2⟩ := by
        rw [feedStep,show libmadLoop pl its s.lm.ls s.io = _ from hcall]
      exact hp.feed.step hloop
    refine ⟨hsim.kept,⟨hfeed.queued,⟨hfeed.windowed.ordered,hfeed.windowed.fits⟩,hfeed.stream⟩,
      fun hinit hpre => ?_⟩
    cases hret with
    | idle ready => exact hp.place hinit hpre
    | stop ready input =>
      obtain ⟨hpop,hpass,hst⟩ := libmadInput_stop input hinit
      simp only at hpre ⊢
      rw [hpop] at hpre ⊢
      rw [hpass,hst]
      exact hp.place (libmadReady_init ready).1 hpre
    | decode ready input ends => exact hp.decode hframes hop ready input ends hinit hpre

/-- In every run in which the bytes taken are those of a stream of frames, in whatever
buffers and at whatever times they come, the decoder has passed the frames that are
complete with their guard bytes and nothing else. -/
theorem decoderRun_place (h : Host) (io : Io) (mainData : Mem) (ops : List DecoderOp) {s : Decoder}
    (hs : run (decoderStep h) (decoderStart io mainData) ops = some s)
    (hops : ∀ op ∈ ops, op.Plain) {stream : Mem} {frames : List Nat}
    (hframes : StreamFrames stream frames 0) (hinit : s.lm.ls.state = .init)
    (hpre : s.lm.ls.popped <+: window stream 0 frames.sum) :
    s.lm.ls.passed.length = boundary frames s.lm.ls.popped.length := by
  have hstart : Placed stream frames (decoderStart io mainData) := by
    refine ⟨⟨.inl rfl,Nat.zero_le _⟩,feedStart_inv io,fun _ _ => ⟨rfl,?_⟩⟩
    have hb := boundary_le frames 0
    change 0 = boundary frames 0
    omega
  exact ((run_invariant (Placed.step hframes) ops hops hstart hs).place hinit hpre).2

/-- The three frames of `quietRun` as a stream. -/
def quietStream : Mem := fun a => (quietFrame ++ quietFrame ++ quietFrame).getD a 0

theorem quietCodec_plain : quietCodec.Plain :=
  ⟨rfl,fun _ _ _ => (by decide : MadError.none ≠ .lostsync),
    fun _ _ _ => (by decide : MadError.none ≠ .lostsync)⟩

theorem quietStream_frames : StreamFrames quietStream [24,24,24] 0 := by
  refine ⟨?_,?_,?_,trivial⟩
  · exact ⟨by decide +kernel,by decide +kernel,by decide +kernel,by decide +kernel⟩
  · exact ⟨by decide +kernel,by decide +kernel,by decide +kernel,by decide +kernel⟩
  · exact ⟨by decide +kernel,by decide +kernel,by decide +kernel,by decide +kernel⟩

theorem decoderRun_place_quiet :
    ∃ s, run (decoderStep .stm32) (decoderStart Io.zero fun _ => 0) quietRun = some s ∧
      s.lm.ls.popped.length = 72 ∧ s.lm.ls.passed.length = boundary [24,24,24] 72 := by
  have hrun : ((run (decoderStep .stm32) (decoderStart Io.zero fun _ => 0) quietRun).map fun s =>
      (s.lm.ls.state,s.lm.ls.popped)) =
        some (.init,quietFrame ++ quietFrame ++ quietFrame) := by decide +kernel
  obtain ⟨s,hs,hfacts⟩ := Option.map_eq_some_iff.mp hrun
  obtain ⟨hinit,hpop⟩ := Prod.mk.inj hfacts
  have hlen : s.lm.ls.popped.length = 72 := by
    rw [hpop]
    rfl
  have hplain : ∀ op ∈ quietRun, op.Plain := by
    simp only [quietRun,List.forall_mem_cons]
    exact ⟨trivial,fun _ => quietCodec_plain,trivial,nofun⟩
  have hplace := decoderRun_place .stm32 Io.zero (fun _ => 0) quietRun hs hplain
    quietStream_frames hinit
    (by rw [hpop]; decide +kernel)
  exact ⟨s,hs,hlen,hlen ▸ hplace⟩

end Mardio
