import Mardio.FrameFit
import Mardio.MadReservoir

/-!
The loop of the decoder with the library in it: header, frame, duration and the
reservoir as the library computes them. What is left open is the decoding of the
samples. The loop with an arbitrary library, on which the theorems about buffers and
rings rest, has this one as an instance.
-/

set_option autoImplicit false

namespace Mardio
open ByteMem BitString

/-- What is left open of the library for one frame: whether memory can be had, the error
of Layer I or II, `III_decode`, and the samples. All their errors are recoverable. -/
structure Codec where
  nomem : Bool
  layer12 : Mem → MadHeader → MadBitptr → MadError
  iiiDecode : MainData → SideInfo → MadHeader → MadError
  left : List Int
  right : List Int
  layer12_recoverable : ∀ m header ptr, layer12 m header ptr ≠ .none →
    madRecoverable (layer12 m header ptr) = true
  iiiDecode_recoverable : ∀ main si header, iiiDecode main si header ≠ .none →
    madRecoverable (iiiDecode main si header) = true

/-- `decoder_table`. -/
def decodeLayer (codec : Codec) (m : Mem) (header : MadHeader) (s : MadBitstream) (r : Reservoir) :
    Option (MadError × MadHeader × MadBitstream × Reservoir) :=
  if header.layer = 3 then
    (madLayerIII codec.iiiDecode codec.nomem m header s r).map fun out =>
      (out.error,out.header,out.stream,out.reservoir)
  else some (codec.layer12 m header s.ptr,header,s,r)

/-- The audio data behind a header that is complete. -/
def decodeAudio (codec : Codec) (m : Mem) (header : MadHeader) (s : MadBitstream) (r : Reservoir) :
    Option (MadError × MadHeader × MadBitstream × Reservoir) :=
  (decodeLayer codec m { header with flags := { header.flags with incomplete := false } } s r).map
    fun x =>
    if x.1 ≠ .none ∧ madRecoverable x.1 = false then
      (x.1,x.2.1,{ x.2.2.1 with nextFrame := x.2.2.1.thisFrame },x.2.2.2)
    else x

def madFrameDecode (h : Host) (codec : Codec) (m : Mem) (header : MadHeader) (s : MadBitstream)
    (r : Reservoir) :
    Option (MadError × MadHeader × MadBitstream × Reservoir) :=
  if header.flags.incomplete then decodeAudio codec m header s r
  else
    match madHeaderDecode h m header s with
    | (.none,header,s) => decodeAudio codec m header s r
    | (error,header,s) => some (error,header,s,r)

/-- What `mad_synth_frame` says about the samples. -/
def synthPcm (codec : Codec) (header : MadHeader) : Pcm :=
  ⟨header.samplerate,madNchannels header,32*madNsbsamples header,codec.left,codec.right⟩

/-- `ls` with all of the library's stream, the header of the frame, the time and the
count. -/
structure Lm where
  ls : Ls
  attached : Bool
  sync : Bool
  freerate : Nat
  ptr : MadBitptr
  header : MadHeader
  reservoir : Reservoir
  timer : MadTimer
  frames : Int

def Lm.stream (l : Lm) : MadBitstream := ⟨l.ls.stream,l.attached,l.sync,l.freerate,l.ptr⟩

/-- The stream after a call of the library in a turn that began with `ls`. -/
def Lm.moved (l : Lm) (ls : Ls) (s : MadBitstream) : Lm :=
  { l with
    ls := { l.ls with
      stream := s.toMadStream
      passed := ls.passed ++ window l.ls.buffer ls.stream.nextFrame
        (s.nextFrame-ls.stream.nextFrame) }
    attached := s.attached, sync := s.sync, freerate := s.freerate, ptr := s.ptr }

/-- From `mad_timer_add` on. -/
def emitFrame (h : Host) (codec : Codec) (l : Lm) (io : Io) : Lm × Io :=
  let r := libmadOutput (synthPcm codec l.header) l.ls io
  ({ l with
    ls := r.1
    timer := madTimerAdd h l.timer l.header.duration
    frames := h.long (l.frames+1) },r.2)

/-- From the result of `mad_frame_decode` to the end of the turn. -/
def endTurn (h : Host) (codec : Codec) (error : MadError) (l : Lm) (io : Io) : Turn × Lm × Io :=
  match afterDecode h error l.ls with
  | (.fall,ls) => (.again,emitFrame h codec { l with ls := ls } io)
  | (turn,ls) => (turn,{ l with ls := ls },io)

/-- The second half of a turn: the frame behind the header. -/
def frameTurn (h : Host) (codec : Codec) (ls : Ls) (l : Lm) (io : Io) : Option (Turn × Lm × Io) :=
  (madFrameDecode h codec l.ls.buffer l.header l.stream l.reservoir).map fun x =>
    endTurn h codec x.1 { l.moved ls x.2.2.1 with header := x.2.1, reservoir := x.2.2.2 } io

/-- One turn of the loop. What the codec does may be different for each frame. -/
def madTurn (h : Host) (codec : Nat → Codec) (l : Lm) (io : Io) : Option (Turn × Lm × Io) :=
  let r := madHeaderDecode h l.ls.buffer l.header l.stream
  let l1 := { l.moved l.ls r.2.2 with header := r.2.1 }
  match afterDecode h r.1 l1.ls with
  | (.fall,ls) => frameTurn h (codec r.2.2.thisFrame) l.ls { l1 with ls := ls } io
  | (turn,ls) => some (turn,{ l1 with ls := ls },io)

/-- Nothing is returned if the assertion of Layer III fails. -/
def madLoop (h : Host) (codec : Nat → Codec) : Nat → Lm → Io → Option (Lm × Io)
  | 0, l, io => some (l,io)
  | n+1, l, io =>
      if l.ls.state ≠ .init then some (l,io)
      else match madTurn h codec l io with
        | none => none
        | some (.leave,l,io) => some (l,io)
        | some (_,l,io) => madLoop h codec n l io

/-- What `mad_stream_buffer` does beside giving the stream its window. -/
def Lm.refilled (l : Lm) (ls : Ls) : Lm :=
  { l with ls := ls, attached := true, sync := true, ptr := madBitInit 0 }

/-- `libmad_loop`. -/
def decoderLoop (h : Host) (codec : Nat → Codec) (pl : PlState) (l : Lm) (io : Io) :
    Option (Lm × Io) :=
  if libmadReady pl l.ls io then
    match libmadInput l.ls io with
    | (.cont,ls,io) => madLoop h codec (ls.stream.bufend+1) (l.refilled ls) io
    | (_,ls,io) => some ({ l with ls := ls },io)
  else some (l,io)

/-! A call for a header. -/

/-- `next_frame` moves forward in the buffer. -/
structure MadBitstream.Moves (s t : MadBitstream) : Prop where
  bufend : t.bufend = s.bufend
  attached : t.attached = s.attached
  range : t.InRange
  next : s.nextFrame ≤ t.nextFrame

inductive HeaderTurn (h : Host) (m : Mem) (s : MadBitstream) :
    MadError × MadHeader × MadBitstream → Prop where
  | stop {header : MadHeader} {t : MadBitstream} (moves : s.Moves t) (sync : t.sync = false) :
      HeaderTurn h m s (.buflen,header,t)
  | reject {error : MadError} {header : MadHeader} {t : MadBitstream} (moves : s.Moves t)
      (sync : t.sync = false) (skip : t.skiplen = 0) (error_rec : error.ofHeader = true)
      (this : s.nextFrame ≤ t.thisFrame) (next : t.nextFrame = t.thisFrame+1) :
      HeaderTurn h m s (error,header,t)
  | frame {header : MadHeader} {t : MadBitstream} (moves : s.Moves t) (sync : t.sync = true)
      (skip : t.skiplen = 0) (incomplete : header.flags.incomplete = true)
      (mark : syncAt m t.thisFrame = true) (legal : header.Legal h)
      (read : header.ReadAt m t.thisFrame) (valid : t.ptr.Valid m)
      (pos : t.ptr.pos = 8*t.thisFrame+32+(if header.flags.protection then 16 else 0))
      (this : s.nextFrame ≤ t.thisFrame) (next : t.nextFrame = t.thisFrame+frameLength header)
      (room : t.nextFrame+madBufferGuard ≤ s.bufend) : HeaderTurn h m s (.none,header,t)

theorem madHeaderDecode_turn (h : Host) (m : Mem) (header : MadHeader) {s : MadBitstream}
    (ha : s.attached = true) (hr : s.InRange) (hs : s.nextFrame ≤ s.start) :
    HeaderTurn h m s (madHeaderDecode h m header s) := by
  by_cases hend : s.start ≤ s.bufend
  · obtain ⟨hfound,-,hsync⟩ := madHeaderDecode_found h m header ha hr hend
    have hinc : (madHeaderDecode h m header s).1 = .none →
        (madHeaderDecode h m header s).2.1.flags.incomplete = true := headerDone_incomplete
    generalize madHeaderDecode h m header s = r at hfound hsync hinc
    cases hfound with
    | frame keeps sync rate mark legal read valid pos this next room =>
      have hb := keeps.bufend
      have hlen := legal.frameLength_ge
      exact .frame ⟨hb,keeps.attached,⟨by omega,by omega,rate⟩,by omega⟩ sync keeps.skiplen
        (hinc rfl) mark legal read
        valid pos (by omega) next room
    | short keeps rate low high this =>
      have hb := keeps.bufend
      exact .stop ⟨hb,keeps.attached,⟨by omega,by omega,rate⟩,by omega⟩ hsync
    | reject keeps rate error_rec this next room =>
      rename_i error header' t
      have hb := keeps.bufend
      have hg : madBufferGuard = 8 := rfl
      have hne : error ≠ .none := fun he => by
        rw [he] at error_rec
        cases error_rec
      exact .reject ⟨hb,keeps.attached,⟨by omega,by omega,rate⟩,by omega⟩
        (by simpa [hne] using hsync) keeps.skiplen
        error_rec (by omega) next
  · rw [madHeaderDecode_skipping h m header ha hr (by omega)]
    exact .stop ⟨rfl,rfl,⟨hr.this,Nat.le_refl _,hr.rate⟩,hr.next⟩ rfl

/-! The audio data. -/

/-- An error that does not end the call. -/
def MadError.Tolerable (e : MadError) : Prop := e ≠ .none → madRecoverable e = true

theorem MadError.Tolerable.or {e f : MadError} (he : e.Tolerable) (hf : f.Tolerable) :
    (orError e f).Tolerable := by
  unfold orError
  split
  · exact hf
  · exact he

theorem MadError.tolerable {e : MadError} (h : madRecoverable e = true) : e.Tolerable := fun _ => h

/-- What can be wrong with the side information and its check. -/
def MadError.ofSideinfo : MadError → Bool
  | .none | .badcrc | .badbigvalues | .badblocktype | .badscfsi => true
  | _ => false

theorem orError_ofSideinfo {e f : MadError} (he : e.ofSideinfo = true) (hf : f.ofSideinfo = true) :
    (orError e f).ofSideinfo = true := by
  unfold orError
  split
  · exact hf
  · exact he

theorem channelFault_ofSideinfo (m : Mem) (lsf : Bool) (scfsi p : Nat) :
    (channelFault m lsf scfsi p).ofSideinfo = true := by
  unfold channelFault switchedFault
  simp only
  split_ifs <;> rfl

theorem faultsAt_ofSideinfo (m : Mem) (lsf : Bool) (scfsi chs : List Nat) {result : MadError}
    (h : result.ofSideinfo = true) (p : Nat) :
    (faultsAt m lsf scfsi chs result p).ofSideinfo = true := by
  induction chs generalizing result p with
  | nil => exact h
  | cons ch chs ih => exact ih (orError_ofSideinfo h (channelFault_ofSideinfo m lsf _ p)) _

theorem granuleFaults_ofSideinfo (m : Mem) (lsf : Bool) (scfsi : List Nat) (nch ngr : Nat)
    {result : MadError} (h : result.ofSideinfo = true) (p : Nat) :
    (granuleFaults m lsf scfsi nch ngr result p).ofSideinfo = true := by
  induction ngr generalizing result p with
  | zero => exact h
  | succ ngr ih => exact ih (faultsAt_ofSideinfo m lsf scfsi _ h p) _

theorem LayerCall.fault_ofSideinfo (c : LayerCall) : c.fault.ofSideinfo = true := by
  refine orError_ofSideinfo ?_ (granuleFaults_ofSideinfo _ _ _ _ _ rfl _)
  split <;> rfl

theorem LayerCall.fault_tolerable (c : LayerCall) : c.fault.Tolerable := by
  have hfault := c.fault_ofSideinfo
  generalize c.fault = e at hfault
  cases e with
  | none => exact fun h => absurd rfl h
  | badcrc => exact MadError.tolerable rfl
  | badbigvalues => exact MadError.tolerable rfl
  | badblocktype => exact MadError.tolerable rfl
  | badscfsi => exact MadError.tolerable rfl
  | _ => cases hfault

/-- Memory can be had, and no error of the data is taken for a lost stream. -/
structure Codec.Plain (codec : Codec) : Prop where
  nomem : codec.nomem = false
  layer12 : ∀ m header ptr, codec.layer12 m header ptr ≠ .lostsync
  iiiDecode : ∀ main si header, codec.iiiDecode main si header ≠ .lostsync

/-- The faults of the side information come first. -/
theorem LayerCall.fault_or_ne (c : LayerCall) {e : MadError} (he : e ≠ .lostsync) :
    orError c.fault e ≠ .lostsync := by
  unfold orError
  split
  · exact he
  · intro hlost
    have hfault := c.fault_ofSideinfo
    rw [hlost] at hfault
    cases hfault

/-- What the rest of the turn asks of the header. -/
structure MadHeader.SameFrame (header header' : MadHeader) : Prop where
  layer : header'.layer = header.layer
  mode : header'.mode = header.mode
  bitrate : header'.bitrate = header.bitrate
  samplerate : header'.samplerate = header.samplerate
  lsfExt : header'.flags.lsfExt = header.flags.lsfExt
  duration : header'.duration = header.duration

/-- Where the stream stands and what is known about it. -/
structure MadBitstream.SameFrame (s t : MadBitstream) : Prop where
  bufend : t.bufend = s.bufend
  this : t.thisFrame = s.thisFrame
  skiplen : t.skiplen = s.skiplen
  attached : t.attached = s.attached
  sync : t.sync = s.sync
  freerate : t.freerate = s.freerate

theorem MadBitstream.SameFrame.inRange {s t : MadBitstream} (h : s.SameFrame t) (hr : s.InRange)
    (hn : t.nextFrame ≤ s.bufend) : t.InRange := by
  have hrate := hr.rate
  refine ⟨?_,?_,?_⟩
  · rw [h.this,h.bufend]
    exact hr.this
  · rwa [h.bufend]
  · unfold MadBitstream.RateOk
    rwa [h.freerate]

inductive AudioTurn (codec : Codec) (header : MadHeader) (s : MadBitstream) :
    MadError × MadHeader × MadBitstream × Reservoir → Prop where
  | done {error : MadError} {header' : MadHeader} {t : MadBitstream} {r : Reservoir}
      (tol : error.Tolerable) (plain : codec.Plain → error ≠ .lostsync)
      (same : header.SameFrame header') (stream : s.SameFrame t) (next : t.nextFrame = s.nextFrame)
      (short : r.mdLen ≤ 511) : AudioTurn codec header s (error,header',t,r)
  | nomem {header' : MadHeader} {t : MadBitstream} {r : Reservoir} (plain : ¬ codec.Plain)
      (stream : s.SameFrame t) (next : t.nextFrame = s.thisFrame) (short : r.mdLen ≤ 511) :
      AudioTurn codec header s (.nomem,header',t,r)

theorem madLayerIII_out (codec : Codec) (c : LayerCall) {r : Reservoir} (hr : r.mdLen ≤ 511)
    {out : LayerIII} (h : madLayerIII codec.iiiDecode codec.nomem c.mem c.header c.stream r =
      some out) :
    (out.error = .nomem ∧ ¬ codec.Plain ∨
      out.error.Tolerable ∧ (codec.Plain → out.error ≠ .lostsync)) ∧
      c.header.SameFrame out.header ∧ c.stream.SameFrame out.stream ∧
      out.stream.nextFrame = c.stream.nextFrame ∧ out.reservoir.mdLen ≤ 511 := by
  cases hn : codec.nomem with
  | true =>
    rw [hn] at h
    simp only [madLayerIII,if_true,Option.some.injEq] at h
    subst h
    have hplain : ¬ codec.Plain := fun hp => by simp [hp.nomem] at hn
    exact ⟨.inl ⟨rfl,hplain⟩,⟨rfl,rfl,rfl,rfl,rfl,rfl⟩,⟨rfl,rfl,rfl,rfl,rfl,rfl⟩,rfl,hr⟩
  | false =>
    rw [hn] at h
    by_cases hfit : c.body ≤ c.stream.nextFrame
    · obtain ⟨ptr,-,-,heq⟩ := madLayerIII_eq codec.iiiDecode c hfit r
      rw [heq] at h
      obtain ⟨⟨main,r1,used⟩,-,rfl⟩ := Option.map_eq_some_iff.mp h
      have hlen := preload_mdLen (m := c.mem) (r := r1) (b := c.mdBegin) (n := c.nextBegin)
        c.stream.nextFrame c.mdLen
        (c.space-used)
      refine ⟨.inr ?_,⟨rfl,rfl,rfl,rfl,rfl,rfl⟩,⟨rfl,rfl,rfl,rfl,rfl,rfl⟩,rfl,
        hlen.trans c.nextBegin_le.2⟩
      cases main with
      | none =>
        exact ⟨c.fault_tolerable.or (MadError.tolerable rfl),fun _ => c.fault_or_ne (by decide)⟩
      | some main =>
        exact ⟨c.fault_tolerable.or (codec.iiiDecode_recoverable main _ _),
          fun hp => c.fault_or_ne (hp.iiiDecode main _ _)⟩
    · rw [madLayerIII_badframelen _ c (by omega) r] at h
      cases h
      exact ⟨.inr ⟨MadError.tolerable rfl,fun _ => (by decide : MadError.badframelen ≠ .lostsync)⟩,
        ⟨rfl,rfl,rfl,rfl,rfl,rfl⟩,⟨rfl,rfl,rfl,rfl,rfl,rfl⟩,rfl,Nat.zero_le _⟩

/-- The assertion fails only where a Layer III frame has more than 2056 bytes behind its side
information. -/
theorem decodeAudio_none (codec : Codec) {m : Mem} {header : MadHeader} {s : MadBitstream}
    {r : Reservoir} (hr : r.mdLen ≤ 511) (hv : s.ptr.Valid m) {a : Nat} (hpos : s.ptr.pos = 8*a)
    (h : decodeAudio codec m header s r = none) :
    header.layer = 3 ∧ 2056 < s.nextFrame-(a+siLen (madNchannels header) header.flags.lsfExt) := by
  rw [decodeAudio,Option.map_eq_none_iff,decodeLayer] at h
  split at h
  · rename_i hlayer
    refine ⟨hlayer,?_⟩
    by_contra hroom
    rw [Option.map_eq_none_iff] at h
    cases hn : codec.nomem with
    | true => simp [madLayerIII,hn] at h
    | false =>
      let c : LayerCall :=
        ⟨m,{ header with flags := { header.flags with incomplete := false } },s,a,hv,hpos⟩
      obtain ⟨out,hout,-⟩ := madLayerIII_any codec.iiiDecode (c := c) (Nat.le_of_not_lt hroom)
        ⟨List.suffix_rfl,hr⟩
      rw [hn,hout] at h
      cases h
  · cases h

theorem decodeAudio_turn (codec : Codec) {m : Mem} {header : MadHeader} {s : MadBitstream}
    {r : Reservoir} (hr : r.mdLen ≤ 511) (hv : s.ptr.Valid m) {a : Nat} (hpos : s.ptr.pos = 8*a)
    {x : MadError × MadHeader × MadBitstream × Reservoir}
    (h : decodeAudio codec m header s r = some x) :
    AudioTurn codec header s x := by
  unfold decodeAudio at h
  obtain ⟨⟨error,header',t,r'⟩,hlayer,rfl⟩ := Option.map_eq_some_iff.mp h
  have hout : (error = .nomem ∧ ¬ codec.Plain ∨
      error.Tolerable ∧ (codec.Plain → error ≠ .lostsync)) ∧
      header.SameFrame header' ∧ s.SameFrame t ∧ t.nextFrame = s.nextFrame ∧ r'.mdLen ≤ 511 := by
    unfold decodeLayer at hlayer
    split at hlayer
    · obtain ⟨out,hiii,ho⟩ := Option.map_eq_some_iff.mp hlayer
      cases ho
      obtain ⟨herr,hsame,hrest⟩ := madLayerIII_out codec
        ⟨m,{ header with flags := { header.flags with incomplete := false } },s,a,hv,hpos⟩ hr hiii
      exact ⟨herr,⟨hsame.layer,hsame.mode,hsame.bitrate,hsame.samplerate,hsame.lsfExt,
        hsame.duration⟩,hrest⟩
    · cases hlayer
      exact ⟨.inr ⟨codec.layer12_recoverable m _ _,fun hp => hp.layer12 m _ _⟩,
        ⟨rfl,rfl,rfl,rfl,rfl,rfl⟩,⟨rfl,rfl,rfl,rfl,rfl,rfl⟩,rfl,hr⟩
  obtain ⟨herr,hsame,hstream,hnext,hshort⟩ := hout
  simp only
  split
  · rename_i hfatal
    obtain ⟨rfl,hplain⟩ | ⟨htol,-⟩ := herr
    · exact .nomem hplain ⟨hstream.bufend,hstream.this,hstream.skiplen,hstream.attached,
        hstream.sync,hstream.freerate⟩
        hstream.this hshort
    · rw [htol hfatal.1] at hfatal
      cases hfatal.2
  · rename_i hfatal
    have htol : error.Tolerable := fun hne => by
      by_contra hrec
      exact hfatal ⟨hne,by simpa using hrec⟩
    refine .done htol (fun hp => ?_) hsame hstream hnext hshort
    exact herr.elim (fun hn => absurd hp hn.2) fun ht => ht.2 hp

/-! The loop with an arbitrary library takes the same turns. It does not know how much
of a skip is done, so that it is followed up to `skiplen`. -/

def Ls.withSkip (ls : Ls) (skiplen : Nat) : Ls :=
  { ls with stream := { ls.stream with skiplen := skiplen } }

theorem libmadError_withSkip (h h' : Host) (e : MadError) (ls : Ls) (k : Nat) :
    ∃ k', libmadError h' e (ls.withSkip k) =
      ((libmadError h e ls).1,(libmadError h e ls).2.withSkip k') := by
  cases e with
  | lostsync =>
    let length := ls.stream.bufend-ls.stream.thisFrame
    let tagsize := id3TagQuery (window ls.buffer ls.stream.thisFrame length) length
    by_cases htag : tagsize = 0
    · exact ⟨k,by simp [libmadError,Ls.withSkip,tagsize,length,htag]⟩
    · exact ⟨(k+intToUlong h' tagsize) % 2^h'.longBits,by
        simp [libmadError,Ls.withSkip,madStreamSkip,tagsize,length,htag]⟩
  | _ => exact ⟨k,rfl⟩

theorem afterDecode_withSkip (h h' : Host) (e : MadError) (ls : Ls) (k : Nat) :
    ∃ k', afterDecode h' e (ls.withSkip k) =
      ((afterDecode h e ls).1,(afterDecode h e ls).2.withSkip k') := by
  obtain ⟨k',he⟩ := libmadError_withSkip h h' e ls k
  unfold afterDecode
  split
  · exact ⟨k,rfl⟩
  · split
    · exact ⟨k,rfl⟩
    · rcases hl : libmadError h e ls with ⟨flow,l⟩
      rw [hl] at he
      rw [he]
      refine ⟨k',?_⟩
      cases flow <;> rfl

theorem decodeFrame_withSkip (it : MadIter) (ls : Ls) (k : Nat) :
    ∃ k', decodeFrame it (ls.withSkip k) =
      ((decodeFrame it ls).1,(decodeFrame it ls).2.withSkip k') := by
  obtain ⟨k',he⟩ := afterDecode_withSkip .linux .linux it.header
    ((ls.advance it.headerSize).setThisFrame it.thisFrame) k
  have hsame : ((ls.withSkip k).advance it.headerSize).setThisFrame it.thisFrame =
      ((ls.advance it.headerSize).setThisFrame it.thisFrame).withSkip k := rfl
  unfold decodeFrame
  rw [hsame,he]
  rcases afterDecode .linux it.header ((ls.advance it.headerSize).setThisFrame
    it.thisFrame) with ⟨turn,l⟩
  cases turn with
  | fall => exact afterDecode_withSkip .linux .linux it.frame (l.advance it.frameSize) k'
  | again => exact ⟨k',rfl⟩
  | leave => exact ⟨k',rfl⟩

theorem libmadOutput_withSkip (pcm : Pcm) (ls : Ls) (k : Nat) (io : Io) :
    libmadOutput pcm (ls.withSkip k) io =
      ((libmadOutput pcm ls io).1.withSkip k,(libmadOutput pcm ls io).2) := by
  simp only [libmadOutput]
  split <;> rfl

theorem madFrames_withSkip (its : List MadIter) (ls : Ls) (k : Nat) (io : Io) :
    ∃ k', madFrames its (ls.withSkip k) io =
      ((madFrames its ls io).1.withSkip k',(madFrames its ls io).2) := by
  induction its generalizing ls k io with
  | nil => exact ⟨k,rfl⟩
  | cons it its ih =>
    obtain ⟨k',he⟩ := decodeFrame_withSkip it ls k
    have hstate : (ls.withSkip k).state = ls.state := rfl
    rw [madFrames,madFrames,hstate,he]
    split
    · exact ⟨k,rfl⟩
    · rcases decodeFrame it ls with ⟨turn,l⟩
      cases turn with
      | leave => exact ⟨k',rfl⟩
      | again => exact ih l k' io
      | fall =>
        simp only [libmadOutput_withSkip]
        exact ih _ k' _

/-! One turn. -/

structure Lm.Inv (l : Lm) : Prop where
  attached : l.attached = true
  range : l.stream.InRange
  ahead : l.stream.nextFrame ≤ l.stream.start
  room : l.stream.bufend ≤ libmadBufferSize
  short : l.reservoir.mdLen ≤ 511

/-- What a call needs of the one before it. -/
structure Lm.Kept (l : Lm) : Prop where
  rate : l.stream.RateOk
  short : l.reservoir.mdLen ≤ 511

theorem Lm.Inv.kept {l : Lm} (h : l.Inv) : l.Kept := ⟨h.range.rate,h.short⟩

theorem Lm.Inv.of_stream {l : Lm} {s : MadBitstream} (h : l.stream = s) (ha : s.attached = true)
    (hr : s.InRange) (hs : s.nextFrame ≤ s.start) (hb : s.bufend ≤ libmadBufferSize)
    (hm : l.reservoir.mdLen ≤ 511) : l.Inv := by
  subst h
  exact ⟨ha,hr,hs,hb,hm⟩

/-- In step, a skip starts behind the frame. -/
theorem start_of_sync {s : MadBitstream} (h : s.sync = true) : s.nextFrame ≤ s.start := by
  simp only [MadBitstream.start,h,if_true]
  split <;> omega

/-- The bytes from `next_frame` to the place the call has moved it to are passed. -/
theorem advance_moved {l : Lm} {s : MadBitstream} (hb : s.bufend = l.ls.stream.bufend)
    (hn : l.ls.stream.nextFrame ≤ s.nextFrame) (hr : s.InRange) :
    ((l.ls.advance (s.nextFrame-l.ls.stream.nextFrame)).setThisFrame s.thisFrame) =
      (l.moved l.ls s).ls.withSkip l.ls.stream.skiplen := by
  have hthis := hr.this
  have hnext := hr.next
  have hk : min (s.nextFrame-l.ls.stream.nextFrame) (l.ls.stream.bufend-l.ls.stream.nextFrame) =
      s.nextFrame-l.ls.stream.nextFrame := by omega
  have hsum : l.ls.stream.nextFrame+(s.nextFrame-l.ls.stream.nextFrame) = s.nextFrame := by omega
  have hmin : min s.thisFrame l.ls.stream.bufend = s.thisFrame := by omega
  simp only [Ls.advance,Ls.setThisFrame,Lm.moved,Ls.withSkip,hk,hsum,hmin,hb]

/-- The loop goes on in the same window, further on. -/
structure Lm.Ahead (l l' : Lm) : Prop where
  inv : l'.Inv
  buffer : l'.ls.buffer = l.ls.buffer
  bufend : l'.ls.stream.bufend = l.ls.stream.bufend
  next : l.ls.stream.nextFrame < l'.ls.stream.nextFrame

/-- What the library says about samples. -/
structure Pcm.Sound (pcm : Pcm) : Prop where
  legal : pcm.Legal
  rate : pcm.samplerate ∈ timerRates

/-- How long the samples last. -/
def Pcm.units (pcm : Pcm) : Nat := pcm.length*(madTimerResolution/pcm.samplerate)

/-- The time is what the samples last, and the count their number, as far as a `long` of
the host has them. -/
structure Lm.Shows (h : Host) (l : Lm) (pcms : List Pcm) : Prop where
  timer : l.timer = .ofUnits h (pcms.map Pcm.units).sum
  frames : l.frames = h.long pcms.length

/-- The samples are counted, and what they last is added to the time. -/
structure Lm.Plays (h : Host) (l l' : Lm) (pcms : List Pcm) : Prop where
  sound : ∀ pcm ∈ pcms, pcm.Sound
  after : ∀ ps, l.Shows h ps → l'.Shows h (ps ++ pcms)

theorem Lm.Plays.none {h : Host} {l l' : Lm} (ht : l'.timer = l.timer) (hf : l'.frames = l.frames) :
    l.Plays h l' [] := by
  refine ⟨by simp,fun ps hs => ?_⟩
  rw [List.append_nil]
  exact ⟨ht.trans hs.timer,hf.trans hs.frames⟩

theorem Lm.Plays.append {h : Host} {l l1 l2 : Lm} {ps qs : List Pcm} (hp : l.Plays h l1 ps)
    (hq : l1.Plays h l2 qs) : l.Plays h l2 (ps ++ qs) := by
  refine ⟨fun pcm hm => ?_,fun rs hs => ?_⟩
  · exact (List.mem_append.mp hm).elim (hp.sound pcm) (hq.sound pcm)
  · rw [← List.append_assoc]
    exact hq.after _ (hp.after rs hs)

/-- A turn as one of the loop with an arbitrary library. -/
inductive TurnSim (h : Host) (l : Lm) (io : Io) : Turn × Lm × Io → Prop where
  | leave {it : MadIter} {l' : Lm} {k : Nat}
      (turn : decodeFrame it l.ls = (.leave,l'.ls.withSkip k)) (kept : l'.Kept)
      (plays : l.Plays h l' []) : TurnSim h l io (.leave,l',io)
  | again {it : MadIter} {l' : Lm} {k : Nat}
      (turn : decodeFrame it l.ls = (.again,l'.ls.withSkip k)) (ahead : l.Ahead l')
      (plays : l.Plays h l' []) : TurnSim h l io (.again,l',io)
  | emit {it : MadIter} {l' : Lm} {io' : Io} {ls : Ls} {k : Nat}
      (turn : decodeFrame it l.ls = (.fall,ls.withSkip k))
      (out : libmadOutput it.pcm ls io = (l'.ls,io')) (ahead : l.Ahead l')
      (plays : l.Plays h l' [it.pcm]) :
      TurnSim h l io (.again,l',io')

theorem advance_zero (ls : Ls) : ls.advance 0 = ls := by
  simp [Ls.advance,window]

section
variable {h : Host} {l : Lm} {s : MadBitstream} {e : MadError} {turn : Turn} {ls : Ls}

/-- The call for the header ends the turn. -/
theorem decodeFrame_header (hb : s.bufend = l.ls.stream.bufend)
    (hn : l.ls.stream.nextFrame ≤ s.nextFrame) (hr : s.InRange)
    (ha : afterDecode h e (l.moved l.ls s).ls = (turn,ls)) (hturn : turn ≠ .fall) (pcm : Pcm) :
    ∃ k, decodeFrame ⟨e,s.nextFrame-l.ls.stream.nextFrame,s.thisFrame,.none,0,pcm⟩ l.ls =
      (turn,ls.withSkip k) := by
  obtain ⟨k,hk⟩ := afterDecode_withSkip h .linux e (l.moved l.ls s).ls l.ls.stream.skiplen
  refine ⟨k,?_⟩
  simp only [decodeFrame,advance_moved hb hn hr,hk,ha]
  cases turn with
  | fall => exact absurd rfl hturn
  | again => rfl
  | leave => rfl

/-- The header is good, and `e` is what comes of the frame. -/
theorem decodeFrame_audio (hb : s.bufend = l.ls.stream.bufend)
    (hn : l.ls.stream.nextFrame ≤ s.nextFrame) (hr : s.InRange)
    (ha : afterDecode h e (l.moved l.ls s).ls = (turn,ls)) (pcm : Pcm) :
    ∃ k, decodeFrame ⟨.none,s.nextFrame-l.ls.stream.nextFrame,s.thisFrame,e,0,pcm⟩ l.ls =
      (turn,ls.withSkip k) := by
  obtain ⟨k,hk⟩ := afterDecode_withSkip h .linux e (l.moved l.ls s).ls l.ls.stream.skiplen
  refine ⟨k,?_⟩
  have hnone : ∀ x : Ls, afterDecode .linux .none x = (.fall,x) := fun _ => rfl
  simp only [decodeFrame,advance_moved hb hn hr,hnone,advance_zero,hk,ha]

end

theorem afterDecode_ofHeader (h : Host) {e : MadError} (he : e.ofHeader = true) (ls : Ls) :
    ∃ k c st, afterDecode h e ls = (.again,{ ls with
      stream := { ls.stream with skiplen := k }, errCount := c, state := st }) := by
  cases e with
  | lostsync =>
    let length := ls.stream.bufend-ls.stream.thisFrame
    let tagsize := id3TagQuery (window ls.buffer ls.stream.thisFrame length) length
    by_cases htag : tagsize = 0
    · exact ⟨ls.stream.skiplen,ls.errCount,ls.state,by
        simp [afterDecode,madRecoverable,libmadError,tagsize,length,htag]⟩
    · exact ⟨(ls.stream.skiplen+intToUlong h tagsize) % 2^h.longBits,ls.errCount,ls.state,by
        simp [afterDecode,madRecoverable,libmadError,madStreamSkip,tagsize,length,htag]⟩
  | badlayer => exact ⟨_,_,_,rfl⟩
  | badbitrate => exact ⟨_,_,_,rfl⟩
  | badsamplerate => exact ⟨_,_,_,rfl⟩
  | _ => cases he

/-- A header that is rejected is passed by one byte, or its tag is skipped. -/
theorem reject_sim (h : Host) {l : Lm} (io : Io) {error : MadError} (header : MadHeader)
    {t : MadBitstream} (hinv : l.Inv) (moves : l.stream.Moves t) (herr : error.ofHeader = true)
    (hsync : t.sync = false) (hthis : l.stream.nextFrame ≤ t.thisFrame)
    (hnext : t.nextFrame = t.thisFrame+1) :
    ∃ ls, afterDecode h error (l.moved l.ls t).ls = (.again,ls) ∧
      TurnSim h l io (.again,{ l.moved l.ls t with header := header, ls := ls },io) := by
  obtain ⟨k,c,st,hafter⟩ := afterDecode_ofHeader h herr (l.moved l.ls t).ls
  obtain ⟨k',hdecode⟩ :=
    decodeFrame_header moves.bufend moves.next moves.range hafter (by decide) ⟨0,1,0,[],[]⟩
  refine ⟨_,hafter,.again hdecode ⟨⟨?_,?_,?_,moves.bufend.trans_le hinv.room,hinv.short⟩,rfl,
    moves.bufend,?_⟩ (.none rfl rfl)⟩
  · exact moves.attached.trans hinv.attached
  · exact ⟨moves.range.this,moves.range.next,moves.range.rate⟩
  · change t.nextFrame ≤ if k = 0 then t.nextFrame
      else (if t.sync then t.nextFrame else t.thisFrame)+k
    rw [hsync]
    simp only [Bool.false_eq_true,if_false]
    split <;> omega
  · change l.stream.nextFrame < t.nextFrame
    omega

theorem afterDecode_tolerable (h : Host) {e : MadError} (he : e.Tolerable) (ls : Ls) :
    afterDecode h e ls = (.fall,ls) ∨ ∃ k c st, (e ≠ .lostsync → k = ls.stream.skiplen) ∧
      afterDecode h e ls = (.again,{ ls with
        stream := { ls.stream with skiplen := k }, errCount := c, state := st }) := by
  cases e with
  | none => exact .inl rfl
  | badcrc => exact .inl rfl
  | lostsync =>
    obtain ⟨k,c,st,ha⟩ := afterDecode_ofHeader h (e := .lostsync) rfl ls
    exact .inr ⟨k,c,st,fun hne => absurd rfl hne,ha⟩
  | buflen => exact absurd (he (by decide)) (by decide)
  | bufptr => exact absurd (he (by decide)) (by decide)
  | nomem => exact absurd (he (by decide)) (by decide)
  | _ => exact .inr ⟨_,_,_,fun _ => rfl,rfl⟩

theorem synthPcm_legal (codec : Codec) (header : MadHeader) : (synthPcm codec header).Legal := by
  unfold synthPcm Pcm.Legal madNsbsamples madNchannels
  simp only
  split_ifs <;> omega

/-- The duration of the frame is what its samples last. -/
theorem emitFrame_plays (codec : Codec) {h : Host} {l : Lm} (hl : l.header.Legal h) (io : Io) :
    l.Plays h (emitFrame h codec l io).1 [synthPcm codec l.header] := by
  refine ⟨fun pcm hp => ?_,fun ps hs => ⟨?_,?_⟩⟩
  · rw [List.mem_singleton.mp hp]
    exact ⟨synthPcm_legal codec l.header,hl.samplerate⟩
  · change madTimerAdd h l.timer l.header.duration = _
    rw [hs.timer,hl.duration,madTimerSet_ofUnits h hl.samplerate,madTimerAdd_ofUnits]
    simp [Pcm.units,synthPcm]
  · change h.long (l.frames+1) = _
    rw [hs.frames,Host.long_add,List.length_append]
    rfl

theorem MadHeader.SameFrame.legal {h : Host} {header header' : MadHeader}
    (hs : header.SameFrame header') (hl : header.Legal h) : header'.Legal h := by
  have hnsb : madNsbsamples header' = madNsbsamples header := by
    rw [madNsbsamples,madNsbsamples,hs.layer,hs.lsfExt]
  refine ⟨?_,?_,?_,?_,?_⟩
  · rw [hs.layer]
    exact hl.layer
  · rw [hs.samplerate]
    exact hl.samplerate
  · rw [hs.lsfExt,hs.samplerate]
    exact hl.low
  · rw [hs.bitrate]
    exact hl.bitrate
  · rw [hs.duration,hnsb,hs.samplerate]
    exact hl.duration

theorem libmadOutput_stream (pcm : Pcm) (ls : Ls) (io : Io) :
    (libmadOutput pcm ls io).1.stream = ls.stream := by
  simp only [libmadOutput]
  split <;> rfl

theorem emitFrame_stream (h : Host) (codec : Codec) (l : Lm) (io : Io) :
    (emitFrame h codec l io).1.stream = l.stream := by
  simp only [Lm.stream,emitFrame,libmadOutput_stream]

theorem emitFrame_buffer (h : Host) (codec : Codec) (l : Lm) (io : Io) :
    (emitFrame h codec l io).1.ls.buffer = l.ls.buffer := by
  simp only [emitFrame,libmadOutput]
  split <;> rfl

theorem endTurn_fall {h : Host} (codec : Codec) {error : MadError} {l : Lm} {ls : Ls}
    (ha : afterDecode h error l.ls = (.fall,ls)) (io : Io) :
    endTurn h codec error l io = (.again,emitFrame h codec { l with ls := ls } io) := by
  simp only [endTurn,ha]

theorem endTurn_else {h : Host} (codec : Codec) {error : MadError} {l : Lm} {turn : Turn} {ls : Ls}
    (ha : afterDecode h error l.ls = (turn,ls)) (hne : turn ≠ .fall) (io : Io) :
    endTurn h codec error l io = (turn,{ l with ls := ls },io) := by
  unfold endTurn
  rw [ha]
  cases turn with
  | fall => exact absurd rfl hne
  | again => rfl
  | leave => rfl

/-- The header has been read, so that only its audio data are left. -/
theorem frameTurn_eq (h : Host) (codec : Codec) (l : Lm) (io : Io) {header : MadHeader}
    (t : MadBitstream) (hinc : header.flags.incomplete = true) :
    frameTurn h codec l.ls { l.moved l.ls t with header := header } io =
      (decodeAudio codec l.ls.buffer header t l.reservoir).map fun x =>
        endTurn h codec x.1 { l.moved l.ls x.2.2.1 with header := x.2.1, reservoir := x.2.2.2 }
          io := by
  rw [frameTurn,madFrameDecode,if_pos hinc]
  rfl

/-- The audio data begin at a whole byte. -/
theorem pos_body {pos p : Nat} {protection : Bool}
    (h : pos = 8*p+32+(if protection then 16 else 0)) :
    pos = 8*(p+4+(if protection then 2 else 0)) := by
  rw [h]
  split <;> omega

theorem frame_sim {h : Host} (codec : Codec) {l : Lm} (io : Io) {header : MadHeader}
    {t : MadBitstream} (hinv : l.Inv) (hturn : HeaderTurn h l.ls.buffer l.stream (.none,header,t))
    {x : Turn × Lm × Io} (hx : frameTurn h codec l.ls { l.moved l.ls t with header := header } io =
      some x) : TurnSim h l io x := by
  cases hturn with
  | reject _ _ _ error_rec => cases error_rec
  | frame moves sync skip incomplete mark legal read valid pos this next room =>
    have hlen := legal.frameLength_ge
    rw [frameTurn_eq h codec l io t incomplete] at hx
    obtain ⟨⟨error,header',t',r⟩,haudio,rfl⟩ := Option.map_eq_some_iff.mp hx
    have hpos := pos_body pos
    let l' : Lm := { l.moved l.ls t' with header := header', reservoir := r }
    change TurnSim h l io (endTurn h codec error l' io)
    cases decodeAudio_turn codec hinv.short valid hpos haudio with
    | done tol plain same stream next' short =>
      have hb : t'.bufend = l.ls.stream.bufend := stream.bufend.trans moves.bufend
      have hn : l.ls.stream.nextFrame ≤ t'.nextFrame := next' ▸ moves.next
      have hr : t'.InRange := stream.inRange moves.range (next' ▸ moves.range.next)
      have hlt : l.ls.stream.nextFrame < t'.nextFrame := by
        have hthis : l.ls.stream.nextFrame ≤ t.thisFrame := this
        omega
      have hatt : t'.attached = true := stream.attached.trans (moves.attached.trans hinv.attached)
      have hsync : t'.sync = true := stream.sync.trans sync
      obtain hafter | ⟨k,c,st,-,hafter⟩ := afterDecode_tolerable h tol (l.moved l.ls t').ls
      · obtain ⟨k',hdec⟩ := decodeFrame_audio hb hn hr hafter (synthPcm codec header')
        have hstream : (emitFrame h codec l' io).1.stream = t' := emitFrame_stream h codec l' io
        rw [endTurn_fall codec (l := l') hafter]
        refine .emit hdec rfl ⟨.of_stream hstream hatt hr (start_of_sync hsync)
          (hb.trans_le hinv.room) short,?_,?_,?_⟩ ?_
        · exact emitFrame_buffer h codec l' io
        · exact (congrArg (·.bufend) hstream).trans hb
        · exact hlt.trans_eq (congrArg (·.nextFrame) hstream).symm
        · have hplays := emitFrame_plays codec (l := l') (same.legal legal) io
          exact ⟨hplays.sound,fun ps hs => hplays.after ps ⟨hs.timer,hs.frames⟩⟩
      · obtain ⟨k',hdec⟩ := decodeFrame_audio hb hn hr hafter (synthPcm codec header')
        rw [endTurn_else codec (l := l') hafter (by decide)]
        exact .again hdec
          ⟨⟨hatt,⟨hr.this,hr.next,hr.rate⟩,start_of_sync hsync,hb.trans_le hinv.room,short⟩,rfl,hb,
            hlt⟩ (.none rfl rfl)
    | nomem plain stream next' short =>
      have hb : t'.bufend = l.ls.stream.bufend := stream.bufend.trans moves.bufend
      have hn : l.ls.stream.nextFrame ≤ t'.nextFrame := next' ▸ this
      have hr : t'.InRange := stream.inRange moves.range (next' ▸ moves.range.this)
      have hafter : afterDecode h .nomem (l.moved l.ls t').ls = (.leave,(l.moved l.ls t').ls) := rfl
      obtain ⟨k',hdec⟩ := decodeFrame_audio hb hn hr hafter (synthPcm codec header')
      rw [endTurn_else codec (l := l') hafter (by decide)]
      exact .leave hdec ⟨hr.rate,short⟩ (.none rfl rfl)

theorem madTurn_fall {h : Host} {codec : Nat → Codec} {l : Lm} {e : MadError} {header : MadHeader}
    {t : MadBitstream} {ls : Ls} (hd : madHeaderDecode h l.ls.buffer l.header l.stream =
      (e,header,t))
    (ha : afterDecode h e (l.moved l.ls t).ls = (.fall,ls)) (io : Io) :
    madTurn h codec l io =
      frameTurn h (codec t.thisFrame) l.ls
        { l.moved l.ls t with header := header, ls := ls } io := by
  simp only [madTurn,hd,ha]

theorem madTurn_else {h : Host} {codec : Nat → Codec} {l : Lm} {e : MadError} {header : MadHeader}
    {t : MadBitstream} {turn : Turn} {ls : Ls}
    (hd : madHeaderDecode h l.ls.buffer l.header l.stream = (e,header,t))
    (ha : afterDecode h e (l.moved l.ls t).ls = (turn,ls)) (hne : turn ≠ .fall) (io : Io) :
    madTurn h codec l io = some (turn,{ l.moved l.ls t with header := header, ls := ls },io) := by
  unfold madTurn
  simp only [hd]
  rw [ha]
  cases turn with
  | fall => exact absurd rfl hne
  | again => rfl
  | leave => rfl

theorem madTurn_sim {h : Host} {codec : Nat → Codec} {l : Lm} {io : Io} (hinv : l.Inv)
    {x : Turn × Lm × Io} (hx : madTurn h codec l io = some x) : TurnSim h l io x := by
  have hturn := madHeaderDecode_turn h l.ls.buffer l.header hinv.attached hinv.range hinv.ahead
  rcases hd : madHeaderDecode h l.ls.buffer l.header l.stream with ⟨e,header,t⟩
  rw [hd] at hturn
  have hcopy := hturn
  cases hturn with
  | stop moves sync =>
    have hafter : afterDecode h .buflen (l.moved l.ls t).ls = (.leave,(l.moved l.ls t).ls) := rfl
    obtain ⟨k,hdec⟩ := decodeFrame_header moves.bufend moves.next moves.range hafter (by decide)
      ⟨0,1,0,[],[]⟩
    rw [madTurn_else hd hafter (by decide),Option.some.injEq] at hx
    subst hx
    exact .leave hdec ⟨moves.range.rate,hinv.short⟩ (.none rfl rfl)
  | reject moves sync skip error_rec this next =>
    obtain ⟨ls,hafter,hsim⟩ := reject_sim h io header hinv moves error_rec sync this next
    rw [madTurn_else hd hafter (by decide),Option.some.injEq] at hx
    subst hx
    exact hsim
  | frame moves sync skip incomplete mark legal read valid pos this next room =>
    have hafter : afterDecode h .none (l.moved l.ls t).ls = (.fall,(l.moved l.ls t).ls) := rfl
    rw [madTurn_fall hd hafter] at hx
    exact frame_sim (codec t.thisFrame) io hinv hcopy hx

/-- A frame of Layer III at half the sampling rate, mono, that does not name its rate. -/
def exposedAt (m : Mem) (p : Nat) : Bool :=
  let w := headerWord m (8*p)
  syncAt m p && w.error == .none && w.layer == 1 && w.id == 0 && w.mode == 3 && w.bitrateOf == 0

/-- Such a frame is at the start of a window of nearly the whole buffer. -/
def exposed (m : Mem) (bufend : Nat) : Bool := (List.range (bufend-2077)).any (exposedAt m)

theorem siLen_short {nch : Nat} {lsf : Bool} (h : siLen nch lsf < 17) : nch = 1 ∧ lsf = true := by
  cases lsf with
  | false =>
    simp only [siLen,Bool.false_eq_true,if_false] at h
    split at h <;> omega
  | true =>
    simp only [siLen,if_true] at h
    split at h
    · exact ⟨‹_›,rfl⟩
    · omega

/-- The assertion of Layer III fails in no other window. -/
theorem madTurn_none {h : Host} {codec : Nat → Codec} {l : Lm} {io : Io} (hinv : l.Inv)
    (hx : madTurn h codec l io = none) : exposed l.ls.buffer l.ls.stream.bufend = true := by
  have hturn := madHeaderDecode_turn h l.ls.buffer l.header hinv.attached hinv.range hinv.ahead
  rcases hd : madHeaderDecode h l.ls.buffer l.header l.stream with ⟨e,header,t⟩
  rw [hd] at hturn
  cases hturn with
  | stop moves sync =>
    have hafter : afterDecode h .buflen (l.moved l.ls t).ls = (.leave,(l.moved l.ls t).ls) := rfl
    rw [madTurn_else hd hafter (by decide)] at hx
    cases hx
  | reject moves sync skip error_rec this next =>
    obtain ⟨ls,hafter,-⟩ := reject_sim h io header hinv moves error_rec sync this next
    rw [madTurn_else hd hafter (by decide)] at hx
    cases hx
  | frame moves sync skip incomplete mark legal read valid pos this next room =>
    have hafter : afterDecode h .none (l.moved l.ls t).ls = (.fall,(l.moved l.ls t).ls) := rfl
    have haudio : decodeAudio (codec t.thisFrame) l.ls.buffer header t l.reservoir = none := by
      have hframe := (madTurn_fall hd hafter io).symm.trans hx
      exact Option.map_eq_none_iff.mp ((frameTurn_eq h _ l io t incomplete).symm.trans hframe)
    obtain ⟨hlayer,hspace⟩ :=
      decodeAudio_none (codec t.thisFrame) hinv.short valid (pos_body pos) haudio
    have hroom : t.nextFrame+8 ≤ l.ls.stream.bufend := room
    have hbuf : l.ls.stream.bufend ≤ 2080 := hinv.room
    have hlen : siLen (madNchannels header) header.flags.lsfExt < 17 := by omega
    have hge : 9 ≤ siLen (madNchannels header) header.flags.lsfExt := by
      unfold siLen
      split_ifs <;> omega
    have hfree : (headerWord l.ls.buffer (8*t.thisFrame)).bitrateOf = 0 := by
      by_contra hne
      have := read.length_le hlayer hne
      omega
    obtain ⟨hmono,hlsf⟩ := siLen_short hlen
    have hmode0 : header.mode = 0 := by
      unfold madNchannels at hmono
      by_contra hne
      rw [if_pos hne] at hmono
      omega
    obtain ⟨hl,hm,-,hi⟩ := read.fields
    have hin := headerWord_inRange l.ls.buffer (8*t.thisFrame)
    have hmode := hin.mode
    refine List.any_eq_true.mpr ⟨t.thisFrame,List.mem_range.mpr (by omega),?_⟩
    rw [hlsf] at hi
    have hword : (headerWord l.ls.buffer (8*t.thisFrame)).layer = 1 := by omega
    have hword' : (headerWord l.ls.buffer (8*t.thisFrame)).mode = 3 := by omega
    simp [exposedAt,mark,read.1,hfree,← hi,hword,hword']

/-! The loop. -/

/-- The samples that the turns hand to the sound ring. -/
def handed : List MadIter → Ls → Io → List Pcm
  | [], _, _ => []
  | it :: its, ls, io =>
      if ls.state ≠ .init then []
      else match decodeFrame it ls with
        | (.leave,_) => []
        | (.again,ls) => handed its ls io
        | (.fall,ls) => it.pcm :: handed its (libmadOutput it.pcm ls io).1
            (libmadOutput it.pcm ls io).2

theorem handed_withSkip (its : List MadIter) (ls : Ls) (k : Nat) (io : Io) :
    handed its (ls.withSkip k) io = handed its ls io := by
  induction its generalizing ls k io with
  | nil => rfl
  | cons it its ih =>
    obtain ⟨k',he⟩ := decodeFrame_withSkip it ls k
    have hstate : (ls.withSkip k).state = ls.state := rfl
    rw [handed,handed,hstate,he]
    split
    · rfl
    · rcases decodeFrame it ls with ⟨turn,l⟩
      cases turn with
      | leave => rfl
      | again => exact ih l k' io
      | fall =>
        simp only [libmadOutput_withSkip]
        rw [ih]

/-- The turns `its` of an arbitrary library lead where the loop has gone. -/
structure LoopSim (h : Host) (l : Lm) (io : Io) (r : Lm × Io) (its : List MadIter) : Prop where
  turns : ∃ k, madFrames its l.ls io = (r.1.ls.withSkip k,r.2)
  kept : r.1.Kept
  plays : l.Plays h r.1 (handed its l.ls io)

theorem TurnSim.leaves {h : Host} {l l' : Lm} {io io' : Io} (hinit : l.ls.state = .init)
    (hturn : TurnSim h l io (.leave,l',io')) :
    ∃ its, LoopSim h l io (l',io') its := by
  cases hturn with
  | leave turn kept plays =>
    rename_i it k
    refine ⟨[it],⟨⟨k,?_⟩,kept,?_⟩⟩
    · simp [madFrames,hinit,turn]
    · simpa [handed,hinit,turn] using plays

theorem TurnSim.ahead {h : Host} {l l' : Lm} {io io' : Io}
    (hturn : TurnSim h l io (.again,l',io')) :
    l.Ahead l' := by
  cases hturn with
  | again turn ahead plays => exact ahead
  | emit turn out ahead plays => exact ahead

theorem TurnSim.cons {h : Host} {l l1 : Lm} {io io1 : Io} {r : Lm × Io} {its : List MadIter}
    (hinit : l.ls.state = .init) (hturn : TurnSim h l io (.again,l1,io1))
    (hrest : LoopSim h l1 io1 r its) :
    ∃ it, LoopSim h l io r (it :: its) := by
  obtain ⟨k1,hrun⟩ := hrest.turns
  cases hturn with
  | again turn ahead plays =>
    rename_i it k
    obtain ⟨k',hskip⟩ := madFrames_withSkip its l1.ls k io
    refine ⟨it,⟨⟨k',?_⟩,hrest.kept,?_⟩⟩
    · simp only [madFrames,hinit,turn,ne_eq,not_true,if_false]
      rw [hskip,hrun]
      rfl
    · simpa [handed,hinit,turn,handed_withSkip] using plays.append hrest.plays
  | emit turn out ahead plays =>
    rename_i it ls k
    obtain ⟨k',hskip⟩ := madFrames_withSkip its l1.ls k io1
    refine ⟨it,⟨⟨k',?_⟩,hrest.kept,?_⟩⟩
    · simp only [madFrames,hinit,turn,ne_eq,not_true,if_false,libmadOutput_withSkip,out]
      rw [hskip,hrun]
      rfl
    · simpa [handed,hinit,turn,libmadOutput_withSkip,handed_withSkip,out] using plays.append
        hrest.plays

/-- `while (1)`, without a bound on the number of turns. -/
@[mk_iff]
inductive LoopEnds (h : Host) (codec : Nat → Codec) : Lm → Io → Lm × Io → Prop where
  | stopped {l : Lm} {io : Io} (state : l.ls.state ≠ .init) : LoopEnds h codec l io (l,io)
  | leave {l l' : Lm} {io io' : Io} (state : l.ls.state = .init)
      (turn : madTurn h codec l io = some (.leave,l',io')) : LoopEnds h codec l io (l',io')
  | again {l l' : Lm} {io io' : Io} {r : Lm × Io} (state : l.ls.state = .init)
      (turn : madTurn h codec l io = some (.again,l',io')) (rest : LoopEnds h codec l' io' r) :
      LoopEnds h codec l io r

theorem LoopEnds.sim {h : Host} {codec : Nat → Codec} {l : Lm} {io : Io} {r : Lm × Io}
    (hr : LoopEnds h codec l io r) (hinv : l.Inv) : ∃ its, LoopSim h l io r its := by
  induction hr with
  | stopped state => exact ⟨[],⟨_,rfl⟩,hinv.kept,.none rfl rfl⟩
  | leave state turn => exact (madTurn_sim hinv turn).leaves state
  | again state turn rest ih =>
    have hsim := madTurn_sim hinv turn
    obtain ⟨its,hits⟩ := ih hsim.ahead.inv
    obtain ⟨it,hcons⟩ := hsim.cons state hits
    exact ⟨it :: its,hcons⟩

/-- Every turn that goes on moves `next_frame`, so there are no more of them than bytes
in the window. -/
theorem madLoop_iff {h : Host} {codec : Nat → Codec} {n : Nat} {l : Lm} {io : Io} (hinv : l.Inv)
    (hn : l.ls.stream.bufend-l.ls.stream.nextFrame < n) (r : Lm × Io) :
    madLoop h codec n l io = some r ↔ LoopEnds h codec l io r := by
  induction n generalizing l io with
  | zero => omega
  | succ n ih =>
    rw [madLoop,loopEnds_iff]
    by_cases hstate : l.ls.state = .init
    · cases hturn : madTurn h codec l io with
      | none => simp [hstate]
      | some x =>
        obtain ⟨turn,l1,io1⟩ := x
        have hsim := madTurn_sim hinv hturn
        cases turn with
        | fall => cases hsim
        | leave => simp [hstate,eq_comm]
        | again =>
          have hahead := hsim.ahead
          have hbuf := hahead.bufend
          have hnext := hahead.next
          have hrange : l1.ls.stream.nextFrame ≤ l1.ls.stream.bufend := hahead.inv.range.next
          have hrest : madLoop h codec n l1 io1 = some r ↔ LoopEnds h codec l1 io1 r :=
            ih hahead.inv (by omega)
          simpa [hstate] using hrest
    · simp [hstate,eq_comm]

/-- In a window that is not exposed the loop ends. -/
theorem loop_ends {h : Host} {codec : Nat → Codec} {l : Lm} {io : Io} (hinv : l.Inv)
    (hsafe : exposed l.ls.buffer l.ls.stream.bufend = false) : ∃ r, LoopEnds h codec l io r := by
  induction hleft : l.ls.stream.bufend-l.ls.stream.nextFrame using Nat.strong_induction_on
    generalizing l io with
  | _ left ih =>
    by_cases hstate : l.ls.state = .init
    · cases hturn : madTurn h codec l io with
      | none => simp [madTurn_none hinv hturn] at hsafe
      | some x =>
        obtain ⟨turn,l1,io1⟩ := x
        have hsim := madTurn_sim hinv hturn
        cases turn with
        | fall => cases hsim
        | leave => exact ⟨_,.leave hstate hturn⟩
        | again =>
          have hahead := hsim.ahead
          have hbuf := hahead.bufend
          have hnext := hahead.next
          have hrange : l1.ls.stream.nextFrame ≤ l1.ls.stream.bufend := hahead.inv.range.next
          have hrest : ∃ r, LoopEnds h codec l1 io1 r :=
            ih _ (by omega) hahead.inv (by rw [hahead.buffer,hbuf,hsafe]) rfl
          obtain ⟨r,hr⟩ := hrest
          exact ⟨r,.again hstate hturn hr⟩
    · exact ⟨_,.stopped hstate⟩

end Mardio
