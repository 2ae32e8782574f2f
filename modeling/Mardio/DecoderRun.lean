import Mardio.MadLoop
import Mardio.Lib.Simulation

/-!
Runs of the decoder between the source that queues buffers and the sound device
that plays them. Each of them is a run of the decoder with an arbitrary library, so
that what holds of all these runs holds here.
-/

set_option autoImplicit false

namespace Mardio
open ByteMem Runs Simulation

/-! One call. -/

/-- `libmad_loop` without a bound on its turns. -/
@[mk_iff]
inductive CallReturns (h : Host) (codec : Nat → Codec) (pl : PlState) (l : Lm) (io : Io) :
    Lm × Io → Prop where
  | idle (ready : libmadReady pl l.ls io = false) : CallReturns h codec pl l io (l,io)
  | stop {ls : Ls} {io' : Io} (ready : libmadReady pl l.ls io = true)
      (input : libmadInput l.ls io = (.stop,ls,io')) :
      CallReturns h codec pl l io ({ l with ls := ls },io')
  | decode {ls : Ls} {io' : Io} {r : Lm × Io} (ready : libmadReady pl l.ls io = true)
      (input : libmadInput l.ls io = (.cont,ls,io'))
      (ends : LoopEnds h codec (l.refilled ls) io' r) :
      CallReturns h codec pl l io r

/-- A buffer is put behind the rest of the window before. -/
structure Refill (ls ls' : Ls) : Prop where
  popped : ls.popped <+: ls'.popped
  passed : ls'.passed = ls.passed
  this : ls'.stream.thisFrame = 0
  next : ls'.stream.nextFrame = 0
  skip : ls'.stream.skiplen = ls.stream.skiplen
  room : ls'.stream.bufend ≤ libmadBufferSize

theorem libmadInput_refill {ls ls' : Ls} {io io' : Io} (h : libmadInput ls io = (.cont,ls',io')) :
    Refill ls ls' := by
  obtain ⟨hst,-,hpass,hpop⟩ := carryOver_rest ls
  have hlt : io.i.tail < io.i.head := by
    by_contra hn
    rw [libmadInput_none hn] at h
    cases h
  rw [libmadInput_some hlt] at h
  obtain ⟨_,he⟩ | ⟨_,he⟩ | ⟨_,hroom,he⟩ := appendInput_cases (carryOver ls) io.front
  · rw [he] at h
    cases h
  · rw [he] at h
    cases h
  · rw [he] at h
    cases h
    exact ⟨by simp [hpop],hpass,rfl,rfl,by simp [hst],hroom⟩

theorem refilled_inv {l : Lm} (hk : l.Kept) {io io' : Io} {ls : Ls}
    (h : libmadInput l.ls io = (.cont,ls,io')) :
    (l.refilled ls).Inv := by
  have hrefill := libmadInput_refill h
  have hthis : ls.stream.thisFrame ≤ ls.stream.bufend := hrefill.this ▸ Nat.zero_le _
  have hnext : ls.stream.nextFrame ≤ ls.stream.bufend := hrefill.next ▸ Nat.zero_le _
  exact ⟨rfl,⟨hthis,hnext,hk.rate⟩,start_of_sync rfl,hrefill.room,hk.short⟩

theorem decoderLoop_iff {h : Host} {codec : Nat → Codec} {pl : PlState} {l : Lm} {io : Io}
    (hk : l.Kept) (r : Lm × Io) :
    decoderLoop h codec pl l io = some r ↔ CallReturns h codec pl l io r := by
  rw [decoderLoop,callReturns_iff]
  cases hready : libmadReady pl l.ls io with
  | false => simp [eq_comm]
  | true =>
    have hflow := libmadInput_flow l.ls io
    rcases hin : libmadInput l.ls io with ⟨flow,ls,io1⟩
    rw [hin] at hflow
    obtain rfl | rfl := hflow
    · simp [eq_comm]
    · have hinv := refilled_inv hk hin
      have hfuel : (l.refilled ls).ls.stream.bufend-(l.refilled ls).ls.stream.nextFrame <
          ls.stream.bufend+1 :=
        Nat.lt_succ_of_le (Nat.sub_le _ _)
      simpa using madLoop_iff hinv hfuel r

/-- Nothing that could make the assertion of Layer III fail is given to the library. -/
def Unexposed (l : Lm) (io : Io) (pl : PlState) : Prop :=
  libmadReady pl l.ls io = true → (libmadInput l.ls io).1 = .cont →
    exposed (libmadInput l.ls io).2.1.buffer (libmadInput l.ls io).2.1.stream.bufend = false

theorem call_returns (h : Host) (codec : Nat → Codec) {pl : PlState} {l : Lm} {io : Io}
    (hk : l.Kept) (hsafe : Unexposed l io pl) : ∃ r, CallReturns h codec pl l io r := by
  cases hready : libmadReady pl l.ls io with
  | false => exact ⟨_,.idle hready⟩
  | true =>
    have hflow := libmadInput_flow l.ls io
    have hsafe' := hsafe hready
    rcases hin : libmadInput l.ls io with ⟨flow,ls,io1⟩
    rw [hin] at hflow hsafe'
    obtain rfl | rfl := hflow
    · exact ⟨_,.stop hready hin⟩
    · have hends : ∃ r, LoopEnds h codec (l.refilled ls) io1 r :=
        loop_ends (refilled_inv hk hin) (hsafe' rfl)
      obtain ⟨r,hr⟩ := hends
      exact ⟨r,.decode hready hin hr⟩

/-- The samples that a call hands to the sound ring. -/
def loopHanded (pl : PlState) (its : List MadIter) (ls : Ls) (io : Io) : List Pcm :=
  if libmadReady pl ls io then
    match libmadInput ls io with
    | (.cont,ls,io) => handed its ls io
    | _ => []
  else []

theorem carryOver_withSkip (ls : Ls) (k : Nat) :
    carryOver (ls.withSkip k) = (carryOver ls).withSkip k := by
  unfold carryOver
  have hremain : (ls.withSkip k).remain = ls.remain := rfl
  rw [hremain]
  split <;> rfl

theorem libmadInput_withSkip (ls : Ls) (k : Nat) (io : Io) :
    libmadInput (ls.withSkip k) io =
      ((libmadInput ls io).1,(libmadInput ls io).2.1.withSkip k,(libmadInput ls io).2.2) := by
  by_cases hlt : io.i.tail < io.i.head
  · rw [libmadInput_some hlt,libmadInput_some hlt,carryOver_withSkip]
    have hremain : (((carryOver ls).withSkip k).pop io.front).remain =
        ((carryOver ls).pop io.front).remain := rfl
    unfold appendInput
    simp only [hremain]
    split_ifs <;> rfl
  · rw [libmadInput_none hlt,libmadInput_none hlt,carryOver_withSkip]

/-- A call of the decoder with an arbitrary library that does the same. -/
structure CallSim (h : Host) (pl : PlState) (l : Lm) (io : Io) (r : Lm × Io) (its : List MadIter) :
    Prop where
  call : ∀ k, ∃ k', libmadLoop pl its (l.ls.withSkip k) io = (r.1.ls.withSkip k',r.2)
  kept : r.1.Kept
  plays : ∀ k, l.Plays h r.1 (loopHanded pl its (l.ls.withSkip k) io)

theorem CallReturns.sim {h : Host} {codec : Nat → Codec} {pl : PlState} {l : Lm} {io : Io}
    {r : Lm × Io} (hr : CallReturns h codec pl l io r) (hk : l.Kept) :
    ∃ its, CallSim h pl l io r its := by
  have hready : ∀ k, libmadReady pl (l.ls.withSkip k) io = libmadReady pl l.ls io := fun _ => rfl
  cases hr with
  | idle ready =>
    refine ⟨[],fun k => ⟨k,?_⟩,hk,fun k => ?_⟩
    · rw [libmadLoop_idle ((hready k).trans ready)]
    · simpa [loopHanded,hready,ready] using Lm.Plays.none rfl rfl
  | stop ready input =>
    rename_i ls io'
    refine ⟨[],fun k => ⟨k,?_⟩,⟨hk.rate,hk.short⟩,fun k => ?_⟩
    · rw [libmadLoop_stop ((hready k).trans ready) (by rw [libmadInput_withSkip,input]),
        libmadInput_withSkip,input]
    · have hplays : l.Plays h { l with ls := ls } [] := .none rfl rfl
      simpa [loopHanded,hready,ready,libmadInput_withSkip,input] using hplays
  | decode ready input ends =>
    rename_i ls io'
    obtain ⟨its,hsim⟩ := ends.sim (refilled_inv hk input)
    refine ⟨its,fun k => ?_,hsim.kept,fun k => ?_⟩
    · obtain ⟨k1,hrun⟩ := hsim.turns
      obtain ⟨k2,hskip⟩ := madFrames_withSkip its ls k io'
      have hrun' : madFrames its ls io' = (r.1.ls.withSkip k1,r.2) := hrun
      refine ⟨k2,?_⟩
      rw [libmadLoop_cont ((hready k).trans ready) (by rw [libmadInput_withSkip,input]),
        libmadInput_withSkip,input]
      simp only
      rw [hskip,hrun']
      rfl
    · have hhanded : loopHanded pl its (l.ls.withSkip k) io = handed its ls io' := by
        simp [loopHanded,hready,ready,libmadInput_withSkip,input,handed_withSkip]
      rw [hhanded]
      exact ⟨hsim.plays.sound,fun ps hs => hsim.plays.after ps ⟨hs.timer,hs.frames⟩⟩

/-! Runs. -/

structure Decoder where
  lm : Lm
  io : Io

inductive DecoderOp where
  | queue : Input → DecoderOp
  | loop : PlState → (Nat → Codec) → DecoderOp
  | play : DecoderOp

/-- A source fills a slot if one is free. -/
def queued (io : Io) (b : Input) : Io :=
  if iFree io ≠ 0 then setInput (iPush io).2 (iPush io).1 b else io

theorem feedStep_queue (s : Feed) (b : Input) :
    feedStep s (.queue b) = some { s with io := queued s.io b } := by
  simp only [feedStep,queued]
  split <;> rfl

/-- A call that fails its assertion does not return. -/
def decoderStep (h : Host) (s : Decoder) : DecoderOp → Option Decoder
  | .queue b => some { s with io := queued s.io b }
  | .loop pl codec => (decoderLoop h codec pl s.lm s.io).map fun r => ⟨r.1,r.2⟩
  | .play => some { s with io := (oPop s.io).2 }

/-- After `libmad_init`; the memory of the reservoir is not set. -/
def decoderStart (io : Io) (mainData : Mem) : Decoder where
  lm := ⟨libmadInit,false,false,0,madBitInit 0,madHeaderInit,⟨mainData,0⟩,madTimerZero,0⟩
  io := ioInit io

/-- The decoder with an arbitrary library; `pcms` is history, the samples it has handed
to the sound ring. -/
structure Played where
  feed : Feed
  pcms : List Pcm

def playedStep (s : Played) (op : FeedOp) : Option Played :=
  (feedStep s.feed op).map fun feed =>
    match op with
    | .loop pl its => ⟨feed,s.pcms ++ loopHanded pl its s.feed.ls s.feed.io⟩
    | _ => ⟨feed,s.pcms⟩

/-- The same call, whatever the library does in it. -/
inductive SameCall : DecoderOp → FeedOp → Prop where
  | queue (b : Input) : SameCall (.queue b) (.queue b)
  | loop (pl : PlState) (codec : Nat → Codec) (its : List MadIter) :
      SameCall (.loop pl codec) (.loop pl its)
  | play : SameCall .play .play

structure Follows (h : Host) (s : Decoder) (t : Played) : Prop where
  ls : ∃ k, t.feed.ls = s.lm.ls.withSkip k
  io : t.feed.io = s.io
  kept : s.lm.Kept
  sound : ∀ pcm ∈ t.pcms, pcm.Sound
  shown : s.lm.Shows h t.pcms

theorem Follows.step {h : Host} (s : Decoder) (op : DecoderOp) (s' : Decoder) (t : Played)
    (hf : Follows h s t) (hs : decoderStep h s op = some s') :
    ∃ op' t', SameCall op op' ∧ playedStep t op' = some t' ∧ Follows h s' t' := by
  obtain ⟨⟨ls,_⟩,pcms⟩ := t
  obtain ⟨⟨k,rfl⟩,rfl,hkept,hsound,hshown⟩ := hf
  cases op with
  | queue b =>
    cases hs
    refine ⟨_,⟨⟨s.lm.ls.withSkip k,queued s.io b⟩,pcms⟩,.queue b,?_,⟨k,rfl⟩,rfl,hkept,hsound,hshown⟩
    rw [playedStep,feedStep_queue,Option.map_some]
  | loop pl codec =>
    obtain ⟨r,hr,rfl⟩ := Option.map_eq_some_iff.mp hs
    obtain ⟨its,hsim⟩ := ((decoderLoop_iff hkept r).mp hr).sim hkept
    obtain ⟨k',hcall⟩ := hsim.call k
    have hplays := hsim.plays k
    refine ⟨_,_,.loop pl codec its,rfl,⟨k',?_⟩,?_,hsim.kept,?_,hplays.after pcms hshown⟩
    · exact congrArg Prod.fst hcall
    · exact congrArg Prod.snd hcall
    · exact fun pcm hp => (List.mem_append.mp hp).elim (hsound pcm) (hplays.sound pcm)
  | play =>
    cases hs
    exact ⟨_,_,.play,rfl,⟨k,rfl⟩,rfl,hkept,hsound,hshown⟩

theorem decoderStart_follows (h : Host) (io : Io) (mainData : Mem) :
    Follows h (decoderStart io mainData) ⟨feedStart io,[]⟩ := by
  have htimer : madTimerZero = .ofUnits h 0 := by cases h <;> rfl
  have hframes : 0 = h.long 0 := by cases h <;> rfl
  exact ⟨⟨0,rfl⟩,rfl,⟨.inl rfl,Nat.zero_le _⟩,by simp,htimer,hframes⟩

/-- Every run of the decoder is one of the decoder with an arbitrary library, and the time
it shows is what the samples last that it has handed to the sound ring, in a `long`. -/
theorem decoderRun_follows (h : Host) (io : Io) (mainData : Mem) (ops : List DecoderOp)
    {s : Decoder} (hs : run (decoderStep h) (decoderStart io mainData) ops = some s) :
    ∃ ops' t, List.Forall₂ SameCall ops ops' ∧ run playedStep ⟨feedStart io,[]⟩ ops' = some t ∧
      Follows h s t :=
  run_follows Follows.step ops (decoderStart_follows h io mainData) hs

/-- A codec that finds no error and gives no samples. -/
def quietCodec : Codec where
  nomem := false
  layer12 := fun _ _ _ => .none
  iiiDecode := fun _ _ _ => .none
  left := []
  right := []
  layer12_recoverable := fun _ _ _ h => absurd rfl h
  iiiDecode_recoverable := fun _ _ _ h => absurd rfl h

/-- A frame of 24 bytes, 8 kbit/s at 24 kHz. -/
def quietFrame : List UInt8 := [0xff,0xf3,0x14,0xc0] ++ List.replicate 20 0

/-- Three such frames are queued and decoded, and a buffer is played. -/
def quietRun : List DecoderOp :=
  [.queue ⟨quietFrame ++ quietFrame ++ quietFrame,ioInputBufferSize,72⟩,
    .loop .playing fun _ => quietCodec,.play]

theorem decoderRun_follows_quiet :
    ∃ s, run (decoderStep .stm32) (decoderStart Io.zero fun _ => 0) quietRun = some s ∧
      ∃ ops' t, List.Forall₂ SameCall quietRun ops' ∧
        run playedStep ⟨feedStart Io.zero,[]⟩ ops' = some t ∧
        Follows .stm32 s t := by
  have hsome : (run (decoderStep .stm32) (decoderStart Io.zero fun _ => 0) quietRun).isSome =
      true := by decide +kernel
  obtain ⟨s,hs⟩ := Option.isSome_iff_exists.mp hsome
  exact ⟨s,hs,decoderRun_follows .stm32 Io.zero (fun _ => 0) quietRun hs⟩

example : ((run (decoderStep .stm32) (decoderStart Io.zero fun _ => 0) quietRun).map fun s =>
    (s.lm.frames,s.lm.timer)) = some (2,⟨0,16934400⟩) := by decide +kernel

/-- As long as they fit a `long`, the time is exact and all frames are counted. -/
theorem Follows.exact {h : Host} {s : Decoder} {t : Played} (hf : Follows h s t) :
    ((t.pcms.map Pcm.units).sum < 2^(h.longBits-1)*madTimerResolution →
        s.lm.timer.units = (t.pcms.map Pcm.units).sum) ∧
      (t.pcms.length < 2^(h.longBits-1) → s.lm.frames = t.pcms.length) :=
  ⟨fun hfits => by rw [hf.shown.timer,MadTimer.ofUnits_units h hfits],
    fun hfits => by rw [hf.shown.frames,Host.long_eq h hfits]⟩

/-- The calls that present no exposed window. -/
def Sheltered (s : Decoder) : DecoderOp → Prop
  | .loop pl _ => Unexposed s.lm s.io pl
  | _ => True

instance (l : Lm) (io : Io) (pl : PlState) : Decidable (Unexposed l io pl) :=
  inferInstanceAs (Decidable (_ → _ → _))

instance (s : Decoder) : (op : DecoderOp) → Decidable (Sheltered s op)
  | .loop pl _ => inferInstanceAs (Decidable (Unexposed s.lm s.io pl))
  | .queue _ => isTrue trivial
  | .play => isTrue trivial

/-- A run that never presents an exposed window goes on, and in every state that a run has
reached, such windows before or not, the next call returns if its own is not exposed. -/
theorem decoderRun_returns (h : Host) (io : Io) (mainData : Mem) (ops : List DecoderOp) :
    (Guarded (decoderStep h) Sheltered (decoderStart io mainData) ops →
        ∃ s, run (decoderStep h) (decoderStart io mainData) ops = some s) ∧
      ∀ s, run (decoderStep h) (decoderStart io mainData) ops = some s →
        ∀ pl codec, Unexposed s.lm s.io pl → ∃ r, CallReturns h codec pl s.lm s.io r := by
  constructor
  · intro hsafe
    have hstep : ∀ (s : Decoder) (op : DecoderOp), s.lm.Kept → Sheltered s op →
        ∃ t, decoderStep h s op = some t ∧ t.lm.Kept := by
      intro s op hk hok
      cases op with
      | queue b => exact ⟨_,rfl,hk⟩
      | loop pl codec =>
        obtain ⟨r,hr⟩ := call_returns h codec hk hok
        obtain ⟨its,hsim⟩ := hr.sim hk
        exact ⟨⟨r.1,r.2⟩,by simp [decoderStep,(decoderLoop_iff hk r).mpr hr],hsim.kept⟩
      | play => exact ⟨_,rfl,hk⟩
    obtain ⟨s,hs,-⟩ := run_of_guarded hstep ops (decoderStart io mainData)
      ⟨.inl rfl,Nat.zero_le _⟩ hsafe
    exact ⟨s,hs⟩
  · intro s hs pl codec hexp
    obtain ⟨-,t,-,-,hf⟩ := run_follows Follows.step ops (decoderStart_follows h io mainData) hs
    exact call_returns h codec hf.kept hexp

theorem decoderRun_returns_quiet :
    Guarded (decoderStep .stm32) Sheltered (decoderStart Io.zero fun _ => 0) quietRun ∧
      ∃ s, run (decoderStep .stm32) (decoderStart Io.zero fun _ => 0) quietRun = some s ∧
        ∀ pl codec, Unexposed s.lm s.io pl → ∃ r, CallReturns .stm32 codec pl s.lm s.io r := by
  have hsafe : Guarded (decoderStep .stm32) Sheltered
      (decoderStart Io.zero fun _ => 0) quietRun := by
    decide +kernel
  obtain ⟨hgoes,hreturns⟩ := decoderRun_returns .stm32 Io.zero (fun _ => 0) quietRun
  obtain ⟨s,hs⟩ := hgoes hsafe
  exact ⟨hsafe,s,hs,hreturns s hs⟩

end Mardio
