import Mardio.Samples
import Mardio.SoundFormat

/-!
How many samples of the popped buffer each sink makes its device read: frames of
all channels on Linux, half-words of the transfer on the board.
-/

set_option autoImplicit false

namespace Mardio

/-- What one `host_snd_poll` passes to `snd_pcm_writei`: the slot and the frames. -/
def writeiCall (io : Io) : Option (Fin maxOutputBuffers × Nat) :=
  (oPop io).1.bind fun p =>
    let buff := io.output p
    if buff.Bogus then none else some (p,buff.used/(buff.channels*2))

/-- What one `host_snd_poll` of the board passes to `ProvideAudioBuffer`. -/
def provideCall (s : Stm) : Option Held :=
  (oPop s.io).1.bind fun p =>
    let buff := s.io.output p
    if buff.Bogus then none
    else
      let s := if buff.rate ≠ s.rate ∨ buff.channels ≠ s.channels then
        audioSetup buff.rate buff.channels s else s
      if s.state = .error then none else some ⟨p,buff.used/buff.channels,s.serial p⟩

/-- A frame is one sample of every channel the device was set up for. -/
def linuxSamples (io : Io) : Option Nat :=
  (writeiCall io).map fun c => c.2*(io.output c.1).channels

def stmSamples (s : Stm) : Option Nat := (provideCall s).map Held.samples

theorem writeiCall_write (volume : Nat) (o : SndWrite) (ss : Ss) (io : Io) :
    (hostSndPollCalls volume o ss io).2.filter SndCall.isWrite =
      ((writeiCall io).map fun c =>
        SndCall.write ((io.output c.1).rate,(io.output c.1).channels)).toList := by
  have hout : (oPop io).2.output = io.output := rfl
  rw [hostSndPollCalls,writeiCall]
  generalize oPop io = r at hout
  obtain ⟨p,io'⟩ := r
  cases p with
  | none => rfl
  | some p =>
    simp only [hostSndPlayCalls,Option.bind_some,show io'.output = io.output from hout]
    by_cases hbogus : (io.output p).Bogus
    · simp [if_pos hbogus]
    · simp only [if_neg hbogus]
      split <;> simp [SndCall.isWrite]

/-- The buffer is queued, being transferred, or the call still waits with it. -/
def Stm.Given (h : Held) (s : Stm) : Prop :=
  s.waiting = some h ∨ s.dma.next = some h ∨ s.dma.stream = some h

theorem stmProvide_given (h : Held) (s : Stm) : (stmProvide h s).Given h := by
  rw [stmProvide]
  split
  · exact .inl rfl
  · simp only [Stm.Given,provideAudioBuffer]
    split
    · exact .inr (.inr rfl)
    · exact .inr (.inl rfl)

/-- A new format changes neither the state nor the history, whether it is set up or not. -/
theorem ifSetup_keeps (p : Prop) [Decidable p] (rate : SoundRate) (channels : Nat) (s : Stm) :
    (if p then audioSetup rate channels s else s).state = s.state ∧
      (if p then audioSetup rate channels s else s).serial = s.serial := by
  split
  · refine ⟨audioSetup_state rate channels s,?_⟩
    rw [audioSetup]
    split <;> rfl
  · exact ⟨rfl,rfl⟩

theorem provideCall_eq {s : Stm} {p : Fin maxOutputBuffers} (hp : (oPop s.io).1 = some p)
    (hb : ¬ (s.io.output p).Bogus) (hs : s.state ≠ .error) :
    provideCall s =
      some ⟨p,(s.io.output p).used/(s.io.output p).channels,s.serial p⟩ := by
  rw [provideCall,hp,Option.bind_some]
  simp only [if_neg hb,ifSetup_keeps,if_neg hs]

theorem provideCall_error {s : Stm} (hs : s.state = .error) : provideCall s = none := by
  rw [provideCall]
  cases (oPop s.io).1 with
  | none => rfl
  | some p =>
    simp only [Option.bind_some,ifSetup_keeps,if_pos hs]
    split <;> rfl

/-- The driver is given exactly this buffer and length, now or when a waiting call
goes on. -/
theorem stmSndPoll_given {s : Stm} {p : Fin maxOutputBuffers} (hp : (oPop s.io).1 = some p)
    (hb : ¬ (s.io.output p).Bogus) (hs : s.state ≠ .error) (volume : Nat) :
    ∃ h, provideCall s = some h ∧ (stmSndPoll volume s).Given h := by
  refine ⟨_,provideCall_eq hp hb hs,?_⟩
  have hpop : oPop s.io = (some p,(oPop s.io).2) := Prod.ext hp rfl
  have hout : (oPop s.io).2.output = s.io.output := rfl
  rw [stmSndPoll,hpop]
  simp only [stmPlay,hout,if_neg hb,ifSetup_keeps,if_neg hs]
  exact stmProvide_given _ _

/-- A buffer as the decoder and the wave file reader fill them. -/
structure Output.Playable (buff : Output) : Prop where
  frame : ¬ buff.Bogus
  channels : buff.channels = 1 ∨ buff.channels = 2
  fits : buff.used ≤ buff.size
  whole : 2*buff.channels ∣ buff.used

def NextOut (io : Io) (buff : Output) : Prop := ∃ p, (oPop io).1 = some p ∧ io.output p = buff

theorem linuxSamples_eq {io : Io} {buff : Output} (hn : NextOut io buff) (hb : buff.Playable) :
    linuxSamples io = some (buff.used/2) := by
  obtain ⟨p,hp,rfl⟩ := hn
  have hframes : (io.output p).used/((io.output p).channels*2)*(io.output p).channels =
      (io.output p).used/2 := by
    obtain ⟨k,hk⟩ := hb.whole
    cases hb.channels with
    | inl hc => rw [hc] at hk ⊢; omega
    | inr hc => rw [hc] at hk ⊢; omega
  rw [linuxSamples,writeiCall,hp,Option.bind_some]
  simp only [if_neg hb.frame,Option.map_some,hframes]

theorem stmSamples_eq {s : Stm} {buff : Output} (hn : NextOut s.io buff) (hb : buff.Playable)
    (hs : s.state ≠ .error) : stmSamples s = some (buff.used/buff.channels) := by
  obtain ⟨p,hp,rfl⟩ := hn
  rw [stmSamples,provideCall_eq hp hb.frame hs]
  rfl

theorem packedBuffer_playable {pcm : Pcm} (hp : pcm.Legal)
    (hr : sndFreq2rate pcm.samplerate ≠ .unknown) : (packedBuffer pcm).Playable := by
  obtain ⟨hused,hfits⟩ := packedBuffer_used hp
  obtain ⟨_,hlo,hhi⟩ := hp
  have hc : (packedBuffer pcm).channels = pcm.channels := rfl
  refine ⟨?_,by omega,hfits,?_⟩
  · rintro (h | h | h)
    · exact hr h
    · omega
    · cases h
  · exact ⟨pcm.length,by rw [hused,hc]; ring⟩

/-- The ring after the decoder has put one block into an empty one. -/
def oneBlock (pcm : Pcm) : Io := (libmadOutput pcm libmadInit (ioInit Io.zero)).2

theorem oneBlock_next (pcm : Pcm) (hp : pcm.Legal) : NextOut (oneBlock pcm) (packedBuffer pcm) := by
  rw [oneBlock,libmadOutput_eq pcm hp]
  exact ⟨0,by rfl,by rfl⟩

/-- The board as it starts, with these rings. -/
def stmWith (io : Io) : Stm := { stmStart Io.zero with io := io }

/-- Both devices read the samples of the buffer, all of them and no more. -/
structure SinksPlay (buff : Output) (io : Io) (s : Stm) : Prop where
  linux : linuxSamples io = some (buff.used/2)
  stm32 : stmSamples s = some (buff.used/2)

theorem sinksPlay_iff {buff : Output} (hb : buff.Playable) {io : Io} (hio : NextOut io buff)
    {s : Stm} (hs : NextOut s.io buff) :
    SinksPlay buff io s ↔ s.state ≠ .error ∧ (buff.channels = 2 ∨ buff.used = 0) := by
  have hlinux := linuxSamples_eq hio hb
  obtain ⟨k,hk⟩ := hb.whole
  constructor
  · intro h
    have hstate : s.state ≠ .error := by
      intro he
      have hnone := h.stm32
      rw [stmSamples,provideCall_error he] at hnone
      cases hnone
    have heq := Option.some.inj ((stmSamples_eq hs hb hstate).symm.trans h.stm32)
    refine ⟨hstate,?_⟩
    cases hb.channels with
    | inl hc =>
      rw [hc] at heq hk
      omega
    | inr hc => exact .inl hc
  · rintro ⟨hstate,h⟩
    refine ⟨hlinux,(stmSamples_eq hs hb hstate).trans (congrArg some ?_)⟩
    cases h with
    | inl hc => rw [hc]
    | inr h0 => rw [h0,Nat.zero_div,Nat.zero_div]

/-- One row of a stereo block. -/
theorem sinksPlay_stereo :
    SinksPlay (packedBuffer ⟨44100,2,1,[0],[0]⟩) (oneBlock ⟨44100,2,1,[0],[0]⟩)
      (stmWith (oneBlock ⟨44100,2,1,[0],[0]⟩)) := by
  have hb : (packedBuffer ⟨44100,2,1,[0],[0]⟩).Playable :=
    packedBuffer_playable (by decide) (by decide)
  have hn := oneBlock_next ⟨44100,2,1,[0],[0]⟩ (by decide)
  have hs : (stmWith (oneBlock ⟨44100,2,1,[0],[0]⟩)).state ≠ .error := by decide
  exact (sinksPlay_iff hb hn hn).mpr ⟨hs,.inl rfl⟩

/-- One row of a mono block is two bytes: one sample, but two half-words on the board. -/
theorem sinksPlay_mono :
    (packedBuffer ⟨44100,1,1,[0],[]⟩).Playable ∧
      linuxSamples (oneBlock ⟨44100,1,1,[0],[]⟩) = some 1 ∧
      stmSamples (stmWith (oneBlock ⟨44100,1,1,[0],[]⟩)) = some 2 ∧
      ¬ SinksPlay (packedBuffer ⟨44100,1,1,[0],[]⟩) (oneBlock ⟨44100,1,1,[0],[]⟩)
        (stmWith (oneBlock ⟨44100,1,1,[0],[]⟩)) := by
  have hb : (packedBuffer ⟨44100,1,1,[0],[]⟩).Playable :=
    packedBuffer_playable (by decide) (by decide)
  have hn := oneBlock_next ⟨44100,1,1,[0],[]⟩ (by decide)
  have hs : (stmWith (oneBlock ⟨44100,1,1,[0],[]⟩)).state ≠ .error := by decide
  have hstm : stmSamples (stmWith (oneBlock ⟨44100,1,1,[0],[]⟩)) = some 2 := stmSamples_eq hn hb hs
  refine ⟨hb,linuxSamples_eq hn hb,hstm,fun h => ?_⟩
  have htwo : (2:Nat) = (packedBuffer ⟨44100,1,1,[0],[]⟩).used/2 :=
    Option.some.inj (hstm.symm.trans h.stm32)
  exact absurd htwo (by decide)

end Mardio
