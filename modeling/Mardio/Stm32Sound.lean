import Mardio.Lib.Runs
import Mardio.Libmad

/-!
The sound device of the STM32 board: the main loop hands output slots to a DMA
transfer that reads them later. Interrupts fall between any two steps of the main
loop.
-/

set_option autoImplicit false

namespace Mardio
open CounterRing Runs

/-- A slot given to the audio driver. `serial` is history: the number of the push
that filled it. -/
structure Held where
  slot : Fin maxOutputBuffers
  samples : Nat
  serial : Nat
  deriving DecidableEq, Repr

/-- `NextBufferSamples`, `DMARunning` and the transfer in progress. -/
structure Dma where
  next : Option Held
  running : Bool
  stream : Option Held
  deriving DecidableEq, Repr

def startAudioDma (d : Dma) : Dma := ⟨none,true,d.next⟩

def provideAudioBuffer (h : Held) (d : Dma) : Dma :=
  let d := { d with next := some h }
  if d.running = false then startAudioDma d else d

def dmaIrqHandler (d : Dma) : Dma :=
  if d.next.isSome then startAudioDma d else { d with running := false, stream := none }

/-- Forgets the queued buffer; the transfer in progress is not stopped. -/
def initializeAudio (d : Dma) : Dma := { d with next := none, running := false }

/-- `waiting` is the slot a blocked `ProvideAudioBuffer` was called with, `decoding`
tells that `libmad_loop` has passed its space test and is still in its loop.
`count`, `serial` and `clobbered` are history: the pushes made, the last push that
returned each slot, and whether a push has returned a slot the DMA still had. -/
structure Stm where
  io : Io
  state : SoundState
  rate : SoundRate
  channels : Nat
  dma : Dma
  waiting : Option Held
  decoding : Bool
  count : Nat
  serial : Fin maxOutputBuffers → Nat
  clobbered : Bool

def audioSupported : SoundRate → Bool
  | .hz8000 | .hz16000 | .hz22050 | .hz32000 | .hz44100 | .hz48000 => true
  | _ => false

def audioSetup (rate : SoundRate) (channels : Nat) (s : Stm) : Stm :=
  if audioSupported rate then
    { s with rate := rate, channels := channels, dma := initializeAudio s.dma }
  else s

def Dma.holds (d : Dma) (p : Fin maxOutputBuffers) : Bool :=
  d.next.any (fun h => h.slot == p) || d.stream.any (fun h => h.slot == p)

def stmPush (b : Output) (s : Stm) : Stm :=
  let r := oPush s.io
  { s with
    io := setOutput r.2 r.1 b
    count := s.count+1
    serial := Function.update s.serial r.1 s.count
    clobbered := s.clobbered || s.dma.holds r.1 }

/-- The end of `host_snd_poll`: the call blocks while a buffer is queued. -/
def stmProvide (h : Held) (s : Stm) : Stm :=
  if s.dma.next.isSome then { s with waiting := some h }
  else { s with dma := provideAudioBuffer h s.dma, waiting := none, state := .playing }

def stmPlay (volume : Nat) (p : Fin maxOutputBuffers) (s : Stm) : Stm :=
  let buff := s.io.output p
  if buff.rate = .unknown ∨ buff.channels = 0 ∨ buff.size = 0 then s
  else
    let s := if buff.rate ≠ s.rate ∨ buff.channels ≠ s.channels then
      audioSetup buff.rate buff.channels s else s
    if s.state = .error then s
    else stmProvide ⟨p,buff.used/buff.channels,s.serial p⟩ { s with
      io := setOutput s.io p { buff with data := pcmApplyVolume buff.data (buff.used/2) volume } }

def stmSndPoll (volume : Nat) (s : Stm) : Stm :=
  match oPop s.io with
  | (none,io) => { s with io := io, state := .error }
  | (some p,io) => stmPlay volume p { s with io := io }

def stmSndTurn (volume : Nat) (s : Stm) : Stm :=
  if s.state = .error then s
  else if oUsed s.io = 0 then
    if s.state = .playing then { s with state := .pause } else s
  else stmSndPoll volume s

def Stm.idle (s : Stm) : Bool := s.waiting.isNone && !s.decoding

inductive StmOp where
  | riffPush (b : Output)
  | madEnter
  | madPush (b : Output)
  | madLeave
  | sndTurn (volume : Nat)
  | resume
  | irq

/-- A step that is not possible in a state leaves it alone. -/
def stmStep (s : Stm) : StmOp → Option Stm
  | .riffPush b => some (if s.idle = true ∧ oFree s.io ≠ 0 then stmPush b s else s)
  | .madEnter =>
      some (if s.idle = true ∧ decompressSize ≤ (oFreeSize s.io).toNat then
        { s with decoding := true } else s)
  | .madPush b => some (if s.waiting = none ∧ s.decoding = true then stmPush b s else s)
  | .madLeave => some { s with decoding := false }
  | .sndTurn volume => some (if s.idle = true then stmSndTurn volume s else s)
  | .resume =>
      some (match s.waiting with
        | some h => stmProvide h s
        | none => s)
  | .irq => some (if s.dma.stream.isSome then { s with dma := dmaIrqHandler s.dma } else s)

def stmStart (io : Io) : Stm :=
  ⟨ioInit io,.init,.hz44100,2,⟨none,false,none⟩,none,false,0,fun _ => 0,false⟩

def Pushes (s : Stm) : StmOp → Prop
  | .riffPush _ => s.idle = true ∧ oFree s.io ≠ 0
  | .madPush _ => s.waiting = none ∧ s.decoding = true
  | _ => False

/-- A buffer the DMA holds was followed by at most two pushes when another one is
made. -/
def Settled (s : Stm) (op : StmOp) : Prop :=
  Pushes s op → ∀ h : Held, s.dma.next = some h ∨ s.dma.stream = some h → s.count-(h.serial+1) ≤ 2

/-- A slot's last push is one of the last four and names the slot. -/
def Recent (count : Nat) (p : Fin maxOutputBuffers) (serial : Nat) : Prop :=
  serial < count ∧ count ≤ serial+maxOutputBuffers ∧ slotOf maxOutputBuffers serial = p

structure StmInv (s : Stm) : Prop where
  head : s.io.o.head.toNat = s.count % 2^32
  serials : ∀ p : Fin maxOutputBuffers, p.val < s.count → Recent s.count p (s.serial p)
  next : ∀ h, s.dma.next = some h → Recent s.count h.slot h.serial
  stream : ∀ h, s.dma.stream = some h → Recent s.count h.slot h.serial
  waiting : ∀ h, s.waiting = some h → Recent s.count h.slot h.serial
  owned : s.clobbered = false

theorem stmStart_inv (io : Io) : StmInv (stmStart io) := by
  refine ⟨rfl,?_,?_,?_,?_,rfl⟩
  · intro p hp
    cases hp
  all_goals
    intro h hh
    cases hh

theorem StmInv.slot {s : Stm} (h : StmInv s) :
    (oPush s.io).1 = slotOf maxOutputBuffers s.count := by
  rw [oPush_slot,h.head,slotOf_wrap maxOutputBuffers_dvd]

theorem Recent.push {count : Nat} {p : Fin maxOutputBuffers} {k : Nat} (h : Recent count p k)
    (hk : count ≤ k+3) : Recent (count+1) p k := by
  obtain ⟨hlt,_,hs⟩ := h
  have hm : maxOutputBuffers = 4 := rfl
  exact ⟨by omega,by omega,hs⟩

theorem Recent.overwritten {count : Nat} {p : Fin maxOutputBuffers} {k : Nat} (h : Recent count p k)
    (hk : ¬ count ≤ k+3) : slotOf maxOutputBuffers count = p := by
  obtain ⟨_,hle,hs⟩ := h
  have hm : maxOutputBuffers = 4 := rfl
  have he : count = k+4 := by omega
  rw [← hs,slotOf_eq_iff,he,hm]
  omega

theorem Recent.distinct {count : Nat} {p : Fin maxOutputBuffers} {k : Nat} (h : Recent count p k)
    (hp : p ≠ slotOf maxOutputBuffers count) : count ≤ k+3 := by
  by_contra hk
  exact hp (h.overwritten hk).symm

theorem oPush_head (io : Io) : (oPush io).2.o.head = io.o.head+1 := by
  simp only [oPush,pushSlot,ioPush]
  split <;> rfl

theorem stmPush_inv {s : Stm} (h : StmInv s) (b : Output) (hw : s.waiting = none)
    (hs : ∀ k : Held, s.dma.next = some k ∨ s.dma.stream = some k → s.count-(k.serial+1) ≤ 2) :
    StmInv (stmPush b s) := by
  have hslot := h.slot
  have hlate : ∀ k : Held, s.dma.next = some k ∨ s.dma.stream = some k →
      Recent s.count k.slot k.serial → Recent (s.count+1) k.slot k.serial := by
    intro k hk hr
    have hle := hs k hk
    exact hr.push (by omega)
  have hfree : ∀ k : Held, s.dma.next = some k ∨ s.dma.stream = some k →
      k.slot ≠ slotOf maxOutputBuffers s.count := by
    intro k hk heq
    have hr := hk.elim (h.next k) (h.stream k)
    have hle := hs k hk
    obtain ⟨hlt,_,hsl⟩ := hr
    have hm : maxOutputBuffers = 4 := rfl
    rw [← hsl,slotOf_eq_iff,hm] at heq
    omega
  refine ⟨?_,?_,?_,?_,?_,?_⟩
  · have hh := h.head
    simp only [stmPush,setOutput,oPush_head,toNat_succ]
    omega
  · intro p hp
    simp only [stmPush] at hp ⊢
    by_cases hq : p = slotOf maxOutputBuffers s.count
    · rw [hslot,hq,Function.update_self]
      exact ⟨by omega,by omega,rfl⟩
    · rw [hslot,Function.update_of_ne hq]
      have hlt : p.val < s.count := by
        have hne : p.val ≠ s.count := by
          intro hc
          exact hq (by rw [← hc,slotOf,Fin.ofNat_val_eq_self])
        omega
      have hr := h.serials p hlt
      exact hr.push (hr.distinct hq)
  · exact fun k hk => hlate k (.inl hk) (h.next k hk)
  · exact fun k hk => hlate k (.inr hk) (h.stream k hk)
  · intro k hk
    simp only [stmPush,hw] at hk
    cases hk
  · have ho := h.owned
    have hnh : s.dma.holds (oPush s.io).1 = false := by
      rw [hslot]
      simp only [Dma.holds,Bool.or_eq_false_iff]
      constructor
      · cases hn : s.dma.next with
        | none => rfl
        | some k => simpa using hfree k (.inl hn)
      · cases hn : s.dma.stream with
        | none => rfl
        | some k => simpa using hfree k (.inr hn)
    simp only [stmPush,ho,hnh,Bool.or_false]

theorem StmInv.setIo {s : Stm} (h : StmInv s) {io : Io} (hio : io.o.head = s.io.o.head) :
    StmInv { s with io := io } :=
  ⟨by simp only [hio]; exact h.head,h.serials,h.next,h.stream,h.waiting,h.owned⟩

theorem StmInv.setState {s : Stm} (h : StmInv s) (st : SoundState) :
    StmInv { s with state := st } :=
  ⟨h.head,h.serials,h.next,h.stream,h.waiting,h.owned⟩

theorem StmInv.setDma {s : Stm} (h : StmInv s) {d : Dma}
    (hd : ∀ k : Held, d.next = some k ∨ d.stream = some k → Recent s.count k.slot k.serial) :
    StmInv { s with dma := d } :=
  ⟨h.head,h.serials,fun k hk => hd k (.inl hk),fun k hk => hd k (.inr hk),h.waiting,h.owned⟩

theorem provideAudioBuffer_holds {k m : Held} {d : Dma}
    (hm : (provideAudioBuffer k d).next = some m ∨ (provideAudioBuffer k d).stream = some m) :
    m = k ∨ d.stream = some m := by
  cases hr : d.running with
  | false =>
    simp [provideAudioBuffer,startAudioDma,hr] at hm
    exact .inl hm.symm
  | true =>
    simp [provideAudioBuffer,hr] at hm
    exact hm.imp_left Eq.symm

theorem stmProvide_inv {s : Stm} (h : StmInv s) {k : Held} (hk : Recent s.count k.slot k.serial) :
    StmInv (stmProvide k s) := by
  unfold stmProvide
  split
  · refine ⟨h.head,h.serials,h.next,h.stream,fun m hm => ?_,h.owned⟩
    cases hm
    exact hk
  · have hd : ∀ m : Held, (provideAudioBuffer k s.dma).next = some m ∨
        (provideAudioBuffer k s.dma).stream = some m → Recent s.count m.slot m.serial := by
      intro m hm
      obtain rfl | hm := provideAudioBuffer_holds hm
      · exact hk
      · exact h.stream m hm
    have h1 := (h.setDma hd).setState .playing
    exact ⟨h1.head,h1.serials,h1.next,h1.stream,fun _ hm => (by cases hm),h1.owned⟩

theorem dmaIrqHandler_inv {s : Stm} (h : StmInv s) :
    StmInv { s with dma := dmaIrqHandler s.dma } := by
  refine h.setDma fun k hk => ?_
  unfold dmaIrqHandler at hk
  split at hk
  · obtain hk | hk := hk
    · cases hk
    · exact h.next k hk
  · obtain hk | hk := hk
    · exact h.next k hk
    · cases hk

theorem audioSetup_inv {s : Stm} (h : StmInv s) (rate : SoundRate) (channels : Nat) :
    StmInv (audioSetup rate channels s) ∧ (audioSetup rate channels s).count = s.count ∧
      (audioSetup rate channels s).serial = s.serial ∧ (audioSetup rate channels s).io = s.io := by
  unfold audioSetup
  split
  · have hd := h.setDma (d := initializeAudio s.dma) (by
      rintro k (hk | hk)
      · cases hk
      · exact h.stream k hk)
    exact ⟨⟨hd.head,hd.serials,hd.next,hd.stream,hd.waiting,hd.owned⟩,rfl,rfl,rfl⟩
  · exact ⟨h,rfl,rfl,rfl⟩

theorem stmPlay_inv {s : Stm} (h : StmInv s) (volume : Nat) {p : Fin maxOutputBuffers}
    (hp : p.val < s.count) : StmInv (stmPlay volume p s) := by
  have hkeep : ∀ t : Stm, StmInv t → t.count = s.count → t.serial = s.serial → t.io = s.io →
      ∀ b n, StmInv (stmProvide ⟨p,n,t.serial p⟩ { t with io := setOutput t.io p b }) := by
    intro t ht hc hs _ b n
    have hr := ht.serials p (by omega)
    exact stmProvide_inv (k := ⟨p,n,t.serial p⟩)
      (ht.setIo (show (setOutput t.io p b).o.head = t.io.o.head from rfl)) hr
  unfold stmPlay
  simp only
  split
  · exact h
  · by_cases hne : (s.io.output p).rate ≠ s.rate ∨ (s.io.output p).channels ≠ s.channels
    · rw [if_pos hne]
      obtain ⟨hi,hc,hs,hio⟩ := audioSetup_inv h (s.io.output p).rate (s.io.output p).channels
      split
      · exact hi
      · exact hkeep _ hi hc hs hio _ _
    · rw [if_neg hne]
      split
      · exact h
      · exact hkeep s h rfl rfl rfl _ _

theorem stmSndPoll_inv {s : Stm} (h : StmInv s) (volume : Nat) : StmInv (stmSndPoll volume s) := by
  unfold stmSndPoll oPop
  by_cases ho : s.io.o.tail < s.io.o.head
  · have hp : (slotOf maxOutputBuffers s.io.o.tail.toNat).val < s.count := by
      have hlt := UInt32.lt_iff_toNat_lt.mp ho
      have hle := Nat.mod_le s.io.o.tail.toNat maxOutputBuffers
      have hle' := Nat.mod_le s.count (2^32)
      rw [h.head] at hlt
      simp only [slotOf,Fin.ofNat]
      omega
    simp only [popSlot_some maxOutputBuffers_lt s.io.o ho]
    have hio : ({ s.io with o := ⟨s.io.o.head,s.io.o.tail+1⟩ } : Io).o.head = s.io.o.head := rfl
    exact stmPlay_inv (h.setIo hio) volume hp
  · simp only [popSlot_none s.io.o ho]
    exact (h.setIo rfl).setState .error

theorem stmStep_inv {s t : Stm} {op : StmOp} (h : StmInv s) (hs : Settled s op)
    (ht : stmStep s op = some t) : StmInv t := by
  cases op with
  | riffPush b =>
    cases ht
    split
    · rename_i hc
      have hw : s.waiting = none := by simpa [Stm.idle] using (Bool.and_eq_true_iff.mp hc.1).1
      exact stmPush_inv h b hw (hs hc)
    · exact h
  | madEnter =>
    cases ht
    split
    · exact ⟨h.head,h.serials,h.next,h.stream,h.waiting,h.owned⟩
    · exact h
  | madPush b =>
    cases ht
    split
    · rename_i hc
      exact stmPush_inv h b hc.1 (hs hc)
    · exact h
  | madLeave =>
    cases ht
    exact ⟨h.head,h.serials,h.next,h.stream,h.waiting,h.owned⟩
  | sndTurn volume =>
    cases ht
    split
    · unfold stmSndTurn
      split
      · exact h
      · split
        · split
          · exact h.setState .pause
          · exact h
        · exact stmSndPoll_inv h volume
    · exact h
  | resume =>
    cases ht
    split
    · rename_i k hk
      exact stmProvide_inv h (h.waiting k hk)
    · exact h
  | irq =>
    cases ht
    split
    · exact dmaIrqHandler_inv h
    · exact h

def Owned (s : Stm) : Prop := s.clobbered = false

instance (s : Stm) : Decidable (Owned s) := inferInstanceAs (Decidable (_ = _))

theorem stmPush_clobbers {s : Stm} (h : StmInv s) (b : Output) {k : Held}
    (hk : s.dma.next = some k ∨ s.dma.stream = some k) (hlate : ¬ s.count-(k.serial+1) ≤ 2) :
    ¬ Owned (stmPush b s) := by
  have hr := hk.elim (h.next k) (h.stream k)
  have hslot : (oPush s.io).1 = k.slot := h.slot.trans (hr.overwritten (by omega))
  have hholds : s.dma.holds (oPush s.io).1 = true := by
    rw [hslot]
    obtain hk | hk := hk <;> simp [Dma.holds,hk]
  intro ho
  simp only [Owned,stmPush,hholds,Bool.or_true] at ho
  cases ho

theorem not_settled {s : Stm} {op : StmOp} (h : ¬ Settled s op) :
    Pushes s op ∧ ∃ k : Held, (s.dma.next = some k ∨ s.dma.stream = some k) ∧
      ¬ s.count-(k.serial+1) ≤ 2 := by
  unfold Settled at h
  push Not at h
  obtain ⟨hp,k,hk,hlate⟩ := h
  exact ⟨hp,k,hk,by omega⟩

/-- The slots in flight are left alone along exactly those runs in which every push
finds each buffer the DMA holds followed by at most two others. -/
theorem stmRun_owned_iff (io : Io) (ops : List StmOp) :
    Always stmStep Owned (stmStart io) ops ↔ Guarded stmStep Settled (stmStart io) ops := by
  refine always_iff_guarded (fun _ h => StmInv.owned h) (fun _ _ _ h hs ht => stmStep_inv h hs ht)
    ?_ ops (stmStart io) (stmStart_inv io)
  intro s op h hn
  obtain ⟨hp,k,hk,hlate⟩ := not_settled hn
  cases op with
  | riffPush b => exact ⟨_,congrArg some (if_pos hp),stmPush_clobbers h b hk hlate⟩
  | madPush b => exact ⟨_,congrArg some (if_pos hp),stmPush_clobbers h b hk hlate⟩
  | _ => exact absurd hp id

/-- Two frames are handed over, and the next call decodes three before the first
transfer has completed. -/
theorem stmRun_clobbered :
    ¬ Always stmStep Owned (stmStart Io.zero)
      (let b : Output := ⟨[],ioOutputBufferSize,2304,.hz44100,2⟩
       [.madEnter,.madPush b,.madPush b,.madLeave,.sndTurn 8,.sndTurn 8,
        .madEnter,.madPush b,.madPush b,.madPush b]) := by
  decide

end Mardio
