import Mardio.LinuxSound
import Mardio.Stm32Sound

/-!
The format of the sound device. Both sinks set the device up when a buffer comes in
another format than the last one, and both go on with the buffer when that fails.
-/

set_option autoImplicit false

namespace Mardio
open Runs

abbrev Format := SoundRate × Nat

/-- A call to the device: a reconfiguration and its result, or samples of a format. -/
inductive SndCall where
  | setup (f : Format) (ok : Bool)
  | write (f : Format)
  deriving DecidableEq, Repr

def SndCall.failed : SndCall → Bool
  | .setup _ ok => !ok
  | .write _ => false

def SndCall.isWrite : SndCall → Bool
  | .setup .. => false
  | .write _ => true

/-- The last successful configuration. -/
def configured : Option Format → List SndCall → Option Format
  | f, [] => f
  | f, .setup g ok :: calls => configured (if ok then some g else f) calls
  | f, .write _ :: calls => configured f calls

def WritesMatch : Option Format → List SndCall → Prop
  | _, [] => True
  | f, .setup g ok :: calls => WritesMatch (if ok then some g else f) calls
  | f, .write g :: calls => f = some g ∧ WritesMatch f calls

instance decidableWritesMatch : (f : Option Format) → (calls : List SndCall) →
    Decidable (WritesMatch f calls)
  | _, [] => .isTrue trivial
  | f, .setup g ok :: calls => decidableWritesMatch (if ok then some g else f) calls
  | f, .write g :: calls =>
      have := decidableWritesMatch f calls
      inferInstanceAs (Decidable (f = some g ∧ WritesMatch f calls))

/-- What one turn of `host_snd_loop` did, and the state it left. -/
structure SndTurn where
  calls : List SndCall
  state : SoundState
  deriving DecidableEq, Repr

def SndTurn.FailureShows (t : SndTurn) : Prop :=
  t.calls.any SndCall.failed = true → t.calls.all (fun c => !c.isWrite) = true ∧ t.state = .error

/-- Samples go to a device set up for them, and a failed set-up stops them and shows. -/
def PlaysMatching (start : Option Format) (turns : List SndTurn) : Prop :=
  WritesMatch start (turns.flatMap SndTurn.calls) ∧ ∀ t ∈ turns, t.FailureShows

instance (t : SndTurn) : Decidable t.FailureShows :=
  inferInstanceAs (Decidable (t.calls.any SndCall.failed = true → _ ∧ _))

instance (start : Option Format) (turns : List SndTurn) : Decidable (PlaysMatching start turns) :=
  inferInstanceAs (Decidable (_ ∧ _))

abbrev Output.Bogus (buff : Output) : Prop :=
  buff.rate = .unknown ∨ buff.channels = 0 ∨ buff.size = 0

/-- The format a poll sets up for this buffer, if it comes to that. -/
def Output.due (f : Format) (buff : Output) : Option Format :=
  if buff.Bogus then none
  else if buff.rate ≠ f.1 ∨ buff.channels ≠ f.2 then some (buff.rate,buff.channels)
  else none

def formatDue (f : Format) (io : Io) : Option Format :=
  (oPop io).1.bind fun p => (io.output p).due f

/-! The Linux sink. -/

def Ss.format (ss : Ss) : Format := (ss.rate,ss.channels)

/-- `host_snd_poll` from the test for a bogus frame on, with its calls to the device. -/
def hostSndPlayCalls (volume : Nat) (o : SndWrite) (p : Fin maxOutputBuffers) (ss : Ss) (io : Io) :
    (Ss × Io) × List SndCall :=
  let buff := io.output p
  if buff.Bogus then ((sndSuspend ss,io),[])
  else
    let r := if buff.rate ≠ ss.rate ∨ buff.channels ≠ ss.channels then
      (alsaSetup o.setParams buff.rate buff.channels ss,
        [SndCall.setup (buff.rate,buff.channels) o.setParams])
      else (ss,[])
    let io := setOutput io p { buff with data := pcmApplyVolume buff.data (buff.used/2) volume }
    (({ r.1 with state := if o.writei then .playing else .error },io),r.2 ++
      [.write (buff.rate,buff.channels)])

def hostSndPollCalls (volume : Nat) (o : SndWrite) (ss : Ss) (io : Io) : (Ss × Io) × List SndCall :=
  match oPop io with
  | (none,io) => (({ ss with state := .error },io),[])
  | (some p,io) => hostSndPlayCalls volume o p ss io

/-- One turn of `host_snd_loop`. -/
def sndTurnCalls (pl : PlState) (volume : Nat) (o : SndWrite) (ss : Ss) (io : Io) :
    (Ss × Io) × List SndCall :=
  if ss.state = .error then ((ss,io),[])
  else if oUsed io = 0 then ((sndSuspend ss,io),[])
  else if pl ≠ .playing then ((ss,io),[])
  else hostSndPollCalls volume o ss io

theorem hostSndPollCalls_eq (volume : Nat) (o : SndWrite) (ss : Ss) (io : Io) :
    (hostSndPollCalls volume o ss io).1 = hostSndPoll volume o ss io := by
  cases hpop : oPop io with
  | mk p io' =>
  cases p with
  | none => simp only [hostSndPollCalls,hostSndPoll,hpop]
  | some p =>
    simp only [hostSndPollCalls,hostSndPlayCalls,hostSndPoll,hpop]
    by_cases hbogus : (io'.output p).Bogus
    · simp only [if_pos hbogus]
    · by_cases hnew : (io'.output p).rate ≠ ss.rate ∨ (io'.output p).channels ≠ ss.channels
      · simp only [if_neg hbogus,if_pos hnew]
      · simp only [if_neg hbogus,if_neg hnew]

theorem sndTurnCalls_eq (pl : PlState) (volume : Nat) (o : SndWrite) (ss : Ss) (io : Io) :
    (sndTurnCalls pl volume o ss io).1 = sndTurns pl volume 1 [o] ss io := by
  rw [sndTurnCalls,sndTurns]
  split
  · rfl
  · split
    · rfl
    · split
      · rfl
      · rw [hostSndPollCalls_eq]
        dsimp only [List.headD_cons]
        split <;> rfl

structure LinuxSound where
  ss : Ss
  io : Io
  turns : List SndTurn

/-- The rest of the program may do anything to the rings between two turns. -/
inductive LinuxSndOp where
  | rings (io : Io)
  | turn (pl : PlState) (volume : Nat) (o : SndWrite)

def linuxSndStep (s : LinuxSound) : LinuxSndOp → Option LinuxSound
  | .rings io => some { s with io := io }
  | .turn pl volume o =>
      let r := sndTurnCalls pl volume o s.ss s.io
      some ⟨r.1.1,r.1.2,s.turns ++ [⟨r.2,r.1.1.state⟩]⟩

def linuxSndStart (opened : Bool) (io : Io) : LinuxSound := ⟨hostSndInit opened,io,[]⟩

/-- Whenever a turn comes to set the device up, the library accepts the parameters. -/
def SetupAccepted (s : LinuxSound) : LinuxSndOp → Prop
  | .rings _ => True
  | .turn pl _ o => s.ss.state ≠ .error → oUsed s.io ≠ 0 → pl = .playing →
      (formatDue s.ss.format s.io).isSome = true → o.setParams = true

/-! The sink of the board. -/

def Stm.format (s : Stm) : Format := (s.rate,s.channels)

def stmPlayCalls (volume : Nat) (p : Fin maxOutputBuffers) (s : Stm) : Stm × List SndCall :=
  let buff := s.io.output p
  if buff.Bogus then (s,[])
  else
    let r := if buff.rate ≠ s.rate ∨ buff.channels ≠ s.channels then
      (audioSetup buff.rate buff.channels s,
        [SndCall.setup (buff.rate,buff.channels) (audioSupported buff.rate)])
      else (s,[])
    if r.1.state = .error then r
    else (stmProvide ⟨p,buff.used/buff.channels,r.1.serial p⟩ { r.1 with
      io := setOutput r.1.io p
        { buff with data := pcmApplyVolume buff.data (buff.used/2) volume } },
      r.2 ++ [.write (buff.rate,buff.channels)])

def stmSndPollCalls (volume : Nat) (s : Stm) : Stm × List SndCall :=
  match oPop s.io with
  | (none,io) => ({ s with io := io, state := .error },[])
  | (some p,io) => stmPlayCalls volume p { s with io := io }

def stmSndTurnCalls (volume : Nat) (s : Stm) : Stm × List SndCall :=
  if s.state = .error then (s,[])
  else if oUsed s.io = 0 then (if s.state = .playing then { s with state := .pause } else s,[])
  else stmSndPollCalls volume s

theorem stmPlayCalls_eq (volume : Nat) (p : Fin maxOutputBuffers) (s : Stm) :
    (stmPlayCalls volume p s).1 = stmPlay volume p s := by
  rw [stmPlayCalls,stmPlay]
  dsimp only
  split
  · rfl
  · split <;> split <;> rfl

theorem stmSndPollCalls_eq (volume : Nat) (s : Stm) :
    (stmSndPollCalls volume s).1 = stmSndPoll volume s := by
  cases hpop : oPop s.io with
  | mk p io =>
  cases p with
  | none => simp only [stmSndPollCalls,stmSndPoll,hpop]
  | some p => simp only [stmSndPollCalls,stmSndPoll,hpop,stmPlayCalls_eq]

theorem stmSndTurnCalls_eq (volume : Nat) (s : Stm) :
    (stmSndTurnCalls volume s).1 = stmSndTurn volume s := by
  rw [stmSndTurnCalls,stmSndTurn]
  split
  · rfl
  · split
    · rfl
    · exact stmSndPollCalls_eq volume s

structure BoardSound where
  stm : Stm
  turns : List SndTurn

def boardSndStep (s : BoardSound) (op : StmOp) : Option BoardSound :=
  (stmStep s.stm op).map fun t =>
    match op with
    | .sndTurn volume =>
        ⟨t,if s.stm.idle = true then s.turns ++ [⟨(stmSndTurnCalls volume s.stm).2,t.state⟩]
          else s.turns⟩
    | _ => ⟨t,s.turns⟩

/-- `host_snd_init` has set the device up for 44100 Hz and two channels. -/
def boardSndStart (io : Io) : BoardSound := ⟨stmStart io,[]⟩

/-- Whenever a turn comes to set the device up, the rate is one the codec has. -/
def RateSupported (s : BoardSound) : StmOp → Prop
  | .sndTurn _ => s.stm.idle = true → s.stm.state ≠ .error → oUsed s.stm.io ≠ 0 →
      ∀ f, formatDue s.stm.format s.stm.io = some f → audioSupported f.1 = true
  | _ => True

/-! What a turn can do to the device, on either sink. -/

/-- From the cached format `f` to the cached format after the turn. A failed set-up
leaves the cache as it likes. -/
inductive SndTurnSpec (f : Format) : List SndCall → Format → Prop where
  | quiet : SndTurnSpec f [] f
  | plays (hf : f.1 ≠ .unknown) : SndTurnSpec f [.write f] f
  | changes (g : Format) : SndTurnSpec f [.setup g true,.write g] g
  | fails (g h : Format) : SndTurnSpec f [.setup g false,.write g] h

theorem writesMatch_append (f : Option Format) (calls more : List SndCall) :
    WritesMatch f (calls ++ more) ↔ WritesMatch f calls ∧
      WritesMatch (configured f calls) more := by
  induction calls generalizing f with
  | nil => simp [WritesMatch,configured]
  | cons c calls ih =>
    cases c with
    | setup g ok => exact ih _
    | write g => simp only [List.cons_append,WritesMatch,configured,ih,and_assoc]

theorem configured_append (f : Option Format) (calls more : List SndCall) :
    configured f (calls ++ more) = configured (configured f calls) more := by
  induction calls generalizing f with
  | nil => rfl
  | cons c calls ih => cases c <;> exact ih _

/-- The cached format is the one the device has, once there was a first buffer. -/
structure FormatInv (start : Option Format) (turns : List SndTurn) (f : Format) : Prop where
  plays : PlaysMatching start turns
  known : f.1 = .unknown ∨ configured start (turns.flatMap SndTurn.calls) = some f

variable {start : Option Format} {turns : List SndTurn} {f g : Format} {calls : List SndCall}

theorem playsMatching_snoc (t : SndTurn) :
    PlaysMatching start (turns ++ [t]) ↔ PlaysMatching start turns ∧
    WritesMatch (configured start (turns.flatMap SndTurn.calls)) t.calls ∧ t.FailureShows := by
  simp only [PlaysMatching,List.flatMap_append,List.flatMap_singleton,writesMatch_append,
    List.forall_mem_append,List.forall_mem_singleton]
  exact and_and_and_comm

theorem FormatInv.turn (h : FormatInv start turns f) (ht : SndTurnSpec f calls g)
    (hok : calls.any SndCall.failed = false) (state : SoundState) :
    FormatInv start (turns ++ [⟨calls,state⟩]) g := by
  have hshows : SndTurn.FailureShows ⟨calls,state⟩ := fun hf => absurd hf (by simp [hok])
  have hcalls : (turns ++ [(⟨calls,state⟩ : SndTurn)]).flatMap SndTurn.calls =
      turns.flatMap SndTurn.calls ++ calls := by simp
  refine ⟨(playsMatching_snoc _).mpr ⟨h.plays,?_,hshows⟩,?_⟩
  · cases ht with
    | quiet => trivial
    | plays hf => exact ⟨h.known.resolve_left hf,trivial⟩
    | changes g => exact ⟨rfl,trivial⟩
    | fails g h => simp [SndCall.failed] at hok
  · rw [hcalls,configured_append]
    cases ht with
    | quiet => exact h.known
    | plays hf => exact h.known
    | changes g => exact .inr rfl
    | fails g h => simp [SndCall.failed] at hok

/-- A turn whose set-up fails hands its samples over all the same. -/
theorem SndTurnSpec.shown (ht : SndTurnSpec f calls g) (hbad : calls.any SndCall.failed = true)
    (state : SoundState) :
    ¬ PlaysMatching start (turns ++ [⟨calls,state⟩]) := by
  intro hp
  have hsilent := (((playsMatching_snoc _).mp hp).2.2 hbad).1
  cases ht with
  | quiet => simp at hbad
  | plays hf => simp [SndCall.failed] at hbad
  | changes g => simp [SndCall.failed] at hbad
  | fails g h => simp [SndCall.isWrite] at hsilent

theorem sndSuspend_format (ss : Ss) : (sndSuspend ss).format = ss.format := by
  rw [sndSuspend]
  split <;> rfl

/-- A buffer is bogus, in a new format or in the cached one. -/
theorem Output.due_cases (f : Format) (buff : Output) :
    (buff.Bogus ∧ buff.due f = none) ∨
    (¬ buff.Bogus ∧ (buff.rate ≠ f.1 ∨ buff.channels ≠ f.2) ∧
      buff.due f = some (buff.rate,buff.channels)) ∨
    (¬ buff.Bogus ∧ ¬ (buff.rate ≠ f.1 ∨ buff.channels ≠ f.2) ∧ (buff.rate,buff.channels) = f ∧
      f.1 ≠ .unknown ∧ buff.due f = none) := by
  by_cases hbogus : buff.Bogus
  · exact .inl ⟨hbogus,if_pos hbogus⟩
  · by_cases hnew : buff.rate ≠ f.1 ∨ buff.channels ≠ f.2
    · exact .inr (.inl ⟨hbogus,hnew,(if_neg hbogus).trans (if_pos hnew)⟩)
    · have hsame : (buff.rate,buff.channels) = f := by
        rw [not_or,not_ne_iff,not_ne_iff] at hnew
        exact Prod.ext hnew.1 hnew.2
      exact .inr (.inr ⟨hbogus,hnew,hsame,fun hu => hbogus (.inl (by rw [← hsame] at hu; exact hu)),
        (if_neg hbogus).trans (if_neg hnew)⟩)

theorem hostSndPlayCalls_spec (volume : Nat) (o : SndWrite) (p : Fin maxOutputBuffers) (ss : Ss)
    (io : Io) :
    SndTurnSpec ss.format (hostSndPlayCalls volume o p ss io).2
      (hostSndPlayCalls volume o p ss io).1.1.format ∧
      ((hostSndPlayCalls volume o p ss io).2.any SndCall.failed = true ↔
        ((io.output p).due ss.format).isSome = true ∧ o.setParams = false) := by
  obtain ⟨hbogus,hdue⟩ | ⟨hbogus,hnew,hdue⟩ | ⟨hbogus,hnew,hsame,hknown,hdue⟩ :=
    Output.due_cases ss.format (io.output p)
  · rw [hdue,hostSndPlayCalls,if_pos hbogus]
    exact ⟨(sndSuspend_format ss).symm ▸ .quiet,by simp⟩
  · rw [hdue,hostSndPlayCalls,if_neg hbogus]
    rw [Ss.format] at hnew
    simp only [if_pos hnew]
    cases hset : o.setParams with
    | true => exact ⟨.changes _,by simp [SndCall.failed]⟩
    | false => exact ⟨.fails _ _,by simp [SndCall.failed]⟩
  · rw [hdue,hostSndPlayCalls,if_neg hbogus]
    rw [Ss.format] at hnew
    simp only [if_neg hnew,hsame]
    exact ⟨.plays hknown,by simp [SndCall.failed]⟩

theorem oPop_output (io : Io) : (oPop io).2.output = io.output := rfl

theorem hostSndPollCalls_spec (volume : Nat) (o : SndWrite) (ss : Ss) (io : Io) :
    SndTurnSpec ss.format (hostSndPollCalls volume o ss io).2
      (hostSndPollCalls volume o ss io).1.1.format ∧
      ((hostSndPollCalls volume o ss io).2.any SndCall.failed = true ↔
        (formatDue ss.format io).isSome = true ∧ o.setParams = false) := by
  cases hpop : oPop io with
  | mk p io' =>
  cases p with
  | none =>
    simp only [hostSndPollCalls,formatDue,hpop]
    exact ⟨.quiet,by simp⟩
  | some p =>
    have hout : io'.output = io.output := by
      have := oPop_output io
      rwa [hpop] at this
    have hplay := hostSndPlayCalls_spec volume o p ss io'
    rw [hout] at hplay
    simpa only [hostSndPollCalls,formatDue,hpop,Option.bind_some] using hplay

theorem sndTurnCalls_spec (pl : PlState) (volume : Nat) (o : SndWrite) (ss : Ss) (io : Io) :
    SndTurnSpec ss.format (sndTurnCalls pl volume o ss io).2
      (sndTurnCalls pl volume o ss io).1.1.format ∧
      ((sndTurnCalls pl volume o ss io).2.any SndCall.failed = true ↔
        ss.state ≠ .error ∧ oUsed io ≠ 0 ∧ pl = .playing ∧ (formatDue ss.format io).isSome = true ∧
          o.setParams = false) := by
  rw [sndTurnCalls]
  split
  · exact ⟨.quiet,by simp [*]⟩
  · split
    · exact ⟨(sndSuspend_format ss).symm ▸ .quiet,by simp [*]⟩
    · split
      · exact ⟨.quiet,by simp [*]⟩
      · obtain ⟨hturn,hfail⟩ := hostSndPollCalls_spec volume o ss io
        exact ⟨hturn,hfail.trans (by simp_all)⟩

theorem audioSetup_state (rate : SoundRate) (channels : Nat) (s : Stm) :
    (audioSetup rate channels s).state = s.state := by
  rw [audioSetup]
  split <;> rfl

theorem audioSetup_format {rate : SoundRate} (h : audioSupported rate = true) (channels : Nat)
    (s : Stm) :
    (audioSetup rate channels s).format = (rate,channels) := by
  rw [audioSetup,if_pos h,Stm.format]

theorem stmProvide_format (h : Held) (s : Stm) : (stmProvide h s).format = s.format := by
  rw [stmProvide]
  split <;> rfl

theorem stmPlayCalls_spec (volume : Nat) (p : Fin maxOutputBuffers) (s : Stm)
    (hs : s.state ≠ .error) :
    SndTurnSpec s.format (stmPlayCalls volume p s).2 (stmPlayCalls volume p s).1.format ∧
      ((stmPlayCalls volume p s).2.any SndCall.failed = true ↔
        ∃ f, (s.io.output p).due s.format = some f ∧ audioSupported f.1 = false) := by
  obtain ⟨hbogus,hdue⟩ | ⟨hbogus,hnew,hdue⟩ | ⟨hbogus,hnew,hsame,hknown,hdue⟩ :=
    Output.due_cases s.format (s.io.output p)
  · rw [hdue,stmPlayCalls,if_pos hbogus]
    exact ⟨.quiet,by simp⟩
  · rw [hdue,stmPlayCalls,if_neg hbogus]
    rw [Stm.format] at hnew
    simp only [if_pos hnew,audioSetup_state,if_neg hs,stmProvide_format]
    cases hset : audioSupported (s.io.output p).rate with
    | true =>
      have hformat := audioSetup_format hset (s.io.output p).channels s
      exact ⟨hformat.symm ▸ .changes _,by simp [SndCall.failed,hset]⟩
    | false => exact ⟨.fails _ _,by simp [SndCall.failed,hset]⟩
  · rw [hdue,stmPlayCalls,if_neg hbogus]
    rw [Stm.format] at hnew
    simp only [if_neg hnew,hsame,if_neg hs,stmProvide_format]
    exact ⟨.plays hknown,by simp [SndCall.failed]⟩

theorem stmSndTurnCalls_spec (volume : Nat) (s : Stm) :
    SndTurnSpec s.format (stmSndTurnCalls volume s).2 (stmSndTurnCalls volume s).1.format ∧
      ((stmSndTurnCalls volume s).2.any SndCall.failed = true ↔
        s.state ≠ .error ∧ oUsed s.io ≠ 0 ∧ ∃ f, formatDue s.format s.io = some f ∧
          audioSupported f.1 = false) := by
  rw [stmSndTurnCalls]
  split
  · exact ⟨.quiet,by simp [*]⟩
  rename_i hs
  split
  · rename_i hused
    have hformat : (if s.state = .playing then { s with state := .pause } else s).format =
        s.format := by
      split <;> rfl
    exact ⟨hformat.symm ▸ .quiet,by simp [hused]⟩
  rename_i hused
  cases hpop : oPop s.io with
  | mk p io =>
  cases p with
  | none =>
    simp only [stmSndPollCalls,formatDue,hpop]
    exact ⟨.quiet,by simp⟩
  | some p =>
    have hout : io.output = s.io.output := by
      have := oPop_output s.io
      rwa [hpop] at this
    obtain ⟨hturn,hfail⟩ := stmPlayCalls_spec volume p { s with io := io } hs
    simp only [hout] at hfail
    simp only [stmSndPollCalls,formatDue,hpop,Option.bind_some]
    exact ⟨hturn,hfail.trans (by simp [hs,hused,Stm.format])⟩

/-! Whole runs. -/

def LinuxSound.Inv (s : LinuxSound) : Prop := FormatInv none s.turns s.ss.format

theorem LinuxSound.step {s t : LinuxSound} {op : LinuxSndOp} (h : s.Inv) (hok : SetupAccepted s op)
    (hs : linuxSndStep s op = some t) : t.Inv := by
  cases op with
  | rings io =>
    cases hs
    exact h
  | turn pl volume o =>
    cases hs
    obtain ⟨hturn,hfail⟩ := sndTurnCalls_spec pl volume o s.ss s.io
    refine FormatInv.turn h hturn (Bool.eq_false_iff.mpr fun hf => ?_) _
    obtain ⟨hstate,hused,hpl,hdue,hset⟩ := hfail.mp hf
    simp [hok hstate hused hpl hdue] at hset

theorem LinuxSound.shown {s : LinuxSound} {op : LinuxSndOp} (hn : ¬ SetupAccepted s op) :
    ∃ t, linuxSndStep s op = some t ∧ ¬ PlaysMatching none t.turns := by
  cases op with
  | rings io => exact absurd trivial hn
  | turn pl volume o =>
    obtain ⟨hturn,hfail⟩ := sndTurnCalls_spec pl volume o s.ss s.io
    refine ⟨_,rfl,hturn.shown (hfail.mpr ?_) _⟩
    simpa [SetupAccepted] using hn

def BoardSound.Inv (s : BoardSound) : Prop := FormatInv (some (.hz44100,2)) s.turns s.stm.format

theorem stmStep_format {s t : Stm} {op : StmOp} (hs : stmStep s op = some t)
    (hop : ∀ volume, op ≠ .sndTurn volume) :
    t.format = s.format := by
  cases op with
  | sndTurn volume => exact absurd rfl (hop volume)
  | resume =>
    cases hs
    split
    · exact stmProvide_format _ s
    · rfl
  | madLeave => cases hs; rfl
  | riffPush b => cases hs; split <;> rfl
  | madEnter => cases hs; split <;> rfl
  | madPush b => cases hs; split <;> rfl
  | irq => cases hs; split <;> rfl

/-- A step is a turn of the sound loop or leaves record and format alone. -/
theorem boardSndStep_cases {s t : BoardSound} {op : StmOp} (hs : boardSndStep s op = some t) :
    (t.turns = s.turns ∧ t.stm.format = s.stm.format) ∨
    (∃ volume, op = .sndTurn volume ∧ s.stm.idle = true ∧ t.stm = (stmSndTurnCalls volume s.stm).1 ∧
      t.turns = s.turns ++ [⟨(stmSndTurnCalls volume s.stm).2,t.stm.state⟩]) := by
  obtain ⟨u,hu,rfl⟩ := Option.map_eq_some_iff.mp hs
  cases op with
  | sndTurn volume =>
    cases hu
    by_cases hidle : s.stm.idle = true
    · exact .inr ⟨volume,rfl,hidle,by simp [hidle,stmSndTurnCalls_eq],by simp [hidle]⟩
    · exact .inl ⟨by simp [hidle],by simp [hidle]⟩
  | resume => exact .inl ⟨rfl,stmStep_format hu nofun⟩
  | madLeave => exact .inl ⟨rfl,stmStep_format hu nofun⟩
  | riffPush b => exact .inl ⟨rfl,stmStep_format hu nofun⟩
  | madEnter => exact .inl ⟨rfl,stmStep_format hu nofun⟩
  | madPush b => exact .inl ⟨rfl,stmStep_format hu nofun⟩
  | irq => exact .inl ⟨rfl,stmStep_format hu nofun⟩

theorem BoardSound.step {s t : BoardSound} {op : StmOp} (h : s.Inv) (hok : RateSupported s op)
    (hs : boardSndStep s op = some t) : t.Inv := by
  obtain ⟨hturns,hformat⟩ | ⟨volume,rfl,hidle,hstm,hturns⟩ := boardSndStep_cases hs
  · rw [BoardSound.Inv,hturns,hformat]
    exact h
  · obtain ⟨hturn,hfail⟩ := stmSndTurnCalls_spec volume s.stm
    rw [← hstm] at hturn
    rw [BoardSound.Inv,hturns]
    refine FormatInv.turn h hturn (Bool.eq_false_iff.mpr fun hf => ?_) _
    obtain ⟨hstate,hused,f,hdue,hset⟩ := hfail.mp hf
    simp [hok hidle hstate hused f hdue] at hset

theorem BoardSound.shown {s : BoardSound} {op : StmOp} (hn : ¬ RateSupported s op) :
    ∃ t, boardSndStep s op = some t ∧ ¬ PlaysMatching (some (.hz44100,2)) t.turns := by
  cases op with
  | sndTurn volume =>
    obtain ⟨hturn,hfail⟩ := stmSndTurnCalls_spec volume s.stm
    simp only [RateSupported,Classical.not_imp,not_forall,Bool.not_eq_true] at hn
    obtain ⟨hidle,hstate,hused,f,hdue,hset⟩ := hn
    refine ⟨_,rfl,?_⟩
    simp only [if_pos hidle]
    exact hturn.shown (hfail.mpr ⟨hstate,hused,f,hdue,hset⟩) _
  | resume => exact absurd trivial hn
  | madLeave => exact absurd trivial hn
  | riffPush b => exact absurd trivial hn
  | madEnter => exact absurd trivial hn
  | madPush b => exact absurd trivial hn
  | irq => exact absurd trivial hn

/-- Samples are played on a matching device, and failures show, along exactly those runs
in which no reconfiguration fails. -/
theorem soundRun_matching_iff (opened : Bool) (io : Io) (ops : List LinuxSndOp)
    (boardOps : List StmOp) :
    (Always linuxSndStep (fun s => PlaysMatching none s.turns) (linuxSndStart opened io) ops ↔
      Guarded linuxSndStep SetupAccepted (linuxSndStart opened io) ops) ∧
    (Always boardSndStep (fun s => PlaysMatching (some (.hz44100,2)) s.turns) (boardSndStart io)
      boardOps ↔
      Guarded boardSndStep RateSupported (boardSndStart io) boardOps) := by
  have hnone : ∀ start, PlaysMatching start [] := fun _ => ⟨trivial,by simp⟩
  constructor
  · exact always_iff_guarded (fun _ h => FormatInv.plays h)
      (fun _ _ _ h hok hs => LinuxSound.step h hok hs)
      (fun _ _ _ hn => LinuxSound.shown hn) ops _ ⟨hnone none,.inl rfl⟩
  · exact always_iff_guarded (fun _ h => FormatInv.plays h)
      (fun _ _ _ h hok hs => BoardSound.step h hok hs)
      (fun _ _ _ hn => BoardSound.shown hn) boardOps _ ⟨hnone _,.inr rfl⟩

/-- One buffer in a format the device refuses: its samples are played, and the state is
not an error. -/
theorem soundRun_refused :
    ¬ Always linuxSndStep (fun s => PlaysMatching none s.turns) (linuxSndStart true Io.zero)
      [.rings (setOutput (oPush Io.zero).2 (oPush Io.zero).1
        ⟨[1,2,3,4],ioOutputBufferSize,4,.hz44100,2⟩),.turn .playing 10 ⟨false,true⟩] ∧
    ¬ Always boardSndStep (fun s => PlaysMatching (some (.hz44100,2)) s.turns)
      (boardSndStart Io.zero)
      [.riffPush ⟨[1,2,3,4],ioOutputBufferSize,4,.hz11025,2⟩,.sndTurn 10] := by
  decide

end Mardio
