import Mardio.FsSpec
import Mardio.Lib.Runs
import Mardio.LibmadStream
import Mardio.LinuxSound
import Mardio.Net

/-!
The player and the main loop over the modules it drives. A call that does not
return has no result.
-/

set_option autoImplicit false

namespace Mardio

inductive PlSource where
  | unknown | net | file
  deriving DecidableEq, Repr

structure Player where
  sourceType : PlSource
  state : PlState
  volume : Nat
  deriving DecidableEq, Repr

structure Sys where
  fs : Fs
  io : Io
  ls : Ls
  net : Net
  ss : Ss
  pl : Player

def plMaxVolume : Nat := 16
def plDefVolume : Nat := 8

def plInit : Player := ⟨.unknown,.stop,plDefVolume⟩

/-- The parameter is an 8-bit unsigned integer. -/
def plVolumeSet (newVolume : Nat) (pl : Player) : Player :=
  { pl with volume := if newVolume % 2^8 > plMaxVolume then plMaxVolume else newVolume % 2^8 }

def PlState.active : PlState → Bool
  | .playing | .buffering => true
  | _ => false

def plStop (s : Sys) : Sys :=
  if s.pl.state.active then
    { s with
      fs := fsStop s.fs
      net := hostNetClose s.net
      ls := libmadDone s.ls
      pl := { s.pl with state := .stop } }
  else s

def httpUri : Str := [0x68,0x74,0x74,0x70,0x3a,0x2f,0x2f]

/-- The comparison sees the terminator of the name. -/
def isHttp (what : Str) : Bool := ucMemcmp (what ++ [0]) httpUri httpUri.length == 0

def plReset (s : Sys) : Sys := { plStop s with io := ioInit s.io, ls := libmadInit }

def setPlState (s : Sys) (st : PlState) : Sys := { s with pl := { s.pl with state := st } }

def withFile (s : Sys) (fs : Fs) : Sys :=
  { s with fs := fs, pl := { s.pl with sourceType := .file } }

/-- The switch on the type of the last file opened, whether or not this play
opened one. -/
def plSwitch (s : Sys) : Sys :=
  match s.fs.type with
  | .unknown => plStop s
  | .none => plStop s
  | .riff => setPlState s .playing
  | .mp3 => setPlState s .buffering

def plPlay (w : World) (o : NetOpen) (what : Str) (s : Sys) : Option Sys :=
  let s := plReset s
  if isHttp what then
    some { s with
      net := hostNetOpen o s.net
      pl := { s.pl with sourceType := .net, state := .buffering } }
  else
    match fsPlay w what s.fs with
    | none => none
    | some fs => some (plSwitch (withFile s fs))

theorem plPlay_url {w : World} {o : NetOpen} {what : Str} {s t : Sys} (hu : isHttp what = true)
    (hp : plPlay w o what s = some t) :
    t = { plReset s with
      net := hostNetOpen o (plReset s).net
      pl := { (plReset s).pl with sourceType := .net, state := .buffering } } := by
  simpa [plPlay,hu] using hp.symm

theorem plPlay_name {what : Str} (hu : isHttp what = false) (w : World) (o : NetOpen) (s : Sys) :
    plPlay w o what s = (fsPlay w what (plReset s).fs).map fun fs =>
      plSwitch (withFile (plReset s) fs) := by
  rw [plPlay,if_neg (by simp [hu])]
  cases fsPlay w what (plReset s).fs <;> rfl

def pollFilled (s : Sys) : Sys :=
  if s.pl.state = .buffering ∧ iFree s.io = 0 then setPlState s .playing else s

def pollErrors (netSt : NetState) (sndSt : SoundState) (madSt : LibmadState) (s : Sys) : Sys :=
  if netSt = .error ∨ sndSt = .error ∨ madSt = .error then plStop s else s

def pollClosed (fsSt : FsState) (netSt : NetState) (s : Sys) : Sys :=
  let s := if s.pl.state.active ∧ s.pl.sourceType = .file ∧ fsSt = .closed then plStop s else s
  if s.pl.state.active ∧ s.pl.sourceType = .net ∧ netSt = .closed then plStop s else s

def pollStarved (s : Sys) : Sys :=
  if s.pl.state = .playing ∧ ioStarving s.io then setPlState s .buffering else s

/-- The four module states are read before anything is changed. -/
def plPoll (s : Sys) : Sys :=
  if s.pl.state.active then
    pollStarved (pollClosed s.fs.state s.net.state
      (pollErrors s.net.state s.ss.state s.ls.state (pollFilled s)))
  else s

/-- The modules right after `init`: `snd` tells whether the sound device could be
opened. -/
def sysInit (entries : List ResEntry) (snd : Bool) : Sys :=
  ⟨fsInit entries,ioInit Io.zero,Ls.zero,hostNetInit,hostSndInit snd,plInit⟩

inductive SysOp where
  | play (w : World) (o : NetOpen) (what : Str)
  | stop
  | volume (v : Nat)
  | poll
  | fsPoll (fault : Option Nat)
  | netPoll (o : NetPoll)
  | madLoop (its : List MadIter)
  | sndLoop (os : List SndWrite)

def sysStep (s : Sys) : SysOp → Option Sys
  | .play w o what => plPlay w o what s
  | .stop => some (plStop s)
  | .volume v => some { s with pl := plVolumeSet v s.pl }
  | .poll => some (plPoll s)
  | .fsPoll fault =>
      let r := fsPoll fault s.fs s.io
      some { s with fs := r.1, io := r.2 }
  | .netPoll o =>
      let r := hostNetPoll o s.net s.io
      some { s with net := r.1, io := r.2 }
  | .madLoop its =>
      let r := libmadLoop s.pl.state its s.ls s.io
      some { s with ls := r.1, io := r.2 }
  | .sndLoop os =>
      let r := hostSndLoop s.pl.state s.pl.volume os s.ss s.io
      some { s with ss := r.1, io := r.2 }

def sysRun : Sys → List SysOp → Option Sys
  | s, [] => some s
  | s, op :: ops =>
      match sysStep s op with
      | none => none
      | some s => sysRun s ops

/-- The two main loops differ in where the events are handled. -/
inductive Order where
  | linux | stm32
  deriving DecidableEq, Repr

inductive PlEvent where
  | play (w : World) (o : NetOpen) (what : Str)
  | stop
  | volume (v : Nat)

def PlEvent.op : PlEvent → SysOp
  | .play w o what => .play w o what
  | .stop => .stop
  | .volume v => .volume v

structure Outside where
  fault : Option Nat
  net : NetPoll
  its : List MadIter
  writes : List SndWrite

def polls (x : Outside) : List SysOp :=
  [.fsPoll x.fault,.netPoll x.net,.madLoop x.its,.sndLoop x.writes]

def frameOps (order : Order) (x : Outside) (evs : List PlEvent) : List SysOp :=
  match order with
  | .linux => polls x ++ evs.map PlEvent.op ++ [.poll]
  | .stm32 => polls x ++ [.poll] ++ evs.map PlEvent.op

def frame (order : Order) (x : Outside) (evs : List PlEvent) (s : Sys) : Option Sys :=
  sysRun s (frameOps order x evs)

end Mardio
