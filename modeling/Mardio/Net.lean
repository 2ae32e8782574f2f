import Mardio.IoBuffer
import Mardio.Libc

/-!
The network source of the Linux host. The results of the system calls are
parameters of each call.
-/

set_option autoImplicit false

namespace Mardio

inductive NetState where
  | unknown | pending | opened | closed | error
  deriving DecidableEq, Repr

structure Net where
  state : NetState
  sock : Int
  deriving DecidableEq, Repr

/-- What `host_net_open` meets: each flag is the success of one call, `socket` is
the descriptor and `response` the first block received, if any. -/
structure NetOpen where
  gethostbyname : Bool
  socket : Int
  setsockopt : Bool
  connect : Bool
  send : Bool
  response : Option Str

structure NetPoll where
  ret : Int
  pollin : Bool
  hangup : Bool
  pollerr : Bool
  recv : Option Str

def hostNetInit : Net := ⟨.closed,0⟩

def hostNetOpenTcp (o : NetOpen) (ns : Net) : Net :=
  if o.gethostbyname = false then { ns with state := .error }
  else
    let ns := { ns with sock := o.socket }
    if ns.sock = -1 then { ns with state := .error }
    else if o.setsockopt = false then { ns with state := .error }
    else if o.connect = false then { ns with state := .error }
    else ns

def error404 : Str := [0x34,0x30,0x34]
def applicationOgg : Str :=
  [0x61,0x70,0x70,0x6c,0x69,0x63,0x61,0x74,0x69,0x6f,0x6e,0x2f,0x6f,0x67,0x67]
def audioMpeg : Str := [0x61,0x75,0x64,0x69,0x6f,0x2f,0x6d,0x70,0x65,0x67]

/-- The searches stop at the first zero byte of the response. -/
def hostNetRequest (o : NetOpen) (ns : Net) : Net :=
  if o.send = false then { ns with state := .error }
  else match o.response with
    | none => { ns with state := .error }
    | some response =>
        let text := response.takeWhile (· ≠ 0)
        if (ucStrstr text error404).isSome then { ns with state := .error }
        else if (ucStrstr text applicationOgg).isSome then { ns with state := .error }
        else if (ucStrstr text audioMpeg).isNone then { ns with state := .error }
        else ns

def hostNetOpen (o : NetOpen) (ns : Net) : Net :=
  let ns := hostNetOpenTcp o { ns with state := .opened }
  if ns.state ≠ .opened then ns else hostNetRequest o ns

def hostNetClose (ns : Net) : Net := { ns with state := .closed }

/-- The buffer of a failed `recv` stays in the ring, with -1 cut to 16 bits as its
length. -/
def hostNetPoll (o : NetPoll) (ns : Net) (io : Io) : Net × Io :=
  if ns.state ≠ .opened then (ns,io)
  else if iFree io < 1 then (ns,io)
  else
    let readable := decide (o.ret > 0) && o.pollin
    let io := if readable then
      let r := iPush io
      let buff := r.2.input r.1
      match o.recv with
      | some bytes => setInput r.2 r.1 { buff with
          data := bytes.take buff.size, used := (bytes.take buff.size).length % 2^16 }
      | none => setInput r.2 r.1 { buff with used := 2^16-1 }
      else io
    if readable = false ∧ o.ret < 0 then ({ ns with state := .error },io)
    else if o.hangup then ({ ns with state := .error },io)
    else if o.pollerr then ({ ns with state := .error },io)
    else (ns,io)

end Mardio
