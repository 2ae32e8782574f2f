import Mardio.Net

/-!
The network source of the STM32 board. The TCP stack calls back: a name server
answers a query when it likes, and connections report what happens to them. All
callbacks share one record, and nothing takes back a query.
-/

set_option autoImplicit false

namespace Mardio

inductive EthState where
  | unknown | init | failed
  deriving DecidableEq, Repr

/-- The functions that `tcp_recv` is given. -/
inductive RecvFn where
  | recvConnect | recv
  deriving DecidableEq, Repr

inductive PcbStatus where
  | created | connecting | established | closing | freed
  deriving DecidableEq, Repr

/-- A connection of the stack. `asked` is history: the number of the open that its
address was resolved for. -/
structure Pcb where
  server : Nat
  port : Nat
  status : PcbStatus
  recv : Option RecvFn
  asked : Nat
  deriving DecidableEq, Repr

/-- A query without an answer, with the number of the open that made it. -/
structure DnsQuery where
  hostname : Str
  asked : Nat
  deriving DecidableEq, Repr

structure StmNs where
  server : Nat
  pcb : Option Nat
  hostname : Str
  port : Nat
  ethState : EthState
  linkState : NetState
  deriving DecidableEq, Repr

/-- The module and the part of the stack it uses: `tcp_new` numbers its connections.
The last four are history: the opens made, whether there was none since the last
close, whether a connection of another open was used, and whether a function of the
stack was given a connection that it does not have. -/
structure StmNet where
  ns : StmNs
  queries : List DnsQuery
  pcbs : Nat → Pcb
  count : Nat
  opens : Nat
  idle : Bool
  stray : Bool
  fault : Bool

/-- After a successful `host_net_init`. -/
def stmNetInit : StmNet :=
  ⟨⟨0,none,[],0,.init,.closed⟩,[],fun _ => ⟨0,0,.freed,none,0⟩,0,0,true,false,false⟩

def setLink (n : StmNet) (st : NetState) : StmNet := { n with ns := { n.ns with linkState := st } }

def Pcb.valid (p : Pcb) : Bool :=
  match p.status with
  | .created | .connecting | .established => true
  | .closing | .freed => false

/-- The connection is one of the stack, and was not handed to `tcp_close`. -/
def StmNet.validPcb (n : StmNet) : Bool := n.ns.pcb.any fun p => (n.pcbs p).valid

def setPcb (n : StmNet) (p : Nat) (b : Pcb) : StmNet :=
  { n with pcbs := Function.update n.pcbs p b }

def StmNet.checked (n : StmNet) : StmNet := { n with fault := n.fault || !n.validPcb }

/-- Without a connection it does nothing. -/
def tcpRecv (fn : Option RecvFn) (n : StmNet) : StmNet :=
  match n.ns.pcb with
  | none => n
  | some p => setPcb n p { n.pcbs p with recv := fn }

/-- What becomes of a connection that is closed: one that is not connected is freed
at once. -/
def PcbStatus.closed : PcbStatus → PcbStatus
  | .created | .connecting => .freed
  | .established => .closing
  | st => st

/-- Called for a connection that is not there it is taken to do nothing. -/
def tcpClose (n : StmNet) : StmNet :=
  match n.ns.pcb with
  | none => n
  | some p => setPcb n p { n.pcbs p with status := (n.pcbs p).status.closed }

/-- The results of the stack's calls in `net_lwip_open`. -/
structure TcpOpen where
  tcpNew : Bool
  tcpConnect : Bool
  deriving DecidableEq, Repr

/-- `asked` is the open whose query gave the address. -/
def netLwipOpen (r : TcpOpen) (asked : Nat) (n : StmNet) : StmNet :=
  if r.tcpNew = false then setLink { n with ns := { n.ns with pcb := none } } .error
  else
    let n := { n with ns := { n.ns with pcb := some n.count }, count := n.count+1 }
    { setPcb n (n.count-1) ⟨n.ns.server,n.ns.port,if r.tcpConnect then .connecting else .created,
      none,asked⟩ with
      stray := n.stray || (!n.idle && decide (asked ≠ n.opens)) }

/-- `tcp_sent` and `tcp_poll` only set callbacks that do nothing here. -/
def netLwipClose (n : StmNet) : StmNet :=
  tcpClose (tcpRecv none (setLink n.checked .closed))

def netLwipDns (ipaddr : Option Nat) (r : TcpOpen) (asked : Nat) (n : StmNet) : StmNet :=
  match ipaddr with
  | none => setLink n .error
  | some addr =>
      if addr = 0 then setLink n .error
      else netLwipOpen r asked { n with ns := { n.ns with server := addr } }

/-- The request it sends is left out. -/
def netLwipConnected (ok : Bool) (n : StmNet) : StmNet :=
  if ok = false then setLink n .error
  else tcpRecv (some .recvConnect) n.checked

def tcpMss : Nat := ioInputBufferSize

/-- The length and the bytes of the data; no data is the end of the connection. -/
def netLwipBuildBuffer (p : Option Str) (bufLen : Nat) (n : StmNet) : Int × Str × StmNet :=
  match p with
  | none => (0,[],setLink n .error)
  | some bytes =>
      if bytes.length > bufLen then (-1,[],setLink n .error)
      else (bytes.length,bytes,n)

/-- The media type as `net_lwip_recv_connect` looks for it, up to the first zero. -/
def mediaAccepted (response : Str) : Bool :=
  let text := response.takeWhile (· ≠ 0)
  if (ucStrstr text error404).isSome then false
  else if (ucStrstr text applicationOgg).isSome then false
  else (ucStrstr text audioMpeg).isSome

def netLwipRecvConnect (p : Option Str) (ok : Bool) (n : StmNet) : StmNet :=
  if ok = false then setLink n .error
  else
    let r := netLwipBuildBuffer p tcpMss n
    if r.1 ≤ 0 then r.2.2
    else if mediaAccepted r.2.1 = false then setLink r.2.2 .error
    else tcpRecv (some .recv) (setLink r.2.2 .opened)

/-- `asked` is the open that the connection belongs to. -/
def netLwipRecv (asked : Nat) (p : Option Str) (ok : Bool) (n : StmNet) (io : Io) : StmNet × Io :=
  if iFree io = 0 then (n,io)
  else if ok = false then (setLink n .error,io)
  else
    let r := netLwipBuildBuffer p tcpMss n
    if r.1 ≤ 0 then (r.2.2,io)
    else
      let bytes := r.2.1.take ioInputBufferSize
      let slot := iPush io
      ({ r.2.2 with stray := n.stray || n.idle || decide (asked ≠ n.opens) },
        setInput slot.2 slot.1 { slot.2.input slot.1 with data := bytes, used := bytes.length })

/-- The result of `dns_gethostbyname`: known, asked for, or an error. -/
inductive DnsReply where
  | ok (addr : Nat)
  | inProgress
  | failed
  deriving DecidableEq, Repr

/-- A URL as it is parsed: without a port the last one stays. -/
structure Url where
  hostname : Str
  port : Option Nat
  deriving DecidableEq, Repr

/-- `ETH_ERROR` is a constant of the driver with the value of the state before
`host_net_init`, so a failed link is not noticed here. -/
def stmNetOpen (url : Url) (reply : DnsReply) (r : TcpOpen) (n : StmNet) : StmNet :=
  let n := { n with opens := n.opens+1, idle := false }
  if n.ns.ethState = .unknown then n
  else
    let n := { n with
      ns := { n.ns with hostname := url.hostname, port := url.port.getD n.ns.port } }
    match reply with
    | .ok addr => netLwipOpen r n.opens
        (setLink { n with ns := { n.ns with server := addr } } .pending)
    | .inProgress => setLink { n with queries := n.queries ++ [⟨n.ns.hostname,n.opens⟩] } .pending
    | .failed => setLink n .error

def stmNetClose (n : StmNet) : StmNet := { netLwipClose n with idle := true }

/-- The DHCP client has given up. -/
def stmNetPoll (timedOut : Bool) (n : StmNet) : StmNet :=
  if n.ns.ethState = .failed then n
  else if timedOut then { n with ns := { n.ns with ethState := .failed } } else n

/-- What the stack does on its own. A connection is freed after a reset, a time out or
the end of a close. -/
inductive LwipEvent where
  | dns (i : Nat) (ipaddr : Option Nat) (r : TcpOpen)
  | connected (p : Nat) (ok : Bool)
  | recv (p : Nat) (data : Option Str) (ok : Bool)
  | freed (p : Nat)

def stmConnected (p : Nat) (ok : Bool) (n : StmNet) : StmNet :=
  let b := n.pcbs p
  netLwipConnected ok { setPcb n p { b with status := .established } with
    stray := n.stray || (!n.idle && decide (b.asked ≠ n.opens)) }

def stmReceived (p : Nat) (data : Option Str) (ok : Bool) (n : StmNet) (io : Io) : StmNet × Io :=
  match (n.pcbs p).recv with
  | none => (n,io)
  | some .recvConnect => (netLwipRecvConnect data ok n,io)
  | some .recv => netLwipRecv (n.pcbs p).asked data ok n io

/-- An event that cannot happen leaves everything as it is. -/
def lwipEvent (n : StmNet) (io : Io) : LwipEvent → StmNet × Io
  | .dns i ipaddr r =>
      match n.queries[i]? with
      | none => (n,io)
      | some q => (netLwipDns ipaddr r q.asked { n with queries := n.queries.eraseIdx i },io)
  | .connected p ok =>
      if (n.pcbs p).status = .connecting then (stmConnected p ok n,io) else (n,io)
  | .recv p data ok =>
      if (n.pcbs p).status = .established ∨ (n.pcbs p).status = .closing
        then stmReceived p data ok n io
      else (n,io)
  | .freed p => (setPcb n p { n.pcbs p with status := .freed },io)

variable {n : StmNet} {p : Nat}

theorem tcpRecv_current (hp : n.ns.pcb = some p) (fn : Option RecvFn) :
    tcpRecv fn n = setPcb n p { n.pcbs p with recv := fn } := by
  simp [tcpRecv,hp]

/-- A close changes the current connection only, and leaves nothing to be heard of
it. -/
theorem netLwipClose_cases (n : StmNet) :
    (n.ns.pcb = none ∧ netLwipClose n = setLink n.checked .closed) ∨
      ∃ p, n.ns.pcb = some p ∧ netLwipClose n = setPcb (setLink n.checked .closed) p
        { n.pcbs p with recv := none, status := (n.pcbs p).status.closed } := by
  cases hp : n.ns.pcb with
  | none => exact .inl ⟨rfl,by simp [netLwipClose,tcpRecv,tcpClose,setLink,StmNet.checked,hp]⟩
  | some p =>
    exact .inr ⟨p,rfl,by simp [netLwipClose,tcpRecv,tcpClose,setLink,StmNet.checked,setPcb,hp]⟩

section
variable {P : StmNet → Prop} (hlink : ∀ m st, P m → P (setLink m st))
include hlink

theorem buildBuffer_keeps (data : Option Str) (bufLen : Nat) (h : P n) :
    P (netLwipBuildBuffer data bufLen n).2.2 := by
  unfold netLwipBuildBuffer
  split
  · exact hlink _ _ h
  · split
    · exact hlink _ _ h
    · exact h

theorem recvConnect_keeps (hrecv : ∀ fn m, P m → P (tcpRecv (some fn) m)) (data : Option Str)
    (ok : Bool) (h : P n) : P (netLwipRecvConnect data ok n) := by
  have hbuilt := buildBuffer_keeps hlink data tcpMss h
  unfold netLwipRecvConnect
  split
  · exact hlink _ _ h
  · dsimp only
    split
    · exact hbuilt
    · split
      · exact hlink _ _ hbuilt
      · exact hrecv _ _ (hlink _ _ hbuilt)

/-- The data callback changes the state of the link and notes for which open the data
came. -/
theorem recv_keeps {asked : Nat}
    (hpush : ∀ m, P m → P { m with stray := n.stray || n.idle || decide (asked ≠ n.opens) })
    (data : Option Str) (ok : Bool) (io : Io) (h : P n) : P (netLwipRecv asked data ok n io).1 := by
  have hbuilt := buildBuffer_keeps hlink data tcpMss h
  unfold netLwipRecv
  split
  · exact h
  · split
    · exact hlink _ _ h
    · dsimp only
      split
      · exact hbuilt
      · exact hpush _ hbuilt

end

/-- On the current connection the callback is one change of its entry. -/
theorem stmConnected_current (hp : n.ns.pcb = some p) (ok : Bool) :
    stmConnected p ok n =
      { (if ok then setPcb n p { n.pcbs p with status := .established, recv := some .recvConnect }
          else setLink (setPcb n p { n.pcbs p with status := .established }) .error) with
        stray := n.stray || (!n.idle && decide ((n.pcbs p).asked ≠ n.opens)) } := by
  cases ok with
  | false => rfl
  | true =>
    simp [stmConnected,netLwipConnected,StmNet.checked,StmNet.validPcb,tcpRecv,setPcb,hp,Pcb.valid]

end Mardio
