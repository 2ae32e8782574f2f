import Mardio.HttpResponse
import Mardio.PcbValid

/-!
The end of a connection that the server closes: the stack calls the receive
function once more, with a null pointer in place of data.
-/

set_option autoImplicit false

namespace Mardio
open ByteMem

/-- `net_lwip_recv` on a chain. A full ring gives the chain back unread, and looks at
its length to do so. -/
def netLwipRecvIn (asked : Nat) (p : Chain) (stack : Mem) (ok : Bool) (n : StmNet) (io : Io) :
    Option (StmNet × Io × List LwipCall) :=
  if iFree io = 0 then
    match p with
    | [] => none
    | q :: _ => some (n,io,[.tcpRecved q.totLen.toNat,.pbufFree])
  else if ok = false then some (setLink n .error,io,[])
  else (netLwipBuildBufferIn p stack 0 tcpMss n).bind fun r =>
    if r.ret ≤ 0 then some (r.net,io,r.calls)
    else
      let bytes := (window r.mem 0 r.ret.toNat).take ioInputBufferSize
      let slot := iPush io
      some ({ r.net with stray := n.stray || n.idle || decide (asked ≠ n.opens) },
        setInput slot.2 slot.1 { slot.2.input slot.1 with data := bytes, used := bytes.length },
          r.calls)

theorem netLwipRecvIn_refines {q : Pbuf} {rest : Chain}
    (hsum : q.totLen.toNat = Chain.lens (q :: rest)) (asked : Nat) (stack : Mem) (ok : Bool)
    (n : StmNet) (io : Io) :
    ∃ calls, netLwipRecvIn asked (q :: rest) stack ok n io =
      some ((netLwipRecv asked (some (Chain.bytes (q :: rest))) ok n io).1,
        (netLwipRecv asked (some (Chain.bytes (q :: rest))) ok n io).2,calls) := by
  obtain ⟨r,hr,hbuild⟩ := netLwipBuildBufferIn_eq hsum stack 0 tcpMss n
  rw [netLwipRecvIn,netLwipRecv]
  by_cases hfree : iFree io = 0
  · exact ⟨_,by simp only [if_pos hfree]; rfl⟩
  simp only [if_neg hfree]
  cases ok with
  | false => exact ⟨[],rfl⟩
  | true =>
    simp only [Bool.true_eq_false,if_false,hr,Option.bind_some,hbuild]
    by_cases hret : r.ret ≤ 0
    · exact ⟨_,by simp only [if_pos hret]; rfl⟩
    · exact ⟨_,by simp only [if_neg hret]; rfl⟩

/-- The null pointer is given to the function the connection has. -/
def deliverClose (fn : RecvFn) (asked : Nat) (stack : Mem) (ok : Bool) (n : StmNet) (io : Io) :
    Option (StmNet × Io × List LwipCall) :=
  match fn with
  | .recv => netLwipRecvIn asked [] stack ok n io
  | .recvConnect => (netLwipRecvConnectIn [] stack ok n).map fun r => (r.1,io,r.2)

/-- No field is read through the null pointer, nothing is given back or pushed, and
the link is left in a state in which the player stops. -/
def CloseHandled (fn : RecvFn) (asked : Nat) (stack : Mem) (ok : Bool) (n : StmNet) (io : Io) :
    Prop :=
  ∃ n' : StmNet, deliverClose fn asked stack ok n io = some (n',io,[]) ∧
    (n'.ns.linkState = .closed ∨ n'.ns.linkState = .error) ∧
    ∀ s : Sys, s.pl.state.active = true → s.pl.sourceType = .net →
      (plPoll (withLink s n')).pl.state = .stop

theorem plPoll_stops_on_error {s : Sys} (ha : s.pl.state.active = true)
    (he : s.net.state = .error) :
    (plPoll s).pl.state = .stop := by
  have hfilled : (pollFilled s).pl.state.active = true := by
    rw [pollFilled]
    split
    · rfl
    · exact ha
  have hstop : (plStop (pollFilled s)).pl.state = .stop := by rw [plStop,if_pos hfilled]
  have hfail : pollErrors s.net.state s.ss.state s.ls.state (pollFilled s) =
      plStop (pollFilled s) := by
    rw [pollErrors,if_pos (.inl he)]
  rw [plPoll,if_pos ha,hfail]
  simp [pollClosed,pollStarved,hstop,PlState.active]

theorem deliverClose_failed {fn : RecvFn} {io : Io} (h : fn = .recvConnect ∨ iFree io ≠ 0)
    (asked : Nat) (stack : Mem) (n : StmNet) :
    deliverClose fn asked stack false n io = some (setLink n .error,io,[]) := by
  cases fn with
  | recvConnect => rfl
  | recv =>
    have hfree : iFree io ≠ 0 := h.resolve_left (by decide)
    rw [deliverClose,netLwipRecvIn,if_neg hfree,if_pos rfl]

/-- Both the full ring and the error exit of `net_lwip_build_buffer` look at the length. -/
theorem deliverClose_none {fn : RecvFn} {ok : Bool} {io : Io}
    (h : ¬ (ok = false ∧ (fn = .recvConnect ∨ iFree io ≠ 0))) (asked : Nat) (stack : Mem)
    (n : StmNet) :
    deliverClose fn asked stack ok n io = none := by
  cases fn with
  | recvConnect =>
    have hok : ok = true := by simpa using h
    rw [hok]
    rfl
  | recv =>
    rw [deliverClose,netLwipRecvIn]
    by_cases hfree : iFree io = 0
    · rw [if_pos hfree]
    · have hok : ok = true := by simpa [hfree] using h
      rw [if_neg hfree,hok]
      rfl

theorem closeHandled_iff (fn : RecvFn) (asked : Nat) (stack : Mem) (ok : Bool) (n : StmNet)
    (io : Io) :
    CloseHandled fn asked stack ok n io ↔ ok = false ∧ (fn = .recvConnect ∨ iFree io ≠ 0) := by
  constructor
  · rintro ⟨n',hd,_⟩
    by_contra hno
    rw [deliverClose_none hno] at hd
    cases hd
  · rintro ⟨rfl,h⟩
    refine ⟨setLink n .error,deliverClose_failed h asked stack n,.inr rfl,fun s ha _ => ?_⟩
    exact plPoll_stops_on_error ha rfl

/-- The stack reports the end of a connection without an error, to either function. -/
theorem closeHandled_server_close :
    deliverClose .recv 1 (fun _ => 0) true stmNetInit (ioInit Io.zero) = none ∧
      deliverClose .recvConnect 1 (fun _ => 0) true stmNetInit (ioInit Io.zero) = none ∧
      ¬ CloseHandled .recv 1 (fun _ => 0) true stmNetInit (ioInit Io.zero) ∧
      ¬ CloseHandled .recvConnect 1 (fun _ => 0) true stmNetInit (ioInit Io.zero) := by
  have hnone : ∀ fn : RecvFn, deliverClose fn 1 (fun _ => 0) true stmNetInit (ioInit Io.zero) =
      none :=
    fun fn => deliverClose_none (by simp) 1 _ _
  have hnot : ∀ fn : RecvFn, ¬ CloseHandled fn 1 (fun _ => 0) true stmNetInit (ioInit Io.zero) := by
    rintro fn ⟨n',hd,_⟩
    rw [hnone] at hd
    cases hd
  exact ⟨hnone .recv,hnone .recvConnect,hnot .recv,hnot .recvConnect⟩

end Mardio
