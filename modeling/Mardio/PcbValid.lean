import Mardio.NetOwner
import Mardio.Stm32Net

/-!
Which connection the board's player closes. The stack frees a connection on its own
and nobody is told, and every stop closes the last one there was, also after a file.
-/

set_option autoImplicit false

namespace Mardio
open Runs

/-- What has become of the connection of the last play: there is none, its host name
is looked up, or `tcp_new` has made it. Only what is asked for and answered counts. -/
inductive Attempt where
  | none | asking | made (p : Nat)
  deriving DecidableEq, Repr

structure Tried where
  net : StmNet
  attempt : Attempt

def Attempt.isMade : Attempt → Bool
  | .made _ => true
  | .none | .asking => false

def attemptOpen (reply : DnsReply) (r : TcpOpen) (p : Nat) : Attempt :=
  match reply with
  | .ok _ => if r.tcpNew then .made p else .none
  | .inProgress => .asking
  | .failed => .none

/-- The calls of the player as the board's module takes them. Its poll is a step of
its own. -/
def Tried.call (url : Url) (reply : DnsReply) (r : TcpOpen) (s : Tried) : NetCall → Tried
  | .open _ => ⟨stmNetOpen url reply r s.net,attemptOpen reply r s.net.count⟩
  | .close | .done => ⟨stmNetClose s.net,.none⟩
  | .poll _ _ => s

def attemptDns (ipaddr : Option Nat) (r : TcpOpen) (p : Nat) : Attempt :=
  if ipaddr.any (fun a => a ≠ 0) ∧ r.tcpNew then .made p else .none

def attemptEvent (n : StmNet) (a : Attempt) : LwipEvent → Attempt
  | .dns i ipaddr r => if a = .asking ∧ i < n.queries.length then attemptDns ipaddr r n.count else a
  | .freed p => if a = .made p then .none else a
  | .connected _ _ | .recv _ _ _ => a

structure StmBoard where
  sys : Sys
  link : Tried

/-- A call of the player with the outcomes of an open, should it make one; a poll of the
network; a call of the sound driver; an event of the stack. -/
inductive StmBoardOp where
  | call (op : SysOp) (url : Url) (reply : DnsReply) (r : TcpOpen)
  | netPoll (timedOut : Bool)
  | sound (ss : Ss) (o : IoS maxOutputBuffers) (output : Fin maxOutputBuffers → Output)
  | event (e : LwipEvent)

/-- `net_state` is the state of the board's link. -/
def withLink (s : Sys) (n : StmNet) : Sys :=
  { s with net := { s.net with state := n.ns.linkState } }

/-- `host_fs_open` of the board returns -1 whatever it opens, so that a play finds
resources only. Its pointers have 32 bits. -/
def SysOp.onBoard : SysOp → SysOp
  | .play w o what => .play { w with files := fun _ => none, width := 32 } o what
  | op => op

def stmBoardStep (s : StmBoard) : StmBoardOp → Option StmBoard
  | .call op url reply r =>
      match op with
      | .netPoll _ => some s
      | op =>
          (sysStep s.sys op.onBoard).map fun t =>
            let link := (issued s.sys op).foldl (Tried.call url reply r) s.link
            ⟨withLink t link.net,link⟩
  | .netPoll timedOut =>
      some { s with link := { s.link with net := stmNetPoll timedOut s.link.net } }
  | .sound ss o output =>
      some { s with
        sys := { s.sys with ss := ss, io := { s.sys.io with o := o, output := output } } }
  | .event e =>
      let r := lwipEvent s.link.net s.sys.io e
      some ⟨withLink { s.sys with io := r.2 } r.1,⟨r.1,attemptEvent s.link.net s.link.attempt e⟩⟩

def stmBoardStart (entries : List ResEntry) (snd : Bool) : StmBoard :=
  ⟨sysInit entries snd,⟨stmNetInit,.none⟩⟩

/-- `net_lwip_close` and `net_lwip_connected` have only used connections that the stack
had made and not freed and that were not closed. -/
def PcbsValid (s : StmBoard) : Prop := s.link.net.fault = false

instance (s : StmBoard) : Decidable (PcbsValid s) := inferInstanceAs (Decidable (_ = _))

def NetCall.isClose : NetCall → Bool
  | .close | .done => true
  | .open _ | .poll _ _ => false

/-- A play is stopped, by whatever call, only after its connection was made and while
the stack has it. -/
def StopsConnected (s : StmBoard) : StmBoardOp → Prop
  | .call op _ _ _ => (issued s.sys op).any NetCall.isClose = true → s.link.attempt.isMade = true
  | .netPoll _ | .sound _ _ _ | .event _ => True

instance (s : StmBoard) : (op : StmBoardOp) → Decidable (StopsConnected s op)
  | .call _ _ _ _ => inferInstanceAs (Decidable (_ → _))
  | .netPoll _ | .sound _ _ _ | .event _ => isTrue trivial

structure TriedInv (s : Tried) : Prop where
  fault : s.net.fault = false
  eth : s.net.ns.ethState ≠ .unknown
  current : ∀ p, s.attempt = .made p → s.net.ns.pcb = some p ∧ (s.net.pcbs p).valid = true
  connecting : ∀ p, (s.net.pcbs p).status = .connecting → s.attempt = .made p
  answered : s.attempt ≠ .asking → s.net.queries = []
  single : s.net.queries.length ≤ 1

variable {s : Tried} {p : Nat}

theorem Attempt.exists_of_isMade {a : Attempt} (h : a.isMade = true) : ∃ p, a = .made p := by
  cases a with
  | made p => exact ⟨p,rfl⟩
  | none | asking => cases h

theorem PcbStatus.closed_ne_connecting (st : PcbStatus) : st.closed ≠ .connecting := by
  cases st <;> simp [PcbStatus.closed]

theorem TriedInv.close (h : TriedInv s) (hm : s.attempt.isMade = true) :
    TriedInv ⟨stmNetClose s.net,.none⟩ := by
  obtain ⟨p,hp⟩ := Attempt.exists_of_isMade hm
  obtain ⟨hcur,hv⟩ := h.current p hp
  have hq : s.net.queries = [] := h.answered (by simp [hp])
  have hchecked : s.net.checked.fault = false := by
    simp [StmNet.checked,StmNet.validPcb,hcur,hv,h.fault]
  obtain ⟨hnone,_⟩ | ⟨p',hp',he⟩ := netLwipClose_cases s.net
  · cases hnone.symm.trans hcur
  · cases hp'.symm.trans hcur
    refine ⟨?_,?_,fun _ ha => (by cases ha),fun q hconn => ?_,fun _ => ?_,?_⟩
    · rw [stmNetClose,he]
      exact hchecked
    · rw [stmNetClose,he]
      exact h.eth
    · -- the closed one is not connecting, and any other would be the one that was made
      exfalso
      simp only [stmNetClose,he,setPcb] at hconn
      by_cases hqp : q = p
      · subst hqp
        simp only [Function.update_self] at hconn
        exact PcbStatus.closed_ne_connecting _ hconn
      · rw [Function.update_of_ne hqp] at hconn
        cases hp.symm.trans (h.connecting q hconn)
        exact hqp rfl
    · rw [stmNetClose,he]
      exact hq
    · rw [stmNetClose,he]
      exact h.single

/-- Without a connection in the making, a new one is the current one. -/
theorem TriedInv.opened {n : StmNet} (h : TriedInv ⟨n,.none⟩) (r : TcpOpen) (asked : Nat) :
    TriedInv ⟨netLwipOpen r asked n,if r.tcpNew then .made n.count else .none⟩ := by
  have hq : n.queries = [] := h.answered (by simp)
  have hc : ∀ q, (n.pcbs q).status ≠ .connecting := fun q hq => by cases h.connecting q hq
  cases hr : r.tcpNew with
  | false =>
    rw [netLwipOpen,if_pos hr]
    exact ⟨h.fault,h.eth,fun _ ha => (by cases ha),fun q hconn => absurd hconn (hc q),fun _ => hq,
      h.single⟩
  | true =>
    rw [netLwipOpen,if_neg (by simp [hr])]
    refine ⟨h.fault,h.eth,fun p ha => ?_,fun q hconn => ?_,fun _ => hq,h.single⟩
    · cases ha
      refine ⟨rfl,?_⟩
      cases hcon : r.tcpConnect <;> simp [setPcb,Pcb.valid]
    · by_cases hqn : q = n.count
      · rw [hqn]
        rfl
      · simp [setPcb,hqn] at hconn
        exact absurd hconn (hc q)

/-- The fields the invariant does not read. -/
theorem TriedInv.relink {n m : StmNet} {a : Attempt} (h : TriedInv ⟨n,a⟩) (hf : m.fault = n.fault)
    (he : m.ns.ethState ≠ .unknown) (hp : m.ns.pcb = n.ns.pcb)
    (hs : ∀ q, (m.pcbs q).status = (n.pcbs q).status) (hq : m.queries = n.queries) :
    TriedInv ⟨m,a⟩ := by
  refine ⟨hf.trans h.fault,he,fun p ha => ?_,fun q hc => h.connecting q ((hs q).symm.trans hc),
    fun ha => hq.trans (h.answered ha),by simpa only [hq] using h.single⟩
  obtain ⟨hcur,hv⟩ := h.current p ha
  refine ⟨hp.trans hcur,?_⟩
  simpa only [Pcb.valid,hs] using hv

theorem TriedInv.open (h : TriedInv s) (hn : s.attempt = .none) (url : Url) (reply : DnsReply)
    (r : TcpOpen) :
    TriedInv ⟨stmNetOpen url reply r s.net,attemptOpen reply r s.net.count⟩ := by
  have h0 : TriedInv ⟨s.net,.none⟩ := hn ▸ h
  have hnew : ∀ ns : StmNs, ns.ethState = s.net.ns.ethState → ns.pcb = s.net.ns.pcb →
      TriedInv ⟨{ s.net with ns := ns, opens := s.net.opens+1, idle := false },.none⟩ :=
        fun ns he hp =>
    h0.relink rfl (by rw [he]; exact h.eth) hp (fun _ => rfl) rfl
  rw [stmNetOpen,if_neg h.eth]
  cases reply with
  | ok addr =>
    have hpending := hnew { s.net.ns with
      server := addr, hostname := url.hostname, port := url.port.getD s.net.ns.port, linkState :=
        .pending } rfl rfl
    exact hpending.opened r (s.net.opens+1)
  | failed => exact hnew _ rfl rfl
  | inProgress =>
    have hq : s.net.queries = [] := h.answered (by simp [hn])
    refine ⟨h.fault,h.eth,fun _ ha => (by cases ha),fun q hconn => ?_,fun ha => absurd rfl ha,?_⟩
    · cases hn.symm.trans (h.connecting q hconn)
    · simp [setLink,hq]

theorem TriedInv.asking (h : TriedInv s) {i : Nat} (hi : i < s.net.queries.length) :
    s.attempt = .asking := by
  by_contra hne
  simp [h.answered hne] at hi

theorem TriedInv.dns (h : TriedInv s) {i : Nat} {q : DnsQuery} (hq : s.net.queries[i]? = some q)
    (ipaddr : Option Nat) (r : TcpOpen) :
    TriedInv ⟨netLwipDns ipaddr r q.asked { s.net with queries := s.net.queries.eraseIdx i },
      attemptDns ipaddr r s.net.count⟩ := by
  obtain ⟨hi,_⟩ := List.getElem?_eq_some_iff.mp hq
  have hask := h.asking hi
  have hrest : s.net.queries.eraseIdx i = [] := by
    have hlen := List.length_eraseIdx_of_lt hi
    have hone := h.single
    exact List.length_eq_zero_iff.mp (by omega)
  have hc : ∀ p, (s.net.pcbs p).status ≠ .connecting := fun p hp => by
    cases hask.symm.trans (h.connecting p hp)
  have hnew : ∀ ns : StmNs, ns.ethState = s.net.ns.ethState →
      TriedInv ⟨{ s.net with ns := ns, queries := s.net.queries.eraseIdx i },.none⟩ := fun ns he =>
    ⟨h.fault,by rw [he]; exact h.eth,fun _ ha => (by cases ha),fun p hp => absurd hp (hc p),
      fun _ => hrest,by simp [hrest]⟩
  cases ipaddr with
  | none => exact hnew _ rfl
  | some addr =>
    by_cases ha : addr = 0
    · have hn : attemptDns (some addr) r s.net.count = .none := by simp [attemptDns,ha]
      rw [netLwipDns,if_pos ha,hn]
      exact hnew _ rfl
    · have hm : attemptDns (some addr) r s.net.count = if r.tcpNew then .made s.net.count
          else .none := by
        simp [attemptDns,ha]
      rw [netLwipDns,if_neg ha,hm]
      exact (hnew { s.net.ns with server := addr } rfl).opened r q.asked

theorem TriedInv.connected (h : TriedInv s) (hp : (s.net.pcbs p).status = .connecting) (ok : Bool) :
    TriedInv ⟨stmConnected p ok s.net,s.attempt⟩ := by
  have hmade := h.connecting p hp
  have hcur := (h.current p hmade).1
  rw [stmConnected_current hcur]
  cases ok <;>
  · refine ⟨h.fault,h.eth,fun q hq => ?_,fun q hq => ?_,h.answered,h.single⟩
    · cases hmade.symm.trans hq
      exact ⟨hcur,by simp [setLink,setPcb,Pcb.valid]⟩
    · by_cases hqp : q = p
      · rw [hqp]
        exact hmade
      · simp [setLink,setPcb,hqp] at hq
        exact h.connecting q hq

theorem TriedInv.setLink {n : StmNet} {a : Attempt} (h : TriedInv ⟨n,a⟩) (st : NetState) :
    TriedInv ⟨setLink n st,a⟩ := ⟨h.fault,h.eth,h.current,h.connecting,h.answered,h.single⟩

theorem TriedInv.tcpRecv {n : StmNet} {a : Attempt} (h : TriedInv ⟨n,a⟩) (fn : Option RecvFn) :
    TriedInv ⟨tcpRecv fn n,a⟩ := by
  cases hp : n.ns.pcb with
  | none => simpa [Mardio.tcpRecv,hp] using h
  | some p =>
    rw [tcpRecv_current hp]
    refine h.relink rfl h.eth rfl (fun q => ?_) rfl
    by_cases hq : q = p
    · simp [setPcb,hq]
    · simp [setPcb,hq]

theorem TriedInv.received {n : StmNet} {a : Attempt} (h : TriedInv ⟨n,a⟩) (p : Nat)
    (data : Option Str) (ok : Bool) (io : Io) : TriedInv ⟨(stmReceived p data ok n io).1,a⟩ := by
  have hlink : ∀ m st, TriedInv ⟨m,a⟩ → TriedInv ⟨Mardio.setLink m st,a⟩ :=
    fun _ st hm => hm.setLink st
  unfold stmReceived
  split
  · exact h
  · exact recvConnect_keeps (P := fun m => TriedInv ⟨m,a⟩) hlink
      (fun fn _ hm => hm.tcpRecv (some fn)) data ok h
  · exact recv_keeps (P := fun m => TriedInv ⟨m,a⟩) hlink
      (fun _ hm => ⟨hm.fault,hm.eth,hm.current,hm.connecting,hm.answered,hm.single⟩) data ok io h

theorem TriedInv.freed (h : TriedInv s) (p : Nat) :
    TriedInv ⟨setPcb s.net p { s.net.pcbs p with status := .freed },
      if s.attempt = .made p then .none else s.attempt⟩ := by
  have hold : ∀ q, ((setPcb s.net p { s.net.pcbs p with status := .freed }).pcbs q).status =
      .connecting →
      q ≠ p ∧ s.attempt = .made q := by
    intro q hq
    by_cases hqp : q = p
    · simp [setPcb,hqp] at hq
    · exact ⟨hqp,h.connecting q (by simpa [setPcb,hqp] using hq)⟩
  by_cases hm : s.attempt = .made p
  · rw [if_pos hm]
    refine ⟨h.fault,h.eth,fun _ ha => (by cases ha),fun q hq => ?_,
      fun _ => h.answered (by simp [hm]),h.single⟩
    obtain ⟨hne,hmade⟩ := hold q hq
    cases hm.symm.trans hmade
    exact absurd rfl hne
  · rw [if_neg hm]
    refine ⟨h.fault,h.eth,fun q hq => ?_,fun q hq => (hold q hq).2,h.answered,h.single⟩
    have hne : q ≠ p := by
      rintro rfl
      exact hm hq
    obtain ⟨hcur,hv⟩ := h.current q hq
    exact ⟨hcur,by simpa [setPcb,hne] using hv⟩

theorem TriedInv.event (h : TriedInv s) (io : Io) (e : LwipEvent) :
    TriedInv ⟨(lwipEvent s.net io e).1,attemptEvent s.net s.attempt e⟩ := by
  cases e with
  | dns i ipaddr r =>
    cases hq : s.net.queries[i]? with
    | none =>
      have hi := List.getElem?_eq_none_iff.mp hq
      have ha : attemptEvent s.net s.attempt (.dns i ipaddr r) = s.attempt := by
        simp [attemptEvent,Nat.not_lt.mpr hi]
      rw [ha]
      simpa [lwipEvent,hq] using h
    | some q =>
      obtain ⟨hi,_⟩ := List.getElem?_eq_some_iff.mp hq
      have hask := h.asking hi
      have ha : attemptEvent s.net s.attempt (.dns i ipaddr r) =
          attemptDns ipaddr r s.net.count := by
        simp [attemptEvent,hi,hask]
      rw [ha]
      simpa [lwipEvent,hq] using h.dns hq ipaddr r
  | connected p ok =>
    by_cases hp : (s.net.pcbs p).status = .connecting
    · simpa [lwipEvent,hp,attemptEvent] using h.connected hp ok
    · simpa [lwipEvent,hp,attemptEvent] using h
  | recv p data ok =>
    by_cases hp : (s.net.pcbs p).status = .established ∨ (s.net.pcbs p).status = .closing
    · simpa [lwipEvent,hp,attemptEvent] using h.received p data ok io
    · simpa [lwipEvent,hp,attemptEvent] using h
  | freed p => exact h.freed p

structure StmBoardInv (s : StmBoard) : Prop where
  link : TriedInv s.link
  active : s.link.attempt ≠ .none → s.sys.pl.state.active = true

variable {b : StmBoard} {url : Url} {reply : DnsReply} {r : TcpOpen}

/-- A close that is made only of a connection that was made leaves none. -/
theorem StmBoardInv.closed (h : StmBoardInv b) (url : Url) (reply : DnsReply) (r : TcpOpen)
    {c : Bool} (hc : c = true → b.link.attempt.isMade = true) :
    TriedInv ((closeIf c).foldl (Tried.call url reply r) b.link) ∧
      (((closeIf c).foldl (Tried.call url reply r) b.link).attempt = .none ∨
        c = false ∧ ((closeIf c).foldl (Tried.call url reply r) b.link).attempt =
          b.link.attempt) := by
  cases c with
  | false => exact ⟨h.link,.inr ⟨rfl,rfl⟩⟩
  | true => exact ⟨h.link.close (hc rfl),.inl rfl⟩

theorem closeIf_any (c : Bool) : (closeIf c).any NetCall.isClose = c := by
  cases c <;> rfl

/-- The player's stop, as part of any call, leaves no connection. -/
theorem StmBoardInv.stopped (h : StmBoardInv b) (url : Url) (reply : DnsReply) (r : TcpOpen)
    (hc : b.sys.pl.state.active = true → b.link.attempt.isMade = true) :
    TriedInv ((closeIf b.sys.pl.state.active).foldl (Tried.call url reply r) b.link) ∧
      ((closeIf b.sys.pl.state.active).foldl (Tried.call url reply r) b.link).attempt = .none := by
  obtain ⟨hl,hn | ⟨hi,hn⟩⟩ := h.closed url reply r hc
  · exact ⟨hl,hn⟩
  · refine ⟨hl,hn.trans ?_⟩
    by_contra hne
    cases hi.symm.trans (h.active hne)

theorem StmBoardInv.play (h : StmBoardInv b) {w : World} {o : NetOpen} {what : Str} {t : Sys}
    (hok : StopsConnected b (.call (.play w o what) url reply r))
    (hp : plPlay w o what b.sys = some t) :
    StmBoardInv ⟨withLink t ((issued b.sys (.play w o what)).foldl (Tried.call url reply r)
      b.link).net, (issued b.sys (.play w o what)).foldl (Tried.call url reply r) b.link⟩ := by
  have hc : b.sys.pl.state.active = true → b.link.attempt.isMade = true := by
    intro ha
    refine hok ?_
    simp [issued,closeIf_any,ha]
  obtain ⟨hl,hn⟩ := h.stopped url reply r hc
  rw [issued,List.foldl_append]
  cases hu : isHttp what with
  | true =>
    refine ⟨hl.open hn url reply r,fun _ => ?_⟩
    rw [plPlay_url hu hp]
    rfl
  | false => exact ⟨hl,fun hne => absurd hn hne⟩

theorem StmBoardInv.call (h : StmBoardInv b) {op : SysOp} {t : StmBoard}
    (hok : StopsConnected b (.call op url reply r))
    (ht : stmBoardStep b (.call op url reply r) = some t) :
    StmBoardInv t := by
  cases op with
  | netPoll o =>
    cases ht
    exact h
  | play w o what =>
    obtain ⟨u,hu,rfl⟩ := Option.map_eq_some_iff.mp ht
    exact h.play (w := { w with files := fun _ => none, width := 32 }) hok hu
  | stop =>
    cases ht
    obtain ⟨hl,hn⟩ := h.stopped url reply r fun ha => hok (by simp [issued,closeIf_any,ha])
    exact ⟨hl,fun hne => absurd hn hne⟩
  | poll =>
    cases ht
    have hc : (b.sys.pl.state.active && !(plPoll b.sys).pl.state.active) = true →
        b.link.attempt.isMade = true :=
      fun ha => hok (by simpa [issued,closeIf_any] using ha)
    obtain ⟨hl,hn | ⟨hi,hn⟩⟩ := h.closed url reply r hc
    · exact ⟨hl,fun hne => absurd hn hne⟩
    · -- the poll has not stopped the player
      refine ⟨hl,fun hne => ?_⟩
      have ha := h.active fun he => hne (hn.trans he)
      have hstill : (plPoll b.sys).pl.state.active = true := by simpa [ha] using hi
      exact hstill
  | volume v | fsPoll fault | madLoop its | sndLoop os =>
    cases ht
    exact ⟨h.link,h.active⟩

theorem StmBoardInv.step {t : StmBoard} {op : StmBoardOp} (h : StmBoardInv b)
    (hok : StopsConnected b op) (ht : stmBoardStep b op = some t) : StmBoardInv t := by
  cases op with
  | call op url reply r => exact h.call hok ht
  | netPoll timedOut =>
    cases ht
    refine ⟨?_,h.active⟩
    dsimp only [stmNetPoll]
    split
    · exact h.link
    · split
      · exact h.link.relink rfl EthState.noConfusion rfl (fun _ => rfl) rfl
      · exact h.link
  | sound ss o output =>
    cases ht
    exact ⟨h.link,h.active⟩
  | event e =>
    cases ht
    refine ⟨h.link.event b.sys.io e,fun hne => h.active fun he => hne ?_⟩
    rw [he]
    cases e <;> simp [attemptEvent]

theorem stmBoardStart_inv (entries : List ResEntry) (snd : Bool) :
    StmBoardInv (stmBoardStart entries snd) := by
  refine ⟨⟨rfl,EthState.noConfusion,fun _ ha => (by cases ha),fun p hp => ?_,fun _ => rfl,?_⟩,
    fun hne => absurd rfl hne⟩
  · simp [stmBoardStart,stmNetInit] at hp
  · simp [stmBoardStart,stmNetInit]

/-- If every play that is stopped has made its connection and the stack still has it,
no other connection is ever used. -/
theorem stmBoardRun_pcbsValid (entries : List ResEntry) (snd : Bool) (ops : List StmBoardOp)
    (h : Guarded stmBoardStep StopsConnected (stmBoardStart entries snd) ops) :
    Always stmBoardStep PcbsValid (stmBoardStart entries snd) ops :=
  always_of_guarded (I := StmBoardInv) (fun _ hi => hi.link.fault)
    (fun _ _ _ hi hok ht => hi.step hok ht) ops _
    (stmBoardStart_inv entries snd) h

/-- A station is played and stopped. -/
def stationStopped : List StmBoardOp :=
  [.call (.play (hostWith none) noNet httpUri) ⟨[0x61],none⟩ .inProgress ⟨true,true⟩,
    .event (.dns 0 (some 1) ⟨true,true⟩),.event (.connected 0 true),
    .event (.recv 0 (some audioMpeg) true),.call .poll ⟨[],none⟩ .failed ⟨true,true⟩,
      .call .stop ⟨[],none⟩ .failed ⟨true,true⟩]

theorem stmBoardRun_pcbsValid_station :
    Guarded stmBoardStep StopsConnected (stmBoardStart [] true) stationStopped ∧
      Always stmBoardStep PcbsValid (stmBoardStart [] true) stationStopped := by
  have h : Guarded stmBoardStep StopsConnected (stmBoardStart [] true) stationStopped := by
    decide +kernel
  exact ⟨h,stmBoardRun_pcbsValid [] true stationStopped h⟩

/-- A station that is stopped before its name is resolved has no connection yet, and it
is closed all the same. -/
theorem stmBoardRun_closes_null :
    ¬ Always stmBoardStep PcbsValid (stmBoardStart [] true)
      [.call (.play (hostWith none) noNet httpUri) ⟨[0x61],none⟩ .inProgress ⟨true,true⟩,
        .call .stop ⟨[],none⟩ .failed ⟨true,true⟩] := by
  decide +kernel

end Mardio
