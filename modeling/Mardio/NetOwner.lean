import Mardio.Frames
import Mardio.HandleAccount

/-!
Who owns the socket of the Linux host. The calls of `socket` and `close` that the
network module makes are entered in a ledger; the descriptor itself is never
forgotten by the module, so a second `close` hits whatever has its number by then.
-/

set_option autoImplicit false

namespace Mardio
open Runs

inductive NetCall where
  | open (o : NetOpen)
  | poll (o : NetPoll) (io : Io)
  | close
  | done

/-- The descriptor returned by `socket` and not closed since, and whether all calls
so far were right. -/
structure Ledger where
  held : Option Int
  ok : Bool
  deriving DecidableEq, Repr

/-- Whatever was returned before has to be closed by now. -/
def Ledger.socket (l : Ledger) (fd : Int) : Ledger :=
  ⟨if fd = -1 then l.held else some fd,l.ok && l.held.isNone⟩

def Ledger.close (l : Ledger) (fd : Int) : Ledger :=
  ⟨if l.held = some fd then none else l.held,l.ok && l.held == some fd⟩

def Ledger.shutdown (l : Ledger) : Ledger := { l with ok := l.ok && l.held.isNone }

/-- The calls of `host_net_open`, in its order. -/
def openLedger (o : NetOpen) (ns : Net) (l : Ledger) : Ledger :=
  if o.gethostbyname = false then l
  else
    let tcp := hostNetOpenTcp o { ns with state := .opened }
    if tcp.state ≠ .opened then l.socket o.socket
    else if (hostNetRequest o tcp).state ≠ .opened then (l.socket o.socket).close tcp.sock
    else l.socket o.socket

def closeLedger (ns : Net) (l : Ledger) : Ledger := if ns.sock ≠ 0 then l.close ns.sock else l

structure Owner where
  net : Net
  ledger : Ledger

def Owner.call (s : Owner) : NetCall → Owner
  | .open o => ⟨hostNetOpen o s.net,openLedger o s.net s.ledger⟩
  | .poll o io => { s with net := (hostNetPoll o s.net io).1 }
  | .close => ⟨hostNetClose s.net,closeLedger s.net s.ledger⟩
  | .done => ⟨hostNetClose s.net,(closeLedger s.net s.ledger).shutdown⟩

def ownStep (s : Owner) (c : NetCall) : Option Owner := some (s.call c)

def ownStart : Owner := ⟨hostNetInit,⟨none,true⟩⟩

def OwnsRightly (s : Owner) : Prop := s.ledger.ok = true

instance (s : Owner) : Decidable (OwnsRightly s) := inferInstanceAs (Decidable (_ = _))

/-- The server was reached and does not send what was asked for. -/
def NetOpen.refused (o : NetOpen) : Bool :=
  o.setsockopt && o.connect && decide ((hostNetRequest o ⟨.opened,o.socket⟩).state ≠ .opened)

/-- What can be told from the calls alone: no socket has been asked for, one is
open, the last one is closed or was not given, or it has the number 0. -/
inductive SockPhase where
  | never | open | spent | zero
  deriving DecidableEq, Repr

def NetOpen.phase (o : NetOpen) : SockPhase :=
  if o.socket = -1 then .spent
  else if o.refused then (if o.socket = 0 then .never else .spent)
  else if o.socket = 0 then .zero
  else .open

/-- A close is in order before the first socket and once for each; a new socket is
in order when there is none. -/
def nextPhase : SockPhase → NetCall → Option SockPhase
  | p, .poll _ _ => some p
  | .never, .close => some .never
  | .open, .close => some .spent
  | .spent, .close => none
  | .zero, .close => some .zero
  | .never, .done => some .never
  | .open, .done => some .spent
  | .spent, .done => none
  | .zero, .done => none
  | p, .open o =>
      if o.gethostbyname = false then some p
      else if p = .open ∨ p = .zero then none
      else some o.phase

/-- What the module has in each phase. -/
def PhaseInv (p : SockPhase) (s : Owner) : Prop :=
  s.ledger.ok = true ∧
    match p with
    | .never => s.net.sock = 0 ∧ s.ledger.held = none
    | .open => s.net.sock ≠ 0 ∧ s.ledger.held = some s.net.sock
    | .spent => s.net.sock ≠ 0 ∧ s.ledger.held = none
    | .zero => s.net.sock = 0 ∧ s.ledger.held = some 0

theorem hostNetRequest_sock (o : NetOpen) (ns : Net) : (hostNetRequest o ns).sock = ns.sock := by
  unfold hostNetRequest
  split_ifs
  · rfl
  · split
    · rfl
    · dsimp only
      split_ifs <;> rfl

theorem hostNetOpenTcp_failed {o : NetOpen} {ns : Net} (hg : o.gethostbyname = false) :
    hostNetOpenTcp o ns = { ns with state := .error } := by
  simp [hostNetOpenTcp,hg]

theorem hostNetOpenTcp_found {o : NetOpen} {ns : Net} (hg : o.gethostbyname = true) :
    hostNetOpenTcp o ns =
      ⟨if o.socket = -1 ∨ o.setsockopt = false ∨ o.connect = false then .error
        else ns.state,o.socket⟩ := by
  simp only [hostNetOpenTcp,hg]
  split_ifs <;> simp_all

theorem hostNetOpen_failed {o : NetOpen} {ns : Net} (hg : o.gethostbyname = false) :
    (hostNetOpen o ns).sock = ns.sock := by
  simp [hostNetOpen,hostNetOpenTcp_failed hg]

theorem hostNetOpen_found {o : NetOpen} (ns : Net) (hg : o.gethostbyname = true) :
    (hostNetOpen o ns).sock = o.socket := by
  simp only [hostNetOpen,hostNetOpenTcp_found hg]
  split_ifs <;> simp [hostNetRequest_sock]

theorem openLedger_found {o : NetOpen} {ns : Net} {l : Ledger} (hg : o.gethostbyname = true) :
    openLedger o ns l =
      if o.socket ≠ -1 ∧ o.refused = true then (l.socket o.socket).close o.socket
        else l.socket o.socket := by
  simp only [openLedger,hg,hostNetOpenTcp_found hg,NetOpen.refused]
  by_cases hs : o.socket = -1
  · simp [hs]
  · by_cases hso : o.setsockopt = true <;> by_cases hc : o.connect = true <;> simp [hs,hso,hc]

theorem hostNetPoll_sock (o : NetPoll) (ns : Net) (io : Io) :
    (hostNetPoll o ns io).1.sock = ns.sock := by
  simp only [hostNetPoll,apply_ite Prod.fst,apply_ite Net.sock,ite_self]

/-- Where a socket may be asked for, the calls of an open are all right. -/
theorem open_phase {o : NetOpen} {s : Owner} (hg : o.gethostbyname = true)
    (hok : s.ledger.ok = true) (hn : s.ledger.held = none) :
    PhaseInv o.phase ⟨hostNetOpen o s.net,openLedger o s.net s.ledger⟩ := by
  have hs := hostNetOpen_found s.net hg
  simp only [PhaseInv,openLedger_found hg,NetOpen.phase]
  by_cases h1 : o.socket = -1
  · simp [h1,hs,Ledger.socket,hok,hn]
  · by_cases hr : o.refused = true <;> by_cases h0 : o.socket = 0 <;>
      simp [h0,h1,hr,hs,Ledger.socket,Ledger.close,hok,hn]

/-- A socket that is asked for while another is open is a fault of the ledger. -/
theorem open_held {o : NetOpen} {s : Owner} {fd : Int} (hg : o.gethostbyname = true)
    (hh : s.ledger.held = some fd) : (openLedger o s.net s.ledger).ok = false := by
  simp only [openLedger_found hg]
  split_ifs <;> simp [Ledger.socket,Ledger.close,hh]

theorem phase_step {p q : SockPhase} {s : Owner} {c : NetCall} (h : PhaseInv p s)
    (hc : nextPhase p c = some q) : PhaseInv q (s.call c) := by
  cases c with
  | poll o io =>
    cases hc
    simpa only [PhaseInv,Owner.call,hostNetPoll_sock] using h
  | «open» o =>
    cases hg : o.gethostbyname with
    | false =>
      simp [nextPhase,hg] at hc
      subst hc
      simpa only [PhaseInv,Owner.call,hostNetOpen_failed hg,openLedger,hg,if_pos] using h
    | true =>
      have hq : (p ≠ .open ∧ p ≠ .zero) ∧ o.phase = q := by simpa [nextPhase,hg] using hc
      obtain ⟨⟨hp1,hp2⟩,rfl⟩ := hq
      refine open_phase hg h.1 ?_
      cases p with
      | never => exact h.2.2
      | «open» => exact absurd rfl hp1
      | spent => exact h.2.2
      | zero => exact absurd rfl hp2
  | close =>
    obtain ⟨hok,hp⟩ := h
    cases p <;> cases hc <;> simp_all [PhaseInv,Owner.call,hostNetClose,closeLedger,Ledger.close]
  | done =>
    obtain ⟨hok,hp⟩ := h
    cases p <;> cases hc <;> simp_all [PhaseInv,Owner.call,hostNetClose,closeLedger,Ledger.close,
      Ledger.shutdown]

theorem phase_fault {p : SockPhase} {s : Owner} {c : NetCall} (h : PhaseInv p s)
    (hc : nextPhase p c = none) : ¬ OwnsRightly (s.call c) := by
  obtain ⟨hok,hp⟩ := h
  cases c with
  | poll o io => cases hc
  | «open» o =>
    have hq : o.gethostbyname = true ∧ (p = .open ∨ p = .zero) := by
      cases hg : o.gethostbyname with
      | false => simp [nextPhase,hg] at hc
      | true => simpa [nextPhase,hg,or_iff_not_imp_left] using hc
    obtain ⟨hg,rfl | rfl⟩ := hq
    · simp [OwnsRightly,Owner.call,open_held hg hp.2]
    · simp [OwnsRightly,Owner.call,open_held hg hp.2]
  | close =>
    obtain rfl : p = .spent := by cases p <;> first | rfl | cases hc
    simp [OwnsRightly,Owner.call,closeLedger,Ledger.close,hp.1,hp.2]
  | done =>
    cases p <;> cases hc <;> simp_all [OwnsRightly,Owner.call,closeLedger,Ledger.close,
      Ledger.shutdown]

def closeIf (b : Bool) : List NetCall := if b then [.close] else []

/-- The calls that a step of the player makes of the network module. -/
def issued (s : Sys) : SysOp → List NetCall
  | .play _ o what => closeIf s.pl.state.active ++ if isHttp what then [.open o] else []
  | .stop => closeIf s.pl.state.active
  | .poll => closeIf (s.pl.state.active && !(plPoll s).pl.state.active)
  | .netPoll o => [.poll o s.io]
  | _ => []

def issuedRun : Sys → List SysOp → List NetCall
  | _, [] => []
  | s, op :: ops =>
      issued s op ++ match sysStep s op with
        | none => []
        | some t => issuedRun t ops

def netAfter (ns : Net) (cs : List NetCall) : Net := (cs.foldl Owner.call ⟨ns,⟨none,true⟩⟩).net

theorem foldl_call_net (cs : List NetCall) (s t : Owner) (h : s.net = t.net) :
    (cs.foldl Owner.call s).net = (cs.foldl Owner.call t).net := by
  induction cs generalizing s t with
  | nil => exact h
  | cons c cs ih =>
    refine ih _ _ ?_
    cases c <;> simp [Owner.call,h]

theorem netAfter_append (ns : Net) (as bs : List NetCall) :
    netAfter ns (as ++ bs) = netAfter (netAfter ns as) bs := by
  rw [netAfter,List.foldl_append]
  exact foldl_call_net bs _ _ rfl

/-- The connection is closed exactly when the player stops being active. -/
def ClosesOnStop (s t : Sys) : Prop :=
  t.net = netAfter s.net (closeIf (s.pl.state.active && !t.pl.state.active)) ∧
    (t.pl.state.active = true → s.pl.state.active = true)

theorem ClosesOnStop.same {s t : Sys} (hn : t.net = s.net)
    (ha : t.pl.state.active = s.pl.state.active) :
    ClosesOnStop s t := by
  simp [ClosesOnStop,hn,ha,closeIf,netAfter]

theorem ClosesOnStop.trans {s t u : Sys} (h1 : ClosesOnStop s t) (h2 : ClosesOnStop t u) :
    ClosesOnStop s u := by
  refine ⟨?_,h1.2 ∘ h2.2⟩
  rw [h2.1,h1.1,← netAfter_append]
  have hts := h1.2
  have hut := h2.2
  cases hs : s.pl.state.active <;> cases ht : t.pl.state.active <;> cases hu : u.pl.state.active <;>
    simp_all [closeIf]

theorem plStop_inactive (s : Sys) : (plStop s).pl.state.active = false := by
  cases h : s.pl.state.active with
  | false => simp [plStop,h]
  | true =>
    rw [plStop_active h]
    rfl

theorem plStop_closes (s : Sys) : ClosesOnStop s (plStop s) := by
  cases h : s.pl.state.active with
  | false => exact ClosesOnStop.same (by simp [plStop,h]) (by rw [plStop_inactive,h])
  | true =>
    refine ⟨?_,fun _ => h⟩
    rw [plStop_inactive,plStop_active h,h]
    rfl

theorem plStop_net (s : Sys) : (plStop s).net = netAfter s.net (closeIf s.pl.state.active) := by
  simpa [plStop_inactive] using (plStop_closes s).1

theorem plStop_if_closes (s : Sys) (p : Prop) [Decidable p] :
    ClosesOnStop s (if p then plStop s else s) := by
  split
  · exact plStop_closes s
  · exact .same rfl rfl

theorem setPlState_if_closes {s : Sys} {p : Prop} [Decidable p] {st : PlState}
    (h : p → st.active = s.pl.state.active) :
    ClosesOnStop s (if p then setPlState s st else s) := by
  split
  case isTrue hp => exact .same rfl (h hp)
  case isFalse => exact .same rfl rfl

theorem plPoll_closes (s : Sys) : ClosesOnStop s (plPoll s) := by
  unfold plPoll
  split
  · have hfilled : ClosesOnStop s (pollFilled s) := setPlState_if_closes fun hp => by rw [hp.1]; rfl
    have hclosed (f : FsState) (n : NetState) (u : Sys) : ClosesOnStop u (pollClosed f n u) :=
      (plStop_if_closes u _).trans (plStop_if_closes _ _)
    have herrors := plStop_if_closes (pollFilled s)
      (s.net.state = .error ∨ s.ss.state = .error ∨ s.ls.state = .error)
    have hstarved (u : Sys) : ClosesOnStop u (pollStarved u) :=
      setPlState_if_closes fun hp => by rw [hp.1]; rfl
    exact ((hfilled.trans herrors).trans (hclosed _ _ _)).trans (hstarved _)
  · exact .same rfl rfl

theorem plSwitch_net {s : Sys} (h : s.pl.state.active = false) : (plSwitch s).net = s.net := by
  unfold plSwitch
  split <;> simp [plStop,h,setPlState]

theorem plPlay_net {s t : Sys} {w : World} {o : NetOpen} {what : Str}
    (h : plPlay w o what s = some t) :
    t.net = netAfter s.net (issued s (.play w o what)) := by
  have hreset : (plReset s).net = netAfter s.net (closeIf s.pl.state.active) := plStop_net s
  rw [issued,netAfter_append,← hreset]
  cases hh : isHttp what with
  | true =>
    rw [plPlay_url hh h]
    rfl
  | false =>
    rw [plPlay_name hh] at h
    obtain ⟨fs,-,rfl⟩ := Option.map_eq_some_iff.mp h
    exact plSwitch_net (plStop_inactive s)

/-- The network module is in the state that the calls issued to it lead to. -/
theorem sysStep_net {s t : Sys} {op : SysOp} (h : sysStep s op = some t) :
    t.net = netAfter s.net (issued s op) := by
  cases op with
  | play w o what => exact plPlay_net h
  | stop =>
    cases h
    exact plStop_net s
  | poll =>
    cases h
    exact (plPoll_closes s).1
  | volume v | fsPoll fault | netPoll o | madLoop its | sndLoop os =>
    cases h
    rfl

theorem sysRun_net {s t : Sys} {ops : List SysOp} (h : sysRun s ops = some t) :
    t.net = netAfter s.net (issuedRun s ops) := by
  induction ops generalizing s with
  | nil =>
    cases h
    rfl
  | cons op ops ih =>
    rw [sysRun] at h
    rw [issuedRun,netAfter_append]
    cases hs : sysStep s op with
    | none => simp [hs] at h
    | some u =>
      rw [hs] at h
      rw [← sysStep_net hs]
      exact ih h

def notFound : NetOpen := ⟨true,3,true,true,true,some error404⟩

/-- The descriptors are handled rightly along exactly those sequences of calls in
which every close is the first one after a socket other than 0 was opened and kept,
or comes before all sockets, and every socket is asked for when none is open. -/
theorem ownRun_rightly_iff (cs : List NetCall) :
    Always ownStep OwnsRightly ownStart cs ↔ Accepts nextPhase .never cs :=
  always_iff_accepts (I := PhaseInv) (fun _ _ h => h.1)
    (fun _ s c _ h hc => ⟨s.call c,rfl,phase_step h hc⟩)
    (fun _ s c h hc => ⟨s.call c,rfl,phase_fault h hc⟩) cs .never ownStart ⟨rfl,rfl,rfl⟩

/-- A station that answers 404 is closed by the open and again by the stop. -/
theorem player_closes_twice :
    ¬ Always ownStep OwnsRightly ownStart
      (issuedRun (sysInit [] true) [.play (hostWith none) notFound httpUri,.stop]) := by
  decide +kernel

end Mardio
