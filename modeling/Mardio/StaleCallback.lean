import Mardio.Lib.Runs
import Mardio.Stm32Net

/-!
Callbacks that come late. After a close nothing should be heard of a connection, and
after an open nothing of an earlier one; a query that is still open breaks both.
-/

set_option autoImplicit false

namespace Mardio
open Runs

structure Link where
  net : StmNet
  io : Io

/-- The last stands for whatever the rest of the program does to the rings. -/
inductive LinkOp where
  | open (url : Url) (reply : DnsReply) (r : TcpOpen)
  | close
  | poll (timedOut : Bool)
  | event (e : LwipEvent)
  | rings (io : Io)

def linkStep (s : Link) : LinkOp → Option Link
  | .open url reply r => some { s with net := stmNetOpen url reply r s.net }
  | .close => some { s with net := stmNetClose s.net }
  | .poll timedOut => some { s with net := stmNetPoll timedOut s.net }
  | .event e =>
      let r := lwipEvent s.net s.io e
      some ⟨r.1,r.2⟩
  | .rings io => some { s with io := io }

/-- The link stays closed from a close to the next open, nothing is pushed meanwhile,
and from an open on connections are made, established and read only at an address that
was resolved for it. -/
def OnlyCurrent (s : Link) : Prop :=
  (s.net.idle = true → s.net.ns.linkState = .closed) ∧ s.net.stray = false

instance (s : Link) : Decidable (OnlyCurrent s) := inferInstanceAs (Decidable (_ ∧ _))

/-- A query is answered before the next close or open, and there is a close between
two opens. -/
def Timely (s : Link) : LinkOp → Prop
  | .open _ _ _ => s.net.idle = true
  | .event (.dns i _ _) => ∀ q ∈ s.net.queries[i]?, q.asked = s.net.opens ∧ s.net.idle = false
  | _ => True

instance (s : Link) : (op : LinkOp) → Decidable (Timely s op)
  | .open _ _ _ => inferInstanceAs (Decidable (_ = _))
  | .event (.dns _ _ _) => inferInstanceAs (Decidable (∀ q ∈ _, _ ∧ _))
  | .event (.connected _ _) | .event (.recv _ _ _) | .event (.freed _) | .close | .poll _ | .rings
      _ => isTrue trivial

/-- The stack may still call back for it. -/
def Pcb.Listens (b : Pcb) : Prop := b.status = .connecting ∨ (b.status ≠ .freed ∧ b.recv.isSome)

structure LinkInv (n : StmNet) : Prop where
  closed : n.idle = true → n.ns.linkState = .closed
  clean : n.stray = false
  current : ∀ p, (n.pcbs p).Listens → n.ns.pcb = some p ∧ (n.pcbs p).asked = n.opens ∧
    n.idle = false
  asked : ∀ q ∈ n.queries, q.asked ≤ n.opens
  once : (n.queries.map DnsQuery.asked).Nodup
  waiting : ∀ q ∈ n.queries, q.asked = n.opens → ∀ p, ¬ (n.pcbs p).Listens

variable {n : StmNet} {p : Nat}

theorem stmNetInit_inv : LinkInv stmNetInit := by
  refine ⟨fun _ => rfl,rfl,fun p hp => ?_,by simp [stmNetInit],by simp [stmNetInit],
    by simp [stmNetInit]⟩
  simp [stmNetInit,Pcb.Listens] at hp

theorem LinkInv.silent (h : LinkInv n) (hi : n.idle = true) (p : Nat) : ¬ (n.pcbs p).Listens := by
  intro hp
  have := (h.current p hp).2.2
  simp [hi] at this

theorem LinkInv.setLink (h : LinkInv n) (hi : n.idle = false) (st : NetState) :
    LinkInv (setLink n st) :=
  ⟨fun ht => absurd (hi.symm.trans ht) Bool.noConfusion,h.clean,h.current,h.asked,h.once,h.waiting⟩

theorem listens_setPcb {b : Pcb} {q : Nat} (h : ((setPcb n p b).pcbs q).Listens) :
    (q = p ∧ b.Listens) ∨ (q ≠ p ∧ (n.pcbs q).Listens) := by
  by_cases hq : q = p
  · subst hq
    exact .inl ⟨rfl,by simpa [setPcb] using h⟩
  · exact .inr ⟨hq,by simpa [setPcb,hq] using h⟩

/-- A connection that is heard of is the current one, so its entry may change. -/
theorem LinkInv.setPcb (h : LinkInv n) (hp : (n.pcbs p).Listens) {b : Pcb}
    (hb : b.asked = (n.pcbs p).asked) :
    LinkInv (setPcb n p b) := by
  obtain ⟨hcur,hask,hidle⟩ := h.current p hp
  have hother : ∀ q, ((Mardio.setPcb n p b).pcbs q).Listens → q = p := by
    intro q hq
    obtain ⟨he,_⟩ | ⟨_,hq⟩ := listens_setPcb hq
    · exact he
    · cases hcur.symm.trans (h.current q hq).1
      rfl
  refine ⟨h.closed,h.clean,fun q hq => ?_,h.asked,h.once,
    fun q hq heq => absurd hp (h.waiting q hq heq p)⟩
  cases hother q hq
  exact ⟨hcur,by simpa [Mardio.setPcb,hb] using hask,hidle⟩

theorem LinkInv.tcpRecv (h : LinkInv n) (hp : (n.pcbs p).Listens) (fn : Option RecvFn) :
    LinkInv (tcpRecv fn n) := by
  rw [tcpRecv_current (h.current p hp).1]
  exact h.setPcb hp rfl

/-- With nothing to be heard of, a new connection is the current one. -/
theorem LinkInv.opened (h : LinkInv n) (hi : n.idle = false) (hs : ∀ p, ¬ (n.pcbs p).Listens)
    (hq : ∀ q ∈ n.queries, q.asked ≠ n.opens) (r : TcpOpen) :
    LinkInv (netLwipOpen r n.opens n) := by
  unfold netLwipOpen
  split
  · exact ⟨fun ht => absurd (hi.symm.trans ht) Bool.noConfusion,h.clean,
      fun p hp => absurd hp (hs p),h.asked,h.once,h.waiting⟩
  · refine ⟨fun ht => absurd (hi.symm.trans ht) Bool.noConfusion,by simp [h.clean],fun p hp => ?_,
      h.asked,h.once,fun q hm heq => absurd heq (hq q hm)⟩
    obtain ⟨rfl,_⟩ | ⟨_,hp⟩ := listens_setPcb hp
    · exact ⟨rfl,by simp [Mardio.setPcb],hi⟩
    · exact absurd hp (hs p)

theorem Pcb.closed_silent (b : Pcb) : ¬ Pcb.Listens
    { b with recv := none, status := b.status.closed } := by
  cases h : b.status <;> simp [Pcb.Listens,PcbStatus.closed]

theorem LinkInv.close (h : LinkInv n) : LinkInv (stmNetClose n) := by
  have hsilent : ∀ p, ¬ ((netLwipClose n).pcbs p).Listens := by
    intro p hp
    obtain ⟨hnone,he⟩ | ⟨q,hcur,he⟩ := netLwipClose_cases n
    · rw [he] at hp
      cases hnone.symm.trans (h.current p hp).1
    · rw [he] at hp
      obtain ⟨_,hp⟩ | ⟨hne,hp⟩ := listens_setPcb hp
      · exact Pcb.closed_silent _ hp
      · cases hcur.symm.trans (h.current p hp).1
        exact hne rfl
  have hsame : (netLwipClose n).ns.linkState = .closed ∧ (netLwipClose n).stray = n.stray ∧
      (netLwipClose n).queries = n.queries ∧ (netLwipClose n).opens = n.opens := by
    obtain ⟨_,he⟩ | ⟨q,_,he⟩ := netLwipClose_cases n <;> rw [he] <;> exact ⟨rfl,rfl,rfl,rfl⟩
  obtain ⟨hlink,hstray,hqs,hops⟩ := hsame
  refine ⟨fun _ => hlink,hstray.trans h.clean,fun p hp => absurd hp (hsilent p),?_,?_,
    fun _ _ _ => hsilent⟩
  · simpa [stmNetClose,hqs,hops] using h.asked
  · simpa [stmNetClose,hqs] using h.once

theorem LinkInv.open (h : LinkInv n) (hi : n.idle = true) (url : Url) (reply : DnsReply)
    (r : TcpOpen) :
    LinkInv (stmNetOpen url reply r n) := by
  have hs := h.silent hi
  have hq : ∀ q ∈ n.queries, q.asked ≠ n.opens+1 := fun q hm => by
    have := h.asked q hm
    omega
  -- the open is numbered before anything else, and no query has its number yet
  have hnew : ∀ ns : StmNs, LinkInv { n with ns := ns, opens := n.opens+1, idle := false } :=
    fun ns =>
    ⟨Bool.noConfusion,h.clean,fun p hp => absurd hp (hs p),
      fun q hm => Nat.le_succ_of_le (h.asked q hm),h.once,fun _ _ _ => hs⟩
  unfold stmNetOpen
  dsimp only
  split
  · exact hnew _
  · cases reply with
    | ok addr => exact LinkInv.opened (hnew _) rfl hs hq r
    | failed => exact hnew _
    | inProgress =>
      refine ⟨Bool.noConfusion,h.clean,fun p hp => absurd hp (hs p),fun q hm => ?_,?_,
        fun _ _ _ => hs⟩
      · obtain hm | rfl := by simpa [Mardio.setLink] using hm
        · exact Nat.le_succ_of_le (h.asked q hm)
        · exact Nat.le_refl _
      · simp only [Mardio.setLink,List.map_append,List.map_cons,List.map_nil]
        refine List.nodup_append.mpr ⟨h.once,by simp,fun a ha b hb heq => ?_⟩
        obtain ⟨q,hm,rfl⟩ := List.mem_map.mp ha
        exact hq q hm (heq.trans (by simpa using hb))

theorem LinkInv.dns (h : LinkInv n) {i : Nat} {q : DnsQuery} (hq : n.queries[i]? = some q)
    (hask : q.asked = n.opens) (hi : n.idle = false) (ipaddr : Option Nat) (r : TcpOpen) :
    LinkInv (netLwipDns ipaddr r q.asked { n with queries := n.queries.eraseIdx i }) := by
  have hmem : q ∈ n.queries := List.mem_of_getElem? hq
  have hs := h.waiting q hmem hask
  have hsub : n.queries.eraseIdx i ⊆ n.queries := (List.eraseIdx_sublist n.queries i).subset
  have hrest : LinkInv { n with queries := n.queries.eraseIdx i } :=
    ⟨h.closed,h.clean,h.current,fun q hm => h.asked q (hsub hm),
      h.once.sublist ((List.eraseIdx_sublist n.queries i).map _),fun q hm => h.waiting q (hsub hm)⟩
  -- numbers are not used twice, so the answered query was the only one of this open
  have hother : ∀ x ∈ n.queries.eraseIdx i, x.asked ≠ n.opens := by
    intro x hx heq
    obtain ⟨j,hj,hxj⟩ := List.mem_eraseIdx_iff_getElem?.mp hx
    have hlt : i < (n.queries.map DnsQuery.asked).length := by
      rw [List.length_map]
      exact (List.getElem?_eq_some_iff.mp hq).1
    have hsame : (n.queries.map DnsQuery.asked)[i]? = (n.queries.map DnsQuery.asked)[j]? := by
      simp [hq,hxj,hask,heq]
    exact hj ((List.getElem?_inj hlt h.once).mp hsame).symm
  cases ipaddr with
  | none => exact hrest.setLink hi _
  | some addr =>
    by_cases ha : addr = 0
    · rw [netLwipDns,if_pos ha]
      exact hrest.setLink hi _
    · have hserver :
          LinkInv { n with queries := n.queries.eraseIdx i, ns := { n.ns with server := addr } } :=
        ⟨hrest.closed,hrest.clean,hrest.current,hrest.asked,hrest.once,hrest.waiting⟩
      rw [netLwipDns,if_neg ha,hask]
      exact hserver.opened hi hs hother r

theorem LinkInv.connected (h : LinkInv n) (hp : (n.pcbs p).status = .connecting) (ok : Bool) :
    LinkInv (stmConnected p ok n) := by
  have hl : (n.pcbs p).Listens := .inl hp
  obtain ⟨hcur,hask,hi⟩ := h.current p hl
  have hset (b : Pcb) (hb : b.asked = (n.pcbs p).asked) : LinkInv (Mardio.setPcb n p b) :=
    h.setPcb hl hb
  have hstray : (n.stray || (!n.idle && decide ((n.pcbs p).asked ≠ n.opens))) = false := by
    simp [h.clean,hask]
  rw [stmConnected_current hcur,hstray,← h.clean]
  cases ok with
  | false => exact (hset { n.pcbs p with status := .established } rfl).setLink hi .error
  | true => exact hset { n.pcbs p with status := .established, recv := some .recvConnect } rfl

theorem LinkInv.received (h : LinkInv n)
    (hp : (n.pcbs p).status = .established ∨ (n.pcbs p).status = .closing) (data : Option Str)
    (ok : Bool) (io : Io) : LinkInv (stmReceived p data ok n io).1 := by
  have hs : (n.pcbs p).status ≠ .freed := by
    obtain hp | hp := hp <;> rw [hp] <;> exact PcbStatus.noConfusion
  -- a callback is only made for a connection that is heard of, which stays so
  have hlink : ∀ m st, LinkInv m ∧ (m.pcbs p).Listens → LinkInv (Mardio.setLink m st) ∧
      ((Mardio.setLink m st).pcbs p).Listens := fun m st hm =>
    ⟨hm.1.setLink (hm.1.current p hm.2).2.2 st,hm.2⟩
  have hrecv : ∀ fn m, LinkInv m ∧ (m.pcbs p).Listens → LinkInv (Mardio.tcpRecv (some fn) m) ∧
      ((Mardio.tcpRecv (some fn) m).pcbs p).Listens := by
    rintro fn m ⟨hm,hl⟩
    refine ⟨hm.tcpRecv hl _,?_⟩
    rw [tcpRecv_current (hm.current p hl).1]
    simp only [Mardio.setPcb,Function.update_self]
    exact hl.imp_right fun hf => ⟨hf.1,rfl⟩
  unfold stmReceived
  split
  · exact h
  case h_2 hfn => exact (recvConnect_keeps hlink hrecv data ok ⟨h,.inr ⟨hs,by simp [hfn]⟩⟩).1
  case h_3 hfn =>
    have hl : (n.pcbs p).Listens := .inr ⟨hs,by simp [hfn]⟩
    obtain ⟨_,hask,hi⟩ := h.current p hl
    have hpush : ∀ m, LinkInv m ∧ (m.pcbs p).Listens →
        LinkInv { m with stray := n.stray || n.idle || decide ((n.pcbs p).asked ≠ n.opens) } ∧
          (m.pcbs p).Listens := fun m hm =>
      ⟨⟨hm.1.closed,by simp [h.clean,hi,hask],hm.1.current,hm.1.asked,hm.1.once,hm.1.waiting⟩,hm.2⟩
    exact (recv_keeps hlink hpush data ok io ⟨h,hl⟩).1

theorem LinkInv.freed (h : LinkInv n) (p : Nat) :
    LinkInv (Mardio.setPcb n p { n.pcbs p with status := .freed }) := by
  have hold : ∀ q, ((Mardio.setPcb n p { n.pcbs p with status := .freed }).pcbs q).Listens →
      q ≠ p ∧ (n.pcbs q).Listens := by
    intro q hq
    obtain ⟨_,hf⟩ | hold := listens_setPcb hq
    · simp [Pcb.Listens] at hf
    · exact hold
  refine ⟨h.closed,h.clean,fun q hq => ?_,h.asked,h.once,
    fun x hx heq q hq => h.waiting x hx heq q (hold q hq).2⟩
  obtain ⟨hne,hl⟩ := hold q hq
  obtain ⟨hcur,hask,hi⟩ := h.current q hl
  exact ⟨hcur,by simpa [Mardio.setPcb,hne] using hask,hi⟩

theorem LinkInv.event (h : LinkInv n) (io : Io) (e : LwipEvent) (hok : Timely ⟨n,io⟩ (.event e)) :
    LinkInv (lwipEvent n io e).1 := by
  cases e with
  | dns i ipaddr r =>
    cases hq : n.queries[i]? with
    | none => simpa [lwipEvent,hq] using h
    | some q =>
      obtain ⟨hask,hi⟩ := hok q hq
      simpa [lwipEvent,hq] using h.dns hq hask hi ipaddr r
  | connected p ok =>
    by_cases hp : (n.pcbs p).status = .connecting
    · simpa [lwipEvent,hp] using h.connected hp ok
    · simpa [lwipEvent,hp] using h
  | recv p data ok =>
    by_cases hp : (n.pcbs p).status = .established ∨ (n.pcbs p).status = .closing
    · simpa [lwipEvent,hp] using h.received hp data ok io
    · simpa [lwipEvent,hp] using h
  | freed p => exact h.freed p

theorem LinkInv.step {s t : Link} {op : LinkOp} (h : LinkInv s.net) (hok : Timely s op)
    (ht : linkStep s op = some t) : LinkInv t.net := by
  cases op with
  | «open» url reply r =>
    cases ht
    exact h.open hok url reply r
  | close =>
    cases ht
    exact h.close
  | poll timedOut =>
    cases ht
    dsimp only [stmNetPoll]
    split
    · exact h
    · split
      · exact ⟨h.closed,h.clean,h.current,h.asked,h.once,h.waiting⟩
      · exact h
  | event e =>
    cases ht
    exact h.event s.io e hok
  | rings io =>
    cases ht
    exact h

/-- If every query is answered before the next close or open, and connections are
closed before the next open, nothing is heard of an earlier connection. -/
theorem linkRun_onlyCurrent (io : Io) (ops : List LinkOp)
    (h : Guarded linkStep Timely ⟨stmNetInit,io⟩ ops) :
    Always linkStep OnlyCurrent ⟨stmNetInit,io⟩ ops :=
  always_of_guarded (I := fun s : Link => LinkInv s.net) (fun _ hi => ⟨hi.closed,hi.clean⟩)
    (fun _ _ _ hi hok ht => hi.step hok ht) ops _ stmNetInit_inv h

def urlA : Url := ⟨[0x61],some 80⟩
def urlB : Url := ⟨[0x62],none⟩
def tcpMade : TcpOpen := ⟨true,true⟩

/-- Two stations, one after the other. -/
def orderly : List LinkOp :=
  [.open urlA .inProgress tcpMade,.event (.dns 0 (some 1) tcpMade),.event (.connected 0 true),
    .event (.recv 0 (some audioMpeg) true),.event (.recv 0 (some [1,2]) true),.close,
    .open urlB (.ok 2) tcpMade,.event (.connected 1 true),.event (.recv 1 (some audioMpeg) true)]

theorem linkRun_onlyCurrent_orderly :
    Guarded linkStep Timely ⟨stmNetInit,ioInit Io.zero⟩ orderly ∧
      Always linkStep OnlyCurrent ⟨stmNetInit,ioInit Io.zero⟩ orderly := by
  have h : Guarded linkStep Timely ⟨stmNetInit,ioInit Io.zero⟩ orderly := by decide +kernel
  exact ⟨h,linkRun_onlyCurrent _ _ h⟩

/-- An answer that comes after another open connects to the earlier station, and one
that comes after a close opens the link again. -/
theorem linkRun_late_answer :
    ¬ Always linkStep OnlyCurrent ⟨stmNetInit,ioInit Io.zero⟩
      [.open urlA .inProgress tcpMade,.open urlB .inProgress tcpMade,
        .event (.dns 0 (some 1) tcpMade)] ∧
    ¬ Always linkStep OnlyCurrent ⟨stmNetInit,ioInit Io.zero⟩
      [.open urlA (.ok 1) tcpMade,.open urlB .inProgress tcpMade,.close,
        .event (.dns 0 (some 2) tcpMade),.event (.connected 1 true),
          .event (.recv 1 (some audioMpeg) true)] := by
  decide +kernel

end Mardio
