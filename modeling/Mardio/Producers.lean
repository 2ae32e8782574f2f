import Mardio.Frames
import Mardio.Stm32Net

/-!
The producers of the input ring: the poll of an MP3 file, the poll of the Linux socket
and the data callback of the TCP stack. The first two take their slot before they know
what they will read; the callback takes it last, but acknowledges data it has no slot
for.
-/

set_option autoImplicit false

namespace Mardio
open CounterRing Runs

/-- The sources and the rings. `spoilt` is history: a read that failed or found the
end has moved the input ring. -/
structure Intake where
  fs : Fs
  net : Net
  stm : StmNet
  io : Io
  spoilt : Bool

/-- A call of a producer, a removal, a reset, or anything else, which may change all
but the input ring. -/
inductive IntakeOp where
  | fsPollMp3 (fault : Option Nat)
  | hostNetPoll (o : NetPoll)
  | netLwipRecv (asked : Nat) (p : Option Str) (ok : Bool)
  | iPop
  | ioResetInput
  | other (fs : Fs) (net : Net) (stm : StmNet) (o : IoS maxOutputBuffers)
      (output : Fin maxOutputBuffers → Output)

/-- The call gets as far as its read, which fails or delivers nothing. -/
def ReadsNothing (s : Intake) : IntakeOp → Prop
  | .fsPollMp3 fault => iFree s.io ≠ 0 ∧
      ((fsRead fault s.fs.handle ioInputBufferSize s.fs).1 = none ∨
        (fsRead fault s.fs.handle ioInputBufferSize s.fs).1 = some [])
  | .hostNetPoll o => s.net.state = .opened ∧ iFree s.io ≠ 0 ∧ o.ret > 0 ∧ o.pollin = true ∧
      (o.recv = none ∨ o.recv = some [])
  | .netLwipRecv _ p ok => iFree s.io ≠ 0 ∧ (ok = false ∨ (netLwipBuildBuffer p tcpMss s.stm).1 ≤ 0)
  | _ => False

instance decidableReadsNothing (s : Intake) : (op : IntakeOp) → Decidable (ReadsNothing s op)
  | .fsPollMp3 _ => inferInstanceAs (Decidable (_ ∧ _))
  | .hostNetPoll _ => inferInstanceAs (Decidable (_ ∧ _))
  | .netLwipRecv _ _ _ => inferInstanceAs (Decidable (_ ∧ _))
  | .iPop | .ioResetInput | .other _ _ _ _ _ => isFalse id

/-- The sources and the rings after a call. -/
def intakeCall (s : Intake) : IntakeOp → Fs × Net × StmNet × Io
  | .fsPollMp3 fault =>
      let r := fsPollMp3 fault s.fs s.io
      (r.1,s.net,s.stm,r.2)
  | .hostNetPoll o =>
      let r := hostNetPoll o s.net s.io
      (s.fs,r.1,s.stm,r.2)
  | .netLwipRecv asked p ok =>
      let r := netLwipRecv asked p ok s.stm s.io
      (s.fs,s.net,r.1,r.2)
  | .iPop => (s.fs,s.net,s.stm,(iPop s.io).2)
  | .ioResetInput => (s.fs,s.net,s.stm,ioResetInput s.io)
  | .other fs net stm o output => (fs,net,stm,{ s.io with o := o, output := output })

def intakeStep (s : Intake) (op : IntakeOp) : Option Intake :=
  let r := intakeCall s op
  some ⟨r.1,r.2.1,r.2.2.1,r.2.2.2,s.spoilt ||
    (decide (ReadsNothing s op) && decide (r.2.2.2.i ≠ s.io.i))⟩

def intakeStart (fs : Fs) (net : Net) (stm : StmNet) (io : Io) : Intake :=
  ⟨fs,net,stm,ioInit io,false⟩

/-- Every queued buffer has data, no more than fits, and reads that brought nothing have
left the ring alone. -/
structure QueuedValid (s : Intake) : Prop where
  valid : ∀ e ∈ s.io.inRing.contents, 1 ≤ e.2.used ∧ e.2.used ≤ e.2.size
  kept : s.spoilt = false

/-- The file or the socket delivers at least one byte whenever it is read. -/
def Delivers (s : Intake) : IntakeOp → Prop
  | .netLwipRecv _ _ _ => True
  | op => ¬ ReadsNothing s op

/-! What each producer does to the rings. -/

theorem pushed_reset (io : Io) : (iPush io).2.input (iPush io).1 = ioInputResetBuffer := by
  simp [iPush,pushSlot]

theorem pushed_size (io : Io) : ((iPush io).2.input (iPush io).1).size = ioInputBufferSize := by
  rw [pushed_reset]
  rfl

theorem pushed_data (io : Io) : ((iPush io).2.input (iPush io).1).data = [] := by
  rw [pushed_reset]
  rfl

theorem fsPollMp3_full {fault : Option Nat} {fs : Fs} {io : Io} (hf : iFree io = 0) :
    fsPollMp3 fault fs io = (fs,io) := by rw [fsPollMp3,if_pos hf]

theorem fsPollMp3_room (fault : Option Nat) (fs : Fs) {io : Io} (hf : iFree io ≠ 0) :
    ∃ bytes fs', (fsPollMp3 fault fs io) =
      (fs',io.enqueue ⟨bytes,ioInputBufferSize,bytes.length % 2^16⟩) ∧
      ((fsRead fault fs.handle ioInputBufferSize fs).1 = some bytes ∨
        bytes = [] ∧ (fsRead fault fs.handle ioInputBufferSize fs).1 = none) := by
  cases hr : fsRead fault fs.handle ioInputBufferSize fs with
  | mk ret t =>
  cases ret with
  | none =>
    refine ⟨[],fsStop t,?_,.inr ⟨rfl,rfl⟩⟩
    simp only [fsPollMp3,if_neg hf,pushed_size,hr]
    rw [iPush_reset]
    rfl
  | some bytes =>
    cases bytes with
    | nil =>
      refine ⟨[],fsStop t,?_,.inl rfl⟩
      simp only [fsPollMp3,if_neg hf,pushed_size,hr]
      rw [iPush_reset]
      rfl
    | cons a as =>
      refine ⟨a :: as,t,?_,.inl rfl⟩
      simp only [fsPollMp3,if_neg hf,pushed_size,hr]
      rfl

theorem iFree_lt_one {io : Io} : iFree io < 1 ↔ iFree io = 0 := by
  rw [UInt16.lt_iff_toNat_lt,← UInt16.toNat_inj]
  simp

/-- The poll of the socket leaves the rings alone or queues what `recv` gives it, -1 as
a length included. -/
theorem hostNetPoll_io (o : NetPoll) (ns : Net) (io : Io) :
    (hostNetPoll o ns io).2 =
      if ns.state = .opened ∧ iFree io ≠ 0 ∧ o.ret > 0 ∧ o.pollin = true then
        io.enqueue (o.recv.elim ⟨[],ioInputBufferSize,2^16-1⟩ fun bytes =>
          ⟨bytes.take ioInputBufferSize,ioInputBufferSize,
            (bytes.take ioInputBufferSize).length % 2^16⟩)
      else io := by
  by_cases hst : ns.state = .opened
  · by_cases hf : iFree io = 0
    · simp [hostNetPoll,hst,hf]
    · by_cases hr : o.ret > 0 ∧ o.pollin = true
      · have hread : (decide (o.ret > 0) && o.pollin) = true := by simpa using hr
        rw [if_pos ⟨hst,hf,hr.1,hr.2⟩]
        simp only [hostNetPoll,hst,iFree_lt_one,hf,hread,pushed_size,pushed_data]
        cases o.recv <;> (simp only [ne_eq,not_true_eq_false,if_false,if_true]; split_ifs <;> rfl)
      · have hread : (decide (o.ret > 0) && o.pollin) = false := by simpa using hr
        rw [if_neg fun h => hr h.2.2]
        simp only [hostNetPoll,hst,iFree_lt_one,hf,hread]
        split_ifs <;> simp_all
  · simp [hostNetPoll,hst]

theorem netLwipRecv_io (asked : Nat) (p : Option Str) (ok : Bool) (n : StmNet) (io : Io) :
    (netLwipRecv asked p ok n io).2 =
      if iFree io ≠ 0 ∧ ok = true ∧ 0 < (p.getD []).length ∧ (p.getD []).length ≤ tcpMss then
        io.enqueue ⟨p.getD [],ioInputBufferSize,(p.getD []).length⟩
      else io := by
  by_cases hf : iFree io = 0
  · simp [netLwipRecv,hf]
  · cases ok with
    | false => simp [netLwipRecv,hf]
    | true =>
      cases p with
      | none => simp [netLwipRecv,hf,netLwipBuildBuffer]
      | some bytes =>
        by_cases hlen : bytes.length > tcpMss
        · simp [netLwipRecv,hf,netLwipBuildBuffer,hlen,Nat.not_le.mpr hlen]
        · by_cases hpos : 0 < bytes.length
          · have htake : bytes.take ioInputBufferSize = bytes :=
              List.take_of_length_le (Nat.not_lt.mp hlen)
            have hne : ¬ (bytes.length : Int) ≤ 0 := by omega
            rw [if_pos ⟨hf,rfl,hpos,Nat.not_lt.mp hlen⟩]
            simp only [netLwipRecv,hf,netLwipBuildBuffer,hlen,hne,if_false,Bool.true_eq_false,htake,
              pushed_size]
            rfl
          · obtain rfl : bytes = [] := List.eq_nil_of_length_eq_zero (by omega)
            simp [netLwipRecv,hf,netLwipBuildBuffer]

theorem hostFsRead_length (fault : Option Nat) (h : Int) (size : Nat) (fs : Fs) :
    (hostFsRead fault h size fs).1.length ≤ size := by
  rw [hostFsRead]
  split
  · simp
  · split
    · simp
    · simp only [List.length_take]
      omega

theorem resRead_length (h : Int) (size : Nat) (fs : Fs) : (resRead h size fs).1.length ≤ size := by
  rw [resRead]
  split
  · simp
  · split
    · simp
    · simp only [List.length_take]
      split <;> omega

theorem fsRead_length {fault : Option Nat} {h : Int} {size : Nat} {fs : Fs} {bytes : List UInt8}
    (hr : (fsRead fault h size fs).1 = some bytes) : bytes.length ≤ size := by
  by_cases hb : badHandle h ∨ size = 0
  · simp [fsRead,hb] at hr
  · cases hs : (fs.handles h.toNat).source with
    | closed => simp [fsRead,hb,hs] at hr
    | host =>
      simp only [fsRead,if_neg hb,hs,Option.some.injEq] at hr
      rw [← hr]
      exact hostFsRead_length fault _ size fs
    | resource =>
      simp only [fsRead,if_neg hb,hs,Option.some.injEq] at hr
      rw [← hr]
      exact resRead_length _ size fs

def Input.valid (b : Input) : Prop := 1 ≤ b.used ∧ b.used ≤ b.size

theorem valid_of_bytes {bytes : Str} (hne : bytes ≠ []) (hle : bytes.length ≤ ioInputBufferSize) :
    Input.valid ⟨bytes,ioInputBufferSize,bytes.length % 2^16⟩ := by
  have hpos := List.length_pos_iff.mpr hne
  simp only [Input.valid,ioInputBufferSize] at *
  omega

/-- All that a call does to the input ring: it queues a buffer with data, or one without
where the file or the socket delivered nothing, leaves the ring alone, removes or resets. -/
inductive Intakes (s : Intake) (op : IntakeOp) (io : Io) : Prop where
  | fills (b : Input) (room : iFree s.io ≠ 0) (read : ¬ ReadsNothing s op) (valid : b.valid)
      (ring : io = s.io.enqueue b)
  | spoils (b : Input) (room : iFree s.io ≠ 0) (read : ¬ Delivers s op) (invalid : ¬ b.valid)
      (ring : io = s.io.enqueue b)
  | keeps (read : Delivers s op) (i : io.i = s.io.i) (input : io.input = s.io.input)
  | takes (read : ¬ ReadsNothing s op) (ring : io = (iPop s.io).2)
  | resets (read : ¬ ReadsNothing s op) (ring : io = ioResetInput s.io)

theorem not_nothing_of_bytes {read : Option Str} {bytes : Str} (hr : read = some bytes)
    (hne : bytes ≠ []) :
    ¬ (read = none ∨ read = some []) := by
  subst hr
  simpa using hne

theorem fsPollMp3_intakes (fault : Option Nat) (s : Intake) :
    Intakes s (.fsPollMp3 fault) (fsPollMp3 fault s.fs s.io).2 := by
  by_cases hf : iFree s.io = 0
  · rw [fsPollMp3_full hf]
    exact .keeps (fun h => h.1 hf) rfl rfl
  · obtain ⟨bytes,fs,hpoll,hread⟩ := fsPollMp3_room fault s.fs hf
    rw [hpoll]
    by_cases hb : bytes = []
    · -- the slot stays queued as `i_push` has reset it
      subst hb
      refine .spoils _ hf (fun h => h ⟨hf,?_⟩) (by simp [Input.valid]) rfl
      obtain hr | ⟨-,hr⟩ := hread
      · exact .inr hr
      · exact .inl hr
    · obtain hr | ⟨he,-⟩ := hread
      · exact .fills _ hf (fun h => not_nothing_of_bytes hr hb h.2)
          (valid_of_bytes hb (fsRead_length hr)) rfl
      · exact absurd he hb

theorem hostNetPoll_intakes (o : NetPoll) (s : Intake) :
    Intakes s (.hostNetPoll o) (hostNetPoll o s.net s.io).2 := by
  rw [hostNetPoll_io]
  split
  · rename_i hc
    obtain ⟨hst,hf,hret,hin⟩ := hc
    cases hr : o.recv with
    | none =>
      -- the length -1 is stored in 16 bits
      refine .spoils _ hf (fun h => h ⟨hst,hf,hret,hin,.inl hr⟩) ?_ rfl
      simp [Input.valid,ioInputBufferSize]
    | some bytes =>
      by_cases hb : bytes = []
      · subst hb
        refine .spoils _ hf (fun h => h ⟨hst,hf,hret,hin,.inr hr⟩) ?_ rfl
        simp [Input.valid]
      · refine .fills _ hf (fun h => not_nothing_of_bytes hr hb h.2.2.2.2)
          (valid_of_bytes ?_ (List.length_take_le ..)) rfl
        simp [hb,ioInputBufferSize]
  · rename_i hc
    exact .keeps (fun h => hc ⟨h.1,h.2.1,h.2.2.1,h.2.2.2.1⟩) rfl rfl

theorem netLwipRecv_intakes (asked : Nat) (p : Option Str) (ok : Bool) (s : Intake) :
    Intakes s (.netLwipRecv asked p ok) (netLwipRecv asked p ok s.stm s.io).2 := by
  rw [netLwipRecv_io]
  split
  · rename_i hc
    obtain ⟨hf,hok,hpos,hle⟩ := hc
    refine .fills ⟨p.getD [],ioInputBufferSize,(p.getD []).length⟩ hf ?_ ⟨hpos,hle⟩ rfl
    rintro ⟨-,hn | hn⟩
    · rw [hok] at hn
      cases hn
    · cases p with
      | none => exact absurd hpos (by simp)
      | some bytes =>
        simp only [Option.getD_some] at hpos hle
        simp only [netLwipBuildBuffer,if_neg (Nat.not_lt.mpr hle)] at hn
        omega
  · exact .keeps trivial rfl rfl

theorem intakeCall_intakes (s : Intake) (op : IntakeOp) : Intakes s op (intakeCall s op).2.2.2 := by
  cases op with
  | fsPollMp3 fault => exact fsPollMp3_intakes fault s
  | hostNetPoll o => exact hostNetPoll_intakes o s
  | netLwipRecv asked p ok => exact netLwipRecv_intakes asked p ok s
  | iPop => exact .takes id rfl
  | ioResetInput => exact .resets id rfl
  | other fs net stm o output => exact .keeps id rfl rfl

/-! The ring over a run. -/

theorem enqueue_contents {io : Io} (b : Input) (hq : io.i.queued < maxInputBuffers) :
    (io.enqueue b).inRing.contents = io.inRing.contents ++
      [(slotOf maxInputBuffers io.i.head.toNat,b)] ∧
      (io.enqueue b).i.queued ≤ maxInputBuffers := by
  have hring : (io.enqueue b).inRing = io.inRing.put b := iPush_inRing io b hq.le
  have hmax : maxInputBuffers < 2^16 := maxInputBuffers_lt
  refine ⟨?_,?_⟩
  · rw [hring]
    exact put_contents maxInputBuffers_dvd (by decide) io.inRing b hq
  · rw [enqueue_i b hq.le,queued_push _ (by omega)]
    omega

theorem iPop_contents (io : Io) :
    (iPop io).2.inRing.contents.Sublist io.inRing.contents ∧
      (iPop io).2.i.queued ≤ io.i.queued := by
  have hio : (iPop io).2.inRing = ringOf (popSlot io.i).2 io.input := rfl
  have hi : (iPop io).2.i = (popSlot io.i).2 := rfl
  by_cases hlt : io.i.tail < io.i.head
  · have hused := used_pos_of_lt io.inRing hlt
    have hq := queued_pop io.i hlt
    have hle : (⟨io.i.head,io.i.tail+1⟩ : IoS maxInputBuffers).queued ≤ io.i.queued := by omega
    rw [hio,(popSlot_ring maxInputBuffers_lt io.i io.input hlt).2,hi,
      popSlot_some maxInputBuffers_lt io.i hlt]
    refine ⟨?_,hle⟩
    have hcons := contents_eq_cons maxInputBuffers_dvd io.inRing hused
    change (io.inRing.take).contents.Sublist _
    rw [hcons]
    exact List.sublist_cons_self _ _
  · rw [hio,hi,popSlot_none io.i hlt]
    exact ⟨List.Sublist.refl _,Nat.le_refl _⟩

theorem reset_contents (io : Io) : (ioResetInput io).inRing.contents = [] ∧
    (ioResetInput io).i.queued = 0 := by
  have hzero : (ioResetInput io).i.queued = 0 := by simp [ioResetInput,IoS.queued]
  refine ⟨?_,hzero⟩
  rw [← List.length_eq_zero_iff,contents_length]
  exact hzero

structure IntakeInv (s : Intake) : Prop where
  bounded : s.io.i.queued ≤ maxInputBuffers
  safe : QueuedValid s

theorem intakeStep_spoilt {s t : Intake} {op : IntakeOp} (hs : intakeStep s op = some t) :
    t.io = (intakeCall s op).2.2.2 ∧ (¬ ReadsNothing s op ∨ t.io.i = s.io.i →
      t.spoilt = s.spoilt) := by
  cases hs
  refine ⟨rfl,fun h => ?_⟩
  obtain h | h := h
  · simp [h]
  · simp only at h
    simp [h]

theorem IntakeInv.step {s t : Intake} {op : IntakeOp} (h : IntakeInv s) (hd : Delivers s op)
    (hs : intakeStep s op = some t) : IntakeInv t := by
  obtain ⟨hio,hspoilt⟩ := intakeStep_spoilt hs
  have hcall := intakeCall_intakes s op
  rw [← hio] at hcall
  cases hcall with
  | fills b room read valid ring =>
    have hq := queued_lt_of_free s.io.i maxInputBuffers_lt h.bounded room
    obtain ⟨hcont,hbound⟩ := enqueue_contents b hq
    refine ⟨ring ▸ hbound,?_,(hspoilt (.inl read)).trans h.safe.kept⟩
    rw [ring,hcont]
    intro e he
    obtain he | he := List.mem_append.mp he
    · exact h.safe.valid e he
    · rw [List.mem_singleton.mp he]
      exact valid
  | spoils b room read invalid ring => exact absurd hd read
  | keeps read i input =>
    have hring : t.io.inRing = s.io.inRing := by simp only [Io.inRing,i,input]
    refine ⟨i ▸ h.bounded,?_,(hspoilt (.inr i)).trans h.safe.kept⟩
    rw [hring]
    exact h.safe.valid
  | takes read ring =>
    obtain ⟨hsub,hle⟩ := iPop_contents s.io
    refine ⟨ring ▸ hle.trans h.bounded,?_,(hspoilt (.inl read)).trans h.safe.kept⟩
    rw [ring]
    exact fun e he => h.safe.valid e (hsub.subset he)
  | resets read ring =>
    obtain ⟨hnil,hzero⟩ := reset_contents s.io
    refine ⟨ring ▸ (by rw [hzero]; omega),?_,(hspoilt (.inl read)).trans h.safe.kept⟩
    rw [ring,hnil]
    simp

theorem IntakeInv.spoils {s : Intake} {op : IntakeOp} (h : IntakeInv s) (hd : ¬ Delivers s op) :
    ∃ t, intakeStep s op = some t ∧ ¬ QueuedValid t := by
  refine ⟨_,rfl,fun hv => ?_⟩
  have hvalid : ∀ e ∈ (intakeCall s op).2.2.2.inRing.contents, 1 ≤ e.2.used ∧
      e.2.used ≤ e.2.size := hv.valid
  have hnothing : ReadsNothing s op := by
    cases op <;> first | exact absurd trivial hd | exact not_not.mp hd
  cases intakeCall_intakes s op with
  | fills b room read valid ring => exact read hnothing
  | keeps read i input => exact hd read
  | takes read ring => exact read hnothing
  | resets read ring => exact read hnothing
  | spoils b room read invalid ring =>
    have hq := queued_lt_of_free s.io.i maxInputBuffers_lt h.bounded room
    rw [ring,(enqueue_contents b hq).1] at hvalid
    exact invalid (hvalid _ (List.mem_append_right _ (List.mem_singleton.mpr rfl)))

theorem intakeStart_inv (fs : Fs) (net : Net) (stm : StmNet) (io : Io) :
    IntakeInv (intakeStart fs net stm io) := by
  obtain ⟨hnil,hzero⟩ := reset_contents io
  refine ⟨hzero.trans_le (Nat.zero_le _),?_,rfl⟩
  have hring : (intakeStart fs net stm io).io.inRing.contents = [] := hnil
  rw [hring]
  simp

/-- The queued input is valid along exactly those runs in which every read of a file or a
socket that is made delivers something. -/
theorem intake_valid_iff (fs : Fs) (net : Net) (stm : StmNet) (io : Io) (ops : List IntakeOp) :
    Always intakeStep QueuedValid (intakeStart fs net stm io) ops ↔
      Guarded intakeStep Delivers (intakeStart fs net stm io) ops :=
  always_iff_guarded (fun _ h => IntakeInv.safe h) (fun _ _ _ h hd hs => h.step hd hs)
    (fun _ _ h hd => h.spoils hd) ops _ (intakeStart_inv fs net stm io)

/-- An open socket that hangs up: `recv` returns 0. -/
theorem intake_hangup :
    ¬ Always intakeStep QueuedValid (intakeStart (fsInit []) ⟨.opened,3⟩ stmNetInit Io.zero)
      [.hostNetPoll ⟨1,true,true,false,some []⟩] := by
  intro h
  have hv := (h.2 _ rfl).valid
  revert hv
  decide

/-! Acknowledged data. -/

/-- What `net_lwip_recv` acknowledges with `tcp_recved` of the data `p` delivered to it. -/
def netLwipRecved (p : Str) (ok : Bool) (io : Io) : Str :=
  if iFree io = 0 then p
  else if ok = false then []
  -- `net_lwip_build_buffer` does so on each of its ways out
  else p

/-- The data of a delivery is no longer than a segment. -/
def Segment := { p : Str // p.length ≤ tcpMss }

/-- `queued` and `acked` are history: the data of the buffers pushed, and the data
acknowledged. -/
structure Received where
  stm : StmNet
  io : Io
  queued : Str
  acked : Str

/-- A delivery without an error, or anything else that happens in between. -/
inductive RecvOp where
  | deliver (asked : Nat) (p : Segment)
  | between (stm : StmNet) (io : Io)

/-- The data of the buffer that a call has pushed, if it has. -/
def pushedData (io io' : Io) : Str :=
  if io'.i.head = io.i.head then []
  else
    let b := io'.input (slotOf maxInputBuffers io.i.head.toNat)
    b.data.take b.used

def recvStep (s : Received) : RecvOp → Option Received
  | .deliver asked p =>
      let r := netLwipRecv asked (some p.val) true s.stm s.io
      some ⟨r.1,r.2,s.queued ++ pushedData s.io r.2,s.acked ++ netLwipRecved p.val true s.io⟩
  | .between stm io => some { s with stm := stm, io := io }

def NothingLost (s : Received) : Prop := s.queued = s.acked

instance (s : Received) : Decidable (NothingLost s) := inferInstanceAs (Decidable (_ = _))

/-- A delivery with data finds room in the ring. -/
def FindsRoom (s : Received) : RecvOp → Prop
  | .deliver _ p => iFree s.io = 0 → p.val = []
  | .between _ _ => True

theorem pushedData_self (io : Io) : pushedData io io = [] := by simp [pushedData]

theorem pushedData_enqueue (io : Io) (b : Input) :
    pushedData io (io.enqueue b) = b.data.take b.used := by
  have hhead : (io.enqueue b).i.head = io.i.head+1 := by
    change (ioPush io.i).2.head = _
    simp only [ioPush]
    split <;> rfl
  have hne : io.i.head+1 ≠ io.i.head := by
    intro he
    have hn := congrArg UInt32.toNat he
    rw [toNat_succ] at hn
    have hlt := io.i.head.toNat_lt
    omega
  have hslot : (io.enqueue b).input (slotOf maxInputBuffers io.i.head.toNat) = b := by
    simp [Io.enqueue,setInput,iPush_slot]
  rw [pushedData,hhead,if_neg hne,hslot]

theorem deliver_queued (asked : Nat) (p : Segment) (s : Received) :
    pushedData s.io (netLwipRecv asked (some p.val) true s.stm s.io).2 = if iFree s.io = 0 then []
      else p.val := by
  rw [netLwipRecv_io]
  by_cases hf : iFree s.io = 0
  · simp [hf,pushedData_self]
  · by_cases hp : 0 < p.val.length
    · rw [if_pos ⟨hf,rfl,hp,p.property⟩,if_neg hf,pushedData_enqueue]
      simp
    · have hnil : p.val = [] := List.eq_nil_of_length_eq_zero (by omega)
      simp [hf,hnil,pushedData_self]

/-- What is queued is what is acknowledged along exactly those runs in which every
delivery that has data finds room. -/
theorem recv_acked_iff (stm : StmNet) (io : Io) (ops : List RecvOp) :
    Always recvStep NothingLost ⟨stm,io,[],[]⟩ ops ↔
      Guarded recvStep FindsRoom ⟨stm,io,[],[]⟩ ops := by
  refine always_iff_guarded (I := NothingLost) (fun _ h => h) (fun s op t h hr hs => ?_)
    (fun s op h hr => ?_)
    ops _ rfl
  · cases op with
    | between stm io =>
      cases hs
      exact h
    | deliver asked p =>
      cases hs
      rw [NothingLost,deliver_queued,netLwipRecved,h]
      by_cases hf : iFree s.io = 0
      · simp [hf,hr hf]
      · simp [hf]
  · cases op with
    | between stm io => exact absurd trivial hr
    | deliver asked p =>
      obtain ⟨hf,hne⟩ : iFree s.io = 0 ∧ p.val ≠ [] := by simpa [FindsRoom] using hr
      refine ⟨_,rfl,fun hl => hne ?_⟩
      simpa [NothingLost,deliver_queued,netLwipRecved,hf,h.symm] using hl

/-- Five segments while the decoder takes none: the fifth is acknowledged and gone. -/
theorem recv_fifth_lost :
    ¬ Always recvStep NothingLost ⟨stmNetInit,ioInit Io.zero,[],[]⟩
      (List.replicate 5 (RecvOp.deliver 0 ⟨[1],by decide⟩)) := by
  decide

end Mardio
