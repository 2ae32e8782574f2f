import Mardio.LibmadSpace
import Mardio.PlayerInv

/-!
One frame of the main loop, call by call: what the polls do to a file that is being
played and to the two rings, and what `pl_poll` makes of it.
-/

set_option autoImplicit false

namespace Mardio
open CounterRing Runs

def Sys.fsPolled (s : Sys) (fault : Option Nat) : Sys :=
  { s with fs := (fsPoll fault s.fs s.io).1, io := (fsPoll fault s.fs s.io).2 }

def Sys.netPolled (s : Sys) (o : NetPoll) : Sys :=
  { s with net := (hostNetPoll o s.net s.io).1, io := (hostNetPoll o s.net s.io).2 }

def Sys.decoded (s : Sys) (its : List MadIter) : Sys :=
  { s with
    ls := (libmadLoop s.pl.state its s.ls s.io).1
    io := (libmadLoop s.pl.state its s.ls s.io).2 }

def Sys.sounded (s : Sys) (os : List SndWrite) : Sys :=
  { s with
    ss := (hostSndLoop s.pl.state s.pl.volume os s.ss s.io).1
    io := (hostSndLoop s.pl.state s.pl.volume os s.ss s.io).2 }

def Sys.polledRest (s : Sys) (x : Outside) : Sys :=
  ((s.netPolled x.net).decoded x.its).sounded x.writes

def afterPolls (x : Outside) (s : Sys) : Sys := (s.fsPolled x.fault).polledRest x

/-- The state in which a frame handles its events. -/
def beforeEvents : Order → Outside → Sys → Sys
  | .linux, x, s => afterPolls x s
  | .stm32, x, s => plPoll (afterPolls x s)

def afterEvents : Order → Sys → Sys
  | .linux, s => plPoll s
  | .stm32, s => s

theorem sysRun_append (s : Sys) (as bs : List SysOp) :
    sysRun s (as ++ bs) = (sysRun s as).bind fun t => sysRun t bs := by
  induction as generalizing s with
  | nil => rfl
  | cons a as ih =>
    rw [List.cons_append,sysRun,sysRun]
    cases sysStep s a with
    | none => rfl
    | some t => exact ih t

theorem frame_eq (order : Order) (x : Outside) (evs : List PlEvent) (s : Sys) :
    frame order x evs s = (sysRun (beforeEvents order x s) (evs.map PlEvent.op)).map
      (afterEvents order) := by
  cases order with
  | linux =>
    change sysRun (afterPolls x s) (evs.map PlEvent.op ++ [.poll]) = _
    rw [sysRun_append]
    cases h : sysRun (afterPolls x s) (evs.map PlEvent.op) with
    | none => simp [beforeEvents,h]
    | some t => simp [beforeEvents,h,sysRun,sysStep,afterEvents]
  | stm32 =>
    change sysRun (plPoll (afterPolls x s)) (evs.map PlEvent.op) = _
    rw [show afterEvents .stm32 = id from rfl,Option.map_id]
    rfl

theorem frame_quiet (order : Order) (x : Outside) (s : Sys) :
    frame order x [] s = some (plPoll (afterPolls x s)) := by
  rw [frame_eq]
  cases order <;> rfl

def frameStep (order : Order) (s : Sys) (a : Outside × List PlEvent) : Option Sys :=
  frame order a.1 a.2 s

theorem events_keep {ok : Sys → SysOp → Prop} {E : Sys → Prop}
    (he : ∀ s (ev : PlEvent) t, E s → ok s ev.op → sysStep s ev.op = some t → E t)
    (evs : List PlEvent) {s t : Sys} (h : E s) (hg : Guarded sysStep ok s (evs.map PlEvent.op))
    (hr : sysRun s (evs.map PlEvent.op) = some t) : E t := by
  induction evs generalizing s with
  | nil =>
    cases hr
    exact h
  | cons ev evs ih =>
    obtain ⟨hok,hrest⟩ := hg
    rw [List.map_cons,sysRun] at hr
    cases hs : sysStep s ev.op with
    | none => simp [hs] at hr
    | some u =>
      rw [hs] at hr
      exact ih (he s ev u h hok hs) (hrest u hs) hr

/-- What holds between frames, given what the polls, the events and the end of a
frame make of it. -/
theorem frame_keeps {order : Order} {ok : Sys → SysOp → Prop} {E F : Sys → Prop}
    (hE : ∀ s (ev : PlEvent) t, E s → ok s ev.op → sysStep s ev.op = some t → E t)
    (hF : ∀ s, E s → F (afterEvents order s)) {x : Outside} {evs : List PlEvent} {s t : Sys}
    (h : E (beforeEvents order x s))
    (hg : Guarded sysStep ok (beforeEvents order x s) (evs.map PlEvent.op))
    (hf : frame order x evs s = some t) : F t := by
  rw [frame_eq,Option.map_eq_some_iff] at hf
  obtain ⟨u,hu,rfl⟩ := hf
  exact hF u (events_keep hE evs h hg hu)

theorem SysInv.call {s t : Sys} (h : SysInv (fun _ => True) s) (op : SysOp)
    (hs : sysStep s op = some t) :
    SysInv (fun _ => True) t := h.step hs fun _ _ _ _ _ _ _ _ => trivial

theorem SysInv.polledRest {s : Sys} (h : SysInv (fun _ => True) s) (x : Outside) :
    SysInv (fun _ => True) (s.polledRest x) := by
  have h1 : SysInv (fun _ => True) (s.netPolled x.net) := h.call (.netPoll x.net) rfl
  have h2 : SysInv (fun _ => True) ((s.netPolled x.net).decoded x.its) :=
    h1.call (.madLoop x.its) rfl
  exact h2.call (.sndLoop x.writes) rfl

theorem SysInv.polled {s : Sys} (h : SysInv (fun _ => True) s) (x : Outside) :
    SysInv (fun _ => True) (afterPolls x s) := by
  have h1 : SysInv (fun _ => True) (s.fsPolled x.fault) := h.call (.fsPoll x.fault) rfl
  exact h1.polledRest x

section
variable {Q : (Nat → FsSource) → Prop}

theorem netPolled_closed {s : Sys} (h : s.net.state = .closed) (o : NetPoll) :
    s.netPolled o = s := by
  have hne : s.net.state ≠ .opened := by rw [h]; exact NetState.noConfusion
  simp only [Sys.netPolled,hostNetPoll_state o s.net s.io hne]

theorem polledRest_closed {s : Sys} (h : s.net.state = .closed) (x : Outside) :
    s.polledRest x = (s.decoded x.its).sounded x.writes := by
  rw [Sys.polledRest,netPolled_closed h]

theorem Found.read_none (f : Found) (size : Nat) :
    f.read none size = (f.content.drop f.pos).take size := by
  simp [Found.read]

theorem Found.read_none_length (f : Found) (size : Nat) :
    (f.read none size).length = min size f.unread := by
  simp [Found.read_none,Found.unread]

def Io.enqueue (io : Io) (b : Input) : Io := setInput (iPush io).2 (iPush io).1 b

theorem enqueue_i {io : Io} (b : Input) (h : io.i.queued ≤ maxInputBuffers) :
    (io.enqueue b).i = ⟨io.i.head+1,io.i.tail⟩ := ioPush_below io.i maxInputBuffers_lt h

theorem iPush_reset (io : Io) : (iPush io).2 = io.enqueue ioInputResetBuffer := by
  simp [Io.enqueue,setInput,iPush,pushSlot]

def Io.emit (io : Io) (b : Output) : Io := setOutput (oPush io).2 (oPush io).1 b

theorem emit_o {io : Io} (b : Output) (h : io.o.queued ≤ maxOutputBuffers) :
    (io.emit b).o = ⟨io.o.head+1,io.o.tail⟩ := ioPush_below io.o maxOutputBuffers_lt h

theorem oPush_reset (io : Io) : (oPush io).2 = io.emit ioOutputResetBuffer := by
  simp [Io.emit,setOutput,oPush,pushSlot]

def Found.after (f : Found) (size : Nat) : Found := { f with pos := f.pos+min size f.unread }

theorem Found.after_unread (f : Found) (size : Nat) : (f.after size).unread = f.unread-size := by
  simp only [Found.unread,Found.after]
  omega

/-- The file after a poll that found a free slot: read on, or closed at its end. -/
structure ReadOn (fs fs' : Fs) (f : Found) (size : Nat) : Prop where
  type : fs'.type = fs.type
  done : f.unread = 0 → fs'.handle = -1 ∧ fs'.state = .closed
  more : 0 < f.unread → fs'.handle = fs.handle ∧ fs'.state = fs.state ∧
    fs'.view fs'.handle = some (f.after size)

theorem readOn_done {fs t : Fs} {f : Found} {size : Nat} (ht : FileInv Q t) (hs : SameFile fs t)
    (hu : f.unread = 0) : ReadOn fs (fsStop t) f size :=
  ⟨ht.stop.2.2.2.trans hs.type,fun _ => ⟨ht.stop.1,ht.stop.2.1⟩,fun h => absurd hu (by omega)⟩

theorem readOn_more {fs t : Fs} {f : Found} {size : Nat} (hs : SameFile fs t)
    (hv : t.view t.handle = some { f with pos := f.pos+(f.read none size).length })
    (hu : 0 < f.unread) : ReadOn fs t f size := by
  rw [f.read_none_length size] at hv
  exact ⟨hs.type,fun h => absurd h (by omega),fun _ => ⟨hs.handle,hs.state,hv⟩⟩

theorem Found.unread_pos {f : Found} {size : Nat} {a : UInt8} {as : List UInt8}
    (hb : f.read none size = a :: as) : 0 < f.unread := by
  have hl := f.read_none_length size
  rw [hb,List.length_cons] at hl
  omega

theorem Found.read_nil {f : Found} {size : Nat} (hs : 0 < size) :
    f.read none size = [] ↔ f.unread = 0 := by
  rw [← List.length_eq_zero_iff,Found.read_none_length]
  omega

section
variable {fs : Fs} {f : Found} (hi : FileInv Q fs) (hh : fs.handle ≠ -1)
    (hv : fs.view fs.handle = some f)
include hi hh hv

theorem fsPoll_mp3 (hty : fs.type = .mp3) {io : Io} (hf : iFree io ≠ 0) :
    ∃ fs' b, fsPoll none fs io = (fs',io.enqueue b) ∧ b.bytes = f.read none ioInputBufferSize ∧
      ReadOn fs fs' f ioInputBufferSize := by
  obtain ⟨t,hr,ht,hs,hview⟩ := hi.read hh hv none (by decide : 0 < ioInputBufferSize)
  have hsize : (iPush io).2.input (iPush io).1 = ioInputResetBuffer := by simp [iPush,pushSlot]
  cases hb : f.read none ioInputBufferSize with
  | nil =>
    -- the slot was taken before the read, and stays in the ring
    have hpoll : fsPoll none fs io = (fsStop t,(iPush io).2) := by
      simp only [fsPoll,if_neg hh,hty,fsPollMp3,if_neg hf,hsize]
      simp only [ioInputResetBuffer,hr,hb]
    refine ⟨fsStop t,ioInputResetBuffer,hpoll.trans (by rw [iPush_reset]),rfl,?_⟩
    exact readOn_done ht hs ((Found.read_nil (by decide)).mp hb)
  | cons a as =>
    have hpoll : fsPoll none fs io = (t,
        io.enqueue ⟨a :: as,ioInputBufferSize,(a :: as).length % 2^16⟩) := by
      simp only [fsPoll,if_neg hh,hty,fsPollMp3,if_neg hf,hsize]
      simp only [ioInputResetBuffer,hr,hb]
      rfl
    have hl := f.read_none_length ioInputBufferSize
    rw [hb] at hl
    refine ⟨t,_,hpoll,?_,readOn_more hs hview (Found.unread_pos hb)⟩
    have hm : (a :: as).length % 2^16 = (a :: as).length := Nat.mod_eq_of_lt (by
      rw [hl]
      simp only [ioInputBufferSize]
      omega)
    change ((a :: as) ++ List.replicate ((a :: as).length % 2^16) 0).take
      ((a :: as).length % 2^16) = _
    rw [hm,List.take_left]

theorem fsPoll_riff (hty : fs.type = .riff) {io : Io} (hf : oFree io ≠ 0) :
    ∃ fs' b, fsPoll none fs io = (fs',io.emit b) ∧ ReadOn fs fs' f ioOutputBufferSize := by
  obtain ⟨t,hr,ht,hs,hview⟩ := hi.read hh hv none (by decide : 0 < ioOutputBufferSize)
  have hsize : (oPush io).2.output (oPush io).1 = ioOutputResetBuffer := by simp [oPush,pushSlot]
  cases hb : f.read none ioOutputBufferSize with
  | nil =>
    have hpoll : fsPoll none fs io = (fsStop t,(oPush io).2) := by
      simp only [fsPoll,if_neg hh,hty,fsPollRiff,if_neg hf,hsize]
      simp only [ioOutputResetBuffer,hr,hb]
    refine ⟨fsStop t,ioOutputResetBuffer,hpoll.trans (by rw [oPush_reset]),?_⟩
    exact readOn_done ht hs ((Found.read_nil (by decide)).mp hb)
  | cons a as =>
    have hpoll : fsPoll none fs io = (t,io.emit
        ⟨a :: as,ioOutputBufferSize,(a :: as).length % 2^16,t.rate,t.channels⟩) := by
      simp only [fsPoll,if_neg hh,hty,fsPollRiff,if_neg hf,hsize]
      simp only [ioOutputResetBuffer,hr,hb]
      rfl
    exact ⟨t,_,hpoll,readOn_more hs hview (Found.unread_pos hb)⟩

end

theorem fsPoll_mp3_full {fs : Fs} (hty : fs.type = .mp3) {io : Io} (hf : iFree io = 0) :
    fsPoll none fs io = (fs,io) := by
  simp only [fsPoll,hty,fsPollMp3,if_pos hf,ite_self]

theorem fsPoll_riff_full {fs : Fs} (hty : fs.type = .riff) {io : Io} (hf : oFree io = 0) :
    fsPoll none fs io = (fs,io) := by
  simp only [fsPoll,hty,fsPollRiff,if_pos hf,ite_self]

end

theorem plStop_active {s : Sys} (h : s.pl.state.active = true) :
    plStop s = { s with
      fs := fsStop s.fs
      net := hostNetClose s.net
      ls := libmadDone s.ls
      pl := { s.pl with state := .stop } } := by
  rw [plStop,if_pos h]

theorem pollFilled_active {s : Sys} (h : s.pl.state.active = true) :
    (pollFilled s).pl.state.active = true := by
  unfold pollFilled
  split
  · rfl
  · exact h

theorem pollFilled_rest (s : Sys) : ∃ st, pollFilled s = setPlState s st := by
  unfold pollFilled
  split
  · exact ⟨_,rfl⟩
  · exact ⟨s.pl.state,rfl⟩

theorem pollFilled_sourceType (s : Sys) : (pollFilled s).pl.sourceType = s.pl.sourceType := by
  obtain ⟨st,h⟩ := pollFilled_rest s
  rw [h]
  rfl

theorem pollClosed_stopped {s : Sys} (h : s.pl.state = .stop) (f : FsState) (n : NetState) :
    pollClosed f n s = s := by
  simp [pollClosed,h,PlState.active]

theorem pollStarved_stopped {s : Sys} (h : s.pl.state = .stop) : pollStarved s = s := by
  simp [pollStarved,h]

theorem plPoll_stops {s : Sys} (ha : s.pl.state.active = true) (hsrc : s.pl.sourceType = .file)
    (he : s.net.state = .error ∨ s.ss.state = .error ∨ s.ls.state = .error ∨ s.fs.state = .closed) :
    plPoll s = plStop (pollFilled s) := by
  have hact := pollFilled_active ha
  have hst : (plStop (pollFilled s)).pl.state = .stop := by rw [plStop_active hact]
  have hfile : (pollFilled s).pl.sourceType = .file := (pollFilled_sourceType s).trans hsrc
  rw [plPoll,if_pos ha]
  by_cases hr : s.net.state = .error ∨ s.ss.state = .error ∨ s.ls.state = .error
  · rw [pollErrors,if_pos hr,pollClosed_stopped hst,pollStarved_stopped hst]
  · have hc : s.fs.state = .closed := by
      obtain h | h | h | h := he
      · exact absurd (.inl h) hr
      · exact absurd (.inr (.inl h)) hr
      · exact absurd (.inr (.inr h)) hr
      · exact h
    have hna : (plStop (pollFilled s)).pl.state.active = false := by rw [hst]; rfl
    have hcl : pollClosed s.fs.state s.net.state (pollFilled s) = plStop (pollFilled s) := by
      simp [pollClosed,hact,hfile,hc,hna]
    rw [pollErrors,if_neg hr,hcl,pollStarved_stopped hst]

theorem plPoll_calm {s : Sys} (ha : s.pl.state.active = true) (hsrc : s.pl.sourceType = .file)
    (he : ¬ (s.net.state = .error ∨ s.ss.state = .error ∨ s.ls.state = .error ∨
      s.fs.state = .closed)) :
    plPoll s = pollStarved (pollFilled s) := by
  have hfile : (pollFilled s).pl.sourceType = .file := (pollFilled_sourceType s).trans hsrc
  simp only [not_or] at he
  obtain ⟨hn,hs,hl,hf⟩ := he
  simp [plPoll,ha,pollErrors,hn,hs,hl,pollClosed,hf,hfile]

theorem plStop_io (s : Sys) : (plStop s).io = s.io := by
  unfold plStop
  split <;> rfl

theorem plPoll_io (s : Sys) : (plPoll s).io = s.io :=
  plPoll_keeps (P := fun t => t.io = s.io) (fun _ _ _ h => h) (fun t h => (plStop_io t).trans h) rfl

theorem plStop_idle {s : Sys} (h : s.fs.handle = -1) : (plStop s).fs.handle = -1 := by
  unfold plStop
  split
  · simp only [fsStop_idle h,h]
  · exact h

theorem plPoll_idle {s : Sys} (h : s.fs.handle = -1) : (plPoll s).fs.handle = -1 :=
  plPoll_keeps (P := fun t => t.fs.handle = -1) (fun _ _ _ h => h) (fun _ h => plStop_idle h) h

section
variable {Q : (Nat → FsSource) → Prop}

theorem SysInv.playing {s : Sys} (h : SysInv Q s) (hh : s.fs.handle ≠ -1) :
    s.pl.state.active = true ∧ s.pl.sourceType = .file ∧ s.net.state = .closed ∧
      s.fs.state = .opened := by
  obtain ⟨hsrc,hnet⟩ := h.exclusive hh
  refine ⟨?_,hsrc,hnet,?_⟩
  · have hk := h.known
    cases hst : s.pl.state with
    | unknown => exact absurd hst hk
    | stop => exact absurd (h.idle hst).1 hh
    | playing => rfl
    | buffering => rfl
  · obtain ⟨hc,_⟩ | ⟨ho,_⟩ := h.file
    · exact absurd hc hh
    · exact ho

/-- `pl_poll` closes the file on an error and otherwise only looks at the rings. -/
theorem SysInv.pollOpen {s : Sys} (h : SysInv Q s) (hh : s.fs.handle ≠ -1) :
    ((s.ss.state = .error ∨ s.ls.state = .error) ∧ (plPoll s).fs.handle = -1 ∧
        (plPoll s).pl.state = .stop) ∨
      (s.ss.state ≠ .error ∧ s.ls.state ≠ .error ∧ plPoll s = pollStarved (pollFilled s)) := by
  obtain ⟨ha,hsrc,hnet,hfs⟩ := h.playing hh
  by_cases he : s.ss.state = .error ∨ s.ls.state = .error
  · have hp := plPoll_stops ha hsrc (.inr (he.imp_right .inl))
    have hf := (h.setState (pollFilled_active ha)).file.stop.1
    obtain ⟨st,hst⟩ := pollFilled_rest s
    refine .inl ⟨he,?_,?_⟩
    · rw [hp,plStop_active (pollFilled_active ha),hst]
      exact hf
    · rw [hp,plStop_active (pollFilled_active ha)]
  · rw [not_or] at he
    refine .inr ⟨he.1,he.2,plPoll_calm ha hsrc ?_⟩
    simp [hnet,hfs,he]

structure Started (s t : Sys) (out : Outcome) : Prop where
  io : t.io = ioInit s.io
  ls : t.ls = libmadInit
  ss : t.ss = s.ss
  none : out.plays = false → t.fs.handle = -1
  mp3 : ∀ f, out = .mp3 f → f.pos = 0 ∧ t.fs.type = .mp3 ∧ t.fs.view t.fs.handle = some f ∧
    t.fs.handle ≠ -1 ∧ t.pl.state = .buffering
  riff : ∀ f info, out = .riff f info → t.fs.type = .riff ∧
    t.fs.view t.fs.handle = some (f.seek info.dataoff) ∧ t.fs.handle ≠ -1 ∧ t.pl.state = .playing

theorem plSwitch_rest (s : Sys) (h : s.pl.state = .stop) :
    (plSwitch s).io = s.io ∧ (plSwitch s).ls = s.ls ∧ (plSwitch s).ss = s.ss ∧
      (plSwitch s).fs = s.fs := by
  have hs : plStop s = s := by simp [plStop,h,PlState.active]
  unfold plSwitch
  split
  · rw [hs]
    exact ⟨rfl,rfl,rfl,rfl⟩
  · rw [hs]
    exact ⟨rfl,rfl,rfl,rfl⟩
  · exact ⟨rfl,rfl,rfl,rfl⟩
  · exact ⟨rfl,rfl,rfl,rfl⟩

theorem plReset_ss (s : Sys) : (plReset s).ss = s.ss := by
  unfold plReset plStop
  split <;> rfl

theorem plPlay_started {s t : Sys} {w : World} {o : NetOpen} {what : Str} (h : SysInv Q s)
    (hu : isHttp what = false) (hp : plPlay w o what s = some t) :
    ∃ out, (plReset s).fs.outcome w what = some out ∧ Started s t out := by
  obtain ⟨_,hst,hh,hcl,_,hq⟩ := h.reset
  obtain ⟨out,fs,hout,he,rfl⟩ := plPlay_file h hu hp
  obtain ⟨hio,hls,hss,hfs⟩ := plSwitch_rest (withFile (plReset s) fs) hst
  obtain ⟨_,hno,hyes⟩ := he.file (Q := fun _ => True) hh hcl trivial fun _ => trivial
  refine ⟨out,hout,hio,hls,hss.trans (plReset_ss s),?_,?_,?_⟩
  · intro hpl
    rw [hfs]
    exact (hno hpl).1
  · rintro f rfl
    obtain ⟨hpos,hty,_,_,hv⟩ := he
    rw [plSwitch_mp3 (show (withFile (plReset s) fs).fs.type = .mp3 from hty)]
    exact ⟨hpos,hty,hv,(hyes rfl).1,rfl⟩
  · rintro f info rfl
    obtain ⟨hty,_,_,_,_,hv⟩ := he
    rw [plSwitch_riff (show (withFile (plReset s) fs).fs.type = .riff from hty)]
    exact ⟨hty,hv,(hyes rfl).1,rfl⟩

end

/-- An MP3 file read into the input ring by `p` pushes. The head counter is 32 bits
wide. -/
structure Mp3Fed (f : Found) (i : IoS maxInputBuffers) (p : Nat) : Prop where
  head : i.head.toNat = p % 2^32
  pos : f.pos = min (ioInputBufferSize*p) f.content.length
  queued : i.queued ≤ p
  bounded : i.queued ≤ maxInputBuffers

theorem Mp3Fed.push {f : Found} {i : IoS maxInputBuffers} {p : Nat} (h : Mp3Fed f i p)
    (hq : i.queued < maxInputBuffers) :
    Mp3Fed (f.after ioInputBufferSize) ⟨i.head+1,i.tail⟩ (p+1) := by
  obtain ⟨hhead,hpos,hqp,hb⟩ := h
  have hpush := queued_push i (Nat.lt_of_le_of_lt hq (by decide))
  refine ⟨?_,?_,by omega,by omega⟩
  · rw [toNat_succ,hhead]
    omega
  · simp only [Found.after,Found.unread,ioInputBufferSize] at *
    omega

theorem Mp3Fed.pop {f : Found} {i : IoS maxInputBuffers} {p : Nat} (h : Mp3Fed f i p)
    (ht : i.tail < i.head) : Mp3Fed f ⟨i.head,i.tail+1⟩ p := by
  obtain ⟨hhead,hpos,hqp,hb⟩ := h
  have hpop := queued_pop i ht
  exact ⟨hhead,hpos,by omega,by omega⟩

theorem Mp3Fed.front {f : Found} {i : IoS maxInputBuffers} {p : Nat} (h : Mp3Fed f i p)
    (hp : p < 2^32) (hq : 0 < i.queued) : i.tail < i.head := by
  refine tail_lt_head ?_ hq
  rw [h.head,Nat.mod_eq_of_lt hp]
  exact h.queued

theorem ioInit_queued (io : Io) : (ioInit io).i.queued = 0 ∧ (ioInit io).o.queued = 0 :=
  ⟨(by decide : (⟨0,0⟩ : IoS maxInputBuffers).queued = 0),
    (by decide : (⟨0,0⟩ : IoS maxOutputBuffers).queued = 0)⟩

theorem Mp3Fed.start {f : Found} (h : f.pos = 0) (io : Io) : Mp3Fed f (ioInit io).i 0 := by
  have hq := (ioInit_queued io).1
  exact ⟨rfl,by rw [h,Nat.mul_zero,Nat.zero_min],Nat.le_of_eq hq,hq ▸ Nat.zero_le _⟩

theorem libmadReady_playing {ls : Ls} {io : Io} (hls : ls.state = .init) (hi : 0 < io.i.queued)
    (hb : io.i.queued ≤ maxInputBuffers) (ho : io.o.queued = 0) :
    libmadReady .playing ls io = true := by
  have hu : iUsed io ≠ 0 := by
    rw [iUsed,Ne,used_eq_zero_iff io.i (Nat.lt_of_le_of_lt hb maxInputBuffers_lt)]
    omega
  have hf : (ioFree io.o).toNat = maxOutputBuffers := by
    rw [ioFree_toNat io.o maxOutputBuffers_lt (by omega),ho]
    rfl
  simp [libmadReady,hls,hu,oFreeSize,hf]
  decide

theorem iFree_eq_zero {io : Io} (h : io.i.queued ≤ maxInputBuffers) :
    iFree io = 0 ↔ io.i.queued = maxInputBuffers := by
  rw [iFree,← UInt16.toNat_inj,ioFree_toNat io.i maxInputBuffers_lt h]
  change maxInputBuffers-io.i.queued = 0 ↔ _
  omega

theorem oFree_eq_zero {io : Io} (h : io.o.queued ≤ maxOutputBuffers) :
    oFree io = 0 ↔ io.o.queued = maxOutputBuffers := by
  rw [oFree,← UInt16.toNat_inj,ioFree_toNat io.o maxOutputBuffers_lt h]
  change maxOutputBuffers-io.o.queued = 0 ↔ _
  omega

theorem active_cases {st : PlState} (ha : st.active = true) (hne : st ≠ .playing) :
    st = .buffering := by
  cases st with
  | buffering => rfl
  | playing => exact absurd rfl hne
  | unknown => cases ha
  | stop => cases ha

theorem decoded_buffering {s : Sys} (h : s.pl.state = .buffering) (its : List MadIter) :
    s.decoded its = s := by
  have hr : libmadReady s.pl.state s.ls s.io = false := by simp [libmadReady,h]
  simp only [Sys.decoded,libmadLoop_idle hr]

theorem decoded_empty {s : Sys} (h : s.io.i.queued = 0) (its : List MadIter) :
    s.decoded its = s := by
  have hu : iUsed s.io = 0 := (used_eq_zero_iff s.io.i (by omega)).mpr h
  have hr : libmadReady s.pl.state s.ls s.io = false := by simp [libmadReady,hu]
  simp only [Sys.decoded,libmadLoop_idle hr]

theorem ring_i {io io' : Io} (h : io'.inRing = io.inRing) : io'.i = io.i :=
  congrArg (fun r : CounterRing Input maxInputBuffers => (⟨r.head,r.tail⟩ : IoS maxInputBuffers)) h

theorem take_i {io io' : Io} (h : io'.inRing = io.inRing.take) : io'.i = ⟨io.i.head,io.i.tail+1⟩ :=
  congrArg (fun r : CounterRing Input maxInputBuffers => (⟨r.head,r.tail⟩ : IoS maxInputBuffers)) h

theorem decoded_i (s : Sys) (its : List MadIter) (ho : s.io.o.queued ≤ maxOutputBuffers+1) :
    (s.decoded its).io.i = s.io.i ∨
      (s.io.i.tail < s.io.i.head ∧ (s.decoded its).io.i = ⟨s.io.i.head,s.io.i.tail+1⟩) := by
  cases hr : libmadReady s.pl.state s.ls s.io with
  | false => exact .inl (by simp only [Sys.decoded,libmadLoop_idle hr])
  | true =>
    by_cases ht : s.io.i.tail < s.io.i.head
    · exact .inr ⟨ht,take_i (libmadLoop_took hr ht ho its).1⟩
    · exact .inl (by simp only [Sys.decoded,libmadLoop_wrapped hr ht])

theorem decoded_rest {s : Sys} (hls : s.ls.state = .init) (ho : s.io.o.queued ≤ maxOutputBuffers+1)
    (its : List MadIter) :
    ((s.decoded its).ls.state = .init ∨ (s.decoded its).ls.state = .error) ∧
      (s.decoded its).io.o.queued ≤ maxOutputBuffers+1 := by
  cases hr : libmadReady s.pl.state s.ls s.io with
  | false =>
    simp only [Sys.decoded,libmadLoop_idle hr]
    exact ⟨.inl hls,ho⟩
  | true =>
    by_cases ht : s.io.i.tail < s.io.i.head
    · exact (libmadLoop_took hr ht ho its).2.2
    · simp only [Sys.decoded,libmadLoop_wrapped hr ht]
      exact ⟨.inl ((carryOver_rest s.ls).2.1.trans hls),ho⟩

theorem sounded_i (s : Sys) (os : List SndWrite) : (s.sounded os).io.i = s.io.i :=
  ring_i (hostSndLoop_rings s.pl.state s.pl.volume os s.ss s.io).1

theorem sounded_drained {s : Sys} (ho : s.io.o.queued ≤ maxOutputBuffers+1)
    (hp : s.pl.state ≠ .playing → s.io.o.queued = 0) (os : List SndWrite) :
    (s.sounded os).ss.state = .error ∨ (s.sounded os).io.o.queued = 0 := by
  have hm : maxOutputBuffers+1 < 2^16 := by decide
  by_cases h : s.pl.state = .playing
  · have hd := hostSndLoop_drains s.pl.volume os s.ss s.io (by omega)
    rw [← h] at hd
    exact hd
  · right
    simp only [Sys.sounded,(hostSndLoop_quiet (.inl h) s.pl.volume os s.ss).1]
    exact hp h

theorem sounded_quiet {s : Sys} (h : s.pl.state ≠ .playing) (os : List SndWrite) :
    (s.sounded os).io = s.io := (hostSndLoop_quiet (.inl h) s.pl.volume os s.ss).1

structure Mp3Open (s : Sys) (f : Found) (p : Nat) : Prop where
  type : s.fs.type = .mp3
  view : s.fs.view s.fs.handle = some f
  fed : Mp3Fed f s.io.i p

structure Mp3Ready (s : Sys) (f : Found) (p : Nat) : Prop extends Mp3Open s f p where
  init : s.ls.state = .init
  empty : s.io.o.queued = 0

theorem Mp3Ready.fsPolled {s : Sys} {f : Found} {p : Nat} (h : Mp3Ready s f p)
    (hs : SysInv (fun _ => True) s) (hh : s.fs.handle ≠ -1) :
    (s.io.i.queued = maxInputBuffers ∧ s.fsPolled none = s) ∨
      (s.io.i.queued < maxInputBuffers ∧
        ∃ fs' b, s.fsPolled none = { s with fs := fs', io := s.io.enqueue b } ∧
          b.bytes = f.read none ioInputBufferSize ∧ ReadOn s.fs fs' f ioInputBufferSize) := by
  have hb := h.fed.bounded
  by_cases hf : iFree s.io = 0
  · refine .inl ⟨(iFree_eq_zero hb).mp hf,?_⟩
    simp only [Sys.fsPolled,fsPoll_mp3_full h.type hf]
  · obtain ⟨fs',b,hpoll,hbytes,hread⟩ := fsPoll_mp3 hs.file hh h.view h.type hf
    refine .inr ⟨?_,fs',b,?_,hbytes,hread⟩
    · exact Nat.lt_of_le_of_ne hb fun he => hf ((iFree_eq_zero hb).mpr he)
    · simp only [Sys.fsPolled,hpoll]

theorem Mp3Ready.queue {s : Sys} {f : Found} {p : Nat} (h : Mp3Ready s f p)
    (hq : s.io.i.queued < maxInputBuffers) {fs' : Fs} (hread : ReadOn s.fs fs' f ioInputBufferSize)
    (hu : 0 < f.unread) (b : Input) :
    Mp3Ready { s with fs := fs', io := s.io.enqueue b } (f.after ioInputBufferSize) (p+1) := by
  obtain ⟨_,_,hv⟩ := hread.more hu
  refine ⟨⟨hread.type.trans h.type,hv,?_⟩,h.init,h.empty⟩
  rw [enqueue_i b h.fed.bounded]
  exact h.fed.push hq

/-- The decoder takes at most one buffer, and the sound device all there are. -/
theorem Mp3Ready.polledRest {s : Sys} {f : Found} {p : Nat} (h : Mp3Ready s f p)
    (ha : s.pl.state.active = true) (hn : s.net.state = .closed) (x : Outside) :
    Mp3Open (s.polledRest x) f p ∧
      ((s.polledRest x).ls.state = .init ∨ (s.polledRest x).ls.state = .error) ∧
      ((s.polledRest x).ss.state = .error ∨ (s.polledRest x).io.o.queued = 0) := by
  rw [polledRest_closed hn]
  have ho : s.io.o.queued ≤ maxOutputBuffers+1 := by rw [h.empty]; exact Nat.zero_le _
  obtain ⟨hrun,hq⟩ := decoded_rest h.init ho x.its
  have hidle : (s.decoded x.its).pl.state ≠ .playing → (s.decoded x.its).io.o.queued = 0 := by
    intro hne
    rw [decoded_buffering (active_cases ha hne)]
    exact h.empty
  refine ⟨⟨h.type,h.view,?_⟩,hrun,sounded_drained hq hidle x.writes⟩
  rw [sounded_i]
  obtain he | ⟨ht,he⟩ := decoded_i s x.its ho
  · rw [he]
    exact h.fed
  · rw [he]
    exact h.fed.pop ht

theorem pollRings_eq {s : Sys} (ha : s.pl.state.active = true) :
    pollStarved (pollFilled s) = setPlState s
      (if (s.pl.state = .buffering ∧ iFree s.io ≠ 0) ∨ ioStarving s.io = true then .buffering
        else .playing) := by
  have hid : ∀ {st : PlState}, s.pl.state = st → s = setPlState s st := by
    rintro _ rfl
    rfl
  cases hst : s.pl.state with
  | unknown => simp [hst,PlState.active] at ha
  | stop => simp [hst,PlState.active] at ha
  | playing =>
    by_cases hs : ioStarving s.io = true
    · simp [pollFilled,pollStarved,hst,hs]
    · simpa [pollFilled,pollStarved,hst,hs] using hid hst
  | buffering =>
    by_cases hf : iFree s.io = 0
    · by_cases hs : ioStarving s.io = true
      · simp [pollFilled,pollStarved,hst,hf,setPlState,hs]
      · simp [pollFilled,pollStarved,hst,hf,setPlState,hs]
    · simpa [pollFilled,pollStarved,hst,hf] using hid hst

theorem starving_iff {io : Io} (hi : io.i.queued < 2^16) (ho : io.o.queued < 2^16) :
    ioStarving io = true ↔ io.i.queued = 0 ∧ io.o.queued = 0 := by
  rw [ioStarving,Bool.and_eq_true,beq_iff_eq,beq_iff_eq,iUsed,oUsed,used_eq_zero_iff io.i hi,
    used_eq_zero_iff io.o ho]

def quietNet : NetPoll := ⟨0,false,false,false,none⟩

/-- A frame in which nothing is decoded and the sound device takes every buffer. -/
def quiet : Outside := ⟨none,quietNet,[],[]⟩

end Mardio
