import Mardio.Frames
import Mardio.HandleAccount

/-!
When the main loop stands still with a file half read. A RIFF file uses only the
output ring, while the player waits for a full input ring to leave its buffering
state, so what fits into the output ring is all that is ever read of it.
-/

set_option autoImplicit false

namespace Mardio
open CounterRing Runs

/-- An open file has bytes left, and a frame without events and without a read
error changes neither the player, nor the file, nor the rings. -/
def Deadlocked (order : Order) (s : Sys) : Prop :=
  s.pl.state.active = true ∧ s.fs.handle ≠ -1 ∧
    (∃ f, s.fs.view s.fs.handle = some f ∧ 0 < f.unread) ∧
    ∃ x t, x.fault = none ∧ frame order x [] s = some t ∧ t.pl.state = s.pl.state ∧
      t.fs.handle = s.fs.handle ∧ t.fs.view t.fs.handle = s.fs.view s.fs.handle ∧
      t.io.inRing = s.io.inRing ∧ t.io.outRing = s.io.outRing

/-- The output buffers the first frames of a RIFF file can fill. -/
def riffBuffers : Order → Nat
  | .linux => 4
  | .stm32 => 5

/-- A RIFF file whose samples fit into those buffers, or an MP3 file that is read
before the head counter wraps. -/
def Outcome.Fits (order : Order) : Outcome → Prop
  | .mp3 f => f.content.length ≤ 2^32*ioInputBufferSize
  | .riff f info => (f.seek info.dataoff).unread ≤ riffBuffers order*ioOutputBufferSize
  | _ => True

def PlayFits (order : Order) (s : Sys) : SysOp → Prop
  | .play w _ what => isHttp what = false → ∀ out, (plReset s).fs.outcome w what = some out →
      out.Fits order
  | _ => True

def FrameFits (order : Order) (s : Sys) (a : Outside × List PlEvent) : Prop :=
  a.1.fault = none ∧ Guarded sysStep (PlayFits order) (beforeEvents order a.1 s)
    (a.2.map PlEvent.op)

structure Mp3Mid (s : Sys) (f : Found) (p : Nat) : Prop extends Mp3Open s f p where
  short : f.content.length ≤ 2^32*ioInputBufferSize
  running : s.ls.state = .init ∨ s.ls.state = .error
  drained : s.ss.state = .error ∨ s.io.o.queued = 0

/-- Between two frames: a full ring is only met while playing. -/
structure Mp3Rest (s : Sys) (f : Found) (p : Nat) : Prop extends Mp3Ready s f p where
  short : f.content.length ≤ 2^32*ioInputBufferSize
  filling : s.pl.state = .buffering → s.io.i.queued < maxInputBuffers

/-- What is left of a RIFF file fits into the free output slots. -/
def RiffWaits (s : Sys) (f : Found) : Prop :=
  s.pl.state = .buffering ∧ s.io.o.queued ≤ maxOutputBuffers ∧
    f.unread ≤ (maxOutputBuffers-s.io.o.queued)*ioOutputBufferSize

structure RiffOpen (s : Sys) (f : Found) : Prop where
  type : s.fs.type = .riff
  view : s.fs.view s.fs.handle = some f
  input : s.io.i.queued = 0
  init : s.ls.state = .init

structure RiffMid (s : Sys) (f : Found) : Prop extends RiffOpen s f where
  room : RiffWaits s f ∨ (s.pl.state = .playing ∧
    (s.ss.state = .error ∨ (s.io.o.queued = 0 ∧ f.unread ≤ 4*ioOutputBufferSize)))

/-- On the board a RIFF file that was just opened plays its first buffer. -/
structure RiffRest (order : Order) (s : Sys) (f : Found) : Prop extends RiffOpen s f where
  room : RiffWaits s f ∨ (order = .stm32 ∧ s.pl.state = .playing ∧ s.io.o.queued = 0 ∧
    f.unread ≤ 5*ioOutputBufferSize)

/-- Nothing is assumed of a state without an open file. -/
structure MidInv (s : Sys) : Prop where
  sys : SysInv (fun _ => True) s
  played : s.fs.handle ≠ -1 → (∃ f p, Mp3Mid s f p) ∨ ∃ f, RiffMid s f

structure RestInv (order : Order) (s : Sys) : Prop where
  sys : SysInv (fun _ => True) s
  played : s.fs.handle ≠ -1 → (∃ f p, Mp3Rest s f p) ∨ ∃ f, RiffRest order s f

theorem Mp3Ready.polls {s : Sys} {f : Found} {p : Nat} (h : Mp3Ready s f p)
    (hshort : f.content.length ≤ 2^32*ioInputBufferSize) (ha : s.pl.state.active = true)
    (hn : s.net.state = .closed) (x : Outside) : Mp3Mid (s.polledRest x) f p := by
  obtain ⟨ho,hrun,hd⟩ := h.polledRest ha hn x
  exact ⟨ho,hshort,hrun,hd⟩

theorem Mp3Rest.polls {s : Sys} {f : Found} {p : Nat} (h : Mp3Rest s f p)
    (hs : SysInv (fun _ => True) s) (hh : s.fs.handle ≠ -1) {x : Outside} (hx : x.fault = none) :
    (afterPolls x s).fs.handle = -1 ∨ ∃ f' p', Mp3Mid (afterPolls x s) f' p' := by
  obtain ⟨ha,_,hn,_⟩ := hs.playing hh
  rw [afterPolls,hx]
  obtain ⟨_,he⟩ | ⟨hq,fs',b,he,_,hread⟩ := h.toMp3Ready.fsPolled hs hh
  · rw [he]
    exact .inr ⟨f,p,h.toMp3Ready.polls h.short ha hn x⟩
  · rcases Nat.eq_zero_or_pos f.unread with hu | hu
    · left
      rw [he]
      exact (hread.done hu).1
    · have hr := h.toMp3Ready.queue hq hread hu b
      rw [← he] at hr
      exact .inr ⟨f.after ioInputBufferSize,p+1,hr.polls h.short ha hn x⟩

theorem RiffOpen.fsPolled {s : Sys} {f : Found} (h : RiffOpen s f) (hs : SysInv (fun _ => True) s)
    (hh : s.fs.handle ≠ -1) (hb : s.io.o.queued ≤ maxOutputBuffers) :
    (s.io.o.queued = maxOutputBuffers ∧ s.fsPolled none = s) ∨
      (s.io.o.queued < maxOutputBuffers ∧
        (s.fsPolled none).io.o = ⟨s.io.o.head+1,s.io.o.tail⟩ ∧ (s.fsPolled none).io.i = s.io.i ∧
        ((f.unread = 0 ∧ (s.fsPolled none).fs.handle = -1) ∨
          ((s.fsPolled none).fs.handle = s.fs.handle ∧
            ∃ f', RiffOpen (s.fsPolled none) f' ∧ f'.unread = f.unread-ioOutputBufferSize))) := by
  by_cases hf : oFree s.io = 0
  · refine .inl ⟨(oFree_eq_zero hb).mp hf,?_⟩
    simp only [Sys.fsPolled,fsPoll_riff_full h.type hf]
  · have hq : s.io.o.queued < maxOutputBuffers :=
      Nat.lt_of_le_of_ne hb fun he => hf ((oFree_eq_zero hb).mpr he)
    obtain ⟨fs',b,hpoll,hread⟩ := fsPoll_riff hs.file hh h.view h.type hf
    have heq : s.fsPolled none = { s with fs := fs', io := s.io.emit b } := by
      simp only [Sys.fsPolled,hpoll]
    rw [heq]
    refine .inr ⟨hq,emit_o b hb,rfl,?_⟩
    rcases Nat.eq_zero_or_pos f.unread with hu | hu
    · exact .inl ⟨hu,(hread.done hu).1⟩
    · obtain ⟨hhan,hst,hv⟩ := hread.more hu
      exact .inr ⟨hhan,_,⟨hread.type.trans h.type,hv,h.input,h.init⟩,
        f.after_unread ioOutputBufferSize⟩

theorem RiffOpen.sounded {s : Sys} {f : Found} (h : RiffOpen s f) (os : List SndWrite) :
    RiffOpen (s.sounded os) f :=
  ⟨h.type,h.view,by rw [sounded_i]; exact h.input,h.init⟩

theorem RiffOpen.polls {s : Sys} {f : Found} (h : RiffOpen s f) (hn : s.net.state = .closed)
    (x : Outside) :
    s.polledRest x = s.sounded x.writes := by
  rw [polledRest_closed hn,decoded_empty h.input]

theorem RiffWaits.sounded {s : Sys} {f : Found} (h : RiffWaits s f) (os : List SndWrite) :
    RiffWaits (s.sounded os) f := by
  have hne : s.pl.state ≠ .playing := by
    rw [h.1]
    exact PlState.noConfusion
  refine ⟨h.1,?_⟩
  rw [sounded_quiet hne os]
  exact h.2

theorem RiffRest.polls {order : Order} {s : Sys} {f : Found} (h : RiffRest order s f)
    (hs : SysInv (fun _ => True) s) (hh : s.fs.handle ≠ -1) {x : Outside} (hx : x.fault = none) :
    (afterPolls x s).fs.handle = -1 ∨ ∃ f', RiffMid (afterPolls x s) f' := by
  obtain ⟨_,_,hn,_⟩ := hs.playing hh
  have hb : s.io.o.queued ≤ maxOutputBuffers := by
    obtain ⟨_,hb,_⟩ | ⟨_,_,h0,_⟩ := h.room
    · exact hb
    · rw [h0]
      exact Nat.zero_le _
  rw [afterPolls,hx]
  obtain ⟨hfull,he⟩ | ⟨hq,ho,_,⟨_,hc⟩ | ⟨_,f',hr,hu⟩⟩ := h.toRiffOpen.fsPolled hs hh hb
  · rw [he,h.toRiffOpen.polls hn]
    refine .inr ⟨f,h.toRiffOpen.sounded x.writes,?_⟩
    obtain hw | ⟨_,_,h0,_⟩ := h.room
    · exact .inl (hw.sounded x.writes)
    · rw [h0] at hfull
      cases hfull
  · exact .inl hc
  · have hq1 : (s.fsPolled none).io.o.queued = s.io.o.queued+1 := by
      rw [ho]
      exact queued_push s.io.o (Nat.lt_of_le_of_lt hq (by decide))
    rw [hr.polls hn]
    refine .inr ⟨f',hr.sounded x.writes,?_⟩
    obtain ⟨hst,_,hroom⟩ | ⟨_,hst,h0,hroom⟩ := h.room
    · have hw : RiffWaits (s.fsPolled none) f' := by
        refine ⟨hst,by omega,?_⟩
        simp only [maxOutputBuffers,ioOutputBufferSize] at *
        omega
      exact .inl (hw.sounded x.writes)
    · refine .inr ⟨hst,?_⟩
      have hle : (s.fsPolled none).io.o.queued ≤ maxOutputBuffers+1 := by omega
      have hst' : (s.fsPolled none).pl.state = .playing := hst
      refine (sounded_drained hle (fun hne => absurd hst' hne) x.writes).imp_right fun hz => ⟨hz,?_⟩
      simp only [ioOutputBufferSize] at *
      omega

theorem RestInv.polls {order : Order} {s : Sys} (h : RestInv order s) {x : Outside}
    (hx : x.fault = none) :
    MidInv (afterPolls x s) := by
  refine ⟨h.sys.polled x,fun hne => ?_⟩
  have hh : s.fs.handle ≠ -1 := fun hc => hne ((h.sys.file.poll x.fault s.io).2.2 hc)
  obtain ⟨f,p,hm⟩ | ⟨f,hr⟩ := h.played hh
  · exact .inl ((hm.polls h.sys hh hx).resolve_left hne)
  · exact .inr ((hr.polls h.sys hh hx).resolve_left hne)

theorem Mp3Mid.poll {s : Sys} {f : Found} {p : Nat} (h : Mp3Mid s f p)
    (hs : SysInv (fun _ => True) s) (hh : s.fs.handle ≠ -1) :
    (plPoll s).fs.handle = -1 ∨ Mp3Rest (plPoll s) f p := by
  obtain ⟨_,hc,_⟩ | ⟨hss,hls,hp⟩ := hs.pollOpen hh
  · exact .inl hc
  · have ho := h.drained.resolve_left hss
    have hb := h.fed.bounded
    rw [hp,pollRings_eq (hs.playing hh).1]
    refine .inr ⟨⟨⟨h.type,h.view,h.fed⟩,h.running.resolve_right hls,ho⟩,h.short,fun hst => ?_⟩
    change (if _ then PlState.buffering else PlState.playing) = .buffering at hst
    split at hst
    · rename_i hcond
      obtain ⟨_,hfree⟩ | hstarve := hcond
      · exact Nat.lt_of_le_of_ne hb fun he => hfree ((iFree_eq_zero hb).mpr he)
      · have hz := ((starving_iff (Nat.lt_of_le_of_lt hb maxInputBuffers_lt) (by omega)).mp
          hstarve).1
        change s.io.i.queued < _
        rw [hz]
        decide
    · cases hst

theorem RiffMid.poll {s : Sys} {f : Found} (h : RiffMid s f) (hs : SysInv (fun _ => True) s)
    (hh : s.fs.handle ≠ -1) (order : Order) :
    (plPoll s).fs.handle = -1 ∨ RiffRest order (plPoll s) f := by
  obtain ⟨_,hc,_⟩ | ⟨hss,_,hp⟩ := hs.pollOpen hh
  · exact .inl hc
  · have hi := h.input
    rw [hp,pollRings_eq (hs.playing hh).1]
    refine .inr ⟨⟨h.type,h.view,h.input,h.init⟩,.inl ?_⟩
    obtain ⟨hst,hb,hroom⟩ | ⟨hst,hcase⟩ := h.room
    · have hf : iFree s.io ≠ 0 := by
        rw [Ne,iFree_eq_zero (by omega),hi]
        decide
      rw [if_pos (.inl ⟨hst,hf⟩)]
      exact ⟨rfl,hb,hroom⟩
    · obtain ⟨h0,hroom⟩ := hcase.resolve_left hss
      rw [if_pos (.inr ((starving_iff (by omega) (by omega)).mpr ⟨hi,h0⟩))]
      refine ⟨rfl,?_,?_⟩
      · change s.io.o.queued ≤ _
        omega
      · change f.unread ≤ (maxOutputBuffers-s.io.o.queued)*ioOutputBufferSize
        rw [h0]
        exact hroom

theorem MidInv.poll {s : Sys} (h : MidInv s) (order : Order) : RestInv order (plPoll s) := by
  refine ⟨h.sys.poll,fun hne => ?_⟩
  have hh : s.fs.handle ≠ -1 := fun hc => hne (plPoll_idle hc)
  obtain ⟨f,p,hm⟩ | ⟨f,hr⟩ := h.played hh
  · exact .inl ⟨f,p,(hm.poll h.sys hh).resolve_left hne⟩
  · exact .inr ⟨f,(hr.poll h.sys hh order).resolve_left hne⟩

theorem plPlay_http {s t : Sys} {w : World} {o : NetOpen} {what : Str}
    (h : SysInv (fun _ => True) s) (hu : isHttp what = true) (hp : plPlay w o what s = some t) :
    t.fs.handle = -1 := by
  rw [plPlay_url hu hp]
  exact h.reset.2.2.1

theorem plPlay_rest {order : Order} {s t : Sys} {w : World} {o : NetOpen} {what : Str}
    (h : SysInv (fun _ => True) s) (hp : plPlay w o what s = some t)
    (hfit : PlayFits order s (.play w o what)) (hh : t.fs.handle ≠ -1) :
    (∃ f, Mp3Rest t f 0) ∨ ∃ f, RiffOpen t f ∧ t.pl.state = .playing ∧ t.io.o.queued = 0 ∧
      f.unread ≤ riffBuffers order*ioOutputBufferSize := by
  have hu : isHttp what = false := by
    cases hu : isHttp what with
    | false => rfl
    | true => exact absurd (plPlay_http h hu hp) hh
  obtain ⟨out,hout,hst⟩ := plPlay_started h hu hp
  have hf := hfit hu out hout
  obtain ⟨hi,ho⟩ := ioInit_queued s.io
  rw [← hst.io] at hi ho
  have hls : t.ls.state = .init := by rw [hst.ls]; rfl
  cases out with
  | refused => exact absurd (hst.none rfl) hh
  | leaked => exact absurd (hst.none rfl) hh
  | mp3 f =>
    obtain ⟨hpos,hty,hv,_,hb⟩ := hst.mp3 f rfl
    refine .inl ⟨f,⟨⟨hty,hv,?_⟩,hls,ho⟩,hf,fun _ => by rw [hi]; decide⟩
    rw [hst.io]
    exact Mp3Fed.start hpos s.io
  | riff f info =>
    obtain ⟨hty,hv,_,hpl⟩ := hst.riff f info rfl
    exact .inr ⟨_,⟨hty,hv,hi,hls⟩,hpl,ho,hf⟩

theorem Mp3Rest.mid {s : Sys} {f : Found} {p : Nat} (h : Mp3Rest s f p) : Mp3Mid s f p :=
  ⟨h.toMp3Open,h.short,.inl h.init,.inr h.empty⟩

theorem event_open {order : Order} {s t : Sys} (h : SysInv (fun _ => True) s) (ev : PlEvent)
    (hok : PlayFits order s ev.op) (hs : sysStep s ev.op = some t) (hh : t.fs.handle ≠ -1) :
    (∃ v, t = { s with pl := plVolumeSet v s.pl }) ∨ (∃ f, Mp3Rest t f 0) ∨
      ∃ f, RiffOpen t f ∧ t.pl.state = .playing ∧ t.io.o.queued = 0 ∧
        f.unread ≤ riffBuffers order*ioOutputBufferSize := by
  cases ev with
  | play w o what => exact .inr (plPlay_rest h hs hok hh)
  | stop =>
    cases hs
    exact absurd (h.stop.1.idle h.stop.2).1 hh
  | volume v =>
    cases hs
    exact .inl ⟨v,rfl⟩

theorem MidInv.event {s t : Sys} (h : MidInv s) (ev : PlEvent) (hok : PlayFits .linux s ev.op)
    (hs : sysStep s ev.op = some t) : MidInv t := by
  refine ⟨h.sys.call ev.op hs,fun hh => ?_⟩
  obtain ⟨v,rfl⟩ | ⟨f,hm⟩ | ⟨f,hr,hpl,ho,hu⟩ := event_open h.sys ev hok hs hh
  · obtain ⟨f,p,hm⟩ | ⟨f,hr⟩ := h.played hh
    · exact .inl ⟨f,p,⟨hm.type,hm.view,hm.fed⟩,hm.short,hm.running,hm.drained⟩
    · exact .inr ⟨f,⟨hr.type,hr.view,hr.input,hr.init⟩,hr.room⟩
  · exact .inl ⟨f,0,hm.mid⟩
  · exact .inr ⟨f,hr,.inr ⟨hpl,.inr ⟨ho,hu⟩⟩⟩

theorem RestInv.event {s t : Sys} (h : RestInv .stm32 s) (ev : PlEvent)
    (hok : PlayFits .stm32 s ev.op) (hs : sysStep s ev.op = some t) : RestInv .stm32 t := by
  refine ⟨h.sys.call ev.op hs,fun hh => ?_⟩
  obtain ⟨v,rfl⟩ | ⟨f,hm⟩ | ⟨f,hr,hpl,ho,hu⟩ := event_open h.sys ev hok hs hh
  · obtain ⟨f,p,hm⟩ | ⟨f,hr⟩ := h.played hh
    · exact .inl ⟨f,p,⟨⟨hm.type,hm.view,hm.fed⟩,hm.init,hm.empty⟩,hm.short,hm.filling⟩
    · exact .inr ⟨f,⟨hr.type,hr.view,hr.input,hr.init⟩,hr.room⟩
  · exact .inl ⟨f,0,hm⟩
  · exact .inr ⟨f,hr,.inr ⟨rfl,hpl,ho,hu⟩⟩

theorem RestInv.frame {order : Order} {s t : Sys} {a : Outside × List PlEvent} (h : RestInv order s)
    (hok : FrameFits order s a) (hf : frameStep order s a = some t) : RestInv order t := by
  obtain ⟨hx,hg⟩ := hok
  have hm := h.polls hx
  cases order with
  | linux =>
    exact frame_keeps (fun _ ev _ h hok hs => h.event ev hok hs) (fun _ h => h.poll .linux) hm hg hf
  | stm32 =>
    have hend : ∀ u, RestInv .stm32 u → RestInv .stm32 (afterEvents .stm32 u) := fun _ h => h
    exact frame_keeps (fun _ ev _ h hok hs => h.event ev hok hs) hend (hm.poll .stm32) hg hf

theorem Mp3Rest.moves {s : Sys} {f : Found} {p : Nat} (h : Mp3Rest s f p)
    (hs : SysInv (fun _ => True) s) (hh : s.fs.handle ≠ -1) (hu : 0 < f.unread) {x : Outside}
    (hx : x.fault = none) :
    (afterPolls x s).io.i ≠ s.io.i := by
  obtain ⟨ha,_,hn,_⟩ := hs.playing hh
  have hn' : (s.fsPolled none).net.state = .closed := hn
  rw [afterPolls,hx,polledRest_closed hn',sounded_i]
  obtain ⟨hfull,he⟩ | ⟨_,fs',b,he,_⟩ := h.toMp3Ready.fsPolled hs hh
  · -- the ring is full, so the player is playing and the decoder takes a buffer
    have hst : s.pl.state = .playing := by
      by_contra hne
      exact absurd (h.filling (active_cases ha hne)) (by omega)
    have hp : p < 2^32 := by
      have hpos := h.fed.pos
      have hshort := h.short
      simp only [Found.unread,ioInputBufferSize] at *
      omega
    have hq : 0 < s.io.i.queued := by rw [hfull]; decide
    have ht := h.fed.front hp hq
    have hr : libmadReady s.pl.state s.ls s.io = true := by
      rw [hst]
      exact libmadReady_playing h.init hq h.fed.bounded h.empty
    have hring := (libmadLoop_took hr ht (by rw [h.empty]; exact Nat.zero_le _) x.its).1
    rw [he]
    intro heq
    have htail : s.io.i.tail+1 = s.io.i.tail :=
      (congrArg CounterRing.tail hring).symm.trans (congrArg IoS.tail heq)
    exact absurd htail (by simp)
  · have hi : (s.fsPolled none).io.i = ⟨s.io.i.head+1,s.io.i.tail⟩ := by
      rw [he]
      exact enqueue_i b h.fed.bounded
    have ho : (s.fsPolled none).io.o.queued = 0 := by
      rw [he]
      exact h.empty
    have hhead : ((s.fsPolled none).decoded x.its).io.i.head = s.io.i.head+1 := by
      obtain he | ⟨_,he⟩ := decoded_i (s.fsPolled none) x.its (by rw [ho]; exact Nat.zero_le _)
      · rw [he,hi]
      · rw [he,hi]
    intro heq
    rw [heq] at hhead
    exact absurd hhead (by simp)

theorem RiffRest.moves {order : Order} {s : Sys} {f : Found} (h : RiffRest order s f)
    (hs : SysInv (fun _ => True) s) (hh : s.fs.handle ≠ -1) (hu : 0 < f.unread) {x : Outside}
    (hx : x.fault = none) : (afterPolls x s).io.o.head ≠ s.io.o.head := by
  obtain ⟨_,_,hn,_⟩ := hs.playing hh
  have hn' : (s.fsPolled none).net.state = .closed := hn
  have hq : s.io.o.queued < maxOutputBuffers := by
    obtain ⟨_,_,hroom⟩ | ⟨_,_,h0,_⟩ := h.room
    · simp only [maxOutputBuffers,ioOutputBufferSize] at *
      omega
    · rw [h0]
      decide
  obtain ⟨hfull,_⟩ | ⟨_,ho,hi,_⟩ := h.toRiffOpen.fsPolled hs hh (Nat.le_of_lt hq)
  · omega
  · have hin : (s.fsPolled none).io.i.queued = 0 := by rw [hi]; exact h.input
    rw [afterPolls,hx,polledRest_closed hn',decoded_empty hin]
    have hhead : ((s.fsPolled none).sounded x.writes).io.o.head = s.io.o.head+1 := by
      refine (hostSndLoop_rings _ _ _ _ _).2.trans ?_
      rw [ho]
    rw [hhead]
    simp

theorem RestInv.lively {order : Order} {s : Sys} (h : RestInv order s) : ¬ Deadlocked order s := by
  rintro ⟨_,hh,⟨f,hv,hu⟩,x,t,hx,hf,_,_,_,hin,hout⟩
  rw [frame_quiet,Option.some.injEq] at hf
  subst hf
  rw [plPoll_io] at hin hout
  obtain ⟨g,p,hm⟩ | ⟨g,hr⟩ := h.played hh
  · cases hm.view.symm.trans hv
    exact hm.moves h.sys hh hu hx (ring_i hin)
  · cases hr.view.symm.trans hv
    exact hr.moves h.sys hh hu hx (congrArg CounterRing.head hout)

structure RiffStalled (s : Sys) (f : Found) (k : Nat) : Prop extends RiffOpen s f where
  sys : SysInv (fun _ => True) s
  opened : s.fs.handle ≠ -1
  waits : s.pl.state = .buffering
  sound : s.ss.state ≠ .error
  filled : s.io.o.queued = k

/-- Only a full input ring would end the buffering. -/
theorem RiffStalled.poll {s : Sys} {f : Found} {k : Nat} (h : RiffStalled s f k) :
    plPoll s = s := by
  have hf : iFree s.io ≠ 0 := by
    rw [Ne,iFree_eq_zero (by rw [h.input]; exact Nat.zero_le _),h.input]
    decide
  obtain ⟨he,_⟩ | ⟨_,_,hp⟩ := h.sys.pollOpen h.opened
  · obtain he | he := he
    · exact absurd he h.sound
    · rw [h.init] at he
      cases he
  · rw [hp,pollRings_eq (h.sys.playing h.opened).1,if_pos (.inl ⟨h.waits,hf⟩),← h.waits]
    rfl

theorem RiffStalled.sounded {s : Sys} {f : Found} {k : Nat} (h : RiffStalled s f k)
    (os : List SndWrite) :
    RiffStalled (s.sounded os) f k := by
  have hne : s.pl.state ≠ .playing := by
    rw [h.waits]
    exact PlState.noConfusion
  refine ⟨h.toRiffOpen.sounded os,?_,h.opened,h.waits,?_,?_⟩
  · exact h.sys.call (.sndLoop os) rfl
  · exact fun he => h.sound ((hostSndLoop_quiet (.inl hne) s.pl.volume os s.ss).2.mp he)
  · rw [sounded_quiet hne]
    exact h.filled

theorem RiffStalled.frame {s : Sys} {f : Found} {k : Nat} (h : RiffStalled s f k)
    (hk : k < maxOutputBuffers) (hu : 0 < f.unread) {x : Outside} (hx : x.fault = none) :
    ∃ f', RiffStalled (plPoll (afterPolls x s)) f' (k+1) ∧
      f'.unread = f.unread-ioOutputBufferSize := by
  obtain ⟨_,_,hn,_⟩ := h.sys.playing h.opened
  have hfill := h.filled
  obtain ⟨hfull,_⟩ | ⟨hq,ho,_,⟨h0,_⟩ | ⟨hhan,f',hr,hf'⟩⟩ :=
    h.toRiffOpen.fsPolled h.sys h.opened (by omega)
  · omega
  · omega
  · have hs : RiffStalled (s.fsPolled none) f' (k+1) := by
      refine ⟨hr,?_,hhan ▸ h.opened,h.waits,h.sound,?_⟩
      · exact h.sys.call (.fsPoll none) rfl
      · rw [ho,← hfill]
        exact queued_push s.io.o (Nat.lt_of_le_of_lt hq (by decide))
    have heq : afterPolls x s = (s.fsPolled none).sounded x.writes := by
      rw [afterPolls,hx,hr.polls hn]
    rw [heq,(hs.sounded x.writes).poll]
    exact ⟨f',hs.sounded x.writes,hf'⟩

/-- With a full output ring nothing moves any more, whatever a frame meets. -/
theorem RiffStalled.stands {s : Sys} {f : Found} (h : RiffStalled s f maxOutputBuffers)
    (order : Order) {x : Outside} (hx : x.fault = none) :
    ∃ t, Mardio.frame order x [] s = some t ∧ t.fs = s.fs ∧ t.io = s.io ∧ t.pl = s.pl := by
  obtain ⟨_,_,hn,_⟩ := h.sys.playing h.opened
  have hfill := h.filled
  have hne : s.pl.state ≠ .playing := by
    rw [h.waits]
    exact PlState.noConfusion
  obtain ⟨_,he⟩ | ⟨hq,_⟩ := h.toRiffOpen.fsPolled h.sys h.opened (by omega)
  · have heq : afterPolls x s = s.sounded x.writes := by
      rw [afterPolls,hx,he,h.toRiffOpen.polls hn]
    refine ⟨s.sounded x.writes,?_,rfl,sounded_quiet hne x.writes,rfl⟩
    rw [frame_quiet,heq,(h.sounded x.writes).poll]
  · omega

theorem RiffStalled.deadlocked {s : Sys} {f : Found} (h : RiffStalled s f maxOutputBuffers)
    (hu : 0 < f.unread) (order : Order) : Deadlocked order s := by
  obtain ⟨t,ht,hfs,hio,hpl⟩ := h.stands order (x := quiet) rfl
  refine ⟨by rw [h.waits]; rfl,h.opened,⟨f,h.view,hu⟩,quiet,t,rfl,ht,?_,?_,?_,?_,?_⟩
  · rw [hpl]
  · rw [hfs]
  · rw [hfs]
  · rw [hio]
  · rw [hio]

theorem RiffStalled.run {order : Order} (xs : List Outside) {s : Sys} {f : Found} {k : Nat}
    (h : RiffStalled s f k) (hk : k+xs.length = maxOutputBuffers) (hx : ∀ x ∈ xs, x.fault = none)
    (hu : xs.length*ioOutputBufferSize < f.unread) :
    ¬ Always (frameStep order) (fun s => ¬ Deadlocked order s) s (xs.map fun x => (x,[])) := by
  -- each frame fills one more output slot, and with the last one nothing moves
  induction xs generalizing s f k with
  | nil =>
    simp only [List.length_nil,Nat.add_zero] at hk
    subst hk
    exact fun ha => ha (h.deadlocked (by simpa using hu) order)
  | cons x xs ih =>
    rw [List.length_cons,Nat.succ_mul] at hu
    rw [List.length_cons] at hk
    obtain ⟨f',hf',hu'⟩ := h.frame (by omega) (by omega) (hx x (List.mem_cons_self ..))
    refine fun ha => ih hf' (by omega) (fun y hy => hx y (List.mem_cons_of_mem _ hy)) ?_
      (ha.2 _ (frame_quiet order x s))
    rw [hu']
    exact Nat.lt_sub_of_add_lt hu

/-- On Linux `pl_poll` follows the play at once and finds both rings empty. -/
theorem riff_stalls {s t : Sys} {w : World} {o : NetOpen} {what : Str} {f : Found} {info : RiffInfo}
    (h : SysInv (fun _ => True) s) (hsound : s.ss.state ≠ .error) (hu : isHttp what = false)
    (hout : (plReset s).fs.outcome w what = some (.riff f info)) (hp : plPlay w o what s = some t) :
    RiffStalled (plPoll t) (f.seek info.dataoff) 0 := by
  obtain ⟨out,hout',hst⟩ := plPlay_started h hu hp
  cases hout.symm.trans hout'
  obtain ⟨hty,hv,hh,_⟩ := hst.riff f info rfl
  obtain ⟨hi,ho⟩ := ioInit_queued s.io
  rw [← hst.io] at hi ho
  have hls : t.ls.state = .init := by rw [hst.ls]; rfl
  have hss : t.ss.state ≠ .error := by rw [hst.ss]; exact hsound
  have hsys : SysInv (fun _ => True) t := h.play hp fun _ _ _ _ => trivial
  have hact := (hsys.playing hh).1
  have hpoll : plPoll t = setPlState t .buffering := by
    obtain ⟨he,_⟩ | ⟨_,_,hpoll⟩ := hsys.pollOpen hh
    · obtain he | he := he
      · exact absurd he hss
      · rw [hls] at he
        cases he
    · rw [hpoll,pollRings_eq hact,if_pos (.inr ((starving_iff (by omega) (by omega)).mpr ⟨hi,ho⟩))]
  rw [hpoll]
  exact ⟨⟨hty,hv,hi,hls⟩,hsys.setState rfl,hh,rfl,hss,ho⟩

def riffHeader : List UInt8 :=
  [0x52,0x49,0x46,0x46,0x44,0x4e,0,0,0x57,0x41,0x56,0x45,
    0x66,0x6d,0x74,0x20,16,0,0,0,1,0,2,0,0x44,0xac,0,0,0x10,0xb1,2,0,4,0,16,0,
    0x64,0x61,0x74,0x61,0x20,0x4e,0,0]

def longRiff : List UInt8 := riffHeader ++ List.replicate 20000 0

theorem sysInit_riff {c : List UInt8} {info : RiffInfo} (ht : typeOfHeader (c.take 64) = .riff)
    (hi : riffInfo (hostWith none) (c.take 128) = some (some info)) :
    (plReset (sysInit [] true)).fs.outcome (hostWith (some c)) [0x61] =
      some (.riff ⟨.host,c,0⟩ info) := by
  have hl : (plReset (sysInit [] true)).fs.lookup (hostWith (some c)).files [0x61] =
      some ⟨.host,c,0⟩ := rfl
  have h64 : Found.read ⟨.host,c,0⟩ (hostWith (some c)).typeFault 64 = c.take 64 := rfl
  have h128 : Found.read (Found.rewound ⟨.host,c,0⟩) (hostWith (some c)).riffFault 128 =
      c.take 128 := rfl
  have hi' : riffInfo (hostWith (some c)) (c.take 128) = some (some info) := hi
  simp only [Fs.outcome,hl,h64,ht,h128,hi']
  rfl

/-- Along every run whose play events open files that fit, the loop never stands
still with bytes left to read. -/
theorem frameRun_lively (order : Order) (entries : List ResEntry) (snd : Bool)
    (frames : List (Outside × List PlEvent))
    (h : Guarded (frameStep order) (FrameFits order) (sysInit entries snd) frames) :
    Always (frameStep order) (fun s => ¬ Deadlocked order s) (sysInit entries snd) frames :=
  always_of_guarded (fun _ h => RestInv.lively h) (fun _ _ _ h hok hs => h.frame hok hs) frames _
    ⟨sysInit_inv entries snd trivial,fun hh => absurd rfl hh⟩ h

theorem frameRun_lively_mp3 :
    Always (frameStep .linux) (fun s => ¬ Deadlocked .linux s) (sysInit [] true)
      [(quiet,[.play (hostWith (some taggedFile)) noNet [0x61]]),(quiet,[])] := by
  refine frameRun_lively .linux [] true _
    ⟨⟨rfl,?_,fun _ _ => trivial⟩,fun _ _ => ⟨⟨rfl,trivial⟩,fun _ _ => trivial⟩⟩
  intro _ out hout
  have h : some (Outcome.mp3 ⟨.host,taggedFile,0⟩) = some out := hout
  cases h
  change taggedFile.length ≤ 2^32*ioInputBufferSize
  decide

/-- The file is left with its last bytes unread: four frames fill the output ring,
and the player waits for the input ring to fill. -/
theorem frameRun_stands_still :
    ¬ Always (frameStep .linux) (fun s => ¬ Deadlocked .linux s) (sysInit [] true)
      ((quiet,[.play (hostWith (some longRiff)) noNet [0x61]]) ::
        (List.replicate 4 quiet).map fun x => (x,[])) := by
  intro ha
  have hout : (plReset (sysInit [] true)).fs.outcome (hostWith (some longRiff)) [0x61] =
      some (.riff ⟨.host,longRiff,0⟩ ⟨.hz44100,2,36⟩) :=
        sysInit_riff (by decide +kernel) (by decide +kernel)
  obtain ⟨fs,hfs⟩ := fsPlay_returns hout
  have hplay : ∃ t, plPlay (hostWith (some longRiff)) noNet [0x61] (sysInit [] true) = some t :=
    ⟨_,by rw [plPlay,if_neg (by decide),hfs]⟩
  obtain ⟨t,ht⟩ := hplay
  have hstall := riff_stalls (sysInit_inv [] true trivial) (by decide) (by decide) hout ht
  have hframe : frameStep .linux (sysInit [] true)
      (quiet,[.play (hostWith (some longRiff)) noNet [0x61]]) =
      some (plPoll t) := by
    have hb : beforeEvents .linux quiet (sysInit [] true) = sysInit [] true := rfl
    simp only [frameStep,frame_eq,hb,List.map_cons,List.map_nil,PlEvent.op,sysRun,sysStep,ht]
    rfl
  refine hstall.run (List.replicate 4 quiet) rfl ?_ ?_ (ha.2 _ hframe)
  · intro x hx
    rw [List.eq_of_mem_replicate hx]
    rfl
  · have hlen : longRiff.length = 20044 := by
      rw [longRiff,List.length_append,List.length_replicate]
      rfl
    have hunread : ∀ c : List UInt8, (Found.seek ⟨.host,c,0⟩ 36).unread = c.length-36 :=
      fun _ => rfl
    rw [hunread,hlen,List.length_replicate]
    decide

end Mardio
