import Mardio.Frames
import Mardio.HandleAccount

/-!
The end of an MP3 file. It is noticed by the source while the last buffers still
wait in the input ring, and `pl_poll` stops the player in the same frame.
-/

set_option autoImplicit false

namespace Mardio
open CounterRing Runs

def quietStep (order : Order) (s : Sys) (x : Outside) : Option Sys := frame order x [] s

/-- Neither the file, nor the decoder, nor the sound device fails in the frame. -/
def Clean (s : Sys) (x : Outside) : Prop :=
  x.fault = none ∧ (∀ it ∈ x.its, it.header = .none ∧ it.frame = .none) ∧
    (∀ o ∈ x.writes, o = .accept) ∧ (afterPolls x s).ls.state ≠ .error ∧
    (afterPolls x s).ss.state ≠ .error

instance (s : Sys) (x : Outside) : Decidable (Clean s x) := inferInstanceAs (Decidable (_ ∧ _))

/-- Once the player has stopped, the decoder has been given all of `content`. -/
def Complete (content : List UInt8) (s : Sys) : Prop := s.pl.state = .stop → s.ls.popped = content

instance (content : List UInt8) (s : Sys) : Decidable (Complete content s) :=
  inferInstanceAs (Decidable (_ → _))

def Untruncated (order : Order) (content : List UInt8) (s : Sys) : Prop :=
  ∀ xs, Guarded (quietStep order) Clean s xs → Always (quietStep order) (Complete content) s xs

def waiting (r : CounterRing Input maxInputBuffers) : List UInt8 :=
  r.contents.flatMap fun e => e.2.bytes

theorem waiting_put (r : CounterRing Input maxInputBuffers) (b : Input)
    (h : r.used < maxInputBuffers) :
    waiting (r.put b) = waiting r ++ b.bytes := by
  rw [waiting,put_contents maxInputBuffers_dvd (by decide) r b h,List.flatMap_append]
  simp [waiting]

theorem waiting_take (r : CounterRing Input maxInputBuffers) (h : 0 < r.used) :
    waiting r = (r.entry 0).2.bytes ++ waiting r.take := by
  rw [waiting,contents_eq_cons maxInputBuffers_dvd r h,List.flatMap_cons]
  rfl

theorem waiting_ne_nil {r : CounterRing Input maxInputBuffers} {e : Fin maxInputBuffers × Input}
    (he : e ∈ r.contents) (hu : 0 < e.2.used) : waiting r ≠ [] := by
  intro h
  have hb := List.flatMap_eq_nil_iff.mp h e he
  rw [← List.length_eq_zero_iff,Input.bytes_length] at hb
  omega

theorem decoded_stream (s : Sys) (its : List MadIter) (ho : s.io.o.queued ≤ maxOutputBuffers+1) :
    ((s.decoded its).io.inRing = s.io.inRing ∧ (s.decoded its).ls.popped = s.ls.popped) ∨
      (s.io.i.tail < s.io.i.head ∧ (s.decoded its).io.inRing = s.io.inRing.take ∧
        (s.decoded its).ls.popped = s.ls.popped ++ (s.io.inRing.entry 0).2.bytes) := by
  cases hr : libmadReady s.pl.state s.ls s.io with
  | false => exact .inl (by simp [Sys.decoded,libmadLoop_idle hr])
  | true =>
    by_cases ht : s.io.i.tail < s.io.i.head
    · obtain ⟨hring,hpop,_⟩ := libmadLoop_took hr ht ho its
      exact .inr ⟨ht,hring,hpop⟩
    · exact .inl (by simp [Sys.decoded,libmadLoop_wrapped hr ht,(carryOver_rest s.ls).2.2.2])

theorem decoded_conserves (s : Sys) (its : List MadIter) (ho : s.io.o.queued ≤ maxOutputBuffers+1) :
    (s.decoded its).ls.popped ++ waiting (s.decoded its).io.inRing =
      s.ls.popped ++ waiting s.io.inRing := by
  obtain ⟨hring,hpop⟩ | ⟨ht,hring,hpop⟩ := decoded_stream s its ho
  · rw [hring,hpop]
  · have hu : 0 < s.io.inRing.used := used_pos_of_lt s.io.inRing ht
    rw [hring,hpop,waiting_take s.io.inRing hu,List.append_assoc]

/-- An MP3 file with content `c` whose first `p` buffers have been queued, none of
them empty. -/
structure Mp3Stream (c : List UInt8) (s : Sys) (f : Found) (p : Nat) :
    Prop extends Mp3Ready s f p where
  sys : SysInv (fun _ => True) s
  opened : s.fs.handle ≠ -1
  sound : s.ss.state ≠ .error
  content : f.content = c
  nonempty : c ≠ []
  data : 0 < p → ioInputBufferSize*(p-1) < c.length
  limit : p ≤ 2^32
  stream : s.ls.popped ++ waiting s.io.inRing = c.take f.pos
  filled : ∀ e ∈ s.io.inRing.contents, 0 < e.2.used ∧ e.2.used ≤ ioInputBufferSize

/-- Between two frames. A ring behind a wrapped counter stays full. -/
structure Streaming (c : List UInt8) (s : Sys) (f : Found) (p : Nat) :
    Prop extends Mp3Stream c s f p where
  buffering : s.pl.state = .buffering →
    s.ls.popped = [] ∧ p = s.io.i.queued ∧ s.io.i.queued < maxInputBuffers
  playing : s.pl.state = .playing → 3 ≤ s.io.i.queued
  wrapped : p = 2^32 → s.io.i.queued = maxInputBuffers

structure Loaded (c : List UInt8) (s : Sys) (f : Found) (p : Nat) :
    Prop extends Mp3Stream c s f p where
  buffering : s.pl.state = .buffering → s.ls.popped = [] ∧ p = s.io.i.queued
  playing : s.pl.state = .playing → s.io.i.queued = maxInputBuffers

theorem Mp3Stream.active {c : List UInt8} {s : Sys} {f : Found} {p : Nat} (h : Mp3Stream c s f p) :
    s.pl.state.active = true := (h.sys.playing h.opened).1

theorem take_read (f : Found) (size : Nat) :
    f.content.take f.pos ++ f.read none size = f.content.take (f.after size).pos := by
  rw [Found.read_none,← List.take_add]
  simp only [Found.after,Found.unread]
  rcases Nat.le_total size (f.content.length-f.pos) with h | h
  · rw [Nat.min_eq_left h]
  · rw [Nat.min_eq_right h,List.take_of_length_le (by omega),List.take_of_length_le (by omega)]

theorem Mp3Stream.queue {c : List UInt8} {s : Sys} {f : Found} {p : Nat} (h : Mp3Stream c s f p)
    (hq : s.io.i.queued < maxInputBuffers) (hp : p < 2^32) {fs' : Fs} {b : Input}
    (heq : s.fsPolled none = { s with fs := fs', io := s.io.enqueue b })
    (hb : b.bytes = f.read none ioInputBufferSize) (hread : ReadOn s.fs fs' f ioInputBufferSize)
    (hu : 0 < f.unread) : Mp3Stream c (s.fsPolled none) (f.after ioInputBufferSize) (p+1) := by
  have hready := h.toMp3Ready.queue hq hread hu b
  have hring := iPush_inRing s.io b (Nat.le_of_lt hq)
  have hlen : b.used = min ioInputBufferSize f.unread := by
    rw [← Input.bytes_length,hb,Found.read_none_length]
  have hsys : SysInv (fun _ => True) (s.fsPolled none) :=
    h.sys.call (.fsPoll none) rfl
  rw [heq] at hsys ⊢
  refine ⟨hready,hsys,?_,h.sound,h.content,h.nonempty,fun _ => ?_,hp,?_,?_⟩
  · rw [(hread.more hu).1]
    exact h.opened
  · have hpos := h.fed.pos
    rw [← h.content]
    simp only [Found.unread,Nat.add_sub_cancel] at *
    omega
  · change s.ls.popped ++ waiting (setInput (iPush s.io).2 (iPush s.io).1 b).inRing = _
    rw [hring,waiting_put s.io.inRing b hq,← List.append_assoc,h.stream,hb,← h.content]
    exact take_read f ioInputBufferSize
  · intro e he
    change e ∈ (setInput (iPush s.io).2 (iPush s.io).1 b).inRing.contents at he
    rw [hring,put_contents maxInputBuffers_dvd (by decide) s.io.inRing b hq,List.mem_append,
      List.mem_singleton] at he
    obtain he | rfl := he
    · exact h.filled e he
    · simp only [ioInputBufferSize] at *
      omega

theorem Streaming.load {c : List UInt8} {s : Sys} {f : Found} {p : Nat} (h : Streaming c s f p) :
    (s.io.i.queued = maxInputBuffers ∧ s.fsPolled none = s ∧ Loaded c s f p) ∨
      (s.io.i.queued < maxInputBuffers ∧ p < 2^32 ∧
        ∃ fs' b, s.fsPolled none = { s with fs := fs', io := s.io.enqueue b } ∧
          b.bytes = f.read none ioInputBufferSize ∧ ReadOn s.fs fs' f ioInputBufferSize ∧
          (0 < f.unread → Loaded c (s.fsPolled none) (f.after ioInputBufferSize) (p+1) ∧
            (s.fsPolled none).io.i.queued = s.io.i.queued+1)) := by
  obtain ⟨hfull,he⟩ | ⟨hq,fs',b,he,hb,hread⟩ := h.toMp3Ready.fsPolled h.sys h.opened
  · refine .inl ⟨hfull,he,h.toMp3Stream,fun hst => ?_,fun _ => hfull⟩
    have hlt := (h.buffering hst).2.2
    omega
  · have hp : p < 2^32 := by
      refine Nat.lt_of_le_of_ne h.limit fun hp => ?_
      have hw := h.wrapped hp
      omega
    refine .inr ⟨hq,hp,fs',b,he,hb,hread,fun hu => ?_⟩
    have hq1 : (s.fsPolled none).io.i.queued = s.io.i.queued+1 := by
      rw [he]
      change (s.io.enqueue b).i.queued = _
      rw [enqueue_i b (Nat.le_of_lt hq)]
      exact queued_push s.io.i (Nat.lt_of_le_of_lt hq (by decide))
    refine ⟨⟨h.toMp3Stream.queue hq hp he hb hread hu,fun hst => ?_,fun hst => ?_⟩,hq1⟩
    · obtain ⟨hpop,hpq,_⟩ := h.buffering hst
      exact ⟨hpop,by omega⟩
    · have h3 := h.playing hst
      have hm : maxInputBuffers = 4 := rfl
      omega

section
variable {c : List UInt8} {s : Sys} {f : Found} {p : Nat} {x : Outside}

theorem decoded_subset (s : Sys) (its : List MadIter) (ho : s.io.o.queued ≤ maxOutputBuffers+1) :
    (s.decoded its).io.inRing.contents ⊆ s.io.inRing.contents := by
  obtain ⟨hring,_⟩ | ⟨ht,hring,_⟩ := decoded_stream s its ho
  · rw [hring]
    exact fun _ he => he
  · rw [hring,contents_eq_cons maxInputBuffers_dvd s.io.inRing (used_pos_of_lt s.io.inRing ht)]
    exact fun _ he => List.mem_cons_of_mem _ he

theorem Mp3Stream.polls (h : Mp3Stream c s f p) (hls : (s.polledRest x).ls.state ≠ .error)
    (hss : (s.polledRest x).ss.state ≠ .error) : Mp3Stream c (s.polledRest x) f p := by
  obtain ⟨ha,_,hn,_⟩ := h.sys.playing h.opened
  obtain ⟨hopen,hrun,hd⟩ := h.toMp3Ready.polledRest ha hn x
  have ho : s.io.o.queued ≤ maxOutputBuffers+1 := by rw [h.empty]; exact Nat.zero_le _
  have hring : (s.polledRest x).io.inRing = (s.decoded x.its).io.inRing := by
    rw [polledRest_closed hn]
    exact (hostSndLoop_rings _ _ _ _ _).1
  have hpop : (s.polledRest x).ls = (s.decoded x.its).ls := by
    rw [polledRest_closed hn]
    rfl
  refine ⟨⟨hopen,hrun.resolve_right hls,hd.resolve_left hss⟩,h.sys.polledRest x,h.opened,hss,
    h.content,h.nonempty,h.data,h.limit,?_,?_⟩
  · rw [hring,hpop]
    exact (decoded_conserves s x.its ho).trans h.stream
  · rw [hring]
    exact fun e he => h.filled e (decoded_subset s x.its ho he)

theorem Mp3Stream.setState (h : Mp3Stream c s f p) {st : PlState} (hst : st.active = true) :
    Mp3Stream c (setPlState s st) f p :=
  ⟨⟨⟨h.type,h.view,h.fed⟩,h.init,h.empty⟩,h.sys.setState hst,h.opened,h.sound,h.content,h.nonempty,
    h.data,h.limit,h.stream,h.filled⟩

theorem Mp3Stream.poll (h : Mp3Stream c s f p) :
    plPoll s = setPlState s (if (s.pl.state = .buffering ∧ s.io.i.queued < maxInputBuffers) ∨
      s.io.i.queued = 0 then .buffering else .playing) := by
  have hb := h.fed.bounded
  have hm := maxInputBuffers_lt
  have he := h.empty
  have hfree : iFree s.io ≠ 0 ↔ s.io.i.queued < maxInputBuffers := by
    rw [Ne,iFree_eq_zero hb]
    omega
  have hstarve : ioStarving s.io = true ↔ s.io.i.queued = 0 := by
    rw [starving_iff (by omega) (by omega)]
    exact ⟨fun hz => hz.1,fun hz => ⟨hz,he⟩⟩
  obtain ⟨herr,_⟩ | ⟨_,_,hp⟩ := h.sys.pollOpen h.opened
  · obtain herr | herr := herr
    · exact absurd herr h.sound
    · rw [h.init] at herr
      cases herr
  · rw [hp,pollRings_eq h.active]
    simp only [hfree,hstarve]

theorem Mp3Stream.poll_buffering (h : Mp3Stream c s f p) :
    (plPoll s).pl.state = .buffering ↔
      (s.pl.state = .buffering ∧ s.io.i.queued < maxInputBuffers) ∨ s.io.i.queued = 0 := by
  rw [h.poll]
  change (if _ then PlState.buffering else PlState.playing) = .buffering ↔ _
  split
  · rename_i hc
    exact iff_of_true rfl hc
  · rename_i hc
    exact iff_of_false PlState.noConfusion hc

theorem Mp3Stream.polled (h : Mp3Stream c s f p) : Mp3Stream c (plPoll s) f p := by
  rw [h.poll]
  refine h.setState ?_
  split <;> rfl

theorem plPoll_popped (s : Sys) : (plPoll s).ls.popped = s.ls.popped := by
  refine plPoll_keeps (P := fun t => t.ls.popped = s.ls.popped) (fun _ _ _ h => h)
    (fun t h => ?_) rfl
  unfold plStop
  split
  · exact h
  · exact h

/-- The decoder is given the front of the full ring, unless the counter has wrapped. -/
theorem Loaded.decodes (h : Loaded c s f p) (hst : s.pl.state = .playing) (its : List MadIter) :
    ((s.decoded its).io.i.queued+1 = s.io.i.queued ∧ p < 2^32) ∨
      ((s.decoded its).io.i.queued = s.io.i.queued ∧ p = 2^32) := by
  have hfull := h.playing hst
  have hm : maxInputBuffers = 4 := rfl
  have hready : libmadReady s.pl.state s.ls s.io = true := by
    rw [hst]
    exact libmadReady_playing h.init (by omega) h.fed.bounded h.empty
  rcases Nat.lt_or_ge p (2^32) with hp | hp
  · have ht := h.fed.front hp (by omega)
    have hring := (libmadLoop_took hready ht (by rw [h.empty]; exact Nat.zero_le _) its).1
    have hi : (s.decoded its).io.i = ⟨s.io.i.head,s.io.i.tail+1⟩ := take_i hring
    rw [hi]
    exact .inl ⟨queued_pop s.io.i ht,hp⟩
  · have hp' : p = 2^32 := Nat.le_antisymm h.limit hp
    have ht : ¬ s.io.i.tail < s.io.i.head := by
      rw [UInt32.lt_iff_toNat_lt,h.fed.head,hp']
      omega
    refine .inr ⟨?_,hp'⟩
    simp only [Sys.decoded,libmadLoop_wrapped hready ht]

theorem Loaded.finish (h : Loaded c s f p) (hls : (s.polledRest x).ls.state ≠ .error)
    (hss : (s.polledRest x).ss.state ≠ .error) :
    Streaming c (plPoll (s.polledRest x)) f p ∧
      ((plPoll (s.polledRest x)).io.i.queued+1 = s.io.i.queued ∨
        ((plPoll (s.polledRest x)).io.i.queued = s.io.i.queued ∧
          (s.pl.state = .buffering ∨ p = 2^32))) := by
  have hr := h.toMp3Stream.polls hls hss
  have hn := (h.sys.playing h.opened).2.2.1
  have hm : maxInputBuffers = 4 := rfl
  have hpl : (s.polledRest x).pl = s.pl := rfl
  have hiff := hr.poll_buffering
  have hqr : (s.polledRest x).io.i.queued = (s.decoded x.its).io.i.queued := by
    rw [polledRest_closed hn,sounded_i]
  have hqi : (plPoll (s.polledRest x)).io.i.queued = (s.polledRest x).io.i.queued := by
    rw [plPoll_io]
  rw [hpl] at hiff
  by_cases hst : s.pl.state = .playing
  · have hfull := h.playing hst
    have hdec := h.decodes hst x.its
    have hnot : (plPoll (s.polledRest x)).pl.state ≠ .buffering := by
      rw [Ne,hiff,hst]
      rintro (⟨hc,_⟩ | hz)
      · cases hc
      · omega
    exact ⟨⟨hr.polled,fun hc => absurd hc hnot,fun _ => by omega,fun _ => by omega⟩,by omega⟩
  · -- while buffering the decoder leaves the rings alone, and only `pl_poll` can end that
    have hbuf := active_cases h.active hst
    obtain ⟨hpop,hpq⟩ := h.buffering hbuf
    have hb := h.fed.bounded
    rw [decoded_buffering hbuf] at hqr
    simp only [hbuf,true_and] at hiff
    refine ⟨⟨hr.polled,fun hst' => ⟨?_,by omega,?_⟩,fun hst' => ?_,by omega⟩,
      .inr ⟨by omega,.inl hbuf⟩⟩
    · rw [plPoll_popped,polledRest_closed hn,decoded_buffering hbuf]
      exact hpop
    · have hc := hiff.mp hst'
      omega
    · have hc : ¬ _ := fun hc => PlState.noConfusion (hst'.symm.trans (hiff.mpr hc))
      omega

/-- Three buffers with data in front of the empty one: what is left after the
decoder's turn still holds data. -/
theorem decoded_leaves (h : Mp3Stream c s f p) (h3 : 3 ≤ s.io.i.queued) {s1 : Sys} {b : Input}
    (hring : s1.io.inRing = s.io.inRing.put b) (hq : s.io.i.queued < maxInputBuffers)
    (ho : s1.io.o.queued ≤ maxOutputBuffers+1) (its : List MadIter) :
    waiting (s1.decoded its).io.inRing ≠ [] := by
  have hcont := put_contents maxInputBuffers_dvd (by decide) s.io.inRing b hq
  have hlen : s.io.inRing.contents.length = s.io.i.queued := contents_length s.io.inRing
  cases hc : s.io.inRing.contents with
  | nil => simp [hc] at hlen; omega
  | cons e0 es =>
    cases es with
    | nil => simp [hc] at hlen; omega
    | cons e1 es =>
      have hfill := (h.filled e1 (by simp [hc])).1
      rw [hc,← hring] at hcont
      refine waiting_ne_nil (e := e1) ?_ hfill
      obtain ⟨he,_⟩ | ⟨ht,he,_⟩ := decoded_stream s1 its ho
      · rw [he,hcont]
        simp
      · rw [contents_eq_cons maxInputBuffers_dvd s1.io.inRing
          (used_pos_of_lt s1.io.inRing ht)] at hcont
        rw [he,(List.cons.inj hcont).2]
        simp

/-- The frame that meets the end of the file stops the player with buffers still
waiting. -/
theorem Streaming.ends (h : Streaming c s f p) (hq : s.io.i.queued < maxInputBuffers) {fs' : Fs}
    {b : Input} (heq : s.fsPolled none = { s with fs := fs', io := s.io.enqueue b })
    (hb : b.bytes = f.read none ioInputBufferSize) (hread : ReadOn s.fs fs' f ioInputBufferSize)
    (hu : f.unread = 0) (hx : x.fault = none) :
    (plPoll (afterPolls x s)).pl.state = .stop ∧ (plPoll (afterPolls x s)).ls.popped ≠ c := by
  obtain ⟨ha,hsrc,hn,_⟩ := h.sys.playing h.opened
  have hn1 : (s.fsPolled none).net.state = .closed := hn
  have hpolls : afterPolls x s = ((s.fsPolled none).decoded x.its).sounded x.writes := by
    rw [afterPolls,hx,polledRest_closed hn1]
  have hring : (s.fsPolled none).io.inRing = s.io.inRing.put b := by
    rw [heq]
    exact iPush_inRing s.io b (Nat.le_of_lt hq)
  have ho : (s.fsPolled none).io.o.queued ≤ maxOutputBuffers+1 := by
    have he : (s.fsPolled none).io.o = s.io.o := by rw [heq]; rfl
    rw [he,h.empty]
    exact Nat.zero_le _
  have hclosed : (s.fsPolled none).fs.state = .closed := by
    rw [heq]
    exact (hread.done hu).2
  constructor
  · have hstop : plPoll (afterPolls x s) = plStop (pollFilled (afterPolls x s)) := by
      refine plPoll_stops ?_ ?_ (.inr (.inr (.inr ?_))) <;> rw [hpolls]
      · exact ha
      · exact hsrc
      · exact hclosed
    have hact : (pollFilled (afterPolls x s)).pl.state.active = true := by
      refine pollFilled_active ?_
      rw [hpolls]
      exact ha
    rw [hstop,plStop_active hact]
  · -- popped and waiting bytes are the whole file, and some of them still wait
    have hnil : b.bytes = [] := by rw [hb]; exact (Found.read_nil (by decide)).mpr hu
    have hall : (s.fsPolled none).ls.popped ++ waiting (s.fsPolled none).io.inRing = c := by
      have hpop : (s.fsPolled none).ls = s.ls := rfl
      rw [hring,hpop,waiting_put s.io.inRing b hq,hnil,List.append_nil,h.stream,← h.content]
      exact List.take_of_length_le (by unfold Found.unread at hu; omega)
    rw [plPoll_popped,hpolls]
    change ((s.fsPolled none).decoded x.its).ls.popped ≠ c
    by_cases hst : s.pl.state = .playing
    · have hleft := decoded_leaves h.toMp3Stream (h.playing hst) hring hq ho x.its
      rw [← hall,← decoded_conserves _ x.its ho]
      intro he
      exact hleft (List.append_cancel_left (he.symm.trans (List.append_nil _).symm))
    · have hbuf : (s.fsPolled none).pl.state = .buffering := active_cases ha hst
      rw [decoded_buffering hbuf]
      change s.ls.popped ≠ c
      rw [(h.buffering hbuf).1]
      exact h.nonempty.symm

/-- One clean frame: the file is read on or the decoder is fed, until the frame
that meets the end. -/
theorem Streaming.frame (h : Streaming c s f p) (hc : Clean s x) :
    (∃ f' p', Streaming c (plPoll (afterPolls x s)) f' p' ∧
        ((p' = p+1 ∧ (plPoll (afterPolls x s)).io.i.queued ≤ s.io.i.queued+1) ∨
          (p' = p ∧ ((plPoll (afterPolls x s)).io.i.queued < s.io.i.queued ∨ p = 2^32)))) ∨
      ((plPoll (afterPolls x s)).pl.state = .stop ∧ (plPoll (afterPolls x s)).ls.popped ≠ c ∧
        c.length ≤ ioInputBufferSize*(2^32-1)) := by
  obtain ⟨hx,_,_,hls,hss⟩ := hc
  have hpolls : afterPolls x s = (s.fsPolled none).polledRest x := by
    rw [afterPolls,hx]
  obtain ⟨hfull,he,hl⟩ | ⟨hq,hp,fs',b,he,hb,hread,hl⟩ := h.load
  · rw [he] at hpolls
    rw [hpolls] at hls hss ⊢
    obtain ⟨hs,hmove⟩ := hl.finish hls hss
    refine .inl ⟨f,p,hs,.inr ⟨rfl,?_⟩⟩
    obtain hlt | ⟨_,hbuf | hw⟩ := hmove
    · exact .inl (by omega)
    · have := (h.buffering hbuf).2.2
      omega
    · exact .inr hw
  · rcases Nat.eq_zero_or_pos f.unread with hu | hu
    · obtain ⟨hstop,hpop⟩ := h.ends hq he hb hread hu hx
      refine .inr ⟨hstop,hpop,?_⟩
      have hpos := h.fed.pos
      rw [← h.content]
      simp only [Found.unread,ioInputBufferSize] at *
      omega
    · obtain ⟨hl,hq1⟩ := hl hu
      rw [hpolls] at hls hss ⊢
      obtain ⟨hs,hmove⟩ := hl.finish hls hss
      exact .inl ⟨_,p+1,hs,.inl ⟨rfl,by omega⟩⟩

end

def gulpIter : MadIter := ⟨.none,4,0,.none,libmadBufferSize,⟨44100,2,1152,[],[]⟩⟩

def gulp : Outside := ⟨none,quietNet,[gulpIter],[]⟩

/-- Nothing is carried over, and every input buffer taken so far has been decoded
and played. -/
structure Gulped (s : Sys) : Prop where
  remain : s.ls.remain = 0
  level : s.io.o = ⟨s.io.i.tail,s.io.i.tail⟩

theorem madFrames_gulp {ls : Ls} (io : Io) (hi : ls.state = .init)
    (hw : ls.remain ≤ libmadBufferSize) :
    (madFrames [gulpIter] ls io).1.state = .init ∧ (madFrames [gulpIter] ls io).1.remain = 0 ∧
      (madFrames [gulpIter] ls io).2.o = (ioPush io.o).2 := by
  have hd : decodeFrame gulpIter ls = (.fall,
      ((ls.advance 4).setThisFrame 0).advance libmadBufferSize) := rfl
  obtain ⟨hls,ho⟩ := libmadOutput_legal gulpIter.pcm (by decide)
    (((ls.advance 4).setThisFrame 0).advance libmadBufferSize) io
  simp only [madFrames,hi,hd,ne_eq,not_true_eq_false,if_false,hls,ho]
  refine ⟨hi,?_,trivial⟩
  simp only [Ls.remain,Ls.advance,Ls.setThisFrame] at *
  omega

theorem decoded_gulp {s : Sys} (hr : libmadReady s.pl.state s.ls s.io = true)
    (ht : s.io.i.tail < s.io.i.head) (hrem : s.ls.remain = 0) (ho : s.io.o.queued = 0)
    (hf : 0 < s.io.front.used ∧ s.io.front.used ≤ ioInputBufferSize) :
    (s.decoded [gulpIter]).ls.state = .init ∧ (s.decoded [gulpIter]).ls.remain = 0 ∧
      (s.decoded [gulpIter]).io.o = ⟨s.io.o.head+1,s.io.o.tail⟩ := by
  obtain ⟨hstr,hst,_⟩ := carryOver_rest s.ls
  have hrem' : (carryOver s.ls).remain = 0 := by rw [Ls.remain,hstr]; exact hrem
  have hin : libmadInput s.ls s.io = _ := libmadInput_some ht
  have hsize : ioInputBufferSize ≤ libmadBufferSize := by decide
  have hpush := ioPush_below s.io.o maxOutputBuffers_lt (by rw [ho]; exact Nat.zero_le _)
  obtain ⟨hbig,_⟩ | ⟨hz,_⟩ | ⟨_,hle,he⟩ := appendInput_cases (carryOver s.ls) s.io.front
  · omega
  · omega
  · have hloop := libmadLoop_cont hr (by rw [hin,he]) [gulpIter]
    rw [hin,he] at hloop
    simp only [Sys.decoded,hloop,← hpush]
    exact madFrames_gulp _ (hst.trans (libmadReady_init hr).1) hle

theorem Gulped.empty {s : Sys} (hg : Gulped s) : s.io.o.queued = 0 := by
  rw [hg.level,IoS.queued,UInt32.sub_self]
  rfl

/-- With nothing to play the sound driver changes neither the rings nor its state. -/
theorem Gulped.sounded {s t : Sys} (hg : Gulped s) (hss : s.ss.state ≠ .error) (hio : t.io = s.io)
    (hst : t.ss = s.ss) (hinit : t.ls.state = .init) (hrem : t.ls.remain = 0) :
    (t.sounded []).ls.state = .init ∧ (t.sounded []).ss.state ≠ .error ∧ Gulped (t.sounded []) := by
  have hzero : t.pl.state ≠ .playing ∨ t.io.o.queued = 0 := .inr (hio ▸ hg.empty)
  obtain ⟨hq,he⟩ := hostSndLoop_quiet hzero t.pl.volume [] t.ss
  refine ⟨hinit,fun hc => hss ?_,hrem,?_⟩
  · rw [← hst]
    exact he.mp hc
  · have hio' : (t.sounded []).io = s.io := hq.trans hio
    rw [hio']
    exact hg.level

theorem polledRest_gulp {s : Sys} (ha : s.pl.state.active = true) (hn : s.net.state = .closed)
    (hls : s.ls.state = .init) (hss : s.ss.state ≠ .error) (hg : Gulped s)
    (hf : s.pl.state = .playing → 0 < s.io.front.used ∧ s.io.front.used ≤ ioInputBufferSize) :
    (s.polledRest gulp).ls.state = .init ∧ (s.polledRest gulp).ss.state ≠ .error ∧
      Gulped (s.polledRest gulp) := by
  have ho := hg.empty
  have heq : s.polledRest gulp = (s.decoded [gulpIter]).sounded [] := polledRest_closed hn gulp
  rw [heq]
  cases hr : libmadReady s.pl.state s.ls s.io with
  | false =>
    refine hg.sounded hss ?_ ?_ ?_ ?_ <;> simp only [Sys.decoded,libmadLoop_idle hr]
    · exact hls
    · exact hg.remain
  | true =>
    by_cases ht : s.io.i.tail < s.io.i.head
    · have hst : s.pl.state = .playing := by
        by_contra hne
        exact (libmadReady_init hr).2.1 (active_cases ha hne)
      obtain ⟨hinit,hrem,hout⟩ := decoded_gulp hr ht hg.remain ho (hf hst)
      have hi : (s.decoded [gulpIter]).io.i = ⟨s.io.i.head,s.io.i.tail+1⟩ :=
        take_i (libmadLoop_took hr ht (by rw [ho]; exact Nat.zero_le _) [gulpIter]).1
      have hlt : s.io.i.tail < s.io.i.tail+1 := by
        have hh := s.io.i.head.toNat_lt
        rw [UInt32.lt_iff_toNat_lt] at *
        rw [toNat_succ]
        omega
      have hq1 : (s.decoded [gulpIter]).io.o.queued = 1 := by
        rw [hout,queued_push s.io.o (by omega),ho]
      rw [hg.level] at hout
      obtain ⟨hsok,hso⟩ := hostSndLoop_one hss (by rw [hout]; exact hlt) hq1 s.pl.volume
      rw [← hst] at hsok hso
      refine ⟨hinit,hsok,hrem,?_⟩
      rw [sounded_i,hi]
      refine hso.trans ?_
      rw [hout]
    · refine hg.sounded hss ?_ ?_ ?_ ?_ <;> simp only [Sys.decoded,libmadLoop_wrapped hr ht]
      · exact (carryOver_rest s.ls).2.1.trans hls
      · rw [Ls.remain,(carryOver_rest s.ls).1]
        exact hg.remain

theorem plPoll_stream (s : Sys) : (plPoll s).ls.stream = s.ls.stream := by
  refine plPoll_keeps (P := fun t => t.ls.stream = s.ls.stream) (fun _ _ _ h => h)
    (fun t h => ?_) rfl
  unfold plStop
  split
  · exact h
  · exact h

section
variable {c : List UInt8} {s : Sys} {f : Found} {p : Nat}

theorem Streaming.front (h : Streaming c s f p) (hst : s.pl.state = .playing) :
    0 < (s.fsPolled none).io.front.used ∧ (s.fsPolled none).io.front.used ≤ ioInputBufferSize := by
  have h3 := h.playing hst
  have hu : 0 < s.io.inRing.used := by
    change 0 < s.io.i.queued
    omega
  have hfront : 0 < (s.io.inRing.entry 0).2.used ∧
      (s.io.inRing.entry 0).2.used ≤ ioInputBufferSize := by
    refine h.filled _ ?_
    rw [contents_eq_cons maxInputBuffers_dvd s.io.inRing hu]
    exact List.mem_cons_self ..
  obtain ⟨_,he,_⟩ | ⟨hq,_,fs',b,he,_⟩ := h.load
  · rw [he]
    exact hfront
  · have hring : (s.fsPolled none).io.inRing = s.io.inRing.put b := by
      rw [he]
      exact iPush_inRing s.io b (Nat.le_of_lt hq)
    have hentry : (s.fsPolled none).io.front = (s.io.inRing.entry 0).2 := by
      rw [← put_entry_old maxInputBuffers_dvd s.io.inRing b 0 hu hq,← hring]
      rfl
    rw [hentry]
    exact hfront

theorem Streaming.gulp (h : Streaming c s f p) (hg : Gulped s) :
    Clean s gulp ∧ Gulped (plPoll (afterPolls gulp s)) := by
  obtain ⟨ha,_,hn,_⟩ := h.sys.playing h.opened
  have hpolls : afterPolls Mardio.gulp s = (s.fsPolled none).polledRest Mardio.gulp := rfl
  have hlevel : (s.fsPolled none).io.o =
      ⟨(s.fsPolled none).io.i.tail,(s.fsPolled none).io.i.tail⟩ := by
    obtain ⟨_,he,_⟩ | ⟨hq,_,fs',b,he,_⟩ := h.load
    · rw [he]
      exact hg.level
    · rw [he]
      change s.io.o = ⟨(s.io.enqueue b).i.tail,(s.io.enqueue b).i.tail⟩
      rw [enqueue_i b (Nat.le_of_lt hq)]
      exact hg.level
  obtain ⟨hls,hss,hg'⟩ := polledRest_gulp (s := s.fsPolled none) ha hn h.init h.sound
    ⟨hg.remain,hlevel⟩ h.front
  rw [← hpolls] at hls hss hg'
  refine ⟨⟨rfl,?_,?_,?_,hss⟩,?_,?_⟩
  · intro it hit
    rw [List.mem_singleton.mp hit]
    exact ⟨rfl,rfl⟩
  · exact fun o ho => absurd ho List.not_mem_nil
  · rw [hls]
    exact LibmadState.noConfusion
  · rw [Ls.remain,plPoll_stream]
    exact hg'.remain
  · rw [plPoll_io]
    exact hg'.level

/-- A file that is short enough to be read is played to its end, and cut. The
frames left are bounded by the pushes left before the counter wraps. -/
theorem Streaming.truncates (order : Order) (h : Streaming c s f p) (hg : Gulped s)
    (hshort : c.length ≤ ioInputBufferSize*(2^32-1)) :
    ∃ xs, Guarded (quietStep order) Clean s xs ∧ ¬ Always (quietStep order) (Complete c) s xs := by
  -- a frame pushes a buffer or takes one, and a push takes two off the first summand
  induction hm : 2*(2^32-p)+s.io.i.queued using Nat.strongRecOn generalizing s f p with
  | ind n ih =>
    obtain ⟨hc,hg'⟩ := h.gulp hg
    have hstep : quietStep order s Mardio.gulp = some (plPoll (afterPolls Mardio.gulp s)) :=
      frame_quiet ..
    obtain ⟨f',p',hs,hmove⟩ | ⟨hstop,hpop,_⟩ := h.frame hc
    · have hp : p ≠ 2^32 := by
        rintro rfl
        have hd := h.data (by decide)
        omega
      have hlim := hs.limit
      obtain ⟨xs,hgu,hna⟩ :=
        ih (2*(2^32-p')+(plPoll (afterPolls Mardio.gulp s)).io.i.queued) (by omega)
        hs hg' rfl
      refine ⟨Mardio.gulp :: xs,⟨hc,fun t ht => ?_⟩,fun ha => hna (ha.2 _ hstep)⟩
      cases hstep.symm.trans ht
      exact hgu
    · exact ⟨[Mardio.gulp],⟨hc,fun _ _ => trivial⟩,fun ha => hpop (ha.2 _ hstep hstop)⟩

theorem Streaming.untruncated_iff (order : Order) (h : Streaming c s f p) (hg : Gulped s) :
    Untruncated order c s ↔ ioInputBufferSize*(2^32-1) < c.length := by
  constructor
  · intro hall
    by_contra hn
    obtain ⟨xs,hgu,hna⟩ := h.truncates order hg (by omega)
    exact hna (hall xs hgu)
  · intro hlong xs hgu
    refine always_of_guarded (I := fun t => ∃ f p, Streaming c t f p) ?_ ?_ xs s ⟨f,p,h⟩ hgu
    · rintro t ⟨f,p,ht⟩ hst
      have ha := ht.active
      rw [hst] at ha
      cases ha
    · rintro t x u ⟨f,p,ht⟩ hc hs
      cases (frame_quiet order x t).symm.trans hs
      obtain ⟨f',p',hu,_⟩ | ⟨_,_,hshort⟩ := ht.frame hc
      · exact ⟨f',p',hu⟩
      · omega

end

theorem outcome_mp3_nonempty {fs : Fs} {w : World} {name : Str} {f : Found}
    (h : fs.outcome w name = some (.mp3 f)) : f.content ≠ [] := by
  unfold Fs.outcome at h
  split at h
  · cases h
  · rename_i g _
    split at h
    · rename_i hty
      cases h
      intro hnil
      have hread : g.read w.typeFault 64 = [] := by
        have hg : g.content = [] := hnil
        simp [Found.read,hg]
      rw [hread] at hty
      cases hty
    · split at h <;> cases h
    · cases h

theorem plPlay_streaming {s t : Sys} {w : World} {o : NetOpen} {what : Str} {f : Found}
    (h : SysInv (fun _ => True) s) (hsound : s.ss.state ≠ .error) (hu : isHttp what = false)
    (hout : (plReset s).fs.outcome w what = some (.mp3 f)) (hp : plPlay w o what s = some t) :
    Streaming f.content t f 0 ∧ Gulped t := by
  obtain ⟨out,hout',hst⟩ := plPlay_started h hu hp
  cases hout.symm.trans hout'
  obtain ⟨hpos,hty,hv,hh,hbuf⟩ := hst.mp3 f rfl
  obtain ⟨hi,ho⟩ := ioInit_queued s.io
  have hfed := Mp3Fed.start hpos s.io
  rw [← hst.io] at hi ho hfed
  have hcont : t.io.inRing.contents = [] :=
    List.eq_nil_of_length_eq_zero ((contents_length _).trans hi)
  have hsys : SysInv (fun _ => True) t := h.play hp fun _ _ _ _ => trivial
  refine ⟨⟨⟨⟨⟨hty,hv,hfed⟩,by rw [hst.ls]; rfl,ho⟩,hsys,hh,by rw [hst.ss]; exact hsound,rfl,
    outcome_mp3_nonempty hout,fun h0 => absurd h0 (Nat.lt_irrefl 0),Nat.zero_le _,?_,?_⟩,?_,?_,?_⟩,
      ?_,?_⟩
  · rw [hst.ls,waiting,hcont,hpos]
    rfl
  · rw [hcont]
    exact fun e he => absurd he List.not_mem_nil
  · intro _
    rw [hst.ls,hi]
    exact ⟨rfl,rfl,by decide⟩
  · rw [hbuf]
    exact PlState.noConfusion
  · intro h0
    cases h0
  · rw [hst.ls]
    rfl
  · rw [hst.io]
    rfl

/-- Playing an MP3 file to its end presents all of it to the decoder exactly for
files so long that their end is never reached. -/
theorem plPlay_untruncated_iff (order : Order) {entries : List ResEntry} {snd : Bool} {s t : Sys}
    {w : World} {o : NetOpen} {what : Str} {f : Found}
    (hr : Reach sysStep (fun _ _ => True) (sysInit entries snd) s) (hsound : s.ss.state ≠ .error)
    (hu : isHttp what = false) (hout : (plReset s).fs.outcome w what = some (.mp3 f))
    (hp : plPlay w o what s = some t) :
    Untruncated order f.content t ↔ ioInputBufferSize*(2^32-1) < f.content.length := by
  have hi : SysInv (fun _ => True) s :=
    hr.invariant (sysInit_inv entries snd trivial) fun _ _ _ h _ hs =>
      h.step hs fun _ _ _ _ _ _ _ _ => trivial
  obtain ⟨hs,hg⟩ := plPlay_streaming hi hsound hu hout hp
  exact hs.untruncated_iff order hg

theorem plPlay_untruncated_tagged :
    ∃ t, plPlay (hostWith (some taggedFile)) noNet [0x61] (sysInit [] true) = some t ∧
      (Untruncated .linux taggedFile t ↔ ioInputBufferSize*(2^32-1) < taggedFile.length) := by
  have hplay : ∃ t, plPlay (hostWith (some taggedFile)) noNet [0x61] (sysInit [] true) = some t :=
    ⟨_,rfl⟩
  obtain ⟨t,ht⟩ := hplay
  exact ⟨t,ht,plPlay_untruncated_iff .linux (s := sysInit [] true)
    (f := ⟨.host,taggedFile,0⟩) .start
    (by decide) (show isHttp [0x61] = false by decide) rfl ht⟩

/-- A file of one buffer: the second frame meets its end and stops the player, and
the decoder was given nothing. -/
theorem plPlay_cut_short :
    ∃ t, plPlay (hostWith (some taggedFile)) noNet [0x61] (sysInit [] true) = some t ∧
      Guarded (quietStep .linux) Clean t [quiet,quiet] ∧
      ¬ Always (quietStep .linux) (Complete taggedFile) t [quiet,quiet] :=
  ⟨_,rfl,by decide,by decide⟩

end Mardio
