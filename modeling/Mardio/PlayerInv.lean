import Mardio.Player

/-!
What the calls of the player keep: at most one source is open, none while it is
stopped, and the handle table holds the played file and what was left open by
earlier plays.
-/

set_option autoImplicit false

namespace Mardio
open Runs

def Fs.sources (fs : Fs) (n : Nat) : FsSource := (fs.handles n).source

/-- No file is played, or one is open for it on an entry taken from a table with
`Q`. -/
def FileInv (Q : (Nat → FsSource) → Prop) (fs : Fs) : Prop :=
  (fs.handle = -1 ∧ fs.state = .closed ∧ Q fs.sources) ∨
    (fs.state = .opened ∧ ∃ base e f, Opened base fs.handle e fs ∧ Q base.sources ∧
      fs.view fs.handle = some f ∧ (f.source = .resource → f.pos ≤ f.content.length))

structure SysInv (Q : (Nat → FsSource) → Prop) (s : Sys) : Prop where
  known : s.pl.state ≠ .unknown
  file : FileInv Q s.fs
  idle : s.pl.state = .stop → s.fs.handle = -1 ∧ s.net.state = .closed
  exclusive : s.fs.handle ≠ -1 → s.pl.sourceType = .file ∧ s.net.state = .closed
  typed : s.fs.type ≠ .none

variable {Q : (Nat → FsSource) → Prop}

theorem FileInv.stop {fs : Fs} (h : FileInv Q fs) :
    (fsStop fs).handle = -1 ∧ (fsStop fs).state = .closed ∧ Q (fsStop fs).sources ∧
      (fsStop fs).type = fs.type := by
  obtain ⟨hh,hst,hq⟩ | ⟨hst,base,e,f,ho,hq,hv,hp⟩ := h
  · rw [fsStop_idle hh]
    exact ⟨hh,hst,hq,rfl⟩
  · obtain ⟨hs,hsrc,_,_⟩ := fsClose_opened ho
    rw [fsStop,if_pos ho.inTable.ne_neg]
    refine ⟨rfl,rfl,?_,hs.type⟩
    have he : (fsClose fs.handle fs).sources = base.sources := funext hsrc
    exact he ▸ hq

theorem FileInv.stopped {fs : Fs} (h : FileInv Q fs) : FileInv Q (fsStop fs) :=
  .inl ⟨h.stop.1,h.stop.2.1,h.stop.2.2.1⟩

theorem FileInv.viewed {fs : Fs} (h : FileInv Q fs) (hh : fs.handle ≠ -1) :
    ∃ f, fs.view fs.handle = some f := by
  obtain ⟨hc,_⟩ | ⟨_,_,_,f,_,_,hv,_⟩ := h
  · exact absurd hc hh
  · exact ⟨f,hv⟩

theorem FileInv.read {fs : Fs} (h : FileInv Q fs) (hh : fs.handle ≠ -1) {f : Found}
    (hv : fs.view fs.handle = some f) (fault : Option Nat) {size : Nat} (hs : 0 < size) :
    ∃ fs', fsRead fault fs.handle size fs = (some (f.read fault size),fs') ∧ FileInv Q fs' ∧
      SameFile fs fs' ∧
      fs'.view fs'.handle = some { f with pos := f.pos+(f.read fault size).length } := by
  obtain ⟨hc,_⟩ | ⟨hst,base,e,g,ho,hq,hg,hp⟩ := h
  · exact absurd hc hh
  · cases hg.symm.trans hv
    obtain ⟨t,hr,ho',hsame,_,hview⟩ := fsRead_opened ho hv fault hs
    rw [← hsame.handle] at ho' hview
    refine ⟨t,hr,.inr ⟨hsame.state.trans hst,base,e,
      { f with pos := f.pos+(f.read fault size).length },ho',hq,hview hp,?_⟩,hsame,hview hp⟩
    intro hres
    have hb := hp hres
    simp only [Found.read,List.length_take,List.length_drop]
    omega

theorem fsPollRiff_file (fault : Option Nat) (fs : Fs) (io : Io) :
    (fsPollRiff fault fs io).1 = fs ∨ ∃ size, 0 < size ∧
      ((fsPollRiff fault fs io).1 = (fsRead fault fs.handle size fs).2 ∨
        (fsPollRiff fault fs io).1 = fsStop (fsRead fault fs.handle size fs).2) := by
  unfold fsPollRiff
  split
  · exact .inl rfl
  · refine .inr ⟨ioOutputBufferSize,by decide,?_⟩
    have hsize : ((oPush io).2.output (oPush io).1).size = ioOutputBufferSize := by
      simp [oPush,pushSlot,ioOutputResetBuffer]
    simp only [hsize]
    split <;> rename_i heq <;> simp [heq]

theorem fsPollMp3_file (fault : Option Nat) (fs : Fs) (io : Io) :
    (fsPollMp3 fault fs io).1 = fs ∨ ∃ size, 0 < size ∧
      ((fsPollMp3 fault fs io).1 = (fsRead fault fs.handle size fs).2 ∨
        (fsPollMp3 fault fs io).1 = fsStop (fsRead fault fs.handle size fs).2) := by
  unfold fsPollMp3
  split
  · exact .inl rfl
  · refine .inr ⟨ioInputBufferSize,by decide,?_⟩
    have hsize : ((iPush io).2.input (iPush io).1).size = ioInputBufferSize := by
      simp [iPush,pushSlot,ioInputResetBuffer]
    simp only [hsize]
    split <;> rename_i heq <;> simp [heq]

theorem fsPoll_file (fault : Option Nat) (fs : Fs) (io : Io) :
    (fsPoll fault fs io).1 = fs ∨ (fs.handle ≠ -1 ∧ ∃ size, 0 < size ∧
      ((fsPoll fault fs io).1 = (fsRead fault fs.handle size fs).2 ∨
        (fsPoll fault fs io).1 = fsStop (fsRead fault fs.handle size fs).2)) := by
  unfold fsPoll
  split
  · exact .inl rfl
  · rename_i hh
    split
    · exact (fsPollRiff_file fault fs io).imp_right fun h => ⟨hh,h⟩
    · exact (fsPollMp3_file fault fs io).imp_right fun h => ⟨hh,h⟩
    · exact .inl rfl

theorem FileInv.poll {fs : Fs} (h : FileInv Q fs) (fault : Option Nat) (io : Io) :
    FileInv Q (fsPoll fault fs io).1 ∧ (fsPoll fault fs io).1.type = fs.type ∧
      (fs.handle = -1 → (fsPoll fault fs io).1.handle = -1) := by
  obtain he | ⟨hh,size,hs,he⟩ := fsPoll_file fault fs io
  · rw [he]
    exact ⟨h,rfl,fun hm => hm⟩
  · obtain ⟨f,hv⟩ := h.viewed hh
    obtain ⟨t,hr,ht,hsame,_⟩ := h.read hh hv fault hs
    rw [hr] at he
    obtain he | he := he
    · rw [he]
      exact ⟨ht,hsame.type,fun hm => absurd hm hh⟩
    · rw [he]
      exact ⟨ht.stopped,ht.stop.2.2.2.trans hsame.type,fun _ => ht.stop.1⟩

theorem SysInv.stop {s : Sys} (h : SysInv Q s) :
    SysInv Q (plStop s) ∧ (plStop s).pl.state = .stop := by
  unfold plStop
  split
  · obtain ⟨hh,hst,hq,hty⟩ := h.file.stop
    refine ⟨⟨PlState.noConfusion,h.file.stopped,fun _ => ⟨hh,rfl⟩,fun hne => absurd hh hne,?_⟩,rfl⟩
    exact fun hn => h.typed (hty.symm.trans hn)
  · rename_i ha
    refine ⟨h,?_⟩
    have hk := h.known
    cases hp : s.pl.state with
    | unknown => exact absurd hp hk
    | stop => rfl
    | playing => simp [hp,PlState.active] at ha
    | buffering => simp [hp,PlState.active] at ha

theorem SysInv.setState {s : Sys} (h : SysInv Q s) {st : PlState} (hst : st.active = true) :
    SysInv Q (setPlState s st) := by
  refine ⟨?_,h.file,?_,h.exclusive,h.typed⟩
  · rintro rfl
    cases hst
  · rintro rfl
    cases hst

theorem plPoll_keeps {P : Sys → Prop} (hset : ∀ s st, st.active = true → P s → P (setPlState s st))
    (hstop : ∀ s, P s → P (plStop s)) {s : Sys} (h : P s) : P (plPoll s) := by
  have hite : ∀ {t u : Sys} (c : Prop) [Decidable c], P t → P u → P (if c then t else u) := by
    intro t u c _ ht hu
    split
    · exact ht
    · exact hu
  have hfilled : ∀ t, P t → P (pollFilled t) := fun t ht => hite _ (hset t _ rfl ht) ht
  have herr : ∀ n f m t, P t → P (pollErrors n f m t) := fun n f m t ht => hite _ (hstop t ht) ht
  have hclosed : ∀ f n t, P t → P (pollClosed f n t) := fun f n t ht =>
    have h1 := hite (t.pl.state.active ∧ t.pl.sourceType = .file ∧ f = .closed) (hstop t ht) ht
    hite _ (hstop _ h1) h1
  have hstarved : ∀ t, P t → P (pollStarved t) := fun t ht => hite _ (hset t _ rfl ht) ht
  exact hite _ (hstarved _ (hclosed _ _ _ (herr _ _ _ _ (hfilled s h)))) h

theorem SysInv.poll {s : Sys} (h : SysInv Q s) : SysInv Q (plPoll s) :=
  plPoll_keeps (fun _ _ hst h => h.setState hst) (fun _ h => h.stop.1) h

theorem hostNetPoll_state (o : NetPoll) (ns : Net) (io : Io) (h : ns.state ≠ .opened) :
    hostNetPoll o ns io = (ns,io) := by
  rw [hostNetPoll,if_pos h]

theorem SysInv.reset {s : Sys} (h : SysInv Q s) :
    SysInv Q (plReset s) ∧ (plReset s).pl.state = .stop ∧ (plReset s).fs.handle = -1 ∧
      (plReset s).fs.state = .closed ∧ (plReset s).net.state = .closed ∧
        Q (plReset s).fs.sources := by
  obtain ⟨hi,hst⟩ := h.stop
  obtain ⟨hh,hn⟩ := hi.idle hst
  obtain ⟨_,hc,hq⟩ | ⟨_,_,_,_,ho,_⟩ := hi.file
  · exact ⟨⟨hi.known,hi.file,hi.idle,hi.exclusive,hi.typed⟩,hst,hh,hc,hn,hq⟩
  · exact absurd hh ho.inTable.ne_neg

def Outcome.plays : Outcome → Bool
  | .mp3 _ | .riff _ _ => true
  | .refused | .leaked => false

theorem Playing.file {fs fs' : Fs} {f : Found} (hp : Playing fs fs' f) (hq : Q fs.sources)
    (hb : f.source = .resource → f.pos ≤ f.content.length) : FileInv Q fs' ∧ fs'.handle ≠ -1 := by
  obtain ⟨⟨base,e,ho,hsrc⟩,hst,hv⟩ := hp
  have he : base.sources = fs.sources := funext hsrc
  exact ⟨.inr ⟨hst,base,e,f,ho,he ▸ hq,hv,hb⟩,ho.inTable.ne_neg⟩

theorem PlayEffect.file {fs fs' : Fs} {o : Outcome} (he : PlayEffect fs fs' o) (hh : fs.handle = -1)
    (hst : fs.state = .closed) (hq : Q fs.sources) (hleak : o = .leaked → Q fs'.sources) :
    FileInv Q fs' ∧ (o.plays = false → fs'.handle = -1 ∧ fs'.type = fs.type) ∧
      (o.plays = true → fs'.handle ≠ -1 ∧ (fs'.type = .mp3 ∨ fs'.type = .riff)) := by
  cases o with
  | refused =>
    obtain ⟨hs,hsrc⟩ := he
    have hsources : fs'.sources = fs.sources := funext hsrc
    exact ⟨.inl ⟨hs.handle.trans hh,hs.state.trans hst,hsources ▸ hq⟩,
      fun _ => ⟨hs.handle.trans hh,hs.type⟩,fun h => by cases h⟩
  | leaked =>
    obtain ⟨hs,_⟩ := he
    exact ⟨.inl ⟨hs.handle.trans hh,hs.state.trans hst,hleak rfl⟩,
      fun _ => ⟨hs.handle.trans hh,hs.type⟩,fun h => by cases h⟩
  | mp3 f =>
    obtain ⟨hpos,hty,hp⟩ := he
    obtain ⟨hf,hne⟩ := hp.file hq (fun _ => by omega)
    exact ⟨hf,fun h => (by cases h),fun _ => ⟨hne,.inl hty⟩⟩
  | riff f info =>
    obtain ⟨hty,_,_,hp⟩ := he
    have hb : (f.seek info.dataoff).source = .resource →
        (f.seek info.dataoff).pos ≤ (f.seek info.dataoff).content.length := by
      intro hs
      have hs' : f.source = .resource := hs
      simp only [Found.seek,hs',reduceCtorEq,if_false]
      omega
    obtain ⟨hf,hne⟩ := hp.file hq hb
    exact ⟨hf,fun h => (by cases h),fun _ => ⟨hne,.inr hty⟩⟩

theorem plSwitch_unknown {s : Sys} (h : s.fs.type = .unknown) (hst : s.pl.state = .stop) :
    plSwitch s = s := by
  simp [plSwitch,h,plStop,hst,PlState.active]

theorem plSwitch_riff {s : Sys} (h : s.fs.type = .riff) : plSwitch s = setPlState s .playing := by
  simp [plSwitch,h]

theorem plSwitch_mp3 {s : Sys} (h : s.fs.type = .mp3) : plSwitch s = setPlState s .buffering := by
  simp [plSwitch,h]

theorem plPlay_file {s t : Sys} {w : World} {o : NetOpen} {what : Str} (h : SysInv Q s)
    (hu : isHttp what = false) (hp : plPlay w o what s = some t) :
    ∃ out fs, (plReset s).fs.outcome w what = some out ∧ PlayEffect (plReset s).fs fs out ∧
      t = plSwitch (withFile (plReset s) fs) := by
  obtain ⟨_,_,hh,_⟩ := h.reset
  rw [plPlay_name hu] at hp
  obtain ⟨fs,hf,rfl⟩ := Option.map_eq_some_iff.mp hp
  obtain ⟨out,ho,he⟩ := fsPlay_outcome hh hf
  exact ⟨out,fs,ho,he,rfl⟩

theorem SysInv.play {s t : Sys} {w : World} {o : NetOpen} {what : Str} (h : SysInv Q s)
    (hp : plPlay w o what s = some t)
    (hleak : isHttp what = false → (plReset s).fs.outcome w what = some .leaked →
      ∀ fs, PlayEffect (plReset s).fs fs .leaked → Q fs.sources) : SysInv Q t := by
  obtain ⟨hr,hst,hh,hcl,hn,hq⟩ := h.reset
  cases hu : isHttp what with
  | true =>
    rw [plPlay_url hu hp]
    exact ⟨PlState.noConfusion,hr.file,PlState.noConfusion,fun hne => absurd hh hne,hr.typed⟩
  | false =>
    obtain ⟨out,fs,ho,he,rfl⟩ := plPlay_file h hu hp
    have hl : out = .leaked → Q fs.sources := by
      rintro rfl
      exact hleak hu ho fs he
    obtain ⟨hf,hno,hyes⟩ := he.file hh hcl hq hl
    have hmid : fs.type ≠ .none := by
      cases hpl : out.plays with
      | false =>
        rw [(hno hpl).2]
        exact hr.typed
      | true =>
        obtain ⟨_,hty | hty⟩ := hyes hpl <;> rw [hty] <;> exact FsType.noConfusion
    cases hty : fs.type with
    | none => exact absurd hty hmid
    | unknown =>
      have hpl : out.plays = false := by
        cases hpl : out.plays with
        | false => rfl
        | true => obtain ⟨_,h2 | h2⟩ := hyes hpl <;> rw [hty] at h2 <;> cases h2
      have hidle := (hno hpl).1
      rw [plSwitch_unknown (show (withFile (plReset s) fs).fs.type = .unknown from hty) hst]
      exact ⟨hr.known,hf,fun _ => ⟨hidle,hn⟩,fun hne => absurd hidle hne,hmid⟩
    | riff =>
      rw [plSwitch_riff (show (withFile (plReset s) fs).fs.type = .riff from hty)]
      exact ⟨PlState.noConfusion,hf,PlState.noConfusion,fun _ => ⟨rfl,hn⟩,hmid⟩
    | mp3 =>
      rw [plSwitch_mp3 (show (withFile (plReset s) fs).fs.type = .mp3 from hty)]
      exact ⟨PlState.noConfusion,hf,PlState.noConfusion,fun _ => ⟨rfl,hn⟩,hmid⟩

/-- The invariant along one call, given what a rejected RIFF file does to the
table. -/
theorem SysInv.step {s t : Sys} {op : SysOp} (h : SysInv Q s) (hs : sysStep s op = some t)
    (hleak : ∀ w o what, op = .play w o what → isHttp what = false →
      (plReset s).fs.outcome w what = some .leaked →
      ∀ fs, PlayEffect (plReset s).fs fs .leaked → Q fs.sources) : SysInv Q t := by
  cases op with
  | play w o what => exact h.play hs (hleak w o what rfl)
  | stop =>
    cases hs
    exact h.stop.1
  | volume v =>
    cases hs
    exact ⟨h.known,h.file,h.idle,h.exclusive,h.typed⟩
  | poll =>
    cases hs
    exact h.poll
  | fsPoll fault =>
    cases hs
    obtain ⟨hf,hty,hh⟩ := h.file.poll fault s.io
    exact ⟨h.known,hf,fun hst => ⟨hh (h.idle hst).1,(h.idle hst).2⟩,
      fun hne => h.exclusive fun hc => hne (hh hc),fun hn => h.typed (hty.symm.trans hn)⟩
  | netPoll o =>
    cases hs
    have hkeep : s.net.state = .closed → (hostNetPoll o s.net s.io).1.state = .closed := by
      intro hc
      rw [hostNetPoll_state o s.net s.io (by rw [hc]; exact NetState.noConfusion)]
      exact hc
    exact ⟨h.known,h.file,fun hst => ⟨(h.idle hst).1,hkeep (h.idle hst).2⟩,
      fun hne => ⟨(h.exclusive hne).1,hkeep (h.exclusive hne).2⟩,h.typed⟩
  | madLoop its =>
    cases hs
    exact ⟨h.known,h.file,h.idle,h.exclusive,h.typed⟩
  | sndLoop os =>
    cases hs
    exact ⟨h.known,h.file,h.idle,h.exclusive,h.typed⟩

theorem sysInit_inv (entries : List ResEntry) (snd : Bool) (hq : Q fun _ => .closed) :
    SysInv Q (sysInit entries snd) :=
  ⟨PlState.noConfusion,.inl ⟨rfl,rfl,hq⟩,fun _ => ⟨rfl,rfl⟩,fun h => absurd rfl h,
    FsType.noConfusion⟩

/-- Nothing is open while the player is stopped, and a file and a connection are
never open together. -/
def Exclusive (s : Sys) : Prop :=
  (s.pl.state = .stop → s.fs.handle = -1 ∧ s.fs.state ≠ .opened ∧ s.net.state ≠ .opened) ∧
    ¬ (s.fs.handle ≠ -1 ∧ s.net.state = .opened)

theorem SysInv.isExclusive {s : Sys} (h : SysInv Q s) : Exclusive s := by
  refine ⟨fun hst => ?_,fun ⟨hne,ho⟩ => ?_⟩
  · obtain ⟨hh,hn⟩ := h.idle hst
    obtain ⟨_,hc,_⟩ | ⟨_,_,_,_,ho,_⟩ := h.file
    · exact ⟨hh,by rw [hc]; exact FsState.noConfusion,by rw [hn]; exact NetState.noConfusion⟩
    · exact absurd hh ho.inTable.ne_neg
  · rw [(h.exclusive hne).2] at ho
    cases ho

/-- The sources exclude each other in every state any sequence of calls reaches. -/
theorem sysRun_exclusive (entries : List ResEntry) (snd : Bool) (ops : List SysOp) :
    Always sysStep Exclusive (sysInit entries snd) ops :=
  always_of_invariant (I := SysInv fun _ => True) (fun _ h => h.isExclusive)
    (fun _ _ _ h hs => h.step hs fun _ _ _ _ _ _ _ _ => trivial) ops _
    (sysInit_inv entries snd trivial)

end Mardio
