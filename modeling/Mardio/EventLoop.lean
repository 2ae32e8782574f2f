import Mardio.RiffTermination
import Mardio.Shell
import Mardio.Words

/-!
The whole of `event_loop`, with the player behind it. A line that was typed can queue
one more event while the loop takes events out; after it the line is blank, so that
this happens once at most.
-/

set_option autoImplicit false

namespace Mardio
open ByteMem CounterRing Runs

/-- What a turn of the loop meets: the memory behind the line, the time, what a play
finds, and the addresses, counted from `buff` of `fs_open_riff`, that can be read. A
build with CONFIG_FS_DEBUG prints what it finds at them. -/
structure Surroundings where
  behind : Str
  now : UInt32
  world : World
  net : NetOpen
  debug : Bool
  readable : Nat → Bool
  wide : 32 ≤ world.width

structure Desk where
  shell : Shell
  sys : Sys

def radios : List Str :=
  [ascii "http://live.slovakradio.sk:8000/Slovensko_128.mp3".toList,
   ascii "http://live.slovakradio.sk:8000/Devin_128.mp3".toList,
   ascii "http://live.slovakradio.sk:8000/Litera_128.mp3".toList,
   ascii "http://live.slovakradio.sk:8000/Junior_128.mp3".toList,
   ascii "http://stream-uk1.radioparadise.com:80/mp3-128".toList,
   ascii "http://stream.funradio.sk:8000/fun128.mp3".toList,
   ascii "http://live.slovakradio.sk:8000/Slovensko_256.mp3".toList,
   ascii "http://live.slovakradio.sk:8000/Litera_256.mp3".toList,
   ascii "http://live.slovakradio.sk:8000/Devin_256.mp3".toList,
   ascii "http://live.slovakradio.sk:8000/Junior_256.mp3".toList,
   ascii "http://stream-uk1.radioparadise.com:80/mp3-192".toList,
   ascii "http://stream.funradio.sk:8000/fun256.mp3".toList,
   ascii "http://62.168.92.250:8000/Slovensko_128.mp3".toList,
   ascii "http://62.168.92.250:8000/Slovensko_256.mp3".toList,
   ascii "http://live.slovakradio.sk:8000/Devin_128.ogg".toList,
   ascii "http://stream.funradio.sk:8000/fun128.ogg".toList]

/-- The string that the pointer of an event designates. -/
def eventName (e : Event) (c : Cmd) : Option Str :=
  match e.ptr with
  | .null => none
  | .tokenBuffer p => if p < cmdInputBufferSize+maxTokens then some (c.str p) else none
  | .radios choice => radios[choice]?

/-- The volume is one variable of the program. -/
def Desk.withShell (d : Desk) (s : Shell) : Desk :=
  ⟨s,{ d.sys with pl := { d.sys.pl with volume := s.volume } }⟩

theorem Found.read_length_le (f : Found) (fault : Option Nat) (size : Nat) :
    (f.read fault size).length ≤ size := by
  obtain ⟨n,hn,hread⟩ : ∃ n ≤ size, f.read fault size = (f.content.drop f.pos).take n :=
    ⟨_,by split <;> omega,rfl⟩
  rw [hread,List.length_take]
  omega

/-- `buff` of `fs_open_riff`, once the file is read into it. -/
def Surroundings.buff (o : Surroundings) (f : Found) : RiffBuff :=
  ⟨f.rewound.read o.world.riffFault 128,o.world.stack,o.world.width,f.rewound.read_length_le _ _,
    o.wide⟩

def TurnReadable (o : Surroundings) (b : RiffBuff) (s : RiffCursor) (_ : Unit) : Prop :=
  s.last = none → ∀ a ∈ turnReads o.debug b s.ptr s.fmt, o.readable a = true

instance (o : Surroundings) (b : RiffBuff) (s : RiffCursor) (u : Unit) :
    Decidable (TurnReadable o b s u) :=
  inferInstanceAs (Decidable (_ → _))

/-- The walk looks at memory that can be read, as far as it is followed. -/
def WalkReadable (o : Surroundings) (b : RiffBuff) (s : RiffCursor) (turns : Nat) : Prop :=
  Guarded (riffTurn o.debug b) (TurnReadable o b) s (List.replicate turns ())

instance (o : Surroundings) (b : RiffBuff) (s : RiffCursor) (turns : Nat) :
    Decidable (WalkReadable o b s turns) :=
  inferInstanceAs (Decidable (Guarded _ _ _ _))

/-- A property of the RIFF file of that name, if there is one. -/
def EachRiff (w : World) (name : Str) (fs : Fs) (P : Found → Prop) : Prop :=
  ∀ f ∈ fs.lookup w.files name, typeOfHeader (f.read w.typeFault 64) = .riff → P f

instance (w : World) (name : Str) (fs : Fs) (P : Found → Prop) [DecidablePred P] :
    Decidable (EachRiff w name fs P) :=
  inferInstanceAs (Decidable (∀ f ∈ fs.lookup w.files name, _ → P f))

/-- `pl_play` in an address space with gaps: the program ends where it reads in one. -/
def deskPlay (walk : Nat) (o : Surroundings) (name : Str) (s : Sys) : Option Sys :=
  if isHttp name = true ∨
      EachRiff o.world name (plReset s).fs (fun f => WalkReadable o (o.buff f) riffStart walk) then
    plPlay (o.world.follow walk) o.net name s
  else none

/-- The switch in `event_loop`. The walk over the chunks of a file is followed for `walk`
turns. -/
def deskHandle (h : Host) (walk : Nat) (o : Surroundings) (e : Event) (d : Desk) : Option Desk :=
  match e.type with
  | .plPlay => (eventName e d.shell.cmd).bind fun name =>
      (deskPlay walk o name d.sys).map fun sys => { d with sys := sys }
  | .plStop => some { d with sys := plStop d.sys }
  | _ => (handleEvent h o.behind o.now e d.shell).map d.withShell

def Desk.popped (d : Desk) : Desk :=
  { d with shell := { d.shell with ev := (eventPop d.shell.ev).2 } }

def deskStep (h : Host) (walk : Nat) (d : Desk) (o : Surroundings) : Option Desk :=
  deskHandle h walk o (eventPop d.shell.ev).1 d.popped

def Ev.handled (ev : Ev) : Nat := if ev.tail < ev.head then 1 else 0

/-- The loop, with the number of events it has handled; it has not ended where there is
nothing left of the list. -/
def eventLoop (h : Host) (walk : Nat) : List Surroundings → Desk → Option (Nat × Desk)
  | [], _ => none
  | o :: outs, d =>
      (deskStep h walk d o).bind fun d' =>
        if (eventPop d.shell.ev).1.type = .none then some (d.shell.ev.handled,d')
        else (eventLoop h walk outs d').map fun r => (d.shell.ev.handled+r.1,r.2)

/-- The chunks of the file lead nowhere twice, and they can be read as far as they are
looked at. -/
structure ChunksOk (o : Surroundings) (b : RiffBuff) : Prop where
  lengths : ∀ n front run, chunkLengths b.width b.mem n 12 = some (front ++ run) → run ≠ [] →
    ¬ 2^b.width ∣ run.sum
  readable : ∀ turns, WalkReadable o b riffStart turns

/-- The event that the command of a line with these tokens queues. -/
def Shell.lineEvent (s : Shell) (h : Host) (now : UInt32) (ts : List Str) : Option Event :=
  (cmdExec h (layout ts)).bind
    (commandEvent h now s.volume ((lineTokens h maxTokens (conLine s.con)).getD [])[1]? (layout ts))

/-- The tokens of the line are found and fit, and the event of its command does not wrap
the counter; what is to be played has a name, and a file of that name can be walked
through; an event without a type is the last one. -/
def EventOk (h : Host) (o : Surroundings) (e : Event) (d : Desk) : Prop :=
  match e.type with
  | .none => d.shell.ev.head = d.shell.ev.tail
  | .conInput => ∃ ts, lineTokens h maxTokens (conInputData d.shell.con ++ o.behind) = some ts ∧
      TokensFit ts ∧
      (d.shell.lineEvent h o.now ts = none ∨ d.shell.ev.head.toNat+1 < 2^32)
  | .plPlay => ∃ name, eventName e d.shell.cmd = some name ∧
      (isHttp name = true ∨ EachRiff o.world name (plReset d.sys).fs
        (fun f => ChunksOk o (o.buff f)))
  | _ => True

def TurnOk (h : Host) (d : Desk) (o : Surroundings) : Prop :=
  d.shell.ev.tail < d.shell.ev.head → EventOk h o (eventPop d.shell.ev).1 d.popped

/-- The line ends where it starts. -/
def Con.Blank (con : Con) : Prop := con.input ⟨0,by decide⟩ = 0

instance (con : Con) : Decidable con.Blank := inferInstanceAs (Decidable (_ = _))

/-- What is pending, and the event that the line may still add to it. -/
def Shell.work (s : Shell) : Nat :=
  if s.ev.used = 0 then 0 else s.ev.used+if s.con.Blank then 0 else 1

/-! Plays that return. -/

theorem riffInfo_returns_iff (w : World) (bytes : List UInt8) :
    riffInfo w bytes ≠ none ↔ ∃ e, riffWalk w.width (store w.stack 0 bytes) w.fuel 12 none =
      some e := by
  rcases hwalk : riffWalk w.width (store w.stack 0 bytes) w.fuel 12 none with _ | ⟨ptr,_ | fmt⟩ | _
  · simp [riffInfo,hwalk]
  · simp [riffInfo,hwalk]
  · simp only [riffInfo,hwalk]
    split
    · simp
    · split <;> simp
  · simp [riffInfo,hwalk]

theorem riffInfo_mono {w : World} {a b : Nat} (hab : a ≤ b) {bytes : List UInt8}
    {v : Option RiffInfo} (hv : riffInfo (w.follow a) bytes = some v) :
    riffInfo (w.follow b) bytes = some v := by
  obtain ⟨e,he⟩ := (riffInfo_returns_iff (w.follow a) bytes).mp (by simp [hv])
  have hsame : riffWalk (w.follow b).width (store (w.follow b).stack 0 bytes)
      (w.follow b).fuel 12 none =
      riffWalk (w.follow a).width (store (w.follow a).stack 0 bytes) (w.follow a).fuel 12 none :=
    (riffWalk_mono hab he).trans he.symm
  rw [← hv]
  dsimp only [riffInfo]
  rw [hsame]
  rfl

theorem fsOpenRiff_mono {w : World} {a b : Nat} (hab : a ≤ b) {name : Str} {fs t : Fs}
    (ht : fsOpenRiff (w.follow a) name fs = some t) : fsOpenRiff (w.follow b) name fs = some t := by
  cases hl : fs.lookup w.files name with
  | none =>
    have hopen : ∀ walk, fsOpen (w.follow walk).files name fs = (-1,fs) := fun _ => fsOpen_none hl
    simp only [fsOpenRiff,hopen,if_true] at ht ⊢
    exact ht
  | some f =>
    obtain ⟨handle,e,fs1,-,-,-,heq⟩ := fsOpenRiff_eq hl
    rw [heq] at ht ⊢
    obtain ⟨verdict,hinfo,rfl⟩ := Option.map_eq_some_iff.mp ht
    rw [riffInfo_mono hab hinfo,Option.map_some]

theorem fsPlay_mono {w : World} {a b : Nat} (hab : a ≤ b) {name : Str} {fs t : Fs}
    (ht : fsPlay (w.follow a) name fs = some t) : fsPlay (w.follow b) name fs = some t := by
  have htype : fsType (w.follow b) name fs = fsType (w.follow a) name fs := rfl
  unfold fsPlay at ht ⊢
  rw [htype]
  split at ht
  · exact fsOpenRiff_mono hab ht
  · exact ht
  · exact ht

theorem fsPlay_returns_iff (w : World) (walk : Nat) (name : Str) (fs : Fs) :
    (∃ t, fsPlay (w.follow walk) name fs = some t) ↔ EachRiff w name fs (fun f =>
      ∃ e, riffWalk w.width (store w.stack 0 (f.rewound.read w.riffFault 128)) walk 12 none =
        some e) := by
  simp only [EachRiff,Option.mem_def]
  cases hl : fs.lookup w.files name with
  | none =>
    have htype : fsType (w.follow walk) name fs = (.none,fs) := fsType_none hl
    exact iff_of_true ⟨fs,by simp only [fsPlay,htype]⟩ (fun f hf => by cases hf)
  | some f =>
    obtain ⟨fs1,htype,-,-,hl1⟩ := fsType_some (w := w.follow walk) hl
    have htype : fsType (w.follow walk) name fs = (typeOfHeader (f.read w.typeFault 64),fs1) :=
      htype
    simp only [Option.some.injEq,forall_eq',fsPlay,htype]
    cases ht : typeOfHeader (f.read w.typeFault 64) with
    | riff =>
      have hreturns := fsOpenRiff_returns_iff (w := w.follow walk) hl1
      rw [riffInfo_returns_iff] at hreturns
      simp only [true_imp_iff]
      exact hreturns
    | _ => exact iff_of_true ⟨_,rfl⟩ (fun hriff => by cases hriff)

theorem plPlay_mono {w : World} {a b : Nat} (hab : a ≤ b) {o : NetOpen} {name : Str} {s t : Sys}
    (ht : plPlay (w.follow a) o name s = some t) : plPlay (w.follow b) o name s = some t := by
  cases hhttp : isHttp name with
  | true => simpa [plPlay,hhttp] using ht
  | false =>
    rw [plPlay_name hhttp] at ht ⊢
    obtain ⟨fs,hfs,hswitch⟩ := Option.map_eq_some_iff.mp ht
    rw [fsPlay_mono hab hfs,Option.map_some,hswitch]

theorem plPlay_returns_iff (w : World) (walk : Nat) (o : NetOpen) {name : Str}
    (hhttp : isHttp name = false) (s : Sys) :
    (∃ t, plPlay (w.follow walk) o name s = some t) ↔ EachRiff w name (plReset s).fs (fun f =>
      ∃ e, riffWalk w.width (store w.stack 0 (f.rewound.read w.riffFault 128)) walk 12 none =
        some e) := by
  rw [← fsPlay_returns_iff,plPlay_name hhttp]
  cases fsPlay (w.follow walk) name (plReset s).fs <;> simp

/-- A walk that has ended looks at nothing more. -/
theorem WalkReadable.further {o : Surroundings} {b : RiffBuff} {n : Nat} {s : RiffCursor}
    {e : RiffEnd} (hs : s.last = none) (he : riffWalk b.width b.mem n s.ptr s.fmt = some e)
    (hr : WalkReadable o b s n) (turns : Nat) : WalkReadable o b s turns := by
  induction n generalizing s turns with
  | zero => cases he
  | succ n ih =>
    cases turns with
    | zero => trivial
    | succ turns =>
      refine ⟨hr.1,fun t ht => ?_⟩
      rw [riffTurn_walk o.debug b n hs ht] at he
      cases hlast : t.last with
      | none =>
        rw [hlast] at he
        exact ih hlast he (hr.2 t ht) turns
      | some last =>
        cases turns with
        | zero => trivial
        | succ turns =>
          refine ⟨fun hn => by simp [hlast] at hn,fun u hu => ?_⟩
          simp [riffTurn,hlast] at hu

theorem deskPlay_http {walk : Nat} {o : Surroundings} {name : Str} (hhttp : isHttp name = true)
    (s : Sys) :
    deskPlay walk o name s = plPlay (o.world.follow walk) o.net name s := if_pos (.inl hhttp)

theorem deskPlay_some_iff {walk : Nat} {o : Surroundings} {name : Str}
    (hhttp : isHttp name = false) {s t : Sys} :
    deskPlay walk o name s = some t ↔
      EachRiff o.world name (plReset s).fs (fun f => WalkReadable o (o.buff f) riffStart walk) ∧
        plPlay (o.world.follow walk) o.net name s = some t := by
  simp [deskPlay,hhttp]

theorem deskPlay_mono {o : Surroundings} {a b : Nat} (hab : a ≤ b) {name : Str} {s t : Sys}
    (ht : deskPlay a o name s = some t) : deskPlay b o name s = some t := by
  cases hhttp : isHttp name with
  | true =>
    rw [deskPlay_http hhttp] at ht ⊢
    exact plPlay_mono hab ht
  | false =>
    rw [deskPlay_some_iff hhttp] at ht ⊢
    have hends := (plPlay_returns_iff o.world a o.net hhttp s).mp ⟨t,ht.2⟩
    refine ⟨fun f hf hriff => ?_,plPlay_mono hab ht.2⟩
    obtain ⟨e,he⟩ := hends f hf hriff
    exact (ht.1 f hf hriff).further rfl he b

theorem deskPlay_returns_iff (o : Surroundings) (name : Str) (s : Sys) :
    (∃ walk t, deskPlay walk o name s = some t) ↔
      isHttp name = true ∨ EachRiff o.world name (plReset s).fs
        (fun f => ChunksOk o (o.buff f)) := by
  cases hhttp : isHttp name with
  | true => exact iff_of_true ⟨0,_,(deskPlay_http hhttp s).trans (if_pos hhttp)⟩ (.inl rfl)
  | false =>
    have hstart : ∀ f, 12 < 2^(o.buff f).width := fun f => (o.buff f).lt_pow (by decide)
    simp only [deskPlay_some_iff hhttp,exists_and_left,plPlay_returns_iff _ _ _ hhttp,
      Bool.false_eq_true,false_or]
    constructor
    · rintro ⟨walk,hread,hends⟩ f hf hriff
      obtain ⟨e,he⟩ := hends f hf hriff
      exact ⟨(riffWalk_chunks_iff (hstart f)).mp ⟨walk,e,he⟩,(hread f hf hriff).further rfl he⟩
    · intro hok
      -- the name is that of one file at most, and its walk says how far to follow
      by_cases hfile : ∃ f ∈ (plReset s).fs.lookup o.world.files name,
          typeOfHeader (f.read o.world.typeFault 64) = .riff
      · obtain ⟨f,hf,hriff⟩ := hfile
        obtain ⟨walk,e,he⟩ := (riffWalk_chunks_iff (hstart f)).mpr (hok f hf hriff).lengths
        refine ⟨walk,fun g hg hriff => (hok g hg hriff).readable walk,fun g hg _ => ?_⟩
        cases Option.mem_unique hf hg
        exact ⟨e,he⟩
      · exact ⟨0,fun f hf hriff => absurd ⟨f,hf,hriff⟩ hfile,
          fun f hf hriff => absurd ⟨f,hf,hriff⟩ hfile⟩

-- the characters behind the scheme are never looked at, so they are not evaluated
theorem isHttp_text (rest : List Char) :
    isHttp (ascii (String.ofList ('h' :: 't' :: 't' :: 'p' :: ':' :: '/' :: '/' :: rest)).toList) =
      true := by
  have hzero : 0 ∉ httpUri := by decide
  rw [String.toList_ofList,isHttp,beq_iff_eq,ucMemcmp_eq_zero_iff hzero]
  exact List.prefix_append httpUri (ascii rest)

theorem radios_http : ∀ url ∈ radios, isHttp url = true := by
  unfold radios
  repeat refine List.forall_mem_cons.mpr ⟨isHttp_text _,?_⟩
  simp

/-- The event of `cmd_radio` can always be handled: a station is an address. -/
theorem cmdRadio_eventOk {h : Host} {now : UInt32} {volume : Nat} {second : Option Str} {c : Cmd}
    {e : Event} (he : commandEvent h now volume second c .cmdRadio = some e) (o : Surroundings)
    (d : Desk) : EventOk h o e d := by
  obtain ⟨choice,hchoice,rfl⟩ := Option.map_eq_some_iff.mp he
  have hcount : radios.length = radiosCount := rfl
  have hlt : choice < radios.length := by
    rw [hcount]
    unfold cmdRadio at hchoice
    grind
  exact ⟨radios[choice],List.getElem?_eq_getElem hlt,.inl (radios_http _ (List.getElem_mem hlt))⟩

/-! One turn. -/

theorem deskStep_mono {h : Host} {a b : Nat} (hab : a ≤ b) {d t : Desk} {o : Surroundings}
    (ht : deskStep h a d o = some t) : deskStep h b d o = some t := by
  unfold deskStep deskHandle at ht ⊢
  split at ht
  · obtain ⟨name,hname,ht⟩ := Option.bind_eq_some_iff.mp ht
    obtain ⟨sys,hsys,rfl⟩ := Option.map_eq_some_iff.mp ht
    rw [hname,Option.bind_some,deskPlay_mono hab hsys,Option.map_some]
  · exact ht
  · exact ht

/-- What a turn does to the line and the queue: the shell's turn, whatever the player
does. -/
theorem deskStep_cases {h : Host} {walk : Nat} {d t : Desk} {o : Surroundings}
    (ht : deskStep h walk d o = some t) :
    ((eventPop d.shell.ev).1.type ≠ .conInput ∧ t.shell.con = d.shell.con ∧
      t.shell.ev = (eventPop d.shell.ev).2) ∨
      ((eventPop d.shell.ev).1.type = .conInput ∧
        ∃ u, cmdInput h o.behind o.now d.popped.shell = some u ∧
        t.shell.con = conReset u.con ∧ t.shell.ev = u.ev) := by
  unfold deskStep deskHandle at ht
  split at ht
  · rename_i he
    obtain ⟨name,-,ht⟩ := Option.bind_eq_some_iff.mp ht
    obtain ⟨sys,-,rfl⟩ := Option.map_eq_some_iff.mp ht
    exact .inl ⟨by simp [he],rfl,rfl⟩
  · rename_i he
    cases ht
    exact .inl ⟨by simp [he],rfl,rfl⟩
  · obtain ⟨s,hs,rfl⟩ := Option.map_eq_some_iff.mp ht
    obtain ⟨hne,hcon,hev,-⟩ | ⟨he,u,hu,hcon,hev,-⟩ := handleEvent_cases hs
    · exact .inl ⟨hne,hcon,hev⟩
    · exact .inr ⟨he,u,hu,hcon,hev⟩

theorem cmdInput_eq_some_iff {h : Host} {behind : Str} {now : UInt32} {s u : Shell} :
    cmdInput h behind now s = some u ↔
      ∃ ts, lineTokens h maxTokens (conInputData s.con ++ behind) = some ts ∧ TokensFit ts ∧
        u = { s with
          cmd := layout ts, ev := (s.lineEvent h now ts).elim s.ev (eventPush · s.ev) } := by
  have hresult : ∀ ts, ((s.lineEvent h now ts).elim { s with cmd := layout ts }
      ({ s with cmd := layout ts } : Shell).push) =
      { s with cmd := layout ts, ev := (s.lineEvent h now ts).elim s.ev (eventPush · s.ev) } := by
    intro ts
    cases s.lineEvent h now ts <;> rfl
  simp only [← hresult]
  cases hts : lineTokens h maxTokens (conInputData s.con ++ behind) with
  | none =>
    have hnone : cmdTokenize h (conInputData s.con ++ behind) = none :=
      Option.eq_none_iff_forall_ne_some.mpr fun c hc => by
        obtain ⟨ts,ht,-⟩ := cmdTokenize_eq hc
        cases hts.symm.trans ht
    simp [cmdInput,hnone]
  | some ts =>
    rw [cmdInput,cmdTokenize_of_line hts]
    by_cases hfit : TokensFit ts
    · simp [hfit,eq_comm,Shell.lineEvent]
    · simp [hfit]

/-- A blank line queues nothing. -/
theorem lineEvent_blank {h : Host} {behind : Str} {now : UInt32} {s : Shell} {ts : List Str}
    (hblank : s.con.Blank) (hts : lineTokens h maxTokens (conInputData s.con ++ behind) =
      some ts) : s.lineEvent h now ts = none := by
  have hdata : conInputData s.con = s.con.input ⟨0,by decide⟩ :: _ :=
    List.ofFn_succ (n := 127) (f := s.con.input)
  have hfirst : s.con.input ⟨0,by decide⟩ = 0 := hblank
  rw [hdata,List.cons_append,lineTokens_stop (.inl hfirst)] at hts
  cases hts
  simp [Shell.lineEvent,cmdExec,layout,Cmd.addTokens,Cmd.argc]

theorem cmdInput_cases {h : Host} {behind : Str} {now : UInt32} {s u : Shell}
    (hu : cmdInput h behind now s = some u) :
    u.con = s.con ∧ ∃ ts, lineTokens h maxTokens (conInputData s.con ++ behind) = some ts ∧
      TokensFit ts ∧
      ((s.lineEvent h now ts = none ∧ u.ev = s.ev) ∨
        ¬ s.con.Blank ∧ ∃ e, s.lineEvent h now ts = some e ∧ u.ev = eventPush e s.ev) := by
  obtain ⟨ts,hts,hfit,rfl⟩ := cmdInput_eq_some_iff.mp hu
  refine ⟨rfl,ts,hts,hfit,?_⟩
  cases he : s.lineEvent h now ts with
  | none => exact .inl ⟨rfl,rfl⟩
  | some e =>
    refine .inr ⟨fun hblank => ?_,e,rfl,rfl⟩
    rw [lineEvent_blank hblank hts] at he
    cases he

theorem conReset_blank (con : Con) : (conReset con).Blank := rfl

theorem eventPush_ordered {ev : Ev} (ho : ev.tail ≤ ev.head) (hw : ev.head.toNat+1 < 2^32)
    (e : Event) :
    (eventPush e ev).tail ≤ (eventPush e ev).head ∧ (eventPush e ev).used ≤ ev.used+1 := by
  have hused := used_of_le ev ho
  rw [UInt32.le_iff_toNat_le] at ho ⊢
  rw [eventPush_eq]
  split
  · simp only [used,put,take,toNat_diff,toNat_succ] at *
    omega
  · simp only [used,put,toNat_diff,toNat_succ] at *
    omega

/-- A head that wraps is behind the tail, and stays there. -/
theorem eventPush_wrapped {ev : Ev} (ho : ev.tail ≤ ev.head) (ht : 0 < ev.tail.toNat)
    (hw : ¬ ev.head.toNat+1 < 2^32) (e : Event) :
    (eventPush e ev).head.toNat < (eventPush e ev).tail.toNat := by
  have hh := ev.head.toNat_lt
  have hused := used_of_le ev ho
  rw [UInt32.le_iff_toNat_le] at ho
  rw [eventPush_eq]
  split
  · rename_i hover
    simp only [maxEvents,put,take,toNat_succ] at *
    omega
  · simp only [put,toNat_succ]
    omega

theorem eventPop_ordered {ev : Ev} (hlt : ev.tail < ev.head) :
    (eventPop ev).2.tail ≤ (eventPop ev).2.head ∧ (eventPop ev).2.used+1 = ev.used ∧
      0 < (eventPop ev).2.tail.toNat := by
  have hused := take_used ev (used_pos_of_lt ev hlt)
  have hh := ev.head.toNat_lt
  rw [eventPop_some hlt]
  rw [UInt32.lt_iff_toNat_lt] at hlt
  refine ⟨UInt32.le_iff_toNat_le.mpr ?_,hused,?_⟩
  · simp only [take,toNat_succ]
    omega
  · simp only [take,toNat_succ]
    omega

/-- The turn that pushes is paid for by the line. -/
theorem turn_progress {h : Host} {walk : Nat} {d t : Desk} {o : Surroundings}
    (hlt : d.shell.ev.tail < d.shell.ev.head) (hok : TurnOk h d o)
    (ht : deskStep h walk d o = some t) :
    t.shell.ev.tail ≤ t.shell.ev.head ∧ t.shell.work < d.shell.work := by
  obtain ⟨hle,hpop,-⟩ := eventPop_ordered hlt
  have hok := hok hlt
  obtain ⟨-,hcon,hev⟩ | ⟨he,u,hu,hcon,hev⟩ := deskStep_cases ht
  · rw [hev]
    refine ⟨hle,?_⟩
    simp only [Shell.work,hcon,hev]
    split_ifs <;> omega
  · simp only [EventOk,he] at hok
    obtain ⟨-,ts,hts,-,⟨-,hsame⟩ | ⟨hline,e,hline',hpush⟩⟩ := cmdInput_cases hu
    · rw [hev,hsame]
      refine ⟨hle,?_⟩
      simp only [Shell.work,hev,hsame,hcon,conReset_blank,if_true]
      change (if (eventPop d.shell.ev).2.used = 0 then 0 else (eventPop d.shell.ev).2.used+0) < _
      split_ifs <;> omega
    · obtain ⟨ts',hts',-,hroom⟩ := hok
      cases hts.symm.trans hts'
      have hw : (eventPop d.shell.ev).2.head.toNat+1 < 2^32 := hroom.resolve_left (by simp [hline'])
      obtain ⟨hle',hused⟩ := eventPush_ordered hle hw e
      have hev' : t.shell.ev = eventPush e (eventPop d.shell.ev).2 := hev.trans hpush
      have hline : ¬ d.shell.con.Blank := hline
      rw [hev']
      refine ⟨hle',?_⟩
      simp only [Shell.work,hev',hcon,conReset_blank,if_true,hline,if_false]
      split_ifs <;> omega

theorem turn_returns {h : Host} {d : Desk} {o : Surroundings}
    (hlt : d.shell.ev.tail < d.shell.ev.head) (hok : TurnOk h d o) :
    ∃ walk t, deskStep h walk d o = some t := by
  have hok := hok hlt
  unfold deskStep deskHandle
  cases he : (eventPop d.shell.ev).1.type with
  | plPlay =>
    simp only [EventOk,he] at hok
    obtain ⟨name,hname,hplay⟩ := hok
    obtain ⟨walk,sys,hsys⟩ := (deskPlay_returns_iff o name d.popped.sys).mpr hplay
    exact ⟨walk,{ d.popped with sys := sys },by simp [hname,hsys]⟩
  | conInput =>
    simp only [EventOk,he] at hok
    obtain ⟨ts,hts,hfit,-⟩ := hok
    obtain ⟨u,hu⟩ : ∃ u, cmdInput h o.behind o.now d.popped.shell = some u :=
      ⟨_,cmdInput_eq_some_iff.mpr ⟨ts,hts,hfit,rfl⟩⟩
    exact ⟨0,_,by simp [handleEvent,he,hu]; rfl⟩
  | plStop => exact ⟨0,_,rfl⟩
  | _ => exact ⟨0,_,by simp [handleEvent,he]; rfl⟩

/-- With nothing pending a turn leaves the queue as it is. -/
theorem idle_turn {h : Host} {d : Desk} (hn : ¬ d.shell.ev.tail < d.shell.ev.head) (walk : Nat)
    (o : Surroundings) :
    (eventPop d.shell.ev).1.type = .none ∧ ∃ t, deskStep h walk d o = some t ∧
      t.shell.ev = d.shell.ev := by
  have hpop := eventPop_none hn
  refine ⟨by rw [hpop]; rfl,d.popped.withShell d.popped.shell,?_,?_⟩
  · simp [deskStep,deskHandle,handleEvent,hpop,Event.none]
  · simp [Desk.popped,Desk.withShell,hpop]

theorem guarded_idle {h : Host} (walk : Nat) (outs : List Surroundings) {d : Desk}
    (hn : ¬ d.shell.ev.tail < d.shell.ev.head) : Guarded (deskStep h walk) (TurnOk h) d outs := by
  induction outs generalizing d with
  | nil => trivial
  | cons o outs ih =>
    refine ⟨fun hlt => absurd hlt hn,fun t ht => ih ?_⟩
    obtain ⟨-,t',ht',hev⟩ := idle_turn (h := h) hn walk o
    cases ht'.symm.trans ht
    rwa [hev]

/-! The loop. -/

theorem eventLoop_cons_iff {h : Host} {walk : Nat} {o : Surroundings} {outs : List Surroundings}
    {d d' : Desk} {n : Nat} :
    eventLoop h walk (o :: outs) d = some (n,d') ↔ ∃ t, deskStep h walk d o = some t ∧
      (((eventPop d.shell.ev).1.type = .none ∧ n = d.shell.ev.handled ∧ d' = t) ∨
        ((eventPop d.shell.ev).1.type ≠ .none ∧
          ∃ m, eventLoop h walk outs t = some (m,d') ∧ n = d.shell.ev.handled+m)) := by
  rw [eventLoop,Option.bind_eq_some_iff]
  refine exists_congr fun t => and_congr_right fun _ => ?_
  by_cases he : (eventPop d.shell.ev).1.type = .none
  · simp [he,eq_comm]
  · simp [he,eq_comm]

theorem eventLoop_mono {h : Host} {a b : Nat} (hab : a ≤ b) {outs : List Surroundings}
    {d d' : Desk} {n : Nat} (hr : eventLoop h a outs d = some (n,d')) :
    eventLoop h b outs d = some (n,d') := by
  induction outs generalizing d n with
  | nil => cases hr
  | cons o outs ih =>
    obtain ⟨t,ht,hr⟩ := eventLoop_cons_iff.mp hr
    refine eventLoop_cons_iff.mpr ⟨t,deskStep_mono hab ht,hr.imp_right ?_⟩
    rintro ⟨hne,m,hm,rfl⟩
    exact ⟨hne,m,ih hm,rfl⟩

theorem eventLoop_idle {h : Host} {d : Desk} (hn : ¬ d.shell.ev.tail < d.shell.ev.head) (walk : Nat)
    (o : Surroundings) (outs : List Surroundings) :
    ∃ t, eventLoop h walk (o :: outs) d = some (0,t) ∧ t.shell.ev = d.shell.ev := by
  obtain ⟨htype,t,ht,hev⟩ := idle_turn (h := h) hn walk o
  exact ⟨t,eventLoop_cons_iff.mpr ⟨t,ht,.inl ⟨htype,by simp [Ev.handled,hn],rfl⟩⟩,hev⟩

theorem eventLoop_stays_wrapped {h : Host} {walk n : Nat} {outs : List Surroundings} {d d' : Desk}
    (hlt : d.shell.ev.head.toNat < d.shell.ev.tail.toNat)
    (hr : eventLoop h walk outs d = some (n,d')) :
    d'.shell.ev.head ≠ d'.shell.ev.tail := by
  cases outs with
  | nil => cases hr
  | cons o outs =>
    have hn : ¬ d.shell.ev.tail < d.shell.ev.head := by
      rw [UInt32.lt_iff_toNat_lt]
      omega
    obtain ⟨t,ht,hev⟩ := eventLoop_idle (h := h) hn walk o outs
    cases ht.symm.trans hr
    rw [hev]
    intro he
    rw [he] at hlt
    omega

/-- After a turn that does not meet the condition the loop is stuck, or ends with
something left in the queue. -/
theorem turn_bad {h : Host} {d : Desk} {o : Surroundings} (hok : ¬ TurnOk h d o) {walk n : Nat}
    {outs : List Surroundings} {d' : Desk} (hr : eventLoop h walk (o :: outs) d = some (n,d')) :
    d'.shell.ev.head ≠ d'.shell.ev.tail := by
  obtain ⟨hlt,hbad⟩ := Classical.not_imp.mp hok
  obtain ⟨t,ht,hr⟩ := eventLoop_cons_iff.mp hr
  cases he : (eventPop d.shell.ev).1.type with
  | none =>
    simp only [EventOk,he] at hbad
    obtain ⟨-,-,hev⟩ | ⟨hcon,-⟩ := deskStep_cases ht
    · obtain ⟨-,-,rfl⟩ | ⟨hne,-⟩ := hr
      · rw [hev]
        exact hbad
      · exact absurd he hne
    · simp [he] at hcon
  | conInput =>
    simp only [EventOk,he] at hbad
    obtain ⟨hne,-⟩ | ⟨-,u,hu,-,hev⟩ := deskStep_cases ht
    · exact absurd he hne
    · obtain ⟨hnone,-⟩ | ⟨-,m,hm,-⟩ := hr
      · simp [he] at hnone
      · refine eventLoop_stays_wrapped ?_ hm
        obtain ⟨hle,-,hpos⟩ := eventPop_ordered hlt
        obtain ⟨-,ts,hts,hfit,⟨hnone,-⟩ | ⟨-,e,-,hpush⟩⟩ := cmdInput_cases hu
        · exact absurd ⟨ts,hts,hfit,.inl hnone⟩ hbad
        · rw [hev,hpush]
          exact eventPush_wrapped hle hpos (fun hw => hbad ⟨ts,hts,hfit,.inr hw⟩) e
  | plPlay =>
    simp only [EventOk,he] at hbad
    simp only [deskStep,deskHandle,he] at ht
    obtain ⟨name,hname,ht⟩ := Option.bind_eq_some_iff.mp ht
    obtain ⟨sys,hsys,-⟩ := Option.map_eq_some_iff.mp ht
    exact absurd ⟨name,hname,(deskPlay_returns_iff _ _ _).mp ⟨walk,sys,hsys⟩⟩ hbad
  | _ => simp [EventOk,he] at hbad

theorem eventLoop_guarded {h : Host} (outs : List Surroundings) {d : Desk} {found n : Nat}
    {d' : Desk} (hr : eventLoop h found outs d = some (n,d'))
    (hend : d'.shell.ev.head = d'.shell.ev.tail) (walk : Nat) :
    Guarded (deskStep h walk) (TurnOk h) d outs := by
  induction outs generalizing d n with
  | nil => trivial
  | cons o outs ih =>
    have hok : TurnOk h d o := Classical.not_not.mp fun hok => turn_bad hok hr hend
    refine ⟨hok,fun t ht => ?_⟩
    obtain ⟨t',ht',hr⟩ := eventLoop_cons_iff.mp hr
    -- however far the walks are followed, the turn that returns does the same
    have hsame : t' = t := Option.some.inj
      ((deskStep_mono (Nat.le_max_left found walk) ht').symm.trans
        (deskStep_mono (Nat.le_max_right found walk) ht))
    subst hsame
    obtain ⟨-,-,rfl⟩ | ⟨-,m,hm,-⟩ := hr
    · exact guarded_idle walk outs (by simp [hend])
    · exact ih hm

theorem work_le (s : Shell) : s.work ≤ 2*s.ev.used := by
  unfold Shell.work
  split_ifs <;> omega

theorem handled_le_work {s : Shell} (hlt : s.ev.tail < s.ev.head) : s.ev.handled ≤ s.work := by
  have hpos := used_pos_of_lt s.ev hlt
  simp only [Ev.handled,hlt,if_true,Shell.work]
  split_ifs <;> omega

/-- Each turn takes from the work, and the bound on the turns is what is left of it. -/
theorem eventLoop_ends {h : Host} (outs : List Surroundings) {d : Desk}
    (hd : d.shell.ev.tail ≤ d.shell.ev.head) (hl : d.shell.work < outs.length)
    (hg : ∀ walk, Guarded (deskStep h walk) (TurnOk h) d outs) :
    ∃ walk n d', eventLoop h walk outs d = some (n,d') ∧ d'.shell.ev.head = d'.shell.ev.tail ∧
      n ≤ d.shell.work := by
  induction outs generalizing d with
  | nil => simp at hl
  | cons o outs ih =>
    by_cases hlt : d.shell.ev.tail < d.shell.ev.head
    · have hok := (hg 0).1
      obtain ⟨walk,t,ht⟩ := turn_returns hlt hok
      obtain ⟨ht0,hless⟩ := turn_progress hlt hok ht
      have hone : d.shell.ev.handled = 1 := if_pos hlt
      by_cases he : (eventPop d.shell.ev).1.type = .none
      · have hlast := hok hlt
        simp only [EventOk,he] at hlast
        obtain ⟨-,-,hev⟩ | ⟨hcon,-⟩ := deskStep_cases ht
        · refine ⟨walk,d.shell.ev.handled,t,eventLoop_cons_iff.mpr ⟨t,ht,.inl ⟨he,rfl,rfl⟩⟩,?_,
            handled_le_work hlt⟩
          rw [hev]
          exact hlast
        · simp [he] at hcon
      · have hgt : ∀ a, Guarded (deskStep h a) (TurnOk h) t outs := fun a =>
          ((hg (max walk a)).2 t (deskStep_mono (Nat.le_max_left _ _) ht)).restrict
            (fun _ _ _ hs => deskStep_mono (Nat.le_max_right _ _) hs)
        obtain ⟨walk',m,d',hm,hend,hle⟩ := ih ht0 (by simp only [List.length_cons] at hl; omega) hgt
        refine ⟨max walk walk',d.shell.ev.handled+m,d',
          eventLoop_cons_iff.mpr ⟨t,?_,.inr ⟨he,m,?_,rfl⟩⟩,hend,by omega⟩
        · exact deskStep_mono (Nat.le_max_left _ _) ht
        · exact eventLoop_mono (Nat.le_max_right _ _) hm
    · obtain ⟨t,ht,hev⟩ := eventLoop_idle (h := h) hlt 0 o outs
      refine ⟨0,0,t,ht,?_,Nat.zero_le _⟩
      rw [hev]
      rw [UInt32.lt_iff_toNat_lt] at hlt
      rw [UInt32.le_iff_toNat_le] at hd
      exact UInt32.toNat_inj.mp (by omega)

/-- The loop ends with nothing pending, at most twice as many events handled as were
pending, exactly where every event it meets can be handled. -/
theorem eventLoop_drains_iff (h : Host) (outs : List Surroundings) (d : Desk)
    (hd : d.shell.ev.tail ≤ d.shell.ev.head) (hl : 2*d.shell.ev.used < outs.length) :
    (∃ walk n d', eventLoop h walk outs d = some (n,d') ∧ d'.shell.ev.head = d'.shell.ev.tail ∧
      n ≤ 2*d.shell.ev.used) ↔ ∀ walk, Guarded (deskStep h walk) (TurnOk h) d outs := by
  have hwork := work_le d.shell
  constructor
  · rintro ⟨found,n,d',hr,hend,-⟩ walk
    exact eventLoop_guarded outs hr hend walk
  · intro hg
    obtain ⟨walk,n,d',hr,hend,hn⟩ := eventLoop_ends outs hd (by omega) hg
    exact ⟨walk,n,d',hr,hend,by omega⟩

def silentNet : NetOpen := ⟨false,-1,false,false,false,none⟩

/-- Every name is the name of this file. In an address space of 32 bits all of it can be
read, in one of 64 bits the first 2^20 bytes from `buff` on. -/
def fileTurn (file : List UInt8) (bits64 : Bool) : Surroundings where
  behind := []
  now := 0
  world := ⟨fun _ => some file,none,none,fun _ => 0,if bits64 then 64 else 32,0⟩
  net := silentNet
  debug := false
  readable := fun a => !bits64 || decide (a < 2^20)
  wide := by cases bits64 <;> simp

def stopDesk : Desk := ⟨hostConPoll 0 (ascii ['s','t','o','p','\n']) shellInit,sysInit [] true⟩

/-- One event is pending, and two are handled. -/
theorem eventLoop_drains_stop :
    stopDesk.shell.ev.used = 1 ∧
      ∀ walk, Guarded (deskStep .linux walk) (TurnOk .linux) stopDesk
        (List.replicate 3 (fileTurn [] false)) := by
  have hrun : (eventLoop .linux 0 (List.replicate 3 (fileTurn [] false)) stopDesk).map
      (fun r => (r.1,r.2.shell.ev.head,r.2.shell.ev.tail)) = some (2,2,2) := by decide +kernel
  obtain ⟨⟨n,d'⟩,hr,hend⟩ := Option.map_eq_some_iff.mp hrun
  simp only [Prod.mk.injEq] at hend
  obtain ⟨rfl,hhead,htail⟩ := hend
  refine ⟨by decide +kernel,(eventLoop_drains_iff .linux _ stopDesk (by decide +kernel)
    (by decide +kernel)).mp ?_⟩
  exact ⟨0,2,d',hr,hhead.trans htail.symm,by decide +kernel⟩

def playEvent : Event := ⟨0,.plPlay,0,.tokenBuffer 5,some [97]⟩

/-- What is left of the line `play a`. -/
def playDesk : Desk :=
  ⟨({ shellInit with cmd := layout [ascii ['p','l','a','y'],[97]] }).push playEvent,sysInit [] true⟩

theorem roundRiff_read (bits64 : Bool) : (fileTurn roundRiff bits64).buff ⟨.host,roundRiff,0⟩ =
    ⟨roundRiff,fun _ => 0,if bits64 then 64
      else 32,by decide,(fileTurn roundRiff bits64).wide⟩ := by
  have hread : (Found.rewound ⟨.host,roundRiff,0⟩).read none 128 = roundRiff := by decide +kernel
  simp only [Surroundings.buff,fileTurn,hread]

/-- With 32 bits the chunks lead back to the first one, with 64 bits to memory that is
not there. -/
theorem roundRiff_play (bits64 : Bool) :
    ¬ ChunksOk (fileTurn roundRiff bits64)
      ((fileTurn roundRiff bits64).buff ⟨.host,roundRiff,0⟩) := by
  rw [roundRiff_read]
  intro hok
  cases bits64 with
  | false =>
    obtain ⟨fuel,e,he⟩ := (riffWalk_chunks_iff (by decide)).mpr hok.lengths
    cases (roundRiff_walk _ fuel none).symm.trans he
  | true => exact absurd (hok.readable 2) (by decide +kernel)

/-- The loop does not get past a file whose chunks have no end, or lie where nothing is. -/
theorem eventLoop_hangs :
    playDesk.shell.ev.used = 1 ∧ ∀ bits64,
      ¬ ∃ turns walk r, eventLoop .linux walk (List.replicate turns (fileTurn roundRiff bits64))
        playDesk = some r := by
  refine ⟨by decide +kernel,fun bits64 => ?_⟩
  rintro ⟨turns,walk,⟨n,d'⟩,hr⟩
  cases turns with
  | zero => cases hr
  | succ turns =>
    obtain ⟨t,ht,-⟩ := eventLoop_cons_iff.mp hr
    have he : (eventPop playDesk.shell.ev).1 = playEvent := by decide +kernel
    have hname : eventName playEvent playDesk.popped.shell.cmd = some [97] := by decide +kernel
    simp only [deskStep,deskHandle,he] at ht
    rw [show playEvent.type = .plPlay from rfl] at ht
    simp only [hname,Option.bind_some] at ht
    obtain ⟨sys,hsys,-⟩ := Option.map_eq_some_iff.mp ht
    obtain hhttp | hplay := (deskPlay_returns_iff _ _ _).mp ⟨walk,sys,hsys⟩
    · exact absurd hhttp (by decide +kernel)
    · exact roundRiff_play bits64 (hplay ⟨.host,roundRiff,0⟩ rfl
        (by cases bits64 <;> decide +kernel))

end Mardio
