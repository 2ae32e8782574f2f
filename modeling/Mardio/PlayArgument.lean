import Mardio.Shell

/-!
The argument of a play command on the STM32. The event carries a pointer into the
token buffer, which the next line overwrites. The pointer stays good because a
line is handled when nothing else is queued, and that rests on the console lock
and on a queue that does not overflow.
-/

set_option autoImplicit false

namespace Mardio
open CounterRing Runs

/-- The queued events, oldest first. -/
def pending (ev : Ev) : List Event := ev.contents.map Prod.snd

theorem pending_push {ev : Ev} (h : ev.used < maxEvents) (e : Event) :
    pending (eventPush e ev) = pending ev ++ [e] := by
  rw [pending,eventPush_below (by omega),put_contents maxEvents_dvd (by decide) ev e h]
  simp [pending]

theorem used_push {ev : Ev} (h : ev.used < maxEvents) (e : Event) :
    (eventPush e ev).used = ev.used+1 := by
  have hlt : maxEvents+1 < 2^32 := by decide
  rw [eventPush_below (by omega),put_used ev e (by omega)]

theorem pending_pop {ev : Ev} (h : ev.tail < ev.head) :
    pending ev = (eventPop ev).1 :: pending (eventPop ev).2 := by
  rw [pending,contents_eq_cons maxEvents_dvd ev (used_pos_of_lt ev h),eventPop_some h]
  simp [pending]

def EventPtr.token : EventPtr → Option Nat
  | .tokenBuffer p => some p
  | _ => none

/-- A pointer into the token buffer designates there the second token of the line
that queued the event. -/
def Designates (c : Cmd) (e : Event) : Prop := ∀ p ∈ e.ptr.token, e.origin = some (c.str p)

/-- The event handled next, if it plays an argument, still has that argument. -/
def PlayIntact (s : Shell) : Prop :=
  (eventPop s.ev).1.type = .plPlay → Designates s.cmd (eventPop s.ev).1

instance (c : Cmd) (e : Event) : Decidable (Designates c e) :=
  inferInstanceAs (Decidable (∀ p ∈ e.ptr.token, e.origin = some (c.str p)))

instance (s : Shell) : Decidable (PlayIntact s) :=
  inferInstanceAs (Decidable ((eventPop s.ev).1.type = .plPlay →
    Designates s.cmd (eventPop s.ev).1))

/-- A byte taken by the unlocked console finds room in the queue for its events,
and does not fill the line to the end of its array. -/
def ByteFits (s : Shell) : ShellOp → Prop
  | .usart ch _ =>
      s.con.lock = true ∨
        (ch = 13 ∧ (s.ev.head-s.ev.tail).toNat+2 ≤ maxEvents) ∨
        (ch ≠ 13 ∧ (s.ev.head-s.ev.tail).toNat+1 ≤ maxEvents ∧
          (ch = 8 ∧ s.con.index ≠ 0 ∨ s.con.index+1 < maxConsoleInput))
  | _ => True

instance (s : Shell) (op : ShellOp) : Decidable (ByteFits s op) := by
  cases op <;> unfold ByteFits <;> infer_instance

/-- The event of a line is the last one queued, and there is none while the
console is unlocked. -/
structure LineLast (lock : Bool) (es : List Event) : Prop where
  early : ∀ e ∈ es.dropLast, e.type ≠ .conInput
  free : lock = false → ∀ e ∈ es, e.type ≠ .conInput

theorem LineLast.push {es : List Event} (h : LineLast false es) {e : Event}
    (he : e.type ≠ .conInput) :
    LineLast false (es ++ [e]) := by
  have hf := h.free rfl
  refine ⟨by simpa using hf,fun _ x hx => ?_⟩
  obtain hx | rfl := by simpa using hx
  · exact hf x hx
  · exact he

theorem LineLast.lock {es : List Event} (h : LineLast false es) (e : Event) :
    LineLast true (es ++ [e]) :=
  ⟨by simpa using h.free rfl,by simp⟩

theorem LineLast.tail {lock : Bool} {e : Event} {es : List Event} (h : LineLast lock (e :: es)) :
    LineLast lock es := by
  refine ⟨fun x hx => h.early x ?_,fun hl x hx => h.free hl x (by simp [hx])⟩
  cases es with
  | nil => simp at hx
  | cons y es => simpa using .inr hx

theorem LineLast.alone {lock : Bool} {e : Event} {es : List Event} (h : LineLast lock (e :: es))
    (he : e.type = .conInput) : es = [] := by
  cases es with
  | nil => rfl
  | cons y es => exact absurd he (h.early e (by simp))

structure PlayInv (s : Shell) : Prop where
  bounded : s.ev.used ≤ maxEvents
  con : ConInv s.con
  line : LineLast s.con.lock (pending s.ev)
  plays : ∀ e ∈ pending s.ev, Designates s.cmd e

theorem PlayInv.intact {s : Shell} (h : PlayInv s) : PlayIntact s := by
  intro hp
  by_cases hlt : s.ev.tail < s.ev.head
  · exact h.plays _ (by simp [pending_pop hlt])
  · simp [eventPop_none hlt,Event.none] at hp

/-- The line as it is tokenized is the line as it was typed. -/
theorem ConInv.tokens {con : Con} (hc : ConInv con) (h : Host) (n : Nat) (behind : Str) :
    lineTokens h n (conInputData con ++ behind) = lineTokens h n (conLine con) := by
  have hlen : con.index < (conInputData con).length := by
    simpa [conInputData] using hc.room
  have hzero : (conInputData con)[con.index] = 0 := by
    simpa [conInputData] using hc.clear ⟨con.index,hc.room⟩ le_rfl
  have hsplit : conInputData con ++ behind =
      conLine con ++ ((conInputData con).drop (con.index+1) ++ behind) := by
    have hd := List.drop_eq_getElem_cons hlen
    rw [hzero] at hd
    conv_lhs => rw [← List.take_append_drop con.index (conInputData con),hd]
    simp [conLine]
  rw [hsplit]
  exact lineTokens_append h n (by simp [conLine]) _

theorem cmdInput_spec {h : Host} {behind : Str} {now : UInt32} {s u : Shell} (hc : ConInv s.con)
    (hu : cmdInput h behind now s = some u) :
    u.con = s.con ∧ (u.ev = s.ev ∨
      ∃ e, u.ev = eventPush e s.ev ∧ e.type ≠ .conInput ∧ Designates u.cmd e) := by
  simp only [cmdInput,Option.bind_eq_bind,Option.bind_eq_some_iff] at hu
  obtain ⟨cmd,hcmd,hu⟩ := hu
  obtain ⟨ts,hts,rfl⟩ := cmdTokenize_eq hcmd
  rw [hc.tokens] at hts
  have hz := (lineTokens_spec hts).1
  cases hu
  cases he : (cmdExec h (layout ts)).bind (commandEvent h now s.volume
      (((lineTokens h maxTokens (conLine s.con)).getD [])[1]?) (layout ts)) with
  | none => exact ⟨rfl,.inl rfl⟩
  | some e =>
    refine ⟨rfl,.inr ⟨e,rfl,?_⟩⟩
    obtain ⟨f,-,hf⟩ := Option.bind_eq_some_iff.mp he
    obtain ⟨hne,hptr⟩ := commandEvent_spec hf
    refine ⟨hne,fun p hp => ?_⟩
    have hp' : e.ptr = .tokenBuffer p := by
      cases hpe : e.ptr <;> simp_all [EventPtr.token]
    obtain ⟨hargc,rfl,horigin⟩ := hptr p hp'
    -- two tokens, and the pointer is that of the second
    rw [layout_argc] at hargc
    have h1 : ts[1]? = some (ts.getD 1 []) := by
      simp [List.getElem?_eq_getElem (show 1 < ts.length by omega)]
    have hstr := addTokens_str ⟨[],[]⟩ h1 (hz _ (List.mem_of_getElem? h1))
    rw [horigin,hts,Option.getD_some,h1]
    exact congrArg some hstr.symm

theorem plays_push {ev : Ev} {c : Cmd} {e : Event} (h : ∀ x ∈ pending ev, Designates c x)
    (hu : ev.used < maxEvents) (hd : Designates c e) :
    ∀ x ∈ pending (eventPush e ev), Designates c x := by
  intro x hx
  rw [pending_push hu,List.mem_append,List.mem_singleton] at hx
  obtain hx | rfl := hx
  · exact h x hx
  · exact hd

theorem PlayInv.congr {s t : Shell} (h : PlayInv s) (hcon : t.con = s.con) (hev : t.ev = s.ev)
    (hcmd : t.cmd = s.cmd) : PlayInv t :=
  ⟨by simpa [hev] using h.bounded,by simpa [hcon] using h.con,by simpa [hcon,hev] using h.line,
    by simpa [hev,hcmd] using h.plays⟩

/-- One more event behind the others. -/
theorem PlayInv.push {s : Shell} {e : Event} (h : PlayInv s) (hu : s.ev.used < maxEvents)
    (hl : s.con.lock = false) (he : e.type ≠ .conInput) (hd : Designates s.cmd e) :
    PlayInv (s.push e) := by
  refine ⟨?_,h.con,?_,plays_push h.plays hu hd⟩
  · simp only [Shell.push_ev,used_push hu]
    omega
  · have hline := h.line
    simp only [Shell.push_con,Shell.push_ev,pending_push hu,hl] at hline ⊢
    exact hline.push he

theorem designates_null (c : Cmd) {e : Event} (h : e.ptr = .null) : Designates c e := by
  intro p hp
  simp [h,EventPtr.token] at hp

theorem PlayInv.withCon {s : Shell} (h : PlayInv s) {con : Con} (hc : ConInv con)
    (hl : con.lock = s.con.lock) : PlayInv { s with con := con } :=
  ⟨h.bounded,hc,by simpa [hl] using h.line,h.plays⟩

/-- The return key locks the console behind its own event. -/
theorem PlayInv.enter {s : Shell} (h : PlayInv s) (hl : s.con.lock = false)
    (hu : s.ev.used+2 ≤ maxEvents) (now : UInt32) :
    PlayInv ((({ s with con := conInputLock s.con }).push (echoEvent now 10)).push
      (inputEvent now)) := by
  have h1 := h.push (e := echoEvent now 10) (by omega) hl (by simp [echoEvent])
    (designates_null _ rfl)
  have hu1 : (eventPush (echoEvent now 10) s.ev).used < maxEvents := by
    rw [used_push (by omega)]
    omega
  have hline := h1.line
  simp only [Shell.push_con,Shell.push_ev,hl] at hline
  refine ⟨?_,⟨h.con.room,h.con.clear⟩,?_,plays_push h1.plays hu1 (designates_null _ rfl)⟩
  · simp only [Shell.push_ev,used_push hu1]
    omega
  · simp only [Shell.push_con,Shell.push_ev,pending_push hu1,conInputLock_lock]
    exact hline.lock _

theorem PlayInv.usart {s : Shell} (h : PlayInv s) {ch : UInt8} {now : UInt32}
    (hf : ByteFits s (.usart ch now)) : PlayInv (usart3HandleIt ch now s) := by
  unfold usart3HandleIt
  split
  · exact h
  rename_i hl
  simp only [Bool.not_eq_true] at hl
  obtain hlock | ⟨rfl,hroom⟩ | ⟨hch,hroom,hline⟩ := hf
  · simp [hl] at hlock
  · exact h.enter hl hroom now
  rw [if_neg hch]
  split
  · exact (h.withCon h.con.del (by simp)).push hroom (by simpa using hl) (by simp [delEvent])
      (designates_null _ rfl)
  · rename_i hdel
    have hcon := h.con.push ch (.inr (hline.resolve_left hdel))
    exact (h.withCon hcon (by simp)).push hroom (by simpa using hl) (by simp [echoEvent])
      (designates_null _ rfl)

/-- The state after an event is taken from the queue. -/
theorem PlayInv.pop {s : Shell} (h : PlayInv s) : PlayInv { s with ev := (eventPop s.ev).2 } := by
  by_cases hlt : s.ev.tail < s.ev.head
  · have hline := h.line
    have hplays := h.plays
    have hb := h.bounded
    rw [pending_pop hlt] at hline hplays
    refine ⟨?_,h.con,hline.tail,fun e he => hplays e (List.mem_cons_of_mem _ he)⟩
    have hu := take_used s.ev (used_pos_of_lt s.ev hlt)
    simp only [eventPop_some hlt]
    omega
  · simpa [eventPop_none hlt] using h

/-- A line is handled when it is the only event left, so the tokens it overwrites
are no longer pointed to. -/
theorem PlayInv.input {h : Host} {behind : Str} {now : UInt32} {s u : Shell} (hs : PlayInv s)
    (hnil : pending s.ev = []) (hu : cmdInput h behind now s = some u) :
    PlayInv { u with con := conReset u.con } := by
  have hzero : s.ev.used = 0 := by simpa [pending] using congrArg List.length hnil
  have hmax : 0 < maxEvents := by decide
  obtain ⟨-,hev | ⟨e,hev,hne,hd⟩⟩ := cmdInput_spec hs.con hu
  · refine ⟨?_,conReset_inv _,?_,?_⟩
    · simp only [hev]
      exact hs.bounded
    · simp only [hev,hnil]
      exact ⟨by simp,by simp⟩
    · simp [hev,hnil]
  · have hp : pending u.ev = [e] := by rw [hev,pending_push (by omega),hnil,List.nil_append]
    refine ⟨?_,conReset_inv _,?_,?_⟩
    · simp only [hev,used_push (show s.ev.used < maxEvents by omega)]
      omega
    · simp only [hp]
      exact ⟨by simp,by simpa using hne⟩
    · simpa [hp] using hd

theorem PlayInv.event {h : Host} {behind : Str} {now : UInt32} {s t : Shell} (hs : PlayInv s)
    (ht : eventTurn h behind now s = some t) : PlayInv t := by
  have hpop := hs.pop
  obtain ⟨-,hcon,hev,hcmd⟩ | ⟨he,u,hu,hcon,hev,hcmd⟩ := handleEvent_cases ht
  · exact hpop.congr hcon hev hcmd
  · have hlt : s.ev.tail < s.ev.head := by
      by_contra hn
      simp [eventPop_none hn,Event.none] at he
    have hline := hs.line
    rw [pending_pop hlt] at hline
    have hi := hpop.input (hline.alone he) hu
    exact hi.congr hcon hev hcmd

theorem PlayInv.step {s t : Shell} {op : ShellOp} (hs : PlayInv s) (hf : ByteFits s op)
    (ht : shellStep .stm32 s op = some t) : PlayInv t := by
  cases op with
  | usart ch now =>
    cases ht
    exact hs.usart hf
  | poll chs now => cases ht
  | event behind now => exact hs.event ht

theorem pending_init : pending eventInit = [] := by simp [pending,contents,eventInit,used]

theorem shellInit_playInv : PlayInv shellInit where
  bounded := by simp [shellInit,eventInit,used]
  con := ⟨show 0 < maxConsoleInput by decide,fun _ _ => rfl⟩
  line := by
    simp only [shellInit,pending_init]
    exact ⟨by simp,by simp⟩
  plays := by simp [shellInit,pending_init]

/-- Whatever is typed and whenever, an argument is played as it was given, as long
as every byte finds room in the queue and in the line. -/
theorem shellRun_playIntact (ops : List ShellOp)
    (hg : Guarded (shellStep .stm32) ByteFits shellInit ops) :
    Always (shellStep .stm32) PlayIntact shellInit ops :=
  always_of_guarded (fun _ h => PlayInv.intact h) (fun _ _ _ h hf ht => h.step hf ht) ops _
    shellInit_playInv hg

def typed (s : List Char) : List ShellOp := (ascii s).map fun ch => .usart ch 0

def turns (n : Nat) : List ShellOp := List.replicate n (.event [] 0)

/-- A line typed in one go and handled, up to and with the play event. -/
def playTyped : List ShellOp := typed ['p','l','a','y',' ','c','\r'] ++ turns 9

theorem shellRun_playIntact_typed :
    Guarded (shellStep .stm32) ByteFits shellInit playTyped ∧
      Always (shellStep .stm32) PlayIntact shellInit playTyped :=
  have hg : Guarded (shellStep .stm32) ByteFits shellInit playTyped := by decide +kernel
  ⟨hg,shellRun_playIntact playTyped hg⟩

/-- One character more overfills the queue: the line is handled twice, the second
time empty, and so is the play event, whose argument is gone by then. -/
theorem shellRun_play_lost :
    ¬ Always (shellStep .stm32) PlayIntact shellInit
      (typed [' ','p','l','a','y',' ','c','\r'] ++ turns 9) := by
  decide +kernel

end Mardio
