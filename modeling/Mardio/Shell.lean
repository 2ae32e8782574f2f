import Mardio.Commands
import Mardio.Console

/-!
The console, the event queue and the commands as one machine. Its steps are the
input calls of the two hosts and the handling of one event by the main loop.
-/

set_option autoImplicit false

namespace Mardio
open CounterRing Runs

structure Shell where
  con : Con
  ev : Ev
  cmd : Cmd
  volume : Nat

def shellInit : Shell := ⟨conInputUnlock conInit,eventInit,cmdInit,plDefVolume⟩

def Shell.push (s : Shell) (e : Event) : Shell := { s with ev := eventPush e s.ev }

def echoEvent (now : UInt32) (ch : UInt8) : Event := ⟨now,.conEcho,UInt32.ofNat ch.toNat,.null,none⟩
def delEvent (now : UInt32) : Event := ⟨now,.conDel,0,.null,none⟩
def inputEvent (now : UInt32) : Event := ⟨now,.conInput,0,.null,none⟩

def usart3HandleIt (ch : UInt8) (now : UInt32) (s : Shell) : Shell :=
  if s.con.lock then s
  else if ch = 13 then
    (({ s with con := conInputLock s.con }).push (echoEvent now 10)).push (inputEvent now)
  else if ch = 8 ∧ s.con.index ≠ 0 then
    ({ s with con := conInputDel s.con }).push (delEvent now)
  else ({ s with con := conInputPush ch s.con }).push (echoEvent now ch)

/-- The bytes of one `host_con_poll`, read until there are no more. What is read
on a locked console is lost. -/
def hostConPoll (now : UInt32) : Str → Shell → Shell
  | [], s => s
  | ch :: chs, s =>
      if s.con.lock then hostConPoll now chs s
      else
        let s := if ch = 10 then ({ s with con := conInputLock s.con }).push (inputEvent now) else s
        hostConPoll now chs { s with con := conInputPush ch s.con }

/-- The characters typed, as the string they are meant to be. -/
def conLine (con : Con) : Str := (conInputData con).take con.index ++ [0]

/-- `behind` is the memory behind the array of the line. -/
def cmdInput (h : Host) (behind : Str) (now : UInt32) (s : Shell) : Option Shell := do
  let cmd ← cmdTokenize h (conInputData s.con ++ behind)
  let second := ((lineTokens h maxTokens (conLine s.con)).getD [])[1]?
  let s := { s with cmd := cmd }
  pure (((cmdExec h cmd).bind (commandEvent h now s.volume second cmd)).elim s s.push)

/-- The player's reaction to play and stop is not part of this machine. The
volume is an 8-bit unsigned integer. -/
def handleEvent (h : Host) (behind : Str) (now : UInt32) (e : Event) (s : Shell) : Option Shell :=
  match e.type with
  | .conInput => (cmdInput h behind now s).map fun s => { s with con := conReset s.con }
  | .plVolup => some { s with volume := (plVolumeSet (s.volume+1) plInit).volume }
  | .plVoldown => some { s with volume := (plVolumeSet (s.volume+2^8-1) plInit).volume }
  | .plVolset => some { s with volume := (plVolumeSet e.par.toNat plInit).volume }
  | _ => some s

/-- One turn of the loop in `event_loop`. -/
def eventTurn (h : Host) (behind : Str) (now : UInt32) (s : Shell) : Option Shell :=
  handleEvent h behind now (eventPop s.ev).1 { s with ev := (eventPop s.ev).2 }

inductive ShellOp where
  | usart (ch : UInt8) (now : UInt32)
  | poll (chs : Str) (now : UInt32)
  | event (behind : Str) (now : UInt32)
  deriving DecidableEq, Repr

/-- Each host has its own input call. -/
def shellStep (h : Host) (s : Shell) : ShellOp → Option Shell
  | .usart ch now => if h = .stm32 then some (usart3HandleIt ch now s) else none
  | .poll chs now => if h = .linux then some (hostConPoll now chs s) else none
  | .event behind now => eventTurn h behind now s

@[simp] theorem Shell.push_con (s : Shell) (e : Event) : (s.push e).con = s.con := rfl
@[simp] theorem Shell.push_cmd (s : Shell) (e : Event) : (s.push e).cmd = s.cmd := rfl
@[simp] theorem Shell.push_ev (s : Shell) (e : Event) : (s.push e).ev = eventPush e s.ev := rfl

@[simp] theorem conInputPush_lock (ch : UInt8) (con : Con) :
    (conInputPush ch con).lock = con.lock := by
  unfold conInputPush
  split <;> rfl

@[simp] theorem conInputDel_lock (con : Con) : (conInputDel con).lock = con.lock := by
  unfold conInputDel
  split <;> rfl

@[simp] theorem conInputLock_lock (con : Con) : (conInputLock con).lock = true := rfl

@[simp] theorem conReset_lock (con : Con) : (conReset con).lock = false := rfl

/-- What the handling of an event does to the console, the queue and the tokens:
nothing, or for a line it runs the command and unlocks the console. -/
theorem handleEvent_cases {h : Host} {behind : Str} {now : UInt32} {e : Event} {s t : Shell}
    (hs : handleEvent h behind now e s = some t) :
    (e.type ≠ .conInput ∧ t.con = s.con ∧ t.ev = s.ev ∧ t.cmd = s.cmd) ∨
      (e.type = .conInput ∧ ∃ u, cmdInput h behind now s = some u ∧
        t.con = conReset u.con ∧ t.ev = u.ev ∧ t.cmd = u.cmd) := by
  unfold handleEvent at hs
  split at hs
  · rename_i he
    obtain ⟨u,hu,rfl⟩ := Option.map_eq_some_iff.mp hs
    exact .inr ⟨he,u,hu,rfl,rfl,rfl⟩
  all_goals
    rename_i he
    cases hs
    exact .inl ⟨by simp_all,rfl,rfl,rfl⟩

/-- Some position between the tail and the head holds the event of a line. -/
def InputQueued (ev : Ev) : Prop :=
  ∃ j < (ev.head-ev.tail).toNat, (ev.slots (slotOf maxEvents (ev.tail.toNat+j))).type = .conInput

def LockAnswered (s : Shell) : Prop := s.con.lock = true → InputQueued s.ev

theorem inputQueued_put {ev : Ev} {e : Event} (he : e.type = .conInput) (hu : ev.used+1 < 2^32) :
    InputQueued (ev.put e) := by
  have hnew := congrArg Prod.snd (put_entry_new maxEvents_dvd ev e)
  refine ⟨ev.used,?_,?_⟩
  · change ev.used < (ev.put e).used
    rw [put_used ev e hu]
    omega
  · simp only [entry] at hnew
    rw [hnew,he]

/-- Overflow or not, the event pushed last is stored right before the head. -/
theorem inputQueued_push (ev : Ev) {e : Event} (he : e.type = .conInput) :
    InputQueued (eventPush e ev) := by
  have hlt : ev.used < 2^32 := (ev.head-ev.tail).toNat_lt
  have hmax : maxEvents+1 < 2^32 := by decide
  rw [eventPush_eq]
  split
  · rename_i hover
    have htake := take_used ev (by omega)
    exact inputQueued_put he (by omega)
  · exact inputQueued_put he (by omega)

/-- Taking an event that is not the one of a line leaves that one queued. -/
theorem inputQueued_pop {ev : Ev} (h : InputQueued ev) (hne : (eventPop ev).1.type ≠ .conInput) :
    InputQueued (eventPop ev).2 := by
  by_cases hlt : ev.tail < ev.head
  · rw [eventPop_some hlt] at hne ⊢
    obtain ⟨j,hj,ht⟩ := h
    have hu := take_used ev (used_pos_of_lt ev hlt)
    have hj' : j < ev.used := hj
    cases j with
    | zero => exact absurd ht hne
    | succ j =>
      have hentry := congrArg Prod.snd (take_entry maxEvents_dvd ev j)
      simp only [entry] at hentry
      refine ⟨j,?_,?_⟩
      · change j < ev.take.used
        omega
      · rw [hentry]
        exact ht
  · rwa [eventPop_none hlt]

theorem usart_lockAnswered {s : Shell} (h : LockAnswered s) (ch : UInt8) (now : UInt32) :
    LockAnswered (usart3HandleIt ch now s) := by
  unfold usart3HandleIt
  split
  · exact h
  split
  · exact fun _ => inputQueued_push _ rfl
  · rename_i hl _
    split <;> exact fun hl' => absurd hl' (by simpa using hl)

theorem poll_lockAnswered {s : Shell} (h : LockAnswered s) (chs : Str) (now : UInt32) :
    LockAnswered (hostConPoll now chs s) := by
  induction chs generalizing s with
  | nil => exact h
  | cons ch chs ih =>
    unfold hostConPoll
    split
    · exact ih h
    · rename_i hl
      apply ih
      split
      · exact fun _ => inputQueued_push _ rfl
      · exact fun hl' => absurd hl' (by simpa using hl)

theorem event_lockAnswered {h : Host} {behind : Str} {now : UInt32} {s t : Shell}
    (hs : LockAnswered s) (ht : eventTurn h behind now s = some t) : LockAnswered t := by
  obtain ⟨hne,hcon,hev,-⟩ | ⟨-,u,-,hcon,-⟩ := handleEvent_cases ht
  · intro hl
    rw [hev]
    exact inputQueued_pop (hs (by simpa [hcon] using hl)) hne
  · intro hl
    simp [hcon] at hl

/-- A locked console always has the event queued that will unlock it, whatever
was typed, executed or overwritten before. The machine may start with any line,
queue and tokens that the initialisation leaves behind. -/
theorem shellRun_lockAnswered (h : Host) (con : Con) (ev : Ev) (cmd : Cmd) (volume : Nat)
    (ops : List ShellOp) :
    Always (shellStep h) LockAnswered ⟨conInputUnlock con,ev,cmd,volume⟩ ops := by
  refine always_of_invariant (fun _ hs => hs) (fun s op t hs ht => ?_) ops _ (fun hl => by cases hl)
  cases op with
  | usart ch now =>
    obtain ⟨-,⟨⟩⟩ := Option.ite_none_right_eq_some.mp ht
    exact usart_lockAnswered hs ch now
  | poll chs now =>
    obtain ⟨-,⟨⟩⟩ := Option.ite_none_right_eq_some.mp ht
    exact poll_lockAnswered hs chs now
  | event behind now => exact event_lockAnswered hs ht

end Mardio
