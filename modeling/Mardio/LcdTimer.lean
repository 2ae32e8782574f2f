import Mardio.Lcd
import Mardio.Player

/-!
The display over the clock. Two messages are shown for a while, each with the time at
which it ends, and one function ends them: it takes the volume first and looks at the
other one only when the volume has not ended. The clock counts milliseconds in 32 bits.
-/

set_option autoImplicit false

namespace Mardio

structure LcdTimer where
  timeout : UInt32
  active : Bool
  deriving DecidableEq, Repr

def LcdTimer.off : LcdTimer := ⟨0,false⟩

/-- `LCD_TIMEOUT_VOLUME` and `LCD_TIMEOUT_MEDIA`. -/
def lcdTimeoutVolume : UInt32 := 3000
def lcdTimeoutMedia : UInt32 := 3000

/-- The state of `lcd.c`, with the display of the host. -/
structure LcdState (σ : Type) where
  volume : LcdTimer
  media : LcdTimer
  error : Bool
  host : σ
  deriving DecidableEq, Repr

/-- What a call reads elsewhere: the clock and the player. -/
structure LcdEnv where
  time : UInt32
  state : PlState
  source : PlSource
  volume : UInt8
  deriving DecidableEq, Repr

inductive LcdStage where
  | blank | init | wellcome
  deriving DecidableEq, Repr

inductive LcdErr where
  | common | init | net | fs | sound | libmad
  deriving DecidableEq, Repr

def LcdStage.resource : LcdStage → LcdResource
  | .blank => .blank
  | .init => .startup
  | .wellcome => .wellcome

def LcdErr.resource : LcdErr → LcdResource
  | .common => .error
  | .init => .errorInit
  | .net => .errorNet
  | .fs => .errorFs
  | .sound => .errorSound
  | .libmad => .errorLibmad

/-- `volume + LR_VOLUME_00`. The pictures go up to 15 and the volume to 16, which is then
a value outside the enumeration. -/
def volumeResource (volume : UInt8) : Option LcdResource :=
  if h : volume.toNat < 16 then some (.volume ⟨volume.toNat,h⟩) else none

section
variable {σ : Type} (draw : Option LcdResource → σ → σ)

def lcdReset (s : LcdState σ) : LcdState σ :=
  { s with volume := .off, media := .off, error := false }

def lcdDraw (resource : Option LcdResource) (s : LcdState σ) : LcdState σ :=
  if s.error then s else { s with host := draw resource s.host }

/-- The code behind the label `event`. -/
def lcdTimerEvent (e : LcdEnv) (s : LcdState σ) : LcdState σ :=
  if e.state = .playing then
    match e.source with
    | .net => lcdDraw draw (some .radio) s
    | .file => lcdDraw draw (some .file) s
    | .unknown => s
  else lcdDraw draw (some .wellcome) s

def lcdTimer (e : LcdEnv) (s : LcdState σ) : LcdState σ :=
  if s.volume.active ∧ s.volume.timeout < e.time then lcdTimerEvent draw e { s with volume := .off }
  else if s.media.active ∧ s.media.timeout < e.time
    then lcdTimerEvent draw e { s with media := .off }
  else s

def lcdPoll (e : LcdEnv) (s : LcdState σ) : LcdState σ := if s.error then s else lcdTimer draw e s

def lcdStartup (stage : LcdStage) (s : LcdState σ) : LcdState σ :=
  lcdDraw draw (some stage.resource) s

def lcdError (err : LcdErr) (s : LcdState σ) : LcdState σ :=
  { lcdDraw draw (some err.resource) s with error := true }

def lcdPlay (e : LcdEnv) (s : LcdState σ) : LcdState σ :=
  { lcdDraw draw (some .play) s with media := ⟨lcdTimeoutMedia+e.time,true⟩ }

def lcdStop (e : LcdEnv) (s : LcdState σ) : LcdState σ :=
  { lcdDraw draw (some .stop) s with media := ⟨lcdTimeoutMedia+e.time,true⟩ }

def lcdVolume (e : LcdEnv) (s : LcdState σ) : LcdState σ :=
  { lcdDraw draw (volumeResource e.volume) s with volume := ⟨lcdTimeoutVolume+e.time,true⟩ }

inductive LcdCall where
  | reset | timer | poll
  | startup (stage : LcdStage)
  | error (err : LcdErr)
  | play | stop | volume
  deriving DecidableEq, Repr

def displayCall (e : LcdEnv) (c : LcdCall) (s : LcdState σ) : LcdState σ :=
  match c with
  | .reset => lcdReset s
  | .timer => lcdTimer draw e s
  | .poll => lcdPoll draw e s
  | .startup stage => lcdStartup draw stage s
  | .error err => lcdError draw err s
  | .play => lcdPlay draw e s
  | .stop => lcdStop draw e s
  | .volume => lcdVolume draw e s

end

/-! The two timers by name. -/

inductive Message where
  | volume | media
  deriving DecidableEq, Repr

def LcdState.timer {σ : Type} (s : LcdState σ) : Message → LcdTimer
  | .volume => s.volume
  | .media => s.media

def Message.timeout : Message → UInt32
  | .volume => lcdTimeoutVolume
  | .media => lcdTimeoutMedia

/-- The timer that a call arms. -/
def LcdCall.arms : LcdCall → Option Message
  | .play | .stop => some .media
  | .volume => some .volume
  | .reset | .timer | .poll | .startup _ | .error _ => none

section
variable {σ : Type} {draw : Option LcdResource → σ → σ} {m : Message} {s : LcdState σ}

@[simp] theorem lcdDraw_timer (resource : Option LcdResource) (s : LcdState σ) (m : Message) :
    (lcdDraw draw resource s).timer m = s.timer m := by
  rw [lcdDraw]
  split
  · rfl
  · cases m <;> rfl

@[simp] theorem lcdTimerEvent_timer (e : LcdEnv) (s : LcdState σ) (m : Message) :
    (lcdTimerEvent draw e s).timer m = s.timer m := by
  rw [lcdTimerEvent]
  split
  · split <;> simp
  · simp

theorem displayCall_arms {c : LcdCall} (hc : c.arms = some m) (e : LcdEnv) (s : LcdState σ) :
    (displayCall draw e c s).timer m = ⟨m.timeout+e.time,true⟩ := by
  cases c <;> cases hc <;> rfl

/-- The message has an end, and the clock is behind it. -/
def LcdState.due (s : LcdState σ) (m : Message) (now : UInt32) : Prop :=
  (s.timer m).active = true ∧ (s.timer m).timeout < now

instance (s : LcdState σ) (m : Message) (now : UInt32) : Decidable (s.due m now) :=
  inferInstanceAs (Decidable (_ ∧ _))

/-- The volume goes first. -/
def LcdState.ends (s : LcdState σ) (m : Message) (now : UInt32) : Prop :=
  s.due m now ∧ (m = .media → ¬ s.due .volume now)

theorem lcdTimer_eq (e : LcdEnv) (s : LcdState σ) :
    lcdTimer draw e s =
      if s.due .volume e.time then lcdTimerEvent draw e { s with volume := .off }
      else if s.due .media e.time then lcdTimerEvent draw e { s with media := .off }
      else s := rfl

theorem lcdTimer_timer (draw : Option LcdResource → σ → σ) (e : LcdEnv) (s : LcdState σ)
    (m : Message) :
    (s.ends m e.time ∧ (lcdTimer draw e s).timer m = .off) ∨
      (¬ s.ends m e.time ∧ (lcdTimer draw e s).timer m = s.timer m) := by
  rw [lcdTimer_eq]
  by_cases hv : s.due .volume e.time
  · rw [if_pos hv]
    cases m with
    | volume => exact .inl ⟨⟨hv,by simp⟩,lcdTimerEvent_timer e _ _⟩
    | media => exact .inr ⟨fun h => h.2 rfl hv,lcdTimerEvent_timer e _ _⟩
  · rw [if_neg hv]
    by_cases hm : s.due .media e.time
    · rw [if_pos hm]
      cases m with
      | volume => exact .inr ⟨fun h => hv h.1,lcdTimerEvent_timer e _ _⟩
      | media => exact .inl ⟨⟨hm,fun _ => hv⟩,lcdTimerEvent_timer e _ _⟩
    · rw [if_neg hm]
      cases m with
      | volume => exact .inr ⟨fun h => hv h.1,rfl⟩
      | media => exact .inr ⟨fun h => hm h.1,rfl⟩

/-- What a call does to a timer that it does not arm. -/
theorem displayCall_timer (draw : Option LcdResource → σ → σ) {c : LcdCall} (hc : c.arms ≠ some m)
    (e : LcdEnv) (s : LcdState σ) :
    (displayCall draw e c s).timer m = s.timer m ∨ (displayCall draw e c s).timer m = .off := by
  have htimer : (lcdTimer draw e s).timer m = s.timer m ∨ (lcdTimer draw e s).timer m = .off :=
    (lcdTimer_timer draw e s m).elim (fun h => .inr h.2) fun h => .inl h.2
  cases c with
  | reset => exact .inr (by cases m <;> rfl)
  | timer => exact htimer
  | poll =>
    rw [displayCall,lcdPoll]
    split
    · exact .inl rfl
    · exact htimer
  | startup stage => exact .inl (lcdDraw_timer _ s m)
  | error err =>
    left
    cases m with
    | volume => exact lcdDraw_timer _ s .volume
    | media => exact lcdDraw_timer _ s .media
  | play | stop =>
    left
    cases m with
    | volume => exact lcdDraw_timer _ s .volume
    | media => exact absurd rfl hc
  | volume =>
    left
    cases m with
    | volume => exact absurd rfl hc
    | media => exact lcdDraw_timer _ s .media

/-- A message has been shown since `start` and has not been ended: after the call that
armed its timer come calls of any kind at any times but no other one that arms it. -/
inductive ShownSince (draw : Option LcdResource → σ → σ) (m : Message) (start : UInt32) :
    LcdState σ → Prop where
  | armed (s : LcdState σ) (e : LcdEnv) (c : LcdCall) : c.arms = some m → e.time = start →
      ShownSince draw m start (displayCall draw e c s)
  | later (s : LcdState σ) (e : LcdEnv) (c : LcdCall) :
      ShownSince draw m start s → c.arms ≠ some m →
      ((displayCall draw e c s).timer m).active = true →
        ShownSince draw m start (displayCall draw e c s)

theorem ShownSince.timer {start : UInt32} (h : ShownSince draw m start s) :
    s.timer m = ⟨m.timeout+start,true⟩ := by
  induction h with
  | armed s e c hc he => rw [displayCall_arms hc,he]
  | later s e c _ hc hactive ih =>
    rcases displayCall_timer draw hc e s with hsame | hoff
    · exact hsame.trans ih
    · simp [hoff,LcdTimer.off] at hactive

/-- A deadline kept in 32 bits and compared as it is. The comparison is right exactly
when the deadline and the clock have both gone round or neither has. -/
theorem deadline_lt_iff (start d now : UInt32) :
    (d+start < now ↔ d.toNat < (now-start).toNat) ↔ (start.toNat+d.toNat < 2^32 ↔ start ≤ now) := by
  have hstart := start.toNat_lt
  have hd := d.toNat_lt
  have hnow := now.toNat_lt
  rw [UInt32.lt_iff_toNat_lt,UInt32.le_iff_toNat_le,UInt32.toNat_add,UInt32.toNat_sub]
  omega

/-- The deadline is beyond the wrap of the clock exactly when the clock is. Where the
volume ends in the same call, the other message is not due. -/
def InTime (s : LcdState σ) (m : Message) (start now : UInt32) : Prop :=
  if m = .media ∧ s.due .volume now then (now-start).toNat ≤ m.timeout.toNat
  else (start.toNat+m.timeout.toNat < 2^32 ↔ start ≤ now)

instance (s : LcdState σ) (m : Message) (start now : UInt32) : Decidable (InTime s m start now) :=
  inferInstanceAs (Decidable (if m = .media ∧ s.due .volume now
    then (now-start).toNat ≤ m.timeout.toNat
    else (start.toNat+m.timeout.toNat < 2^32 ↔ start ≤ now)))

theorem ShownSince.active_iff {start : UInt32} (h : ShownSince draw m start s) (e : LcdEnv) :
    ((lcdTimer draw e s).timer m).active = false ↔ s.ends m e.time := by
  obtain ⟨hends,hoff⟩ | ⟨hstays,hsame⟩ := lcdTimer_timer draw e s m
  · simp [hoff,hends,LcdTimer.off]
  · simp [hsame,hstays,h.timer]

theorem ShownSince.due_iff {start : UInt32} (h : ShownSince draw m start s) (now : UInt32) :
    s.due m now ↔ m.timeout+start < now := by
  simp [LcdState.due,h.timer]

/-- Whatever was called since, a call of `lcd_timer` ends a message exactly when its time
is over, as long as the clock allows it and the volume does not go first. -/
theorem lcdTimer_expires_iff {start : UInt32} (h : ShownSince draw m start s) (e : LcdEnv) :
    (((lcdTimer draw e s).timer m).active = false ↔ m.timeout.toNat < (e.time-start).toNat) ↔
      InTime s m start e.time := by
  rw [h.active_iff,LcdState.ends,h.due_iff,InTime]
  by_cases hfirst : m = .media ∧ s.due .volume e.time
  · have hwaits : ¬ (m.timeout+start < e.time ∧ (m = .media → ¬ s.due .volume e.time)) :=
      fun hends => hends.2 hfirst.1 hfirst.2
    rw [if_pos hfirst,iff_false_left hwaits,Nat.not_lt]
  · rw [if_neg hfirst,and_iff_left (not_and.mp hfirst),deadline_lt_iff]

/-- Shown at the start of the clock and ended three seconds later. -/
theorem lcdTimer_expires_after_start :
    ShownSince (fun _ _ => ()) .media 0
      (lcdPlay (fun _ _ => ()) ⟨0,.playing,.file,8⟩ ⟨.off,.off,false,()⟩) ∧
      (lcdTimer (fun _ _ => ()) ⟨3010,.playing,.file,8⟩
        (lcdPlay (fun _ _ => ()) ⟨0,.playing,.file,8⟩ ⟨.off,.off,false,()⟩)).media.active = false :=
  have h : ShownSince (fun _ _ => ()) .media 0
      (lcdPlay (fun _ _ => ()) ⟨0,.playing,.file,8⟩ ⟨.off,.off,false,()⟩) :=
    .armed ⟨.off,.off,false,()⟩ ⟨0,.playing,.file,8⟩ .play rfl rfl
  ⟨h,((lcdTimer_expires_iff h ⟨3010,.playing,.file,8⟩).mpr (by decide)).mpr (by decide)⟩

/-- The volume is shown at the time `start`. -/
def volumeShown (start : UInt32) : LcdState Unit :=
  lcdVolume (fun _ _ => ()) ⟨start,.playing,.file,8⟩ ⟨.off,.off,false,()⟩

/-- Ten milliseconds after it was shown the volume is ended, with the deadline behind the
wrap of the clock; one whose deadline is the last tick before the wrap is still there four
seconds later; and where both are over, the volume alone is ended. -/
theorem lcdTimer_at_the_wrap :
    ¬ (((lcdTimer (fun _ _ => ()) ⟨4294966300,.playing,.file,8⟩ (volumeShown 4294966290)).timer
      .volume).active = false ↔
        Message.volume.timeout.toNat < ((4294966300 : UInt32)-4294966290).toNat) ∧
    ¬ (((lcdTimer (fun _ _ => ()) ⟨1004,.playing,.file,8⟩ (volumeShown 4294964290)).timer
      .volume).active = false ↔
        Message.volume.timeout.toNat < ((1004 : UInt32)-4294964290).toNat) ∧
    ¬ (((lcdTimer (fun _ _ => ()) ⟨5000,.playing,.file,8⟩
          (lcdPlay (fun _ _ => ()) ⟨10,.playing,.file,8⟩ (volumeShown 0))).timer .media).active =
            false ↔
        Message.media.timeout.toNat < ((5000 : UInt32)-10).toNat) := by decide

/-! What is drawn. -/

/-- From `s` to `t` one picture at most is drawn, and none while an error is shown. -/
def DrawsOnce (draw : Option LcdResource → σ → σ) (s t : LcdState σ) : Prop :=
  t.host = s.host ∨ s.error = false ∧ ∃ resource : Option LcdResource, t.host = draw resource s.host

theorem lcdDraw_draws (draw : Option LcdResource → σ → σ) (resource : Option LcdResource)
    (s : LcdState σ) :
    DrawsOnce draw s (lcdDraw draw resource s) ∧ (lcdDraw draw resource s).error = s.error := by
  rw [lcdDraw]
  by_cases herror : s.error = true
  · rw [if_pos herror]
    exact ⟨.inl rfl,rfl⟩
  · rw [if_neg herror]
    exact ⟨.inr ⟨Bool.eq_false_of_not_eq_true herror,resource,rfl⟩,rfl⟩

theorem lcdTimerEvent_draws (draw : Option LcdResource → σ → σ) (e : LcdEnv) (s : LcdState σ) :
    DrawsOnce draw s (lcdTimerEvent draw e s) ∧ (lcdTimerEvent draw e s).error = s.error := by
  rw [lcdTimerEvent]
  split
  · split
    · exact lcdDraw_draws draw _ s
    · exact lcdDraw_draws draw _ s
    · exact ⟨.inl rfl,rfl⟩
  · exact lcdDraw_draws draw _ s

theorem lcdTimer_draws (draw : Option LcdResource → σ → σ) (e : LcdEnv) (s : LcdState σ) :
    DrawsOnce draw s (lcdTimer draw e s) ∧ (lcdTimer draw e s).error = s.error := by
  rw [lcdTimer]
  split
  · exact lcdTimerEvent_draws draw e { s with volume := .off }
  · split
    · exact lcdTimerEvent_draws draw e { s with media := .off }
    · exact ⟨.inl rfl,rfl⟩

theorem displayCall_draws (draw : Option LcdResource → σ → σ) (e : LcdEnv) (c : LcdCall)
    (s : LcdState σ) :
    DrawsOnce draw s (displayCall draw e c s) ∧
      (c ≠ .reset → s.error = true → (displayCall draw e c s).error = true) := by
  have hpicture (resource : Option LcdResource) : DrawsOnce draw s (lcdDraw draw resource s) ∧
      (c ≠ .reset → s.error = true → (lcdDraw draw resource s).error = true) := by
    obtain ⟨hdraws,herror⟩ := lcdDraw_draws draw resource s
    exact ⟨hdraws,fun _ => herror.trans⟩
  have htimer : DrawsOnce draw s (lcdTimer draw e s) ∧
      (c ≠ .reset → s.error = true → (lcdTimer draw e s).error = true) := by
    obtain ⟨hdraws,herror⟩ := lcdTimer_draws draw e s
    exact ⟨hdraws,fun _ => herror.trans⟩
  cases c with
  | reset => exact ⟨.inl rfl,fun hc => absurd rfl hc⟩
  | timer => exact htimer
  | poll =>
    rw [displayCall,lcdPoll]
    split
    · exact ⟨.inl rfl,fun _ => id⟩
    · exact htimer
  | startup stage => exact hpicture (some stage.resource)
  | error err => exact ⟨(hpicture (some err.resource)).1,fun _ _ => rfl⟩
  | play => exact hpicture (some .play)
  | stop => exact hpicture (some .stop)
  | volume => exact hpicture (volumeResource e.volume)

def displayRun (draw : Option LcdResource → σ → σ) (calls : List (LcdEnv × LcdCall))
    (s : LcdState σ) : LcdState σ :=
  calls.foldl (fun s c => displayCall draw c.1 c.2 s) s

/-- What is on the display stays there once an error is shown, up to the next reset. -/
theorem displayRun_silent (draw : Option LcdResource → σ → σ) (calls : List (LcdEnv × LcdCall))
    (s : LcdState σ) (hs : s.error = true) (hcalls : ∀ c ∈ calls, c.2 ≠ .reset) :
    (displayRun draw calls s).host = s.host := by
  induction calls generalizing s with
  | nil => rfl
  | cons c calls ih =>
    obtain ⟨hfirst,hrest⟩ := List.forall_mem_cons.mp hcalls
    obtain ⟨hdraws,herror⟩ := displayCall_draws draw c.1 c.2 s
    have hsame : (displayCall draw c.1 c.2 s).host = s.host :=
      hdraws.resolve_right fun h => by simp [hs] at h
    exact (ih (displayCall draw c.1 c.2 s) (herror hfirst hs) hrest).trans hsame

end

/-- On the board a value outside the enumeration leaves the picture blank. -/
def boardDraw (gfx : Gfx) (resource : Option LcdResource) (s : Lcd) : Lcd :=
  hostLcdDraw gfx (resource.getD .blank) s

/-- The calls keep the panel ready for the next transfer. -/
theorem displayRun_ready (gfx : Gfx) (calls : List (LcdEnv × LcdCall)) (s : LcdState Lcd)
    (hs : LcdReady s.host) :
    LcdReady (displayRun (boardDraw gfx) calls s).host := by
  induction calls generalizing s with
  | nil => exact hs
  | cons c calls ih =>
    refine ih (displayCall (boardDraw gfx) c.1 c.2 s) ?_
    rcases (displayCall_draws (boardDraw gfx) c.1 c.2 s).1 with hsame | ⟨-,resource,hdrawn⟩
    · rw [hsame]
      exact hs
    · rw [hdrawn]
      exact (hs.draw gfx (resource.getD .blank)).1

end Mardio
