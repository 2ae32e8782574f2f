import Mardio.Libmad

/-!
The sound device of the Linux host. The results of the library calls are
parameters: whether the parameters were accepted and whether the write succeeded.
-/

set_option autoImplicit false

namespace Mardio

structure Ss where
  state : SoundState
  rate : SoundRate
  channels : Nat
  deriving DecidableEq, Repr

structure SndWrite where
  setParams : Bool
  writei : Bool
  deriving DecidableEq, Repr

def SndWrite.accept : SndWrite := ⟨true,true⟩

def hostSndInit (opened : Bool) : Ss := ⟨if opened then .init else .error,.unknown,0⟩

def alsaSetup (ok : Bool) (rate : SoundRate) (channels : Nat) (ss : Ss) : Ss :=
  { ss with
    channels := channels
    rate := rate
    state := if ok then ss.state else .error }

def sndSuspend (ss : Ss) : Ss := if ss.state = .playing then { ss with state := .pause } else ss

/-- A failed `alsa_setup` is forgotten: the state is set to playing after the
write. -/
def hostSndPoll (volume : Nat) (o : SndWrite) (ss : Ss) (io : Io) : Ss × Io :=
  match oPop io with
  | (none,io) => ({ ss with state := .error },io)
  | (some p,io) =>
      let buff := io.output p
      if buff.rate = .unknown ∨ buff.channels = 0 ∨ buff.size = 0 then (sndSuspend ss,io)
      else
        let ss := if buff.rate ≠ ss.rate ∨ buff.channels ≠ ss.channels then
          alsaSetup o.setParams buff.rate buff.channels ss else ss
        let io := setOutput io p { buff with data := pcmApplyVolume buff.data (buff.used/2) volume }
        ({ ss with state := if o.writei then .playing else .error },io)

def sndTurns (pl : PlState) (volume : Nat) : Nat → List SndWrite → Ss → Io → Ss × Io
  | 0, _, ss, io => (ss,io)
  | fuel+1, os, ss, io =>
      if ss.state = .error then (ss,io)
      else if oUsed io = 0 then (sndSuspend ss,io)
      else if pl ≠ .playing then (ss,io)
      else
        let r := hostSndPoll volume (os.headD .accept) ss io
        if oUsed r.2 ≠ 0 then sndTurns pl volume fuel os.tail r.1 r.2 else r

/-- Every turn takes a buffer or fails, so the queued buffers bound the turns. -/
def hostSndLoop (pl : PlState) (volume : Nat) (os : List SndWrite) (ss : Ss) (io : Io) : Ss × Io :=
  sndTurns pl volume (io.o.queued+2) os ss io

theorem hostSndPoll_some (volume : Nat) (o : SndWrite) (ss : Ss) {io : Io}
    (h : io.o.tail < io.o.head) :
    (hostSndPoll volume o ss io).2.o = ⟨io.o.head,io.o.tail+1⟩ ∧
      (hostSndPoll volume o ss io).2.inRing = io.inRing := by
  simp only [hostSndPoll,oPop,popSlot_some maxOutputBuffers_lt io.o h]
  split <;> exact ⟨rfl,rfl⟩

theorem hostSndPoll_none (volume : Nat) (o : SndWrite) (ss : Ss) {io : Io}
    (h : ¬ io.o.tail < io.o.head) :
    hostSndPoll volume o ss io = ({ ss with state := .error },io) := by
  simp only [hostSndPoll,oPop,popSlot_none io.o h]

theorem sndTurns_failed (pl : PlState) (volume n : Nat) (os : List SndWrite) {ss : Ss} (io : Io)
    (h : ss.state = .error) : sndTurns pl volume n os ss io = (ss,io) := by
  cases n with
  | zero => rfl
  | succ n => rw [sndTurns,if_pos h]

/-- More fuel changes nothing, so the loop has ended by itself. -/
theorem sndTurns_enough (pl : PlState) (volume : Nat) (n : Nat) (os : List SndWrite) (ss : Ss)
    (io : Io) (h : io.o.queued+2 ≤ n) :
    sndTurns pl volume (n+1) os ss io = sndTurns pl volume n os ss io := by
  induction n generalizing os ss io with
  | zero => omega
  | succ n ih =>
    rw [sndTurns,sndTurns]
    split
    · rfl
    split
    · rfl
    split
    · rfl
    by_cases ho : io.o.tail < io.o.head
    · have hq := queued_pop io.o ho
      have hr := (hostSndPoll_some volume (os.headD .accept) ss ho).1
      rw [← hr] at hq
      simp only [ih os.tail _ _
        (by omega : (hostSndPoll volume (os.headD .accept) ss io).2.o.queued+2 ≤ n)]
    · simp only [hostSndPoll_none volume (os.headD .accept) ss ho]
      rw [sndTurns_failed _ _ _ _ _ rfl,sndTurns_failed _ _ _ _ _ rfl]

theorem sndTurns_rings (pl : PlState) (volume n : Nat) (os : List SndWrite) (ss : Ss) (io : Io) :
    (sndTurns pl volume n os ss io).2.inRing = io.inRing ∧
      (sndTurns pl volume n os ss io).2.o.head = io.o.head := by
  induction n generalizing os ss io with
  | zero => exact ⟨rfl,rfl⟩
  | succ n ih =>
    rw [sndTurns]
    split
    · exact ⟨rfl,rfl⟩
    split
    · exact ⟨rfl,rfl⟩
    split
    · exact ⟨rfl,rfl⟩
    have hpoll : (hostSndPoll volume (os.headD .accept) ss io).2.inRing = io.inRing ∧
        (hostSndPoll volume (os.headD .accept) ss io).2.o.head = io.o.head := by
      by_cases ho : io.o.tail < io.o.head
      · obtain ⟨hr,hin⟩ := hostSndPoll_some volume (os.headD .accept) ss ho
        exact ⟨hin,by rw [hr]⟩
      · rw [hostSndPoll_none volume (os.headD .accept) ss ho]
        exact ⟨rfl,rfl⟩
    simp only
    split
    · obtain ⟨hin,hhead⟩ := ih os.tail (hostSndPoll volume (os.headD .accept) ss io).1
        (hostSndPoll volume (os.headD .accept) ss io).2
      exact ⟨hin.trans hpoll.1,hhead.trans hpoll.2⟩
    · exact hpoll

theorem sndTurns_drains (volume n : Nat) (os : List SndWrite) (ss : Ss) (io : Io)
    (hn : io.o.queued < n) (hq : io.o.queued < 2^16) :
    (sndTurns .playing volume n os ss io).1.state = .error ∨
      (sndTurns .playing volume n os ss io).2.o.queued = 0 := by
  induction n generalizing os ss io with
  | zero => omega
  | succ n ih =>
    rw [sndTurns]
    split
    · exact .inl ‹_›
    split
    · exact .inr ((used_eq_zero_iff io.o hq).mp ‹_›)
    rw [if_neg (not_not.mpr rfl)]
    by_cases ho : io.o.tail < io.o.head
    · have hpop := queued_pop io.o ho
      rw [← (hostSndPoll_some volume (os.headD .accept) ss ho).1] at hpop
      simp only
      split
      · exact ih _ _ _ (by omega) (by omega)
      · rename_i hz
        exact .inr ((used_eq_zero_iff _ (by omega)).mp (not_not.mp hz))
    · simp only [hostSndPoll_none volume (os.headD .accept) ss ho]
      rw [sndTurns_failed _ _ _ _ _ rfl]
      split <;> exact .inl rfl

/-- While the player is playing the loop empties the ring or reports an error. -/
theorem hostSndLoop_drains (volume : Nat) (os : List SndWrite) (ss : Ss) (io : Io)
    (hq : io.o.queued < 2^16) :
    (hostSndLoop .playing volume os ss io).1.state = .error ∨
      (hostSndLoop .playing volume os ss io).2.o.queued = 0 :=
  sndTurns_drains volume _ os ss io (by omega) hq

theorem hostSndLoop_rings (pl : PlState) (volume : Nat) (os : List SndWrite) (ss : Ss) (io : Io) :
    (hostSndLoop pl volume os ss io).2.inRing = io.inRing ∧
      (hostSndLoop pl volume os ss io).2.o.head = io.o.head :=
  sndTurns_rings pl volume _ os ss io

theorem sndSuspend_error (ss : Ss) : (sndSuspend ss).state = .error ↔ ss.state = .error := by
  unfold sndSuspend
  split
  · simp_all
  · exact Iff.rfl

theorem hostSndLoop_quiet {pl : PlState} {io : Io} (hp : pl ≠ .playing ∨ io.o.queued = 0)
    (volume : Nat) (os : List SndWrite) (ss : Ss) : (hostSndLoop pl volume os ss io).2 = io ∧
      ((hostSndLoop pl volume os ss io).1.state = .error ↔ ss.state = .error) := by
  rw [hostSndLoop,sndTurns]
  by_cases he : ss.state = .error
  · rw [if_pos he]
    exact ⟨rfl,Iff.rfl⟩
  · rw [if_neg he]
    by_cases hu : oUsed io = 0
    · rw [if_pos hu]
      exact ⟨rfl,sndSuspend_error ss⟩
    · obtain hp | hz := hp
      · rw [if_neg hu,if_pos hp]
        exact ⟨rfl,Iff.rfl⟩
      · exact absurd ((used_eq_zero_iff io.o (by omega)).mpr hz) hu

theorem hostSndPoll_accept (volume : Nat) {ss : Ss} {io : Io} (hs : ss.state ≠ .error)
    (h : io.o.tail < io.o.head) : (hostSndPoll volume .accept ss io).1.state ≠ .error := by
  simp only [hostSndPoll,oPop,popSlot_some maxOutputBuffers_lt io.o h]
  split
  · exact fun he => hs ((sndSuspend_error ss).mp he)
  · simp [SndWrite.accept]

theorem hostSndLoop_one {ss : Ss} {io : Io} (hs : ss.state ≠ .error) (ht : io.o.tail < io.o.head)
    (h1 : io.o.queued = 1) (volume : Nat) :
    (hostSndLoop .playing volume [] ss io).1.state ≠ .error ∧
      (hostSndLoop .playing volume [] ss io).2.o = ⟨io.o.head,io.o.tail+1⟩ := by
  have hpop := queued_pop io.o ht
  obtain ⟨hr,_⟩ := hostSndPoll_some volume .accept ss ht
  rw [← hr] at hpop
  have hu : oUsed io ≠ 0 := by
    rw [oUsed,Ne,used_eq_zero_iff io.o (by omega)]
    omega
  have hu' : ¬ oUsed (hostSndPoll volume .accept ss io).2 ≠ 0 := by
    rw [not_not,oUsed,used_eq_zero_iff _ (by omega)]
    omega
  have heq : hostSndLoop .playing volume [] ss io = hostSndPoll volume .accept ss io := by
    rw [hostSndLoop,sndTurns,if_neg hs,if_neg hu,if_neg (not_not.mpr rfl)]
    exact if_neg hu'
  rw [heq]
  exact ⟨hostSndPoll_accept volume hs ht,hr⟩

end Mardio
