import Mardio.PlayerInv

/-!
The account of open handles, and the player state after a play. Both go wrong on
files that a play does not accept.
-/

set_option autoImplicit false

namespace Mardio
open Runs

def openHandles (fs : Fs) : Nat :=
  (List.range maxOpenFiles).countP fun i => (fs.handles i).source != .closed

def Accounted (s : Sys) : Prop := openHandles s.fs = if s.fs.handle ≠ -1 then 1 else 0

instance (s : Sys) : Decidable (Accounted s) := inferInstanceAs (Decidable (_ = _))

def AllClosed (src : Nat → FsSource) : Prop := ∀ n, src n = .closed

theorem openHandles_zero {fs : Fs} (h : AllClosed fs.sources) : openHandles fs = 0 := by
  rw [openHandles,List.countP_eq_zero]
  intro i _
  have hi : (fs.handles i).source = .closed := h i
  simp [hi]

theorem openHandles_one {base fs : Fs} {h : Int} {e : FsHandle} (ho : Opened base h e fs)
    (hb : AllClosed base.sources) : openHandles fs = 1 := by
  have hmem : h.toNat ∈ List.range maxOpenFiles := by
    have hi := ho.inTable
    unfold InTable at hi
    exact List.mem_range.mpr (by omega)
  have hcount : (List.range maxOpenFiles).count h.toNat = 1 :=
    List.count_eq_one_of_mem List.nodup_range hmem
  rw [openHandles,← hcount,List.count]
  refine List.countP_congr fun i _ => ?_
  by_cases hi : i = h.toNat
  · have hs := ho.source
    simp [hi,ho.entry,hs]
  · have hc : (base.handles i).source = .closed := hb i
    simp [hi,ho.others i hi,hc]

theorem FileInv.accounted {s : Sys} (h : FileInv AllClosed s.fs) : Accounted s := by
  obtain ⟨hh,_,hq⟩ | ⟨_,base,e,f,ho,hq,_,_⟩ := h
  · rw [Accounted,openHandles_zero hq,if_neg (fun hn => hn hh)]
  · rw [Accounted,openHandles_one ho hq,if_pos ho.inTable.ne_neg]

/-- The call plays no file that passes for RIFF and whose chunks are then
rejected. -/
def NoReject (s : Sys) : SysOp → Prop
  | .play w _ what => isHttp what = true ∨ (plReset s).fs.outcome w what ≠ some .leaked
  | _ => True

theorem plSwitch_fs {s : Sys} (h : s.pl.state = .stop) : (plSwitch s).fs = s.fs := by
  unfold plSwitch
  split <;> simp [plStop,h,PlState.active,setPlState]

theorem SysInv.reject {s : Sys} {op : SysOp} (h : SysInv AllClosed s) (hn : ¬ NoReject s op) :
    ∃ t, sysStep s op = some t ∧ ¬ Accounted t := by
  cases op with
  | play w o what =>
    obtain ⟨hu,hout⟩ := not_or.mp hn
    have hu : isHttp what = false := by simpa using hu
    have hout := not_not.mp hout
    obtain ⟨_,hst,hh,_,_,hq⟩ := h.reset
    obtain ⟨fs,hf⟩ := fsPlay_returns hout
    have hp : plPlay w o what s = some (plSwitch (withFile (plReset s) fs)) := by
      rw [plPlay_name hu,hf,Option.map_some]
    refine ⟨_,hp,fun hacc => ?_⟩
    obtain ⟨out,ho,he⟩ := fsPlay_outcome hh hf
    cases hout.symm.trans ho
    obtain ⟨hs,base,i,e,hop,hsrc⟩ := he
    have hbase : AllClosed base.sources := fun n => (hsrc n).trans (hq n)
    rw [Accounted,plSwitch_fs (show (withFile (plReset s) fs).pl.state = .stop from hst)] at hacc
    have hone : openHandles (withFile (plReset s) fs).fs = 1 := openHandles_one hop hbase
    have hidle : (withFile (plReset s) fs).fs.handle = -1 := hs.handle.trans hh
    rw [hone,if_neg (fun hne => hne hidle)] at hacc
    cases hacc
  | _ => exact absurd trivial hn

/-- The account is right along exactly those runs that never play a RIFF file
whose chunks are rejected. -/
theorem sysRun_accounted_iff (entries : List ResEntry) (snd : Bool) (ops : List SysOp) :
    Always sysStep Accounted (sysInit entries snd) ops ↔
      Guarded sysStep NoReject (sysInit entries snd) ops := by
  refine always_iff_guarded (fun _ h => FileInv.accounted (SysInv.file h)) ?_
    (fun _ _ h hn => SysInv.reject h hn) ops _ (sysInit_inv entries snd fun _ => rfl)
  intro s op t h hn hs
  refine h.step hs fun w o what hop hu hl => ?_
  subst hop
  obtain hh | hne := hn
  · rw [hu] at hh
    cases hh
  · exact absurd hl hne

/-- A 48-byte RIFF/WAVE file whose first chunk is none of the known ones. -/
def unknownChunkFile : List UInt8 :=
  [0x52,0x49,0x46,0x46,0,0,0,0,0x57,0x41,0x56,0x45,0x4c,0x49,0x53,0x54] ++ List.replicate 32 0

def noNet : NetOpen := ⟨false,-1,false,false,false,none⟩

def hostWith (content : Option (List UInt8)) : World :=
  ⟨fun _ => content,none,none,fun _ => 0,64,8⟩

theorem sysRun_leaks :
    ¬ Always sysStep Accounted (sysInit [] true)
      [.play (hostWith (some unknownChunkFile)) noNet [0x61]] := by
  decide

def FileOpen (s : Sys) : Prop := s.fs.state = .opened ∧ s.fs.handle ≠ -1

instance (s : Sys) : Decidable (FileOpen s) := inferInstanceAs (Decidable (_ ∧ _))

/-- The player is active exactly when a file is open, playing a RIFF file and
buffering for an MP3 file. -/
def Agrees (s : Sys) : Prop :=
  (s.pl.state.active = true ↔ FileOpen s) ∧
    (s.pl.state = .playing ↔ FileOpen s ∧ s.fs.type = .riff) ∧
    (s.pl.state = .buffering ↔ FileOpen s ∧ s.fs.type = .mp3)

instance (s : Sys) : Decidable (Agrees s) := inferInstanceAs (Decidable (_ ∧ _))

/-- The name leads to a file that a play accepts, with a handle free for it. -/
def Playable (w : World) (what : Str) (s : Sys) : Prop :=
  ∃ out, (plReset s).fs.outcome w what = some out ∧ out.plays = true

theorem plReset_type {Q : (Nat → FsSource) → Prop} {s : Sys} (h : SysInv Q s) :
    (plReset s).fs.type = s.fs.type := by
  simp only [plReset,plStop]
  split
  · exact h.file.stop.2.2.2
  · rfl

theorem FileInv.fileOpen_iff {Q : (Nat → FsSource) → Prop} {s : Sys} (h : FileInv Q s.fs) :
    FileOpen s ↔ s.fs.handle ≠ -1 := by
  refine ⟨fun ho => ho.2,fun hne => ⟨?_,hne⟩⟩
  obtain ⟨hh,_⟩ | ⟨hst,_⟩ := h
  · exact absurd hh hne
  · exact hst

theorem plSwitch_agrees {s : Sys} (hty : s.fs.type = .mp3 ∨ s.fs.type = .riff) :
    Agrees (plSwitch s) ↔ FileOpen s := by
  obtain hty | hty := hty
  · have ho : FileOpen (setPlState s .buffering) ↔ FileOpen s := Iff.rfl
    have ht : (setPlState s .buffering).fs.type = .mp3 := hty
    have hst : (setPlState s .buffering).pl.state = .buffering := rfl
    rw [plSwitch_mp3 hty,Agrees,ho,ht,hst]
    simp [PlState.active]
  · have ho : FileOpen (setPlState s .playing) ↔ FileOpen s := Iff.rfl
    have ht : (setPlState s .playing).fs.type = .riff := hty
    have hst : (setPlState s .playing).pl.state = .playing := rfl
    rw [plSwitch_riff hty,Agrees,ho,ht,hst]
    simp [PlState.active]

def AgreesWhen (s : Sys) : Prop :=
  ∀ w o what t, isHttp what = false → plPlay w o what s = some t →
    (Agrees t ↔ s.fs.type = .unknown ∨ Playable w what s)

theorem SysInv.agreesWhen {s : Sys} (h : SysInv (fun _ => True) s) : AgreesWhen s := by
  intro w o what t hu hp
  obtain ⟨hr,hst,hh,hcl,_,_⟩ := h.reset
  obtain ⟨out,fs,ho,he,rfl⟩ := plPlay_file h hu hp
  obtain ⟨hf,hno,hyes⟩ := he.file (Q := fun _ => True) hh hcl trivial (fun _ => trivial)
  have hopen : FileOpen (withFile (plReset s) fs) ↔ fs.handle ≠ -1 := FileInv.fileOpen_iff hf
  have hplay : Playable w what s ↔ out.plays = true := by
    refine ⟨fun ⟨o',h1,h2⟩ => ?_,fun h2 => ⟨out,ho,h2⟩⟩
    cases ho.symm.trans h1
    exact h2
  rw [hplay]
  cases hpl : out.plays with
  | true =>
    obtain ⟨hne,hty⟩ := hyes hpl
    rw [plSwitch_agrees hty,hopen]
    simp [hne]
  | false =>
    obtain ⟨hidle,hty⟩ := hno hpl
    rw [plReset_type h] at hty
    have hclosed : ¬ FileOpen (withFile (plReset s) fs) := fun hc => hopen.mp hc hidle
    cases hs : s.fs.type with
    | none => exact absurd hs h.typed
    | unknown =>
      have hst' : (withFile (plReset s) fs).pl.state = .stop := hst
      rw [plSwitch_unknown (show (withFile (plReset s) fs).fs.type =
        .unknown from hty.trans hs) hst, Agrees,hst']
      simp [hclosed,PlState.active]
    | riff =>
      rw [plSwitch_agrees (.inr (hty.trans hs))]
      simp [hclosed]
    | mp3 =>
      rw [plSwitch_agrees (.inl (hty.trans hs))]
      simp [hclosed]

/-- In every reachable state a play tells the truth exactly when no file was ever
opened before or the play opens one. -/
theorem sysRun_agrees_iff (entries : List ResEntry) (snd : Bool) (ops : List SysOp) :
    Always sysStep AgreesWhen (sysInit entries snd) ops :=
  always_of_invariant (I := SysInv fun _ => True) (fun _ h => h.agreesWhen)
    (fun _ _ _ h hs => h.step hs fun _ _ _ _ _ _ _ _ => trivial) ops _
    (sysInit_inv entries snd trivial)

def taggedFile : List UInt8 := [0x49,0x44,0x33,4] ++ List.replicate 60 0

/-- After an MP3 file, the play of a name that does not exist ends in buffering. -/
theorem sysRun_stale_type :
    ¬ Always sysStep
      (fun s => ∀ t, plPlay (hostWith none) noNet [0x62] s = some t → Agrees t) (sysInit [] true)
      [.play (hostWith (some taggedFile)) noNet [0x61]] := by
  intro h
  have h1 := h.2 _ rfl _ rfl
  revert h1
  decide

end Mardio
