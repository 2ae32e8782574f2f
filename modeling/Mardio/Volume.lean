import Mardio.EventLoop
import Mardio.Lib.FixedPoint

/-!
The volume. The player keeps it in 8 bits, and both the step down and the parameter
of an event are cut to 8 bits before the bounds are applied; the argument of `svol`
is compared over its own length and read as a 32-bit integer.
-/

set_option autoImplicit false

namespace Mardio
open Runs

/-! Events. -/

def plVolumeUp (pl : Player) : Player := plVolumeSet (pl.volume+1) pl

/-- -1 becomes 255 as a parameter. -/
def plVolumeDown (pl : Player) : Player := plVolumeSet (pl.volume+2^8-1) pl

inductive VolumeEvent where
  | up
  | down
  | set (par : UInt32)
  deriving DecidableEq, Repr

/-- The three cases of the switch in `event_loop`. -/
def volumeHandle (pl : Player) : VolumeEvent → Player
  | .up => plVolumeUp pl
  | .down => plVolumeDown pl
  | .set par => plVolumeSet par.toNat pl

def VolumeEvent.event (now : UInt32) : VolumeEvent → Event
  | .up => ⟨now,.plVolup,0,.null,none⟩
  | .down => ⟨now,.plVoldown,0,.null,none⟩
  | .set par => ⟨now,.plVolset,par,.null,none⟩

/-- The switch changes the volume and nothing else. -/
theorem deskHandle_volume (h : Host) (walk : Nat) (o : Surroundings) (now : UInt32)
    (e : VolumeEvent) {d : Desk} (hd : d.shell.volume = d.sys.pl.volume) :
    deskHandle h walk o (e.event now) d =
      some ⟨{ d.shell with volume := (volumeHandle d.sys.pl e).volume },
        { d.sys with pl := volumeHandle d.sys.pl e }⟩ := by
  cases e <;> simp [deskHandle,handleEvent,VolumeEvent.event,Desk.withShell,volumeHandle,plVolumeUp,
    plVolumeDown,plVolumeSet,hd]

/-- What an event is meant to do to the volume. `PL_MIN_VOLUME` is zero. -/
def saturate (v : Nat) : VolumeEvent → Nat
  | .up => min (v+1) plMaxVolume
  | .down => v-1
  | .set par => min par.toNat plMaxVolume

/-- The player, and the volume it is meant to have. -/
structure Volumed where
  pl : Player
  meant : Nat
  deriving DecidableEq, Repr

def volumeStep (s : Volumed) (e : VolumeEvent) : Option Volumed :=
  some ⟨volumeHandle s.pl e,saturate s.meant e⟩

def volumeInit : Volumed := ⟨plInit,plDefVolume⟩

/-- No step down from zero, and no parameter whose low byte alone is in the range. -/
def VolumeFits (s : Volumed) : VolumeEvent → Prop
  | .up => True
  | .down => 0 < s.pl.volume
  | .set par => par.toNat < 2^8 ∨ plMaxVolume ≤ par.toNat % 2^8

instance (s : Volumed) : (e : VolumeEvent) → Decidable (VolumeFits s e)
  | .up => isTrue trivial
  | .down => inferInstanceAs (Decidable (0 < s.pl.volume))
  | .set par => inferInstanceAs (Decidable (par.toNat < 2^8 ∨ plMaxVolume ≤ par.toNat % 2^8))

theorem plVolumeSet_volume (v : Nat) (pl : Player) :
    (plVolumeSet v pl).volume = min (v % 2^8) plMaxVolume := by
  simp only [plVolumeSet]
  split <;> omega

/-- One event: the two volumes go on agreeing exactly when nothing is lost in the
8 bits. -/
theorem volumeHandle_agrees_iff {s : Volumed} (he : s.pl.volume = s.meant)
    (hle : s.meant ≤ plMaxVolume) (e : VolumeEvent) :
    (volumeHandle s.pl e).volume = saturate s.meant e ↔ VolumeFits s e := by
  cases e with
  | up =>
    simp only [volumeHandle,plVolumeUp,plVolumeSet_volume,saturate,VolumeFits,plMaxVolume,
      iff_true] at *
    omega
  | down =>
    simp only [volumeHandle,plVolumeDown,plVolumeSet_volume,saturate,VolumeFits,plMaxVolume] at *
    omega
  | set par =>
    simp only [volumeHandle,plVolumeSet_volume,saturate,VolumeFits,plMaxVolume]
    omega

theorem saturate_le {v : Nat} (hv : v ≤ plMaxVolume) (e : VolumeEvent) :
    saturate v e ≤ plMaxVolume := by
  cases e with
  | up => exact Nat.min_le_right ..
  | down => exact (Nat.sub_le v 1).trans hv
  | set par => exact Nat.min_le_right ..

/-- The run keeps to the saturating fold exactly as long as every event fits. -/
theorem volume_saturates_iff (es : List VolumeEvent) :
    Always volumeStep (fun s => s.pl.volume = s.meant) volumeInit es ↔
      Guarded volumeStep VolumeFits volumeInit es := by
  refine always_iff_guarded (I := fun s => s.pl.volume = s.meant ∧ s.meant ≤ plMaxVolume)
    (fun s hi => hi.1) (fun s e t hi hok hs => ?_) (fun s e hi hbad => ?_) es volumeInit (by decide)
  · cases hs
    exact ⟨(volumeHandle_agrees_iff hi.1 hi.2 e).mpr hok,saturate_le hi.2 e⟩
  · exact ⟨_,rfl,mt (volumeHandle_agrees_iff hi.1 hi.2 e).mp hbad⟩

/-- A step down from silence is the loudest volume. -/
theorem volume_down_at_zero :
    ¬ Always volumeStep (fun s => s.pl.volume = s.meant) volumeInit
      [VolumeEvent.set 0,VolumeEvent.down] := by decide

/-! The argument of `svol`. -/

/-- The number that the digits at the front of a text make, behind the number `v`. -/
def digitsValue (v : Nat) : Str → Nat
  | [] => v
  | c :: s => if 48 ≤ c ∧ c ≤ 57 then digitsValue (v*10+(c.toNat-48)) s else v

def signedValue : Str → Int
  | 43 :: s => digitsValue 0 s
  | 45 :: s => -(digitsValue 0 s)
  | s => digitsValue 0 s

/-- The integer at the front of a text behind its blanks, 0 where there is none. -/
def numberBehind (blank : UInt8 → Bool) (s : Str) : Int := signedValue (s.dropWhile blank)

def isBlank (c : UInt8) : Bool := c ≤ 32

def volumeClamp (v : Int) : Nat := (min (max v 0) plMaxVolume).toNat

/-- What an argument means. -/
def svolMeaning (volume : Nat) (s : Str) : Nat :=
  if s = strUp ∨ s = strPlus then volumeClamp (volume+1)
  else if s = strDown ∨ s = strMinus then volumeClamp (volume-1)
  else if s = strMute then 0
  else volumeClamp (numberBehind isBlank s)

/-- The low 32 bits of a number are not those of a positive integer. -/
def NotPositive (n : Int) : Prop := n % 2^32 = 0 ∨ 2^31 ≤ n % 2^32

/-- A number fits in 32 bits, or its low 32 bits are beyond the same bound of the volume. -/
def NumberFits (n : Int) : Prop :=
  (0 ≤ n → n < 2^31 ∨ plMaxVolume ≤ n % 2^32 ∧ n % 2^32 < 2^31) ∧
    (n < 0 → -2^31 ≤ n ∨ NotPositive n)

/-- A byte above 127 comes behind the blanks. -/
def Foreign (s : Str) : Prop := ∃ c ∈ (s.dropWhile isBlank).head?, 128 ≤ c

instance (n : Int) : Decidable (NotPositive n) := inferInstanceAs (Decidable (_ ∨ _))
instance (n : Int) : Decidable (NumberFits n) := inferInstanceAs (Decidable (_ ∧ _))
instance (s : Str) : Decidable (Foreign s) := inferInstanceAs (Decidable (∃ c ∈ _, _))

/-- Where the host takes a byte above 127 for a blank, the number behind it is not
positive; otherwise the number fits. -/
def ArgumentFits (h : Host) (s : Str) : Prop :=
  if h = .linux ∧ Foreign s then NotPositive (numberBehind (fun c => !h.above c) s)
  else NumberFits (numberBehind isBlank s)

/-- The argument is not empty and not the `u` of `up`; the beginnings of `down` come at
a volume that a step down takes to zero; and the number fits. -/
def SvolFits (h : Host) (volume : Nat) (s : Str) : Prop :=
  s ≠ [] ∧ s ≠ ascii ['u'] ∧ (s = ascii ['d'] ∨ s = ascii ['d','o'] ∨ s = ascii ['d','o','w'] →
    volume ≤ 1) ∧
    ArgumentFits h s

/-- The reader keeps the residue of the number. -/
theorem atoiDigits_eq (v : Nat) (s : Str) :
    atoiDigits (Int.bmod v (2^32)) s = Int.bmod (digitsValue v s) (2^32) := by
  induction s generalizing v with
  | nil => rfl
  | cons c s ih =>
    rw [atoiDigits,digitsValue]
    split
    · rename_i hc
      have hlow : 48 ≤ c.toNat := UInt8.le_iff_toNat_le.mp hc.1
      have hstep : Int.bmod (Int.bmod v (2^32)*10+(c.toNat-48)) (2^32) =
          Int.bmod ((v*10+(c.toNat-48) : Nat) : Int) (2^32) := by
        push_cast [Nat.cast_sub hlow]
        rw [Int.bmod_add_cancel_right,Int.bmod_mul_bmod]
      rw [hstep,ih]
    · rfl

theorem q3Atoi_eq (h : Host) (s : Str) :
    q3Atoi h s = Int.bmod (numberBehind (fun c => !h.above c) s) (2^32) := by
  have hdigits (s : Str) : atoiDigits 0 s = Int.bmod (digitsValue 0 s) (2^32) := atoiDigits_eq 0 s
  unfold q3Atoi numberBehind
  generalize s.dropWhile (fun c => !h.above c) = s
  fun_cases signedValue s with
  | case1 s => exact hdigits s
  | case2 s => exact (congrArg (fun v => Int.bmod (-v) (2^32)) (hdigits s)).trans Int.bmod_neg_bmod
  | case3 s hplus hminus =>
    rw [← hdigits s]
    split
    · exact absurd rfl (hplus _)
    · exact absurd rfl (hminus _)
    · rfl

theorem volumeClamp_eq_zero_iff (n : Int) : volumeClamp n = 0 ↔ n ≤ 0 := by
  simp only [volumeClamp,plMaxVolume]
  omega

theorem volumeClamp_eq_max_iff (n : Int) : volumeClamp n = plMaxVolume ↔ plMaxVolume ≤ n := by
  simp only [volumeClamp,plMaxVolume]
  omega

theorem volumeClamp_bmod_zero_iff (n : Int) :
    volumeClamp (Int.bmod n (2^32)) = 0 ↔ NotPositive n := by
  rw [volumeClamp_eq_zero_iff,NotPositive,Int.bmod_def]
  omega

theorem volumeClamp_bmod_iff (n : Int) :
    volumeClamp (Int.bmod n (2^32)) = volumeClamp n ↔ NumberFits n := by
  obtain hlow | hmid | hhigh : n < -2^31 ∨ -2^31 ≤ n ∧ n < 2^31 ∨ 2^31 ≤ n := by omega
  · rw [(volumeClamp_eq_zero_iff n).mpr (by omega),volumeClamp_bmod_zero_iff,NumberFits]
    constructor
    · intro hn
      exact ⟨fun hpos => by omega,fun _ => .inr hn⟩
    · intro hfits
      exact (hfits.2 (by omega)).resolve_left (by omega)
  · rw [Int.bmod_eq_of_le_mul_two (by omega) (by omega)]
    exact iff_of_true rfl ⟨fun _ => .inl hmid.2,fun _ => .inl hmid.1⟩
  · rw [(volumeClamp_eq_max_iff n).mpr (by simp only [plMaxVolume]; omega),volumeClamp_eq_max_iff,
      NumberFits,Int.bmod_def]
    simp only [plMaxVolume]
    omega

/-- The two hosts skip the same blanks but for bytes above 127 on Linux. -/
theorem dropWhile_blanks {h : Host} {s : Str} (hs : ¬ (h = .linux ∧ Foreign s)) :
    s.dropWhile (fun c => !h.above c) = s.dropWhile isBlank := by
  cases h with
  | stm32 =>
    have hsame : (fun c => !Host.stm32.above c) = isBlank := by
      funext c
      simp [Host.above,isBlank,← UInt8.not_lt]
    rw [hsame]
  | linux =>
    induction s with
    | nil => rfl
    | cons c s ih =>
      by_cases hc : isBlank c = true
      · have hskip : (!Host.linux.above c) = true := by
          simp [isBlank,UInt8.le_iff_toNat_le,Host.above,UInt8.lt_iff_toNat_lt] at hc ⊢
          omega
        have hrest : ¬ (Host.linux = .linux ∧ Foreign s) := by simpa [Foreign,hc] using hs
        simpa [hc,hskip] using ih hrest
      · have hlow : ¬ 128 ≤ c := by simpa [Foreign,hc] using hs
        have hstop : Host.linux.above c = true := by
          simp [isBlank,UInt8.le_iff_toNat_le,Host.above,UInt8.lt_iff_toNat_lt] at hc hlow ⊢
          omega
        simp [hc,hstop]

/-- Such a byte begins no number. -/
theorem numberBehind_foreign {s : Str} (hs : Foreign s) : numberBehind isBlank s = 0 := by
  obtain ⟨c,hc,hlow⟩ := hs
  rw [UInt8.le_iff_toNat_le] at hlow
  rw [numberBehind]
  cases hd : s.dropWhile isBlank with
  | nil => rfl
  | cons d rest =>
    obtain rfl : d = c := by simpa [hd] using hc
    have hplus : d ≠ 43 := by
      rintro rfl
      simp at hlow
    have hminus : d ≠ 45 := by
      rintro rfl
      simp at hlow
    have hdigit : ¬ d ≤ 57 := by
      rw [UInt8.le_iff_toNat_le]
      simp at hlow ⊢
      omega
    simp [signedValue,digitsValue,hplus,hminus,hdigit]

/-- The number is cut to 32 bits before the bounds are applied. -/
theorem volumeClamp_q3Atoi_iff (h : Host) (s : Str) :
    volumeClamp (q3Atoi h s) = volumeClamp (numberBehind isBlank s) ↔ ArgumentFits h s := by
  rw [q3Atoi_eq,ArgumentFits]
  split
  · rename_i hs
    rw [numberBehind_foreign hs.2]
    exact volumeClamp_bmod_zero_iff _
  · rename_i hs
    have hsame : numberBehind (fun c => !h.above c) s = numberBehind isBlank s :=
      congrArg signedValue (dropWhile_blanks hs)
    rw [hsame]
    exact volumeClamp_bmod_iff _

/-- A keyword is taken for every beginning of it. -/
theorem startsAs_iff {param word : Str} (hp : 0 ∉ param) (hw : 0 ∉ word) :
    startsAs param word = true ↔ param <+: word := by
  obtain ⟨r,hr,hzero⟩ := ucMemcmpIn_terminated hp hw (Nat.le_max_left param.length word.length)
  rw [startsAs,ucMemcmp_of_in hr,beq_iff_eq,hzero,List.take_left]
  constructor
  · intro he
    exact prefix_of_take hp he.symm
  · intro hpre
    exact List.prefix_iff_eq_take.mp (hpre.trans (List.prefix_append word [0]))

theorem cmdSndVolume_eq (h : Host) (volume : Nat) {c : Cmd} (hc : c.argc = 2) :
    cmdSndVolume h volume c = some
      (if cmdArgv 1 c ∈ strUp.inits ++ strPlus.inits then volumeClamp (volume+1)
      else if cmdArgv 1 c ∈ strDown.inits ++ strMinus.inits then volumeClamp (volume-1)
      else if cmdArgv 1 c ∈ strMute.inits then 0
      else volumeClamp (q3Atoi h (cmdArgv 1 c))) := by
  have hstarts {word : Str} (hw : 0 ∉ word) :
      startsAs (cmdArgv 1 c) word = true ↔ cmdArgv 1 c ∈ word.inits := by
    rw [startsAs_iff (cmdArgv_terminated 1 c) hw,List.mem_inits]
  simp only [cmdSndVolume,hc,ne_eq,not_true_eq_false,if_false,Bool.or_eq_true,List.mem_append,
    hstarts (by decide : 0 ∉ strUp),hstarts (by decide : 0 ∉ strPlus),
    hstarts (by decide : 0 ∉ strDown),hstarts (by decide : 0 ∉ strMinus),
      hstarts (by decide : 0 ∉ strMute)]
  split_ifs <;> rfl

def keywords : List Str := [strUp,strPlus,strDown,strMinus,strMute]

/-- No beginning of a keyword has a number in it. -/
theorem keywords_plain {s : Str} (hs : s ∈ keywords.flatMap List.inits) :
    numberBehind isBlank s = 0 ∧ ¬ Foreign s := by
  revert s
  decide

theorem keywords_fit (h : Host) {s : Str} (hs : s ∈ keywords.flatMap List.inits) :
    ArgumentFits h s := by
  obtain ⟨hzero,hforeign⟩ := keywords_plain hs
  rw [ArgumentFits,if_neg fun hs => hforeign hs.2,hzero]
  decide

theorem svolMeaning_number {s : Str} (hk : s ∉ keywords) (volume : Nat) :
    svolMeaning volume s = volumeClamp (numberBehind isBlank s) := by
  simp only [keywords,List.mem_cons,List.not_mem_nil,or_false,not_or] at hk
  obtain ⟨hup,hplus,hdown,hminus,hmute⟩ := hk
  simp [svolMeaning,hup,hplus,hdown,hminus,hmute]

theorem svolMeaning_beginning {s : Str} (hs : s ∈ keywords.flatMap List.inits) (hk : s ∉ keywords)
    (volume : Nat) :
    svolMeaning volume s = 0 := by
  rw [svolMeaning_number hk,(keywords_plain hs).1]
  rfl

section
variable (h : Host) (volume : Nat) {s : Str}

theorem keyword_svolFits (hs : s ∈ keywords) : SvolFits h volume s := by
  have hin : s ∈ keywords.flatMap List.inits :=
    List.mem_flatMap.mpr ⟨s,hs,(List.mem_inits s s).mpr (List.prefix_refl s)⟩
  have hother : s ≠ [] ∧ s ≠ ascii ['u'] ∧
      ¬ (s = ascii ['d'] ∨ s = ascii ['d','o'] ∨ s = ascii ['d','o','w']) := by
    revert s
    decide
  exact ⟨hother.1,hother.2.1,fun hd => absurd hd hother.2.2,keywords_fit h hin⟩

theorem up_means_iff (hs : s ∈ strUp.inits ++ strPlus.inits) :
    volumeClamp (volume+1) = svolMeaning volume s ↔ SvolFits h volume s := by
  have hcases : (s ∈ keywords.flatMap List.inits ∧ s ∉ keywords ∧ (s = [] ∨ s = ascii ['u'])) ∨
      s = strUp ∨ s = strPlus := by
    revert s
    decide
  rcases hcases with ⟨hin,hk,hs⟩ | rfl | rfl
  · rw [svolMeaning_beginning hin hk,volumeClamp_eq_zero_iff]
    refine iff_of_false (by omega) fun hfits => ?_
    rcases hs with hs | hs
    · exact hfits.1 hs
    · exact hfits.2.1 hs
  · exact iff_of_true rfl (keyword_svolFits h volume (by decide))
  · exact iff_of_true rfl (keyword_svolFits h volume (by decide))

theorem down_means_iff (hs : s ∈ strDown.inits ++ strMinus.inits) (hne : s ≠ []) :
    volumeClamp (volume-1) = svolMeaning volume s ↔ SvolFits h volume s := by
  have hcases : (s ∈ keywords.flatMap List.inits ∧ s ∉ keywords ∧ s ≠ ascii ['u'] ∧
      (s = ascii ['d'] ∨ s = ascii ['d','o'] ∨ s = ascii ['d','o','w'])) ∨ s = strDown ∨
        s = strMinus := by
    revert s
    decide
  rcases hcases with ⟨hin,hk,hu,hs⟩ | rfl | rfl
  · rw [svolMeaning_beginning hin hk,volumeClamp_eq_zero_iff]
    constructor
    · intro hle
      exact ⟨hne,hu,fun _ => by omega,keywords_fit h hin⟩
    · intro hfits
      have := hfits.2.2.1 hs
      omega
  · exact iff_of_true rfl (keyword_svolFits h volume (by decide))
  · exact iff_of_true rfl (keyword_svolFits h volume (by decide))

theorem mute_means_iff (hs : s ∈ strMute.inits) (hne : s ≠ []) :
    0 = svolMeaning volume s ↔ SvolFits h volume s := by
  have hin : s ∈ keywords.flatMap List.inits := List.mem_flatMap.mpr ⟨strMute,by decide,hs⟩
  have hother : s ≠ ascii ['u'] ∧ ¬ (s = ascii ['d'] ∨ s = ascii ['d','o'] ∨
      s = ascii ['d','o','w']) ∧
      (s = strMute ∨ s ∉ keywords) := by
    revert s
    decide
  refine iff_of_true ?_ ⟨hne,hother.1,fun hd => absurd hd hother.2.1,keywords_fit h hin⟩
  rcases hother.2.2 with rfl | hk
  · rfl
  · exact (svolMeaning_beginning hin hk volume).symm

end

/-- The argument is given its meaning exactly under the condition. -/
theorem cmdSndVolume_means_iff (h : Host) (volume : Nat) {c : Cmd} (hc : c.argc = 2) :
    cmdSndVolume h volume c = some (svolMeaning volume (cmdArgv 1 c)) ↔
      SvolFits h volume (cmdArgv 1 c) := by
  rw [cmdSndVolume_eq h volume hc,Option.some_inj]
  generalize cmdArgv 1 c = s
  split
  · rename_i hup
    exact up_means_iff h volume hup
  rename_i hup
  have hne : s ≠ [] := by
    rintro rfl
    exact hup (by decide)
  split
  · rename_i hdown
    exact down_means_iff h volume hdown hne
  rename_i hdown
  split
  · rename_i hmute
    exact mute_means_iff h volume hmute hne
  · -- a number: no keyword, and none of the beginnings that the condition names
    rename_i hmute
    have hnone : s ∉ keywords.flatMap List.inits := by
      simp only [keywords,List.flatMap_cons,List.flatMap_nil,List.mem_append] at hup hdown hmute ⊢
      tauto
    have hk : s ∉ keywords :=
      fun hk => hnone (List.mem_flatMap.mpr ⟨s,hk,(List.mem_inits s s).mpr (List.prefix_refl s)⟩)
    have hno {word : Str} (hw : word ∈ keywords.flatMap List.inits) : s ≠ word :=
      fun he => hnone (he ▸ hw)
    rw [svolMeaning_number hk,volumeClamp_q3Atoi_iff,SvolFits]
    simp [hne,hno (by decide : ascii ['u'] ∈ _),hno (by decide : ascii ['d'] ∈ _),
      hno (by decide : ascii ['d','o'] ∈ _),hno (by decide : ascii ['d','o','w'] ∈ _)]

/-- The line `svol s`. -/
def svolLine (s : Str) : Cmd := layout [ascii ['s','v','o','l'],s]

theorem cmdSndVolume_means_seven :
    (svolLine (ascii [' ','+','7'])).argc = 2 ∧
      (cmdSndVolume .linux 3 (svolLine (ascii [' ','+','7'])) =
        some (svolMeaning 3 (cmdArgv 1 (svolLine (ascii [' ','+','7'])))) ↔
        SvolFits .linux 3 (cmdArgv 1 (svolLine (ascii [' ','+','7'])))) :=
  ⟨rfl,cmdSndVolume_means_iff .linux 3 rfl⟩

/-- The letter `u` is a step up, the letter `d` a step down, and a large number wraps to
zero. -/
theorem cmdSndVolume_beginnings :
    cmdSndVolume .linux 3 (svolLine (ascii ['u'])) ≠
        some (svolMeaning 3 (cmdArgv 1 (svolLine (ascii ['u'])))) ∧
      cmdSndVolume .linux 3 (svolLine (ascii ['d'])) ≠
        some (svolMeaning 3 (cmdArgv 1 (svolLine (ascii ['d'])))) ∧
      cmdSndVolume .linux 3 (svolLine (ascii ['4','2','9','4','9','6','7','2','9','6'])) ≠
        some (svolMeaning 3 (cmdArgv 1
          (svolLine (ascii ['4','2','9','4','9','6','7','2','9','6'])))) := by decide

end Mardio
