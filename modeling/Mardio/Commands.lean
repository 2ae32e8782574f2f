import Mardio.Cmd
import Mardio.Event
import Mardio.Player

/-!
The command table and the commands that queue an event for the main loop. The
others print something and leave the console, the queue and the tokens alone.
-/

set_option autoImplicit false

namespace Mardio

def ascii (cs : List Char) : Str := cs.map fun c => UInt8.ofNat c.toNat

inductive Command where
  | cmdHelp | cmdEcho | cmdCls | cmdPlPlay | cmdPlStop | cmdSndVolume | cmdRadio
  | cmdFsChdir | cmdFsList | cmdFsPwd | cmdFs | cmdUsb | cmdNetIfconfig
  | cmdIoState | cmdNetState | cmdSndState | cmdLibmadState | cmdPlStatus | cmdFstate | cmdResList
  | sndInit | cmdVersion | cmdExit
  deriving DecidableEq, Repr

/-- `only` is the host an entry is compiled for, when it is not there on both. -/
structure CommandEntry where
  name : Str
  function : Command
  only : Option Host

def commandTable : List CommandEntry :=
  [⟨ascii ['h','e','l','p'],.cmdHelp,none⟩,
   ⟨ascii ['e','c','h','o'],.cmdEcho,none⟩,
   ⟨ascii ['c','l','s'],.cmdCls,none⟩,
   ⟨ascii ['p','l','a','y'],.cmdPlPlay,none⟩,
   ⟨ascii ['s','t','o','p'],.cmdPlStop,none⟩,
   ⟨ascii ['s','v','o','l'],.cmdSndVolume,none⟩,
   ⟨ascii ['m','u','t','e'],.cmdSndVolume,none⟩,
   ⟨ascii ['r','a','d','i','o'],.cmdRadio,none⟩,
   ⟨ascii ['c','d'],.cmdFsChdir,some .stm32⟩,
   ⟨ascii ['l','s'],.cmdFsList,some .stm32⟩,
   ⟨ascii ['p','w','d'],.cmdFsPwd,some .stm32⟩,
   ⟨ascii ['f','s'],.cmdFs,some .stm32⟩,
   ⟨ascii ['u','s','b'],.cmdUsb,some .stm32⟩,
   ⟨ascii ['i','f','c'],.cmdNetIfconfig,some .stm32⟩,
   ⟨ascii ['i','o'],.cmdIoState,none⟩,
   ⟨ascii ['n','e','t'],.cmdNetState,none⟩,
   ⟨ascii ['s','n','d'],.cmdSndState,none⟩,
   ⟨ascii ['l','i','b','m','a','d'],.cmdLibmadState,none⟩,
   ⟨ascii ['p','l','s'],.cmdPlStatus,none⟩,
   ⟨ascii ['f','s','s'],.cmdFstate,none⟩,
   ⟨ascii ['r','l','s'],.cmdResList,none⟩,
   ⟨ascii ['s','n','d','_','i','n','i','t'],.sndInit,some .stm32⟩,
   ⟨ascii ['v','e','r'],.cmdVersion,none⟩,
   ⟨ascii ['e','x','i','t'],.cmdExit,some .linux⟩]

def commands (h : Host) : List CommandEntry :=
  commandTable.filter fun e => e.only.all (· == h)

/-- Both comparisons run over the terminators of the two strings. -/
def commandMatches (name arg : Str) : Bool :=
  ucMemcmp (name ++ [0]) (arg ++ [0]) arg.length == 0 &&
    ucMemcmp (name ++ [0]) (arg ++ [0]) name.length == 0

def cmdExec (h : Host) (c : Cmd) : Option Command :=
  if c.argc = 0 then none
  else ((commands h).find? fun e => commandMatches e.name (cmdArgv 0 c)).map CommandEntry.function

theorem prefix_of_take {s t : Str} (hs : 0 ∉ s) (he : (t ++ [0]).take s.length = s) : s <+: t := by
  have hpre : s <+: t ++ [0] := he ▸ List.take_prefix _ _
  rw [List.prefix_concat_iff] at hpre
  obtain rfl | hpre := hpre
  · simp at hs
  · exact hpre

/-- Each string is the beginning of the other, and the comparisons read no byte behind
either terminator. -/
theorem commandMatches_spec {name arg : Str} (hname : 0 ∉ name) (harg : 0 ∉ arg) :
    (commandMatches name arg = true ↔ name = arg) ∧
      ucMemcmpIn (name ++ [0]) (arg ++ [0]) arg.length ≠ none ∧
      ucMemcmpIn (name ++ [0]) (arg ++ [0]) name.length ≠ none := by
  obtain ⟨r,hr,hzero⟩ := ucMemcmpIn_terminated hname harg (Nat.le_max_right name.length arg.length)
  obtain ⟨r',hr',hzero'⟩ :=
    ucMemcmpIn_terminated hname harg (Nat.le_max_left name.length arg.length)
  refine ⟨?_,by simp [hr],by simp [hr']⟩
  rw [commandMatches,ucMemcmp_of_in hr,ucMemcmp_of_in hr',Bool.and_eq_true,beq_iff_eq,beq_iff_eq,
    hzero,hzero']
  constructor
  · rintro ⟨ha,hn⟩
    rw [List.take_left] at ha hn
    have hle := (prefix_of_take harg ha).length_le
    exact (prefix_of_take hname hn.symm).eq_of_length_le hle
  · rintro rfl
    exact ⟨rfl,rfl⟩

theorem commands_names (h : Host) : ((commands h).map CommandEntry.name).Nodup ∧
    ∀ e ∈ commands h, 0 ∉ e.name := by
  cases h <;> decide

theorem cmdArgv_terminated (i : Nat) (c : Cmd) : 0 ∉ cmdArgv i c := by
  unfold cmdArgv Cmd.str
  split
  · simp
  · intro h0
    simpa using List.mem_takeWhile_imp h0

/-- The entry whose name is the first argument is called and no other one, and the
comparisons stay inside the two strings. -/
theorem cmdExec_exact (h : Host) (c : Cmd) :
    (cmdExec h c).toList = ((commands h).filter (·.name = cmdArgv 0 c)).map CommandEntry.function ∧
      ((commands h).filter (·.name = cmdArgv 0 c)).length ≤ 1 ∧
      ∀ e ∈ commands h, ucMemcmpIn (e.name ++ [0]) (cmdArgv 0 c ++ [0]) (cmdArgv 0 c).length ≠
        none ∧
        ucMemcmpIn (e.name ++ [0]) (cmdArgv 0 c ++ [0]) e.name.length ≠ none := by
  obtain ⟨hnodup,hnames⟩ := commands_names h
  have hone : ((commands h).filter (·.name = cmdArgv 0 c)).length ≤ 1 := by
    have hcount := List.nodup_iff_count_le_one.mp hnodup (cmdArgv 0 c)
    rw [List.count_eq_countP,List.countP_map,List.countP_eq_length_filter] at hcount
    simpa only [Function.comp_def,beq_eq_decide] using hcount
  have harg := cmdArgv_terminated 0 c
  refine ⟨?_,hone,fun e he => (commandMatches_spec (hnames e he) harg).2⟩
  by_cases hargc : c.argc = 0
  · -- no token: the first argument is the empty string, which is no command
    have hempty : ∀ e ∈ commands h, e.name ≠ [] := by cases h <;> decide
    have hnone : (commands h).filter (·.name = cmdArgv 0 c) = [] := by
      simpa [List.filter_eq_nil_iff,cmdArgv,hargc] using hempty
    simp [cmdExec,hargc,hnone]
  · have hsame : (commands h).find? (fun e => commandMatches e.name (cmdArgv 0 c)) =
        ((commands h).filter (·.name = cmdArgv 0 c)).head? := by
      rw [List.head?_filter]
      refine List.find?_congr fun e he => ?_
      rw [Bool.eq_iff_iff,(commandMatches_spec (hnames e he) harg).1,decide_eq_true_eq]
    rw [cmdExec,if_neg hargc,hsame]
    rcases Nat.le_one_iff_eq_zero_or_eq_one.mp hone with hlen | hlen
    · simp [List.length_eq_zero_iff.mp hlen]
    · obtain ⟨e,he⟩ := List.length_eq_one_iff.mp hlen
      simp [he]

/-- Digits are added up in a 32-bit integer. -/
def atoiDigits (v : Int) : Str → Int
  | [] => v
  | c :: s => if 48 ≤ c ∧ c ≤ 57 then atoiDigits (Int.bmod (v*10+(c.toNat-48)) (2^32)) s else v

def q3Atoi (h : Host) (s : Str) : Int :=
  match s.dropWhile fun c => !h.above c with
  | 43 :: s => atoiDigits 0 s
  | 45 :: s => Int.bmod (-atoiDigits 0 s) (2^32)
  | s => atoiDigits 0 s

def strUp : Str := ascii ['u','p']
def strPlus : Str := ascii ['+']
def strDown : Str := ascii ['d','o','w','n']
def strMinus : Str := ascii ['-']
def strMute : Str := ascii ['m','u','t','e']

/-- The comparison goes over the length of the given string only. -/
def startsAs (param word : Str) : Bool := ucMemcmp (param ++ [0]) (word ++ [0]) param.length == 0

/-- The volume that is queued, or nothing when the current one is printed. -/
def cmdSndVolume (h : Host) (volume : Nat) (c : Cmd) : Option Nat :=
  let clamp (v : Int) : Nat := (min (max v 0) plMaxVolume).toNat
  let param := cmdArgv 1 c
  if c.argc ≠ 2 then
    if startsAs (cmdArgv 0 c) strMute then some (clamp 0) else none
  else if startsAs param strUp || startsAs param strPlus then some (clamp (volume+1))
  else if startsAs param strDown || startsAs param strMinus then some (clamp (volume-1))
  else if startsAs param strMute then some (clamp 0)
  else some (clamp (q3Atoi h param))

def radiosCount : Nat := 16

def cmdRadio (h : Host) (c : Cmd) : Option Nat :=
  if c.argc ≠ 2 then none
  else
    let choice := q3Atoi h (cmdArgv 1 c)
    if choice < 0 ∨ (radiosCount : Int) ≤ choice then none else some choice.toNat

/-- The pointer of the second token goes into the event, not the token. -/
def cmdPlPlay (c : Cmd) : Option Nat := if c.argc ≠ 2 then none else some (c.argv.getD 1 0)

/-- The event a command queues. `second` is the second token of its line. -/
def commandEvent (h : Host) (now : UInt32) (volume : Nat) (second : Option Str) (c : Cmd) :
    Command → Option Event
  | .cmdPlPlay => (cmdPlPlay c).map fun p => ⟨now,.plPlay,0,.tokenBuffer p,second⟩
  | .cmdPlStop => some ⟨now,.plStop,0,.null,none⟩
  | .cmdSndVolume => (cmdSndVolume h volume c).map fun v =>
      ⟨now,.plVolset,UInt32.ofNat v,.null,none⟩
  | .cmdRadio => (cmdRadio h c).map fun choice => ⟨now,.plPlay,0,.radios choice,none⟩
  | _ => none

/-- A command queues no console event, and points into the token buffer only with
the second argument. -/
theorem commandEvent_spec {h : Host} {now : UInt32} {volume : Nat} {second : Option Str} {c : Cmd}
    {f : Command} {e : Event} (he : commandEvent h now volume second c f = some e) :
    e.type ≠ .conInput ∧
      ∀ p, e.ptr = .tokenBuffer p → c.argc = 2 ∧ p = c.argv.getD 1 0 ∧ e.origin = second := by
  cases f with
  | cmdPlPlay =>
    simp only [commandEvent,cmdPlPlay,Option.map_eq_some_iff] at he
    obtain ⟨p,hp,rfl⟩ := he
    split at hp
    · simp at hp
    · rename_i hargc
      cases hp
      simp at hargc
      simp [hargc]
  | cmdPlStop =>
    cases he
    simp
  | cmdSndVolume =>
    simp only [commandEvent,Option.map_eq_some_iff] at he
    obtain ⟨v,-,rfl⟩ := he
    simp
  | cmdRadio =>
    simp only [commandEvent,Option.map_eq_some_iff] at he
    obtain ⟨choice,-,rfl⟩ := he
    simp
  | _ => cases he

end Mardio
