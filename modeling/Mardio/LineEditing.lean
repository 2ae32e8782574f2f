import Mardio.Shell

/-!
Editing the line on the board. The interrupt handler changes the line and queues what
the terminal is to print, each under its own conditions.
-/

set_option autoImplicit false

namespace Mardio
open Runs

/-- The two characters of PROMPT. -/
def prompt : Str := [0x5D,0x20]

/-- The handler as the line it leaves and the events it pushes. -/
def usart3Pushes (ch : UInt8) (now : UInt32) (con : Con) : Con × List Event :=
  if con.lock then (con,[])
  else if ch = 13 then (conInputLock con,[echoEvent now 10,inputEvent now])
  else if ch = 8 ∧ con.index ≠ 0 then (conInputDel con,[delEvent now])
  else (conInputPush ch con,[echoEvent now ch])

theorem usart3HandleIt_pushes (ch : UInt8) (now : UInt32) (s : Shell) :
    usart3HandleIt ch now s =
      (usart3Pushes ch now s.con).2.foldl Shell.push
        { s with con := (usart3Pushes ch now s.con).1 } := by
  rw [usart3HandleIt,usart3Pushes]
  split
  · rfl
  · split
    · rfl
    · split <;> rfl

/-- The text left of the cursor. A backspace takes the cursor back over one character. -/
def putChar (text : Str) (ch : UInt8) : Str := if ch = 8 then text.dropLast else text ++ [ch]

/-- What `event_loop` prints for the events of the handler. -/
def printEvent (text : Str) (e : Event) : Str :=
  match e.type with
  | .conEcho => if e.par ≠ 0 then putChar text e.par.toUInt8 else text
  | .conDel => putChar text 8
  | _ => text

/-- The string `cmd_tokenize` is given; `behind` is the memory behind the array. -/
def passedLine (behind : Str) (con : Con) : Str := (conInputData con ++ behind).takeWhile (· ≠ 0)

/-- How the line is meant to be edited. -/
def editLine (line : Str) (ch : UInt8) : Str :=
  if ch = 8 then line.dropLast
  else if line.length < maxConsoleInput then line ++ [ch]
  else line

/-- `line` is history: the line as it is meant to be. -/
structure Typing where
  con : Con
  text : Str
  line : Str

/-- A byte before the carriage return, with the time of its events. -/
def typeStep (s : Typing) (b : UInt8 × UInt32) : Option Typing :=
  if b.1 = 13 then none
  else some ⟨(usart3Pushes b.1 b.2 s.con).1,(usart3Pushes b.1 b.2 s.con).2.foldl printEvent s.text,
    editLine s.line b.1⟩

/-- After `con_reset` and `con_prompt`. -/
def typingStart (con : Con) : Typing := ⟨conReset con,prompt,[]⟩

/-- A carriage return now passes the line and closes the row it stands in. -/
def LineEdited (behind : Str) (s : Typing) : Prop :=
  ∀ now, passedLine behind (usart3Pushes 13 now s.con).1 = s.line ∧
    (usart3Pushes 13 now s.con).2.foldl printEvent s.text = prompt ++ s.line ++ [10]

/-- A backspace has something to delete. Another byte finds room, is not the terminator
and has one behind it; on a full line only the terminator does no harm, as it is
neither stored nor printed. -/
def EditsCleanly (behind : Str) (s : Typing) (b : UInt8 × UInt32) : Prop :=
  if b.1 = 13 then True
  else if b.1 = 8 then s.con.index ≠ 0
  else if s.con.index < maxConsoleInput then
    b.1 ≠ 0 ∧ (s.con.index+1 = maxConsoleInput → ∀ c ∈ behind.head?, c = 0)
  else b.1 = 0

/-! The parts of a step. -/

theorem printEvent_echo (text : Str) (now : UInt32) (ch : UInt8) :
    printEvent text (echoEvent now ch) = if ch = 0 then text else putChar text ch := by
  have hpar : ((UInt32.ofNat ch.toNat).toUInt8 = ch) := by
    apply UInt8.toNat_inj.mp
    simp
  have hzero : UInt32.ofNat ch.toNat = 0 ↔ ch = 0 := by
    rw [← UInt32.toNat_inj,← UInt8.toNat_inj]
    simp
  simp only [printEvent,echoEvent,ne_eq,hzero,hpar]
  split <;> simp_all

theorem usart3Pushes_cr {con : Con} (hl : con.lock = false) (now : UInt32) :
    usart3Pushes 13 now con = (conInputLock con,[echoEvent now 10,inputEvent now]) := by
  simp [usart3Pushes,hl]

theorem lineEdited_iff (behind : Str) {s : Typing} (hl : s.con.lock = false) :
    LineEdited behind s ↔ passedLine behind s.con = s.line ∧ s.text = prompt ++ s.line := by
  have hecho : ∀ now, [echoEvent now 10,inputEvent now].foldl printEvent s.text =
      s.text ++ [10] := by
    intro now
    rw [List.foldl_cons,printEvent_echo]
    rfl
  simp only [LineEdited,usart3Pushes_cr hl,hecho,List.append_cancel_right_eq]
  exact ⟨fun h => h 0,fun h _ => h⟩

/-- The array holds the line and zeros behind it. -/
structure TypingInv (behind : Str) (s : Typing) : Prop where
  unlocked : s.con.lock = false
  index : s.con.index = s.line.length
  fits : s.line.length ≤ maxConsoleInput
  stored : ∀ j : Fin maxConsoleInput, s.con.input j = s.line.getD j.val 0
  nonzero : 0 ∉ s.line
  terminated : s.line.length = maxConsoleInput → ∀ c ∈ behind.head?, c = 0
  shown : s.text = prompt ++ s.line

theorem conInputData_stored {con : Con} {line : Str} (hfits : line.length ≤ maxConsoleInput)
    (hstored : ∀ j : Fin maxConsoleInput, con.input j = line.getD j.val 0) :
    conInputData con = line ++ List.replicate (maxConsoleInput-line.length) 0 := by
  apply List.ext_getElem
  · simp [conInputData]
    omega
  · intro j hj hj'
    simp only [conInputData,List.getElem_ofFn,hstored]
    by_cases hlt : j < line.length
    · rw [List.getD_eq_getElem _ _ hlt,List.getElem_append_left hlt]
    · rw [List.getD_eq_default _ _ (by omega),List.getElem_append_right (by omega),
        List.getElem_replicate]

theorem takeWhile_string {line rest : Str} (hz : 0 ∉ line) :
    (line ++ rest).takeWhile (· ≠ 0) = line ++ rest.takeWhile (· ≠ 0) := by
  rw [List.takeWhile_append_of_pos]
  intro c hc
  simp only [ne_eq,decide_eq_true_eq]
  rintro rfl
  exact hz hc

/-- What is passed is the line, unless it fills the array. -/
theorem passedLine_stored (behind : Str) {con : Con} {line : Str}
    (hfits : line.length ≤ maxConsoleInput)
    (hstored : ∀ j : Fin maxConsoleInput, con.input j = line.getD j.val 0) (hz : 0 ∉ line) :
    passedLine behind con = if line.length = maxConsoleInput then line ++ behind.takeWhile (· ≠ 0)
      else line := by
  rw [passedLine,conInputData_stored hfits hstored,List.append_assoc,takeWhile_string hz]
  split
  · rename_i hfull
    simp [hfull]
  · rename_i hfull
    obtain ⟨k,hk⟩ : ∃ k, maxConsoleInput-line.length = k+1 :=
      ⟨maxConsoleInput-line.length-1,by omega⟩
    simp [hk,List.replicate_succ]

theorem takeWhile_eq_nil_iff_head (behind : Str) :
    behind.takeWhile (· ≠ 0) = [] ↔ ∀ c ∈ behind.head?, c = 0 := by
  cases behind with
  | nil => simp
  | cons c behind => by_cases hc : c = 0 <;> simp [hc]

theorem TypingInv.edited {behind : Str} {s : Typing} (h : TypingInv behind s) :
    LineEdited behind s := by
  refine (lineEdited_iff behind h.unlocked).mpr ⟨?_,h.shown⟩
  rw [passedLine_stored behind h.fits h.stored h.nonzero]
  split
  · rename_i hfull
    rw [(takeWhile_eq_nil_iff_head behind).mpr (h.terminated hfull),List.append_nil]
  · rfl

theorem usart3Pushes_del {con : Con} (hl : con.lock = false) (hi : con.index ≠ 0) (now : UInt32) :
    usart3Pushes 8 now con = (conInputDel con,[delEvent now]) := by
  simp [usart3Pushes,hl,hi]

theorem usart3Pushes_other {con : Con} {ch : UInt8} (hl : con.lock = false) (h13 : ch ≠ 13)
    (hdel : ¬ (ch = 8 ∧ con.index ≠ 0)) (now : UInt32) :
    usart3Pushes ch now con = (conInputPush ch con,[echoEvent now ch]) := by
  rw [usart3Pushes,if_neg (by simp [hl]),if_neg h13,if_neg hdel]

theorem conInputPush_full {con : Con} (hi : maxConsoleInput ≤ con.index) (ch : UInt8) :
    conInputPush ch con = con := by
  rw [conInputPush,dif_pos (.inr hi)]

theorem push_stored {con : Con} {line : Str} (hl : con.lock = false) (hi : con.index = line.length)
    (hroom : line.length < maxConsoleInput)
    (hstored : ∀ j : Fin maxConsoleInput, con.input j = line.getD j.val 0) (ch : UInt8)
    (j : Fin maxConsoleInput) : (conInputPush ch con).input j = (line ++ [ch]).getD j.val 0 := by
  rw [conInputPush,dif_neg (by simp [hl]; omega)]
  by_cases hj : j.val = line.length
  · have hj' : j = ⟨con.index,by omega⟩ := Fin.ext (by simp [hj,hi])
    simp [hj',hi]
  · have hj' : j ≠ ⟨con.index,by omega⟩ := fun he => hj (by rw [he]; exact hi)
    simp only [Function.update_of_ne hj',hstored]
    rcases Nat.lt_or_gt_of_ne hj with hlt | hgt
    · rw [List.getD_append _ _ _ _ hlt]
    · rw [List.getD_eq_default _ _ (by omega),List.getD_eq_default _ _ (by simp; omega)]

theorem del_stored {con : Con} {line : Str} (hi : con.index = line.length) (hne : con.index ≠ 0)
    (hstored : ∀ j : Fin maxConsoleInput, con.input j = line.getD j.val 0)
    (j : Fin maxConsoleInput) :
    (conInputDel con).input j = line.dropLast.getD j.val 0 := by
  rw [conInputDel,if_pos hne]
  simp only [hstored,hi]
  by_cases hlt : j.val < line.length-1
  · rw [if_neg (by omega),List.getD_eq_getElem _ _ (by omega),
      List.getD_eq_getElem _ _ (by simpa using hlt),List.getElem_dropLast]
  · rw [List.getD_eq_default line.dropLast _ (by simp; omega)]
    split
    · rfl
    · rw [List.getD_eq_default _ _ (by omega)]

theorem TypingInv.step {behind : Str} {s t : Typing} {b : UInt8 × UInt32} (h : TypingInv behind s)
    (hok : EditsCleanly behind s b) (hs : typeStep s b = some t) : TypingInv behind t := by
  obtain ⟨ch,now⟩ := b
  have hi := h.index
  have hfits := h.fits
  by_cases h13 : ch = 13
  · simp [typeStep,h13] at hs
  simp only [typeStep,if_neg h13,Option.some.injEq] at hs
  simp only [EditsCleanly,if_neg h13] at hok
  subst hs
  by_cases h8 : ch = 8
  · subst h8
    have hne : s.con.index ≠ 0 := hok
    have hline : s.line ≠ [] := fun he => hne (by rw [hi,he]; rfl)
    simp only [usart3Pushes_del h.unlocked hne,editLine,if_true]
    refine ⟨(conInputDel_lock _).trans h.unlocked,?_,?_,?_,?_,?_,?_⟩
    · rw [conInputDel,if_pos hne]
      simp [hi]
    · simp; omega
    · exact del_stored hi hne h.stored
    · exact fun hz => h.nonzero (List.mem_of_mem_dropLast hz)
    · have := List.length_pos_of_ne_nil hline
      simp
      omega
    · rw [h.shown]
      exact List.dropLast_append_of_ne_nil hline
  · have hpush := usart3Pushes_other h.unlocked h13 (fun hc => h8 hc.1) now
    simp only [hpush,List.foldl_cons,List.foldl_nil,printEvent_echo,editLine,if_neg h8]
    by_cases hroom : s.line.length < maxConsoleInput
    · obtain ⟨hz,hbehind⟩ : ch ≠ 0 ∧ (s.con.index+1 = maxConsoleInput →
          ∀ c ∈ behind.head?, c = 0) := by
        simpa [h8,hi,hroom] using hok
      simp only [if_pos hroom,if_neg hz]
      refine ⟨(conInputPush_lock _ _).trans h.unlocked,?_,?_,?_,?_,?_,?_⟩
      · rw [(conInputPush_index h.unlocked (by omega) ch).1,hi]
        simp
      · simp; omega
      · exact push_stored h.unlocked hi hroom h.stored ch
      · simpa [Ne.symm hz] using h.nonzero
      · intro hfull
        exact hbehind (by simp at hfull; omega)
      · rw [h.shown,putChar,if_neg h8,List.append_assoc]
    · have hzero : ch = 0 := by simpa [h8,hi,hroom] using hok
      rw [conInputPush_full (by omega),if_neg hroom,if_pos hzero]
      exact h

/-- A byte outside the condition spoils the line or the row at once. -/
theorem TypingInv.misedits {behind : Str} {s : Typing} {b : UInt8 × UInt32} (h : TypingInv behind s)
    (hn : ¬ EditsCleanly behind s b) : ∃ t, typeStep s b = some t ∧ ¬ LineEdited behind t := by
  obtain ⟨ch,now⟩ := b
  have hi := h.index
  have hfits := h.fits
  by_cases h13 : ch = 13
  · simp [EditsCleanly,h13] at hn
  simp only [EditsCleanly,if_neg h13] at hn
  -- a byte that is no carriage return and deletes nothing goes to `con_input_push`
  have hplain : ¬ (ch = 8 ∧ s.con.index ≠ 0) := fun hc => hn (by simpa [hc.1] using hc.2)
  have hpush := usart3Pushes_other h.unlocked h13 hplain now
  refine ⟨_,if_neg h13,fun he => ?_⟩
  rw [lineEdited_iff behind (by simp [hpush,h.unlocked])] at he
  simp only [hpush,List.foldl_cons,List.foldl_nil,printEvent_echo,h.shown,editLine] at he
  obtain ⟨hpassed,htext⟩ := he
  by_cases h8 : ch = 8
  · have hempty : s.line = [] := by
      rw [← List.length_eq_zero_iff,← hi]
      simpa [h8] using hn
    have hstored := push_stored h.unlocked hi (by simp [hempty,maxConsoleInput]) h.stored ch
    rw [hempty,h8] at hstored
    rw [h8,passedLine_stored behind (by simp [maxConsoleInput]) hstored (by simp),hempty] at hpassed
    simp [maxConsoleInput] at hpassed
  · rw [if_neg h8] at hn hpassed htext
    by_cases hroom : s.line.length < maxConsoleInput
    · simp only [if_pos hroom,hi] at hn hpassed htext
      by_cases hz : ch = 0
      · simp [hz] at htext
      · have hstored := push_stored h.unlocked hi hroom h.stored ch
        have hnz : 0 ∉ s.line ++ [ch] := by simpa [Ne.symm hz] using h.nonzero
        rw [passedLine_stored behind (by simp; omega) hstored hnz] at hpassed
        refine hn ⟨hz,fun hfull => (takeWhile_eq_nil_iff_head behind).mp ?_⟩
        simpa [hfull] using hpassed
    · simp only [if_neg hroom,hi] at hn htext
      simp [hn,putChar,h8] at htext

/-- A carriage return passes the line that was typed, as it stands on the terminal, after
every prefix of what is typed exactly when every byte of it edits cleanly. -/
theorem lineRun_edited_iff (behind : Str) (con : Con) (bytes : List (UInt8 × UInt32)) :
    Always typeStep (LineEdited behind) (typingStart con) bytes ↔
      Guarded typeStep (EditsCleanly behind) (typingStart con) bytes := by
  have hstart : TypingInv behind (typingStart con) :=
    ⟨rfl,rfl,Nat.zero_le _,fun _ => rfl,List.not_mem_nil,
      fun hfull => by simp [typingStart,maxConsoleInput] at hfull,
      by simp [typingStart]⟩
  exact always_iff_guarded (fun _ h => h.edited) (fun _ _ _ h hok hs => h.step hok hs)
    (fun _ _ h hn => h.misedits hn) bytes (typingStart con) hstart

/-- A backspace on the empty line becomes a character of it. -/
theorem lineRun_backspace : ¬ Always typeStep (LineEdited [0]) (typingStart conInit) [(8,0)] := by
  intro h
  have hpassed := ((h.2 _ rfl) 0).1
  revert hpassed
  decide

end Mardio
