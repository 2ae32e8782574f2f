import Mardio.Cmd
import Mardio.Lib.Runs

/-!
The console line. No operation writes a terminator: it has to be left over from
clearing, which fails once the line fills its array.
-/

set_option autoImplicit false

namespace Mardio
open Runs

def maxConsoleInput : Nat := 128

structure Con where
  lock : Bool
  index : Nat
  input : Fin maxConsoleInput → UInt8

def conInit : Con := ⟨false,0,fun _ => 0⟩

def conInputLock (con : Con) : Con := { con with lock := true }

def conInputUnlock (con : Con) : Con := { con with lock := false }

def conReset (con : Con) : Con := conInputUnlock { con with index := 0, input := fun _ => 0 }

def conInputPush (ch : UInt8) (con : Con) : Con :=
  if hc : con.lock ∨ maxConsoleInput ≤ con.index then con
  else
    { con with
      index := con.index+1
      input := Function.update con.input ⟨con.index,by omega⟩ ch }

/-- An index behind the array would be written to; no operation reaches one. -/
def conInputDel (con : Con) : Con :=
  if con.index ≠ 0 then
    { con with
      index := con.index-1
      input := fun j => if j.val = con.index-1 then 0 else con.input j }
  else con

/-- The array that `cmd_tokenize` is given the start of. -/
def conInputData (con : Con) : Str := List.ofFn con.input

inductive ConOp where
  | push (ch : UInt8) | del | lock | unlock | reset
  deriving DecidableEq, Repr

def conStep (con : Con) : ConOp → Option Con
  | .push ch => some (conInputPush ch con)
  | .del => some (conInputDel con)
  | .lock => some (conInputLock con)
  | .unlock => some (conInputUnlock con)
  | .reset => some (conReset con)

/-- The line is a string inside its array, so reading it as one stays there. -/
structure ConString (con : Con) : Prop where
  index : con.index ≤ maxConsoleInput
  zero : ∃ j : Fin maxConsoleInput, j.val = con.index ∧ con.input j = 0
  reads : ∀ h, cmdTokenize h (conInputData con) ≠ none

/-- A push on an unlocked console leaves room for the terminator. -/
def LeavesRoom (con : Con) : ConOp → Prop
  | .push _ => con.lock = true ∨ con.index+1 < maxConsoleInput
  | _ => True

/-- Behind the line everything is zero. -/
structure ConInv (con : Con) : Prop where
  room : con.index < maxConsoleInput
  clear : ∀ j : Fin maxConsoleInput, con.index ≤ j.val → con.input j = 0

theorem ConInv.data_terminated {con : Con} (h : ConInv con) : 0 ∈ conInputData con :=
  List.mem_ofFn.mpr ⟨⟨con.index,h.room⟩,h.clear _ le_rfl⟩

theorem conInputData_length (con : Con) : (conInputData con).length = cmdInputBufferSize := by
  rw [conInputData,List.length_ofFn]
  rfl

theorem ConInv.string {con : Con} (h : ConInv con) : ConString con where
  index := Nat.le_of_lt h.room
  zero := ⟨⟨con.index,h.room⟩,rfl,h.clear _ le_rfl⟩
  reads host := by
    have hl : lineLength (conInputData con) ≤ (conInputData con).length :=
      (List.takeWhile_sublist _).length_le
    rw [conInputData_length] at hl
    obtain ⟨ts,-,ht⟩ := cmdTokenize_terminated host h.data_terminated hl
    simp [ht]

theorem conReset_inv (con : Con) : ConInv (conReset con) :=
  ⟨show 0 < maxConsoleInput by decide,fun _ _ => rfl⟩

theorem ConInv.push {con : Con} (h : ConInv con) (ch : UInt8)
    (hr : con.lock = true ∨ con.index+1 < maxConsoleInput) : ConInv (conInputPush ch con) := by
  unfold conInputPush
  split
  · exact h
  · rename_i hc
    refine ⟨?_,fun j hj => ?_⟩
    · exact hr.resolve_left fun hl => hc (.inl hl)
    · have hne : j ≠ ⟨con.index,h.room⟩ := by
        rintro rfl
        simp at hj
      change Function.update con.input ⟨con.index,h.room⟩ ch j = 0
      rw [Function.update_of_ne hne]
      exact h.clear j (Nat.le_of_succ_le hj)

theorem ConInv.del {con : Con} (h : ConInv con) : ConInv (conInputDel con) := by
  have hroom := h.room
  unfold conInputDel
  split
  · refine ⟨by simp; omega,fun j hj => ?_⟩
    by_cases he : j.val = con.index-1
    · simp [he]
    · simp only [he,if_false]
      exact h.clear j (by simp at hj; omega)
  · exact h

theorem ConInv.step {con con' : Con} {op : ConOp} (h : ConInv con) (hr : LeavesRoom con op)
    (hs : conStep con op = some con') : ConInv con' := by
  cases op with
  | push ch =>
    cases hs
    exact h.push ch hr
  | del =>
    cases hs
    exact h.del
  | lock =>
    cases hs
    exact ⟨h.room,h.clear⟩
  | unlock =>
    cases hs
    exact ⟨h.room,h.clear⟩
  | reset =>
    cases hs
    exact conReset_inv con

theorem conInputPush_index {con : Con} (hl : con.lock = false) (hi : con.index < maxConsoleInput)
    (ch : UInt8) : (conInputPush ch con).index = con.index+1 ∧
      (conInputPush ch con).lock = false := by
  simp [conInputPush,hl,Nat.not_le.mpr hi]

theorem not_conString_of_full {con : Con} (h : maxConsoleInput ≤ con.index) : ¬ ConString con := by
  intro hs
  obtain ⟨j,hj,-⟩ := hs.zero
  have := j.isLt
  omega

/-- The push into the last place leaves no byte at the index. -/
theorem ConInv.push_last {con : Con} {op : ConOp} (h : ConInv con) (hr : ¬ LeavesRoom con op) :
    ∃ con', conStep con op = some con' ∧ ¬ ConString con' := by
  cases op with
  | push ch =>
    simp only [LeavesRoom,not_or,Bool.not_eq_true] at hr
    obtain ⟨hl,hfull⟩ := hr
    have hi := (conInputPush_index hl h.room ch).1
    exact ⟨_,rfl,not_conString_of_full (by omega)⟩
  | del => exact absurd trivial hr
  | lock => exact absurd trivial hr
  | unlock => exact absurd trivial hr
  | reset => exact absurd trivial hr

/-- The line is a string in every state exactly when no push made on an unlocked
console fills the last place of the array. -/
theorem conRun_string_iff (ops : List ConOp) :
    Always conStep ConString conInit ops ↔ Guarded conStep LeavesRoom conInit ops :=
  always_iff_guarded (fun _ h => ConInv.string h) (fun _ _ _ h hr hs => h.step hr hs)
    (fun _ _ h hr => h.push_last hr) ops conInit (conReset_inv conInit)

/-- Typing up to the end of the array. -/
theorem pushes_fill (ch : UInt8) (n : Nat) {con : Con} (hl : con.lock = false)
    (hn : con.index+n = maxConsoleInput) :
    ¬ Always conStep ConString con (List.replicate n (.push ch)) := by
  induction n generalizing con with
  | zero => exact not_conString_of_full (by omega)
  | succ n ih =>
    intro h
    obtain ⟨hi,hl'⟩ := conInputPush_index hl (by omega) ch
    exact ih hl' (by omega) (h.2 _ rfl)

theorem conRun_full_line :
    ¬ Always conStep ConString conInit (List.replicate maxConsoleInput (.push 97)) :=
  pushes_fill 97 maxConsoleInput rfl (by simp [conInit])

end Mardio
