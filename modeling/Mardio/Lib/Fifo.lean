import Mathlib

/-!
Traces of a bounded first-in first-out queue that drops its oldest element when
it is full. A failed removal is allowed in every state; an implementation that
never fails on a non-empty queue says so separately.
-/

set_option autoImplicit false

namespace Fifo

inductive Obs (β : Type) where
  | push : β → Obs β
  | pop : Option β → Obs β
  | peek : Option β → Obs β

def pushed {β : Type} : List (Obs β) → List β
  | [] => []
  | .push b :: os => b :: pushed os
  | .pop _ :: os => pushed os
  | .peek _ :: os => pushed os

def delivered {β : Type} : List (Obs β) → List β
  | [] => []
  | .push _ :: os => delivered os
  | .pop (some b) :: os => b :: delivered os
  | .pop none :: os => delivered os
  | .peek _ :: os => delivered os

def pushDrop {β : Type} (cap : Nat) (q : List β) (b : β) : List β :=
  if q.length < cap then q ++ [b] else q.tail ++ [b]

/-- `Trace cap os q`: the queue allows the trace `os` and holds `q` after it.
What a removal hands out is the oldest element neither removed nor dropped. -/
inductive Trace {β : Type} (cap : Nat) : List (Obs β) → List β → Prop where
  | nil : Trace cap [] []
  | push {os : List (Obs β)} {q : List β} (b : β) :
      Trace cap os q → Trace cap (os ++ [.push b]) (pushDrop cap q b)
  | pop {os : List (Obs β)} {q : List β} {b : β} :
      Trace cap os (b :: q) → Trace cap (os ++ [.pop (some b)]) q
  | popNone {os : List (Obs β)} {q : List β} :
      Trace cap os q → Trace cap (os ++ [.pop none]) q
  | peek {os : List (Obs β)} {q : List β} {b : β} :
      Trace cap os (b :: q) → Trace cap (os ++ [.peek (some b)]) (b :: q)
  | peekNone {os : List (Obs β)} {q : List β} :
      Trace cap os q → Trace cap (os ++ [.peek none]) q

@[simp] theorem pushed_append {β : Type} (os os' : List (Obs β)) :
    pushed (os ++ os') = pushed os ++ pushed os' := by
  induction os with
  | nil => rfl
  | cons o os ih => cases o <;> simp [pushed,ih]

@[simp] theorem delivered_append {β : Type} (os os' : List (Obs β)) :
    delivered (os ++ os') = delivered os ++ delivered os' := by
  induction os with
  | nil => rfl
  | cons o os ih =>
    cases o with
    | push b => simp [delivered,ih]
    | pop r => cases r <;> simp [delivered,ih]
    | peek r => simp [delivered,ih]

theorem pushDrop_sublist {β : Type} (cap : Nat) (q : List β) (b : β) :
    (pushDrop cap q b).Sublist (q ++ [b]) := by
  unfold pushDrop
  split
  · exact List.Sublist.refl _
  · exact (List.tail_sublist q).append_right [b]

/-- No element is handed out twice or out of order: what was delivered, followed
by what is queued, is a subsequence of what was pushed. -/
theorem Trace.sublist {β : Type} {cap : Nat} {os : List (Obs β)} {q : List β}
    (h : Trace cap os q) : (delivered os ++ q).Sublist (pushed os) := by
  induction h with
  | nil => simp [delivered,pushed]
  | @push os q b _ ih =>
    have hs := (pushDrop_sublist cap q b).append_left (delivered os)
    simpa [delivered,pushed] using hs.trans (by simpa using ih.append_right [b])
  | pop _ ih => simpa [delivered,pushed] using ih
  | popNone _ ih => simpa [delivered,pushed] using ih
  | peek _ ih => simpa [delivered,pushed] using ih
  | peekNone _ ih => simpa [delivered,pushed] using ih

theorem Trace.delivered_sublist {β : Type} {cap : Nat} {os : List (Obs β)} {q : List β}
    (h : Trace cap os q) : (delivered os).Sublist (pushed os) :=
  (List.sublist_append_left _ _).trans h.sublist

end Fifo
