import Mardio.IoFifo
import Mardio.Libc

/-!
The event queue between the console, the commands and the main loop. It has the
overflow test of the buffer rings, and the same slip in it.
-/

set_option autoImplicit false

namespace Mardio
open CounterRing Fifo Runs

def maxEvents : Nat := 8

instance : NeZero maxEvents := ⟨by decide⟩

inductive EventType where
  | none | conInput | conEcho | conDel | plStop | plPlay | plVolup | plVoldown | plVolset
  deriving DecidableEq, Repr

/-- What the pointer of an event designates: a place in the token buffer or the
address of a radio station. -/
inductive EventPtr where
  | null
  | tokenBuffer (offset : Nat)
  | radios (choice : Nat)
  deriving DecidableEq, Repr

/-- `origin` is history: the second token of the command line that made
`cmd_pl_play` queue the event. -/
structure Event where
  time : UInt32
  type : EventType
  par : UInt32
  ptr : EventPtr
  origin : Option Str
  deriving DecidableEq, Repr

def Event.none : Event := ⟨0,.none,0,.null,Option.none⟩

abbrev Ev := CounterRing Event maxEvents

def eventInit : Ev := ⟨0,0,fun _ => Event.none⟩

def eventPush (e : Event) (ev : Ev) : Ev :=
  { head := ev.head+1
    tail := if ev.head-ev.tail > UInt32.ofNat maxEvents then ev.tail+1 else ev.tail
    slots := Function.update ev.slots (slotOf maxEvents ev.head.toNat) e }

def eventPop (ev : Ev) : Event × Ev :=
  if ev.head > ev.tail then (ev.slots (slotOf maxEvents ev.tail.toNat),
    { ev with tail := ev.tail+1 })
  else (Event.none,ev)

theorem maxEvents_dvd : maxEvents ∣ 2^32 := by decide

/-- The push as operations of the ring. The oldest event is dropped only when
one more than the maximum is already queued. -/
theorem eventPush_eq (e : Event) (ev : Ev) :
    eventPush e ev = (if maxEvents < ev.used then ev.take else ev).put e := by
  have hiff : ev.head-ev.tail > UInt32.ofNat maxEvents ↔ maxEvents < ev.used :=
    UInt32.lt_iff_toNat_lt
  by_cases h : maxEvents < ev.used <;> simp [eventPush,hiff,h,put,take]

theorem eventPush_below {ev : Ev} (h : ev.used ≤ maxEvents) (e : Event) :
    eventPush e ev = ev.put e := by
  rw [eventPush_eq,if_neg (Nat.not_lt.mpr h)]

theorem eventPop_some {ev : Ev} (h : ev.tail < ev.head) :
    eventPop ev = ((ev.entry 0).2,ev.take) := by
  simp [eventPop,h,entry,take]

theorem eventPop_none {ev : Ev} (h : ¬ ev.tail < ev.head) : eventPop ev = (Event.none,ev) := by
  simp [eventPop,h]

inductive EvOp where
  | push : Event → EvOp
  | pop : EvOp

/-- The queue together with what its callers saw. -/
structure EvTraced where
  ev : Ev
  obs : List (Obs (Fin maxEvents × Event))

def evStep (t : EvTraced) : EvOp → Option EvTraced
  | .push e => some ⟨eventPush e t.ev,t.obs ++ [.push (slotOf maxEvents t.ev.head.toNat,e)]⟩
  | .pop =>
      let seen := if t.ev.head > t.ev.tail then
        some (slotOf maxEvents t.ev.tail.toNat,(eventPop t.ev).1) else Option.none
      some ⟨(eventPop t.ev).2,t.obs ++ [.pop seen]⟩

/-- No more than the maximum is pending, what was handed out is what a queue
dropping its oldest event would have handed out, in the order of the pushes and
nothing twice, and a pop takes an event whenever one is pending. -/
structure EvFifoOk (t : EvTraced) : Prop where
  pending : (t.ev.head-t.ev.tail).toNat ≤ maxEvents
  trace : ∃ q, Trace maxEvents t.obs q ∧ q.length = (t.ev.head-t.ev.tail).toNat
  order : (delivered t.obs).Sublist (pushed t.obs)
  ready : 0 < (t.ev.head-t.ev.tail).toNat → (eventPop t.ev).2.tail = t.ev.tail+1

/-- A push finds a free place and is not the one that wraps the head counter. -/
def EvRoom (t : EvTraced) : EvOp → Prop
  | .push _ => (t.ev.head-t.ev.tail).toNat < maxEvents ∧ t.ev.head.toNat+1 < 2^32
  | .pop => True

structure EvInv (t : EvTraced) : Prop where
  ring : RingTrace t.ev t.obs
  ordered : t.ev.tail.toNat ≤ t.ev.head.toNat

theorem EvInv.lt_of_pending {t : EvTraced} (h : EvInv t) (hp : 0 < t.ev.used) :
    t.ev.tail < t.ev.head := by
  have ho := h.ordered
  by_contra hn
  have he : t.ev.head = t.ev.tail := by
    rw [UInt32.lt_iff_toNat_lt] at hn
    exact UInt32.toNat_inj.mp (by omega)
  simp [used,he] at hp

theorem EvInv.ok {t : EvTraced} (h : EvInv t) : EvFifoOk t where
  pending := h.ring.bounded
  trace := ⟨_,h.ring.trace,contents_length _⟩
  order := h.ring.trace.delivered_sublist
  ready hp := by simp [eventPop_some (h.lt_of_pending hp),take]

theorem EvInv.step {t u : EvTraced} {op : EvOp} (h : EvInv t) (hf : EvRoom t op)
    (hs : evStep t op = some u) : EvInv u := by
  have ho := h.ordered
  cases op with
  | push e =>
    cases hs
    obtain ⟨hfree,hwrap⟩ := hf
    rw [eventPush_below h.ring.bounded]
    refine ⟨h.ring.put maxEvents_dvd (by decide) e hfree,?_⟩
    simp [put]
    omega
  | pop =>
    cases hs
    by_cases hlt : t.ev.tail < t.ev.head
    · rw [UInt32.lt_iff_toNat_lt] at hlt
      have hb := t.ev.head.toNat_lt
      have hr := h.ring.take maxEvents_dvd (UInt32.lt_iff_toNat_lt.mpr hlt)
      refine ⟨by simpa [UInt32.lt_iff_toNat_lt,hlt,eventPop,entry,take] using hr,?_⟩
      simp [eventPop,UInt32.lt_iff_toNat_lt,hlt]
      omega
    · have hr : RingTrace t.ev (t.obs ++ [.pop Option.none]) :=
        ⟨h.ring.bounded,h.ring.trace.popNone⟩
      refine ⟨?_,?_⟩ <;> simpa [hlt,eventPop_none hlt]

theorem EvInv.push_bad {t : EvTraced} {op : EvOp} (h : EvInv t) (hf : ¬ EvRoom t op) :
    ∃ u, evStep t op = some u ∧ ¬ EvFifoOk u := by
  cases op with
  | pop => exact absurd trivial hf
  | push e =>
    refine ⟨_,rfl,fun hok => ?_⟩
    have hb := h.ring.bounded
    have hlt : maxEvents+1 < 2^32 := by decide
    have hput := put_used t.ev e (by omega)
    obtain ⟨hp,-,-,hr⟩ := hok
    simp only [eventPush_below hb] at hp hr
    change (t.ev.put e).used ≤ maxEvents at hp
    -- the queue is not full, so this push wraps the head counter past the tail
    have hwrap : t.ev.head.toNat+1 = 2^32 := by
      have hh := t.ev.head.toNat_lt
      by_contra hne
      exact hf ⟨by change t.ev.used < maxEvents; omega,by omega⟩
    have hhead : (t.ev.put e).head = 0 := by
      apply UInt32.toNat_inj.mp
      simp [put,hwrap]
    have hpop := hr (by change 0 < (t.ev.put e).used; omega)
    rw [eventPop_none (by simp [hhead])] at hpop
    simp at hpop

theorem evInit_inv : EvInv ⟨eventInit,[]⟩ := ⟨RingTrace.empty _,by simp [eventInit]⟩

/-- The queue is a bounded one that drops its oldest event along exactly those
sequences of calls that never push on a full queue nor 2^32 times. -/
theorem evRun_fifo_iff (ops : List EvOp) :
    Always evStep EvFifoOk ⟨eventInit,[]⟩ ops ↔ Guarded evStep EvRoom ⟨eventInit,[]⟩ ops :=
  always_iff_guarded (fun _ h => EvInv.ok h) (fun _ _ _ h hf hs => h.step hf hs)
    (fun _ _ h hf => h.push_bad hf) ops ⟨eventInit,[]⟩ evInit_inv

def stopEvent : Event := ⟨0,.plStop,0,.null,Option.none⟩

theorem evRun_nine_pushes :
    ¬ Always evStep EvFifoOk ⟨eventInit,[]⟩ (List.replicate 9 (.push stopEvent)) := by
  intro h
  have h9 := (((((((((h.2 _ rfl).2 _ rfl).2 _ rfl).2 _ rfl).2 _ rfl).2 _ rfl).2 _ rfl).2 _ rfl).2 _
    rfl).pending
  revert h9
  decide

end Mardio
