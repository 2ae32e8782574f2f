import Mardio.Event

/-!
Emptiness at the wrap of the counters. The number of queued elements is a difference
modulo 2^32, but a removal compares the two counters as they are: when the head has
wrapped and the tail has not, the queue counts as empty for one and not for the other.
-/

set_option autoImplicit false

namespace Mardio
open CounterRing Fifo Runs

/-- Removing and peeking fail exactly when nothing is counted as used. -/
def EmptyAgrees (t : Traced) : Prop :=
  ((ioPop t.io.i).1 = 0xFFFF ↔ ioUsed t.io.i = 0) ∧
    ((ioPop t.io.o).1 = 0xFFFF ↔ ioUsed t.io.o = 0) ∧
    (oPeek t.io = none ↔ ioUsed t.io.o = 0)

def EvEmptyAgrees (t : EvTraced) : Prop := (eventPop t.ev).1.type = .none ↔ t.ev.head = t.ev.tail

def EvOp.isPush : EvOp → Bool
  | .push _ => true
  | .pop => false

/-- No event is queued that means the absence of one. -/
def EvOp.proper : EvOp → Prop
  | .push e => e.type ≠ .none
  | .pop => True

theorem popSlot_none_iff {n : Nat} [NeZero n] (io : IoS n) :
    (popSlot io).1 = none ↔ (ioPop io).1 = 0xFFFF := by
  simp [popSlot]

theorem LosslessInv.emptyAgrees {t : Traced} (h : LosslessInv t) : EmptyAgrees t := by
  have hi := h.ins.pop_none_iff maxInputBuffers_lt
  have ho := h.outs.pop_none_iff maxOutputBuffers_lt
  refine ⟨(popSlot_none_iff _).symm.trans hi,(popSlot_none_iff _).symm.trans ho,?_⟩
  rw [oPeek_eq_oPop]
  exact ho

/-- The push that takes the head counter round. -/
theorem push_wraps {n : Nat} (hn : n < 2^16) (io : IoS n) (hq : io.queued < n)
    (hh : io.head.toNat+1 = 2^32) :
    ¬ ((ioPop (ioPush io).2).1 = 0xFFFF ↔ ioUsed (ioPush io).2 = 0) := by
  have hhead : io.head+1 = 0 := by
    apply UInt32.toNat_inj.mp
    simp [hh]
  have hpush : (ioPush io).2 = ⟨0,io.tail⟩ := by rw [ioPush_below io hn hq.le,hhead]
  have hqueued := queued_push io (by omega)
  rw [hhead] at hqueued
  have hpop : (ioPop (⟨0,io.tail⟩ : IoS n)).1 = 0xFFFF := by simp [ioPop]
  have hused : ioUsed (⟨0,io.tail⟩ : IoS n) ≠ 0 := by
    rw [Ne,used_eq_zero_iff _ (by omega)]
    omega
  rw [hpush]
  exact fun h => hused (h.mp hpop)

theorem LosslessInv.wraps {t : Traced} {op : IoOp} (h : LosslessInv t) (hfree : FreeGuard t op)
    (hn : ¬ CounterRoom t op) : ∃ u, ioStep t op = some u ∧ ¬ EmptyAgrees u := by
  cases op with
  | iPush b =>
    have hq := queued_lt_of_free t.io.i maxInputBuffers_lt h.ins.bounded hfree
    have hc : t.io.i.head.toNat = (pushed t.ins).length := h.ins.count
    have hlt := t.io.i.head.toNat_lt
    have hlast : ¬ (pushed t.ins).length+1 < 2^32 :=
      fun hlt => hn ⟨fun _ => hlt,by simp [IoOp.isOPush]⟩
    exact ⟨_,rfl,fun ha => push_wraps maxInputBuffers_lt t.io.i hq (by omega) ha.1⟩
  | oPush b =>
    have hq := queued_lt_of_free t.io.o maxOutputBuffers_lt h.outs.bounded hfree
    have hc : t.io.o.head.toNat = (pushed t.outs).length := h.outs.count
    have hlt := t.io.o.head.toNat_lt
    have hlast : ¬ (pushed t.outs).length+1 < 2^32 :=
      fun hlt => hn ⟨by simp [IoOp.isIPush],fun _ => hlt⟩
    exact ⟨_,rfl,fun ha => push_wraps maxOutputBuffers_lt t.io.o hq (by omega) ha.2.1⟩
  | iPop => exact absurd ⟨by simp [IoOp.isIPush],by simp [IoOp.isOPush]⟩ hn
  | oPop => exact absurd ⟨by simp [IoOp.isIPush],by simp [IoOp.isOPush]⟩ hn
  | oPeek => exact absurd ⟨by simp [IoOp.isIPush],by simp [IoOp.isOPush]⟩ hn

/-- The two ways to see an empty ring agree along exactly those runs that push less
than 2^32 times on each ring. -/
theorem emptyAgrees_iff (s : Io) (ops : List IoOp)
    (hg : Guarded ioStep FreeGuard (afterInit s) ops) :
    Always ioStep EmptyAgrees (afterInit s) ops ↔
      ops.countP IoOp.isIPush < 2^32 ∧ ops.countP IoOp.isOPush < 2^32 := by
  have hcount := counterRoom_iff ops (afterInit s) (by simp [afterInit,pushed])
    (by simp [afterInit,pushed])
  simp only [afterInit,pushed,List.length_nil,Nat.zero_add] at hcount
  rw [← hcount]
  exact always_iff_guarded_under (fun _ h => LosslessInv.emptyAgrees h)
    (fun _ _ _ h hf hr hs => h.step ⟨hf,hr⟩ hs) (fun _ _ h hf hn => h.wraps hf hn) ops (afterInit s)
    ⟨RingLossless.empty _,RingLossless.empty _⟩ hg

/-! The event queue. It drops events, so what is kept is only the order of the counters
and that every slot ever filled holds an event. -/

structure EvWrapInv (t : EvTraced) : Prop where
  ordered : t.ev.tail.toNat ≤ t.ev.head.toNat
  bounded : t.ev.used ≤ maxEvents+1
  filled : ∀ j < t.ev.head.toNat, (t.ev.slots (slotOf maxEvents j)).type ≠ .none
  count : t.ev.head.toNat = (pushed t.obs).length

theorem EvWrapInv.agrees {t : EvTraced} (h : EvWrapInv t) : EvEmptyAgrees t := by
  have ho := h.ordered
  by_cases hlt : t.ev.tail < t.ev.head
  · have hn := UInt32.lt_iff_toNat_lt.mp hlt
    have htype : (eventPop t.ev).1.type ≠ .none := by
      rw [eventPop_some hlt]
      exact h.filled t.ev.tail.toNat hn
    have hne : t.ev.head ≠ t.ev.tail := fun he => by rw [he] at hn; omega
    exact iff_of_false htype hne
  · have he : t.ev.head = t.ev.tail := by
      rw [UInt32.lt_iff_toNat_lt] at hlt
      exact UInt32.toNat_inj.mp (by omega)
    exact iff_of_true (by rw [eventPop_none hlt]; rfl) he

def EvCounterRoom (t : EvTraced) (op : EvOp) : Prop :=
  op.isPush = true → (pushed t.obs).length+1 < 2^32

theorem eventPush_used {ev : Ev} (h : ev.used ≤ maxEvents+1) (e : Event) :
    0 < (eventPush e ev).used ∧ (eventPush e ev).used ≤ maxEvents+1 := by
  have hmax : maxEvents = 8 := rfl
  rw [eventPush_eq]
  split
  · have htake := take_used ev (by omega)
    rw [put_used _ e (by omega)]
    omega
  · rw [put_used _ e (by omega)]
    omega

theorem EvWrapInv.step {t u : EvTraced} {op : EvOp} (h : EvWrapInv t) (hp : op.proper)
    (hr : EvCounterRoom t op) (hs : evStep t op = some u) : EvWrapInv u := by
  have ho := h.ordered
  have hc := h.count
  cases op with
  | push e =>
    cases hs
    have hroom := hr rfl
    have hhead : (eventPush e t.ev).head.toNat = t.ev.head.toNat+1 := by
      simp only [eventPush,toNat_succ]
      omega
    refine ⟨?_,(eventPush_used h.bounded e).2,fun j hj => ?_,by simp [hhead,hc,pushed]⟩
    · rw [hhead]
      simp only [eventPush]
      split
      · rw [toNat_succ]
        omega
      · omega
    · rw [hhead] at hj
      simp only [eventPush]
      by_cases hslot : slotOf maxEvents j = slotOf maxEvents t.ev.head.toNat
      · rw [hslot,Function.update_self]
        exact hp
      · have hne : j ≠ t.ev.head.toNat := fun he => hslot (by rw [he])
        rw [Function.update_of_ne hslot]
        exact h.filled j (by omega)
  | pop =>
    cases hs
    by_cases hlt : t.ev.tail < t.ev.head
    · have hn := UInt32.lt_iff_toNat_lt.mp hlt
      have hb := t.ev.head.toNat_lt
      have hused := take_used t.ev (used_pos_of_lt t.ev hlt)
      have hbound := h.bounded
      refine ⟨?_,?_,?_,?_⟩
      · simp only [eventPop_some hlt,take,toNat_succ]
        omega
      · simp only [eventPop_some hlt]
        omega
      · simpa only [eventPop_some hlt,take] using h.filled
      · simpa [eventPop_some hlt,take,pushed] using hc
    · refine ⟨?_,?_,?_,?_⟩
      · simpa only [eventPop_none hlt] using ho
      · simpa only [eventPop_none hlt] using h.bounded
      · simpa only [eventPop_none hlt] using h.filled
      · simpa [eventPop_none hlt,pushed] using hc

theorem EvWrapInv.wraps {t : EvTraced} {op : EvOp} (h : EvWrapInv t) (hn : ¬ EvCounterRoom t op) :
    ∃ u, evStep t op = some u ∧ ¬ EvEmptyAgrees u := by
  cases op with
  | pop => exact absurd (by simp [EvCounterRoom,EvOp.isPush]) hn
  | push e =>
    have hlast : ¬ (pushed t.obs).length+1 < 2^32 := fun hlt => hn fun _ => hlt
    have hlt := t.ev.head.toNat_lt
    have hc := h.count
    have hround : t.ev.head.toNat+1 = 2^32 := by omega
    have hhead : (eventPush e t.ev).head = 0 := by
      apply UInt32.toNat_inj.mp
      simp [eventPush,hround]
    have hpop : (eventPop (eventPush e t.ev)).1.type = .none := by
      rw [eventPop_none (by simp [hhead])]
      rfl
    refine ⟨_,rfl,fun ha => ?_⟩
    have hempty : (eventPush e t.ev).head = (eventPush e t.ev).tail := ha.mp hpop
    have hused := (eventPush_used h.bounded e).1
    simp [used,hempty] at hused

theorem evStep_total (t : EvTraced) (op : EvOp) : ∃ u, evStep t op = some u := by
  cases op <;> exact ⟨_,rfl⟩

theorem evStep_pushed {t u : EvTraced} {op : EvOp} (hs : evStep t op = some u) :
    (pushed u.obs).length = (pushed t.obs).length+op.isPush.toNat := by
  cases op <;> cases hs <;> simp [EvOp.isPush,pushed]

theorem evInit_wrapInv : EvWrapInv ⟨eventInit,[]⟩ where
  ordered := Nat.le_refl _
  bounded := by simp [used,eventInit]
  filled := by simp [eventInit]
  count := rfl

theorem evEmptyAgrees_iff (ops : List EvOp)
    (hp : Guarded evStep (fun _ op => op.proper) ⟨eventInit,[]⟩ ops) :
    Always evStep EvEmptyAgrees ⟨eventInit,[]⟩ ops ↔ ops.countP EvOp.isPush < 2^32 := by
  have hcount := guarded_count_iff (fun t : EvTraced => (pushed t.obs).length) (p := EvOp.isPush)
    evStep_total (fun _ _ _ hs => evStep_pushed hs) (2^32) ops ⟨eventInit,[]⟩ (by simp [pushed])
  simp only [pushed,List.length_nil,Nat.zero_add] at hcount
  rw [← hcount]
  exact always_iff_guarded_under (fun _ h => EvWrapInv.agrees h)
    (fun _ _ _ h hp hr hs => h.step hp hr hs)
    (fun _ _ h _ hn => h.wraps hn) ops ⟨eventInit,[]⟩ evInit_wrapInv hp

/-- On the rings and on the event queue alike, the two ways to see emptiness agree in
every state of a run exactly when it pushes less than 2^32 times on each. -/
theorem emptiness_iff (s : Io) (ops : List IoOp) (events : List EvOp)
    (hg : Guarded ioStep FreeGuard (afterInit s) ops)
    (hp : Guarded evStep (fun _ op => op.proper) ⟨eventInit,[]⟩ events) :
    (Always ioStep EmptyAgrees (afterInit s) ops ↔
      ops.countP IoOp.isIPush < 2^32 ∧ ops.countP IoOp.isOPush < 2^32) ∧
    (Always evStep EvEmptyAgrees ⟨eventInit,[]⟩ events ↔ events.countP EvOp.isPush < 2^32) :=
  ⟨emptyAgrees_iff s ops hg,evEmptyAgrees_iff events hp⟩

theorem emptiness_sample :
    (Always ioStep EmptyAgrees (afterInit Io.zero) sampleOps ↔
      sampleOps.countP IoOp.isIPush < 2^32 ∧ sampleOps.countP IoOp.isOPush < 2^32) ∧
    (Always evStep EvEmptyAgrees ⟨eventInit,[]⟩ [.push stopEvent,.pop,.pop] ↔
      [EvOp.push stopEvent,.pop,.pop].countP EvOp.isPush < 2^32) :=
  emptiness_iff Io.zero sampleOps [.push stopEvent,.pop,.pop] (by decide)
    ⟨by simp [EvOp.proper,stopEvent],fun _ _ => ⟨trivial,fun _ _ => ⟨trivial,fun _ _ => trivial⟩⟩⟩

/-- A producer and a consumer that take turns, and one more push. -/
def pushPops (b : Input) (k : Nat) : List IoOp :=
  (List.replicate k [IoOp.iPush b,IoOp.iPop]).flatten ++ [IoOp.iPush b]

theorem pushPops_succ (b : Input) (k : Nat) :
    pushPops b (k+1) = IoOp.iPush b :: IoOp.iPop :: pushPops b k := by
  simp [pushPops,List.replicate_succ]

theorem pushPops_count (b : Input) (k : Nat) : (pushPops b k).countP IoOp.isIPush = k+1 := by
  induction k with
  | zero => rfl
  | succ k ih => simp [pushPops_succ,List.countP_cons,IoOp.isIPush,ih]

theorem free_of_empty {n : Nat} (hn : n < 2^16) (hpos : 0 < n) (io : IoS n)
    (he : io.head = io.tail) :
    io.queued = 0 ∧ ioFree io ≠ 0 := by
  have hq : io.queued = 0 := by simp [IoS.queued,he]
  have hfree := ioFree_toNat io hn (by omega)
  refine ⟨hq,fun h0 => ?_⟩
  rw [h0,UInt16.toNat_zero] at hfree
  omega

/-- As long as the head counter has room for the turns, every push finds the ring empty. -/
theorem pushPops_free (b : Input) (k : Nat) (t : Traced) (he : t.io.i.head = t.io.i.tail)
    (hk : t.io.i.head.toNat+k < 2^32) : Guarded ioStep FreeGuard t (pushPops b k) := by
  induction k generalizing t with
  | zero =>
    obtain ⟨-,hfree⟩ := free_of_empty maxInputBuffers_lt (by decide) t.io.i he
    exact ⟨hfree,fun _ _ => trivial⟩
  | succ k ih =>
    obtain ⟨hq,hfree⟩ := free_of_empty maxInputBuffers_lt (by decide) t.io.i he
    have hpush : (ioPush t.io.i).2 = ⟨t.io.i.head+1,t.io.i.tail⟩ :=
      ioPush_below _ maxInputBuffers_lt (by omega)
    have hhead : (t.io.i.head+1).toNat = t.io.i.head.toNat+1 := by
      rw [toNat_succ]
      omega
    have hlt : t.io.i.tail < t.io.i.head+1 := by
      rw [UInt32.lt_iff_toNat_lt,hhead,he]
      omega
    rw [pushPops_succ]
    refine ⟨hfree,fun t1 h1 => ⟨trivial,fun t2 h2 => ?_⟩⟩
    cases h1
    cases h2
    have hturn : (popSlot (ioPush t.io.i).2).2 = ⟨t.io.i.head+1,t.io.i.tail+1⟩ := by
      rw [hpush,popSlot_some maxInputBuffers_lt _ hlt]
    refine ih _ ?_ ?_
    · change (popSlot (ioPush t.io.i).2).2.head = (popSlot (ioPush t.io.i).2).2.tail
      rw [hturn,he]
    · change (popSlot (ioPush t.io.i).2).2.head.toNat+k < 2^32
      rw [hturn,hhead]
      omega

theorem emptiness_at_wrap :
    Guarded ioStep FreeGuard (afterInit Io.zero) (pushPops ⟨[1],ioInputBufferSize,1⟩ (2^32-1)) ∧
      ¬ Always ioStep EmptyAgrees (afterInit Io.zero)
        (pushPops ⟨[1],ioInputBufferSize,1⟩ (2^32-1)) := by
  have hfree := pushPops_free ⟨[1],ioInputBufferSize,1⟩ (2^32-1) (afterInit Io.zero) rfl
    (by simp [afterInit,ioInit,ioResetInput,ioResetOutput])
  refine ⟨hfree,fun ha => ?_⟩
  have hcount := ((emptyAgrees_iff Io.zero _ hfree).mp ha).1
  rw [pushPops_count] at hcount
  omega

end Mardio
