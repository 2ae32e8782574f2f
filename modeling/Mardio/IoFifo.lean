import Mardio.Lib.Fifo
import Mardio.Lib.Runs
import Mardio.IoBuffer

/-!
Both rings against the bounded queue they stand for, over whole sequences of
ring operations. A producer's stores are part of its push.
-/

set_option autoImplicit false

namespace Mardio
open CounterRing Fifo Runs

inductive IoOp where
  | iPush : Input → IoOp
  | iPop : IoOp
  | oPush : Output → IoOp
  | oPop : IoOp
  | oPeek : IoOp

/-- The rings together with what their callers saw: the address of a slot and its
contents at that moment. -/
structure Traced where
  io : Io
  ins : List (Obs (Fin maxInputBuffers × Input))
  outs : List (Obs (Fin maxOutputBuffers × Output))

def ioStep (t : Traced) : IoOp → Option Traced
  | .iPush b =>
      let r := iPush t.io
      some { t with io := setInput r.2 r.1 b, ins := t.ins ++ [.push (r.1,b)] }
  | .iPop =>
      let r := iPop t.io
      some { t with io := r.2, ins := t.ins ++ [.pop (r.1.map fun p => (p,r.2.input p))] }
  | .oPush b =>
      let r := oPush t.io
      some { t with io := setOutput r.2 r.1 b, outs := t.outs ++ [.push (r.1,b)] }
  | .oPop =>
      let r := oPop t.io
      some { t with io := r.2, outs := t.outs ++ [.pop (r.1.map fun p => (p,r.2.output p))] }
  | .oPeek =>
      let r := oPeek t.io
      some { t with outs := t.outs ++ [.peek (r.map fun p => (p,t.io.output p))] }

def afterInit (s : Io) : Traced := ⟨ioInit s,[],[]⟩

structure RingTrace {β : Type} {n : Nat} [NeZero n] (r : CounterRing β n)
    (os : List (Obs (Fin n × β))) : Prop where
  bounded : r.used ≤ n
  trace : Trace n os r.contents

theorem RingTrace.put {β : Type} {n : Nat} [NeZero n] {r : CounterRing β n}
    {os : List (Obs (Fin n × β))} (hn : n ∣ 2^32) (hlt : n < 2^16)
    (h : RingTrace r os) (b : β) (hu : r.used < n) :
    RingTrace (r.put b) (os ++ [Obs.push (slotOf n r.head.toNat,b)]) := by
  refine ⟨?_,?_⟩
  · rw [put_used r b (by omega)]
    omega
  · have ht := Trace.push (slotOf n r.head.toNat,b) h.trace
    rw [pushDrop,contents_length,if_pos hu] at ht
    rwa [put_contents hn (by omega) r b hu]

theorem RingTrace.take {β : Type} {n : Nat} [NeZero n] {r : CounterRing β n}
    {os : List (Obs (Fin n × β))} (hn : n ∣ 2^32) (h : RingTrace r os) (ho : r.tail < r.head) :
    RingTrace r.take (os ++ [Obs.pop (some (r.entry 0))]) := by
  have hu := used_pos_of_lt r ho
  have hused := take_used r hu
  have hb := h.bounded
  have ht := h.trace
  rw [contents_eq_cons hn _ hu] at ht
  exact ⟨by omega,ht.pop⟩

theorem RingTrace.pop {β : Type} {n : Nat} [NeZero n] {io : IoS n} {slots : Fin n → β}
    {os : List (Obs (Fin n × β))} (hn : n ∣ 2^32) (hlt : n < 2^16)
    (h : RingTrace (ringOf io slots) os) :
    RingTrace (ringOf (popSlot io).2 slots)
      (os ++ [Obs.pop ((popSlot io).1.map fun p => (p,slots p))]) := by
  by_cases ho : io.tail < io.head
  · obtain ⟨he,hr⟩ := popSlot_ring hlt io slots ho
    rw [he,hr]
    exact h.take hn ho
  · rw [popSlot_none io ho]
    exact ⟨h.bounded,h.trace.popNone⟩

theorem RingTrace.peek {β : Type} {n : Nat} [NeZero n] {io : IoS n} {slots : Fin n → β}
    {os : List (Obs (Fin n × β))} (hn : n ∣ 2^32) (hlt : n < 2^16)
    (h : RingTrace (ringOf io slots) os) :
    RingTrace (ringOf io slots) (os ++ [Obs.peek ((popSlot io).1.map fun p => (p,slots p))]) := by
  by_cases ho : io.tail < io.head
  · rw [(popSlot_ring hlt io slots ho).1]
    have hc := contents_eq_cons hn (ringOf io slots) (used_pos_of_lt _ ho)
    have ht := h.trace
    rw [hc] at ht
    refine ⟨h.bounded,?_⟩
    rw [hc]
    exact ht.peek
  · rw [popSlot_none io ho]
    exact ⟨h.bounded,h.trace.peekNone⟩

structure FifoInv (t : Traced) : Prop where
  ins : RingTrace t.io.inRing t.ins
  outs : RingTrace t.io.outRing t.outs

theorem RingTrace.empty {β : Type} {n : Nat} [NeZero n] (f : Fin n → β) :
    RingTrace (⟨0,0,f⟩ : CounterRing β n) [] := by
  have hu : (⟨0,0,f⟩ : CounterRing β n).used = 0 := by simp [used]
  refine ⟨by omega,?_⟩
  simp only [contents,hu,List.range_zero,List.map_nil]
  exact Trace.nil

theorem afterInit_inv (s : Io) : FifoInv (afterInit s) :=
  ⟨RingTrace.empty _,RingTrace.empty _⟩

theorem iPush_inv {t : Traced} (h : FifoInv t) (b : Input)
    (hu : t.io.i.queued < maxInputBuffers) {u : Traced} (hs : ioStep t (.iPush b) = some u) :
    FifoInv u := by
  cases hs
  refine ⟨?_,?_⟩
  · have hr := h.ins.put maxInputBuffers_dvd maxInputBuffers_lt b hu
    rw [← iPush_inRing t.io b (Nat.le_of_lt hu)] at hr
    simpa only [iPush_slot,Io.inRing,ringOf] using hr
  · exact h.outs

theorem oPush_inv {t : Traced} (h : FifoInv t) (b : Output)
    (hu : t.io.o.queued < maxOutputBuffers) {u : Traced} (hs : ioStep t (.oPush b) = some u) :
    FifoInv u := by
  cases hs
  refine ⟨h.ins,?_⟩
  have hr := h.outs.put maxOutputBuffers_dvd maxOutputBuffers_lt b hu
  rw [← oPush_outRing t.io b (Nat.le_of_lt hu)] at hr
  simpa only [oPush_slot,Io.outRing,ringOf] using hr

/-- The rings behave as bounded queues so far: never more than the maximum is
queued, the counters add up in 16 bits, and what was handed out is what a queue
dropping its oldest element would have handed out. -/
structure FifoOk (t : Traced) : Prop where
  inUsed : (iUsed t.io).toNat ≤ maxInputBuffers
  inSum : (iFree t.io).toNat+(iUsed t.io).toNat = maxInputBuffers
  inTrace : ∃ q, Trace maxInputBuffers t.ins q ∧ q.length = (iUsed t.io).toNat
  inOrder : (delivered t.ins).Sublist (pushed t.ins)
  outUsed : (oUsed t.io).toNat ≤ maxOutputBuffers
  outSum : (oFree t.io).toNat+(oUsed t.io).toNat = maxOutputBuffers
  outTrace : ∃ q, Trace maxOutputBuffers t.outs q ∧ q.length = (oUsed t.io).toNat
  outOrder : (delivered t.outs).Sublist (pushed t.outs)

theorem FifoInv.ok {t : Traced} (h : FifoInv t) : FifoOk t := by
  obtain ⟨hiu,his⟩ := counters_sum t.io.i maxInputBuffers_lt h.ins.bounded
  obtain ⟨hou,hos⟩ := counters_sum t.io.o maxOutputBuffers_lt h.outs.bounded
  refine ⟨?_,his,⟨_,h.ins.trace,?_⟩,h.ins.trace.delivered_sublist,
    ?_,hos,⟨_,h.outs.trace,?_⟩,h.outs.trace.delivered_sublist⟩
  · exact hiu ▸ h.ins.bounded
  · exact (contents_length _).trans hiu.symm
  · exact hou ▸ h.outs.bounded
  · exact (contents_length _).trans hou.symm

def NotFull (t : Traced) : IoOp → Prop
  | .iPush _ => (iUsed t.io).toNat < maxInputBuffers
  | .oPush _ => (oUsed t.io).toNat < maxOutputBuffers
  | _ => True

theorem FifoInv.step {t u : Traced} {op : IoOp} (h : FifoInv t) (hf : NotFull t op)
    (hs : ioStep t op = some u) : FifoInv u := by
  cases op with
  | iPush b =>
    have hu := (counters_sum t.io.i maxInputBuffers_lt h.ins.bounded).1
    exact iPush_inv h b (hu ▸ hf) hs
  | iPop =>
    cases hs
    exact ⟨h.ins.pop maxInputBuffers_dvd maxInputBuffers_lt,h.outs⟩
  | oPush b =>
    have hu := (counters_sum t.io.o maxOutputBuffers_lt h.outs.bounded).1
    exact oPush_inv h b (hu ▸ hf) hs
  | oPop =>
    cases hs
    exact ⟨h.ins,h.outs.pop maxOutputBuffers_dvd maxOutputBuffers_lt⟩
  | oPeek =>
    cases hs
    rw [oPeek_eq_oPop]
    exact ⟨h.ins,h.outs.peek maxOutputBuffers_dvd maxOutputBuffers_lt⟩

theorem push_full_used {n : Nat} (io : IoS n) (hn : n+1 < 2^16) (h : io.queued = n) :
    (ioUsed (ioPush io).2).toNat = n+1 := by
  rw [ioPush_below io (by omega) (by omega)]
  have hd := queued_push io (by omega)
  rw [ioUsed_toNat _ (by omega),hd,h]

theorem FifoInv.push_full {t : Traced} {op : IoOp} (h : FifoInv t) (hf : ¬ NotFull t op) :
    ∃ u, ioStep t op = some u ∧ ¬ FifoOk u := by
  cases op with
  | iPush b =>
    have hu := (counters_sum t.io.i maxInputBuffers_lt h.ins.bounded).1
    have hb : t.io.i.queued ≤ maxInputBuffers := h.ins.bounded
    have hq : t.io.i.queued = maxInputBuffers := by
      simp only [NotFull,iUsed] at hf
      omega
    refine ⟨_,rfl,fun hok => ?_⟩
    have hfull := push_full_used t.io.i (by decide) hq
    have hle : (ioUsed (ioPush t.io.i).2).toNat ≤ maxInputBuffers := hok.inUsed
    omega
  | oPush b =>
    have hu := (counters_sum t.io.o maxOutputBuffers_lt h.outs.bounded).1
    have hb : t.io.o.queued ≤ maxOutputBuffers := h.outs.bounded
    have hq : t.io.o.queued = maxOutputBuffers := by
      simp only [NotFull,oUsed] at hf
      omega
    refine ⟨_,rfl,fun hok => ?_⟩
    have hfull := push_full_used t.io.o (by decide) hq
    have hle : (ioUsed (ioPush t.io.o).2).toNat ≤ maxOutputBuffers := hok.outUsed
    omega
  | iPop => exact absurd trivial hf
  | oPop => exact absurd trivial hf
  | oPeek => exact absurd trivial hf

/-- The rings are bounded queues along exactly those sequences of operations that
never push on a full ring. -/
theorem ioRun_fifo_iff (s : Io) (ops : List IoOp) :
    Always ioStep FifoOk (afterInit s) ops ↔ Guarded ioStep NotFull (afterInit s) ops :=
  always_iff_guarded (fun _ h => FifoInv.ok h) (fun _ _ _ h hf hs => h.step hf hs)
    (fun _ _ h hf => h.push_full hf) ops (afterInit s) (afterInit_inv s)

theorem ioRun_five_pushes :
    ¬ Always ioStep FifoOk (afterInit Io.zero)
      (List.replicate 5 (IoOp.iPush ⟨[1],ioInputBufferSize,1⟩)) := by
  intro h
  have h5 := (((((h.2 _ rfl).2 _ rfl).2 _ rfl).2 _ rfl).2 _ rfl).inUsed
  revert h5
  decide

/-- One ring has lost nothing: what was handed out and what is queued make up
everything pushed, and the head counter has not wrapped. -/
structure RingLossless {β : Type} {n : Nat} [NeZero n] (r : CounterRing β n)
    (os : List (Obs (Fin n × β))) : Prop where
  bounded : r.used ≤ n
  conserved : delivered os ++ r.contents = pushed os
  count : r.head.toNat = (pushed os).length

theorem RingLossless.empty {β : Type} {n : Nat} [NeZero n] (f : Fin n → β) :
    RingLossless (⟨0,0,f⟩ : CounterRing β n) [] := by
  have hu : (⟨0,0,f⟩ : CounterRing β n).used = 0 := by simp [used]
  exact ⟨by omega,by simp [contents,hu,delivered,pushed],by simp [pushed]⟩

theorem RingLossless.kept {β : Type} {n : Nat} [NeZero n] {r : CounterRing β n}
    {os : List (Obs (Fin n × β))} (h : RingLossless r os) :
    (delivered os).length+r.used = (pushed os).length := by
  rw [← h.conserved,List.length_append,contents_length]

theorem RingLossless.ordered {β : Type} {n : Nat} [NeZero n] {r : CounterRing β n}
    {os : List (Obs (Fin n × β))} (h : RingLossless r os) : r.tail < r.head ↔ 0 < r.used := by
  have hl := h.kept
  rw [← h.count] at hl
  have ht := tail_add_used r (by omega)
  rw [UInt32.lt_iff_toNat_lt]
  omega

theorem RingLossless.put {β : Type} {n : Nat} [NeZero n] {r : CounterRing β n}
    {os : List (Obs (Fin n × β))} (hn : n ∣ 2^32) (hlt : n < 2^16)
    (h : RingLossless r os) (b : β) (hu : r.used < n) (hc : (pushed os).length+1 < 2^32) :
    RingLossless (r.put b) (os ++ [Obs.push (slotOf n r.head.toNat,b)]) := by
  refine ⟨?_,?_,?_⟩
  · rw [put_used r b (by omega)]
    omega
  · rw [put_contents hn (by omega) r b hu]
    simp [delivered,pushed,← h.conserved]
  · have hh := h.count
    simp only [CounterRing.put,toNat_succ,pushed_append,pushed,List.length_append,
      List.length_cons,List.length_nil]
    omega

theorem RingLossless.quiet {β : Type} {n : Nat} [NeZero n] {r : CounterRing β n}
    {os : List (Obs (Fin n × β))} (h : RingLossless r os) (o : Obs (Fin n × β))
    (hd : delivered [o] = []) (hp : pushed [o] = []) : RingLossless r (os ++ [o]) :=
  ⟨h.bounded,by simpa [hd,hp] using h.conserved,by simpa [hp] using h.count⟩

theorem RingLossless.pop {β : Type} {n : Nat} [NeZero n] {io : IoS n} {slots : Fin n → β}
    {os : List (Obs (Fin n × β))} (hn : n ∣ 2^32) (hlt : n < 2^16)
    (h : RingLossless (ringOf io slots) os) :
    RingLossless (ringOf (popSlot io).2 slots)
      (os ++ [Obs.pop ((popSlot io).1.map fun p => (p,slots p))]) := by
  by_cases ho : io.tail < io.head
  · obtain ⟨he,hr⟩ := popSlot_ring hlt io slots ho
    have hu := used_pos_of_lt (ringOf io slots) ho
    have hused := take_used _ hu
    have hcons := h.conserved
    rw [contents_eq_cons hn _ hu] at hcons
    rw [he,hr]
    refine ⟨Nat.le_trans (by omega) h.bounded,?_,?_⟩
    · simpa [delivered,pushed] using hcons
    · simpa [pushed,CounterRing.take] using h.count
  · rw [popSlot_none io ho]
    exact h.quiet _ rfl rfl

theorem RingLossless.pop_none_iff {β : Type} {n : Nat} [NeZero n] {io : IoS n} {slots : Fin n → β}
    {os : List (Obs (Fin n × β))} (hlt : n < 2^16) (h : RingLossless (ringOf io slots) os) :
    (popSlot io).1 = none ↔ ioUsed io = 0 := by
  have hb : io.queued ≤ n := h.bounded
  have hord : io.tail < io.head ↔ 0 < io.queued := h.ordered
  rw [used_eq_zero_iff io (by omega)]
  by_cases ho : io.tail < io.head
  · have hpos := hord.mp ho
    simp only [popSlot_some hlt io ho,reduceCtorEq,false_iff]
    omega
  · rw [popSlot_none io ho]
    rw [hord] at ho
    simp only [true_iff]
    omega

structure LosslessInv (t : Traced) : Prop where
  ins : RingLossless t.io.inRing t.ins
  outs : RingLossless t.io.outRing t.outs

def FreeGuard (t : Traced) : IoOp → Prop
  | .iPush _ => iFree t.io ≠ 0
  | .oPush _ => oFree t.io ≠ 0
  | _ => True

instance (t : Traced) : (op : IoOp) → Decidable (FreeGuard t op)
  | .iPush _ => inferInstanceAs (Decidable (iFree t.io ≠ 0))
  | .oPush _ => inferInstanceAs (Decidable (oFree t.io ≠ 0))
  | .iPop | .oPop | .oPeek => inferInstanceAs (Decidable True)

def IoOp.isIPush : IoOp → Bool
  | .iPush _ => true
  | _ => false

def IoOp.isOPush : IoOp → Bool
  | .oPush _ => true
  | _ => false

/-- Room in both head counters for one more push. -/
def CounterRoom (t : Traced) (op : IoOp) : Prop :=
  (op.isIPush = true → (pushed t.ins).length+1 < 2^32) ∧
    (op.isOPush = true → (pushed t.outs).length+1 < 2^32)

def CountedGuard (t : Traced) (op : IoOp) : Prop := FreeGuard t op ∧ CounterRoom t op

theorem ioStep_pushed_ins {t u : Traced} {op : IoOp} (hs : ioStep t op = some u) :
    (pushed u.ins).length = (pushed t.ins).length+op.isIPush.toNat := by
  cases op <;> cases hs <;> simp [IoOp.isIPush,pushed]

theorem ioStep_pushed_outs {t u : Traced} {op : IoOp} (hs : ioStep t op = some u) :
    (pushed u.outs).length = (pushed t.outs).length+op.isOPush.toNat := by
  cases op <;> cases hs <;> simp [IoOp.isOPush,pushed]

theorem ioStep_total (t : Traced) (op : IoOp) : ∃ u, ioStep t op = some u := by
  cases op <;> exact ⟨_,rfl⟩

theorem counterRoom_iff (ops : List IoOp) (t : Traced) (hi : (pushed t.ins).length < 2^32)
    (ho : (pushed t.outs).length < 2^32) :
    Guarded ioStep CounterRoom t ops ↔ (pushed t.ins).length+ops.countP IoOp.isIPush < 2^32 ∧
      (pushed t.outs).length+ops.countP IoOp.isOPush < 2^32 := by
  refine (guarded_and ops t).trans (and_congr ?_ ?_)
  · exact guarded_count_iff (fun t : Traced => (pushed t.ins).length) ioStep_total
      (fun _ _ _ hs => ioStep_pushed_ins hs) (2^32) ops t hi
  · exact guarded_count_iff (fun t : Traced => (pushed t.outs).length) ioStep_total
      (fun _ _ _ hs => ioStep_pushed_outs hs) (2^32) ops t ho

theorem guarded_counted (ops : List IoOp) (t : Traced) (hg : Guarded ioStep FreeGuard t ops)
    (hi : (pushed t.ins).length+ops.countP IoOp.isIPush < 2^32)
    (ho : (pushed t.outs).length+ops.countP IoOp.isOPush < 2^32) :
    Guarded ioStep CountedGuard t ops := by
  have hroom := (counterRoom_iff ops t (by omega) (by omega)).mpr ⟨hi,ho⟩
  exact (guarded_and ops t).mpr ⟨hg,hroom⟩

theorem LosslessInv.step {t u : Traced} {op : IoOp} (h : LosslessInv t)
    (hg : CountedGuard t op) (hs : ioStep t op = some u) : LosslessInv u := by
  obtain ⟨hfree,hci,hco⟩ := hg
  cases op with
  | iPush b =>
    cases hs
    have hu := queued_lt_of_free t.io.i maxInputBuffers_lt h.ins.bounded hfree
    have hr := h.ins.put maxInputBuffers_dvd maxInputBuffers_lt b hu (hci rfl)
    rw [← iPush_inRing t.io b (Nat.le_of_lt hu)] at hr
    exact ⟨by simpa only [iPush_slot,Io.inRing,ringOf] using hr,h.outs⟩
  | oPush b =>
    cases hs
    have hu := queued_lt_of_free t.io.o maxOutputBuffers_lt h.outs.bounded hfree
    have hr := h.outs.put maxOutputBuffers_dvd maxOutputBuffers_lt b hu (hco rfl)
    rw [← oPush_outRing t.io b (Nat.le_of_lt hu)] at hr
    exact ⟨h.ins,by simpa only [oPush_slot,Io.outRing,ringOf] using hr⟩
  | iPop =>
    cases hs
    exact ⟨h.ins.pop maxInputBuffers_dvd maxInputBuffers_lt,h.outs⟩
  | oPop =>
    cases hs
    exact ⟨h.ins,h.outs.pop maxOutputBuffers_dvd maxOutputBuffers_lt⟩
  | oPeek =>
    cases hs
    exact ⟨h.ins,h.outs.quiet _ rfl rfl⟩

/-- Nothing is lost: the counters add up, successful removals hand out the slots
of the pushes in order with the stored contents, what was pushed and not handed out is
still queued, a removal fails exactly on an empty ring, and peeking shows the next
removal. -/
structure Lossless (t : Traced) : Prop where
  inSum : (iUsed t.io).toNat+(iFree t.io).toNat = maxInputBuffers
  inUsed : (iUsed t.io).toNat ≤ maxInputBuffers
  inPops : (delivered t.ins).IsPrefix (pushed t.ins)
  inKept : (delivered t.ins).length+(iUsed t.io).toNat = (pushed t.ins).length
  inNull : (iPop t.io).1 = none ↔ iUsed t.io = 0
  outSum : (oUsed t.io).toNat+(oFree t.io).toNat = maxOutputBuffers
  outUsed : (oUsed t.io).toNat ≤ maxOutputBuffers
  outPops : (delivered t.outs).IsPrefix (pushed t.outs)
  outKept : (delivered t.outs).length+(oUsed t.io).toNat = (pushed t.outs).length
  outNull : (oPop t.io).1 = none ↔ oUsed t.io = 0
  outPeek : oPeek t.io = (oPop t.io).1

theorem LosslessInv.lossless {t : Traced} (h : LosslessInv t) : Lossless t := by
  obtain ⟨hiu,his⟩ := counters_sum t.io.i maxInputBuffers_lt h.ins.bounded
  obtain ⟨hou,hos⟩ := counters_sum t.io.o maxOutputBuffers_lt h.outs.bounded
  refine ⟨?_,hiu ▸ h.ins.bounded,⟨_,h.ins.conserved⟩,hiu ▸ h.ins.kept,
    h.ins.pop_none_iff maxInputBuffers_lt,?_,hou ▸ h.outs.bounded,⟨_,h.outs.conserved⟩,
    hou ▸ h.outs.kept,h.outs.pop_none_iff maxOutputBuffers_lt,oPeek_eq_oPop t.io⟩
  · rw [Nat.add_comm]
    exact his
  · rw [Nat.add_comm]
    exact hos

/-- Under the callers' guard and with fewer than `2^32` pushes on each ring,
nothing is lost, repeated or reordered. -/
theorem ioRun_lossless (s : Io) (ops : List IoOp)
    (hg : Guarded ioStep FreeGuard (afterInit s) ops)
    (hi : ops.countP IoOp.isIPush < 2^32) (ho : ops.countP IoOp.isOPush < 2^32) :
    Always ioStep Lossless (afterInit s) ops := by
  have hc := guarded_counted ops (afterInit s) hg
    (by simpa [afterInit,pushed] using hi) (by simpa [afterInit,pushed] using ho)
  exact always_of_guarded (fun _ h => LosslessInv.lossless h)
    (fun _ _ _ h hf hs => h.step hf hs) ops (afterInit s)
    ⟨RingLossless.empty _,RingLossless.empty _⟩ hc

def sampleOps : List IoOp :=
  [.iPush ⟨[1],ioInputBufferSize,1⟩,.oPush ⟨[2,3],ioOutputBufferSize,2,.hz44100,1⟩,.iPop,.oPeek,
    .iPush ⟨[4],ioInputBufferSize,1⟩,.oPop,.oPush ⟨[5,6],ioOutputBufferSize,2,.hz44100,1⟩,
    .iPop,.oPop]

theorem ioRun_lossless_sample :
    Guarded ioStep FreeGuard (afterInit Io.zero) sampleOps ∧
      Always ioStep Lossless (afterInit Io.zero) sampleOps :=
  ⟨by decide,ioRun_lossless Io.zero sampleOps (by decide) (by decide) (by decide)⟩

end Mardio
