import Mardio.Cmd
import Mardio.SlotSafety

/-!
What a caller may expect of the slot allocator: that a block can be resized, that an
array of zeros is as large as it was asked for, and that a wrong pointer does not put
the counter out of step with the slots.
-/

set_option autoImplicit false

namespace Mardio
open ByteMem Runs

/-- There is no slot to take: the counter says so, or none that is empty is large
enough. -/
def NoSlot (n : Nat) (sas : Salloc) : Prop :=
  sas.slots.length = sas.usedSlots ∨ ∀ s ∈ sas.slots, s.state = .empty → s.size < n

/-- One slot has been taken, and everything else is as it was but for the counter. -/
structure Taken (n : Nat) (sas : Salloc) (r : Nat × Salloc) (s : Slot) : Prop where
  slots : ∃ pre post, sas.slots = pre ++ s :: post ∧
    r.2.slots = pre ++ { s with state := .used, allocated := n % 2^32 } :: post
  empty : s.state = .empty
  fits : n ≤ s.size
  ptr : r.1 = s.data
  counter : r.2.usedSlots = (sas.usedSlots+1) % 2^16

/-- What `sa_alloc` can do on any table. -/
theorem saAlloc_cases (n : Nat) (sas : Salloc) :
    NoSlot n sas ∧ saAlloc n sas = (0,sas) ∨
      ¬ NoSlot n sas ∧ ∃ s, Taken n sas (saAlloc n sas) s := by
  rw [saAlloc]
  by_cases hfull : sas.slots.length = sas.usedSlots
  · exact .inl ⟨.inl hfull,if_pos hfull⟩
  · rw [if_neg hfull]
    cases ht : takeSlot n sas.slots with
    | none =>
      have hnone := takeSlot_none ht
      refine .inl ⟨.inr fun s hs he => ?_,rfl⟩
      by_contra hle
      exact hnone ⟨s,hs,he,by omega⟩
    | some r =>
      obtain ⟨ptr,slots⟩ := r
      obtain ⟨pre,s,post,he,hstate,hsize,rfl,rfl⟩ := takeSlot_some ht
      refine .inr ⟨?_,s,⟨pre,post,he,rfl⟩,hstate,hsize,rfl,rfl⟩
      rintro (hfull' | hsmall)
      · exact hfull hfull'
      · have := hsmall s (by simp [he]) hstate
        omega

theorem Taken.states_ne {n : Nat} {sas : Salloc} {r : Nat × Salloc} {s : Slot}
    (ht : Taken n sas r s) :
    r.2.slots.map Slot.state ≠ sas.slots.map Slot.state := by
  obtain ⟨pre,post,he,he'⟩ := ht.slots
  intro hsame
  rw [he,he'] at hsame
  simp [ht.empty] at hsame

/-! Resizing. -/

/-- A block that a caller holds. -/
structure LiveSlot (sas : Salloc) where
  slot : Slot
  mem : slot ∈ sas.slots
  used : slot.state = .used
  notNull : 0 < slot.data

/-- A live block with the old contents takes the place of the old one, or there is no
block and nothing has changed; and no byte behind the old slot is read. -/
structure Resized (sas : Salloc) (p : LiveSlot sas) (n : Nat) (r : Nat × Salloc) (reads : Nat) :
    Prop where
  outcome : r.1 ≠ 0 ∧ (∃ s ∈ r.2.slots, s.data = r.1 ∧ s.state = .used ∧ n ≤ s.size) ∧
      (∀ i < min p.slot.allocated n, r.2.mem (r.1+i) = sas.mem (p.slot.data+i)) ∧
        usedCount r.2.slots ≤ usedCount sas.slots ∨
    r.1 = 0 ∧ r.2.slots.map Slot.state = sas.slots.map Slot.state ∧ r.2.usedSlots = sas.usedSlots ∧
      r.2.mem = sas.mem
  inside : reads ≤ p.slot.size

theorem saRealloc_slots (sas : Salloc) (p : LiveSlot sas) (n : ℕ+) :
    (saRealloc p.slot.data n sas).1 = 0 ∧
      (saRealloc p.slot.data n sas).2.slots = (saAlloc n sas).2.slots := by
  rw [saRealloc,if_neg p.notNull.ne',if_neg n.ne_zero]
  dsimp only
  split
  · rename_i hnull
    exact ⟨hnull,rfl⟩
  · exact ⟨rfl,rfl⟩

/-- The call keeps its contract exactly where there is no slot to take. -/
theorem saRealloc_resized_iff (sas : Salloc) (p : LiveSlot sas) (n : ℕ+) :
    Resized sas p n (saRealloc p.slot.data n sas) (saReallocReads p.slot.data n sas) ↔
      NoSlot n sas := by
  obtain ⟨hno,halloc⟩ | ⟨hno,s,htaken⟩ := saAlloc_cases n sas
  · have hsame : saRealloc p.slot.data n sas = (0,sas) := by simp [saRealloc,p.notNull.ne',halloc]
    rw [hsame]
    exact iff_of_true ⟨.inr ⟨rfl,rfl,rfl,rfl⟩,by simp [saReallocReads,halloc]⟩ hno
  · obtain ⟨hnull,hslots⟩ := saRealloc_slots sas p n
    refine iff_of_false (fun h => ?_) hno
    obtain ⟨hne,-⟩ | ⟨-,hstates,-⟩ := h.outcome
    · exact hne hnull
    · rw [hslots] at hstates
      exact htaken.states_ne hstates

/-- The pool of the decoder with a block of 100 bytes at its start. -/
def oneBlockPool : Salloc := (lmaMalloc 100 (lmaInit (libmadAlloc 4096 fun _ => 0))).2

def poolBlock : LiveSlot oneBlockPool where
  slot := ⟨.used,3072,100,4096⟩
  mem := by decide
  used := rfl
  notNull := by decide

/-- The second slot is taken, more is read than the first slot has, and no block is
returned. -/
theorem saRealloc_grows :
    (saRealloc 4096 4000 oneBlockPool).1 = 0 ∧ (saRealloc 4096 4000 oneBlockPool).2.usedSlots = 2 ∧
      ¬ Resized oneBlockPool poolBlock 4000 (saRealloc 4096 4000 oneBlockPool)
        (saReallocReads 4096 4000 oneBlockPool) :=
  ⟨by decide,by decide,fun hresized => absurd hresized.inside (by decide)⟩

/-! Arrays of zeros. -/

/-- An initialised pool: no slot lies at `NULL`, and a size is an unsigned 32-bit
integer. -/
structure SlotPool extends Salloc where
  notNull : ∀ s ∈ slots, 0 < s.data
  sized : ∀ s ∈ slots, s.size < 2^32

/-- The product is formed in the type of the factors. -/
def saCallocBits {w : Nat} (nmemb size : BitVec w) (sas : Salloc) : Nat × Salloc :=
  let totalSize := (nmemb*size).toNat % 2^32
  if totalSize = 0 then (0,sas)
  else
    let r := saAlloc totalSize sas
    if r.1 = 0 then r else (r.1,{ r.2 with mem := ucMemset r.2.mem r.1 0 totalSize })

/-- On both hosts the product is cut to 32 bits in the end. -/
theorem saCallocBits_eq (h : Host) (nmemb size : BitVec h.longBits) (sas : Salloc) :
    saCallocBits nmemb size sas = saCalloc nmemb.toNat size.toNat sas := by
  have hdvd : 2^32 ∣ 2^h.longBits := by cases h <;> decide
  rw [saCallocBits,saCalloc,BitVec.toNat_mul,Nat.mod_mod_of_dvd _ hdvd]

/-- The slot that was taken has the bytes asked for, all of them zero. -/
def ZeroArray (bytes : Nat) (sas : Salloc) (r : Nat × Salloc) : Prop :=
  r.1 ≠ 0 → ∃ (pre : List Slot) (s t : Slot) (post : List Slot), sas.slots = pre ++ s :: post ∧
    s.state = .empty ∧
    r.2.slots = pre ++ t :: post ∧ t.state = .used ∧ t.data = r.1 ∧ bytes ≤ t.size ∧
      ∀ i < bytes, r.2.mem (r.1+i) = 0

/-- The product fits in 32 bits, or its low 32 bits ask for nothing or for more than
there is. -/
def CallocFits (nmemb size : Nat) (sas : Salloc) : Prop :=
  nmemb*size < 2^32 ∨ nmemb*size % 2^32 = 0 ∨ NoSlot (nmemb*size % 2^32) sas

theorem ucMemset_zero (m : Mem) (a n : Nat) {i : Nat} (hi : i < n) :
    ucMemset m a 0 n (a+i) = 0 := by
  have hwindow := store_window m a (List.replicate n 0)
  rw [List.length_replicate,← ucMemset_eq_store] at hwindow
  have hbyte := congrArg (fun bytes => bytes[i]?) hwindow
  simpa [window,hi] using hbyte

theorem Taken.size_lt {n : Nat} {pool : SlotPool} {r : Nat × Salloc} {s : Slot}
    (ht : Taken n pool.toSalloc r s) :
    ∀ t ∈ r.2.slots, t.size < 2^32 := by
  obtain ⟨pre,post,he,he'⟩ := ht.slots
  have hsized := pool.sized
  rw [he] at hsized
  intro t hmem
  rw [he'] at hmem
  simp only [List.mem_append,List.mem_cons] at hmem hsized
  obtain hmem | rfl | hmem := hmem
  · exact hsized t (.inl hmem)
  · exact hsized s (.inr (.inl rfl))
  · exact hsized t (.inr (.inr hmem))

theorem Taken.notNull {n : Nat} {pool : SlotPool} {r : Nat × Salloc} {s : Slot}
    (ht : Taken n pool.toSalloc r s) : r.1 ≠ 0 := by
  obtain ⟨pre,post,he,-⟩ := ht.slots
  rw [ht.ptr]
  exact (pool.notNull s (by simp [he])).ne'

/-- No array is smaller than it was asked to be exactly where the product is not cut, or
no array is returned. -/
theorem saCalloc_zeroArray_iff (h : Host) (pool : SlotPool) (nmemb size : BitVec h.longBits) :
    ZeroArray (nmemb.toNat*size.toNat) pool.toSalloc (saCallocBits nmemb size pool.toSalloc) ↔
      CallocFits nmemb.toNat size.toNat pool.toSalloc := by
  rw [saCallocBits_eq,saCalloc,CallocFits]
  generalize nmemb.toNat*size.toNat = bytes
  dsimp only
  by_cases hzero : bytes % 2^32 = 0
  · rw [if_pos hzero]
    exact iff_of_true (fun hne => absurd rfl hne) (.inr (.inl hzero))
  rw [if_neg hzero]
  obtain ⟨hno,halloc⟩ | ⟨hno,s,htaken⟩ := saAlloc_cases (bytes % 2^32) pool.toSalloc
  · rw [halloc,if_pos rfl]
    exact iff_of_true (fun hne => absurd rfl hne) (.inr (.inr hno))
  · rw [if_neg htaken.notNull]
    simp only [hzero,hno,or_false]
    constructor
    · intro hzeros
      obtain ⟨pre,s',t,post,-,-,hslots,-,-,hsize,-⟩ := hzeros htaken.notNull
      exact hsize.trans_lt (htaken.size_lt t (by rw [hslots]; simp))
    · intro hlt _
      have hfits := htaken.fits
      obtain ⟨pre,post,he,he'⟩ := htaken.slots
      rw [Nat.mod_eq_of_lt hlt] at *
      exact ⟨pre,s,_,post,he,htaken.empty,he',rfl,htaken.ptr.symm,hfits,
        fun i hi => ucMemset_zero _ _ _ hi⟩

/-- The pool of the decoder, initialised. -/
def decoderPool : SlotPool where
  toSalloc := lmaInit (libmadAlloc 4096 fun _ => 0)
  notNull := by decide
  sized := by decide

/-- More than 4 GiB of zeros in a slot of 3072 bytes, in 32 bits. -/
theorem saCalloc_wraps :
    ¬ ZeroArray ((0x80000001 : BitVec 32).toNat*(2 : BitVec 32).toNat) decoderPool.toSalloc
      (saCallocBits (0x80000001 : BitVec 32) 2 decoderPool.toSalloc) := by
  intro harray
  obtain ⟨pre,s,t,post,-,-,hslots,-,-,hbytes,-⟩ := harray (by decide)
  have hsmall : ∀ u ∈ (saCallocBits (0x80000001 : BitVec 32) 2 decoderPool.toSalloc).2.slots,
      u.size ≤ 5120 := by decide
  have hmem : t ∈ (saCallocBits (0x80000001 : BitVec 32) 2 decoderPool.toSalloc).2.slots := by
    rw [hslots]
    exact List.mem_append_cons_self
  have hsize := hsmall t hmem
  have hproduct : (0x80000001 : BitVec 32).toNat*(2 : BitVec 32).toNat = 2^32+2 := by decide
  omega

/-! Wrong pointers. -/

/-- A slot table before its first call, as it may lie anywhere. -/
structure EmptyTable extends Salloc where
  empty : ∀ s ∈ slots, s.state = .empty
  unused : usedSlots = 0
  count : slots.length < 2^16

def slotStep (sas : Salloc) : SaOp → Option Salloc
  | .alloc n => some (saAlloc n sas).2
  | .calloc nmemb size => some (saCalloc nmemb size sas).2
  | .free ptr => some (saFree ptr sas)

/-- The counter counts the slots in use, and no call is refused that a slot is there
for. -/
structure InStep (sas : Salloc) : Prop where
  counted : sas.usedSlots = usedCount sas.slots
  served : ∀ n, (∃ s ∈ sas.slots, s.state = .empty ∧ n ≤ s.size) →
    ∃ s, Taken n sas (saAlloc n sas) s

/-- The first slot at the address, if there is one, is in use. -/
def FreeFits (sas : Salloc) : SaOp → Prop
  | .free ptr => ptr = 0 ∨ ∀ s ∈ sas.slots.find? (·.data = ptr), s.state = .used
  | _ => True

instance (sas : Salloc) : (op : SaOp) → Decidable (FreeFits sas op)
  | .alloc _ => isTrue trivial
  | .calloc _ _ => isTrue trivial
  | .free ptr => inferInstanceAs (Decidable
      (ptr = 0 ∨ ∀ s ∈ sas.slots.find? (·.data = ptr), s.state = .used))

/-- What `sa_free` can do on any table. -/
theorem saFree_cases (ptr : Nat) (sas : Salloc) :
    (ptr = 0 ∨ sas.slots.find? (·.data = ptr) = none) ∧ saFree ptr sas = sas ∨
      ptr ≠ 0 ∧ ∃ (pre : List Slot) (s : Slot) (post : List Slot), sas.slots = pre ++ s :: post ∧
        sas.slots.find? (·.data = ptr) = some s ∧
        saFree ptr sas = { sas with
          slots := pre ++ { s with state := .empty, allocated := 0 } :: post,
          usedSlots := (sas.usedSlots+2^16-1) % 2^16 } := by
  by_cases hptr : ptr = 0
  · exact .inl ⟨.inl hptr,by rw [saFree,if_pos hptr]⟩
  · cases hr : releaseSlot ptr sas.slots with
    | none =>
      have hnone : sas.slots.find? (·.data = ptr) = none := by simpa using releaseSlot_none hr
      exact .inl ⟨.inr hnone,by rw [saFree,if_neg hptr,hr]⟩
    | some slots =>
      obtain ⟨pre,s,post,he,hfirst,rfl⟩ := releaseSlot_some hr
      exact .inr ⟨hptr,pre,s,post,he,hfirst,saFree_some hptr hr⟩

/-- The table between calls. -/
structure CountInv (sas : Salloc) : Prop where
  counted : sas.usedSlots = usedCount sas.slots
  count : sas.slots.length < 2^16

section
variable {sas : Salloc}

theorem CountInv.inStep (hi : CountInv sas) : InStep sas := by
  refine ⟨hi.counted,fun n hslot => ?_⟩
  obtain ⟨s,hs,hempty,hfits⟩ := hslot
  obtain ⟨hno,-⟩ | ⟨-,htaken⟩ := saAlloc_cases n sas
  · obtain hfull | hsmall := hno
    · exact absurd hfull (room_of_empty hi.counted hs hempty)
    · have := hsmall s hs hempty
      omega
  · exact htaken

theorem CountInv.alloc (hi : CountInv sas) (n : Nat) : CountInv (saAlloc n sas).2 := by
  obtain ⟨-,halloc⟩ | ⟨-,s,htaken⟩ := saAlloc_cases n sas
  · rw [halloc]
    exact hi
  · obtain ⟨pre,post,he,he'⟩ := htaken.slots
    obtain ⟨hused,hlt⟩ := used_middle hi.counted hi.count he
    have hcount := hi.count
    rw [he] at hcount
    refine ⟨?_,by simpa [he'] using hcount⟩
    simp only [htaken.counter,he',hused,usedCount_middle,htaken.empty,reduceCtorEq,if_false,if_true]
    omega

theorem CountInv.calloc (hi : CountInv sas) (nmemb size : Nat) :
    CountInv (saCalloc nmemb size sas).2 := by
  have halloc := hi.alloc (nmemb*size % 2^32)
  rw [saCalloc]
  dsimp only
  split
  · exact hi
  · split
    · exact halloc
    · exact ⟨halloc.counted,halloc.count⟩

/-- Where a slot is given back that was not in use, the counter alone moves. -/
theorem CountInv.free (hi : CountInv sas) (ptr : Nat) :
    (saFree ptr sas).slots.length < 2^16 ∧
      ((saFree ptr sas).usedSlots = usedCount (saFree ptr sas).slots ↔
        FreeFits sas (.free ptr)) := by
  obtain ⟨hnothing,hfree⟩ | ⟨hptr,pre,s,post,he,hfirst,hfree⟩ := saFree_cases ptr sas
  · rw [hfree]
    refine ⟨hi.count,iff_of_true hi.counted ?_⟩
    obtain hnull | hnone := hnothing
    · exact .inl hnull
    · exact .inr (by simp [hnone])
  · obtain ⟨hused,hlt⟩ := used_middle hi.counted hi.count he
    have hcount := hi.count
    rw [he] at hcount
    rw [hfree]
    refine ⟨by simpa using hcount,?_⟩
    simp only [FreeFits,hptr,hfirst,hused,usedCount_middle,Option.mem_some_iff,forall_eq',false_or,
      reduceCtorEq,if_false]
    cases hstate : s.state with
    | used =>
      simp only [if_true,iff_true]
      omega
    | empty =>
      simp only [reduceCtorEq,if_false,iff_false]
      omega

theorem CountInv.step {t : Salloc} {op : SaOp} (hi : CountInv sas) (hok : FreeFits sas op)
    (hs : slotStep sas op = some t) :
    CountInv t := by
  cases op with
  | alloc n => cases hs; exact hi.alloc n
  | calloc nmemb size => cases hs; exact hi.calloc nmemb size
  | free ptr => cases hs; exact ⟨(hi.free ptr).2.mpr hok,(hi.free ptr).1⟩

end

theorem EmptyTable.start (t : EmptyTable) : CountInv t.toSalloc := by
  have hnone : usedCount t.slots = 0 := List.countP_eq_zero.mpr fun s hs => by simp [t.empty s hs]
  exact ⟨t.unused.trans hnone.symm,t.count⟩

/-- The counter stays in step with the slots exactly as long as no free names a slot that
is not in use. -/
theorem slotRun_inStep_iff (t : EmptyTable) (ops : List SaOp) :
    Always slotStep InStep t.toSalloc ops ↔ Guarded slotStep FreeFits t.toSalloc ops := by
  refine always_iff_guarded (fun _ hi => hi.inStep) (fun _ _ _ hi hok hs => hi.step hok hs)
    (fun s op hi hbad => ?_) ops
    t.toSalloc t.start
  cases op with
  | alloc n => exact absurd trivial hbad
  | calloc nmemb size => exact absurd trivial hbad
  | free ptr => exact ⟨saFree ptr s,rfl,fun hstep => hbad ((hi.free ptr).2.mp hstep.counted)⟩

/-- A block that nobody holds is given back, and the counter goes below zero. -/
theorem saFree_underflows :
    ¬ Always slotStep InStep (lmaInit (libmadAlloc 4096 fun _ => 0)) [SaOp.free 4096] := by
  intro hall
  have hcounted := (hall.2 _ rfl).counted
  revert hcounted
  decide

end Mardio
