import Mardio.Libc

/-!
The slot allocator: a table of blocks of fixed sizes, one behind the other in a
pool of bytes. A pointer is an address and `NULL` is 0.
-/

set_option autoImplicit false

namespace Mardio
open ByteMem

inductive SlotState where
  | empty | used
  deriving DecidableEq, Repr

structure Slot where
  state : SlotState
  size : Nat
  allocated : Nat
  data : Nat
  deriving DecidableEq, Repr

/-- The slot count of the source is the length of the table; `mem` is the memory the
pool lies in. -/
structure Salloc where
  data : Nat
  dataSize : Nat
  usedSlots : Nat
  slots : List Slot
  mem : Mem

def saEntry (entrySize : Nat) : Slot := ⟨.empty,entrySize,0,0⟩

def placeSlots : Nat → List Slot → List Slot
  | _, [] => []
  | ptr, s :: slots => { s with data := ptr } :: placeSlots (ptr+s.size) slots

/-- Leaves the states of the slots and their number alone. -/
def saInit (sas : Salloc) : Salloc :=
  { sas with
    slots := placeSlots sas.data sas.slots
    mem := ucMemset sas.mem sas.data 0 sas.dataSize }

/-- The first empty slot that is large enough. -/
def takeSlot (n : Nat) : List Slot → Option (Nat × List Slot)
  | [] => none
  | s :: slots =>
      if s.state = .empty ∧ n ≤ s.size then
        some (s.data,{ s with state := .used, allocated := n % 2^32 } :: slots)
      else (takeSlot n slots).map fun r => (r.1,s :: r.2)

def saAlloc (n : Nat) (sas : Salloc) : Nat × Salloc :=
  if sas.slots.length = sas.usedSlots then (0,sas)
  else match takeSlot n sas.slots with
    | none => (0,sas)
    | some (ptr,slots) => (ptr,{ sas with slots := slots, usedSlots := (sas.usedSlots+1) % 2^16 })

/-- The first slot at this address, used or not. -/
def releaseSlot (ptr : Nat) : List Slot → Option (List Slot)
  | [] => none
  | s :: slots =>
      if s.data = ptr then some ({ s with state := .empty, allocated := 0 } :: slots)
      else (releaseSlot ptr slots).map (s :: ·)

def saFree (ptr : Nat) (sas : Salloc) : Salloc :=
  if ptr = 0 then sas
  else match releaseSlot ptr sas.slots with
    | none => sas
    | some slots => { sas with slots := slots, usedSlots := (sas.usedSlots+2^16-1) % 2^16 }

/-- The product is cut to 32 bits. -/
def saCalloc (nmemb size : Nat) (sas : Salloc) : Nat × Salloc :=
  let totalSize := nmemb*size % 2^32
  if totalSize = 0 then (0,sas)
  else
    let r := saAlloc totalSize sas
    if r.1 = 0 then r else (r.1,{ r.2 with mem := ucMemset r.2.mem r.1 0 totalSize })

/-- Every path ends at the label `error`. The copy does not look at the size of the old
block. -/
def saRealloc (ptr size : Nat) (sas : Salloc) : Nat × Salloc :=
  if ptr = 0 then (0,sas)
  else if size = 0 then (0,saFree ptr sas)
  else
    let r := saAlloc size sas
    if r.1 = 0 then r else (0,{ r.2 with mem := copyUp r.2.mem r.1 ptr size })

/-- How many bytes `sa_realloc` reads from the old block on. -/
def saReallocReads (ptr size : Nat) (sas : Salloc) : Nat :=
  if ptr = 0 ∨ size = 0 ∨ (saAlloc size sas).1 = 0 then 0 else size

def libmadPoolSize : Nat := 3*1024+5*1024

/-- The pool of the decoder, at address `pool`. -/
def libmadAlloc (pool : ℕ+) (mem : Mem) : Salloc :=
  ⟨pool,libmadPoolSize,0,[saEntry (3*1024),saEntry (5*1024)],mem⟩

def lmaInit (sas : Salloc) : Salloc := saInit sas

def lmaMalloc (size : Nat) (sas : Salloc) : Nat × Salloc := saAlloc size sas

def lmaFree (ptr : Nat) (sas : Salloc) : Salloc := saFree ptr sas

def lmaCalloc (nmemb size : Nat) (sas : Salloc) : Nat × Salloc := saCalloc nmemb size sas

end Mardio
