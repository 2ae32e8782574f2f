import Mardio.Fs

/-!
The file back end of the STM32. What is inside a `FIL` is left to the file system
library; the results of its calls are given. `host_fs_open` has no exit for a file that
could be opened.
-/

set_option autoImplicit false

namespace Mardio

/-- The file that the `FIL` is open on, and the flag beside it. -/
structure StmFile where
  file : Option Str
  opened : Int
  deriving DecidableEq, Repr

/-- Only the first `MAX_OPEN_FILES` entries of `f` exist in the program. -/
structure StmFs where
  mounted : Bool
  f : Int → StmFile

def stmFsInit : StmFs := ⟨false,fun _ => ⟨none,0⟩⟩

def stmFsClose (handle : Int) (s : StmFs) : StmFs :=
  if badHandle handle then s
  else if (s.f handle).opened ≠ 1 then s
  else { s with f := Function.update s.f handle ⟨none,0⟩ }

/-- The loop over the slots from `i` on, `n` of them. `res i` is the result of the
`f_open` for slot `i`; a call that fails clears the `FIL`. -/
def stmFsOpenFrom (res : Nat → Nat) (name : Str) : Nat → Nat → StmFs → StmFs
  | _, 0, s => s
  | i, n+1, s =>
      if (s.f i).opened = 0 then
        if res i ≠ 0 then { s with f := Function.update s.f i ⟨none,0⟩ }
        else stmFsOpenFrom res name (i+1) n { s with f := Function.update s.f i ⟨some name,1⟩ }
      else stmFsOpenFrom res name (i+1) n s

def stmFsOpen (res : Nat → Nat) (name : Option Str) (s : StmFs) : Int × StmFs :=
  match name with
  | none => (-1,s)
  | some name => (-1,if s.mounted then stmFsOpenFrom res name 0 maxOpenFiles s else s)

/-- The result of `f_read` and the bytes it delivers are given. A bad handle is reported
and then used; `none` is the result -1. -/
def stmFsRead (res : Nat) (got : List UInt8) (handle : Int) (buffer : Nat) (size : UInt32)
    (s : StmFs) : Option (List UInt8) :=
  if !s.mounted then none
  else if (s.f handle).opened = 0 then none
  else if buffer = 0 ∨ size = 0 then none
  else if res ≠ 0 then none
  else some (got.take size.toNat)

/-- The file that is positioned, if one is. -/
def stmFsSeek (handle : Int) (s : StmFs) : Option (Option Str) :=
  if !s.mounted then none
  else if (s.f handle).opened = 0 then none
  else some (s.f handle).file

def StmFs.free (s : StmFs) (i : Nat) : Bool := (s.f i).opened == 0

/-- An index that was closed is returned and its slot alone is open now, on the file; or
-1 is returned and no flag has changed. An index is returned when there is a volume, a
name, a free slot and a file. -/
structure OpensOne (res : Nat → Nat) (name : Option Str) (s : StmFs) (r : Int × StmFs) : Prop where
  outcome : (∃ i : Nat, r.1 = i ∧ i < maxOpenFiles ∧ (s.f i).opened = 0 ∧ r.2.f i = ⟨name,1⟩ ∧
      ∀ j : Nat, j < maxOpenFiles → j ≠ i → (r.2.f j).opened = (s.f j).opened) ∨
    r.1 = -1 ∧ ∀ j : Nat, j < maxOpenFiles → (r.2.f j).opened = (s.f j).opened
  succeeds : s.mounted = true → name ≠ none → ∀ i, firstFree s.free = some i → res i = 0 →
    ∃ i : Nat, r.1 = i

/-- There is nothing to open, or the first `f_open` fails. -/
def OpenRefused (res : Nat → Nat) (name : Option Str) (s : StmFs) : Prop :=
  s.mounted = false ∨ name = none ∨ ∀ i, firstFree s.free = some i → res i ≠ 0

/-- A call that fails ends the loop before any flag is set. -/
theorem stmFsOpenFrom_refused {res : Nat → Nat} {name : Str} {i n : Nat} {s : StmFs}
    (hres : ∀ k, (List.range' i n).find? s.free = some k → res k ≠ 0) (j : Nat) :
    ((stmFsOpenFrom res name i n s).f j).opened = (s.f j).opened := by
  induction n generalizing i with
  | zero => rfl
  | succ n ih =>
    rw [List.range'_succ] at hres
    by_cases hfree : (s.f i).opened = 0
    · have hfail : res i ≠ 0 := hres i (by simp [StmFs.free,hfree])
      rw [stmFsOpenFrom,if_pos hfree,if_pos hfail]
      by_cases hj : (j : Int) = i
      · simp [hj,hfree]
      · simp [hj]
    · rw [stmFsOpenFrom,if_neg hfree]
      refine ih fun k hk => hres k ?_
      rwa [List.find?_cons_of_neg (by simpa [StmFs.free] using hfree)]

theorem stmFsOpen_result (res : Nat → Nat) (name : Option Str) (s : StmFs) :
    (stmFsOpen res name s).1 = -1 := by
  cases name <;> rfl

/-- The call opens one slot or none exactly when it cannot open any. -/
theorem stmFsOpen_opensOne_iff (res : Nat → Nat) (name : Option Str) (s : StmFs) :
    OpensOne res name s (stmFsOpen res name s) ↔ OpenRefused res name s := by
  have hresult := stmFsOpen_result res name s
  constructor
  · intro h
    by_contra hopen
    simp only [OpenRefused,not_or,not_forall,Bool.not_eq_false,not_not] at hopen
    obtain ⟨hmounted,hname,i,hfirst,hres⟩ := hopen
    obtain ⟨k,hk⟩ := h.succeeds hmounted hname i hfirst hres
    omega
  · intro h
    refine ⟨.inr ⟨hresult,fun j _ => ?_⟩,fun hmounted hname i hfirst hres => ?_⟩
    · cases name with
      | none => rfl
      | some name =>
        cases hmounted : s.mounted with
        | false => simp [stmFsOpen,hmounted]
        | true =>
          have hrefused : ∀ k, firstFree s.free = some k → res k ≠ 0 := by
            simpa [OpenRefused,hmounted] using h
          rw [firstFree,List.range_eq_range'] at hrefused
          simpa [stmFsOpen,hmounted] using stmFsOpenFrom_refused hrefused j
    · have hrefused : ∀ k, firstFree s.free = some k → res k ≠ 0 := by
        simpa [OpenRefused,hmounted,hname] using h
      exact absurd hres (hrefused i hfirst)

/-- A volume with no file open. -/
def freshVolume : StmFs := { stmFsInit with mounted := true }

/-- One file takes all slots of a table that is free, and is reported as missing. -/
theorem stmFsOpen_takes_all :
    (∀ j < maxOpenFiles, (stmFsOpen (fun _ => 0) (some [97]) freshVolume).2.f j = ⟨some [97],1⟩) ∧
      ¬ OpensOne (fun _ => 0) (some [97]) freshVolume
        (stmFsOpen (fun _ => 0) (some [97]) freshVolume) := by
  refine ⟨by decide,fun hopen => ?_⟩
  obtain ⟨i,hi⟩ := hopen.succeeds rfl (by simp) 0 (by decide) rfl
  rw [stmFsOpen_result] at hi
  omega

end Mardio
