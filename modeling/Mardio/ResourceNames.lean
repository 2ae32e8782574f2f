import Mardio.FsSpec

/-!
Finding a resource by its name. An entry is taken when its name is the beginning of
the name asked for, the index is returned in 8 bits, and the calls that take a name
leave out the first entry.
-/

set_option autoImplicit false

namespace Mardio

/-- `none` is the null pointer. -/
def resDataByname (name : Str) (fs : Fs) : Option (List UInt8) :=
  let i := resFindHandle name fs.entries
  if i > 0 then (fs.entries[i.toNat]?).map ResEntry.data else none

/-- The entry that ends the table has no data. -/
def resDataByid (handle : Int) (fs : Fs) : Option (List UInt8) :=
  if handle < 0 ∨ handle > fs.entries.length then none
    else (fs.entries[handle.toNat]?).map ResEntry.data

def entrySize (handle : Int) (fs : Fs) : Int :=
  ((fs.entries[handle.toNat]?).map fun e => (e.data.length : Int)).getD 0

def resSizeByname (name : Str) (fs : Fs) : Int :=
  let i := resFindHandle name fs.entries
  if i > 0 then entrySize i fs else -1

def resSizeByid (handle : Int) (fs : Fs) : Int :=
  if handle < 0 ∨ handle > fs.entries.length then -1 else entrySize handle fs

/-- A resource table whose names are strings. -/
structure NamedFs extends Fs where
  strings : ∀ e ∈ entries, 0 ∉ e.name

structure DistinctFs extends NamedFs where
  distinct : (entries.map ResEntry.name).Nodup

/-- The lookup finds the entry of that name and nothing else. -/
def LookupExact (name : Str) (fs : Fs) : Prop :=
  (∀ i : Nat, resOpen name fs = i ↔ (fs.entries.map ResEntry.name)[i]? = some name) ∧
    (name ∉ fs.entries.map ResEntry.name → resOpen name fs = -1)

/-- The two ways to the data and the size of a resource agree. -/
def AccessAgrees (name : Str) (fs : Fs) : Prop :=
  (0 ≤ resOpen name fs →
    resDataByname name fs = resDataByid (resOpen name fs) fs ∧
      resSizeByname name fs = resSizeByid (resOpen name fs) fs) ∧
  (resOpen name fs = -1 → resDataByname name fs = none ∧ resSizeByname name fs = -1)

/-- The first entry whose name is the beginning of a name. -/
def firstBeginning (name : Str) (fs : Fs) : Option Nat :=
  (fs.entries.map ResEntry.name).findIdx? (·.isPrefixOf name)

/-- That entry has the name and one of the indices of a signed byte; or no entry has the
name, and the index is cut to -1. -/
def LookupFits (name : Str) (fs : Fs) : Prop :=
  ∀ i ∈ firstBeginning name fs,
    (fs.entries.map ResEntry.name)[i]? = some name ∧ i < 2^7 ∨
      name ∉ fs.entries.map ResEntry.name ∧ i % 2^8 = 2^8-1

theorem findIdx?_congr {α : Type} {p q : α → Bool} {xs : List α} (h : ∀ x ∈ xs, p x = q x) :
    xs.findIdx? p = xs.findIdx? q := by
  induction xs with
  | nil => rfl
  | cons x xs ih =>
    have hrest := ih fun y hy => h y (List.mem_cons_of_mem x hy)
    rw [List.findIdx?_cons,List.findIdx?_cons,h x List.mem_cons_self,hrest]

theorem isPrefixOf_self (name : Str) : name.isPrefixOf name = true :=
  List.isPrefixOf_iff_prefix.mpr (List.prefix_refl name)

section
variable {t : NamedFs} {name : Str}

theorem resOpen_eq (t : NamedFs) (name : Str) :
    resOpen name t.toFs = ((firstBeginning name t.toFs).map fun i =>
      Int.bmod i (2^8)).getD (-1) := by
  have hsame : ∀ e ∈ t.entries, (ucStrncmp name e.name e.name.length == 0) =
      e.name.isPrefixOf name := by
    intro e he
    rw [Bool.eq_iff_iff,beq_iff_eq,ucStrncmp_eq_zero_iff (t.strings e he),
      List.isPrefixOf_iff_prefix]
  rw [resOpen,resFindHandle,findIdx?_congr hsame,firstBeginning,List.findIdx?_map,Function.comp_def]
  split
  · rename_i hfirst
    simp [hfirst]
  · rename_i hfirst
    simp [hfirst]

theorem resOpen_none (hfirst : firstBeginning name t.toFs = none) :
    resOpen name t.toFs = -1 ∧ name ∉ t.entries.map ResEntry.name := by
  refine ⟨by rw [resOpen_eq,hfirst]; rfl,fun hin => ?_⟩
  have hno := List.findIdx?_eq_none_iff.mp hfirst name hin
  exact absurd ((isPrefixOf_self name).symm.trans hno) (by decide)

/-- The index of the first beginning lies in the table, and no entry of that name comes
before it. -/
theorem resOpen_some {i : Nat} (hfirst : firstBeginning name t.toFs = some i) :
    resOpen name t.toFs = Int.bmod i (2^8) ∧ i < t.entries.length ∧
      ∀ j, (t.entries.map ResEntry.name)[j]? = some name → i ≤ j := by
  obtain ⟨hlen,-,hbefore⟩ := List.findIdx?_eq_some_iff_getElem.mp hfirst
  rw [List.length_map] at hlen
  refine ⟨by simp [resOpen_eq,hfirst],hlen,fun j hj => ?_⟩
  obtain ⟨hj,hname⟩ := List.getElem?_eq_some_iff.mp hj
  by_contra hlt
  have hno := hbefore j (by omega)
  rw [hname] at hno
  exact hno (isPrefixOf_self name)

end

/-- The lookup is exact where the first beginning is the name itself, in the range of a
signed byte. -/
theorem lookupExact_iff (t : DistinctFs) (name : Str) :
    LookupExact name t.toFs ↔ LookupFits name t.toFs := by
  cases hfirst : firstBeginning name t.toFs with
  | none =>
    obtain ⟨hopen,hnone⟩ := resOpen_none hfirst
    refine iff_of_true ⟨fun i => ?_,fun _ => hopen⟩ (by simp [LookupFits,hfirst])
    rw [hopen]
    exact iff_of_false (by omega) fun hi => hnone (List.mem_of_getElem? hi)
  | some i =>
    obtain ⟨hopen,hlen,hfirst'⟩ := resOpen_some hfirst
    simp only [LookupFits,hfirst,Option.mem_some_iff,forall_eq']
    rw [LookupExact,hopen]
    constructor
    · rintro ⟨hexact,habsent⟩
      by_cases hin : name ∈ t.entries.map ResEntry.name
      · obtain ⟨j,hj⟩ := List.getElem?_of_mem hin
        have hle := hfirst' j hj
        have hindex := (hexact j).mpr hj
        rw [Int.bmod_def] at hindex
        obtain rfl : i = j := by omega
        exact .inl ⟨hj,by omega⟩
      · have hindex := habsent hin
        rw [Int.bmod_def] at hindex
        exact .inr ⟨hin,by omega⟩
    · rintro (⟨hi,hlt⟩ | ⟨hin,hcut⟩)
      · rw [Int.bmod_eq_of_le_mul_two (by omega) (by omega)]
        refine ⟨fun j => ?_,fun habsent => absurd (List.mem_of_getElem? hi) habsent⟩
        rw [Int.natCast_inj,← List.getElem?_inj (by simpa using hlen) t.distinct,hi,eq_comm]
      · have hindex : Int.bmod i (2^8) = -1 := by
          rw [Int.bmod_def]
          omega
        rw [hindex]
        refine ⟨fun j => iff_of_false (by omega) fun hj => hin (List.mem_of_getElem? hj),
          fun _ => rfl⟩

/-- An entry with no data behind its name. -/
def emptyEntry (name : Str) : ResEntry := ⟨name,[],0,by decide⟩

/-- A table of one entry answers for every name that begins with its own. -/
theorem resOpen_longer_name : ¬ LookupExact [97,98] (fsInit [emptyEntry [97]]) := by
  intro hexact
  have hfound := hexact.2 (by decide)
  revert hfound
  decide

/-- The calls by name leave out the entries that the index 0 stands for. -/
theorem accessAgrees_iff (t : NamedFs) (name : Str) :
    AccessAgrees name t.toFs ↔ ∀ i ∈ firstBeginning name t.toFs, i % 2^8 ≠ 0 := by
  have hname : resFindHandle name t.entries = resOpen name t.toFs := rfl
  simp only [AccessAgrees,resDataByname,resSizeByname,resDataByid,resSizeByid,hname]
  cases hfirst : firstBeginning name t.toFs with
  | none =>
    obtain ⟨hopen,-⟩ := resOpen_none hfirst
    simp [hopen]
  | some i =>
    obtain ⟨hopen,hlen,-⟩ := resOpen_some hfirst
    simp only [Option.mem_some_iff,forall_eq',hopen]
    have hle : Int.bmod i (2^8) ≤ i := by
      rw [Int.bmod_def]
      omega
    have hzero : Int.bmod i (2^8) = 0 ↔ i % 2^8 = 0 := by
      rw [Int.bmod_def]
      omega
    generalize Int.bmod i (2^8) = handle at hle hzero
    obtain hneg | rfl | hpos := lt_trichotomy handle 0
    · have hne := mt hzero.mpr hneg.ne
      exact iff_of_true ⟨fun h0 => by omega,fun _ => by simp [show ¬ 0 < handle by omega]⟩ hne
    · -- the entry is there, and the calls by name do not give it
      have hentry : t.entries[0]? = some t.entries[0] := List.getElem?_eq_getElem (by omega)
      refine iff_of_false (fun hagree => ?_) (by simpa using hzero)
      have := (hagree.1 le_rfl).1
      simp [hentry] at this
    · have hne := mt hzero.mpr hpos.ne'
      refine iff_of_true ⟨fun _ => ?_,fun h1 => by omega⟩ hne
      rw [if_pos hpos,if_pos hpos,if_neg (by omega),if_neg (by omega)]
      exact ⟨rfl,rfl⟩

def twoBytes : ResEntry := ⟨[97],[7,8],0,by decide⟩

/-- The first resource has data, and none by its name. -/
theorem resDataByname_first : ¬ AccessAgrees [97] (fsInit [twoBytes]) := by
  intro hagree
  have hdata := (hagree.1 (by decide)).1
  revert hdata
  decide

end Mardio
