import Mardio.Cmd
import Mardio.FsSpec
import Mardio.Stm32Fs

/-!
Which entries of the handle tables a call visits. Nine functions test their handle
against `MAX_OPEN_FILES`; all of them let the bound itself pass, and two of them only
report what they find. A visit is what a call reads or writes in a table: nothing else
changes, and nothing else matters.
-/

set_option autoImplicit false

namespace Mardio

/-- `fss.handles`, and the table of the host. -/
inductive FsTable where
  | handles | host
  deriving DecidableEq, Repr

structure FileTables where
  fs : Fs
  stm : StmFs

inductive FileCall where
  | close
  | read (buffer : Nat) (size : UInt32)
  | seek (offset : UInt32)
  deriving DecidableEq, Repr

/-- The test that returns. -/
def checkedVisits (table : FsTable) (handle : Int) : List (FsTable × Int) :=
  if badHandle handle then [] else [(table,handle)]

/-- The test that only reports. -/
def mountedVisits (handle : Int) (s : StmFs) : List (FsTable × Int) :=
  if s.mounted then [(.host,handle)] else []

def hostFsCloseVisits (handle : Int) : List (FsTable × Int) := checkedVisits .host handle
def hostFsReadVisits (handle : Int) : List (FsTable × Int) := checkedVisits .host handle
def hostFsSeekVisits (handle : Int) : List (FsTable × Int) := checkedVisits .host handle

def stmFsCloseVisits (handle : Int) : List (FsTable × Int) := checkedVisits .host handle
def stmFsReadVisits (handle : Int) (s : StmFs) : List (FsTable × Int) := mountedVisits handle s
def stmFsSeekVisits (handle : Int) (s : StmFs) : List (FsTable × Int) := mountedVisits handle s

def hostVisits (h : Host) (c : FileCall) (handle : Int) (s : FileTables) : List (FsTable × Int) :=
  match h, c with
  | .linux, .close => hostFsCloseVisits handle
  | .linux, .read _ _ => hostFsReadVisits handle
  | .linux, .seek _ => hostFsSeekVisits handle
  | .stm32, .close => stmFsCloseVisits handle
  | .stm32, .read _ _ => stmFsReadVisits handle s.stm
  | .stm32, .seek _ => stmFsSeekVisits handle s.stm

/-- The switch on the source of the entry. The resource files have a table of their own. -/
def sourceVisits (h : Host) (c : FileCall) (handle : Int) (s : FileTables) : List (FsTable × Int) :=
  if badHandle handle then []
  else
    let entry := s.fs.handles handle.toNat
    (.handles,handle) :: match entry.source with
      | .host => hostVisits h c entry.handle s
      | .resource => []
      | .closed => []

def fsCloseVisits (h : Host) (handle : Int) (s : FileTables) : List (FsTable × Int) :=
  sourceVisits h .close handle s

/-- An empty request is refused before the table is looked at. -/
def fsReadVisits (h : Host) (handle : Int) (buffer : Nat) (size : UInt32) (s : FileTables) :
    List (FsTable × Int) :=
  if size = 0 ∨ buffer = 0 then [] else sourceVisits h (.read buffer size) handle s

def fsSeekVisits (h : Host) (handle : Int) (offset : UInt32) (s : FileTables) :
    List (FsTable × Int) :=
  sourceVisits h (.seek offset) handle s

def fsVisits (h : Host) (c : FileCall) (handle : Int) (s : FileTables) : List (FsTable × Int) :=
  match c with
  | .close => fsCloseVisits h handle s
  | .read buffer size => fsReadVisits h handle buffer size s
  | .seek offset => fsSeekVisits h handle offset s

/-- The two layers, each with its own functions. -/
inductive FsLayer where
  | fs | host
  deriving DecidableEq, Repr

def FsLayer.visits : FsLayer → Host → FileCall → Int → FileTables → List (FsTable × Int)
  | .fs => fsVisits
  | .host => hostVisits

/-- Every entry that is visited exists. -/
def InTables (visits : List (FsTable × Int)) : Prop := ∀ v ∈ visits, InTable v.2

/-- The bound itself is not passed; to the calls that only report, nothing outside the
table is, unless there is no volume. -/
def HostHandleOk (h : Host) (c : FileCall) (handle : Int) (s : FileTables) : Prop :=
  match h, c with
  | .stm32, .read _ _ => s.stm.mounted = false ∨ InTable handle
  | .stm32, .seek _ => s.stm.mounted = false ∨ InTable handle
  | _, _ => handle ≠ maxOpenFiles

/-- The same for the table above it, and for the handle that an entry holds for the
host. -/
def SourceHandleOk (h : Host) (c : FileCall) (handle : Int) (s : FileTables) : Prop :=
  handle ≠ maxOpenFiles ∧ (InTable handle → (s.fs.handles handle.toNat).source = .host →
    HostHandleOk h c (s.fs.handles handle.toNat).handle s)

def FsHandleOk (h : Host) (c : FileCall) (handle : Int) (s : FileTables) : Prop :=
  match c with
  | .read buffer size => size = 0 ∨ buffer = 0 ∨ SourceHandleOk h c handle s
  | _ => SourceHandleOk h c handle s

def FsLayer.HandleOk : FsLayer → Host → FileCall → Int → FileTables → Prop
  | .fs => FsHandleOk
  | .host => HostHandleOk

theorem not_bad_iff (handle : Int) : ¬ badHandle handle ↔
    InTable handle ∨ handle = maxOpenFiles := by
  simp only [badHandle,InTable,maxOpenFiles]
  omega

theorem not_inTable_bound : ¬ InTable maxOpenFiles := by simp [InTable]

theorem inTables_checked_iff (table : FsTable) (handle : Int) :
    InTables (checkedVisits table handle) ↔ handle ≠ maxOpenFiles := by
  rw [checkedVisits]
  split
  · rename_i hbad
    refine iff_of_true (by simp [InTables]) ?_
    rintro rfl
    exact (not_bad_iff _).mpr (.inr rfl) hbad
  · rename_i hbad
    obtain hin | rfl := (not_bad_iff handle).mp hbad
    · refine iff_of_true (by simpa [InTables] using hin) ?_
      rintro rfl
      exact not_inTable_bound hin
    · simpa [InTables] using not_inTable_bound

theorem inTables_mounted_iff (handle : Int) (s : StmFs) :
    InTables (mountedVisits handle s) ↔ s.mounted = false ∨ InTable handle := by
  cases hm : s.mounted <;> simp [mountedVisits,hm,InTables]

section
variable (h : Host) (c : FileCall) (handle : Int) (s : FileTables)

theorem inTables_host_iff : InTables (hostVisits h c handle s) ↔ HostHandleOk h c handle s := by
  cases h with
  | linux => cases c <;> exact inTables_checked_iff .host handle
  | stm32 =>
    cases c with
    | close => exact inTables_checked_iff .host handle
    | read buffer size => exact inTables_mounted_iff handle s.stm
    | seek offset => exact inTables_mounted_iff handle s.stm

theorem inTables_source_iff : InTables (sourceVisits h c handle s) ↔
    SourceHandleOk h c handle s := by
  rw [sourceVisits,SourceHandleOk]
  split
  · rename_i hbad
    have hout : ¬ (InTable handle ∨ handle = maxOpenFiles) :=
      mt (not_bad_iff handle).mpr (not_not.mpr hbad)
    exact iff_of_true (by simp [InTables])
      ⟨fun he => hout (.inr he),fun hin => absurd (.inl hin) hout⟩
  · rename_i hbad
    obtain hin | rfl := (not_bad_iff handle).mp hbad
    · have hne : handle ≠ maxOpenFiles := by
        rintro rfl
        exact not_inTable_bound hin
      have hhost := inTables_host_iff h c (s.fs.handles handle.toNat).handle s
      cases hsource : (s.fs.handles handle.toNat).source with
      | host => simpa [InTables,hin,hne,hsource] using hhost
      | resource => simp [InTables,hin,hne,hsource]
      | closed => simp [InTables,hin,hne,hsource]
    · exact iff_of_false (fun hin => not_inTable_bound (hin _ List.mem_cons_self)) fun hok =>
        hok.1 rfl

theorem inTables_fs_iff : InTables (fsVisits h c handle s) ↔ FsHandleOk h c handle s := by
  cases c with
  | close => exact inTables_source_iff h .close handle s
  | seek offset => exact inTables_source_iff h (.seek offset) handle s
  | read buffer size =>
    simp only [fsVisits,fsReadVisits,FsHandleOk]
    by_cases hempty : size = 0 ∨ buffer = 0
    · rw [if_pos hempty]
      refine iff_of_true (by simp [InTables]) ?_
      tauto
    · rw [if_neg hempty,inTables_source_iff]
      tauto

end

/-- A call of either layer on either host stays inside the tables exactly under the
condition. -/
theorem handle_checked_iff (layer : FsLayer) (h : Host) (c : FileCall) (handle : Int)
    (s : FileTables) :
    InTables (layer.visits h c handle s) ↔ layer.HandleOk h c handle s := by
  cases layer with
  | fs => exact inTables_fs_iff h c handle s
  | host => exact inTables_host_iff h c handle s

/-- The bound passes the test of every function, and any handle that of two of them. -/
theorem handle_unchecked :
    ¬ InTables (FsLayer.fs.visits .linux .close 3 ⟨fsInit [],stmFsInit⟩) ∧
    ¬ InTables (FsLayer.host.visits .linux (.read 16 1) 3 ⟨fsInit [],stmFsInit⟩) ∧
    ¬ InTables (FsLayer.host.visits .stm32 (.seek 0) (-7)
      ⟨fsInit [],{ stmFsInit with mounted := true }⟩) := by
  have hbound : ¬ InTable 3 := not_inTable_bound
  have hnegative : ¬ InTable (-7) := by simp [InTable]
  exact ⟨fun hin => hbound (hin (.handles,3) (by decide)),
    fun hin => hbound (hin (.host,3) (by decide)),fun hin => hnegative (hin (.host,-7) (by decide))⟩

/-! The functions themselves: an entry that is not visited is neither changed nor read. -/

section
variable {handle : Int} {i : Nat}

theorem update_unvisited {α : Type} (hbad : ¬ badHandle handle)
    (hi : (FsTable.host,(i : Int)) ∉ checkedVisits .host handle) (g : Nat → α) (v : α) :
    Function.update g handle.toNat v i = g i := by
  rw [checkedVisits,if_neg hbad] at hi
  have hne : (i : Int) ≠ handle := by simpa using hi
  rw [badHandle] at hbad
  exact Function.update_of_ne (by omega) _ _

theorem checked_mem (hbad : ¬ badHandle handle) :
    (FsTable.host,(handle.toNat : Int)) ∈ checkedVisits .host handle := by
  rw [checkedVisits,if_neg hbad,Int.toNat_of_nonneg (by rw [badHandle] at hbad; omega)]
  exact List.mem_singleton_self _

theorem hostFsClose_frame (hi : (FsTable.host,(i : Int)) ∉ hostFsCloseVisits handle) (fs : Fs) :
    (hostFsClose handle fs).hfs i = fs.hfs i := by
  rw [hostFsClose]
  split
  · rfl
  · rename_i hbad
    exact update_unvisited hbad hi _ _

theorem hostFsRead_frame (hi : (FsTable.host,(i : Int)) ∉ hostFsReadVisits handle)
    (fault : Option Nat) (size : Nat) (fs : Fs) :
    (hostFsRead fault handle size fs).2.hfs i = fs.hfs i := by
  rw [hostFsRead]
  split
  · rfl
  · rename_i hbad
    split
    · rfl
    · exact update_unvisited hbad hi _ _

theorem hostFsSeek_frame (hi : (FsTable.host,(i : Int)) ∉ hostFsSeekVisits handle) (offset : Nat)
    (fs : Fs) :
    (hostFsSeek handle offset fs).hfs i = fs.hfs i := by
  rw [hostFsSeek]
  split
  · rfl
  · rename_i hbad
    split
    · rfl
    · exact update_unvisited hbad hi _ _

theorem hostFsRead_reads {fs fs' : Fs} (hsame : ∀ i : Nat, (FsTable.host,(i : Int)) ∈
    hostFsReadVisits handle → fs.hfs i = fs'.hfs i)
    (fault : Option Nat) (size : Nat) :
    (hostFsRead fault handle size fs).1 = (hostFsRead fault handle size fs').1 := by
  rw [hostFsRead,hostFsRead]
  split
  · rfl
  · rename_i hbad
    rw [hsame handle.toNat (checked_mem hbad)]
    split <;> rfl

theorem stmFsClose_frame {k : Int} (hk : (FsTable.host,k) ∉ stmFsCloseVisits handle) (s : StmFs) :
    (stmFsClose handle s).f k = s.f k := by
  rw [stmFsClose]
  split
  · rfl
  · rename_i hbad
    rw [stmFsCloseVisits,checkedVisits,if_neg hbad] at hk
    split
    · rfl
    · exact Function.update_of_ne (by simpa using hk) _ _

theorem stmFsRead_reads {s s' : StmFs} (hm : s.mounted = s'.mounted)
    (hsame : ∀ k, (FsTable.host,k) ∈ stmFsReadVisits handle s → s.f k = s'.f k) (res : Nat)
    (got : List UInt8) (buffer : Nat) (size : UInt32) :
    stmFsRead res got handle buffer size s = stmFsRead res got handle buffer size s' := by
  rw [stmFsRead,stmFsRead,← hm]
  cases hmounted : s.mounted with
  | false => rfl
  | true => rw [hsame handle (by simp [stmFsReadVisits,mountedVisits,hmounted])]

theorem stmFsSeek_reads {s s' : StmFs} (hm : s.mounted = s'.mounted)
    (hsame : ∀ k, (FsTable.host,k) ∈ stmFsSeekVisits handle s → s.f k = s'.f k) :
    stmFsSeek handle s = stmFsSeek handle s' := by
  rw [stmFsSeek,stmFsSeek,← hm]
  cases hmounted : s.mounted with
  | false => rfl
  | true => rw [hsame handle (by simp [stmFsSeekVisits,mountedVisits,hmounted])]

theorem fsClose_frame {s : FileTables} (hi : (FsTable.handles,(i : Int)) ∉
    fsCloseVisits .linux handle s) :
    (fsClose handle s.fs).handles i = s.fs.handles i := by
  rw [fsClose]
  split
  · rfl
  · rename_i hbad
    rw [fsCloseVisits,sourceVisits,if_neg hbad] at hi
    have hne : (i : Int) ≠ handle := fun he => hi (by simp [he])
    have hne' : i ≠ handle.toNat := by
      rw [badHandle] at hbad
      omega
    have hhost : (hostFsClose (s.fs.handles handle.toNat).handle s.fs).handles = s.fs.handles := by
      rw [hostFsClose]
      split <;> rfl
    have hres := (resClose_same (s.fs.handles handle.toNat).handle s.fs).2.1
    dsimp only
    split
    · rw [setHandle,hhost]
      exact Function.update_of_ne hne' _ _
    · rw [setHandle,hres]
      exact Function.update_of_ne hne' _ _
    · rfl

end

end Mardio
