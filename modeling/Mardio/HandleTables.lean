import Mardio.Lib.Runs
import Mardio.FsSpec

/-!
The handle table of the file layer and the table of the host. Each is searched for
a free entry on its own, and over every run of calls the open host entries of the
first are in bijection with the open slots of the second.
-/

set_option autoImplicit false

namespace Mardio
open Runs

def hostEntries (fs : Fs) : Set Nat := {i | i < maxOpenFiles ∧ (fs.handles i).source = .host}

def openEntries (fs : Fs) : Set Nat := {i | i < maxOpenFiles ∧ (fs.handles i).source ≠ .closed}

/-- The slots of the host's table that hold a file, numbered as the handles are. -/
def hostSlots (fs : Fs) : Set Int := {h | InTable h ∧ (fs.hfs h.toNat).isSome}

def Paired (fs : Fs) : Prop :=
  Set.BijOn (fun i => (fs.handles i).handle) (hostEntries fs) (hostSlots fs)

/-- `fs_open` of a pointer: `NULL` is refused before anything else. -/
def openName (files : Str → Option (List UInt8)) (fs : Fs) : Option Str → Int × Fs
  | none => (-1,fs)
  | some name => fsOpen files name fs

def typeName (w : World) (fs : Fs) : Option Str → FsType × Fs
  | none => (.none,fs)
  | some name => fsType w name fs

/-- A call of the file layer with what the host answers in it. -/
inductive FsCall where
  | openFile (files : Str → Option (List UInt8)) (name : Option Str)
  | closeFile (h : Fin maxOpenFiles)
  | readFile (h : Fin maxOpenFiles) (fault : Option Nat) (size : UInt32)
  | seekFile (h : Fin maxOpenFiles) (offset : UInt32)
  | typeFile (w : World) (name : Option Str)

/-- `res_read` computes the end of a read as an int. -/
def endInt (h : Nat) (size : UInt32) (fs : Fs) : Bool :=
  match fs.handles h with
  | ⟨.resource,.ofNat n⟩ => fs.entries[n]?.all fun e => min e.pos e.data.length+size.toNat < 2^31
  | _ => true

/-- A read with an end that is no int is not followed. -/
def fsCall (fs : Fs) : FsCall → Option Fs
  | .openFile files name => some (openName files fs name).2
  | .closeFile h => some (fsClose h.val fs)
  | .readFile h fault size => if endInt h size fs then some (fsRead fault h.val size.toNat fs).2
      else none
  | .seekFile h offset => some (fsSeek h.val offset.toNat fs)
  | .typeFile w name => some (typeName w fs name).2

/-- The handle was closed and is open, a file of the host has a slot that was free, and
the rest is as it was. -/
structure HandleOpened (fs : Fs) (i : Int) (fs' : Fs) : Prop where
  inTable : InTable i
  closed : (fs.handles i.toNat).source = .closed
  entries : openEntries fs' = insert i.toNat (openEntries fs)
  others : ∀ n, n ≠ i.toNat → fs'.handles n = fs.handles n
  slots : ((fs'.handles i.toNat).source = .host ∧ (fs'.handles i.toNat).handle ∉ hostSlots fs ∧
      hostSlots fs' = insert (fs'.handles i.toNat).handle (hostSlots fs)) ∨
    ((fs'.handles i.toNat).source = .resource ∧ hostSlots fs' = hostSlots fs)

structure TablesAgree (fs : Fs) : Prop where
  paired : Paired fs
  opened : ∀ files name, HandleOpened fs (openName files fs name).1 (openName files fs name).2 ∨
    ((openName files fs name).1 = -1 ∧ openEntries (openName files fs name).2 = openEntries fs ∧
      hostSlots (openName files fs name).2 = hostSlots fs)
  typed : ∀ w name, openEntries (typeName w fs name).2 = openEntries fs ∧
    hostSlots (typeName w fs name).2 = hostSlots fs

theorem openEntries_congr {fs fs' : Fs} (h : ∀ n, (fs'.handles n).source = (fs.handles n).source) :
    openEntries fs' = openEntries fs := by simp only [openEntries,h]

theorem hostSlots_congr {fs fs' : Fs} (h : ∀ n, (fs'.hfs n).isSome = (fs.hfs n).isSome) :
    hostSlots fs' = hostSlots fs := by simp only [hostSlots,h]

theorem typeName_tables (w : World) (name : Option Str) (fs : Fs) :
    (∀ n, ((typeName w fs name).2.handles n).source = (fs.handles n).source) ∧
      (typeName w fs name).2.hfs = fs.hfs := by
  cases name with
  | none => exact ⟨fun _ => rfl,rfl⟩
  | some name =>
    cases hl : fs.lookup w.files name with
    | none =>
      rw [show typeName w fs (some name) = (.none,fs) from fsType_none hl]
      exact ⟨fun _ => rfl,rfl⟩
    | some f =>
      obtain ⟨h,e,t,hopen,ho,-,hv,-⟩ := fsOpen_some hl
      obtain ⟨t',hread,ho',-,-,-⟩ := fsRead_opened ho hv w.typeFault (by decide : 0 < 64)
      obtain ⟨-,hsources,hhfs,-⟩ := fsClose_opened ho'
      have htype : typeName w fs (some name) =
          (typeOfHeader (f.read w.typeFault 64),fsClose h t') := by
        simp only [typeName,fsType,hopen,if_neg ho.inTable.ne_neg,hread]
      rw [htype]
      exact ⟨hsources,hhfs⟩

/-! One call keeps the bijection. -/

section
variable {fs : Fs} {i : Int} {e : FsHandle} {j : Nat}

theorem openEntries_setHandle (hi : InTable i) (he : e.source ≠ .closed) :
    openEntries (setHandle fs i e) = insert i.toNat (openEntries fs) := by
  have hlt : i.toNat < maxOpenFiles := by
    unfold InTable at hi
    omega
  ext n
  by_cases hn : n = i.toNat
  · simp [openEntries,setHandle,hn,hlt,he]
  · simp [openEntries,setHandle,hn]

theorem hostEntries_setHandle_host (hi : InTable i) (he : e.source = .host) :
    hostEntries (setHandle fs i e) = insert i.toNat (hostEntries fs) := by
  have hlt : i.toNat < maxOpenFiles := by
    unfold InTable at hi
    omega
  ext n
  by_cases hn : n = i.toNat
  · simp [hostEntries,setHandle,hn,hlt,he]
  · simp [hostEntries,setHandle,hn]

theorem hostEntries_setHandle_other (he : e.source ≠ .host) :
    hostEntries (setHandle fs i e) = hostEntries fs \ {i.toNat} := by
  ext n
  by_cases hn : n = i.toNat
  · simp [hostEntries,setHandle,hn,he]
  · simp [hostEntries,setHandle,hn]

theorem setHandle_eqOn (s : Set Nat) (hs : i.toNat ∉ s) :
    Set.EqOn (fun n => (fs.handles n).handle)
      (fun n => ((setHandle fs i e).handles n).handle) s := by
  intro n hn
  have hne : n ≠ i.toNat := fun he => hs (he ▸ hn)
  simp [setHandle,hne]

theorem InTable.toNat_eq {h : Int} (hh : InTable h) : h.toNat = j ↔ h = j := by
  unfold InTable at hh
  omega

theorem hostSlots_update_some {f : OpenFile} (hj : j < maxOpenFiles) :
    hostSlots { fs with hfs := Function.update fs.hfs j (some f) } =
      insert (j : Int) (hostSlots fs) := by
  have hin : InTable (j : Int) := ⟨by omega,by omega⟩
  ext h
  by_cases hn : h = j
  · simp [hostSlots,hn,hin]
  · have hne : InTable h → h.toNat ≠ j := fun hh he => hn (hh.toNat_eq.mp he)
    simp only [hostSlots,Set.mem_ofPred_eq,Set.mem_insert_iff,hn,false_or]
    exact and_congr_right fun hh => by rw [Function.update_of_ne (hne hh)]

theorem hostSlots_update_none :
    hostSlots { fs with hfs := Function.update fs.hfs j none } = hostSlots fs \ {(j : Int)} := by
  ext h
  by_cases hn : h = j
  · simp [hostSlots,hn]
  · have hne : InTable h → h.toNat ≠ j := fun hh he => hn (hh.toNat_eq.mp he)
    simp only [hostSlots,Set.mem_ofPred_eq,Set.mem_sdiff,Set.mem_singleton_iff,hn,not_false_iff,
      and_true]
    exact and_congr_right fun hh => by rw [Function.update_of_ne (hne hh)]

theorem openName_result (files : Str → Option (List UInt8)) (name : Option Str) (fs : Fs) :
    HandleOpened fs (openName files fs name).1 (openName files fs name).2 ∨
      openName files fs name = (-1,fs) := by
  cases name with
  | none => exact .inr rfl
  | some name =>
    obtain ⟨ho,_⟩ | ⟨i,hi,_,hcl,⟨j,c,hj,hfree,_,ho⟩ | ⟨_,_,ho⟩⟩ := fsOpen_cases files name fs
    · exact .inr ho
    · rw [openName,ho]
      have hslot : (j : Int) ∉ hostSlots fs := fun hm => by simp [hostSlots,hfree] at hm
      have hslots : hostSlots (setHandle { fs with hfs := Function.update fs.hfs j (some ⟨c,0⟩) } i
          ⟨.host,j⟩) =
          insert (j : Int) (hostSlots fs) := hostSlots_update_some hj
      refine .inl ⟨hi,hcl,openEntries_setHandle hi (by simp),fun n hn => by simp [setHandle,hn],
        .inl ⟨?_,?_,?_⟩⟩
      · simp [setHandle]
      · simpa [setHandle] using hslot
      · rw [hslots]
        simp [setHandle]
    · rw [openName,ho]
      exact .inl ⟨hi,hcl,openEntries_setHandle hi (by simp),fun n hn => by simp [setHandle,hn],
        .inr ⟨by simp [setHandle],rfl⟩⟩

theorem Paired.agree (h : Paired fs) : TablesAgree fs := by
  refine ⟨h,fun files name => (openName_result files name fs).imp_right fun hr => by simp [hr],
    fun w name => ?_⟩
  obtain ⟨hs,hh⟩ := typeName_tables w name fs
  exact ⟨openEntries_congr hs,hostSlots_congr fun n => by rw [hh]⟩

theorem Paired.congr {fs' : Fs} (h : Paired fs) (hh : fs'.handles = fs.handles)
    (hs : ∀ n, (fs'.hfs n).isSome = (fs.hfs n).isSome) : Paired fs' := by
  rw [Paired,hostSlots_congr hs,hostEntries,hh]
  exact h

/-- An entry that is no host file before and after takes no part. -/
theorem Paired.setOther (h : Paired fs) (hold : (fs.handles i.toNat).source ≠ .host)
    (hnew : e.source ≠ .host) :
    Paired (setHandle fs i e) := by
  have hout : i.toNat ∉ hostEntries fs := fun hm => hold hm.2
  rw [Paired,hostEntries_setHandle_other hnew,Set.sdiff_singleton_eq_self hout]
  exact Set.BijOn.congr h (setHandle_eqOn _ hout)

theorem Paired.takeHost (h : Paired fs) {f : OpenFile} (hi : InTable i) (hj : j < maxOpenFiles)
    (hold : (fs.handles i.toNat).source ≠ .host) (hfree : fs.hfs j = none) :
    Paired (setHandle { fs with hfs := Function.update fs.hfs j (some f) } i ⟨.host,j⟩) := by
  have hout : i.toNat ∉ hostEntries fs := fun hm => hold hm.2
  have hslot : (j : Int) ∉ hostSlots fs := fun hm => by simp [hostSlots,hfree] at hm
  have hrest : Set.BijOn (fun n => ((setHandle fs i ⟨.host,j⟩).handles n).handle) (hostEntries fs)
      (hostSlots fs) :=
    Set.BijOn.congr h (setHandle_eqOn _ hout)
  have hnew := hrest.insert (a := i.toNat) (by simpa [setHandle] using hslot)
  have hentries : hostEntries (setHandle { fs with hfs := Function.update fs.hfs j (some f) } i
      ⟨.host,j⟩) =
      insert i.toNat (hostEntries fs) := hostEntries_setHandle_host hi rfl
  have hslots : hostSlots (setHandle { fs with hfs := Function.update fs.hfs j (some f) } i
      ⟨.host,j⟩) =
      insert (j : Int) (hostSlots fs) := hostSlots_update_some hj
  rw [Paired,hentries,hslots]
  simpa [setHandle] using hnew

theorem Paired.releaseHost (h : Paired fs) (hi : InTable i) (hold : fs.handles i.toNat = ⟨.host,j⟩)
    (hnew : e.source ≠ .host) :
    Paired (setHandle { fs with hfs := Function.update fs.hfs j none } i e) := by
  have hin : i.toNat ∈ hostEntries fs := by
    unfold InTable at hi
    exact ⟨by omega,by rw [hold]⟩
  have hrest := Set.BijOn.sdiff_singleton h hin
  simp only [hold] at hrest
  have hentries : hostEntries (setHandle { fs with hfs := Function.update fs.hfs j none } i e) =
      hostEntries fs \ {i.toNat} := hostEntries_setHandle_other hnew
  have hslots : hostSlots (setHandle { fs with hfs := Function.update fs.hfs j none } i e) =
      hostSlots fs \ {(j : Int)} := hostSlots_update_none
  rw [Paired,hentries,hslots]
  exact hrest.congr (setHandle_eqOn _ (by simp))

theorem Paired.open (h : Paired fs) (files : Str → Option (List UInt8)) (name : Str) :
    Paired (fsOpen files name fs).2 := by
  obtain ⟨ho,_⟩ | ⟨i,hi,_,hcl,⟨j,c,hj,hfree,_,ho⟩ | ⟨_,_,ho⟩⟩ := fsOpen_cases files name fs
  · rwa [ho]
  · rw [ho]
    exact h.takeHost hi hj (by simp [hcl]) hfree
  · rw [ho]
    exact h.setOther (by simp [hcl]) (by simp)

theorem Paired.close (h : Paired fs) (hi : InTable i) : Paired (fsClose i fs) := by
  cases he : fs.handles i.toNat with
  | mk source k =>
  cases source with
  | closed =>
    have heq : fsClose i fs = fs := by simp only [fsClose,if_neg hi.not_bad,he]
    rwa [heq]
  | resource =>
    have heq : fsClose i fs = setHandle (resClose k fs) i ⟨.closed,k⟩ := by
      simp only [fsClose,if_neg hi.not_bad,he]
    obtain ⟨-,hhan,hhfs⟩ := resClose_same k fs
    rw [heq]
    exact (h.congr hhan fun n => by rw [hhfs]).setOther (by simp [hhan,he]) (by simp)
  | host =>
    have hk : k ∈ hostSlots fs := by
      have hm : i.toNat ∈ hostEntries fs := by
        unfold InTable at hi
        exact ⟨by omega,by rw [he]⟩
      simpa [he] using h.mapsTo hm
    obtain ⟨j,rfl⟩ := Int.eq_ofNat_of_zero_le hk.1.1
    have heq : fsClose i fs = setHandle { fs with hfs := Function.update fs.hfs j none } i
        ⟨.closed,j⟩ := by
      simp only [fsClose,if_neg hi.not_bad,he,hostFsClose,if_neg hk.1.not_bad,Int.toNat_natCast]
    rw [heq]
    exact h.releaseHost hi he (by simp)

end

/-! What a read or a seek through an entry touches: the position of one file. -/

structure Moves (e : FsHandle) (fs fs' : Fs) : Prop where
  handles : fs'.handles = fs.handles
  slots : ∀ n : Nat, (e.source = .host → e.handle ≠ n) → fs'.hfs n = fs.hfs n
  filled : ∀ n : Nat, (fs'.hfs n).isSome = (fs.hfs n).isSome
  entries : ∀ n : Nat, (e.source = .resource → e.handle ≠ n) → fs'.entries[n]? = fs.entries[n]?
  data : ∀ n : Nat, fs'.entries[n]?.map ResEntry.data = fs.entries[n]?.map ResEntry.data

section
variable {fs : Fs} {i k : Int} {e : FsHandle}

theorem Moves.refl : Moves e fs fs :=
  ⟨rfl,fun _ _ => rfl,fun _ => rfl,fun _ _ => rfl,fun _ => rfl⟩

theorem Moves.host {f g : OpenFile} (he : e.source = .host) (hb : ¬ badHandle e.handle)
    (hf : fs.hfs e.handle.toNat = some f) :
    Moves e fs { fs with hfs := Function.update fs.hfs e.handle.toNat (some g) } := by
  refine ⟨rfl,fun n hn => ?_,fun n => ?_,fun _ _ => rfl,fun _ => rfl⟩
  · have hne : n ≠ e.handle.toNat := by
      have := hn he
      unfold badHandle at hb
      omega
    exact Function.update_of_ne hne _ _
  · by_cases hn : n = e.handle.toNat
    · simp [hn,hf]
    · simp [hn]

theorem Moves.resource {p : ResEntry → Nat} (he : e.source = .resource)
    (hb : ¬ resBadHandle e.handle fs) :
    Moves e fs { fs with
      entries := fs.entries.modify e.handle.toNat fun r => { r with pos := p r } } := by
  refine ⟨rfl,fun _ _ => rfl,fun _ => rfl,fun n hn => ?_,fun n => ?_⟩
  · have hne : e.handle.toNat ≠ n := by
      have := hn he
      unfold resBadHandle at hb
      omega
    exact List.getElem?_modify_ne _ _ hne
  · rw [List.getElem?_modify]
    cases fs.entries[n]? with
    | none => simp
    | some r => by_cases hn : e.handle.toNat = n <;> simp [hn]

theorem hostFsRead_moves (fault : Option Nat) (size : Nat) (he : e.source = .host) :
    Moves e fs (hostFsRead fault e.handle size fs).2 := by
  by_cases hb : badHandle e.handle
  · rw [hostFsRead,if_pos hb]
    exact Moves.refl
  · cases hf : fs.hfs e.handle.toNat with
    | none =>
      simp only [hostFsRead,if_neg hb,hf]
      exact Moves.refl
    | some f =>
      simp only [hostFsRead,if_neg hb,hf]
      exact Moves.host he hb hf

theorem hostFsSeek_moves (offset : Nat) (he : e.source = .host) :
    Moves e fs (hostFsSeek e.handle offset fs) := by
  by_cases hb : badHandle e.handle
  · rw [hostFsSeek,if_pos hb]
    exact Moves.refl
  · cases hf : fs.hfs e.handle.toNat with
    | none =>
      simp only [hostFsSeek,if_neg hb,hf]
      exact Moves.refl
    | some f =>
      simp only [hostFsSeek,if_neg hb,hf]
      exact Moves.host he hb hf

theorem resRead_moves (size : Nat) (he : e.source = .resource) :
    Moves e fs (resRead e.handle size fs).2 := by
  by_cases hb : resBadHandle e.handle fs
  · rw [resRead,if_pos hb]
    exact Moves.refl
  · cases hr : fs.entries[e.handle.toNat]? with
    | none =>
      simp only [resRead,if_neg hb,hr]
      exact Moves.refl
    | some r =>
      simp only [resRead,if_neg hb,hr]
      exact Moves.resource he hb

theorem resSeek_moves (offset : Nat) (he : e.source = .resource) :
    Moves e fs (resSeek e.handle offset fs) := by
  by_cases hb : resBadHandle e.handle fs
  · rw [resSeek,if_pos hb]
    exact Moves.refl
  · rw [resSeek,if_neg hb]
    exact Moves.resource he hb

theorem resClose_moves (he : e.source = .resource) : Moves e fs (resClose e.handle fs) := by
  by_cases hb : resBadHandle e.handle fs
  · rw [resClose,if_pos hb]
    exact Moves.refl
  · rw [resClose,if_neg hb]
    exact Moves.resource he hb

theorem fsRead_moves (fs : Fs) (i : Int) (fault : Option Nat) (size : Nat) :
    Moves (fs.handles i.toNat) fs (fsRead fault i size fs).2 := by
  by_cases hb : badHandle i ∨ size = 0
  · rw [fsRead,if_pos hb]
    exact Moves.refl
  · cases hs : (fs.handles i.toNat).source with
    | closed =>
      simp only [fsRead,if_neg hb,hs]
      exact Moves.refl
    | resource =>
      simp only [fsRead,if_neg hb,hs]
      exact resRead_moves size hs
    | host =>
      simp only [fsRead,if_neg hb,hs]
      exact hostFsRead_moves fault size hs

theorem fsSeek_moves (fs : Fs) (i : Int) (offset : Nat) :
    Moves (fs.handles i.toNat) fs (fsSeek i offset fs) := by
  by_cases hb : badHandle i
  · rw [fsSeek,if_pos hb]
    exact Moves.refl
  · cases hs : (fs.handles i.toNat).source with
    | closed =>
      simp only [fsSeek,if_neg hb,hs]
      exact Moves.refl
    | resource =>
      simp only [fsSeek,if_neg hb,hs]
      exact resSeek_moves offset hs
    | host =>
      simp only [fsSeek,if_neg hb,hs]
      exact hostFsSeek_moves offset hs

end

theorem Paired.moves {fs fs' : Fs} {e : FsHandle} (h : Paired fs) (hm : Moves e fs fs') :
    Paired fs' :=
  h.congr hm.handles hm.filled

theorem handle_inTable (h : Fin maxOpenFiles) : InTable h.val := ⟨by omega,by exact_mod_cast h.isLt⟩

theorem Paired.type {fs : Fs} (h : Paired fs) (w : World) (name : Str) :
    Paired (fsType w name fs).2 := by
  cases hl : fs.lookup w.files name with
  | none => rwa [fsType_none hl]
  | some f =>
    obtain ⟨i,e,t,hopen,ho,-,hv,-⟩ := fsOpen_some hl
    have ht : Paired t := by
      have := h.open w.files name
      rwa [hopen] at this
    have hread := fsRead_moves t i w.typeFault 64
    obtain ⟨t',hr,-⟩ := fsRead_opened ho hv w.typeFault (by decide : 0 < 64)
    rw [hr] at hread
    have htype : fsType w name fs = (typeOfHeader (f.read w.typeFault 64),fsClose i t') := by
      simp only [fsType,hopen,if_neg ho.inTable.ne_neg,hr]
    rw [htype]
    exact (ht.moves hread).close ho.inTable

theorem Paired.call {fs fs' : Fs} {c : FsCall} (h : Paired fs) (hc : fsCall fs c = some fs') :
    Paired fs' := by
  cases c with
  | openFile files name =>
    cases hc
    cases name with
    | none => exact h
    | some name => exact h.open files name
  | closeFile i =>
    cases hc
    exact h.close (handle_inTable i)
  | readFile i fault size =>
    obtain ⟨-,hread⟩ := Option.ite_none_right_eq_some.mp hc
    cases hread
    exact h.moves (fsRead_moves fs i fault size.toNat)
  | seekFile i offset =>
    cases hc
    exact h.moves (fsSeek_moves fs i offset.toNat)
  | typeFile w name =>
    cases hc
    cases name with
    | none => exact h
    | some name => exact h.type w name

theorem fsInit_paired (entries : List ResEntry) : Paired (fsInit entries) := by
  have hentries : hostEntries (fsInit entries) = ∅ := by simp [hostEntries,fsInit]
  have hslots : hostSlots (fsInit entries) = ∅ := by simp [hostSlots,fsInit]
  rw [Paired,hentries,hslots]
  exact Set.bijOn_empty _

/-- Over every run of calls the two tables agree. -/
theorem fsRun_tables_agree (entries : List ResEntry) (calls : List FsCall) :
    Always fsCall TablesAgree (fsInit entries) calls :=
  always_of_invariant (fun _ h => Paired.agree h) (fun _ _ _ h hc => Paired.call h hc) calls _
    (fsInit_paired entries)

end Mardio
