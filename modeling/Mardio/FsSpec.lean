import Mardio.Fs

/-!
What the file layer does, one statement for each call: the file an open handle
designates, the file a name leads to, and the outcome of a play.
-/

set_option autoImplicit false

namespace Mardio
open ByteMem

/-- A file as it is read: where it lives, its bytes and the position in it. -/
structure Found where
  source : FsSource
  content : List UInt8
  pos : Nat
  deriving DecidableEq, Repr

/-- The bytes one read delivers. Resource files are never cut short. -/
def Found.read (f : Found) (fault : Option Nat) (size : Nat) : List UInt8 :=
  (f.content.drop f.pos).take (if f.source = .host then min size (fault.getD size) else size)

/-- The position a seek leads to: past the end on the host, never in a resource. -/
def Found.seek (f : Found) (offset : Nat) : Found :=
  { f with pos := if f.source = .host then offset else min offset f.content.length }

def Found.unread (f : Found) : Nat := f.content.length-f.pos

/-- The file a resource handle designates. A negative one reads as an empty file. -/
def resView (handle : Int) (fs : Fs) : Option Found :=
  if handle < 0 then some ⟨.resource,[],0⟩
  else fs.entries[handle.toNat]?.map fun e => ⟨.resource,e.data,e.pos⟩

/-- The file an open handle designates. -/
def Fs.view (fs : Fs) (handle : Int) : Option Found :=
  let h := fs.handles handle.toNat
  match h.source with
  | .host => (fs.hfs h.handle.toNat).map fun f => ⟨.host,f.content,f.pos⟩
  | .resource => resView h.handle fs
  | .closed => none

def Fs.lookup (fs : Fs) (files : Str → Option (List UInt8)) (name : Str) : Option Found :=
  if fsGetHandle fs = -1 then none
  else if (hostFsOpen files name fs).1 ≠ -1 then (files name).map fun c => ⟨.host,c,0⟩
  else if resOpen name fs ≠ -1 then resView (resOpen name fs) fs
  else none

/-- The fields of `fss` that only a play changes. -/
structure SameFile (fs fs' : Fs) : Prop where
  state : fs'.state = fs.state
  type : fs'.type = fs.type
  rate : fs'.rate = fs.rate
  channels : fs'.channels = fs.channels
  handle : fs'.handle = fs.handle

theorem SameFile.trans {a b c : Fs} (h : SameFile a b) (k : SameFile b c) : SameFile a c :=
  ⟨k.state.trans h.state,k.type.trans h.type,k.rate.trans h.rate,k.channels.trans h.channels,
    k.handle.trans h.handle⟩

def InTable (h : Int) : Prop := 0 ≤ h ∧ h < maxOpenFiles

theorem InTable.not_bad {h : Int} (hh : InTable h) : ¬ badHandle h := by
  unfold InTable badHandle at *
  omega

theorem InTable.ne_neg {h : Int} (hh : InTable h) : h ≠ -1 := by
  unfold InTable at hh
  omega

theorem firstFree_some {p : Nat → Bool} {i : Nat} (h : firstFree p = some i) :
    p i = true ∧ i < maxOpenFiles :=
  ⟨List.find?_some h,List.mem_range.mp (List.mem_of_find?_eq_some h)⟩

theorem fsGetHandle_free {fs : Fs} (h : fsGetHandle fs ≠ -1) :
    InTable (fsGetHandle fs) ∧ (fs.handles (fsGetHandle fs).toNat).source = .closed := by
  unfold fsGetHandle at *
  cases hf : firstFree (fun i => (fs.handles i).source == .closed) with
  | none => simp [hf] at h
  | some i =>
    obtain ⟨hp,hi⟩ := firstFree_some hf
    refine ⟨⟨by simp,by simpa using hi⟩,by simpa using hp⟩

theorem fsGetHandle_congr {fs fs' : Fs} (h : ∀ i, (fs'.handles i).source = (fs.handles i).source) :
    fsGetHandle fs' = fsGetHandle fs := by
  simp only [fsGetHandle,h]

theorem hostFsOpen_cases (files : Str → Option (List UInt8)) (name : Str) (fs : Fs) :
    hostFsOpen files name fs = (-1,fs) ∨
      ∃ (j : Nat) (c : List UInt8), j < maxOpenFiles ∧ fs.hfs j = none ∧ files name = some c ∧
        hostFsOpen files name fs = ((j : Int),
          { fs with hfs := Function.update fs.hfs j (some ⟨c,0⟩) }) := by
  unfold hostFsOpen
  cases hf : firstFree (fun i => (fs.hfs i).isNone) with
  | none => exact .inl rfl
  | some j =>
    obtain ⟨hp,hj⟩ := firstFree_some hf
    cases hc : files name with
    | none => exact .inl rfl
    | some c => exact .inr ⟨j,c,hj,by simpa using hp,rfl,rfl⟩

theorem hostFsOpen_congr {fs fs' : Fs} (files : Str → Option (List UInt8)) (name : Str)
    (h : fs'.hfs = fs.hfs) : (hostFsOpen files name fs').1 = (hostFsOpen files name fs).1 := by
  unfold hostFsOpen
  rw [h]
  cases firstFree (fun i => (fs.hfs i).isNone) with
  | none => rfl
  | some j => cases files name <;> rfl

theorem fsOpen_cases (files : Str → Option (List UInt8)) (name : Str) (fs : Fs) :
    (fsOpen files name fs = (-1,fs) ∧ fs.lookup files name = none) ∨
      ∃ i, InTable i ∧ fsGetHandle fs = i ∧ (fs.handles i.toNat).source = .closed ∧
        ((∃ (j : Nat) (c : List UInt8), j < maxOpenFiles ∧ fs.hfs j = none ∧
            fs.lookup files name = some ⟨.host,c,0⟩ ∧
            fsOpen files name fs = (i,setHandle { fs with
              hfs := Function.update fs.hfs j (some ⟨c,0⟩) } i ⟨.host,j⟩)) ∨
          (resOpen name fs ≠ -1 ∧ fs.lookup files name = resView (resOpen name fs) fs ∧
            fsOpen files name fs = (i,setHandle fs i ⟨.resource,resOpen name fs⟩))) := by
  by_cases hg : fsGetHandle fs = -1
  · exact .inl ⟨by simp [fsOpen,hg],by simp [Fs.lookup,hg]⟩
  · obtain ⟨hi,hcl⟩ := fsGetHandle_free hg
    obtain hh | ⟨j,c,hj,hfree,hc,hh⟩ := hostFsOpen_cases files name fs
    · by_cases hr : resOpen name fs = -1
      · exact .inl ⟨by simp [fsOpen,hg,hh,hr],by simp [Fs.lookup,hg,hh,hr]⟩
      · refine .inr ⟨fsGetHandle fs,hi,rfl,hcl,.inr ⟨hr,?_,?_⟩⟩
        · simp [Fs.lookup,hg,hh,hr]
        · simp [fsOpen,hg,hh,hr]
    · have hne : (j : Int) ≠ -1 := by omega
      refine .inr ⟨fsGetHandle fs,hi,rfl,hcl,.inl ⟨j,c,hj,hfree,?_,?_⟩⟩
      · simp [Fs.lookup,hg,hh,hne,hc]
      · simp [fsOpen,hg,hh,hne]

theorem resOpen_view {name : Str} {fs : Fs} (h : resOpen name fs ≠ -1) :
    ∃ f, resView (resOpen name fs) fs = some f ∧ f.source = .resource := by
  unfold resOpen resFindHandle at *
  cases hi : fs.entries.findIdx? (fun e => ucStrncmp name e.name e.name.length == 0) with
  | none => simp [hi] at h
  | some i =>
    obtain ⟨hlt,_⟩ := List.findIdx?_eq_some_iff_getElem.mp hi
    simp only [resView]
    split
    · exact ⟨_,rfl,rfl⟩
    · -- an index cut to eight bits never grows
      have hle : (Int.bmod (i : Int) (2^8)).toNat < fs.entries.length := by
        have hb := Int.bmod_def (i : Int) (2^8)
        omega
      exact ⟨_,by rw [List.getElem?_eq_getElem hle]; rfl,rfl⟩

theorem resView_cases {k : Int} {fs : Fs} {f : Found} (hv : resView k fs = some f) :
    (k < 0 ∧ f = ⟨.resource,[],0⟩) ∨
      ∃ e, ¬ k < 0 ∧ fs.entries[k.toNat]? = some e ∧ ¬ resBadHandle k fs ∧
        f = ⟨.resource,e.data,e.pos⟩ := by
  unfold resView at hv
  split at hv
  · rename_i hk
    exact .inl ⟨hk,(Option.some.inj hv).symm⟩
  · rename_i hk
    obtain ⟨e,he,rfl⟩ := Option.map_eq_some_iff.mp hv
    obtain ⟨hlt,-⟩ := List.getElem?_eq_some_iff.mp he
    refine .inr ⟨e,hk,he,?_,rfl⟩
    unfold resBadHandle
    omega

/-- Closing undoes whatever has moved the position. -/
theorem resClose_modify {k : Int} {fs : Fs} (hk : ¬ resBadHandle k fs) {g : ResEntry → ResEntry}
    (hg : ∀ e, { g e with pos := 0 } = { e with pos := 0 }) :
    resClose k { fs with entries := fs.entries.modify k.toNat g } = resClose k fs := by
  have hk' : ¬ resBadHandle k { fs with entries := fs.entries.modify k.toNat g } := by
    simpa only [resBadHandle,List.length_modify] using hk
  rw [resClose,resClose,if_neg hk,if_neg hk',List.modify_modify_eq]
  simp only [Function.comp_def,hg]

theorem resRead_view {k : Int} {fs : Fs} {f : Found} (size : Nat) (hv : resView k fs = some f) :
    ∃ es, resRead k size fs = ((f.content.drop f.pos).take size,{ fs with entries := es }) ∧
      resClose k { fs with entries := es } = resClose k fs ∧
      (f.pos ≤ f.content.length →
        resView k { fs with entries := es } =
          some { f with pos := f.pos+((f.content.drop f.pos).take size).length }) := by
  obtain ⟨hk,rfl⟩ | ⟨e,hk,he,hbad,rfl⟩ := resView_cases hv
  · exact ⟨fs.entries,by simp [resRead,resBadHandle,hk],rfl,fun _ => by simp [resView,hk]⟩
  · have htake : (e.data.drop e.pos).take
        (if e.pos+size > e.data.length then e.data.length-e.pos else size) =
        (e.data.drop e.pos).take size := by
      split
      · rw [List.take_of_length_le (by simp),List.take_of_length_le (by simp; omega)]
      · rfl
    refine ⟨fs.entries.modify k.toNat fun e' => { e' with pos := min (e'.pos+
      (if e.pos+size > e.data.length then e.data.length-e.pos else size)) e'.data.length },?_,
      resClose_modify hbad fun _ => rfl,fun hpos => ?_⟩
    · rw [resRead,if_neg hbad,he]
      simp only [htake]
    · simp only [resView,if_neg hk,List.getElem?_modify_eq,he]
      simp only [Option.map_eq_map,Option.map_some,List.length_take,List.length_drop,
        Option.some.injEq,Found.mk.injEq,true_and]
      have hle : e.pos ≤ e.data.length := hpos
      split <;> omega

theorem resSeek_view {k : Int} {fs : Fs} {f : Found} (offset : Nat) (hv : resView k fs = some f) :
    ∃ es, resSeek k offset fs = { fs with entries := es } ∧
      resClose k { fs with entries := es } = resClose k fs ∧
      resView k { fs with entries := es } = some (f.seek offset) := by
  obtain ⟨hk,rfl⟩ | ⟨e,hk,he,hbad,rfl⟩ := resView_cases hv
  · exact ⟨fs.entries,by simp [resSeek,resBadHandle,hk],rfl,by simp [resView,hk,Found.seek]⟩
  · refine ⟨fs.entries.modify k.toNat fun e =>
      { e with pos := if e.data.length ≥ offset then offset else e.data.length },
      by rw [resSeek,if_neg hbad],resClose_modify hbad fun _ => rfl,?_⟩
    simp only [resView,if_neg hk,List.getElem?_modify_eq,he]
    simp [Found.seek,Nat.min_def]

theorem hostFsRead_view {j : Nat} {fs : Fs} {c : List UInt8} {pos : Nat} (fault : Option Nat)
    (size : Nat) (hj : j < maxOpenFiles) (hv : fs.hfs j = some ⟨c,pos⟩) :
    hostFsRead fault j size fs = ((c.drop pos).take (min size (fault.getD size)),
      { fs with
        hfs := Function.update fs.hfs j (some
          ⟨c,pos+((c.drop pos).take (min size (fault.getD size))).length⟩) }) := by
  have hb : ¬ badHandle (j : Int) := by
    unfold badHandle
    omega
  simp only [hostFsRead,if_neg hb,Int.toNat_natCast,hv]

theorem findIdx?_modify {α : Type} {p : α → Bool} {f : α → α} (hf : ∀ a, p (f a) = p a)
    (l : List α) (i : Nat) : (l.modify i f).findIdx? p = l.findIdx? p := by
  induction l generalizing i with
  | nil => simp
  | cons a l ih =>
    cases i with
    | zero => simp [List.findIdx?_cons,hf]
    | succ i => simp [List.findIdx?_cons,ih]

theorem resOpen_resClose (name : Str) (k : Int) (fs : Fs) :
    resOpen name (resClose k fs) = resOpen name fs := by
  unfold resClose
  split
  · rfl
  · simp only [resOpen,resFindHandle]
    rw [findIdx?_modify]
    exact fun _ => rfl

theorem resClose_view {k : Int} {fs : Fs} {f : Found} (hv : resView k fs = some f) :
    resView k (resClose k fs) = some { f with pos := 0 } := by
  obtain ⟨hk,rfl⟩ | ⟨e,hk,he,hbad,rfl⟩ := resView_cases hv
  · simp [resView,hk]
  · simp [resView,hk,resClose,hbad,List.getElem?_modify_eq,he]

theorem resClose_same (k : Int) (fs : Fs) :
    SameFile fs (resClose k fs) ∧ (resClose k fs).handles = fs.handles ∧
      (resClose k fs).hfs = fs.hfs := by
  unfold resClose
  split <;> exact ⟨⟨rfl,rfl,rfl,rfl,rfl⟩,rfl,rfl⟩

theorem resClose_entries_congr {k : Int} {fs fs' : Fs} (h : fs'.entries = fs.entries) :
    (resClose k fs').entries = (resClose k fs).entries := by
  have hb : resBadHandle k fs' ↔ resBadHandle k fs := by simp only [resBadHandle,h]
  by_cases hk : resBadHandle k fs
  · rw [resClose,resClose,if_pos hk,if_pos (hb.mpr hk),h]
  · rw [resClose,resClose,if_neg hk,if_neg (mt hb.mp hk),h]

/-- `t` is `base` with one free entry `h` taken for a file. -/
structure Opened (base : Fs) (h : Int) (e : FsHandle) (t : Fs) : Prop where
  inTable : InTable h
  free : (base.handles h.toNat).source = .closed
  entry : t.handles h.toNat = e
  others : ∀ n, n ≠ h.toNat → t.handles n = base.handles n
  source : e.source ≠ .closed
  host : e.source = .host → ∃ j : Nat, e.handle = j ∧ j < maxOpenFiles ∧ base.hfs j = none ∧
    (∀ n, n ≠ j → t.hfs n = base.hfs n) ∧ t.entries = base.entries
  res : e.source = .resource → t.hfs = base.hfs ∧
    (resClose e.handle t).entries = (resClose e.handle base).entries

theorem fsOpen_none {files : Str → Option (List UInt8)} {name : Str} {fs : Fs}
    (hl : fs.lookup files name = none) : fsOpen files name fs = (-1,fs) := by
  obtain ⟨ho,_⟩ | ⟨i,_,_,_,⟨j,c,_,_,hf,_⟩ | ⟨hk,hf,_⟩⟩ := fsOpen_cases files name fs
  · exact ho
  · rw [hl] at hf
    cases hf
  · obtain ⟨f,hv,_⟩ := resOpen_view hk
    rw [hl,hv] at hf
    cases hf

theorem fsOpen_some {files : Str → Option (List UInt8)} {name : Str} {fs : Fs} {f : Found}
    (hl : fs.lookup files name = some f) :
    ∃ h e t, fsOpen files name fs = (h,t) ∧ Opened fs h e t ∧ SameFile fs t ∧ t.view h = some f ∧
      e.source = f.source ∧ (e.source = .resource → e.handle = resOpen name fs) ∧
      (f.source = .host → f.pos = 0) := by
  obtain ⟨_,hn⟩ | ⟨i,hi,_,hcl,⟨j,c,hj,hfree,hf,ho⟩ | ⟨hk,hf,ho⟩⟩ := fsOpen_cases files name fs
  · rw [hn] at hl
    cases hl
  · cases hf.symm.trans hl
    refine ⟨i,⟨.host,j⟩,_,ho,⟨hi,hcl,?_,?_,?_,?_,?_⟩,⟨rfl,rfl,rfl,rfl,rfl⟩,?_,rfl,?_,fun _ => rfl⟩
    · exact Function.update_self ..
    · exact fun n hn => Function.update_of_ne hn ..
    · exact FsSource.noConfusion
    · exact fun _ => ⟨j,rfl,hj,hfree,fun n hn => Function.update_of_ne hn ..,rfl⟩
    · exact FsSource.noConfusion
    · simp [Fs.view,setHandle]
    · exact FsSource.noConfusion
  · obtain ⟨g,hv,hsrc⟩ := resOpen_view hk
    have hg : g = f := Option.some.inj ((hf.trans hv).symm.trans hl)
    subst hg
    refine ⟨i,⟨.resource,resOpen name fs⟩,_,ho,⟨hi,hcl,?_,?_,?_,?_,?_⟩,⟨rfl,rfl,rfl,rfl,rfl⟩,?_,
      hsrc.symm,fun _ => rfl,?_⟩
    · exact Function.update_self ..
    · exact fun n hn => Function.update_of_ne hn ..
    · exact FsSource.noConfusion
    · exact FsSource.noConfusion
    · exact fun _ => ⟨rfl,resClose_entries_congr rfl⟩
    · simp only [Fs.view,setHandle,Function.update_self]
      exact hv
    · rw [hsrc]
      exact FsSource.noConfusion

section
variable {base t : Fs} {h : Int} {e : FsHandle} {f : Found}

theorem Opened.view_source (ho : Opened base h e t) (hv : t.view h = some f) :
    f.source = e.source := by
  have hentry := ho.entry
  cases he : e.source with
  | closed => exact absurd he ho.source
  | host =>
    simp only [Fs.view,hentry,he,Option.map_eq_some_iff] at hv
    obtain ⟨_,_,rfl⟩ := hv
    rfl
  | resource =>
    simp only [Fs.view,hentry,he,resView] at hv
    split at hv
    · cases hv
      rfl
    · obtain ⟨_,_,rfl⟩ := Option.map_eq_some_iff.mp hv
      rfl

theorem Opened.moveHost {j : Nat} (ho : Opened base h ⟨.host,j⟩ t) (o : Option OpenFile) :
    Opened base h ⟨.host,j⟩ { t with hfs := Function.update t.hfs j o } := by
  refine ⟨ho.inTable,ho.free,ho.entry,ho.others,ho.source,fun _ => ?_,FsSource.noConfusion⟩
  obtain ⟨i,hi,hlt,hfree,hrest,hent⟩ := ho.host rfl
  obtain rfl : j = i := by simpa using hi
  exact ⟨j,rfl,hlt,hfree,fun n hn => (Function.update_of_ne hn ..).trans (hrest n hn),hent⟩

theorem Opened.moveResource {k : Int} (ho : Opened base h ⟨.resource,k⟩ t) {es : List ResEntry}
    (hclose : resClose k { t with entries := es } = resClose k t) :
    Opened base h ⟨.resource,k⟩ { t with entries := es } := by
  obtain ⟨hhfs,hent⟩ := ho.res rfl
  refine ⟨ho.inTable,ho.free,ho.entry,ho.others,ho.source,FsSource.noConfusion,fun _ => ⟨hhfs,?_⟩⟩
  simp only [hclose]
  exact hent

/-- The file behind an opened handle lies in a slot of the host or in the table. -/
theorem Opened.view_cases (ho : Opened base h e t) (hv : t.view h = some f) :
    (∃ j c pos, e = ⟨.host,(j : Nat)⟩ ∧ j < maxOpenFiles ∧ t.hfs j = some ⟨c,pos⟩ ∧
      f = ⟨.host,c,pos⟩) ∨
      (∃ k, e = ⟨.resource,k⟩ ∧ resView k t = some f) := by
  have hentry := ho.entry
  rcases e with ⟨src,k⟩
  cases src with
  | closed => exact absurd rfl ho.source
  | host =>
    obtain ⟨j,rfl,hj,-⟩ := ho.host rfl
    simp only [Fs.view,hentry,Int.toNat_natCast,Option.map_eq_some_iff] at hv
    obtain ⟨⟨c,pos⟩,hc,rfl⟩ := hv
    exact .inl ⟨j,c,pos,rfl,hj,hc,rfl⟩
  | resource =>
    simp only [Fs.view,hentry] at hv
    exact .inr ⟨k,rfl,hv⟩

theorem fsRead_opened (ho : Opened base h e t) (hv : t.view h = some f) (fault : Option Nat)
    {size : Nat} (hs : 0 < size) :
    ∃ t', fsRead fault h size t = (some (f.read fault size),t') ∧ Opened base h e t' ∧
      SameFile t t' ∧
      t'.handles = t.handles ∧
      ((f.source = .resource → f.pos ≤ f.content.length) →
        t'.view h = some { f with pos := f.pos+(f.read fault size).length }) := by
  have hn : ¬ (badHandle h ∨ size = 0) := not_or.mpr ⟨ho.inTable.not_bad,by omega⟩
  have hsrc := ho.view_source hv
  have hentry := ho.entry
  obtain ⟨j,c,pos,rfl,hj,hc,rfl⟩ | ⟨k,rfl,hres⟩ := ho.view_cases hv
  · refine ⟨_,?_,ho.moveHost (some ⟨c,pos+(Found.read ⟨.host,c,pos⟩ fault size).length⟩),
      ⟨rfl,rfl,rfl,rfl,rfl⟩,rfl,fun _ => ?_⟩
    · simp only [fsRead,if_neg hn,hentry,hostFsRead_view fault size hj hc,Found.read,if_true]
    · simp [Fs.view,hentry]
  · have hr : f.read fault size = (f.content.drop f.pos).take size := by
      rw [Found.read,hsrc,if_neg (by simp)]
    obtain ⟨es,hread,hclose,hview⟩ := resRead_view size hres
    refine ⟨_,?_,ho.moveResource hclose,⟨rfl,rfl,rfl,rfl,rfl⟩,rfl,fun hp => ?_⟩
    · simp only [fsRead,if_neg hn,hentry,hread,hr]
    · simp only [Fs.view,hentry,hr]
      exact hview (hp hsrc)

theorem fsSeek_opened (ho : Opened base h e t) (hv : t.view h = some f) (offset : Nat) :
    Opened base h e (fsSeek h offset t) ∧ SameFile t (fsSeek h offset t) ∧
      (fsSeek h offset t).handles = t.handles ∧
        (fsSeek h offset t).view h = some (f.seek offset) := by
  have hentry := ho.entry
  obtain ⟨j,c,pos,rfl,hj,hc,rfl⟩ | ⟨k,rfl,hres⟩ := ho.view_cases hv
  · have hb : ¬ badHandle (j : Int) := by
      unfold badHandle
      omega
    have heq : fsSeek h offset t = { t with hfs := Function.update t.hfs j (some ⟨c,offset⟩) } := by
      simp only [fsSeek,if_neg ho.inTable.not_bad,hentry,hostFsSeek,if_neg hb,Int.toNat_natCast,hc]
    rw [heq]
    exact ⟨ho.moveHost _,⟨rfl,rfl,rfl,rfl,rfl⟩,rfl,by simp [Fs.view,hentry,Found.seek]⟩
  · obtain ⟨es,hseek,hclose,hview⟩ := resSeek_view offset hres
    have heq : fsSeek h offset t = { t with entries := es } := by
      simp only [fsSeek,if_neg ho.inTable.not_bad,hentry,hseek]
    rw [heq]
    refine ⟨ho.moveResource hclose,⟨rfl,rfl,rfl,rfl,rfl⟩,rfl,?_⟩
    simp only [Fs.view,hentry]
    exact hview

theorem fsClose_opened (ho : Opened base h e t) :
    SameFile t (fsClose h t) ∧ (∀ n, ((fsClose h t).handles n).source = (base.handles n).source) ∧
      (fsClose h t).hfs = base.hfs ∧
      (fsClose h t).entries = if e.source = .host then base.entries
        else (resClose e.handle base).entries := by
  have hentry := ho.entry
  have hsources : ∀ t' : Fs, t'.handles = t.handles → ∀ k n,
      ((setHandle t' h ⟨.closed,k⟩).handles n).source = (base.handles n).source := by
    intro t' ht' k n
    by_cases hn : n = h.toNat
    · rw [hn,ho.free]
      simp only [setHandle,Function.update_self]
    · simp only [setHandle,Function.update_of_ne hn,ht',ho.others n hn]
  rcases e with ⟨src,k⟩
  cases src with
  | closed => exact absurd rfl ho.source
  | host =>
    obtain ⟨j,rfl,hj,hfree,hrest,hent⟩ := ho.host rfl
    have hb : ¬ badHandle (j : Int) := by
      unfold badHandle
      omega
    have heq : fsClose h t = setHandle { t with hfs := Function.update t.hfs j none } h
        ⟨.closed,j⟩ := by
      simp only [fsClose,if_neg ho.inTable.not_bad,hentry,hostFsClose,if_neg hb,Int.toNat_natCast]
    rw [heq]
    refine ⟨⟨rfl,rfl,rfl,rfl,rfl⟩,hsources _ rfl j,?_,hent⟩
    funext n
    by_cases hn : n = j
    · rw [hn,hfree]
      exact Function.update_self ..
    · exact (Function.update_of_ne hn ..).trans (hrest n hn)
  | resource =>
    obtain ⟨hhfs,hent⟩ := ho.res rfl
    obtain ⟨hsf,hhan,hh⟩ := resClose_same k t
    have heq : fsClose h t = setHandle (resClose k t) h ⟨.closed,k⟩ := by
      simp only [fsClose,if_neg ho.inTable.not_bad,hentry]
    rw [heq]
    exact ⟨⟨hsf.state,hsf.type,hsf.rate,hsf.channels,hsf.handle⟩,hsources _ hhan k,hh.trans hhfs,
      hent⟩

end

theorem fsType_none {w : World} {name : Str} {fs : Fs} (hl : fs.lookup w.files name = none) :
    fsType w name fs = (.none,fs) := by
  simp only [fsType,fsOpen_none hl,if_true]

def Found.rewound (f : Found) : Found := { f with pos := 0 }

theorem lookup_closed {fs fs1 : Fs} {files : Str → Option (List UInt8)} {name : Str} {f : Found}
    (hl : fs.lookup files name = some f) (hpos : f.source = .host → f.pos = 0)
    (hs : ∀ n, (fs1.handles n).source = (fs.handles n).source) (hh : fs1.hfs = fs.hfs)
    (he : fs1.entries = if f.source = .host then fs.entries
      else (resClose (resOpen name fs) fs).entries) :
    fs1.lookup files name = some f.rewound := by
  have hro : resOpen name fs1 = resOpen name fs := by
    have hc := resOpen_resClose name (resOpen name fs) fs
    unfold resOpen at *
    rw [he]
    split
    · rfl
    · exact hc
  rw [Fs.lookup,fsGetHandle_congr hs,hostFsOpen_congr files name hh,hro]
  unfold Fs.lookup at hl
  split at hl
  · cases hl
  · rename_i hg
    rw [if_neg hg]
    split at hl
    · rename_i hho
      obtain ⟨c,hc,rfl⟩ := Option.map_eq_some_iff.mp hl
      rw [if_pos hho,hc]
      rfl
    · rename_i hho
      rw [if_neg hho]
      split at hl
      · rename_i hk
        rw [if_pos hk]
        obtain ⟨g,hv,hsrc⟩ := resOpen_view hk
        cases hv.symm.trans hl
        rw [hsrc,if_neg (by simp)] at he
        have hview := resClose_view hv
        unfold resView at *
        rw [he]
        exact hview
      · cases hl

/-- `fs_type` opens a file, looks at it and closes it again. The tables are left
as they were, with a resource rewound. -/
theorem fsType_some {w : World} {name : Str} {fs : Fs} {f : Found}
    (hl : fs.lookup w.files name = some f) :
    ∃ fs1, fsType w name fs = (typeOfHeader (f.read w.typeFault 64),fs1) ∧ SameFile fs fs1 ∧
      (∀ n, (fs1.handles n).source = (fs.handles n).source) ∧
      fs1.lookup w.files name = some f.rewound := by
  obtain ⟨h,e,t,hopen,ho,hsame,hv,hsrc,hres,hpos⟩ := fsOpen_some hl
  obtain ⟨t',hread,ho',hsame',-,-⟩ := fsRead_opened ho hv w.typeFault (by decide : 0 < 64)
  obtain ⟨hsame'',hsources,hhfs,hent⟩ := fsClose_opened ho'
  refine ⟨fsClose h t',?_,(hsame.trans hsame').trans hsame'',hsources,?_⟩
  · simp only [fsType,hopen,if_neg ho.inTable.ne_neg,hread]
  · refine lookup_closed hl hpos hsources hhfs ?_
    rw [hent,hsrc]
    split
    · rfl
    · rename_i hne
      have hr : e.source = .resource := by
        have hc := ho.source
        rw [hsrc] at hc ⊢
        cases hf : f.source with
        | closed => exact absurd hf hc
        | resource => rfl
        | host => exact absurd hf hne
      rw [hres hr]

/-- What a play comes to, told from the file that the name leads to. -/
inductive Outcome where
  | refused
  | leaked
  | mp3 (f : Found)
  | riff (f : Found) (info : RiffInfo)
  deriving DecidableEq, Repr

def Fs.outcome (fs : Fs) (w : World) (name : Str) : Option Outcome :=
  match fs.lookup w.files name with
  | none => some .refused
  | some f =>
      match typeOfHeader (f.read w.typeFault 64) with
      | .mp3 => some (.mp3 f.rewound)
      | .riff =>
          match riffInfo w (f.rewound.read w.riffFault 128) with
          | none => none
          | some none => some .leaked
          | some (some info) => some (.riff f.rewound info)
      | _ => some .refused

structure Playing (fs fs' : Fs) (f : Found) : Prop where
  opened : ∃ base e, Opened base fs'.handle e fs' ∧
    ∀ n, (base.handles n).source = (fs.handles n).source
  state : fs'.state = .opened
  view : fs'.view fs'.handle = some f

def PlayEffect (fs fs' : Fs) : Outcome → Prop
  | .refused => SameFile fs fs' ∧ ∀ n, (fs'.handles n).source = (fs.handles n).source
  | .leaked => SameFile fs fs' ∧ ∃ base h e, Opened base h e fs' ∧
      ∀ n, (base.handles n).source = (fs.handles n).source
  | .mp3 f => f.pos = 0 ∧ fs'.type = .mp3 ∧ Playing fs fs' f
  | .riff f info => fs'.type = .riff ∧ fs'.rate = info.rate ∧ fs'.channels = info.channels ∧
      Playing fs fs' (f.seek info.dataoff)

theorem fsStop_idle {fs : Fs} (h : fs.handle = -1) : fsStop fs = fs := by
  simp [fsStop,h]

theorem Opened.congr {base t t' : Fs} {h : Int} {e : FsHandle} (ho : Opened base h e t)
    (hhan : t'.handles = t.handles) (hhfs : t'.hfs = t.hfs) (hent : t'.entries = t.entries) :
    Opened base h e t' := by
  refine ⟨ho.inTable,ho.free,by rw [hhan]; exact ho.entry,by rw [hhan]; exact ho.others,ho.source,
    by rw [hhfs,hent]; exact ho.host,fun hs => ?_⟩
  obtain ⟨h1,h2⟩ := ho.res hs
  exact ⟨hhfs.trans h1,(resClose_entries_congr hent).trans h2⟩

theorem view_congr {t t' : Fs} (h : Int) (hhan : t'.handles = t.handles) (hhfs : t'.hfs = t.hfs)
    (hent : t'.entries = t.entries) : t'.view h = t.view h := by
  simp only [Fs.view,resView,hhan,hhfs,hent]

theorem fsOpenMp3_playing {w : World} {name : Str} {fs : Fs} {f : Found}
    (hl : fs.lookup w.files name = some f) :
    (fsOpenMp3 w name fs).type = .mp3 ∧ Playing fs (fsOpenMp3 w name fs) f := by
  obtain ⟨h,e,t,hopen,ho,_,hv,_⟩ := fsOpen_some hl
  have heq : fsOpenMp3 w name fs = { t with type := .mp3, state := .opened, handle := h } := by
    simp only [fsOpenMp3,hopen,if_neg ho.inTable.ne_neg]
  rw [heq]
  exact ⟨rfl,⟨fs,e,ho.congr rfl rfl rfl,fun _ => rfl⟩,rfl,(view_congr h rfl rfl rfl).trans hv⟩

/-- The walk over the chunks is followed for `walk` turns. -/
def World.follow (w : World) (walk : Nat) : World := { w with fuel := walk }

/-- What is done with a file whose header is accepted. -/
def Fs.takeOver (fs : Fs) (handle : Int) (info : RiffInfo) : Fs :=
  fsSeek handle info.dataoff { fs with
    rate := info.rate
    channels := info.channels
    type := .riff
    state := .opened
    handle := handle }

/-- A file that is found is opened and read; the rest is up to what its header gives,
however far the walk over it is followed. -/
theorem fsOpenRiff_eq {w : World} {name : Str} {fs : Fs} {f : Found}
    (hl : fs.lookup w.files name = some f) :
    ∃ h e t, Opened fs h e t ∧ SameFile fs t ∧
      ((f.source = .resource → f.pos ≤ f.content.length) →
        t.view h = some { f with pos := f.pos+(f.read w.riffFault 128).length }) ∧
      ∀ walk, fsOpenRiff (w.follow walk) name fs =
        (riffInfo (w.follow walk) (f.read w.riffFault 128)).map fun verdict =>
          verdict.elim (fsStop t) (t.takeOver h) := by
  obtain ⟨h,e,t,hopen,ho,hsame,hv,_⟩ := fsOpen_some hl
  obtain ⟨t',hread,ho',hsame',_,hview⟩ := fsRead_opened ho hv w.riffFault (by decide : 0 < 128)
  refine ⟨h,e,t',ho',hsame.trans hsame',hview,fun walk => ?_⟩
  have hopen : fsOpen (w.follow walk).files name fs = (h,t) := hopen
  have hread : fsRead (w.follow walk).riffFault h 128 t = (some (f.read w.riffFault 128),t') :=
    hread
  simp only [fsOpenRiff,hopen,if_neg ho.inTable.ne_neg,hread]
  cases riffInfo (w.follow walk) (f.read w.riffFault 128) with
  | none => rfl
  | some verdict => cases verdict <;> rfl

theorem fsOpenRiff_outcome {w : World} {name : Str} {fs fs' : Fs} {f : Found} (hh : fs.handle = -1)
    (hl : fs.lookup w.files name = some f) (hpos : f.pos = 0)
    (hp : fsOpenRiff w name fs = some fs') :
    (riffInfo w (f.read w.riffFault 128) = some none ∧ SameFile fs fs' ∧ ∃ h e, Opened fs h e fs') ∨
      ∃ info, riffInfo w (f.read w.riffFault 128) = some (some info) ∧ fs'.type = .riff ∧
        fs'.rate = info.rate ∧ fs'.channels = info.channels ∧
          Playing fs fs' (f.seek info.dataoff) := by
  obtain ⟨h,e,t,ho,hsame,hview,heq⟩ := fsOpenRiff_eq hl
  have hv := hview (fun _ => by omega)
  obtain ⟨verdict,hinfo,rfl⟩ := Option.map_eq_some_iff.mp ((heq w.fuel).symm.trans hp)
  cases verdict with
  | none =>
    have hstop : fsStop t = t := fsStop_idle (hsame.handle.trans hh)
    simp only [Option.elim_none,hstop]
    exact .inl ⟨hinfo,hsame,h,e,ho⟩
  | some info =>
    have hop : Opened fs h e { t with
      rate := info.rate, channels := info.channels, type := .riff, state := .opened, handle :=
        h } :=
      ho.congr rfl rfl rfl
    obtain ⟨ho2,hs2,_,hv2⟩ := fsSeek_opened hop ((view_congr h rfl rfl rfl).trans hv) info.dataoff
    have hhandle : (t.takeOver h info).handle = h := hs2.handle
    refine .inr ⟨info,hinfo,hs2.type,hs2.rate,hs2.channels,⟨fs,e,?_,fun _ => rfl⟩,hs2.state,?_⟩
    · rw [Option.elim_some,hhandle]
      exact ho2
    · rw [Option.elim_some,hhandle]
      exact hv2

/-- Once the file is open, only the walk over its chunks can go on for ever. -/
theorem fsOpenRiff_returns_iff {w : World} {name : Str} {fs : Fs} {f : Found}
    (hl : fs.lookup w.files name = some f) :
    (∃ fs', fsOpenRiff w name fs = some fs') ↔ riffInfo w (f.read w.riffFault 128) ≠ none := by
  obtain ⟨h,e,t,_,_,_,heq⟩ := fsOpenRiff_eq hl
  have heq : fsOpenRiff w name fs = (riffInfo w (f.read w.riffFault 128)).map _ := heq w.fuel
  rw [heq]
  cases riffInfo w (f.read w.riffFault 128) <;> simp

theorem fsPlay_outcome {w : World} {name : Str} {fs fs' : Fs} (hh : fs.handle = -1)
    (hp : fsPlay w name fs = some fs') : ∃ o, fs.outcome w name = some o ∧ PlayEffect fs fs' o := by
  cases hl : fs.lookup w.files name with
  | none =>
    simp only [fsPlay,fsType_none hl] at hp
    cases hp
    exact ⟨.refused,by simp [Fs.outcome,hl],⟨rfl,rfl,rfl,rfl,rfl⟩,fun _ => rfl⟩
  | some f =>
    obtain ⟨fs1,htype,hsame,hsources,hl1⟩ := fsType_some hl
    have hplaying : ∀ {g}, Playing fs1 fs' g → Playing fs fs' g := by
      rintro g ⟨⟨base,e,ho,hb⟩,hst,hv⟩
      exact ⟨⟨base,e,ho,fun n => (hb n).trans (hsources n)⟩,hst,hv⟩
    cases ht : typeOfHeader (f.read w.typeFault 64) with
    | unknown =>
      simp only [fsPlay,htype,ht,Option.some.injEq] at hp
      subst hp
      exact ⟨.refused,by simp [Fs.outcome,hl,ht],hsame,hsources⟩
    | none =>
      simp only [fsPlay,htype,ht,Option.some.injEq] at hp
      subst hp
      exact ⟨.refused,by simp [Fs.outcome,hl,ht],hsame,hsources⟩
    | mp3 =>
      simp only [fsPlay,htype,ht,Option.some.injEq] at hp
      subst hp
      obtain ⟨hty,hpl⟩ := fsOpenMp3_playing hl1
      exact ⟨.mp3 f.rewound,by simp [Fs.outcome,hl,ht],rfl,hty,hplaying hpl⟩
    | riff =>
      simp only [fsPlay,htype,ht] at hp
      obtain ⟨hinfo,hs1,h,e,ho⟩ | ⟨info,hinfo,hty,hr,hc,hpl⟩ :=
        fsOpenRiff_outcome (hsame.handle.trans hh) hl1 rfl hp
      · exact ⟨.leaked,by simp [Fs.outcome,hl,ht,hinfo],hsame.trans hs1,fs1,h,e,ho,hsources⟩
      · exact ⟨.riff f.rewound info,by simp [Fs.outcome,hl,ht,hinfo],hty,hr,hc,hplaying hpl⟩

theorem fsPlay_returns {w : World} {name : Str} {fs : Fs} {o : Outcome}
    (ho : fs.outcome w name = some o) : ∃ fs', fsPlay w name fs = some fs' := by
  cases hl : fs.lookup w.files name with
  | none => exact ⟨fs,by simp only [fsPlay,fsType_none hl]⟩
  | some f =>
    obtain ⟨fs1,htype,_,_,hl1⟩ := fsType_some hl
    cases ht : typeOfHeader (f.read w.typeFault 64) with
    | unknown => exact ⟨fs1,by simp only [fsPlay,htype,ht]⟩
    | none => exact ⟨fs1,by simp only [fsPlay,htype,ht]⟩
    | mp3 => exact ⟨fsOpenMp3 w name fs1,by simp only [fsPlay,htype,ht]⟩
    | riff =>
      simp only [Fs.outcome,hl,ht] at ho
      simp only [fsPlay,htype,ht]
      refine (fsOpenRiff_returns_iff hl1).mpr fun hinfo => ?_
      simp [hinfo] at ho

end Mardio
