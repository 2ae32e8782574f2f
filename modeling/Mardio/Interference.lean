import Mardio.Lib.TwoRuns
import Mardio.HandleTables

/-!
Two open handles. The position in a host file belongs to the handle, but the position
in a resource lies in the resource table, where every handle on that resource finds it.
-/

set_option autoImplicit false

namespace Mardio
open Runs TwoRuns

inductive FileOp where
  | read (fault : Option Nat) (size : UInt32)
  | seek (offset : UInt32)
  | close
  deriving DecidableEq, Repr

/-- The bytes a call delivers; `none` for -1 and for calls that read nothing. A read with
an end that is no int is left out. -/
def fileOp (h : Fin maxOpenFiles) (fs : Fs) : FileOp → Option (List UInt8) × Fs
  | .read fault size => if endInt h size fs then fsRead fault h.val size.toNat fs else (none,fs)
  | .seek offset => (none,fsSeek h.val offset.toNat fs)
  | .close => (none,fsClose h.val fs)

/-- An interleaving of calls on two handles, those marked `true` on the first. -/
def twoOp (h h' : Fin maxOpenFiles) (fs : Fs) (a : Bool × FileOp) : Option (List UInt8) × Fs :=
  fileOp (if a.1 then h else h') fs a.2

/-- What is read through `h` does not depend on what is done through `h'`. -/
def Noninterfering (h h' : Fin maxOpenFiles) (fs : Fs) : Prop :=
  ∀ ops, seen (twoOp h h') Prod.fst fs ops = seen (twoOp h h') Prod.fst fs (ops.filter Prod.fst)

/-- Both handles are open on one resource, and it has bytes. -/
def SharesResource (h h' : Fin maxOpenFiles) (fs : Fs) : Prop :=
  ∃ n : Nat, fs.handles h = ⟨.resource,n⟩ ∧ fs.handles h' = ⟨.resource,n⟩ ∧
    ∃ r, fs.entries[n]? = some r ∧ r.data ≠ []

def InterferenceExact (fs : Fs) : Prop :=
  ∀ h h', h ≠ h' → (Noninterfering h h' fs ↔ ¬ SharesResource h h' fs)

/-- A resource as a reader sees it. -/
def resSight (fs : Fs) (n : Nat) : Option (List UInt8 × Nat) :=
  fs.entries[n]?.map fun r => (r.data,min r.pos r.data.length)

/-- The two states look the same through `h`. -/
structure Alike (h : Nat) (s t : Fs) : Prop where
  handle : s.handles h = t.handles h
  host : ∀ n : Nat, s.handles h = ⟨.host,n⟩ → s.hfs n = t.hfs n
  resource : ∀ n : Nat, s.handles h = ⟨.resource,n⟩ → resSight s n = resSight t n

/-- The handles are not on one file, or on one without bytes. -/
structure Separate (h h' : Nat) (fs : Fs) : Prop where
  host : ∀ n : Nat, fs.handles h = ⟨.host,n⟩ → fs.handles h' ≠ ⟨.host,n⟩
  resource : ∀ n : Nat, fs.handles h = ⟨.resource,n⟩ → fs.handles h' = ⟨.resource,n⟩ →
    ∀ r, fs.entries[n]? = some r → r.data = []

theorem Alike.refl (h : Nat) (s : Fs) : Alike h s s := ⟨rfl,fun _ _ => rfl,fun _ _ => rfl⟩

/-! Own calls: the answer and the next sight are read off the sight. -/

section
variable {fs s t : Fs} {n : Nat} {h h' : Fin maxOpenFiles}

theorem resSight_modify (p : ResEntry → Nat) :
    resSight { fs with entries := fs.entries.modify n fun r => { r with pos := p r } } n =
      fs.entries[n]?.map fun r => (r.data,min (p r) r.data.length) := by
  simp only [resSight,List.getElem?_modify_eq]
  cases fs.entries[n]? <;> rfl

theorem resGood {r : ResEntry} (hr : fs.entries[n]? = some r) : ¬ resBadHandle n fs := by
  obtain ⟨hlt,-⟩ := List.getElem?_eq_some_iff.mp hr
  unfold resBadHandle
  omega

theorem resRead_sight (size : Nat) :
    (resRead n size fs).1 = (resSight fs n).elim [] (fun d => (d.1.drop d.2).take size) ∧
      resSight (resRead n size fs).2 n =
        (resSight fs n).map fun d => (d.1,min (d.2+size) d.1.length) := by
  cases hr : fs.entries[n]? with
  | none => by_cases hb : resBadHandle n fs <;> simp [resRead,hb,resSight,hr]
  | some r =>
    have hread : resRead n size fs = ((r.data.drop r.pos).take
        (if r.pos+size > r.data.length then r.data.length-r.pos else size),
        { fs with entries := fs.entries.modify n fun e => { e with
          pos := min (e.pos+(if r.pos+size > r.data.length then r.data.length-r.pos else size))
            e.data.length } }) := by
      simp only [resRead,if_neg (resGood hr),Int.toNat_natCast,hr]
    rw [hread,resSight_modify]
    simp only [resSight,hr,Option.map_some,Option.elim_some,Option.some.injEq,Prod.mk.injEq,
      true_and]
    refine ⟨?_,by split <;> omega⟩
    have hdrop : r.data.drop (min r.pos r.data.length) = r.data.drop r.pos := by
      obtain hle | hlt := le_or_gt r.pos r.data.length
      · rw [Nat.min_eq_left hle]
      · rw [List.drop_of_length_le (by omega),List.drop_of_length_le hlt.le]
    rw [hdrop]
    split
    · rw [List.take_of_length_le (by simp),List.take_of_length_le (by simp; omega)]
    · rfl

theorem resSeek_sight (offset : Nat) :
    resSight (resSeek n offset fs) n = (resSight fs n).map fun d =>
      (d.1,min offset d.1.length) := by
  by_cases hb : resBadHandle n fs
  · have hr : fs.entries[n]? = none := by
      by_contra hne
      obtain ⟨r,hr⟩ := Option.ne_none_iff_exists'.mp hne
      exact resGood hr hb
    simp [resSeek,hb,resSight,hr]
  · rw [resSeek,if_neg hb,Int.toNat_natCast,resSight_modify]
    simp only [resSight,Option.map_map]
    refine congrArg (Option.map · _) (funext fun r => ?_)
    simp only [Function.comp_apply,Prod.mk.injEq,true_and]
    split <;> omega

theorem hostFsRead_alike (fault : Option Nat) (size : Nat) (hn : s.hfs n = t.hfs n) :
    (hostFsRead fault n size s).1 = (hostFsRead fault n size t).1 ∧
      (hostFsRead fault n size s).2.hfs n = (hostFsRead fault n size t).2.hfs n := by
  by_cases hb : badHandle n
  · simp [hostFsRead,hb,hn]
  · cases ht : t.hfs n with
    | none => simp [hostFsRead,hb,hn,ht]
    | some f => simp [hostFsRead,hb,hn,ht]

theorem hostFsSeek_alike (offset : Nat) (hn : s.hfs n = t.hfs n) :
    (hostFsSeek n offset s).hfs n = (hostFsSeek n offset t).hfs n := by
  by_cases hb : badHandle n
  · simp [hostFsSeek,hb,hn]
  · cases ht : t.hfs n with
    | none => simp [hostFsSeek,hb,hn,ht]
    | some f => simp [hostFsSeek,hb,hn,ht]

theorem natOrNeg (k : Int) : (∃ n : Nat, k = n) ∨ k < 0 := by
  obtain hk | hk := lt_or_ge k 0
  · exact .inr hk
  · exact .inl (Int.eq_ofNat_of_zero_le hk)

theorem Alike.of_handles {s' t' : Fs} {i : Nat} (ha : Alike i s t) (hs : s'.handles = s.handles)
    (ht : t'.handles = t.handles) (hhost : ∀ n : Nat, s.handles i = ⟨.host,n⟩ → s'.hfs n = t'.hfs n)
    (hres : ∀ n : Nat, s.handles i = ⟨.resource,n⟩ → resSight s' n = resSight t' n) :
    Alike i s' t' := by
  refine ⟨?_,?_,?_⟩
  · rw [hs,ht,ha.handle]
  · rw [hs]
    exact hhost
  · rw [hs]
    exact hres

theorem fsRead_alike (ha : Alike h s t) (fault : Option Nat) (size : Nat) :
    (fsRead fault h.val size s).1 = (fsRead fault h.val size t).1 ∧
      Alike h (fsRead fault h.val size s).2 (fsRead fault h.val size t).2 := by
  by_cases hz : size = 0
  · simp only [fsRead,if_pos (Or.inr hz)]
    exact ⟨trivial,ha⟩
  have hb : ¬ (badHandle h.val ∨ size = 0) := not_or.mpr ⟨(handle_inTable h).not_bad,hz⟩
  have hms := fsRead_moves s h.val fault size
  have hmt := fsRead_moves t h.val fault size
  have heq := ha.handle
  cases ht : t.handles h with
  | mk source k =>
  rw [ht] at heq
  refine ⟨?_,ha.of_handles hms.handles hmt.handles (fun n hn => ?_) (fun n hn => ?_)⟩
  · cases source with
    | closed => simp only [fsRead,if_neg hb,Int.toNat_natCast,heq,ht]
    | host =>
      simp only [fsRead,if_neg hb,Int.toNat_natCast,heq,ht,Option.some.injEq]
      obtain ⟨n,rfl⟩ | hneg := natOrNeg k
      · exact (hostFsRead_alike fault size (ha.host n heq)).1
      · simp [hostFsRead,badHandle,hneg]
    | resource =>
      simp only [fsRead,if_neg hb,Int.toNat_natCast,heq,ht,Option.some.injEq]
      obtain ⟨n,rfl⟩ | hneg := natOrNeg k
      · rw [(resRead_sight size).1,(resRead_sight size).1,ha.resource n heq]
      · simp [resRead,resBadHandle,hneg]
  · cases heq.symm.trans hn
    simp only [fsRead,if_neg hb,Int.toNat_natCast,heq,ht]
    exact (hostFsRead_alike fault size (ha.host n heq)).2
  · cases heq.symm.trans hn
    simp only [fsRead,if_neg hb,Int.toNat_natCast,heq,ht]
    rw [(resRead_sight size).2,(resRead_sight size).2,ha.resource n heq]

theorem fsSeek_alike (ha : Alike h s t) (offset : Nat) :
    Alike h (fsSeek h.val offset s) (fsSeek h.val offset t) := by
  have hb := (handle_inTable h).not_bad
  have hms := fsSeek_moves s h.val offset
  have hmt := fsSeek_moves t h.val offset
  refine ha.of_handles hms.handles hmt.handles (fun n hn => ?_) (fun n hn => ?_)
  · simp only [fsSeek,if_neg hb,Int.toNat_natCast,hn,← ha.handle]
    exact hostFsSeek_alike offset (ha.host n hn)
  · simp only [fsSeek,if_neg hb,Int.toNat_natCast,hn,← ha.handle]
    rw [resSeek_sight,resSeek_sight,ha.resource n hn]

/-! Every call: its own entry stays or is closed, and beyond that it touches the file of
that entry only. -/

structure Touches (i : Nat) (fs fs' : Fs) : Prop where
  own : fs'.handles i = fs.handles i ∨ (fs'.handles i).source = .closed
  others : ∀ n, n ≠ i → fs'.handles n = fs.handles n
  slots : ∀ n : Nat, fs.handles i ≠ ⟨.host,n⟩ → fs'.hfs n = fs.hfs n
  entries : ∀ n : Nat, fs.handles i ≠ ⟨.resource,n⟩ → fs'.entries[n]? = fs.entries[n]?
  data : ∀ n : Nat, fs'.entries[n]?.map ResEntry.data = fs.entries[n]?.map ResEntry.data

theorem handle_ne {e : FsHandle} {source : FsSource} (he : e ≠ ⟨source,n⟩)
    (hs : e.source = source) :
    e.handle ≠ n := by
  rintro hn
  exact he (by rw [← hs,← hn])

theorem Moves.touches {i : Nat} {fs' : Fs} (hm : Moves (fs.handles i) fs fs') : Touches i fs fs' :=
  ⟨.inl (by rw [hm.handles]),fun n _ => by rw [hm.handles],fun n hn => hm.slots n (handle_ne hn),
    fun n hn => hm.entries n (handle_ne hn),hm.data⟩

theorem fsClose_touches : Touches h fs (fsClose h.val fs) := by
  have hb := (handle_inTable h).not_bad
  cases he : fs.handles h with
  | mk source k =>
  have hothers : ∀ (t : Fs) (e : FsHandle), t.handles = fs.handles → ∀ n, n ≠ h.val →
      (setHandle t h.val e).handles n = fs.handles n := by
    intro t e ht n hn
    simp [setHandle,hn,ht]
  cases source with
  | closed =>
    have heq : fsClose h.val fs = fs := by simp only [fsClose,if_neg hb,Int.toNat_natCast,he]
    rw [heq]
    exact ⟨.inl rfl,fun _ _ => rfl,fun _ _ => rfl,fun _ _ => rfl,fun _ => rfl⟩
  | resource =>
    have heq : fsClose h.val fs = setHandle (resClose k fs) h.val ⟨.closed,k⟩ := by
      simp only [fsClose,if_neg hb,Int.toNat_natCast,he]
    have hm : Moves ⟨.resource,k⟩ fs (resClose k fs) := resClose_moves rfl
    rw [heq]
    exact ⟨.inr (by simp [setHandle]),hothers _ _ hm.handles,fun n _ => hm.slots n (by simp),
      fun n hn => hm.entries n (fun _ hk => hn (by rw [he,← hk])),hm.data⟩
  | host =>
    have heq : fsClose h.val fs = setHandle (hostFsClose k fs) h.val ⟨.closed,k⟩ := by
      simp only [fsClose,if_neg hb,Int.toNat_natCast,he]
    rw [heq]
    by_cases hk : badHandle k
    · rw [hostFsClose,if_pos hk]
      exact ⟨.inr (by simp [setHandle]),hothers _ _ rfl,fun _ _ => rfl,fun _ _ => rfl,fun _ => rfl⟩
    · rw [hostFsClose,if_neg hk]
      refine ⟨.inr (by simp [setHandle]),hothers _ _ rfl,fun n hn => ?_,fun _ _ => rfl,fun _ => rfl⟩
      have hne : n ≠ k.toNat := by
        have hkn : k ≠ n := fun hk => hn (by rw [he,hk])
        unfold badHandle at hk
        omega
      exact Function.update_of_ne hne _ _

theorem fsClose_entry : (fsClose h.val fs).handles h = ⟨.closed,(fs.handles h).handle⟩ := by
  have hb := (handle_inTable h).not_bad
  cases he : fs.handles h with
  | mk source k =>
  cases source with
  | closed => simp [fsClose,hb,he]
  | resource => simp [fsClose,hb,he,setHandle]
  | host => simp [fsClose,hb,he,setHandle]

theorem fileOp_touches (op : FileOp) : Touches h fs (fileOp h fs op).2 := by
  cases op with
  | read fault size =>
    rw [fileOp]
    split
    · exact Moves.touches (fsRead_moves _ h.val fault size.toNat)
    · exact Moves.touches Moves.refl
  | seek offset => exact Moves.touches (fsSeek_moves _ h.val offset.toNat)
  | close => exact fsClose_touches

theorem Touches.handle {i m : Nat} {fs' : Fs} {e : FsHandle} (ht : Touches i fs fs')
    (he : e.source ≠ .closed) (hm : fs'.handles m = e) : fs.handles m = e := by
  by_cases hi : m = i
  · subst hi
    obtain hown | hcl := ht.own
    · rw [← hown,hm]
    · exact absurd (hm ▸ hcl) he
  · rw [← ht.others m hi,hm]

theorem Separate.touched {i : Nat} {fs' : Fs} (hs : Separate h h' fs) (ht : Touches i fs fs') :
    Separate h h' fs' := by
  refine ⟨fun n h1 h2 => ?_,fun n h1 h2 r hr => ?_⟩
  · exact hs.host n (ht.handle (by simp) h1) (ht.handle (by simp) h2)
  · have hd := ht.data n
    rw [hr] at hd
    obtain ⟨r',hr',hd'⟩ := Option.map_eq_some_iff.mp hd.symm
    rw [← hd']
    exact hs.resource n (ht.handle (by simp) h1) (ht.handle (by simp) h2) r' hr'

theorem Alike.other {s' : Fs} (ha : Alike h s t) (hs : Separate h h' s) (hne : h ≠ h')
    (ht : Touches h' s s') :
    Alike h s' t := by
  have hsame : s'.handles h = s.handles h := ht.others _ (fun he => hne (Fin.ext he))
  refine ⟨hsame.trans ha.handle,fun n hn => ?_,fun n hn => ?_⟩
  · rw [hsame] at hn
    rw [ht.slots n (hs.host n hn)]
    exact ha.host n hn
  · rw [hsame] at hn
    rw [← ha.resource n hn]
    by_cases hn' : s.handles h' = ⟨.resource,n⟩
    · -- one resource without bytes: the position does not matter
      have hd := ht.data n
      cases hr : s.entries[n]? with
      | none =>
        rw [hr] at hd
        simp [resSight,hr,Option.map_eq_none_iff.mp hd]
      | some r =>
        rw [hr] at hd
        obtain ⟨r',hr',hd'⟩ := Option.map_eq_some_iff.mp hd
        have hempty := hs.resource n hn hn' r hr
        simp [resSight,hr,hr',hd',hempty]
    · simp only [resSight,ht.entries n hn']

theorem endInt_resource {size : UInt32} (he : fs.handles h = ⟨.resource,n⟩) :
    endInt h size fs = (resSight fs n).all fun d => d.2+size.toNat < 2^31 := by
  have he : fs.handles h = ⟨.resource,.ofNat n⟩ := he
  simp only [endInt,he,resSight]
  cases fs.entries[n]? <;> rfl

theorem Alike.endInt (ha : Alike h s t) (size : UInt32) : endInt h size s = endInt h size t := by
  have heq := ha.handle
  cases ht : t.handles h with
  | mk source k =>
  rw [ht] at heq
  obtain ⟨n,rfl⟩ | hneg := natOrNeg k
  · cases source with
    | closed => simp only [Mardio.endInt,heq,ht]
    | host => simp only [Mardio.endInt,heq,ht]
    | resource => rw [endInt_resource heq,endInt_resource ht,ha.resource n heq]
  · obtain ⟨m,rfl⟩ := Int.eq_negSucc_of_lt_zero hneg
    cases source <;> simp only [Mardio.endInt,heq,ht]

theorem fileOp_alike (ha : Alike h s t) (op : FileOp) :
    (fileOp h s op).1 = (fileOp h t op).1 ∧ Alike h (fileOp h s op).2 (fileOp h t op).2 := by
  cases op with
  | read fault size =>
    simp only [fileOp,ha.endInt]
    split
    · exact fsRead_alike ha fault size.toNat
    · exact ⟨rfl,ha⟩
  | seek offset => exact ⟨rfl,fsSeek_alike ha offset.toNat⟩
  | close =>
    have hcl : (fileOp h s .close).2.handles h = ⟨.closed,(s.handles h).handle⟩ := fsClose_entry
    have hcl' : (fileOp h t .close).2.handles h = ⟨.closed,(t.handles h).handle⟩ := fsClose_entry
    refine ⟨rfl,by rw [hcl,hcl',ha.handle],fun n hn => ?_,fun n hn => ?_⟩
    · rw [hcl] at hn
      simp at hn
    · rw [hcl] at hn
      simp at hn

/-! The two runs. -/

theorem noninterfering_of_separate (hs : Separate h h' fs) (hne : h ≠ h') :
    Noninterfering h h' fs := by
  intro ops
  refine seen_filter (I := Separate h h') (R := Alike h) (fun s a hs => ?_)
    (fun s t a _ ha hown => ?_)
    (fun s t a hs ha hown => ?_) ops fs fs hs (Alike.refl h fs)
  · exact hs.touched (fileOp_touches a.2)
  · simp only [twoOp,hown,if_true]
    exact fileOp_alike ha a.2
  · simp only [twoOp,hown,Bool.false_eq_true,if_false]
    exact ha.other hs hne (fileOp_touches a.2)

theorem Paired.separate (hp : Paired fs) (hne : h ≠ h') (hn : ¬ SharesResource h h' fs) :
    Separate h h' fs := by
  refine ⟨fun n h1 h2 => ?_,fun n h1 h2 r hr => ?_⟩
  · have hin : ∀ i : Fin maxOpenFiles, fs.handles i = ⟨.host,n⟩ → i.val ∈ hostEntries fs :=
      fun i hi => ⟨i.isLt,by rw [hi]⟩
    exact hne (Fin.ext (hp.injOn (hin h h1) (hin h' h2) (by simp only [h1,h2])))
  · by_contra hd
    exact hn ⟨n,h1,h2,r,hr,hd⟩

theorem read_resource (he : fs.handles h = ⟨.resource,n⟩) {d : List UInt8} {p : Nat}
    (hd : resSight fs n = some (d,p)) :
    (fileOp h fs (.read none 1)).1 = if p+1 < 2^31 then some ((d.drop p).take 1) else none := by
  have hb : ¬ (badHandle h.val ∨ 1 = 0) := not_or.mpr ⟨(handle_inTable h).not_bad,by decide⟩
  have hone : (1 : UInt32).toNat = 1 := rfl
  simp only [fileOp,endInt_resource he,hd,Option.all_some,hone,decide_eq_true_eq]
  split
  · simp only [fsRead,if_neg hb,Int.toNat_natCast,he]
    rw [(resRead_sight 1).1,hd,Option.elim_some]
  · rfl

theorem fsSeek_resource (he : fs.handles h = ⟨.resource,n⟩) (offset : Nat) {d : List UInt8}
    {p : Nat} (hd : resSight fs n = some (d,p)) :
    resSight (fsSeek h.val offset fs) n = some (d,min offset d.length) := by
  simp only [fsSeek,if_neg (handle_inTable h).not_bad,Int.toNat_natCast,he]
  rw [resSeek_sight,hd,Option.map_some]

/-- One handle goes to the start, the other to the end: the first then reads nothing. -/
theorem SharesResource.interferes (hsh : SharesResource h h' fs) : ¬ Noninterfering h h' fs := by
  obtain ⟨n,h1,h2,r,hr,hd⟩ := hsh
  intro hni
  have hruns := hni [(true,.seek 0),(false,.seek (UInt32.ofNat r.data.length)),(true,.read none 1)]
  have hoff : (UInt32.ofNat r.data.length).toNat = r.data.length :=
    UInt32.toNat_ofNat_of_lt' (r.sized.trans (by decide))
  have hsight : resSight fs n = some (r.data,min r.pos r.data.length) := by simp [resSight,hr]
  have hstart := fsSeek_resource h1 0 hsight
  have hmoved : (fsSeek h.val 0 fs).handles = fs.handles := (fsSeek_moves fs h.val 0).handles
  have hend := fsSeek_resource (h := h') (by rw [hmoved,h2]) r.data.length hstart
  have hmoved' : (fsSeek h'.val r.data.length (fsSeek h.val 0 fs)).handles = fs.handles :=
    (fsSeek_moves _ _ _).handles.trans hmoved
  have hwith := read_resource (h := h) (by rw [hmoved',h1]) hend
  have hwithout := read_resource (h := h) (by rw [hmoved,h1]) hstart
  have hsame : (fileOp h (fsSeek h'.val r.data.length (fsSeek h.val 0 fs)) (.read none 1)).1 =
      (fileOp h (fsSeek h.val 0 fs) (.read none 1)).1 := by
    simpa [seen,twoOp,fileOp,hoff] using hruns
  rw [hwith,hwithout] at hsame
  obtain ⟨b,bs,hbytes⟩ := List.exists_cons_of_ne_nil hd
  simp [hbytes] at hsame

end

/-- In every reachable state, one handle is independent of another exactly when the two
do not share a resource that has bytes. -/
theorem fsRun_interference_exact (entries : List ResEntry) (calls : List FsCall) :
    Always fsCall InterferenceExact (fsInit entries) calls := by
  refine always_of_invariant (I := Paired) (fun fs hp h h' hne => ?_)
    (fun _ _ _ h hc => Paired.call h hc) calls _
    (fsInit_paired entries)
  exact ⟨fun hni hsh => hsh.interferes hni,
    fun hn => noninterfering_of_separate (hp.separate hne hn) hne⟩

/-- A program with one resource, which is opened twice under its name. -/
def oneResource : List ResEntry := [⟨[0x61],[1,2],0,by decide⟩]

theorem fsRun_same_name_interferes :
    ¬ Always fsCall
      (fun fs => ∀ h h' : Fin maxOpenFiles, h ≠ h' → (fs.handles h).source ≠ .closed →
        (fs.handles h').source ≠ .closed → Noninterfering h h' fs)
      (fsInit oneResource) [.openFile (fun _ => none) (some [0x61]),
        .openFile (fun _ => none) (some [0x61])] := by
  intro hall
  have hni := (hall.2 _ rfl).2 _ rfl ⟨0,by decide⟩ ⟨1,by decide⟩ (by decide) (by decide) (by decide)
    [(false,.read none 1),(true,.read none 1)]
  revert hni
  decide

end Mardio
