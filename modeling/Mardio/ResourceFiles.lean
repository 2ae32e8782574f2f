import Mardio.Commands
import Mardio.FsSpec
import Mardio.Lib.Runs

/-!
Reading a resource file, with the integers of the source: positions and sizes are
signed 32-bit integers, requests and offsets unsigned ones, and each comparison is
made in the type that C gives it.
-/

set_option autoImplicit false

namespace Mardio
open ByteMem Runs

/-- The contents of the entries lie in read-only memory. -/
structure RsEntry where
  name : Str
  size : Int
  data : Nat
  pos : Int
  deriving DecidableEq, Repr

/-- The table and the memory that is read into. -/
structure Rs where
  entries : List RsEntry
  ram : Mem

/-- A table as it is compiled in, or as earlier calls have left it. -/
structure ResTable where
  entries : List RsEntry
  sized : ∀ e ∈ entries, e.size < 2^31
  placed : ∀ e ∈ entries, 0 ≤ e.pos ∧ e.pos ≤ e.size

def Rs.bad (handle : Int) (s : Rs) : Prop := handle > s.entries.length ∨ handle < 0

instance (handle : Int) (s : Rs) : Decidable (s.bad handle) := inferInstanceAs (Decidable (_ ∨ _))

def Rs.change (s : Rs) (handle : Int) (f : RsEntry → RsEntry) : Rs :=
  { s with entries := s.entries.modify handle.toNat f }

def resClose32 (handle : Int) (s : Rs) : Rs :=
  if s.bad handle then s else s.change handle fun e => { e with pos := 0 }

/-- How much is read. The request is taken for a signed integer. -/
def RsEntry.toread (e : RsEntry) (size : UInt32) : Int :=
  let toread := Int.bmod size.toNat (2^32)
  if Int.bmod (e.pos+toread) (2^32) > e.size then Int.bmod (e.size-e.pos) (2^32) else toread

def RsEntry.advance (e : RsEntry) (toread : Int) : RsEntry :=
  let pos := Int.bmod (e.pos+toread) (2^32)
  { e with pos := if pos > e.size then e.size else pos }

/-- The copy takes its length as a `size_t`. The entry that ends the table is empty. -/
def resRead32 (h : Host) (rom : Mem) (handle : Int) (buffer : Nat) (size : UInt32) (s : Rs) :
    Nat × Rs :=
  if s.bad handle ∨ buffer = 0 then (0,s)
  else match s.entries[handle.toNat]? with
    | none => (0,s)
    | some e =>
        let toread := e.toread size
        let bytes := window rom (e.data+e.pos).toNat (toread % 2^h.longBits).toNat
        ((toread % 2^32).toNat,
          { s.change handle (·.advance toread) with ram := store s.ram buffer bytes })

/-- The size is compared as an unsigned integer. -/
def RsEntry.seek (e : RsEntry) (offset : UInt32) : RsEntry :=
  { e with pos := if (e.size % 2^32).toNat ≥
    offset.toNat then Int.bmod offset.toNat (2^32) else e.size }

def resSeek32 (handle : Int) (offset : UInt32) (s : Rs) : Rs :=
  if s.bad handle then s else s.change handle (·.seek offset)

inductive RsOp where
  | read (buffer : ℕ+) (size : UInt32)
  | seek (offset : UInt32)
  | close

def rsStep (h : Host) (rom : Mem) (k : Nat) (s : Rs) : RsOp → Option Rs
  | .read buffer size => some (resRead32 h rom k buffer size s).2
  | .seek offset => some (resSeek32 k offset s)
  | .close => some (resClose32 k s)

/-- The end of a read can be represented. -/
def ReadInRange (k : Nat) (s : Rs) : RsOp → Prop
  | .read _ size => ∀ e ∈ s.entries[k]?, e.pos+size.toNat < 2^31
  | _ => True

/-- The bytes that consecutive reads leave in their buffers. -/
def readChunks (h : Host) (rom : Mem) (k : Nat) : List (ℕ+ × UInt32) → Rs → List UInt8 × Rs
  | [], s => ([],s)
  | (buffer,size) :: chunks, s =>
      let r := resRead32 h rom k buffer size s
      let rest := readChunks h rom k chunks r.2
      (window r.2.ram buffer r.1 ++ rest.1,rest.2)

def chunksSize (chunks : List (ℕ+ × UInt32)) : Nat := (chunks.map fun c => c.2.toNat).sum

/-- The file of entry `e`, open at position `p`, and what each call would do there. -/
structure FileAt (h : Host) (rom : Mem) (k : Nat) (e : RsEntry) (s : Rs) (p : Nat) : Prop where
  entry : s.entries[k]? = some { e with pos := p }
  inside : p ≤ e.size
  read : ∀ (buffer : ℕ+) (size : UInt32), p+size.toNat < 2^31 →
    ∀ r, r = resRead32 h rom k buffer size s →
    (r.1 : Int) = min (size.toNat : Int) (e.size-p) ∧
      window r.2.ram buffer r.1 = window rom (e.data+p) r.1 ∧
      r.2.entries[k]? = some { e with pos := p+r.1 }
  seek : ∀ offset : UInt32, (resSeek32 k offset s).entries[k]? =
    some { e with pos := min (offset.toNat : Int) e.size }
  close : (resClose32 k s).entries[k]? = some { e with pos := 0 }
  chunks : ∀ (chunks : List (ℕ+ × UInt32)) (buffer : ℕ+) (size : UInt32),
    size.toNat = chunksSize chunks → p+size.toNat < 2^31 →
      ∀ r, r = resRead32 h rom k buffer size s →
    (readChunks h rom k chunks s).1 = window r.2.ram buffer r.1 ∧
      (readChunks h rom k chunks s).2.entries[k]? = r.2.entries[k]?

/-! One call. -/

section
variable {h : Host} {rom : Mem} {k : Nat} {e : RsEntry} {s : Rs} {p : Nat}

theorem toread_eq {size : UInt32} (hsize : e.size < 2^31) (hp : p ≤ e.size)
    (hr : p+size.toNat < 2^31) :
    ({ e with pos := p } : RsEntry).toread size = min (size.toNat : Int) (e.size-p) := by
  have hrequest : Int.bmod size.toNat (2^32) = size.toNat :=
    Int.bmod_eq_of_le_mul_two (by omega) (by omega)
  have hend : Int.bmod (p+(size.toNat : Int)) (2^32) = p+size.toNat :=
    Int.bmod_eq_of_le_mul_two (by omega) (by omega)
  have hrest : Int.bmod (e.size-p) (2^32) = e.size-p :=
    Int.bmod_eq_of_le_mul_two (by omega) (by omega)
  simp only [RsEntry.toread,hrequest,hend,hrest]
  split <;> omega

theorem advance_eq {n : Nat} (hsize : e.size < 2^31) (hn : p+n ≤ e.size) :
    ({ e with pos := p } : RsEntry).advance n = { e with pos := (p+n : Nat) } := by
  have hend : Int.bmod (p+(n : Int)) (2^32) = p+n := Int.bmod_eq_of_le_mul_two (by omega) (by omega)
  simp only [RsEntry.advance,hend]
  rw [if_neg (by omega)]
  rfl

theorem seek_eq (hsize : e.size < 2^31) (hp : p ≤ e.size) (offset : UInt32) :
    ({ e with pos := p } : RsEntry).seek offset =
      { e with pos := min (offset.toNat : Int) e.size } := by
  simp only [RsEntry.seek,Int.bmod_def]
  congr 1
  split <;> omega

theorem not_bad (hentry : s.entries[k]? = some e) : ¬ s.bad k := by
  obtain ⟨hk,-⟩ := List.getElem?_eq_some_iff.mp hentry
  rw [Rs.bad]
  omega

theorem change_entry (hentry : s.entries[k]? = some e) (f : RsEntry → RsEntry) :
    (s.change k f).entries[k]? = some (f e) := by
  simp [Rs.change,hentry]

/-- A read within the range, as one equation. -/
theorem resRead32_eq (hentry : s.entries[k]? = some { e with pos := p }) (hsize : e.size < 2^31)
    (hp : p ≤ e.size) (buffer : ℕ+) {size : UInt32} (hr : p+size.toNat < 2^31) {n : Nat}
    (hn : (n : Int) = min (size.toNat : Int) (e.size-p)) :
    resRead32 h rom k buffer size s =
      (n,{ s.change k (·.advance n) with
        ram := store s.ram buffer (window rom (e.data+p) n) }) := by
  have htoread := (toread_eq hsize hp hr).trans hn.symm
  have hpow : 2^32 ≤ 2^h.longBits := by cases h <;> decide
  have hlength : ((n : Int) % 2^h.longBits).toNat = n := by
    rw [Int.emod_eq_of_lt (by omega) (by push_cast [← Int.ofNat_le] at *; omega)]
    omega
  have hresult : ((n : Int) % 2^32).toNat = n := by omega
  rw [resRead32,if_neg (not_or.mpr ⟨not_bad hentry,buffer.ne_zero⟩),Int.toNat_natCast,hentry]
  simp only [htoread,hlength,hresult]
  congr 4

theorem exists_amount (hp : p ≤ e.size) (n : Nat) : ∃ m :
    Nat, (m : Int) = min (n : Int) (e.size-p) :=
  ⟨(min (n : Int) (e.size-p)).toNat,by omega⟩

theorem resRead32_spec (h : Host) (rom : Mem) (hentry : s.entries[k]? = some { e with pos := p })
    (hsize : e.size < 2^31) (hp : p ≤ e.size) (buffer : ℕ+) {size : UInt32}
    (hr : p+size.toNat < 2^31) :
    ∃ n : Nat, (n : Int) = min (size.toNat : Int) (e.size-p) ∧
      (resRead32 h rom k buffer size s).1 = n ∧
      window (resRead32 h rom k buffer size s).2.ram buffer n = window rom (e.data+p) n ∧
      (resRead32 h rom k buffer size s).2.entries[k]? = some { e with pos := (p+n : Nat) } := by
  obtain ⟨n,hn⟩ := exists_amount hp size.toNat
  rw [resRead32_eq hentry hsize hp buffer hr hn]
  have hbytes := store_window s.ram buffer (window rom (e.data+p) n)
  rw [window_length] at hbytes
  refine ⟨n,hn,rfl,hbytes,?_⟩
  rw [← advance_eq hsize (by omega)]
  exact change_entry hentry _

/-- Consecutive reads go on where the one before has stopped. -/
theorem readChunks_spec (h : Host) (rom : Mem) (hsize : e.size < 2^31) (chunks : List (ℕ+ × UInt32))
    (hentry : s.entries[k]? = some { e with pos := p }) (hp : p ≤ e.size)
    (hr : p+chunksSize chunks < 2^31) :
    ∃ n : Nat, (n : Int) = min (chunksSize chunks : Int) (e.size-p) ∧
      (readChunks h rom k chunks s).1 = window rom (e.data+p) n ∧
      (readChunks h rom k chunks s).2.entries[k]? = some { e with pos := (p+n : Nat) } := by
  induction chunks generalizing s p with
  | nil => exact ⟨0,by simp [chunksSize]; omega,rfl,hentry⟩
  | cons chunk chunks ih =>
    obtain ⟨buffer,size⟩ := chunk
    simp only [chunksSize,List.map_cons,List.sum_cons] at ih hr ⊢
    obtain ⟨n,hn,hresult,hbytes,hentry'⟩ :=
      resRead32_spec h rom hentry hsize hp buffer (by omega : p+size.toNat < 2^31)
    obtain ⟨m,hm,hrest,hlast⟩ := ih hentry' (by omega) (by omega)
    refine ⟨n+m,by omega,?_,?_⟩
    · rw [readChunks,hresult,hbytes,hrest,window_add,Nat.add_assoc]
    · rw [readChunks,hlast,Nat.add_assoc]

theorem fileAt_of_entry (hentry : s.entries[k]? = some { e with pos := p }) (hsize : e.size < 2^31)
    (hp : p ≤ e.size) :
    FileAt h rom k e s p where
  entry := hentry
  inside := hp
  read buffer size hr r hread := by
    obtain ⟨n,hn,hresult,hbytes,hentry'⟩ := resRead32_spec h rom hentry hsize hp buffer hr
    subst hread
    rw [hresult]
    exact ⟨hn,hbytes,hentry'⟩
  seek offset := by
    rw [resSeek32,if_neg (not_bad hentry),← seek_eq hsize hp offset]
    exact change_entry hentry _
  close := by
    rw [resClose32,if_neg (not_bad hentry)]
    exact change_entry hentry _
  chunks chunks buffer size hsum hr r hread := by
    obtain ⟨n,hn,hresult,hbytes,hentry'⟩ := resRead32_spec h rom hentry hsize hp buffer hr
    rw [hsum] at hr hn
    obtain ⟨m,hm,hrest,hlast⟩ := readChunks_spec h rom hsize chunks hentry hp hr
    obtain rfl : n = m := by omega
    subst hread
    rw [hrest,hresult,hbytes,hlast,hentry']
    exact ⟨rfl,rfl⟩

/-- Every call leaves the file open at some position inside it. -/
theorem FileAt.step {t : Rs} {op : RsOp} (hf : FileAt h rom k e s p) (hsize : e.size < 2^31)
    (hok : ReadInRange k s op) (hs : rsStep h rom k s op = some t) : ∃ q :
    Nat, FileAt h rom k e t q := by
  cases op with
  | read buffer size =>
    have hr : p+size.toNat < 2^31 := by
      have := hok _ hf.entry
      simp only at this
      omega
    obtain ⟨n,hn,-,-,hentry⟩ := resRead32_spec h rom hf.entry hsize hf.inside buffer hr
    cases hs
    have := hf.inside
    exact ⟨p+n,fileAt_of_entry hentry hsize (by omega)⟩
  | seek offset =>
    cases hs
    obtain ⟨q,hq⟩ : ∃ q : Nat, (q : Int) = min (offset.toNat : Int) e.size :=
      ⟨(min (offset.toNat : Int) e.size).toNat,by have := hf.inside; omega⟩
    exact ⟨q,fileAt_of_entry (by rw [hq]; exact hf.seek offset) hsize (by omega)⟩
  | close =>
    cases hs
    have := hf.inside
    exact ⟨0,fileAt_of_entry hf.close hsize (by omega)⟩

end

/-- In every run of reads, seeks and closes on one handle the position stays inside the
file, and every call there does what it should. -/
theorem resRun_fileAt (h : Host) (rom ram : Mem) (t : ResTable) {k : Nat}
    (hk : k < t.entries.length) (ops : List RsOp)
    (hok : Guarded (rsStep h rom k) (ReadInRange k) ⟨t.entries,ram⟩ ops) :
    Always (rsStep h rom k) (fun s => ∃ p : Nat, FileAt h rom k t.entries[k] s p)
      ⟨t.entries,ram⟩ ops := by
  have hmem : t.entries[k] ∈ t.entries := List.getElem_mem hk
  have hsize := t.sized _ hmem
  obtain ⟨hlow,hhigh⟩ := t.placed _ hmem
  obtain ⟨p,hp⟩ := Int.eq_ofNat_of_zero_le hlow
  have hentry : t.entries[k]? = some { t.entries[k] with pos := p } := by
    rw [List.getElem?_eq_getElem hk,← hp]
  exact always_of_guarded (fun s hi => hi) (fun s op s' ⟨q,hq⟩ hok hs => hq.step hsize hok hs) ops _
    ⟨p,fileAt_of_entry hentry hsize (by omega)⟩ hok

instance (k : Nat) (s : Rs) : (op : RsOp) → Decidable (ReadInRange k s op)
  | .read _ size => inferInstanceAs (Decidable (∀ e ∈ s.entries[k]?, e.pos+size.toNat < 2^31))
  | .seek _ => isTrue trivial
  | .close => isTrue trivial

def twoFiles : ResTable :=
  ⟨[⟨ascii ['a'],5,100,0⟩,⟨ascii ['b'],3,200,2⟩],by decide,by decide⟩

theorem resRun_fileAt_two :
    1 < twoFiles.entries.length ∧
    Guarded (rsStep .linux (fun _ => 7) 1) (ReadInRange 1) ⟨twoFiles.entries,fun _ => 0⟩
      [.read 16 2,.seek 1,.read 32 100,.close,.seek 4294967295] ∧
    Always (rsStep .linux (fun _ => 7) 1)
      (fun s => ∃ p : Nat, FileAt .linux (fun _ => 7) 1 twoFiles.entries[1] s p)
      ⟨twoFiles.entries,fun _ => 0⟩ [.read 16 2,.seek 1,.read 32 100,.close,.seek 4294967295] :=
  ⟨by decide,by decide,resRun_fileAt _ _ _ _ (by decide) _ (by decide)⟩

/-! The files of the file layer, whose sizes and positions are natural numbers. -/

/-- An entry with its contents. -/
structure Represents (rom : Mem) (e : RsEntry) (f : ResEntry) : Prop where
  name : e.name = f.name
  size : e.size = f.data.length
  data : window rom e.data f.data.length = f.data
  pos : e.pos = f.pos

theorem forall₂_modify {α β : Type} {R : α → β → Prop} {as : List α} {bs : List β}
    (hR : List.Forall₂ R as bs) (k : Nat) {f : α → α} {g : β → β}
    (hstep : ∀ a b, as[k]? = some a → bs[k]? = some b → R a b → R (f a) (g b)) :
    List.Forall₂ R (as.modify k f) (bs.modify k g) := by
  induction hR generalizing k with
  | nil => simp
  | cons hab hrest ih =>
    cases k with
    | zero => exact .cons (hstep _ _ rfl rfl hab) hrest
    | succ k => exact .cons hab (ih k fun a b ha hb => hstep a b ha hb)

theorem forall₂_getElem? {α β : Type} {R : α → β → Prop} {as : List α} {bs : List β}
    (hR : List.Forall₂ R as bs) {k : Nat} {a : α} (ha : as[k]? = some a) :
    ∃ b, bs[k]? = some b ∧ R a b := by
  obtain ⟨hk,rfl⟩ := List.getElem?_eq_some_iff.mp ha
  have hk' : k < bs.length := hR.length_eq ▸ hk
  exact ⟨bs[k],List.getElem?_eq_getElem hk',hR.get hk hk'⟩

section
variable {h : Host} {rom : Mem} {k : Nat} {s : Rs} {fs : Fs} {e : RsEntry} {p : Nat}

theorem bad_iff (hrep : List.Forall₂ (Represents rom) s.entries fs.entries) (handle : Int) :
    s.bad handle ↔ resBadHandle handle fs := by
  rw [Rs.bad,resBadHandle,hrep.length_eq]

theorem window_part (m : Mem) (a : Nat) {n p k : Nat} (hk : p+k ≤ n) :
    window m (a+p) k = ((window m a n).drop p).take k := by
  obtain ⟨j,hj⟩ := Nat.exists_eq_add_of_le hk
  rw [window_drop,show n-p = k+j by omega,window_add,List.take_left' (window_length ..)]

/-- The read of the file layer is the read with the integers of the source. -/
theorem resRead32_refines (hrep : List.Forall₂ (Represents rom) s.entries fs.entries)
    (hentry : s.entries[k]? = some { e with pos := p }) (hsize : e.size < 2^31) (hp : p ≤ e.size)
    (buffer : ℕ+) {size : UInt32} (hr : p+size.toNat < 2^31) {r : Nat × Rs}
    (hread : r = resRead32 h rom k buffer size s) :
    window r.2.ram buffer r.1 = (resRead k size.toNat fs).1 ∧
      List.Forall₂ (Represents rom) r.2.entries (resRead k size.toNat fs).2.entries := by
  obtain ⟨f,hf,hef⟩ := forall₂_getElem? hrep hentry
  obtain ⟨n,hn⟩ := exists_amount hp size.toNat
  have hlen : e.size = f.data.length := hef.size
  have hpos : p = f.pos := by simpa using hef.pos
  have hamount : (if f.pos+size.toNat > f.data.length then f.data.length-f.pos else size.toNat) =
      n := by
    split <;> omega
  have hbytes := store_window s.ram buffer (window rom (e.data+p) n)
  rw [window_length] at hbytes
  rw [hread,resRead32_eq hentry hsize hp buffer hr hn,resRead,
    if_neg (mt (bad_iff hrep k).mpr (not_bad hentry)),Int.toNat_natCast,hf]
  simp only [hamount,hbytes]
  constructor
  · rw [window_part rom e.data (show p+n ≤ f.data.length by omega),hef.data,hpos]
  · refine forall₂_modify hrep k fun a b ha hb hab => ?_
    obtain rfl : { e with pos := p } = a := Option.some_inj.mp (hentry.symm.trans ha)
    obtain rfl : f = b := Option.some_inj.mp (hf.symm.trans hb)
    rw [advance_eq hsize (by omega)]
    refine ⟨hab.name,hab.size,hab.data,?_⟩
    simp only
    omega

theorem resSeek32_refines (hrep : List.Forall₂ (Represents rom) s.entries fs.entries)
    (hentry : s.entries[k]? = some { e with pos := p }) (hsize : e.size < 2^31) (hp : p ≤ e.size)
    (offset : UInt32) :
    List.Forall₂ (Represents rom) (resSeek32 k offset s).entries
      (resSeek k offset.toNat fs).entries := by
  rw [resSeek32,if_neg (not_bad hentry),resSeek,
    if_neg (mt (bad_iff hrep k).mpr (not_bad hentry))]
  refine forall₂_modify hrep k fun a b ha _ hab => ?_
  obtain rfl : { e with pos := p } = a := Option.some_inj.mp (hentry.symm.trans ha)
  rw [seek_eq hsize hp offset]
  have hlen : e.size = b.data.length := hab.size
  refine ⟨hab.name,hab.size,hab.data,?_⟩
  simp only
  split <;> omega

theorem resClose32_refines (hrep : List.Forall₂ (Represents rom) s.entries fs.entries)
    (handle : Int) :
    List.Forall₂ (Represents rom) (resClose32 handle s).entries (resClose handle fs).entries := by
  by_cases hbad : s.bad handle
  · rw [resClose32,if_pos hbad,resClose,if_pos ((bad_iff hrep handle).mp hbad)]
    exact hrep
  · rw [resClose32,if_neg hbad,resClose,if_neg (mt (bad_iff hrep handle).mpr hbad)]
    exact forall₂_modify hrep _ fun a b _ _ hab => ⟨hab.name,hab.size,hab.data,rfl⟩

end

end Mardio
