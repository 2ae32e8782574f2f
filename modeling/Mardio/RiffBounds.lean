import Mardio.Lib.Runs
import Mardio.Fs

/-!
The bytes `fs_open_riff` looks at on its way from chunk to chunk. The cursor moves by
the sizes in the file and is never compared with what was read.
-/

set_option autoImplicit false

namespace Mardio
open ByteMem Runs

/-- `buff` after the read: the bytes of the file, the stack around them, and the width
of a pointer. Addresses count from the start of `buff`. -/
structure RiffBuff where
  bytes : List UInt8
  stack : Mem
  width : Nat
  read : bytes.length ≤ 128
  wide : 32 ≤ width

def RiffBuff.mem (b : RiffBuff) : Mem := store b.stack 0 b.bytes

def RiffBuff.field (b : RiffBuff) (a n : Nat) : List Nat :=
  (List.range n).map fun i => (a+i) % 2^b.width

/-- The fields of the format chunk that are looked at when the data chunk is found. -/
def fmtReads (b : RiffBuff) : Option Nat → List Nat
  | none => []
  | some fmt =>
      b.field fmt 2 ++
      if le16 b.width b.mem fmt ≠ riffFmtPcm then []
      else
        b.field (fmt+4) 4 ++
        if sndFreq2rate (le32 b.width b.mem (fmt+4)) = .unknown then []
        else b.field (fmt+2) 2 ++ b.field (fmt+8) 4

/-- One turn of the `try_again` loop. A build with CONFIG_FS_DEBUG prints every size and
the fields of the format and the fact chunk. -/
def turnReads (debug : Bool) (b : RiffBuff) (ptr : Nat) (fmt : Option Nat) : List Nat :=
  b.field ptr 4 ++ (if debug then b.field (ptr+4) 4 else []) ++
  if le32 b.width b.mem ptr = riffFmt then (if debug then b.field (ptr+8) 16 else []) ++
    b.field (ptr+4) 4
  else if le32 b.width b.mem ptr = riffFact
    then (if debug then b.field (ptr+8) 4 else []) ++ b.field (ptr+4) 4
  else if le32 b.width b.mem ptr = riffData then fmtReads b fmt
  else []

structure RiffCursor where
  ptr : Nat
  fmt : Option Nat
  inspected : List Nat
  last : Option RiffEnd

def riffStart : RiffCursor := ⟨12,none,[],none⟩

def riffTurn (debug : Bool) (b : RiffBuff) (s : RiffCursor) (_ : Unit) : Option RiffCursor :=
  if s.last.isSome then none
  else
    let inspected := s.inspected ++ turnReads debug b s.ptr s.fmt
    let signature := le32 b.width b.mem s.ptr
    let next := (s.ptr+le32 b.width b.mem (s.ptr+4)+8) % 2^b.width
    some (if signature = riffFmt then ⟨next,some ((s.ptr+8) % 2^b.width),inspected,none⟩
      else if signature = riffFact then ⟨next,s.fmt,inspected,none⟩
      else if signature = riffData then ⟨s.ptr,s.fmt,inspected,some (.data s.ptr s.fmt)⟩
      else ⟨s.ptr,s.fmt,inspected,some .unknown⟩)

/-- The turns are those of the walk. -/
theorem riffTurn_walk (debug : Bool) (b : RiffBuff) (fuel : Nat) {s t : RiffCursor}
    (hs : s.last = none) (ht : riffTurn debug b s () = some t) :
    riffWalk b.width b.mem (fuel+1) s.ptr s.fmt =
      if t.last.isSome then t.last else riffWalk b.width b.mem fuel t.ptr t.fmt := by
  rw [riffTurn,hs,if_neg (by simp)] at ht
  cases ht
  rw [riffWalk]
  split
  · rfl
  · split
    · rfl
    · split <;> rfl

/-- Numbers in the bytes delivered. -/
def word16 (bytes : List UInt8) (p : Nat) : Nat :=
  (bytes.getD p 0).toNat+256*(bytes.getD (p+1) 0).toNat

def word32 (bytes : List UInt8) (p : Nat) : Nat := word16 bytes p+2^16*word16 bytes (p+2)

/-- The format, then for PCM the rate, then for a known rate the byte rate lie inside. -/
def FmtInside (bytes : List UInt8) (fmt : Nat) : Prop :=
  fmt+2 ≤ bytes.length ∧ (word16 bytes fmt = riffFmtPcm → fmt+8 ≤ bytes.length ∧
    (sndFreq2rate (word32 bytes (fmt+4)) ≠ .unknown → fmt+12 ≤ bytes.length))

/-- The signature of the chunk lies inside, and of a format or fact chunk also the size.
At a data chunk the format chunk counts. -/
def ChunkInside (debug : Bool) (bytes : List UInt8) (ptr : Nat) (fmt : Option Nat) : Prop :=
  ptr+4 ≤ bytes.length ∧
  (debug = true → ptr+8 ≤ bytes.length) ∧
  (word32 bytes ptr = riffFmt → ptr+8 ≤ bytes.length ∧ (debug = true → ptr+24 ≤ bytes.length)) ∧
  (word32 bytes ptr = riffFact → ptr+8 ≤ bytes.length ∧ (debug = true → ptr+12 ≤ bytes.length)) ∧
  (word32 bytes ptr = riffData → ∀ f, fmt = some f → FmtInside bytes f)

def InspectsInside (b : RiffBuff) (s : RiffCursor) : Prop := ∀ a ∈ s.inspected, a < b.bytes.length

instance (b : RiffBuff) (s : RiffCursor) : Decidable (InspectsInside b s) :=
  inferInstanceAs (Decidable (∀ a ∈ s.inspected, a < b.bytes.length))

def TurnInside (debug : Bool) (b : RiffBuff) (s : RiffCursor) (_ : Unit) : Prop :=
  s.last = none → ChunkInside debug b.bytes s.ptr s.fmt

variable {b : RiffBuff} {debug : Bool}

theorem RiffBuff.lt_pow (b : RiffBuff) {a : Nat} (h : a ≤ 2^10) : a < 2^b.width :=
  Nat.lt_of_lt_of_le (by omega) (Nat.pow_le_pow_right (by decide) b.wide)

theorem mem_inside {a : Nat} (h : a < b.bytes.length) :
    b.mem (a % 2^b.width) = b.bytes.getD a 0 := by
  have hread := b.read
  have hwindow := store_window b.stack 0 b.bytes
  rw [Nat.mod_eq_of_lt (b.lt_pow (by omega)),List.getD_eq_getElem _ _ h,
    ← List.getElem_of_eq hwindow (by simpa using h)]
  simp [window,RiffBuff.mem]

theorem le16_inside {a : Nat} (h : a+2 ≤ b.bytes.length) :
    le16 b.width b.mem a = word16 b.bytes a := by
  rw [le16,mem_inside (by omega),mem_inside (by omega),word16]

theorem le32_inside {a : Nat} (h : a+4 ≤ b.bytes.length) :
    le32 b.width b.mem a = word32 b.bytes a := by
  rw [le32,le16_inside (by omega),le16_inside (by omega),word32]

/-- A field lies inside when it ends inside: the first byte rules out a wrap. -/
theorem field_inside {a n : Nat} (ha : a < 2^b.width) (hn : 0 < n) (hn' : n ≤ 16) :
    (∀ x ∈ b.field a n, x < b.bytes.length) ↔ a+n ≤ b.bytes.length := by
  have hread := b.read
  simp only [RiffBuff.field,List.forall_mem_map,List.mem_range]
  constructor
  · intro h
    have hfirst := h 0 hn
    rw [Nat.add_zero,Nat.mod_eq_of_lt ha] at hfirst
    have hlast := h (n-1) (by omega)
    rw [Nat.mod_eq_of_lt (b.lt_pow (by omega))] at hlast
    omega
  · intro h i hi
    rw [Nat.mod_eq_of_lt (b.lt_pow (by omega))]
    omega

theorem fmtReads_inside {f : Nat} (hf : f ≤ b.bytes.length) :
    (∀ x ∈ fmtReads b (some f), x < b.bytes.length) ↔ FmtInside b.bytes f := by
  have hread := b.read
  have hlt : ∀ k ≤ 8, f+k < 2^b.width := fun k hk => b.lt_pow (by omega)
  rw [fmtReads,List.forall_mem_append,field_inside (b.lt_pow (by omega)) (by omega) (by omega),
    FmtInside]
  refine and_congr_right fun hformat => ?_
  rw [le16_inside hformat]
  by_cases hpcm : word16 b.bytes f = riffFmtPcm
  · rw [if_neg (by simpa using hpcm),List.forall_mem_append,
      field_inside (hlt 4 (by omega)) (by omega) (by omega)]
    simp only [hpcm,true_imp_iff]
    refine and_congr_right fun hrate => ?_
    rw [le32_inside hrate]
    by_cases hknown : sndFreq2rate (word32 b.bytes (f+4)) = .unknown
    · simp [hknown]
    · rw [if_neg hknown,List.forall_mem_append,
        field_inside (hlt 2 (by omega)) (by omega) (by omega),
          field_inside (hlt 8 (by omega)) (by omega) (by omega)]
      simp only [ne_eq,hknown,not_false_eq_true,true_imp_iff]
      omega
  · simp [hpcm]

theorem debug_inside {a n : Nat} (ha : a < 2^b.width) (hn : 0 < n) (hn' : n ≤ 16) :
    (∀ x ∈ if debug = true then b.field a n else [], x < b.bytes.length) ↔
      (debug = true → a+n ≤ b.bytes.length) := by
  cases debug with
  | false => simp
  | true => simpa using field_inside ha hn hn'

theorem turnReads_inside {ptr : Nat} {fmt : Option Nat} (hp : ptr < 2^b.width)
    (hf : ∀ f, fmt = some f → f ≤ b.bytes.length) :
    (∀ x ∈ turnReads debug b ptr fmt, x < b.bytes.length) ↔ ChunkInside debug b.bytes ptr fmt := by
  have hread := b.read
  rw [turnReads,List.forall_mem_append,List.forall_mem_append,field_inside hp (by omega) (by omega),
    ChunkInside,and_assoc]
  refine and_congr_right fun hsig => ?_
  rw [le32_inside hsig,debug_inside (b.lt_pow (by omega)) (by omega) (by omega)]
  refine and_congr_right fun _ => ?_
  have hsize := field_inside (b.lt_pow (by omega : ptr+4 ≤ 2^10)) (by omega) (by omega : 4 ≤ 16)
  -- at most one of the three signatures is there
  by_cases h1 : word32 b.bytes ptr = riffFmt
  · have h2 : riffFmt ≠ riffFact := by decide
    have h3 : riffFmt ≠ riffData := by decide
    rw [if_pos h1,List.forall_mem_append,debug_inside (b.lt_pow (by omega)) (by omega) (by omega),
      hsize,and_comm]
    simp [h1,h2,h3]
  by_cases h2 : word32 b.bytes ptr = riffFact
  · have h3 : riffFact ≠ riffData := by decide
    rw [if_neg h1,if_pos h2,List.forall_mem_append,
      debug_inside (b.lt_pow (by omega)) (by omega) (by omega),hsize,and_comm]
    rw [h2] at h1
    simp [h1,h2,h3]
  rw [if_neg h1,if_neg h2]
  by_cases h3 : word32 b.bytes ptr = riffData
  · rw [if_pos h3]
    rw [h3] at h1 h2
    cases fmt with
    | none => simp [fmtReads,h1,h2,h3]
    | some f => simpa [h1,h2,h3] using fmtReads_inside (hf f rfl)
  · simp [h1,h2,h3]

/-! Whole walks. -/

structure RiffInv (b : RiffBuff) (s : RiffCursor) : Prop where
  inside : InspectsInside b s
  ptr : s.ptr < 2^b.width
  fmt : ∀ f, s.fmt = some f → f ≤ b.bytes.length

theorem RiffInv.turn {s t : RiffCursor} (h : RiffInv b s) (hok : TurnInside debug b s ())
    (ht : riffTurn debug b s () = some t) : RiffInv b t := by
  have hlast : s.last = none := by
    cases hl : s.last with
    | none => rfl
    | some e => simp [riffTurn,hl] at ht
  have hchunk := hok hlast
  have hreads : ∀ a ∈ s.inspected ++ turnReads debug b s.ptr s.fmt, a < b.bytes.length :=
    List.forall_mem_append.mpr ⟨h.inside,(turnReads_inside h.ptr h.fmt).mpr hchunk⟩
  have hnext : ∀ n, n % 2^b.width < 2^b.width := fun n => Nat.mod_lt n (Nat.two_pow_pos _)
  rw [riffTurn,hlast,if_neg (by simp)] at ht
  cases ht
  rw [le32_inside hchunk.1]
  split
  · rename_i hfmt
    refine ⟨hreads,hnext _,fun f hf => ?_⟩
    cases hf
    exact (Nat.mod_le _ _).trans (hchunk.2.2.1 hfmt).1
  · split
    · exact ⟨hreads,hnext _,h.fmt⟩
    · split
      · exact ⟨hreads,h.ptr,h.fmt⟩
      · exact ⟨hreads,h.ptr,h.fmt⟩

theorem riffTurn_inspected {s t : RiffCursor} (ht : riffTurn debug b s () = some t) :
    t.inspected = s.inspected ++ turnReads debug b s.ptr s.fmt := by
  rw [riffTurn] at ht
  split at ht
  · cases ht
  · cases ht
    split
    · rfl
    · split
      · rfl
      · split <;> rfl

theorem RiffInv.outside {s : RiffCursor} (h : RiffInv b s) (hn : ¬ TurnInside debug b s ()) :
    ∃ t, riffTurn debug b s () = some t ∧ ¬ InspectsInside b t := by
  obtain ⟨hlast,hchunk⟩ := Classical.not_imp.mp hn
  obtain ⟨t,ht⟩ : ∃ t, riffTurn debug b s () = some t := ⟨_,if_neg (by simp [hlast])⟩
  refine ⟨t,ht,fun hin => hchunk ((turnReads_inside h.ptr h.fmt).mp fun x hx => hin x ?_)⟩
  rw [riffTurn_inspected ht]
  exact List.mem_append_right _ hx

/-- However many turns the walk takes, it looks at delivered bytes only, exactly when
each chunk it comes to lies inside them as far as it is looked at. -/
theorem riffRun_inside_iff (debug : Bool) (b : RiffBuff) (turns : Nat) :
    Always (riffTurn debug b) (InspectsInside b) riffStart (List.replicate turns ()) ↔
      Guarded (riffTurn debug b) (TurnInside debug b) riffStart (List.replicate turns ()) :=
  always_iff_guarded (fun _ h => RiffInv.inside h) (fun _ _ _ h hok ht => h.turn hok ht)
    (fun _ _ h hn => h.outside hn) _ riffStart
    ⟨by simp [InspectsInside,riffStart],b.lt_pow (by simp [riffStart]),by simp [riffStart]⟩

/-- A file of 44 bytes whose format chunk claims a size of 1000. -/
def farRiff : RiffBuff where
  bytes := [0x52,0x49,0x46,0x46,36,0,0,0,0x57,0x41,0x56,0x45,0x66,0x6d,0x74,0x20,0xe8,3,0,0] ++
    List.replicate 24 0
  stack := fun _ => 0
  width := 32
  read := by decide
  wide := by decide

/-- `fs_type` takes the file for a RIFF file, and the second signature is looked for far
behind the buffer. -/
theorem riffRun_far :
    typeOfHeader farRiff.bytes = .riff ∧
      ¬ Always (riffTurn false farRiff) (InspectsInside farRiff) riffStart
        (List.replicate 2 ()) := by
  decide +kernel

end Mardio
