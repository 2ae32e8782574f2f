import Mardio.FsSpec
import Mardio.RiffBounds

/-!
What a RIFF file says about itself, and what `fs_open_riff` makes of it. The bits per
sample are never looked at, and the sample rate goes through a 16-bit parameter.
-/

set_option autoImplicit false

namespace Mardio
open ByteMem

/-- From the chunk at `ptr` on, the fields at `fmt` are those of the last format chunk
in front of the data chunk; `seen` is the last one passed already. -/
inductive FmtBeforeData (file : List UInt8) (fmt : Nat) : Nat → Option Nat → Prop where
  | data {ptr : Nat} : ptr+4 ≤ file.length → word32 file ptr = riffData →
      FmtBeforeData file fmt ptr (some fmt)
  | fmt {ptr : Nat} {seen : Option Nat} : ptr+8 ≤ file.length → word32 file ptr = riffFmt →
      FmtBeforeData file fmt (ptr+word32 file (ptr+4)+8) (some (ptr+8)) →
        FmtBeforeData file fmt ptr seen
  | fact {ptr : Nat} {seen : Option Nat} : ptr+8 ≤ file.length → word32 file ptr = riffFact →
      FmtBeforeData file fmt (ptr+word32 file (ptr+4)+8) seen → FmtBeforeData file fmt ptr seen

/-- The file is 16-bit PCM of this rate and number of channels. -/
structure Declares (file : List UInt8) (fmt samplerate channels : Nat) : Prop where
  chunk : FmtBeforeData file fmt 12 none
  inside : fmt+16 ≤ file.length
  format : word16 file fmt = riffFmtPcm
  bitspersample : word16 file (fmt+14) = 16
  samplerate : word32 file (fmt+4) = samplerate
  channels : word16 file (fmt+2) = channels

def Found.file (f : Found) : List UInt8 := f.content.drop f.pos

/-- Either nothing of `fss` has changed, or it is open with what the file declares. -/
def RiffFaithful (w : World) (name : Str) (fs fs' : Fs) : Prop :=
  SameFile fs fs' ∨ ∃ f fmt, fs.lookup w.files name = some f ∧ fs'.state = .opened ∧
    fs'.rate ≠ .unknown ∧
    Declares f.file fmt (sndRate2freq fs'.rate) fs'.channels

/-- The same for chunks in memory, which go on behind the bytes read: from the chunk at
`ptr` on, the fields at `fmt` are those of the last format chunk in front of a data
chunk. -/
inductive FmtInMemory (width : Nat) (m : Mem) (fmt : Nat) : Nat → Option Nat → Prop where
  | data {ptr : Nat} : le32 width m ptr = riffData → FmtInMemory width m fmt ptr (some fmt)
  | fmt {ptr : Nat} {seen : Option Nat} : le32 width m ptr = riffFmt →
      FmtInMemory width m fmt ((ptr+le32 width m (ptr+4)+8) % 2^width) (some ((ptr+8) % 2^width)) →
      FmtInMemory width m fmt ptr seen
  | fact {ptr : Nat} {seen : Option Nat} : le32 width m ptr = riffFact →
      FmtInMemory width m fmt ((ptr+le32 width m (ptr+4)+8) % 2^width) seen →
        FmtInMemory width m fmt ptr seen

/-- The format chunk at `fmt'` of the file has the format and the channels of the one at
`fmt` in memory and the low half of its sample rate, and 16 bits per sample. -/
structure SameFormat (file : List UInt8) (fmt' : Nat) (width : Nat) (m : Mem) (fmt : Nat) :
    Prop where
  inside : fmt'+16 ≤ file.length
  format : word16 file fmt' = le16 width m fmt
  channels : word16 file (fmt'+2) = le16 width m (fmt+2)
  samplerate : word32 file (fmt'+4) = le32 width m (fmt+4) % 2^16
  bitspersample : word16 file (fmt'+14) = 16

/-- A header that lies in the bytes read and is taken for PCM of a known rate has 16 bits
per sample and a rate of 16 bits. If none lies there, every such header that chunks lead
to in the memory agrees with the one further on in the file. -/
structure HeaderHonest (w : World) (f : Found) : Prop where
  read : ∀ fmt, FmtBeforeData (f.read w.riffFault 128) fmt 12 none →
    fmt+16 ≤ (f.read w.riffFault 128).length →
    word16 (f.read w.riffFault 128) fmt = riffFmtPcm →
    sndFreq2rate (word32 (f.read w.riffFault 128) (fmt+4)) ≠ .unknown →
    word16 (f.read w.riffFault 128) (fmt+14) = 16 ∧ word32 (f.read w.riffFault 128) (fmt+4) < 2^16
  behind : (∀ fmt, FmtBeforeData (f.read w.riffFault 128) fmt 12 none →
    (f.read w.riffFault 128).length < fmt+16) →
    ∀ fmt, FmtInMemory w.width (store w.stack 0 (f.read w.riffFault 128)) fmt 12 none →
      le16 w.width (store w.stack 0 (f.read w.riffFault 128)) fmt = riffFmtPcm →
      sndFreq2rate (le32 w.width (store w.stack 0 (f.read w.riffFault 128)) (fmt+4)) ≠ .unknown →
      ∃ fmt', FmtBeforeData f.file fmt' 12 none ∧
        SameFormat f.file fmt' w.width (store w.stack 0 (f.read w.riffFault 128)) fmt

/-! The chunks of a file. -/

theorem FmtBeforeData.unique {file : List UInt8} {fmt fmt' ptr : Nat} {seen : Option Nat}
    (h : FmtBeforeData file fmt ptr seen) (h' : FmtBeforeData file fmt' ptr seen) : fmt = fmt' := by
  have hsig : riffFmt ≠ riffData ∧ riffFact ≠ riffData ∧ riffFact ≠ riffFmt := by decide
  induction h with
  | data _ hs =>
    cases h' with
    | data => rfl
    | fmt _ hs' => exact absurd (hs'.symm.trans hs) hsig.1
    | fact _ hs' => exact absurd (hs'.symm.trans hs) hsig.2.1
  | fmt _ hs _ ih =>
    cases h' with
    | data _ hs' => exact absurd (hs.symm.trans hs') hsig.1
    | fmt _ _ hrest => exact ih hrest
    | fact _ hs' => exact absurd (hs'.symm.trans hs) hsig.2.2
  | fact _ hs _ ih =>
    cases h' with
    | data _ hs' => exact absurd (hs.symm.trans hs') hsig.2.1
    | fmt _ hs' => exact absurd (hs.symm.trans hs') hsig.2.2
    | fact _ _ hrest => exact ih hrest

theorem word16_take {file : List UInt8} {n p : Nat} (hp : p+2 ≤ (file.take n).length) :
    word16 (file.take n) p = word16 file p := by
  rw [List.length_take] at hp
  simp only [word16,List.getD_eq_getElem?_getD,List.getElem?_take]
  rw [if_pos (by omega),if_pos (by omega)]

theorem word32_take {file : List UInt8} {n p : Nat} (hp : p+4 ≤ (file.take n).length) :
    word32 (file.take n) p = word32 file p := by
  rw [word32,word32,word16_take (by omega),word16_take (by omega)]

/-- What is found in the first bytes of a file is found in the file. -/
theorem FmtBeforeData.of_take {file : List UInt8} {n fmt ptr : Nat} {seen : Option Nat}
    (h : FmtBeforeData (file.take n) fmt ptr seen) : FmtBeforeData file fmt ptr seen := by
  have hlen : (file.take n).length ≤ file.length := by simp
  induction h with
  | data hp hs => exact .data (hp.trans hlen) (word32_take hp ▸ hs)
  | fmt hp hs _ ih =>
    rw [word32_take (by omega)] at hs ih
    exact .fmt (hp.trans hlen) hs ih
  | fact hp hs _ ih =>
    rw [word32_take (by omega)] at hs ih
    exact .fact (hp.trans hlen) hs ih

theorem FmtBeforeData.ptr_inside {file : List UInt8} {fmt ptr : Nat} {seen : Option Nat}
    (h : FmtBeforeData file fmt ptr seen) : ptr+4 ≤ file.length := by
  cases h with
  | data hp _ => exact hp
  | fmt hp _ _ => omega
  | fact hp _ _ => omega

theorem riffWalk_fuel {width : Nat} {m : Mem} {fuel ptr : Nat} {seen : Option Nat} {e : RiffEnd}
    (he : riffWalk width m fuel ptr seen = some e) : ∃ k, fuel = k+1 := by
  cases fuel with
  | zero => cases he
  | succ k => exact ⟨k,rfl⟩

/-- The chunks that lie in the bytes read are there in memory. -/
theorem FmtBeforeData.inMemory {b : RiffBuff} {fmt ptr : Nat} {seen : Option Nat}
    (h : FmtBeforeData b.bytes fmt ptr seen) : FmtInMemory b.width b.mem fmt ptr seen := by
  have hread := b.read
  -- a chunk that is still inside was not reached over the end of the address space
  have hmod : ∀ a, a+4 ≤ b.bytes.length+12 → a % 2^b.width = a :=
    fun a ha => Nat.mod_eq_of_lt (b.lt_pow (by omega))
  induction h with
  | data hp hs => exact .data ((le32_inside hp).trans hs)
  | @fmt ptr seen hp hs hrest ih =>
    have hnext := hrest.ptr_inside
    refine .fmt ((le32_inside (by omega)).trans hs) ?_
    rwa [le32_inside (by omega),hmod _ (by omega),hmod _ (by omega)]
  | @fact ptr seen hp hs hrest ih =>
    have hnext := hrest.ptr_inside
    refine .fact ((le32_inside (by omega)).trans hs) ?_
    rwa [le32_inside (by omega),hmod _ (by omega)]

/-! The chunks in memory. -/

theorem FmtInMemory.of_walk {width : Nat} {m : Mem} {fuel ptr d fmt : Nat} {seen : Option Nat}
    (h : riffWalk width m fuel ptr seen = some (.data d (some fmt))) :
    FmtInMemory width m fmt ptr seen := by
  induction fuel generalizing ptr seen with
  | zero => cases h
  | succ fuel ih =>
    rw [riffWalk] at h
    split at h
    · exact .fmt ‹_› (ih h)
    · split at h
      · exact .fact ‹_› (ih h)
      · split at h
        · cases h
          exact .data ‹_›
        · cases h

theorem FmtInMemory.walk {width : Nat} {m : Mem} {fmt ptr : Nat} {seen : Option Nat}
    (h : FmtInMemory width m fmt ptr seen) {fuel : Nat} {e : RiffEnd}
    (he : riffWalk width m fuel ptr seen = some e) : ∃ d, e = .data d (some fmt) := by
  have hsig : riffData ≠ riffFmt ∧ riffData ≠ riffFact ∧ riffFact ≠ riffFmt := by decide
  induction h generalizing fuel with
  | @data ptr hs =>
    obtain ⟨fuel,rfl⟩ := riffWalk_fuel he
    rw [riffWalk,hs,if_neg hsig.1,if_neg hsig.2.1,if_pos rfl] at he
    cases he
    exact ⟨ptr,rfl⟩
  | fmt hs _ ih =>
    obtain ⟨fuel,rfl⟩ := riffWalk_fuel he
    rw [riffWalk,hs,if_pos rfl] at he
    exact ih he
  | fact hs _ ih =>
    obtain ⟨fuel,rfl⟩ := riffWalk_fuel he
    rw [riffWalk,hs,if_neg hsig.2.2,if_pos rfl] at he
    exact ih he

theorem FmtInMemory.unique {w : World} {bytes : List UInt8} {fmt fmt' : Nat}
    {verdict : Option RiffInfo} (h : FmtInMemory w.width (store w.stack 0 bytes) fmt 12 none)
    (hv : riffInfo w bytes = some verdict)
    (h' : FmtInMemory w.width (store w.stack 0 bytes) fmt' 12 none) : fmt = fmt' := by
  unfold riffInfo at hv
  cases hwalk : riffWalk w.width (store w.stack 0 bytes) w.fuel 12 none with
  | none => simp [hwalk] at hv
  | some e =>
    obtain ⟨d,rfl⟩ := h.walk hwalk
    obtain ⟨d',he⟩ := h'.walk hwalk
    cases he
    rfl

/-- What a call that returns takes over, in terms of the chunks in memory. -/
theorem riffInfo_memory {w : World} {bytes : List UInt8} {verdict : Option RiffInfo}
    (hv : riffInfo w bytes = some verdict) {fmt : Nat}
    (h : FmtInMemory w.width (store w.stack 0 bytes) fmt 12 none) :
    ∃ d, verdict =
      if le16 w.width (store w.stack 0 bytes) fmt = riffFmtPcm ∧
          sndFreq2rate (le32 w.width (store w.stack 0 bytes) (fmt+4)) ≠ .unknown then
        some ⟨sndFreq2rate (le32 w.width (store w.stack 0 bytes) (fmt+4)),
          le16 w.width (store w.stack 0 bytes) (fmt+2),d⟩
      else none := by
  unfold riffInfo at hv
  cases hwalk : riffWalk w.width (store w.stack 0 bytes) w.fuel 12 none with
  | none => simp [hwalk] at hv
  | some e =>
    obtain ⟨d,rfl⟩ := h.walk hwalk
    refine ⟨d % 2^32,?_⟩
    simp only [hwalk] at hv
    split_ifs at hv with hpcm hknown
    · simpa [hpcm,eq_comm] using hv
    · simpa [hpcm,hknown,eq_comm] using hv
    · simpa [not_not.mp hpcm,hknown,eq_comm] using hv

theorem riffInfo_found {w : World} {bytes : List UInt8} {info : RiffInfo}
    (hi : riffInfo w bytes = some (some info)) :
    ∃ fmt, FmtInMemory w.width (store w.stack 0 bytes) fmt 12 none := by
  unfold riffInfo at hi
  cases hwalk : riffWalk w.width (store w.stack 0 bytes) w.fuel 12 none with
  | none => simp [hwalk] at hi
  | some e =>
    cases e with
    | unknown => simp [hwalk] at hi
    | data ptr fmt =>
      cases fmt with
      | none => simp [hwalk] at hi
      | some fmt => exact ⟨fmt,.of_walk hwalk⟩

/-! The verdict. -/

theorem sndRate2freq_freq2rate {freq : Nat} (hk : sndFreq2rate freq ≠ .unknown) :
    sndRate2freq (sndFreq2rate freq) = freq % 2^16 := by
  unfold sndFreq2rate at *
  split at hk <;> first | exact absurd rfl hk | (rename_i heq; rw [heq]; rfl)

theorem riffInfo_inside {w : World} {bytes : List UInt8} (hread : bytes.length ≤ 128)
    (hw : 32 ≤ w.width) {fmt : Nat} (h : FmtBeforeData bytes fmt 12 none)
    (hin : fmt+16 ≤ bytes.length) {verdict : Option RiffInfo}
    (hv : riffInfo w bytes = some verdict) :
    ∃ d, verdict =
      if word16 bytes fmt = riffFmtPcm ∧ sndFreq2rate (word32 bytes (fmt+4)) ≠ .unknown then
        some ⟨sndFreq2rate (word32 bytes (fmt+4)),word16 bytes (fmt+2),d⟩
      else none := by
  let b : RiffBuff := ⟨bytes,w.stack,w.width,hread,hw⟩
  have hlen : b.bytes.length = bytes.length := rfl
  have hformat : le16 w.width (store w.stack 0 bytes) fmt = word16 bytes fmt :=
    le16_inside (b := b) (by omega)
  have hchannels : le16 w.width (store w.stack 0 bytes) (fmt+2) = word16 bytes (fmt+2) :=
    le16_inside (b := b) (by omega)
  have hrate : le32 w.width (store w.stack 0 bytes) (fmt+4) = word32 bytes (fmt+4) :=
    le32_inside (b := b) (by omega)
  obtain ⟨d,hverdict⟩ := riffInfo_memory hv (FmtBeforeData.inMemory (b := b) h)
  exact ⟨d,by rw [hverdict,hformat,hchannels,hrate]⟩

theorem fsSeek_same (handle : Int) (offset : Nat) (fs : Fs) :
    SameFile fs (fsSeek handle offset fs) := by
  unfold fsSeek hostFsSeek resSeek
  split
  · exact ⟨rfl,rfl,rfl,rfl,rfl⟩
  · dsimp only
    split
    · split
      · exact ⟨rfl,rfl,rfl,rfl,rfl⟩
      · split <;> exact ⟨rfl,rfl,rfl,rfl,rfl⟩
    · split <;> exact ⟨rfl,rfl,rfl,rfl,rfl⟩
    · exact ⟨rfl,rfl,rfl,rfl,rfl⟩

/-- The call leaves `fss` alone or takes over what was found. -/
theorem fsOpenRiff_fields {w : World} {name : Str} {fs fs' : Fs} {f : Found} (hh : fs.handle = -1)
    (hl : fs.lookup w.files name = some f) (hp : fsOpenRiff w name fs = some fs') :
    (riffInfo w (f.read w.riffFault 128) = some none ∧ SameFile fs fs') ∨
      ∃ info, riffInfo w (f.read w.riffFault 128) = some (some info) ∧ fs'.state = .opened ∧
        fs'.rate = info.rate ∧ fs'.channels = info.channels ∧ fs'.handle ≠ -1 := by
  obtain ⟨h,e,t,ho,hsame,-,heq⟩ := fsOpenRiff_eq hl
  obtain ⟨verdict,hinfo,rfl⟩ := Option.map_eq_some_iff.mp ((heq w.fuel).symm.trans hp)
  cases verdict with
  | none =>
    have hstop : fsStop t = t := fsStop_idle (hsame.handle.trans hh)
    exact .inl ⟨hinfo,by simpa only [Option.elim_none,hstop] using hsame⟩
  | some info =>
    have hseek := fsSeek_same h info.dataoff { t with
      rate := info.rate, channels := info.channels, type := .riff, state := .opened, handle := h }
    exact .inr ⟨info,hinfo,hseek.state,hseek.rate,hseek.channels,
      fun hbad => ho.inTable.ne_neg (hseek.handle.symm.trans hbad)⟩

theorem riffInfo_known {w : World} {bytes : List UInt8} {info : RiffInfo}
    (hi : riffInfo w bytes = some (some info)) :
    info.rate ≠ .unknown := by
  obtain ⟨fmt,hfmt⟩ := riffInfo_found hi
  obtain ⟨d,hverdict⟩ := riffInfo_memory hi hfmt
  split_ifs at hverdict with htaken
  cases hverdict
  exact htaken.2

theorem Found.read_file (f : Found) (fault : Option Nat) (size : Nat) :
    ∃ n ≤ size, f.read fault size = f.file.take n := by
  refine ⟨_,?_,rfl⟩
  split
  · exact Nat.min_le_left _ _
  · exact Nat.le_refl _

/-- With the header in the bytes read, what is taken over is what the file declares if the
two fields that are not looked at allow it. -/
theorem declares_inside {file : List UInt8} {n fmt : Nat}
    (h : FmtBeforeData (file.take n) fmt 12 none) (hin : fmt+16 ≤ (file.take n).length)
    (hpcm : word16 (file.take n) fmt = riffFmtPcm) :
    (∃ fmt', Declares file fmt' (word32 (file.take n) (fmt+4) % 2^16)
      (word16 (file.take n) (fmt+2))) ↔
      word16 (file.take n) (fmt+14) = 16 ∧ word32 (file.take n) (fmt+4) < 2^16 := by
  have hlen : (file.take n).length ≤ file.length := by simp
  have hchunk := h.of_take
  rw [word16_take (by omega)] at hpcm
  rw [word16_take (by omega),word16_take (by omega),word32_take (by omega)]
  constructor
  · rintro ⟨fmt',hdeclared⟩
    obtain rfl := hchunk.unique hdeclared.chunk
    refine ⟨hdeclared.bitspersample,?_⟩
    rw [hdeclared.samplerate]
    exact Nat.mod_lt _ (by decide)
  · rintro ⟨hbits,hlt⟩
    exact ⟨fmt,hchunk,hin.trans hlen,hpcm,hbits,(Nat.mod_eq_of_lt hlt).symm,rfl⟩

/-- A file is refused only if no header of a known format lies in the bytes read. -/
theorem headerHonest_refused {w : World} (hw : 32 ≤ w.width) {f : Found}
    (hinfo : riffInfo w (f.read w.riffFault 128) = some none) : HeaderHonest w f := by
  obtain ⟨n,hn,hread⟩ := f.read_file w.riffFault 128
  have hlen : (f.read w.riffFault 128).length ≤ 128 := hread ▸ (List.length_take_le _ _).trans hn
  refine ⟨fun fmt hchunk hin hpcm hknown => ?_,fun _ fmt hfmt hpcm hknown => ?_⟩
  · obtain ⟨d,hverdict⟩ := riffInfo_inside hlen hw hchunk hin hinfo
    rw [if_pos ⟨hpcm,hknown⟩] at hverdict
    cases hverdict
  · obtain ⟨d,hverdict⟩ := riffInfo_memory hinfo hfmt
    rw [if_pos ⟨hpcm,hknown⟩] at hverdict
    cases hverdict

/-- For a file that is accepted, the condition says that what was found is declared. -/
theorem headerHonest_accepted {w : World} (hw : 32 ≤ w.width) {f : Found} {info : RiffInfo}
    (hinfo : riffInfo w (f.read w.riffFault 128) = some (some info)) :
    (∃ fmt, Declares f.file fmt (sndRate2freq info.rate) info.channels) ↔ HeaderHonest w f := by
  obtain ⟨n,hn,hread⟩ := f.read_file w.riffFault 128
  have hlen : (f.file.take n).length ≤ 128 := (List.length_take_le _ _).trans hn
  by_cases hin : ∃ fmt, FmtBeforeData (f.file.take n) fmt 12 none ∧ fmt+16 ≤ (f.file.take n).length
  · obtain ⟨fmt,hchunk,hin⟩ := hin
    obtain ⟨d,hverdict⟩ := riffInfo_inside hlen hw hchunk hin (hread ▸ hinfo)
    split_ifs at hverdict with htaken
    cases hverdict
    rw [sndRate2freq_freq2rate htaken.2,declares_inside hchunk hin htaken.1]
    constructor
    · intro hfields
      refine ⟨fun fmt' hchunk' _ _ _ => ?_,fun hnone => ?_⟩
      · rw [hread] at *
        obtain rfl := hchunk.unique hchunk'
        exact hfields
      · rw [hread] at hnone
        exact absurd hin (Nat.not_le.mpr (hnone fmt hchunk))
    · rintro ⟨hfields,-⟩
      rw [hread] at hfields
      exact hfields fmt hchunk hin htaken.1 htaken.2
  · have hnone : ∀ fmt, FmtBeforeData (f.read w.riffFault 128) fmt 12 none →
        (f.read w.riffFault 128).length < fmt+16 := by
      rw [hread]
      exact fun fmt hchunk => Nat.not_le.mp fun hle => hin ⟨fmt,hchunk,hle⟩
    obtain ⟨fmt,hfmt⟩ := riffInfo_found hinfo
    obtain ⟨d,hverdict⟩ := riffInfo_memory hinfo hfmt
    split_ifs at hverdict with htaken
    cases hverdict
    rw [sndRate2freq_freq2rate htaken.2]
    constructor
    · rintro ⟨fmt',hdeclared⟩
      refine ⟨fun fmt hchunk hle => absurd hle (Nat.not_le.mpr (hnone fmt hchunk)),
        fun _ fmt1 hfmt1 _ _ => ?_⟩
      obtain rfl := hfmt.unique hinfo hfmt1
      exact ⟨fmt',hdeclared.chunk,hdeclared.inside,hdeclared.format.trans htaken.1.symm,
        hdeclared.channels,hdeclared.samplerate,hdeclared.bitspersample⟩
    · intro hhonest
      obtain ⟨fmt',hchunk,hsame⟩ := hhonest.behind hnone fmt hfmt htaken.1 htaken.2
      exact ⟨fmt',hchunk,hsame.inside,hsame.format.trans htaken.1,hsame.bitspersample,
        hsame.samplerate,hsame.channels⟩

/-- A call that returns is faithful exactly for an honest header. -/
theorem fsOpenRiff_faithful_iff (w : World) (hw : 32 ≤ w.width) (name : Str) (fs fs' : Fs)
    (hh : fs.handle = -1) (hp : fsOpenRiff w name fs = some fs') :
    RiffFaithful w name fs fs' ↔ ∀ f, fs.lookup w.files name = some f → HeaderHonest w f := by
  cases hl : fs.lookup w.files name with
  | none =>
    simp only [fsOpenRiff,fsOpen_none hl,if_true,fsStop_idle hh,Option.some.injEq] at hp
    subst hp
    exact iff_of_true (.inl ⟨rfl,rfl,rfl,rfl,rfl⟩) (by simp)
  | some f =>
    simp only [Option.some.injEq,forall_eq']
    obtain ⟨hinfo,hsame⟩ | ⟨info,hinfo,hstate,hrate,hchannels,hhandle⟩ := fsOpenRiff_fields hh hl hp
    · exact iff_of_true (.inl hsame) (headerHonest_refused hw hinfo)
    · rw [← headerHonest_accepted hw hinfo]
      constructor
      · rintro (hsame | ⟨g,fmt,hg,-,-,hdeclared⟩)
        · exact absurd (hsame.handle.trans hh) hhandle
        · cases hl.symm.trans hg
          exact ⟨fmt,hrate ▸ hchannels ▸ hdeclared⟩
      · rintro ⟨fmt,hdeclared⟩
        exact .inr ⟨f,fmt,hl,hstate,hrate ▸ riffInfo_known hinfo,by rwa [hrate,hchannels]⟩

/-- A mono file of 44 bytes with a sample rate of 8000 plus `high` times 65536. -/
def monoWave (high bits : UInt8) : List UInt8 :=
  [0x52,0x49,0x46,0x46,36,0,0,0,0x57,0x41,0x56,0x45,0x66,0x6d,0x74,0x20,16,0,0,0,1,0,1,0,0x40,0x1f,
    high,0,0x80,0x3e,0,0,2,0,bits,0,0x64,0x61,0x74,0x61,0,0,0,0]

def waveWorld (file : List UInt8) : World := ⟨fun _ => some file,none,none,fun _ => 0,32,2⟩

theorem fsOpenRiff_faithful_mono :
    ∃ fs', fsOpenRiff (waveWorld (monoWave 0 16)) [] (fsInit []) = some fs' ∧
      (RiffFaithful (waveWorld (monoWave 0 16)) [] (fsInit []) fs' ↔
        ∀ f, (fsInit []).lookup (waveWorld (monoWave 0 16)).files [] = some f →
          HeaderHonest (waveWorld (monoWave 0 16)) f) := by
  have hsome : (fsOpenRiff (waveWorld (monoWave 0 16)) [] (fsInit [])).isSome = true := by
    decide +kernel
  obtain ⟨fs',hp⟩ := Option.isSome_iff_exists.mp hsome
  exact ⟨fs',hp,fsOpenRiff_faithful_iff _ (by decide) [] _ fs' rfl hp⟩

theorem monoWave_chunk (high bits : UInt8) : FmtBeforeData (monoWave high bits) 20 12 none := by
  have hfmt : word32 (monoWave high bits) 12 = riffFmt := by simp [word32,word16,monoWave,riffFmt]
  have hsize : word32 (monoWave high bits) 16 = 16 := by simp [word32,word16,monoWave]
  have hdata : word32 (monoWave high bits) 36 = riffData := by
    simp [word32,word16,monoWave,riffData]
  refine .fmt (by simp [monoWave]) hfmt ?_
  rw [hsize]
  exact .data (by simp [monoWave]) hdata

theorem monoWave_declares {high bits : UInt8} {fmt samplerate channels : Nat}
    (hs : Declares (monoWave high bits) fmt samplerate channels) :
    bits = 16 ∧ samplerate = 8000+2^16*high.toNat := by
  obtain rfl := (monoWave_chunk high bits).unique hs.chunk
  have hbits := hs.bitspersample
  have hrate := hs.samplerate
  simp [word32,word16,monoWave] at hbits hrate
  exact ⟨UInt8.toNat_inj.mp hbits,hrate.symm⟩

theorem monoWave_unfaithful {high bits : UInt8} (hne : ¬ (bits = 16 ∧ high = 0))
    (hopened : (fsOpenRiff (waveWorld (monoWave high bits)) [] (fsInit [])).map Fs.handle =
      some 0) :
    ∃ fs', fsOpenRiff (waveWorld (monoWave high bits)) [] (fsInit []) = some fs' ∧
      ¬ RiffFaithful (waveWorld (monoWave high bits)) [] (fsInit []) fs' := by
  obtain ⟨fs',hp,hhandle⟩ := Option.map_eq_some_iff.mp hopened
  refine ⟨fs',hp,?_⟩
  rintro (hsame | ⟨f,fmt,hl,-,-,hdeclared⟩)
  · cases hhandle.symm.trans hsame.handle
  · cases hl
    obtain ⟨hbits,hrate⟩ := monoWave_declares hdeclared
    have hlt : sndRate2freq fs'.rate < 2^16 := by cases fs'.rate <;> decide
    exact hne ⟨hbits,UInt8.toNat_inj.mp (by simp; omega)⟩

/-- Eight bits per sample, and a rate of 73536 Hz taken for 8000. -/
theorem fsOpenRiff_unfaithful :
    (∃ fs', fsOpenRiff (waveWorld (monoWave 0 8)) [] (fsInit []) = some fs' ∧
      ¬ RiffFaithful (waveWorld (monoWave 0 8)) [] (fsInit []) fs') ∧
    ∃ fs', fsOpenRiff (waveWorld (monoWave 1 16)) [] (fsInit []) = some fs' ∧
      ¬ RiffFaithful (waveWorld (monoWave 1 16)) [] (fsInit []) fs' :=
  ⟨monoWave_unfaithful (by decide) (by decide +kernel),
    monoWave_unfaithful (by decide) (by decide +kernel)⟩

end Mardio
