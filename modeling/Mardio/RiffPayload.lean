import Mardio.Frames
import Mardio.HandleAccount

/-!
What playing a RIFF file hands to the sound device. The files are given by their
chunks, apart from the code that reads them. The offset the code seeks to is that
of the header of the data chunk, and it reads from there to the end of the file.
-/

set_option autoImplicit false

namespace Mardio
open ByteMem

def le16Bytes (n : Nat) : List UInt8 := [UInt8.ofNat (n % 256),UInt8.ofNat (n / 256 % 256)]

def le32Bytes (n : Nat) : List UInt8 := le16Bytes (n % 2^16) ++ le16Bytes (n / 2^16)

/-- Four bytes that name a chunk. -/
structure ChunkId where
  bytes : List UInt8
  four : bytes.length = 4
  deriving DecidableEq

theorem ChunkId.ext {a b : ChunkId} (h : a.bytes = b.bytes) : a = b := by
  cases a
  cases b
  cases h
  rfl

def ChunkId.fmt : ChunkId := ⟨[0x66,0x6d,0x74,0x20],rfl⟩
def ChunkId.fact : ChunkId := ⟨[0x66,0x61,0x63,0x74],rfl⟩
def ChunkId.data : ChunkId := ⟨[0x64,0x61,0x74,0x61],rfl⟩

structure Chunk where
  id : ChunkId
  body : List UInt8
  pad : UInt8

/-- A chunk of odd size is followed by a pad byte that its size does not count. -/
def Chunk.bytes (c : Chunk) : List UInt8 :=
  c.id.bytes ++ le32Bytes c.body.length ++ c.body ++ if c.body.length % 2 = 1 then [c.pad] else []

/-- The code has no case for the chunk, or does not step over its pad byte. -/
def Chunk.Stops (c : Chunk) : Prop := (c.id ≠ .fmt ∧ c.id ≠ .fact) ∨ c.body.length % 2 = 1

instance (c : Chunk) : Decidable c.Stops := inferInstanceAs (Decidable (_ ∨ _))

/-- No pad byte spells, with the three bytes behind it, one of the identifiers. A pad byte
of zero, which the format asks for, never does. -/
def PadsClear : List Chunk → Prop
  | [] => True
  | c :: cs => (c.body.length % 2 = 1 → ∀ id ∈ [ChunkId.fmt,ChunkId.fact,ChunkId.data],
      c.pad :: (cs.flatMap Chunk.bytes ++ ChunkId.data.bytes).take 3 ≠ id.bytes) ∧ PadsClear cs

structure WaveFmt where
  channels : Nat
  samplerate : Nat
  byterate : Nat
  blockalign : Nat
  extra : List UInt8

/-- PCM, 16 bits per sample. -/
def WaveFmt.body (f : WaveFmt) : List UInt8 :=
  le16Bytes 1 ++ le16Bytes f.channels ++ le32Bytes f.samplerate ++ le32Bytes f.byterate ++
    le16Bytes f.blockalign ++ le16Bytes 16 ++ f.extra

/-- A file with its format chunk, any chunks before and behind it, and the header of the
data chunk. `rest` is everything behind that header. -/
structure Wave where
  riffSize : Nat
  before : List Chunk
  fmt : WaveFmt
  pad : UInt8
  after : List Chunk
  dataSize : Nat
  rest : List UInt8

def Wave.chunks (f : Wave) : List Chunk := f.before ++ ⟨.fmt,f.fmt.body,f.pad⟩ :: f.after

def Wave.dataHeader (f : Wave) : List UInt8 := ChunkId.data.bytes ++ le32Bytes f.dataSize

def Wave.head (f : Wave) : List UInt8 :=
  [0x52,0x49,0x46,0x46] ++ le32Bytes f.riffSize ++ [0x57,0x41,0x56,0x45] ++
    f.chunks.flatMap Chunk.bytes

def Wave.bytes (f : Wave) : List UInt8 := f.head ++ f.dataHeader ++ f.rest

/-- As many bytes as the size says and the file holds. -/
def Wave.payload (f : Wave) : List UInt8 := f.rest.take f.dataSize

structure Wave.Supported (f : Wave) : Prop where
  channels : f.fmt.channels = 1 ∨ f.fmt.channels = 2
  rate : ∃ r, r ≠ .unknown ∧ f.fmt.samplerate = sndRate2freq r
  size : f.dataSize < 2^32
  inside : (f.head ++ f.dataHeader).length ≤ 128
  others : ∀ c ∈ f.before ++ f.after, c.id ≠ .fmt ∧ c.id ≠ .data
  pads : PadsClear f.chunks

/-- A chunk in front of the data chunk stops the walk. -/
def Wave.Refused (f : Wave) : Prop := ∃ c ∈ f.chunks, c.Stops

instance Wave.decidableRefused (f : Wave) : Decidable f.Refused :=
  inferInstanceAs (Decidable (∃ c ∈ f.chunks, c.Stops))

theorem le32Bytes_length (n : Nat) : (le32Bytes n).length = 4 := rfl

theorem le16_window {width a n : Nat} {m : Mem} (hw : a+1 < 2^width) (hn : n < 2^16)
    (h : window m a 2 = le16Bytes n) : le16 width m a = n := by
  simp only [window,le16Bytes,List.range_succ,List.range_zero,List.nil_append,List.cons_append,
    List.map_cons,List.map_nil,List.cons.injEq,and_true,Nat.add_zero] at h
  simp only [le16,Nat.mod_eq_of_lt hw,Nat.mod_eq_of_lt (Nat.lt_of_succ_lt hw),h.1,h.2,
    UInt8.toNat_ofNat']
  omega

theorem le32_window {width a n : Nat} {m : Mem} (hw : a+3 < 2^width) (hn : n < 2^32)
    (h : window m a 4 = le32Bytes n) : le32 width m a = n := by
  rw [window_add m a 2 2] at h
  obtain ⟨hlo,hhi⟩ := List.append_inj h (by simp [le16Bytes])
  rw [le32,le16_window (by omega) (by omega) hlo,le16_window (by omega) (by omega) hhi]
  omega

theorem window_total {m : Mem} {a n : Nat} {xs ys : List UInt8} (h : window m a n = xs ++ ys) :
    xs.length+ys.length = n := by
  simpa using (congrArg List.length h).symm

theorem window_append {m : Mem} {a n : Nat} {xs ys : List UInt8} (h : window m a n = xs ++ ys) :
    window m a xs.length = xs ∧ window m (a+xs.length) ys.length = ys := by
  have hn := window_total h
  rw [← hn,window_add] at h
  exact List.append_inj h (by simp)

/-- A number read says which four bytes are there. -/
theorem window_le32 {width a : Nat} (m : Mem) (hw : a+3 < 2^width) :
    window m a 4 = le32Bytes (le32 width m a) := by
  have hlt : ∀ k ≤ 3, (a+k) % 2^width = a+k := fun k hk => Nat.mod_eq_of_lt (by omega)
  have h0 := (m a).toNat_lt
  have h1 := (m (a+1)).toNat_lt
  have h2 := (m (a+2)).toNat_lt
  have h3 := (m (a+3)).toNat_lt
  have hval : le32 width m a = (m a).toNat+256*(m
      (a+1)).toNat+2^16*((m (a+2)).toNat+256*(m (a+3)).toNat) := by
    have e0 := hlt 0 (by omega)
    rw [Nat.add_zero] at e0
    simp only [le32,le16,Nat.add_assoc,e0,hlt 1 (by omega),hlt 2 (by omega),hlt 3 (by omega),
      Nat.reduceAdd]
  have hbyte : ∀ (b : UInt8) (n : Nat), n = b.toNat → UInt8.ofNat n = b := by
    rintro b n rfl
    exact UInt8.ofNat_toNat
  simp only [window,le32Bytes,le16Bytes,List.range_succ,List.range_zero,List.nil_append,
    List.cons_append,List.map_cons,List.map_nil,Nat.add_zero]
  rw [hbyte (m a) _ (by omega),hbyte (m (a+1)) _ (by omega),hbyte (m (a+2)) _ (by omega),
    hbyte (m (a+3)) _ (by omega)]

theorem le32_id {width a : Nat} {m : Mem} (hw : a+3 < 2^width) {id : ChunkId} {n : Nat}
    (hn : n < 2^32) (hid : id.bytes = le32Bytes n) (h : window m a 4 = id.bytes) :
    le32 width m a = n :=
  le32_window hw hn (h.trans hid)

/-- The format the walk has found when it comes to the data chunk. -/
def lastFmt : Nat → List Chunk → Option Nat → Option Nat
  | _, [], fmt => fmt
  | a, c :: cs, fmt => lastFmt (a+c.bytes.length) cs (if c.id = .fmt then some (a+8) else fmt)

theorem Chunk.bytes_even {c : Chunk} (h : c.body.length % 2 = 0) :
    c.bytes = c.id.bytes ++ le32Bytes c.body.length ++ c.body := by
  simp [Chunk.bytes,h]

theorem Chunk.front_length (c : Chunk) :
    (c.id.bytes ++ le32Bytes c.body.length ++ c.body).length = 8+c.body.length := by
  simp [c.id.four,le32Bytes_length]
  omega

theorem Chunk.bytes_odd {c : Chunk} (h : c.body.length % 2 = 1) :
    c.bytes = c.id.bytes ++ le32Bytes c.body.length ++ c.body ++ [c.pad] := by
  simp [Chunk.bytes,h]

theorem Chunk.not_stops {c : Chunk} (h : ¬ c.Stops) :
    (c.id = .fmt ∨ c.id = .fact) ∧ c.body.length % 2 = 0 := by
  simp only [Chunk.Stops,not_or,not_and_or,not_not] at h
  exact ⟨h.1,by omega⟩

/-- The four bytes from a pad byte on. -/
theorem pad_window {m : Mem} {a n : Nat} {pad : UInt8} {xs rest : List UInt8} (hx : 3 ≤ xs.length)
    (h : window m a n = [pad] ++ (xs ++ rest)) : pad :: xs.take 3 = window m a 4 := by
  have hn := window_total h
  rw [List.length_append,List.length_singleton] at hn
  obtain ⟨k,rfl⟩ : ∃ k, n = 4+k := ⟨n-4,by omega⟩
  rw [window_add] at h
  have htake := congrArg (List.take 4) h
  rw [List.take_left' (window_length m a 4)] at htake
  simp [htake,List.take_append_of_le_length hx]

/-- Signature and size of a chunk as the walk reads them. -/
theorem chunk_header (width : Nat) {a n : Nat} {m : Mem} {c : Chunk} {rest : List UInt8}
    (h : window m a n = c.bytes ++ rest) (hw : a+7 < 2^width) (hl : c.body.length < 2^32) :
    window m a 4 = c.id.bytes ∧ le32 width m (a+4) = c.body.length := by
  simp only [Chunk.bytes,List.append_assoc] at h
  obtain ⟨hid,hrest⟩ := window_append h
  obtain ⟨hsize,-⟩ := window_append hrest
  rw [c.id.four] at hid hsize
  exact ⟨hid,le32_window (by omega) hl hsize⟩

section
variable {width : Nat} {m : Mem} (hwidth : 32 ≤ width)
include hwidth

theorem address_lt {a : Nat} (h : a ≤ 2^10) : a < 2^width :=
  Nat.lt_of_lt_of_le (by omega) (Nat.pow_le_pow_right (by decide) hwidth)

/-- One turn of the walk at a chunk: on by the size in its header, without the pad
byte. -/
theorem riffWalk_chunk {a n : Nat} {c : Chunk} {rest : List UInt8}
    (h : window m a n = c.bytes ++ rest) (hn : a+n ≤ 128) (hk : c.id = .fmt ∨ c.id = .fact)
    (fuel : Nat) (fmt : Option Nat) :
    riffWalk width m (fuel+1) a fmt =
      riffWalk width m fuel (a+8+c.body.length) (if c.id = .fmt then some (a+8) else fmt) := by
  have hlen := window_total h
  have hbody : 8+c.body.length ≤ c.bytes.length := by
    simp [Chunk.bytes,c.id.four,le32Bytes_length]
    omega
  have hlt : ∀ b ≤ 256, b < 2^width := fun b hb => address_lt hwidth (by omega)
  obtain ⟨hid,hsize⟩ := chunk_header width h (hlt _ (by omega)) (by omega)
  have hnext : (a+c.body.length+8) % 2^width = a+8+c.body.length := by
    rw [Nat.mod_eq_of_lt (hlt _ (by omega))]
    omega
  have hfmt : (a+8) % 2^width = a+8 := Nat.mod_eq_of_lt (hlt _ (by omega))
  obtain hc | hc := hk
  · rw [hc] at hid
    simp only [riffWalk,hsize,hnext,hfmt,
      le32_id (n := riffFmt) (hlt _ (by omega)) (by decide) rfl hid,hc,if_true]
  · rw [hc] at hid
    have hsig := le32_id (n := riffFact) (hlt _ (by omega)) (by decide) rfl hid
    have hne : riffFact ≠ riffFmt ∧ ChunkId.fact ≠ .fmt := by decide
    simp [riffWalk,hsize,hnext,hsig,hc,hne]

theorem riffWalk_data {a n : Nat} {rest : List UInt8}
    (h : window m a n = ChunkId.data.bytes ++ rest) (hn : a+n ≤ 128) (fuel : Nat)
    (fmt : Option Nat) : riffWalk width m (fuel+1) a fmt = some (.data a fmt) := by
  have hsig := le32_id (n := riffData) (address_lt hwidth (by omega)) (by decide) rfl
    (window_append h).1
  have hne : riffData ≠ riffFmt ∧ riffData ≠ riffFact := by decide
  simp [riffWalk,hsig,hne]

/-- Four bytes that are none of the identifiers end the walk. -/
theorem riffWalk_strange {a : Nat} (ha : a ≤ 2^9)
    (hid : ∀ id ∈ [ChunkId.fmt,ChunkId.fact,ChunkId.data], window m a 4 ≠ id.bytes) (fuel : Nat)
    (fmt : Option Nat) :
    riffWalk width m (fuel+1) a fmt = some .unknown := by
  have hread := window_le32 m (address_lt hwidth (show a+3 ≤ 2^10 by omega))
  rw [hread] at hid
  have hfmt : le32 width m a ≠ riffFmt := fun he => hid .fmt (by simp) (by rw [he]; rfl)
  have hfact : le32 width m a ≠ riffFact := fun he => hid .fact (by simp) (by rw [he]; rfl)
  have hdata : le32 width m a ≠ riffData := fun he => hid .data (by simp) (by rw [he]; rfl)
  simp [riffWalk,hfmt,hfact,hdata]

/-- If no chunk stops it, the walk ends at the header of the data chunk. -/
theorem riffWalk_reaches {cs : List Chunk} {a n fuel : Nat} {rest : List UInt8} {fmt : Option Nat}
    (h : window m a n = cs.flatMap Chunk.bytes ++ (ChunkId.data.bytes ++ rest)) (hn : a+n ≤ 128)
    (hgo : ∀ c ∈ cs, ¬ c.Stops) (hf : cs.length < fuel) :
    riffWalk width m fuel a fmt =
      some (.data (a+(cs.flatMap Chunk.bytes).length) (lastFmt a cs fmt)) := by
  induction cs generalizing a n fuel fmt with
  | nil =>
    obtain ⟨fuel,rfl⟩ : ∃ k, fuel = k+1 := ⟨fuel-1,by omega⟩
    exact riffWalk_data hwidth (by simpa using h) hn fuel fmt
  | cons c cs ih =>
    obtain ⟨fuel,rfl⟩ : ∃ k, fuel = k+1 := ⟨fuel-1,by omega⟩
    rw [List.flatMap_cons,List.append_assoc] at h
    obtain ⟨hk,heven⟩ := Chunk.not_stops (hgo c (by simp))
    have hbytes : c.bytes.length = 8+c.body.length := by rw [Chunk.bytes_even heven,c.front_length]
    have hlen := window_total h
    have ha : a+8+c.body.length = a+c.bytes.length := by omega
    rw [riffWalk_chunk hwidth h hn hk,ha,ih (window_append h).2 (by omega)
      (fun x hx => hgo x (by simp [hx])) (by simpa using hf)]
    simp [lastFmt,Nat.add_assoc]

/-- Behind a size that is odd the walk goes on at the pad byte and finds nothing it
knows. -/
theorem riffWalk_pad {c : Chunk} {a n : Nat} {xs rest : List UInt8}
    (h : window m a n = c.bytes ++ (xs ++ rest)) (hn : a+n ≤ 128) (hk : c.id = .fmt ∨ c.id = .fact)
    (hodd : c.body.length % 2 = 1) (hx : 3 ≤ xs.length)
    (hclear : ∀ id ∈ [ChunkId.fmt,ChunkId.fact,ChunkId.data], c.pad :: xs.take 3 ≠ id.bytes)
    (fuel : Nat) (fmt : Option Nat) : riffWalk width m (fuel+2) a fmt = some .unknown := by
  have hlen := window_total h
  rw [riffWalk_chunk hwidth h hn hk]
  rw [Chunk.bytes_odd hodd,List.append_assoc] at h
  have hpad := (window_append h).2
  rw [c.front_length,← Nat.add_assoc] at hpad
  have hbody : c.body.length ≤ n := by
    simp [Chunk.bytes_odd hodd] at hlen
    omega
  refine riffWalk_strange hwidth (by omega) (fun id hid hw => hclear id hid ?_) fuel _
  rw [← hw]
  exact pad_window hx hpad

theorem riffWalk_foreign {c : Chunk} {a n : Nat} {rest : List UInt8}
    (h : window m a n = c.bytes ++ rest) (hn : a+n ≤ 128)
    (hid : c.id ≠ .fmt ∧ c.id ≠ .fact ∧ c.id ≠ .data) (fuel : Nat) (fmt : Option Nat) :
    riffWalk width m (fuel+1) a fmt = some .unknown := by
  have hlen := window_total h
  have hbody : c.body.length < 2^32 := by
    simp [Chunk.bytes] at hlen
    omega
  have hbytes : window m a 4 = c.id.bytes :=
    (chunk_header width h (address_lt hwidth (by omega)) hbody).1
  refine riffWalk_strange hwidth (by omega) (fun id hmem hw => ?_) fuel fmt
  have hsame : c.id = id := ChunkId.ext (hbytes.symm.trans hw)
  simp only [List.mem_cons,List.not_mem_nil,or_false] at hmem
  obtain rfl | rfl | rfl := hmem
  · exact hid.1 hsame
  · exact hid.2.1 hsame
  · exact hid.2.2 hsame

/-- In front of the data the walk ends at a chunk it does not know, or behind one with an
odd size. -/
theorem riffWalk_stopped {cs : List Chunk} {a n fuel : Nat} {rest : List UInt8} {fmt : Option Nat}
    (h : window m a n = cs.flatMap Chunk.bytes ++ (ChunkId.data.bytes ++ rest)) (hn : a+n ≤ 128)
    (hdata : ∀ c ∈ cs, c.id ≠ .data) (hpads : PadsClear cs) (hstop : ∃ c ∈ cs, c.Stops)
    (hf : cs.length < fuel) :
    riffWalk width m fuel a fmt = some .unknown := by
  induction cs generalizing a n fuel fmt with
  | nil => simp at hstop
  | cons c cs ih =>
    obtain ⟨fuel,rfl⟩ : ∃ k, fuel = k+1 := ⟨fuel-1,by omega⟩
    rw [List.flatMap_cons,List.append_assoc] at h
    by_cases hk : c.id = .fmt ∨ c.id = .fact
    · by_cases hodd : c.body.length % 2 = 1
      · obtain ⟨fuel,rfl⟩ : ∃ k, fuel = k+1 := ⟨fuel-1,by simp at hf; omega⟩
        rw [← List.append_assoc (cs.flatMap Chunk.bytes)] at h
        exact riffWalk_pad hwidth h hn hk hodd (by simp [ChunkId.four]) (hpads.1 hodd) fuel fmt
      · have hlen := window_total h
        have hbytes : c.bytes.length = 8+c.body.length := by
          rw [Chunk.bytes_even (by omega),c.front_length]
        have ha : a+8+c.body.length = a+c.bytes.length := by omega
        rw [riffWalk_chunk hwidth h hn hk,ha]
        refine ih (window_append h).2 (by omega) (fun x hx => hdata x (by simp [hx])) hpads.2 ?_
          (by simpa using hf)
        obtain ⟨x,hx,hxs⟩ := hstop
        obtain rfl | hx := List.mem_cons.mp hx
        · obtain hno | hodd' := hxs
          · exact absurd hk (by simp [hno])
          · exact absurd hodd' hodd
        · exact ⟨x,hx,hxs⟩
    · rw [not_or] at hk
      exact riffWalk_foreign hwidth h hn ⟨hk.1,hk.2,hdata c List.mem_cons_self⟩ fuel fmt

end

theorem lastFmt_others {cs : List Chunk} (h : ∀ c ∈ cs, c.id ≠ .fmt) (a : Nat) (fmt : Option Nat) :
    lastFmt a cs fmt = fmt := by
  induction cs generalizing a fmt with
  | nil => rfl
  | cons c cs ih => rw [lastFmt,if_neg (h c (by simp)),ih (fun x hx => h x (by simp [hx]))]

theorem lastFmt_single {xs ys : List Chunk} {c : Chunk} (hc : c.id = .fmt)
    (hy : ∀ y ∈ ys, y.id ≠ .fmt) (a : Nat) (fmt : Option Nat) :
    lastFmt a (xs ++ c :: ys) fmt = some (a+(xs.flatMap Chunk.bytes).length+8) := by
  induction xs generalizing a fmt with
  | nil => simp [lastFmt,hc,lastFmt_others hy]
  | cons x xs ih => simp [lastFmt,ih,Nat.add_assoc]

theorem sndFreq2rate_supported {r : SoundRate} (h : r ≠ .unknown) :
    sndFreq2rate (sndRate2freq r) = r := by
  cases r <;> first | exact absurd rfl h | rfl

theorem sndRate2freq_lt (r : SoundRate) : sndRate2freq r < 2^32 := by
  cases r <;> decide

theorem Wave.chunks_eq (f : Wave) : f.chunks = f.before ++ ⟨.fmt,f.fmt.body,f.pad⟩ :: f.after := rfl

theorem Wave.head_length (f : Wave) : f.head.length = 12+(f.chunks.flatMap Chunk.bytes).length := by
  simp [Wave.head,le32Bytes_length]
  omega

/-- The buffer of `fs_open_riff` from the first chunk on. -/
theorem Wave.buffered (f : Wave) (hs : f.Supported) (m : Mem) :
    ∃ n rest, 12+n ≤ 128 ∧ window (store m 0 (f.bytes.take 128)) 12 n =
      f.chunks.flatMap Chunk.bytes ++ (ChunkId.data.bytes ++ rest) := by
  have hin := hs.inside
  let front : List UInt8 := [0x52,0x49,0x46,0x46] ++ le32Bytes f.riffSize ++ [0x57,0x41,0x56,0x45]
  let rest := le32Bytes f.dataSize ++ f.rest.take (128-(f.head ++ f.dataHeader).length)
  have htake : f.bytes.take 128 = front ++
      (f.chunks.flatMap Chunk.bytes ++ (ChunkId.data.bytes ++ rest)) := by
    rw [Wave.bytes,List.take_append,List.take_of_length_le hin]
    simp [front,rest,Wave.head,Wave.dataHeader]
  have hwin := store_window m 0 (f.bytes.take 128)
  rw [htake] at hwin ⊢
  have hlen : (front ++ (f.chunks.flatMap Chunk.bytes ++ (ChunkId.data.bytes ++ rest))).length ≤
      128 := by
    rw [← htake]
    simp
  rw [List.length_append] at hlen
  exact ⟨(f.chunks.flatMap Chunk.bytes ++ (ChunkId.data.bytes ++ rest)).length,rest,hlen,
    (window_append hwin).2⟩

theorem Wave.Supported.no_data {f : Wave} (hs : f.Supported) : ∀ c ∈ f.chunks, c.id ≠ .data := by
  intro c hc
  obtain hb | rfl | ha : c ∈ f.before ∨ c = ⟨.fmt,f.fmt.body,f.pad⟩ ∨ c ∈ f.after := by
    simpa [Wave.chunks] using hc
  · exact (hs.others c (by simp [hb])).2
  · exact show ChunkId.fmt ≠ .data by decide
  · exact (hs.others c (by simp [ha])).2

theorem riffInfo_refused {f : Wave} (hs : f.Supported) {w : World} (hw : 32 ≤ w.width)
    (hf : f.chunks.length < w.fuel) (hr : f.Refused) :
    riffInfo w (f.bytes.take 128) = some none := by
  obtain ⟨n,rest,hn,hwin⟩ := f.buffered hs w.stack
  simp only [riffInfo,riffWalk_stopped hw hwin hn hs.no_data hs.pads hr hf]

/-- The fields of the format chunk as the code reads them. -/
theorem Wave.format_read {f : Wave} (hs : f.Supported) {width a n : Nat} {m : Mem}
    {rest : List UInt8} (hw : 32 ≤ width) (h : window m a n = f.fmt.body ++ rest) (ha : a ≤ 128) :
    le16 width m a = riffFmtPcm ∧ le16 width m (a+2) = f.fmt.channels ∧
      le32 width m (a+4) = f.fmt.samplerate := by
  obtain ⟨r,-,hrate⟩ := hs.rate
  have hch : f.fmt.channels < 2^16 := by
    obtain hc | hc := hs.channels <;> omega
  have hlt : ∀ b ≤ 2^10, b < 2^width := fun b hb => address_lt hw hb
  simp only [WaveFmt.body,List.append_assoc] at h
  obtain ⟨h0,h⟩ := window_append h
  obtain ⟨h2,h⟩ := window_append h
  obtain ⟨h4,-⟩ := window_append h
  exact ⟨le16_window (hlt _ (by omega)) (by decide) h0,le16_window (hlt _ (by omega)) hch h2,
    le32_window (hlt _ (by omega)) (hrate ▸ sndRate2freq_lt r) h4⟩

theorem Wave.Supported.known {f : Wave} (hs : f.Supported) :
    sndFreq2rate f.fmt.samplerate ≠ .unknown := by
  obtain ⟨r,hr,hrate⟩ := hs.rate
  rw [hrate,sndFreq2rate_supported hr]
  exact hr

theorem riffInfo_reached {f : Wave} (hs : f.Supported) {w : World} (hw : 32 ≤ w.width)
    (hf : f.chunks.length < w.fuel) (hr : ¬ f.Refused) :
    riffInfo w (f.bytes.take 128) =
      some (some ⟨sndFreq2rate f.fmt.samplerate,f.fmt.channels,f.head.length⟩) := by
  obtain ⟨n,rest,hn,hwin⟩ := f.buffered hs w.stack
  have hgo : ∀ c ∈ f.chunks, ¬ c.Stops := fun c hc hstop => hr ⟨c,hc,hstop⟩
  have hwalk : riffWalk _ _ _ _ none = _ := riffWalk_reaches hw hwin hn hgo hf
  have hfmts : ∀ y ∈ f.after, y.id ≠ .fmt := fun y hy => (hs.others y (by simp [hy])).1
  rw [f.chunks_eq,lastFmt_single rfl hfmts,← f.chunks_eq,← f.head_length] at hwalk
  -- the body of the format chunk is at the address that the walk kept
  have hat := hwin
  rw [f.chunks_eq,List.flatMap_append,List.flatMap_cons,List.append_assoc,List.append_assoc] at hat
  have hfmt := (window_append hat).2
  simp only [Chunk.bytes,List.append_assoc] at hfmt
  have hbody := (window_append (window_append hfmt).2).2
  have hpos : 12+(f.before.flatMap Chunk.bytes).length+8 ≤ 128 := by
    have hlen' := congrArg List.length hat
    have hmin : 8 ≤ (⟨.fmt,f.fmt.body,f.pad⟩ : Chunk).bytes.length := by
      simp only [Chunk.bytes,List.length_append,ChunkId.four,le32Bytes_length]
      omega
    rw [window_length,List.length_append,List.length_append] at hlen'
    omega
  rw [ChunkId.four,le32Bytes_length,Nat.add_assoc _ 4 4] at hbody
  obtain ⟨hpcm,hch,hrate⟩ := Wave.format_read hs hw hbody hpos
  have hoff : f.head.length % 2^32 = f.head.length := by
    have hin := hs.inside
    rw [List.length_append] at hin
    exact Nat.mod_eq_of_lt (by omega)
  simp only [riffInfo,hwalk,hpcm,hch,hrate,hoff,ne_eq,not_true_eq_false,if_false,hs.known]

/-- The data that one poll adds to the output ring. -/
def riffPushed (fs : Fs) (io : Io) : List UInt8 :=
  if oFree io = 0 then []
  else
    let out := (fsPollRiff none fs io).2.output (oPush io).1
    out.data.take out.used

/-- Successive polls, each with the rings as it finds them: everything pushed, and
the file layer afterwards. -/
def riffPolls : List Io → Fs → List UInt8 × Fs
  | [], fs => ([],fs)
  | io :: ios, fs =>
      let r := riffPolls ios (fsPollRiff none fs io).1
      (riffPushed fs io ++ r.1,r.2)

theorem oPush_output (io : Io) : (oPush io).2.output (oPush io).1 = ioOutputResetBuffer := by
  simp [oPush,pushSlot]

theorem fsPollRiff_idle {fs : Fs} (h : fs.handle = -1) (io : Io) :
    (fsPollRiff none fs io).1 = fs ∧ riffPushed fs io = [] := by
  have hread : ∀ size, fsRead none fs.handle size fs = (none,fs) := fun size => by
    simp [fsRead,h,badHandle]
  by_cases hf : oFree io = 0
  · simp [fsPollRiff,riffPushed,hf]
  · simp only [fsPollRiff,riffPushed,if_neg hf,hread,fsStop_idle h,oPush_output]
    exact ⟨trivial,rfl⟩

theorem riffPolls_idle {fs : Fs} (h : fs.handle = -1) (ios : List Io) :
    riffPolls ios fs = ([],fs) := by
  induction ios with
  | nil => rfl
  | cons io ios ih =>
    obtain ⟨hfs,hp⟩ := fsPollRiff_idle h io
    simp [riffPolls,hfs,hp,ih]

/-- A poll of an open file: nothing without a free slot, the next bytes of the
file, or the end. -/
theorem fsPollRiff_open {fs : Fs} {f : Found} (hi : FileInv (fun _ => True) fs)
    (hh : fs.handle ≠ -1) (hv : fs.view fs.handle = some f) (io : Io) :
    (oFree io = 0 ∧ (fsPollRiff none fs io).1 = fs ∧ riffPushed fs io = []) ∨
      (oFree io ≠ 0 ∧ f.unread = 0 ∧ (fsPollRiff none fs io).1.handle = -1 ∧
        riffPushed fs io = []) ∨
      (oFree io ≠ 0 ∧ 0 < f.unread ∧ FileInv (fun _ => True) (fsPollRiff none fs io).1 ∧
        (fsPollRiff none fs io).1.handle ≠ -1 ∧
        (fsPollRiff none fs io).1.view (fsPollRiff none fs io).1.handle =
          some (f.after ioOutputBufferSize) ∧
        riffPushed fs io = f.read none ioOutputBufferSize) := by
  by_cases hf : oFree io = 0
  · exact .inl ⟨hf,by simp [fsPollRiff,hf],by simp [riffPushed,hf]⟩
  right
  obtain ⟨t,hr,ht,hs,hview⟩ := hi.read hh hv none (by decide : 0 < ioOutputBufferSize)
  have hl := f.read_none_length ioOutputBufferSize
  cases hb : f.read none ioOutputBufferSize with
  | nil =>
    have hpoll : fsPollRiff none fs io = (fsStop t,(oPush io).2) := by
      simp only [fsPollRiff,if_neg hf,oPush_output]
      simp only [ioOutputResetBuffer,hr,hb]
    refine .inl ⟨hf,(Found.read_nil (by decide)).mp hb,by rw [hpoll]; exact ht.stop.1,?_⟩
    rw [riffPushed,if_neg hf,hpoll]
    simp [oPush_output,ioOutputResetBuffer]
  | cons a as =>
    have hpoll : fsPollRiff none fs io = (t,io.emit
        ⟨a :: as,ioOutputBufferSize,(a :: as).length % 2^16,t.rate,t.channels⟩) := by
      simp only [fsPollRiff,if_neg hf,oPush_output]
      simp only [ioOutputResetBuffer,hr,hb]
      rfl
    rw [hb] at hl hview
    have hlt : (a :: as).length < 2^16 := by
      rw [hl]
      simp only [ioOutputBufferSize]
      omega
    refine .inr ⟨hf,Found.unread_pos hb,by rw [hpoll]; exact ht,by rw [hpoll]; exact hs.handle ▸ hh,
      ?_,?_⟩
    · rw [hpoll,hview,hl]
      rfl
    · rw [riffPushed,if_neg hf,hpoll]
      simp only [Io.emit,setOutput,Function.update_self,Nat.mod_eq_of_lt hlt,List.take_length]

/-- What a read delivers and what it leaves. -/
theorem Found.read_rest (f : Found) (size : Nat) :
    f.read none size ++ (f.after size).content.drop (f.after size).pos = f.content.drop f.pos := by
  rw [Found.read_none]
  simp only [Found.after,Found.unread]
  by_cases h : size ≤ f.content.length-f.pos
  · rw [Nat.min_eq_left h,← List.drop_drop,List.take_append_drop]
  · have hnil : f.content.drop (f.pos+min size (f.content.length-f.pos)) = [] :=
      List.drop_eq_nil_of_le (by omega)
    rw [hnil,List.append_nil,List.take_of_length_le]
    rw [List.length_drop]
    omega

/-- When the file has been stopped, everything from its position on was pushed. -/
theorem riffPolls_pushed {fs : Fs} {f : Found} (ios : List Io) (hi : FileInv (fun _ => True) fs)
    (hh : fs.handle ≠ -1) (hv : fs.view fs.handle = some f)
    (hend : (riffPolls ios fs).2.handle = -1) :
    (riffPolls ios fs).1 = f.content.drop f.pos := by
  induction ios generalizing fs f with
  | nil => exact absurd hend hh
  | cons io ios ih =>
    simp only [riffPolls] at hend ⊢
    obtain ⟨_,hfs,hp⟩ | ⟨_,hu,hstop,hp⟩ | ⟨_,hu,hi',hh',hv',hp⟩ := fsPollRiff_open hi hh hv io
    · rw [hfs] at hend ⊢
      rw [hp,ih hi hh hv hend,List.nil_append]
    · rw [hp,riffPolls_idle hstop,List.append_nil,List.drop_eq_nil_of_le]
      simpa [Found.unread] using Nat.le_of_sub_eq_zero hu
    · rw [hp,ih hi' hh' hv' hend]
      exact f.read_rest ioOutputBufferSize

theorem riffPolls_ends {fs : Fs} {f : Found} (hi : FileInv (fun _ => True) fs) (hh : fs.handle ≠ -1)
    (hv : fs.view fs.handle = some f) : ∃ ios, (riffPolls ios fs).2.handle = -1 := by
  induction hn : f.unread using Nat.strongRecOn generalizing fs f with
  | ind n ih =>
    have hfree : oFree (ioInit Io.zero) ≠ 0 := by decide
    obtain ⟨hf,_⟩ | ⟨_,_,hstop,_⟩ | ⟨_,hu,hi',hh',hv',_⟩ :=
      fsPollRiff_open hi hh hv (ioInit Io.zero)
    · exact absurd hf hfree
    · exact ⟨[ioInit Io.zero],hstop⟩
    · have hless : (f.after ioOutputBufferSize).unread < n := by
        rw [Found.after_unread]
        simp only [ioOutputBufferSize]
        omega
      obtain ⟨ios,hend⟩ := ih _ hless hi' hh' hv' rfl
      exact ⟨ioInit Io.zero :: ios,hend⟩

theorem Wave.payload_shorter (f : Wave) : f.payload.length < (f.dataHeader ++ f.rest).length := by
  simp [Wave.payload,Wave.dataHeader,ChunkId.four,le32Bytes_length]
  omega

/-- What is played is the payload for no file that is accepted: the header of the
data chunk is played in front of it. A file with a chunk that the code does not know, or
one of odd size, is refused, and then nothing is played. -/
theorem riff_payload_iff {wf : Wave} (hs : wf.Supported) {w : World} (hw : 32 ≤ w.width)
    (hf : wf.chunks.length < w.fuel) (hfault : w.riffFault = none) {fs : Fs}
    (hidle : fs.handle = -1) {name : Str} {f : Found} (hl : fs.lookup w.files name = some f)
    (hpos : f.pos = 0) (hc : f.content = wf.bytes) :
    ∃ fs', fsOpenRiff w name fs = some fs' ∧ (∃ ios, (riffPolls ios fs').2.handle = -1) ∧
      ∀ ios, (riffPolls ios fs').2.handle = -1 →
        ((riffPolls ios fs').1 = wf.payload ↔ wf.Refused ∧ wf.payload = []) := by
  have hread : f.read w.riffFault 128 = wf.bytes.take 128 := by
    rw [hfault,Found.read_none,hpos,hc,List.drop_zero]
  by_cases hr : wf.Refused
  · have hinfo := riffInfo_refused hs hw hf hr
    rw [← hread] at hinfo
    obtain ⟨fs',hopen⟩ := (fsOpenRiff_returns_iff hl).mpr (by simp [hinfo])
    obtain ⟨_,hsame,_⟩ | ⟨info,hinfo',_⟩ := fsOpenRiff_outcome hidle hl hpos hopen
    case inr => simp [hinfo] at hinfo'
    have hstop : fs'.handle = -1 := hsame.handle.trans hidle
    refine ⟨fs',hopen,⟨[],hstop⟩,fun ios _ => ?_⟩
    rw [riffPolls_idle hstop ios]
    exact ⟨fun he => ⟨hr,he.symm⟩,fun h => h.2.symm⟩
  · have hinfo := riffInfo_reached hs hw hf hr
    rw [← hread] at hinfo
    obtain ⟨fs',hopen⟩ := (fsOpenRiff_returns_iff hl).mpr (by simp [hinfo])
    obtain ⟨hno,_⟩ | ⟨info,hinfo',_,_,_,hplay⟩ := fsOpenRiff_outcome hidle hl hpos hopen
    · simp [hinfo] at hno
    cases hinfo.symm.trans hinfo'
    -- the seek stays inside the file, wherever it lives
    have hseek : f.seek wf.head.length = { f with pos := wf.head.length } := by
      have hle : wf.head.length ≤ f.content.length := by simp [hc,Wave.bytes]
      by_cases hhost : f.source = .host <;> simp [Found.seek,hhost,hle]
    simp only [hseek] at hplay
    obtain ⟨hi,hh⟩ := hplay.file (Q := fun _ => True) trivial (fun _ => by simp [hc,Wave.bytes])
    refine ⟨fs',hopen,riffPolls_ends hi hh hplay.view,fun ios hend => ?_⟩
    have hpush := riffPolls_pushed ios hi hh hplay.view hend
    have hall : (riffPolls ios fs').1 = wf.dataHeader ++ wf.rest := by
      rw [hpush,hc,Wave.bytes,List.append_assoc]
      simp
    have hshort := wf.payload_shorter
    refine ⟨fun he => ?_,fun h => absurd h.1 hr⟩
    rw [← hall,he] at hshort
    omega

theorem padsClear_of_zero {cs : List Chunk} (h : ∀ c ∈ cs, c.pad = 0) : PadsClear cs := by
  induction cs with
  | nil => trivial
  | cons c cs ih =>
    refine ⟨fun _ id hid he => ?_,ih fun x hx => h x (by simp [hx])⟩
    simp only [List.mem_cons,List.not_mem_nil,or_false] at hid
    obtain rfl | rfl | rfl :=
      hid <;> simp [h c (by simp),ChunkId.fmt,ChunkId.fact,ChunkId.data] at he

/-- One stereo sample at 44.1 kHz behind a format chunk of 16 bytes. -/
def sampleWave : Wave := ⟨40,[],⟨2,44100,176400,4,[]⟩,0,[],4,[1,2,3,4]⟩

/-- The same format with a list chunk that the code does not know and an empty payload. -/
def listWave : Wave := ⟨48,[],⟨2,44100,176400,4,[]⟩,0,[⟨⟨[0x4c,0x49,0x53,0x54],rfl⟩,[1,2,3,4],0⟩],0,
    []⟩

def sampleFs : Fs := (sysInit [] true).fs

theorem listWave_supported : listWave.Supported where
  channels := .inr rfl
  rate := ⟨.hz44100,by decide,rfl⟩
  size := by decide
  inside := by decide
  others := by decide
  pads := padsClear_of_zero (by decide)

/-- Refused, so nothing is played, as the empty payload asks for. -/
theorem riff_payload_iff_list :
    listWave.Refused ∧ ∃ fs', fsOpenRiff (hostWith (some listWave.bytes)) [0x61] sampleFs =
      some fs' ∧
      (∃ ios, (riffPolls ios fs').2.handle = -1) ∧
      ∀ ios, (riffPolls ios fs').2.handle = -1 →
        ((riffPolls ios fs').1 = listWave.payload ↔ listWave.Refused ∧ listWave.payload = []) :=
  ⟨by decide,riff_payload_iff listWave_supported (by decide) (by decide) rfl rfl
    (f := ⟨.host,listWave.bytes,0⟩) rfl rfl rfl⟩

theorem sampleWave_supported : sampleWave.Supported where
  channels := .inr rfl
  rate := ⟨.hz44100,by decide,rfl⟩
  size := by decide
  inside := by decide
  others := by decide
  pads := padsClear_of_zero (by decide)

/-- The header of the data chunk is played as two samples before the only one. -/
theorem riff_plays_header :
    sampleWave.Supported ∧ (fsOpenRiff (hostWith (some sampleWave.bytes)) [0x61] sampleFs).map
        (fun fs => ((riffPolls [ioInit Io.zero,ioInit Io.zero] fs).1,
          (riffPolls [ioInit Io.zero,ioInit Io.zero] fs).2.handle)) =
      some (sampleWave.dataHeader ++ sampleWave.payload,-1) ∧
    sampleWave.dataHeader ++ sampleWave.payload ≠ sampleWave.payload :=
  ⟨sampleWave_supported,by decide +kernel⟩

end Mardio
