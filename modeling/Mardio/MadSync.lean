import Mardio.MadHeader

/-!
Where the next frame is. In step with the stream `mad_header_decode` expects a
header right where the last frame ended; out of step it looks for the next mark
whose header is legal and whose frame is followed by another mark. Addresses are
offsets into the buffer, as in the decoder glue.
-/

set_option autoImplicit false

namespace Mardio
open ByteMem BitString

/-- The stream with what the library keeps about it. A stream that was never given a
buffer is not `attached`: its pointers are null. -/
structure MadBitstream extends MadStream where
  attached : Bool
  sync : Bool
  freerate : Nat
  ptr : MadBitptr
  deriving DecidableEq, Repr

/-- The search goes on while there is a byte behind the one it is at. -/
def scanSync (m : Mem) : Nat → Nat → Nat
  | 0, ptr => ptr
  | n+1, ptr => if syncAt m ptr then ptr else scanSync m n (ptr+1)

def madStreamSync (m : Mem) (s : MadBitstream) : Option MadBitstream :=
  let start := madBitNextbyte s.ptr
  let ptr := scanSync m (s.bufend-1-start) start
  if s.bufend < ptr+madBufferGuard then none else some { s with ptr := madBitInit ptr }

def padSlot (header : MadHeader) : Nat := if header.flags.padding then 1 else 0

def slotsPerFrame (header : MadHeader) : Nat :=
  if header.layer = 3 ∧ header.flags.lsfExt then 72 else 144

/-- The rate in kbit/s at which frames of `n` bytes follow one another. -/
def measuredRate (header : MadHeader) (n : Nat) : Nat :=
  if header.layer = 1 then header.samplerate*(n+4-4*padSlot header)/48/1000
  else header.samplerate*(n+1-padSlot header)/slotsPerFrame header/1000

/-- The search for a second header like this one; the last rate it has measured stays. -/
def freeBitrateLoop (m : Mem) (header : MadHeader) : Nat → MadBitstream → Nat → Nat
  | 0, _, rate => rate
  | n+1, s, rate =>
      match madStreamSync m s with
      | none => rate
      | some s =>
          let (error,peek,_) := decodeHeader m header s.ptr
          let alike := error = .none ∧ peek.layer = header.layer ∧
            peek.samplerate = header.samplerate
          let rate := if alike then measuredRate header (madBitNextbyte s.ptr-s.thisFrame) else rate
          if alike ∧ rate ≥ 8 then rate
          else freeBitrateLoop m header n { s with ptr := madBitSkip m s.ptr 8 } rate

def freeBitrate (m : Mem) (s : MadBitstream) (header : MadHeader) : Option Nat :=
  let rate := freeBitrateLoop m header s.bufend s 0
  if rate < 8 ∨ header.layer = 3 ∧ rate > 640 then none else some (rate*1000)

def madNsbsamples (header : MadHeader) : Nat :=
  if header.layer = 1 then 12 else if header.layer = 3 ∧ header.flags.lsfExt then 18 else 36

def frameLength (header : MadHeader) : Nat :=
  if header.layer = 1 then (12*header.bitrate/header.samplerate+padSlot header)*4
  else slotsPerFrame header*header.bitrate/header.samplerate+padSlot header

/-- The free rate of the stream, measured where it is not known. -/
def freerateOf (m : Mem) (s : MadBitstream) (header : MadHeader) : Option Nat :=
  if s.freerate = 0 ∨ s.sync = false ∨ header.layer = 3 ∧ s.freerate > 640000
    then freeBitrate m s header
  else some s.freerate

/-- The end of the frame that begins at `this_frame`. -/
def closeFrame (header : MadHeader) (s : MadBitstream) : MadError × MadHeader × MadBitstream :=
  if frameLength header+madBufferGuard > s.bufend-s.thisFrame then
    (.buflen,header,{ s with nextFrame := s.thisFrame })
  else (.none,header,{ s with nextFrame := s.thisFrame+frameLength header })

/-- From "begin processing" on. -/
def beginFrame (h : Host) (m : Mem) (header : MadHeader) (s : MadBitstream) (ptr : Nat) :
    MadError × MadHeader × MadBitstream :=
  -- possibly a bogus sync word
  let s := { s with thisFrame := ptr, nextFrame := ptr+1 }
  let (error,header,p) := decodeHeader m header (madBitInit ptr)
  let s := { s with ptr := p }
  if error ≠ .none then (error,header,s)
  else
    let header :=
      { header with duration := madTimerSet h 0 (32*madNsbsamples header) header.samplerate }
    if header.bitrate ≠ 0 then closeFrame header s
    else
      match freerateOf m s header with
      | none => (.lostsync,header,s)
      | some rate =>
          closeFrame { header with
            bitrate := rate, flags := { header.flags with freeformat := true } }
            { s with freerate := rate }

/-- "synchronize": the place of the next header, or the error. -/
def locate (m : Mem) (s : MadBitstream) (ptr : Nat) :
    Except (MadError × MadBitstream) (MadBitstream × Nat) :=
  if s.sync then
    if s.bufend < ptr+madBufferGuard then .error (.buflen,{ s with nextFrame := ptr })
    else if syncAt m ptr = false then
      -- the point where a frame sync word was expected
      .error (.lostsync,{ s with thisFrame := ptr, nextFrame := ptr+1 })
    else .ok (s,ptr)
  else
    match madStreamSync m { s with ptr := madBitInit ptr } with
    | none => .error (.buflen,{ s with
        ptr := madBitInit ptr
        nextFrame := if s.nextFrame+madBufferGuard ≤ s.bufend then s.bufend-madBufferGuard
          else s.nextFrame })
    | some s => .ok (s,madBitNextbyte s.ptr)

/-- From `sync` on. It is entered again one byte behind a header that no other one
follows. -/
def syncTurn (h : Host) (m : Mem) (again : MadHeader → MadBitstream → Nat →
    MadError × MadHeader × MadBitstream)
    (header : MadHeader) (s : MadBitstream) (ptr : Nat) : MadError × MadHeader × MadBitstream :=
  match locate m s ptr with
  | .error (error,s) => (error,header,s)
  | .ok (s,ptr) =>
      match beginFrame h m header s ptr with
      | (.none,header,s) =>
          if s.sync ∨ syncAt m s.nextFrame then (.none,header,{ s with sync := true })
          else again header { s with nextFrame := s.thisFrame+1 } (s.thisFrame+1)
      | r => r

def syncLoop (h : Host) (m : Mem) : Nat → MadHeader → MadBitstream → Nat →
    MadError × MadHeader × MadBitstream
  | 0 => syncTurn h m fun header s _ => (.buflen,header,s)
  | turns+1 => syncTurn h m (syncLoop h m turns)

/-- "stream skip": where decoding goes on, or the rest of the skip. -/
def skipStream (s : MadBitstream) : Except MadBitstream (MadBitstream × Nat) :=
  if s.skiplen ≠ 0 then
    let ptr := if s.sync then s.nextFrame else s.thisFrame
    if s.bufend-ptr < s.skiplen then
      .error { s with skiplen := s.skiplen-(s.bufend-ptr), nextFrame := s.bufend }
    else .ok ({ s with skiplen := 0, sync := true },ptr+s.skiplen)
  else .ok (s,s.nextFrame)

/-- The two ways out: the frame is begun, or `fail`. -/
def headerDone (r : MadError × MadHeader × MadBitstream) : MadError × MadHeader × MadBitstream :=
  if r.1 = .none then (.none,{ r.2.1 with flags := { r.2.1.flags with incomplete := true } },r.2.2)
  else (r.1,r.2.1,{ r.2.2 with sync := false })

def madHeaderDecode (h : Host) (m : Mem) (header : MadHeader) (s : MadBitstream) :
    MadError × MadHeader × MadBitstream :=
  headerDone <|
    if s.attached = false then (.bufptr,header,s)
    else
      match skipStream s with
      | .error s => (.buflen,header,s)
      | .ok (s,ptr) => syncLoop h m s.bufend header s ptr

/-! The search. -/

theorem scanSync_spec (m : Mem) (n ptr : Nat) :
    ptr ≤ scanSync m n ptr ∧ scanSync m n ptr ≤ ptr+n ∧
      (scanSync m n ptr < ptr+n → syncAt m (scanSync m n ptr) = true) ∧
      ∀ j, ptr ≤ j → j < scanSync m n ptr → syncAt m j = false := by
  induction n generalizing ptr with
  | zero => simp [scanSync]; omega
  | succ n ih =>
    obtain ⟨h1,h2,h3,h4⟩ := ih (ptr+1)
    rw [scanSync]
    by_cases hs : syncAt m ptr = true
    · rw [if_pos hs]
      exact ⟨Nat.le_refl _,by omega,fun _ => hs,fun j hj hlt => by omega⟩
    · rw [if_neg hs]
      refine ⟨by omega,by omega,fun h => h3 (by omega),fun j hj hlt => ?_⟩
      by_cases hjp : j = ptr
      · simpa [hjp] using hs
      · exact h4 j (by omega) hlt

theorem madStreamSync_eq_some {m : Mem} {s t : MadBitstream} (h : madStreamSync m s = some t) :
    ∃ p, t = { s with ptr := madBitInit p } ∧ madBitNextbyte s.ptr ≤ p ∧
      p+madBufferGuard ≤ s.bufend ∧
      syncAt m p = true ∧ ∀ j, madBitNextbyte s.ptr ≤ j → j < p → syncAt m j = false := by
  obtain ⟨h1,h2,h3,h4⟩ := scanSync_spec m (s.bufend-1-madBitNextbyte s.ptr) (madBitNextbyte s.ptr)
  simp only [madStreamSync] at h
  split at h
  · cases h
  · rename_i hroom
    have hg : madBufferGuard = 8 := rfl
    cases h
    exact ⟨_,rfl,h1,by omega,h3 (by omega),h4⟩

/-- What the steps of the search keep. -/
structure MadBitstream.Keeps (s t : MadBitstream) : Prop where
  bufend : t.bufend = s.bufend
  skiplen : t.skiplen = s.skiplen
  attached : t.attached = s.attached

theorem MadBitstream.Keeps.trans {s t u : MadBitstream} (h : s.Keeps t) (h' : t.Keeps u) :
    s.Keeps u :=
  ⟨h'.bufend.trans h.bufend,h'.skiplen.trans h.skiplen,h'.attached.trans h.attached⟩

/-- A free rate is measured with at least 8 kbit/s. -/
def MadBitstream.RateOk (s : MadBitstream) : Prop := s.freerate = 0 ∨ 8000 ≤ s.freerate

/-! Accepted headers. -/

structure MadHeader.Legal (h : Host) (header : MadHeader) : Prop where
  layer : 1 ≤ header.layer ∧ header.layer ≤ 3
  samplerate : header.samplerate ∈ timerRates
  low : header.flags.lsfExt = true → header.samplerate ≤ 24000
  bitrate : 8000 ≤ header.bitrate
  duration : header.duration = madTimerSet h 0 (32*madNsbsamples header) header.samplerate

theorem HeaderWord.not_reserved {w : HeaderWord} (he : w.error = .none) :
    w.layer ≠ 0 ∧ w.bitrate ≠ 15 ∧ w.samplerate ≠ 3 := by
  unfold HeaderWord.error at he
  split_ifs at he with hext hlayer hbit hrate
  exact ⟨hlayer,hbit,hrate⟩

theorem HeaderWord.rate_mem {w : HeaderWord} (hr : w.InRange) (he : w.error = .none) :
    w.rate ∈ timerRates ∧ (w.id = 0 → w.rate ≤ 24000) := by
  have hcases : ∀ mpeg25 < 2, ∀ id < 2, ∀ samplerate < 3,
      HeaderWord.rate ⟨mpeg25,id,0,0,0,samplerate,0,0,0,0,0,0,0⟩ ∈ timerRates ∧
        (id = 0 → HeaderWord.rate ⟨mpeg25,id,0,0,0,samplerate,0,0,0,0,0,0,0⟩ ≤ 24000) := by decide
  have hs := (HeaderWord.not_reserved he).2.2
  have hlt := hr.samplerate
  exact hcases w.mpeg25 hr.mpeg25 w.id hr.id w.samplerate (by omega)

theorem HeaderWord.bitrate_ge {w : HeaderWord} (hr : w.InRange) (he : w.error = .none) :
    w.bitrateOf = 0 ∨ 8000 ≤ w.bitrateOf := by
  have hcases : ∀ id < 2, ∀ layer < 4, ∀ bitrate < 15,
      HeaderWord.bitrateOf ⟨0,id,layer,0,bitrate,0,0,0,0,0,0,0,0⟩ = 0 ∨
        8000 ≤ HeaderWord.bitrateOf ⟨0,id,layer,0,bitrate,0,0,0,0,0,0,0,0⟩ := by decide
  have hb := (HeaderWord.not_reserved he).2.1
  have hlt := hr.bitrate
  exact hcases w.id hr.id w.layer hr.layer w.bitrate (by omega)

theorem HeaderWord.layer_bounds {w : HeaderWord} (hr : w.InRange) (he : w.error = .none) :
    1 ≤ 4-w.layer ∧ 4-w.layer ≤ 3 := by
  have h0 := (HeaderWord.not_reserved he).1
  have hlt := hr.layer
  omega

theorem HeaderWord.slots_le {w : HeaderWord} (hr : w.InRange) (he : w.error = .none)
    (hl : w.layer = 1) :
    (if w.id = 0 then 72 else 144)*w.bitrateOf/w.rate ≤ 1440 := by
  have hcases : ∀ mpeg25 < 2, ∀ id < 2, ∀ bitrate < 15, ∀ samplerate < 3,
      (if id = 0 then 72 else 144)*HeaderWord.bitrateOf ⟨0,id,1,0,bitrate,0,0,0,0,0,0,0,0⟩/
        HeaderWord.rate ⟨mpeg25,id,0,0,0,samplerate,0,0,0,0,0,0,0⟩ ≤ 1440 := by decide +kernel
  obtain ⟨-,hb,hs⟩ := HeaderWord.not_reserved he
  have hlt := hr.bitrate
  have hlt' := hr.samplerate
  have hmain := hcases w.mpeg25 hr.mpeg25 w.id hr.id w.bitrate (by omega) w.samplerate (by omega)
  rw [← hl] at hmain
  exact hmain

/-- The shortest frames have eight bytes. -/
theorem MadHeader.Legal.frameLength_ge {h : Host} {header : MadHeader} (hl : header.Legal h) :
    8 ≤ frameLength header := by
  have hpos : 0 < header.samplerate ∧ header.samplerate ≤ 48000 := by
    have hall : ∀ r ∈ timerRates, 0 < r ∧ r ≤ 48000 := by decide
    exact hall _ hl.samplerate
  have hb := hl.bitrate
  unfold frameLength slotsPerFrame
  split
  · have hdiv : 2 ≤ 12*header.bitrate/header.samplerate :=
      (Nat.le_div_iff_mul_le hpos.1).mpr (by omega)
    omega
  · have hdiv : 24 ≤ (if header.layer = 3 ∧ header.flags.lsfExt then 72
        else 144)*header.bitrate/header.samplerate := by
      refine (Nat.le_div_iff_mul_le hpos.1).mpr ?_
      split
      · rename_i hlsf
        have := hl.low hlsf.2
        omega
      · omega
    omega

/-- The header comes from the bytes at `ptr`; a rate they do not name is measured, the
duration is computed, and two flags are not in the bytes. -/
def MadHeader.ReadAt (m : Mem) (ptr : Nat) (header : MadHeader) : Prop :=
  (headerWord m (8*ptr)).error = .none ∧
    ((headerWord m (8*ptr)).bitrateOf ≠ 0 → header.bitrate = (headerWord m (8*ptr)).bitrateOf) ∧
      ∃ old, header =
      { (headerWord m (8*ptr)).header m (8*ptr) old with
        bitrate := header.bitrate, duration := header.duration
        flags := { (headerWord m (8*ptr)).flags with
          freeformat := header.flags.freeformat, incomplete := header.flags.incomplete } }

/-- The errors that a header can have. -/
def MadError.ofHeader : MadError → Bool
  | .lostsync | .badlayer | .badbitrate | .badsamplerate => true
  | _ => false

/-- What can come of a mark at `ptr`: a frame, one that is not yet complete, or a header
that is no header. -/
inductive FrameTry (h : Host) (m : Mem) (s : MadBitstream) (ptr : Nat) :
    MadError × MadHeader × MadBitstream → Prop where
  | frame {header : MadHeader} {t : MadBitstream} (keeps : s.Keeps t) (sync : t.sync = s.sync)
      (rate : t.RateOk) (legal : header.Legal h) (read : header.ReadAt m ptr)
      (valid : t.ptr.Valid m) (pos : t.ptr.pos =
        8*ptr+32+(if header.flags.protection then 16 else 0)) (this : t.thisFrame = ptr)
      (next : t.nextFrame = ptr+frameLength header)
      (room : ptr+frameLength header+madBufferGuard ≤ s.bufend) :
      FrameTry h m s ptr (.none,header,t)
  | short {header : MadHeader} {t : MadBitstream} (keeps : s.Keeps t) (rate : t.RateOk)
      (this : t.thisFrame = ptr) (next : t.nextFrame = ptr) : FrameTry h m s ptr (.buflen,header,t)
  | reject {error : MadError} {header : MadHeader} {t : MadBitstream} (keeps : s.Keeps t)
      (rate : t.RateOk) (error_rec : error.ofHeader = true) (this : t.thisFrame = ptr)
      (next : t.nextFrame = ptr+1) :
      FrameTry h m s ptr (error,header,t)

theorem freerateOf_ge {m : Mem} {s : MadBitstream} {header : MadHeader} {rate : Nat} (hs : s.RateOk)
    (h : freerateOf m s header = some rate) : 8000 ≤ rate := by
  unfold freerateOf at h
  split at h
  · simp only [freeBitrate] at h
    split at h
    · cases h
    · cases h
      omega
  · rename_i hn
    cases h
    rcases hs with h0 | hge
    · exact absurd (.inl h0) hn
    · exact hge

theorem FrameTry.close {h : Host} {m : Mem} {s t : MadBitstream} {ptr : Nat} {header : MadHeader}
    (keeps : s.Keeps t) (sync : t.sync = s.sync) (rate : t.RateOk) (legal : header.Legal h)
    (read : header.ReadAt m ptr) (valid : t.ptr.Valid m)
    (pos : t.ptr.pos = 8*ptr+32+(if header.flags.protection then 16 else 0))
    (this : t.thisFrame = ptr) (hroom : ptr ≤ s.bufend) :
    FrameTry h m s ptr (closeFrame header t) := by
  have hb := keeps.bufend
  unfold closeFrame
  split
  · exact .short ⟨hb,keeps.skiplen,keeps.attached⟩ rate this this
  · exact .frame ⟨hb,keeps.skiplen,keeps.attached⟩ sync rate legal read valid pos this
      (by simp [this]) (by omega)

theorem HeaderWord.error_ofHeader {w : HeaderWord} (h : w.error ≠ .none) :
    w.error.ofHeader = true := by
  unfold HeaderWord.error at *
  split_ifs at * <;> first | rfl | exact absurd rfl h

theorem MadHeader.ReadAt.fields {m : Mem} {ptr : Nat} {header : MadHeader}
    (hr : header.ReadAt m ptr) :
    header.layer = 4-(headerWord m (8*ptr)).layer ∧ header.mode = 3-(headerWord m (8*ptr)).mode ∧
      header.samplerate = (headerWord m (8*ptr)).rate ∧
        header.flags.lsfExt = ((headerWord m (8*ptr)).id == 0) := by
  obtain ⟨-,-,old,ho⟩ := hr
  rw [ho]
  exact ⟨rfl,rfl,rfl,rfl⟩

theorem MadHeader.ReadAt.legal {h : Host} {m : Mem} {ptr : Nat} {header : MadHeader}
    (hr : header.ReadAt m ptr) (hb : 8000 ≤ header.bitrate)
    (hd : header.duration = madTimerSet h 0 (32*madNsbsamples header) header.samplerate) :
    header.Legal h := by
  have he := hr.1
  have hin := headerWord_inRange m (8*ptr)
  obtain ⟨hmem,hlow⟩ := HeaderWord.rate_mem hin he
  obtain ⟨hlayer,-,hrate,hlsf⟩ := hr.fields
  refine ⟨hlayer ▸ HeaderWord.layer_bounds hin he,hrate ▸ hmem,fun hl => ?_,hb,hd⟩
  rw [hlsf,beq_iff_eq] at hl
  exact hrate ▸ hlow hl

/-- The longest frame of Layer III that names its rate has 1441 bytes. -/
theorem MadHeader.ReadAt.length_le {m : Mem} {ptr : Nat} {header : MadHeader}
    (hr : header.ReadAt m ptr) (hlayer : header.layer = 3)
    (hb : (headerWord m (8*ptr)).bitrateOf ≠ 0) : frameLength header ≤ 1441 := by
  obtain ⟨hword,-,hrate,hlsf⟩ := hr.fields
  obtain ⟨he,hnamed,-⟩ := hr
  have hmain := HeaderWord.slots_le (headerWord_inRange m (8*ptr)) he (by omega)
  have hpad : padSlot header ≤ 1 := by
    unfold padSlot
    split <;> omega
  have hslots : slotsPerFrame header = if (headerWord m (8*ptr)).id = 0 then 72 else 144 := by
    simp [slotsPerFrame,hlayer,hlsf]
  rw [frameLength,if_neg (by omega),hslots,hnamed hb,hrate]
  omega

theorem beginFrame_attempt (h : Host) (m : Mem) (header : MadHeader) {s : MadBitstream}
    (hs : s.RateOk) {ptr : Nat} (hp : ptr ≤ s.bufend) :
    FrameTry h m s ptr (beginFrame h m header s ptr) := by
  obtain ⟨herr,hok⟩ := decodeHeader_spec (madBitInit_valid m ptr) header
  rw [madBitInit_pos] at herr hok
  have hr := headerWord_inRange m (8*ptr)
  rcases hd : decodeHeader m header (madBitInit ptr) with ⟨error,read,p⟩
  rw [hd] at herr hok
  simp only at herr hok
  simp only [beginFrame,hd]
  by_cases he : error = .none
  · rw [if_neg (by simpa using he)]
    have hw : (headerWord m (8*ptr)).error = .none := herr ▸ he
    obtain ⟨hread,hv,hpos⟩ := hok hw
    have hpos' : p.pos = 8*ptr+32+(if read.flags.protection then 16 else 0) := by
      rw [hpos,hread]
      simp [HeaderWord.header,HeaderWord.flags]
    have hbit : read.bitrate = (headerWord m (8*ptr)).bitrateOf := by rw [hread]; rfl
    have hat : ∀ b d f, (read.bitrate ≠ 0 → b = read.bitrate) → MadHeader.ReadAt m ptr { read with
        bitrate := b, duration := d, flags := { read.flags with freeformat := f } } := by
      intro b d f hb
      exact ⟨hw,by simpa only [hbit] using hb,header,by rw [hread]; rfl⟩
    split
    · rename_i hb
      have hge : 8000 ≤ read.bitrate := by
        have := HeaderWord.bitrate_ge hr hw
        omega
      have hread' := hat read.bitrate (madTimerSet h 0 (32*madNsbsamples read) read.samplerate)
        read.flags.freeformat
        fun _ => rfl
      exact FrameTry.close ⟨rfl,rfl,rfl⟩ rfl hs (hread'.legal hge rfl) hread' hv hpos' rfl hp
    · split
      · exact .reject ⟨rfl,rfl,rfl⟩ hs rfl rfl rfl
      · rename_i rate hrate
        have hge : 8000 ≤ rate := freerateOf_ge (by exact hs) hrate
        have hread' := hat rate (madTimerSet h 0 (32*madNsbsamples read) read.samplerate) true
          fun hne => absurd hne ‹_›
        exact FrameTry.close ⟨rfl,rfl,rfl⟩ rfl (.inr hge) (hread'.legal hge rfl) hread' hv
          hpos' rfl hp
  · rw [if_pos he]
    exact .reject ⟨rfl,rfl,rfl⟩ hs (by rw [herr]; exact HeaderWord.error_ofHeader (herr ▸ he)) rfl
      rfl

/-! The loop. -/

/-- What the search from `ptr` on ends with. -/
inductive SearchEnd (h : Host) (m : Mem) (s : MadBitstream) (ptr : Nat) :
    MadError × MadHeader × MadBitstream → Prop where
  | frame {header : MadHeader} {t : MadBitstream} (keeps : s.Keeps t) (sync : t.sync = true)
      (rate : t.RateOk) (mark : syncAt m t.thisFrame = true) (legal : header.Legal h)
      (read : header.ReadAt m t.thisFrame) (valid : t.ptr.Valid m)
      (pos : t.ptr.pos = 8*t.thisFrame+32+(if header.flags.protection then 16 else 0))
      (this : ptr ≤ t.thisFrame) (next : t.nextFrame = t.thisFrame+frameLength header)
      (room : t.nextFrame+madBufferGuard ≤ s.bufend) : SearchEnd h m s ptr (.none,header,t)
  | short {header : MadHeader} {t : MadBitstream} (keeps : s.Keeps t) (rate : t.RateOk)
      (low : ptr ≤ t.nextFrame) (high : t.nextFrame ≤ s.bufend) (this : t.thisFrame ≤ s.bufend) :
      SearchEnd h m s ptr (.buflen,header,t)
  | reject {error : MadError} {header : MadHeader} {t : MadBitstream} (keeps : s.Keeps t)
      (rate : t.RateOk) (error_rec : error.ofHeader = true) (this : ptr ≤ t.thisFrame)
      (next : t.nextFrame = t.thisFrame+1) (room : t.thisFrame+madBufferGuard ≤ s.bufend) :
      SearchEnd h m s ptr (error,header,t)

/-- A search from further on, in a stream with the same end. -/
theorem SearchEnd.from {h : Host} {m : Mem} {s t : MadBitstream} {ptr ptr' : Nat}
    {r : MadError × MadHeader × MadBitstream} (hr : SearchEnd h m t ptr' r) (hk : s.Keeps t)
    (hp : ptr ≤ ptr') : SearchEnd h m s ptr r := by
  have hb := hk.bufend
  cases hr with
  | frame keeps sync rate mark legal read valid pos this next room =>
    exact .frame (hk.trans keeps) sync rate mark legal read valid pos (hp.trans this) next
      (hb ▸ room)
  | short keeps rate low high this =>
    exact .short (hk.trans keeps) rate (hp.trans low) (hb ▸ high) (hb ▸ this)
  | reject keeps rate error_rec this next room =>
    exact .reject (hk.trans keeps) rate error_rec (hp.trans this) next (hb ▸ room)

/-- The place of the next mark. -/
structure MarkAt (m : Mem) (s t : MadBitstream) (ptr p : Nat) : Prop where
  keeps : s.Keeps t
  sync : t.sync = s.sync
  freerate : t.freerate = s.freerate
  low : ptr ≤ p
  room : p+madBufferGuard ≤ s.bufend
  mark : syncAt m p = true
  first : ∀ j, ptr ≤ j → j < p → syncAt m j = false

theorem locate_ok {m : Mem} {s t : MadBitstream} {ptr p : Nat} (h : locate m s ptr = .ok (t,p)) :
    MarkAt m s t ptr p := by
  unfold locate at h
  split at h
  · split at h
    · cases h
    · split at h
      · cases h
      · rename_i _ hroom hmark
        cases h
        exact ⟨⟨rfl,rfl,rfl⟩,rfl,rfl,Nat.le_refl _,Nat.le_of_not_lt hroom,by simpa using hmark,
          fun j hj hlt => absurd hlt (Nat.not_lt.mpr hj)⟩
  · split at h
    · cases h
    · rename_i hsome
      obtain ⟨q,hq,hlow,hroom,hmark,hfirst⟩ := madStreamSync_eq_some hsome
      cases h
      subst hq
      exact ⟨⟨rfl,rfl,rfl⟩,rfl,rfl,hlow,hroom,hmark,hfirst⟩

theorem locate_error {h : Host} {m : Mem} {s t : MadBitstream} {ptr : Nat} {e : MadError}
    (header : MadHeader) (hs : s.RateOk) (hn : s.sync = false → s.nextFrame = ptr)
    (hp : ptr ≤ s.bufend) (ht : s.thisFrame ≤ s.bufend) (he : locate m s ptr = .error (e,t)) :
    SearchEnd h m s ptr (e,header,t) := by
  have hg : madBufferGuard = 8 := rfl
  unfold locate at he
  split at he
  · split at he
    · cases he
      exact .short ⟨rfl,rfl,rfl⟩ hs (Nat.le_refl _) hp ht
    · split at he
      · rename_i _ hroom _
        cases he
        exact .reject ⟨rfl,rfl,rfl⟩ hs rfl (Nat.le_refl _) rfl (Nat.le_of_not_lt hroom)
      · cases he
  · rename_i hsync
    have hnext := hn (by simpa using hsync)
    split at he
    · cases he
      refine .short ⟨rfl,rfl,rfl⟩ hs ?_ ?_ ht
      · simp only
        split <;> omega
      · simp only
        split <;> omega
    · cases he

/-- What one turn of the search does: it gives up before or at a mark, it takes the
frame there, or it goes on one byte behind the mark. -/
inductive SyncStep (h : Host) (m : Mem) (header : MadHeader) (s : MadBitstream) (ptr : Nat) :
    ((MadHeader → MadBitstream → Nat → MadError × MadHeader × MadBitstream) →
      MadError × MadHeader × MadBitstream) →
      Prop where
  | lost {e : MadError} {t : MadBitstream} (loc : locate m s ptr = .error (e,t)) :
      SyncStep h m header s ptr fun _ => (e,header,t)
  | stop {t : MadBitstream} {p : Nat} (mark : MarkAt m s t ptr p)
      (att : FrameTry h m t p (beginFrame h m header t p))
      (error : (beginFrame h m header t p).1 ≠ .none) :
      SyncStep h m header s ptr fun _ => beginFrame h m header t p
  | frame {t t' : MadBitstream} {header' : MadHeader} (mark : MarkAt m s t ptr t'.thisFrame)
      (att : FrameTry h m t t'.thisFrame (.none,header',t'))
      (follow : t'.sync = true ∨ syncAt m t'.nextFrame = true) :
      SyncStep h m header s ptr fun _ => (.none,header',{ t' with sync := true })
  | again {t t' : MadBitstream} {header' : MadHeader} (mark : MarkAt m s t ptr t'.thisFrame)
      (att : FrameTry h m t t'.thisFrame (.none,header',t'))
      (begun : beginFrame h m header t t'.thisFrame = (.none,header',t'))
      (follow : syncAt m t'.nextFrame = false) :
      SyncStep h m header s ptr fun again =>
        again header' { t' with nextFrame := t'.thisFrame+1 } (t'.thisFrame+1)

theorem MarkAt.rateOk {m : Mem} {s t : MadBitstream} {ptr p : Nat} (h : MarkAt m s t ptr p)
    (hs : s.RateOk) :
    t.RateOk := by
  unfold MadBitstream.RateOk
  rw [h.freerate]
  exact hs

theorem syncTurn_step (h : Host) (m : Mem) (header : MadHeader) {s : MadBitstream} (hs : s.RateOk)
    (ptr : Nat) :
    ∃ f, SyncStep h m header s ptr f ∧ ∀ again, syncTurn h m again header s ptr = f again := by
  rcases hloc : locate m s ptr with ⟨e,t⟩ | ⟨t,p⟩
  · exact ⟨_,.lost hloc,fun again => by simp only [syncTurn,hloc]⟩
  · have hmark := locate_ok hloc
    have hroom := hmark.room
    have hb := hmark.keeps.bufend
    have hat := beginFrame_attempt h m header (hmark.rateOk hs) (show p ≤ t.bufend by omega)
    rcases hr : beginFrame h m header t p with ⟨error,header',t'⟩
    by_cases he : error = .none
    · subst he
      rw [hr] at hat
      have hthis : t'.thisFrame = p := by
        cases hat with
        | frame _ _ _ _ _ _ _ this => exact this
        | reject _ _ error_rec => cases error_rec
      subst hthis
      by_cases hf : t'.sync = true ∨ syncAt m t'.nextFrame = true
      · exact ⟨_,.frame hmark hat hf,fun again => by simp only [syncTurn,hloc,hr,if_pos hf]⟩
      · exact ⟨_,.again hmark hat hr (by simpa using (not_or.mp hf).2),
          fun again => by simp only [syncTurn,hloc,hr,if_neg hf]⟩
    · refine ⟨_,.stop hmark hat (by simpa [hr] using he),fun again => ?_⟩
      simp only [syncTurn,hloc,hr]
      split
      · rename_i heq
        cases heq
        exact absurd rfl he
      · rfl

theorem syncTurn_found (h : Host) (m : Mem)
    {again : MadHeader → MadBitstream → Nat → MadError × MadHeader × MadBitstream}
    (header : MadHeader) {s : MadBitstream} (hs : s.RateOk) {ptr : Nat}
    (hn : s.sync = false → s.nextFrame = ptr) (hp : ptr ≤ s.bufend) (ht : s.thisFrame ≤ s.bufend)
    (hagain : ∀ header t p, t.RateOk → t.bufend = s.bufend → t.nextFrame = p → t.thisFrame ≤ p →
      ptr < p →
      p ≤ s.bufend → SearchEnd h m t p (again header t p)) : SearchEnd h m s ptr
        (syncTurn h m again header s ptr) := by
  have hg : madBufferGuard = 8 := rfl
  obtain ⟨f,hstep,hf⟩ := syncTurn_step h m header hs ptr
  rw [hf]
  cases hstep with
  | lost loc => exact locate_error header hs hn hp ht loc
  | stop mark att error =>
    have hlow := mark.low
    have hroom := mark.room
    have hb := mark.keeps.bufend
    generalize beginFrame h m header _ _ = r at att error
    cases att with
    | frame => exact absurd rfl error
    | short keeps rate this next =>
      exact .short (mark.keeps.trans keeps) rate (by omega) (by omega) (by omega)
    | reject keeps rate error_rec this next =>
      exact .reject (mark.keeps.trans keeps) rate error_rec (by omega) (by omega) (by omega)
  | frame mark att follow =>
    have hb := mark.keeps.bufend
    cases att with
    | frame keeps sync rate legal read valid pos this next room =>
      exact .frame (mark.keeps.trans ⟨keeps.bufend,keeps.skiplen,keeps.attached⟩) rfl rate
        mark.mark legal read valid
        pos mark.low next (by simp only [next]; omega)
    | reject _ _ error_rec => cases error_rec
  | again mark att begun follow =>
    have hlow := mark.low
    have hroom := mark.room
    have hb := mark.keeps.bufend
    cases att with
    | frame keeps sync rate legal read valid pos this next room =>
      rename_i t t' header'
      have hk : s.Keeps { t' with nextFrame := t'.thisFrame+1 } :=
        mark.keeps.trans ⟨keeps.bufend,keeps.skiplen,keeps.attached⟩
      have hrest := hagain header' { t' with nextFrame := t'.thisFrame+1 } (t'.thisFrame+1) rate
        hk.bufend rfl
        (Nat.le_succ _) (by omega) (by omega)
      exact hrest.from hk (by omega)
    | reject _ _ error_rec => cases error_rec

theorem syncLoop_found (h : Host) (m : Mem) (turns : Nat) (header : MadHeader) {s : MadBitstream}
    (hs : s.RateOk) {ptr : Nat} (hn : s.sync = false → s.nextFrame = ptr) (hp : ptr ≤ s.bufend)
    (ht : s.thisFrame ≤ s.bufend) :
    SearchEnd h m s ptr (syncLoop h m turns header s ptr) := by
  induction turns generalizing header s ptr with
  | zero =>
    refine syncTurn_found h m header hs hn hp ht fun header t p hr hb hnext hthis _ hpb => ?_
    exact .short ⟨rfl,rfl,rfl⟩ hr (by omega) (by omega) (by omega)
  | succ turns ih =>
    refine syncTurn_found h m header hs hn hp ht fun header t p hr hb hnext hthis _ hpb => ?_
    exact ih header hr (fun _ => hnext) (by omega) (by omega)

/-! No turn is missing: each begins behind the one before, and none begins at the end. -/

theorem syncTurn_congr (h : Host) (m : Mem)
    {again again' : MadHeader → MadBitstream → Nat → MadError × MadHeader × MadBitstream}
    (header : MadHeader) {s : MadBitstream} (hs : s.RateOk) {ptr : Nat}
    (hagain : ∀ header t p, t.RateOk → t.bufend = s.bufend → ptr < p → p ≤ s.bufend →
      again header t p = again' header t p) :
    syncTurn h m again header s ptr = syncTurn h m again' header s ptr := by
  obtain ⟨f,hstep,hf⟩ := syncTurn_step h m header hs ptr
  rw [hf,hf]
  cases hstep with
  | lost => rfl
  | stop => rfl
  | frame => rfl
  | again mark att begun follow =>
    have hlow := mark.low
    have hroom := mark.room
    have hg : madBufferGuard = 8 := rfl
    cases att with
    | frame keeps sync rate =>
      exact hagain _ _ _ rate (keeps.bufend.trans mark.keeps.bufend) (by omega) (by omega)
    | reject _ _ error_rec => cases error_rec

theorem syncLoop_turns (h : Host) (m : Mem) {turns : Nat} (k : Nat) (header : MadHeader)
    {s : MadBitstream} (hs : s.RateOk) {ptr : Nat} (hp : s.bufend ≤ turns+ptr) :
    syncLoop h m (turns+k) header s ptr = syncLoop h m turns header s ptr := by
  induction turns generalizing header s ptr with
  | zero =>
    cases k with
    | zero => rfl
    | succ k => exact syncTurn_congr h m header hs fun header t p _ _ hlt hpb => by omega
  | succ turns ih =>
    rw [Nat.succ_add]
    exact syncTurn_congr h m header hs fun header t p ht hb hlt _ => ih header ht (by omega)

theorem freeBitrateLoop_turns (m : Mem) (header : MadHeader) {n : Nat} (k : Nat) {s : MadBitstream}
    (rate : Nat) (hp : s.bufend ≤ n+madBitNextbyte s.ptr) :
    freeBitrateLoop m header (n+k) s rate = freeBitrateLoop m header n s rate := by
  have hg : madBufferGuard = 8 := rfl
  induction n generalizing s rate with
  | zero =>
    cases k with
    | zero => rfl
    | succ k =>
      rw [Nat.zero_add,freeBitrateLoop,freeBitrateLoop]
      cases hsome : madStreamSync m s with
      | none => rfl
      | some t =>
        obtain ⟨p,-,hlow,hroom,-⟩ := madStreamSync_eq_some hsome
        omega
  | succ n ih =>
    rw [Nat.succ_add,freeBitrateLoop,freeBitrateLoop]
    cases hsome : madStreamSync m s with
    | none => rfl
    | some t =>
      obtain ⟨p,rfl,hlow,hroom,-⟩ := madStreamSync_eq_some hsome
      obtain ⟨hv,hpos⟩ := madBitSkip_spec (madBitInit_valid m p) 8
      have hnext : madBitNextbyte (madBitSkip m (madBitInit p) 8) = p+1 := by
        rw [madBitNextbyte_eq hv,hpos,madBitInit_pos]
        omega
      have hrest : ∀ rate, freeBitrateLoop m header (n+k)
          { s with ptr := madBitSkip m (madBitInit p) 8 } rate =
          freeBitrateLoop m header n { s with ptr := madBitSkip m (madBitInit p) 8 } rate :=
        fun rate => ih rate (by simp only [hnext]; omega)
      simp only [hrest]

/-! Nothing is passed over: a frame whose header names its rate, which is there with
its guard bytes and is followed by another mark, is found. -/

/-- A frame of `n` bytes at `p` whose header names its rate. -/
structure FrameAt (m : Mem) (p n : Nat) : Prop where
  mark : syncAt m p = true
  error : (headerWord m (8*p)).error = .none
  rate : (headerWord m (8*p)).bitrateOf ≠ 0
  length : n = frameLength ((headerWord m (8*p)).header m (8*p) madHeaderInit)

/-- The header such a frame is read with. -/
def namedHeader (h : Host) (m : Mem) (p : Nat) (old : MadHeader) : MadHeader :=
  let header := (headerWord m (8*p)).header m (8*p) old
  { header with duration := madTimerSet h 0 (32*madNsbsamples header) header.samplerate }

theorem beginFrame_frameAt (h : Host) {m : Mem} {p n : Nat} (hf : FrameAt m p n)
    (header : MadHeader) (s : MadBitstream) :
    ∃ ptr, beginFrame h m header s p =
        closeFrame (namedHeader h m p header)
          { s with thisFrame := p, nextFrame := p+1, ptr := ptr } ∧
      frameLength (namedHeader h m p header) = n ∧ ptr.Valid m ∧
      ptr.pos = 8*p+32+(if (namedHeader h m p header).flags.protection then 16 else 0) := by
  obtain ⟨herr,hok⟩ := decodeHeader_spec (madBitInit_valid m p) header
  rw [madBitInit_pos] at herr hok
  obtain ⟨hread,hv,hpos⟩ := hok hf.error
  rcases hd : decodeHeader m header (madBitInit p) with ⟨error,read,ptr⟩
  rw [hd] at herr hread hv hpos
  simp only at herr hread hv hpos
  refine ⟨ptr,?_,?_,hv,?_⟩
  · have hrate : read.bitrate ≠ 0 := by
      rw [hread]
      exact hf.rate
    simp only [beginFrame,hd,herr,hf.error,ne_eq,not_true,if_false,hrate,not_false_iff,if_true]
    rw [hread]
    rfl
  · rw [hf.length]
    rfl
  · rw [hpos]
    simp [namedHeader,HeaderWord.header,HeaderWord.flags]

/-- The bytes up to here are behind the decoder. -/
def passedTo (r : MadError × MadHeader × MadBitstream) : Nat :=
  if r.1 = .none then r.2.2.thisFrame else r.2.2.nextFrame

/-- No complete frame that another mark follows begins from `ptr` up to `q`. -/
def NonePassed (m : Mem) (bufend ptr q : Nat) : Prop :=
  ∀ j n, ptr ≤ j → j < q → FrameAt m j n → j+n+madBufferGuard ≤ bufend → syncAt m (j+n) = false

theorem NonePassed.unmarked {m : Mem} {bufend ptr q : Nat}
    (h : ∀ j, ptr ≤ j → j < q → j+madBufferGuard ≤ bufend → syncAt m j = false) :
    NonePassed m bufend ptr q := by
  intro j n hj hlt hf hroom
  have hmark := hf.mark
  rw [h j hj hlt (by omega)] at hmark
  cases hmark

theorem NonePassed.append {m : Mem} {bufend ptr p q : Nat} (h : NonePassed m bufend ptr p)
    (h' : NonePassed m bufend p q) : NonePassed m bufend ptr q := by
  intro j n hj hlt hf hroom
  by_cases hjp : j < p
  · exact h j n hj hjp hf hroom
  · exact h' j n (by omega) hlt hf hroom

theorem locate_error_passed {m : Mem} {s t : MadBitstream} {ptr : Nat} {e : MadError}
    (he : locate m s ptr = .error (e,t)) (header : MadHeader) :
    NonePassed m s.bufend ptr (passedTo (e,header,t)) := by
  have hg : madBufferGuard = 8 := rfl
  refine .unmarked fun j hj hlt hroom => ?_
  unfold locate at he
  split at he
  · split at he
    · cases he
      simp [passedTo] at hlt
      omega
    · split at he
      · rename_i _ _ hmark
        cases he
        have hjp : j = ptr := by
          simp [passedTo] at hlt
          omega
        rw [hjp]
        exact hmark
      · cases he
  · split at he
    · rename_i hnone
      obtain ⟨h1,h2,h3,h4⟩ := scanSync_spec m (s.bufend-1-ptr) ptr
      simp only [madStreamSync] at hnone
      split at hnone
      · rename_i hshort
        have hstart : madBitNextbyte (madBitInit ptr) = ptr := by simp [madBitNextbyte,madBitInit]
        rw [hstart] at hshort
        exact h4 j hj (by omega)
      · cases hnone
    · cases he

theorem NonePassed.refl (m : Mem) (bufend ptr : Nat) : NonePassed m bufend ptr ptr :=
  fun _ _ hj hlt => absurd hlt (Nat.not_lt.mpr hj)

theorem MarkAt.passed {m : Mem} {s t : MadBitstream} {ptr p : Nat} (h : MarkAt m s t ptr p) :
    NonePassed m s.bufend ptr p :=
  .unmarked fun j hj hlt _ => h.first j hj hlt

theorem closeFrame_spec (header : MadHeader) (s : MadBitstream) :
    (closeFrame header s).1 ≠ .none ∧ s.bufend-s.thisFrame < frameLength header+madBufferGuard ∧
        closeFrame header s = (.buflen,header,{ s with nextFrame := s.thisFrame }) ∨
      frameLength header+madBufferGuard ≤ s.bufend-s.thisFrame ∧
        closeFrame header s = (.none,header,
          { s with nextFrame := s.thisFrame+frameLength header }) := by
  unfold closeFrame
  split
  · rename_i h
    exact .inl ⟨by simp,h,rfl⟩
  · rename_i h
    exact .inr ⟨by omega,rfl⟩

theorem syncTurn_passed (h : Host) (m : Mem)
    {again : MadHeader → MadBitstream → Nat → MadError × MadHeader × MadBitstream}
    (header : MadHeader) {s : MadBitstream} (hs : s.RateOk) {ptr : Nat}
    (hagain : ∀ header t p, t.RateOk → t.bufend = s.bufend → t.nextFrame = p →
      NonePassed m s.bufend p (passedTo (again header t p))) :
    NonePassed m s.bufend ptr (passedTo (syncTurn h m again header s ptr)) := by
  obtain ⟨f,hstep,hf⟩ := syncTurn_step h m header hs ptr
  rw [hf]
  cases hstep with
  | lost loc => exact locate_error_passed loc header
  | stop mark att error =>
    rename_i t p
    -- only a header that does not begin such a frame is rejected
    refine mark.passed.append fun j n hj hlt hfr hroom => ?_
    simp only [passedTo,if_neg error] at hlt
    generalize hr : beginFrame h m header t p = r at att error hlt
    cases att with
    | frame => exact absurd rfl error
    | short keeps rate this next =>
      simp only [next] at hlt
      omega
    | reject keeps rate error_rec this next =>
      simp only [next] at hlt
      obtain rfl : j = p := by omega
      obtain ⟨q,hbegin,-⟩ := beginFrame_frameAt h hfr header t
      rw [hr] at hbegin
      obtain ⟨-,-,hc⟩ | ⟨-,hc⟩ :=
        closeFrame_spec (namedHeader h m j header)
          { t with thisFrame := j, nextFrame := j+1, ptr := q }
      · rw [hc] at hbegin
        cases hbegin
        cases error_rec
      · rw [hc] at hbegin
        cases hbegin
        cases error_rec
  | frame mark att follow => exact mark.passed
  | again mark att begun follow =>
    rename_i t t' header'
    cases att with
    | frame keeps sync rate legal read valid pos this next room =>
      have hb : t'.bufend = s.bufend := keeps.bufend.trans mark.keeps.bufend
      refine mark.passed.append (.append ?_
        (hagain header' { t' with nextFrame := t'.thisFrame+1 } _ rate hb rfl))
      intro j n hj hlt hfr hroom
      obtain rfl : j = t'.thisFrame := by omega
      obtain ⟨q,hbegin,hlen,-⟩ := beginFrame_frameAt h hfr header t
      obtain ⟨hne,-⟩ | ⟨-,hc⟩ := closeFrame_spec (namedHeader h m t'.thisFrame header)
        { t with thisFrame := t'.thisFrame, nextFrame := t'.thisFrame+1, ptr := q }
      · rw [← hbegin,begun] at hne
        exact absurd rfl hne
      · rw [hc,begun,Prod.mk.injEq,Prod.mk.injEq] at hbegin
        rw [hbegin.2.2] at follow
        rw [← hlen]
        exact follow
    | reject _ _ error_rec => cases error_rec

theorem syncLoop_passed (h : Host) (m : Mem) (turns : Nat) (header : MadHeader) {s : MadBitstream}
    (hs : s.RateOk) (ptr : Nat) : NonePassed m s.bufend ptr
      (passedTo (syncLoop h m turns header s ptr)) := by
  induction turns generalizing header s ptr with
  | zero =>
    refine syncTurn_passed h m header hs fun header t p hr hb hn => ?_
    simpa [passedTo,hn] using NonePassed.refl m s.bufend p
  | succ turns ih =>
    exact syncTurn_passed h m header hs fun header t p hr hb _ => hb ▸ ih header hr p

/-! The call. -/

structure MadBitstream.InRange (s : MadBitstream) : Prop where
  this : s.thisFrame ≤ s.bufend
  next : s.nextFrame ≤ s.bufend
  rate : s.RateOk

/-- Where the call looks for a header first. -/
def MadBitstream.start (s : MadBitstream) : Nat :=
  if s.skiplen = 0 then s.nextFrame else (if s.sync then s.nextFrame else s.thisFrame)+s.skiplen

/-- The call is in step, or a skip has put it in step. -/
def MadBitstream.inStep (s : MadBitstream) : Bool := s.sync || s.skiplen != 0

theorem headerDone_sync (r : MadError × MadHeader × MadBitstream)
    (h : r.1 = .none → r.2.2.sync = true) :
    (headerDone r).2.2.sync = decide ((headerDone r).1 = .none) := by
  unfold headerDone
  split
  · rename_i he
    simpa using h he
  · rename_i he
    simpa using he

theorem headerDone_incomplete {r : MadError × MadHeader × MadBitstream}
    (h : (headerDone r).1 = .none) :
    (headerDone r).2.1.flags.incomplete = true := by
  by_cases he : r.1 = .none
  · rw [headerDone,if_pos he]
  · rw [headerDone,if_neg he] at h
    exact absurd h he

theorem passedTo_headerDone (r : MadError × MadHeader × MadBitstream) :
    passedTo (headerDone r) = passedTo r := by
  unfold headerDone
  split
  · rename_i he
    simp [passedTo,he]
  · rename_i he
    simp [passedTo,he]

theorem SearchEnd.done {h : Host} {m : Mem} {s : MadBitstream} {ptr : Nat}
    {r : MadError × MadHeader × MadBitstream} (hr : SearchEnd h m s ptr r) :
    SearchEnd h m s ptr (headerDone r) := by
  cases hr with
  | frame keeps sync rate mark legal read valid pos this next room =>
    obtain ⟨he,hb,old,ho⟩ := read
    refine .frame keeps sync rate mark ?_ ⟨he,hb,old,?_⟩ valid pos this next room
    · exact ⟨legal.layer,legal.samplerate,legal.low,legal.bitrate,legal.duration⟩
    · rw [ho]
  | short keeps rate low high this =>
    exact .short ⟨keeps.bufend,keeps.skiplen,keeps.attached⟩ rate low high this
  | reject keeps rate error_rec this next room =>
    rename_i error header t
    have hne : error ≠ .none := fun he => by simp [he,MadError.ofHeader] at error_rec
    simp only [headerDone,if_neg hne]
    exact .reject ⟨keeps.bufend,keeps.skiplen,keeps.attached⟩ rate error_rec this next room

theorem skipStream_eq {s : MadBitstream} (hr : s.InRange) :
    s.bufend < s.start ∧ skipStream s =
      .error { s with skiplen := s.start-s.bufend, nextFrame := s.bufend } ∨
      s.start ≤ s.bufend ∧ skipStream s =
        .ok ({ s with skiplen := 0, sync := s.inStep },s.start) := by
  have hthis := hr.this
  have hnext := hr.next
  unfold MadBitstream.start MadBitstream.inStep skipStream
  by_cases h0 : s.skiplen = 0
  · refine .inr ⟨by rwa [if_pos h0],?_⟩
    simp only [h0,ne_eq,not_true,if_false,if_true,bne_self_eq_false,Bool.or_false]
    rw [← h0]
  · have hfrom : (if s.sync then s.nextFrame else s.thisFrame) ≤ s.bufend := by
      split
      · exact hnext
      · exact hthis
    rw [if_neg h0,if_pos h0]
    by_cases hs : s.bufend-(if s.sync then s.nextFrame else s.thisFrame) < s.skiplen
    · refine .inl ⟨by omega,?_⟩
      simp only [if_pos hs]
      congr 3
      omega
    · refine .inr ⟨by omega,?_⟩
      simp only [if_neg hs]
      simp [h0]

theorem madHeaderDecode_skipping (h : Host) (m : Mem) (header : MadHeader) {s : MadBitstream}
    (ha : s.attached = true) (hr : s.InRange) (hs : s.bufend < s.start) :
    madHeaderDecode h m header s =
      (.buflen,header,
        { s with skiplen := s.start-s.bufend, nextFrame := s.bufend, sync := false }) := by
  obtain ⟨-,he⟩ | ⟨hle,-⟩ := skipStream_eq hr
  · simp [madHeaderDecode,headerDone,ha,he]
  · omega

/-- The call looks for the next frame from `start` on. -/
theorem madHeaderDecode_eq (h : Host) (m : Mem) (header : MadHeader) {s : MadBitstream}
    (ha : s.attached = true) (hr : s.InRange) (hs : s.start ≤ s.bufend) :
    madHeaderDecode h m header s =
      headerDone (syncLoop h m s.bufend header
        { s with skiplen := 0, sync := s.inStep } s.start) := by
  obtain ⟨hlt,-⟩ | ⟨-,he⟩ := skipStream_eq hr
  · omega
  · simp [madHeaderDecode,ha,he]

theorem madHeaderDecode_found (h : Host) (m : Mem) (header : MadHeader) {s : MadBitstream}
    (ha : s.attached = true) (hr : s.InRange) (hs : s.start ≤ s.bufend) :
    SearchEnd h m { s with skiplen := 0 } s.start (madHeaderDecode h m header s) ∧
      NonePassed m s.bufend s.start (passedTo (madHeaderDecode h m header s)) ∧
      (madHeaderDecode h m header s).2.2.sync =
        decide ((madHeaderDecode h m header s).1 = .none) := by
  rw [madHeaderDecode_eq h m header ha hr hs]
  have hstep : s.inStep = false → s.nextFrame = s.start := by
    intro hi
    simp only [MadBitstream.inStep,Bool.or_eq_false_iff,bne_eq_false_iff_eq] at hi
    rw [MadBitstream.start,if_pos hi.2]
  have hfound := syncLoop_found h m s.bufend header (s := { s with skiplen := 0, sync := s.inStep })
    hr.rate hstep hs hr.this
  have hpassed := syncLoop_passed h m s.bufend header
    (s := { s with skiplen := 0, sync := s.inStep }) hr.rate s.start
  refine ⟨SearchEnd.from hfound.done ⟨rfl,rfl,rfl⟩ (Nat.le_refl _),?_,
    headerDone_sync _ fun he => ?_⟩
  · rw [passedTo_headerDone]
    exact hpassed
  · generalize syncLoop h m s.bufend header _ s.start = r at hfound he
    cases hfound with
    | frame _ sync => exact sync
    | short => cases he
    | reject _ _ error_rec =>
      simp only at he
      rw [he] at error_rec
      cases error_rec

/-! In step. -/

theorem locate_inStep {m : Mem} {s : MadBitstream} (hs : s.sync = true) (ptr : Nat) :
    (s.bufend < ptr+madBufferGuard → locate m s ptr =
      .error (.buflen,{ s with nextFrame := ptr })) ∧
      (ptr+madBufferGuard ≤ s.bufend → syncAt m ptr = true → locate m s ptr = .ok (s,ptr)) := by
  refine ⟨fun h => ?_,fun h hm => ?_⟩
  · simp only [locate,hs,if_true,if_pos h]
  · simp only [locate,hs,if_true,if_neg (Nat.not_lt.mpr h),hm,Bool.true_eq_false,if_false]

theorem syncLoop_turn (h : Host) (m : Mem) (turns : Nat) :
    ∃ again, syncLoop h m turns = syncTurn h m again := by
  cases turns with
  | zero => exact ⟨_,rfl⟩
  | succ turns => exact ⟨_,rfl⟩

/-- There is not even room for a header. -/
theorem madHeaderDecode_end (h : Host) (m : Mem) (header : MadHeader) {s : MadBitstream}
    (ha : s.attached = true) (hr : s.InRange) (hi : s.inStep = true) (hs : s.start ≤ s.bufend)
    (hend : s.bufend < s.start+madBufferGuard) :
    madHeaderDecode h m header s = (.buflen,header,
      { s with skiplen := 0, nextFrame := s.start, sync := false }) := by
  have hloc := (locate_inStep (m := m) (s := { s with skiplen := 0, sync := s.inStep }) hi
    s.start).1 hend
  obtain ⟨again,hloop⟩ := syncLoop_turn h m s.bufend
  rw [madHeaderDecode_eq h m header ha hr hs,hloop]
  simp only [syncTurn,hloc]
  rfl

/-- The header of a frame that names its rate is where the call expects it. -/
theorem madHeaderDecode_inStep (h : Host) {m : Mem} (header : MadHeader) {s : MadBitstream}
    (ha : s.attached = true) (hr : s.InRange) (hi : s.inStep = true) {n : Nat}
    (hf : FrameAt m s.start n) (hroom : s.start+madBufferGuard ≤ s.bufend) :
    ∃ ptr, ptr.Valid m ∧
      ptr.pos = 8*s.start+32+(if (namedHeader h m s.start header).flags.protection then 16 else 0) ∧
      madHeaderDecode h m header s = headerDone (closeFrame (namedHeader h m s.start header)
        { s with
          skiplen := 0, sync := true, thisFrame := s.start, nextFrame := s.start+1,
          ptr := ptr }) := by
  have hloc := (locate_inStep (m := m) (s := { s with skiplen := 0, sync := s.inStep }) hi
    s.start).2 hroom hf.mark
  obtain ⟨ptr,hbegin,-,hv,hpos⟩ :=
    beginFrame_frameAt h hf header { s with skiplen := 0, sync := s.inStep }
  obtain ⟨again,hloop⟩ := syncLoop_turn h m s.bufend
  refine ⟨ptr,hv,hpos,?_⟩
  rw [hi] at hloc hbegin
  rw [madHeaderDecode_eq h m header ha hr (by omega),hloop,hi]
  simp only [syncTurn,hloc,hbegin]
  obtain ⟨-,-,hc⟩ | ⟨-,hc⟩ := closeFrame_spec (namedHeader h m s.start header)
    { s with skiplen := 0, sync := true, thisFrame := s.start, nextFrame := s.start+1, ptr := ptr }
  · rw [hc]
  · rw [hc]
    simp

end Mardio
