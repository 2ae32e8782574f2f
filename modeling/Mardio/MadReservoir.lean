import Mardio.DecoderPool
import Mardio.MadSideInfo

/-!
The bit reservoir of Layer III. The main data of a frame may begin up to 511 bytes
before its own payload, so each call keeps as many bytes for the next frame as
that one, looked at in advance, will point back to. `III_decode` is a parameter:
what it makes of the main data is not said here, only where it finds them.
-/

set_option autoImplicit false

namespace Mardio
open ByteMem BitString Cursor

/-- `main_data` and `md_len` of the stream. -/
structure Reservoir where
  mainData : Mem
  mdLen : Nat

/-- The memory the pointer that `III_decode` is given points into, and the pointer. -/
structure MainData where
  mem : Mem
  ptr : MadBitptr

def madNchannels (header : MadHeader) : Nat := if header.mode ≠ 0 then 2 else 1

/-- "find main_data of next frame", if a Layer III header is there. -/
def peekMdBegin (m : Mem) (nextFrame : Nat) : Nat :=
  let (header,peek) := madBitRead m (madBitInit nextFrame) 32
  if header &&& 0xffe60000 = 0xffe20000 then
    let peek := if header &&& 0x00010000 = 0 then madBitSkip m peek 16 else peek
    (madBitRead m peek (if header &&& 0x00080000 ≠ 0 then 9 else 8)).1
  else 0

/-- "find main_data of this frame": where it is unless it begins too early, the
reservoir with what was added to it, and the bytes used of the frame. Nothing is
returned if the assertion fails. -/
def findMainData (m : Mem) (ptr : MadBitptr) (mainDataBegin mdLen : Nat) (r : Reservoir) :
    Option (Option MainData × Reservoir × Nat) :=
  if mainDataBegin = 0 then some (some ⟨m,ptr⟩,{ r with mdLen := 0 },mdLen)
  else if mainDataBegin > r.mdLen then some (none,r,0)
  else if mdLen > mainDataBegin then
    if r.mdLen+mdLen-mainDataBegin ≤ madBufferMdlen then
      let frameUsed := mdLen-mainDataBegin
      let mainData := store r.mainData r.mdLen (window m (madBitNextbyte ptr) frameUsed)
      some (some ⟨mainData,madBitInit (r.mdLen-mainDataBegin)⟩,⟨mainData,r.mdLen+frameUsed⟩,
        frameUsed)
    else none
  else some (some ⟨r.mainData,madBitInit (r.mdLen-mainDataBegin)⟩,r,0)

/-- "preload main_data buffer with up to 511 bytes for next frame(s)". -/
def preload (m : Mem) (nextFrame mainDataBegin mdLen frameFree nextMdBegin : Nat) (r : Reservoir) :
    Reservoir :=
  if frameFree ≥ nextMdBegin then
    ⟨store r.mainData 0 (window m (nextFrame-nextMdBegin) nextMdBegin),nextMdBegin⟩
  else
    let extra := mainDataBegin-mdLen
    let extra := if extra+frameFree > nextMdBegin then nextMdBegin-frameFree else extra
    let r := if mdLen < mainDataBegin then
        if extra < r.mdLen then ⟨ucMemmove r.mainData 0 (r.mdLen-extra) extra,extra⟩ else r
      else { r with mdLen := 0 }
    ⟨store r.mainData r.mdLen (window m (nextFrame-frameFree) frameFree),r.mdLen+frameFree⟩

/-- What a call leaves behind; `main` is history, where it found the main data. -/
structure LayerIII where
  error : MadError
  header : MadHeader
  stream : MadBitstream
  reservoir : Reservoir
  main : Option MainData

section
variable (iiiDecode : MainData → SideInfo → MadHeader → MadError)

/-- `III_decode` is called if nothing was wrong before. -/
def decodeMain (result : MadError) (main : Option MainData) (si : SideInfo) (header : MadHeader) :
    MadError :=
  match main with
  | none => orError result .baddataptr
  | some main => orError result (iiiDecode main si header)

/-- `nomem` tells that one of the two blocks could not be had. The options of the
stream are never set, so that a wrong check word is never ignored. -/
def madLayerIII (nomem : Bool) (m : Mem) (header : MadHeader) (s : MadBitstream) (r : Reservoir) :
    Option LayerIII :=
  let nch := madNchannels header
  let lsf := header.flags.lsfExt
  if nomem then some ⟨.nomem,header,s,r,none⟩
  else if s.nextFrame < madBitNextbyte s.ptr+siLen nch lsf then
    some ⟨.badframelen,header,s,{ r with mdLen := 0 },none⟩
  else
    let check := if header.flags.protection
      then madBitCrc m s.ptr (8*siLen nch lsf) header.crcCheck else header.crcCheck
    let result := if header.flags.protection ∧ check ≠ header.crcTarget then .badcrc else .none
    let ((error,si),ptr) := (iiiSideinfo m nch lsf).run s.ptr
    let result := orError result error
    let header := { header with
      crcCheck := check
      flags := { header.flags with nprivateIII := header.flags.nprivateIII ||| privBitlen nch lsf }
      privateBits := header.privateBits ||| si.privateBits }
    let frameSpace := s.nextFrame-madBitNextbyte ptr
    let peeked := peekMdBegin m s.nextFrame
    let nextMdBegin := if peeked > si.mainDataBegin+frameSpace then 0 else peeked
    let mdLen := si.mainDataBegin+frameSpace-nextMdBegin
    match findMainData m ptr si.mainDataBegin mdLen r with
    | none => none
    | some (main,r,frameUsed) =>
        some ⟨decodeMain iiiDecode result main si header,header,{ s with ptr := ptr },
          preload m s.nextFrame si.mainDataBegin mdLen (frameSpace-frameUsed) nextMdBegin r,main⟩

end

/-! What the reservoir holds. -/

theorem window_take (m : Mem) (a : Nat) {n k : Nat} (h : k ≤ n) :
    (window m a n).take k = window m a k := by
  obtain ⟨j,rfl⟩ := Nat.exists_eq_add_of_le h
  rw [window_add,List.take_left' (window_length m a k)]

theorem window_store_below (m : Mem) {dst a n : Nat} (bs : List UInt8) (h : a+n ≤ dst) :
    window (store m dst bs) a n = window m a n :=
  window_congr fun i hi => store_outside m dst (a+i) bs (.inl (by omega))

def Reservoir.held (r : Reservoir) : List UInt8 := window r.mainData 0 r.mdLen

/-- The end of the payload so far is there. -/
structure Reservoir.Holds (r : Reservoir) (payload : List UInt8) : Prop where
  suffix : r.held <:+ payload
  short : r.mdLen ≤ 511

/-- From `b` bytes before the end of what has gone before. -/
theorem Reservoir.Holds.back {r : Reservoir} {payload : List UInt8} (h : r.Holds payload) {b : Nat}
    (hb : b ≤ r.mdLen) (next : List UInt8) :
    (payload ++ next).drop (payload.length-b) = window r.mainData (r.mdLen-b) b ++ next := by
  obtain ⟨front,rfl⟩ := h.suffix
  have hlen : (front ++ r.held).length = front.length+r.mdLen := by simp [Reservoir.held]
  have hsplit : front.length+r.mdLen-b = front.length+(r.mdLen-b) := by omega
  have hrest : r.mdLen-(r.mdLen-b) = b := by omega
  rw [hlen,hsplit,List.append_assoc,List.drop_append,List.drop_eq_nil_of_le (Nat.le_add_right _ _),
    List.nil_append,Nat.add_sub_cancel_left,
      List.drop_append_of_le_length (by simp [Reservoir.held]),Reservoir.held,window_drop,
    Nat.zero_add,hrest]

section
variable {m : Mem} {r : Reservoir} {payload : List UInt8} {ptr : MadBitptr} {a space b n : Nat}

/-- The main data of a frame that does not point back too far: from `b` bytes before
its payload on, as many bytes as the next frame leaves it. -/
theorem findMainData_found (h : r.Holds payload) (hv : ptr.Valid m) (hp : ptr.pos = 8*a)
    (hb : b ≤ r.mdLen) (hn : n ≤ b+space) (hroom : r.mdLen+space ≤ madBufferMdlen+n) :
    ∃ main r1, findMainData m ptr b (b+space-n) r =
        some (some main,r1,if b = 0 ∨ n < space then space-n else 0) ∧
      (∃ c, main.ptr.Valid main.mem ∧ main.ptr.pos = 8*c ∧ window main.mem c (b+space-n) =
        ((payload ++ window m a space).drop (payload.length-b)).take (b+space-n)) ∧
      (b ≠ 0 → space ≤ n → r1 = r) := by
  have hnext : madBitNextbyte ptr = a := by
    rw [madBitNextbyte_eq hv,hp]
    omega
  rw [h.back hb]
  unfold findMainData
  by_cases h0 : b = 0
  · subst h0
    refine ⟨_,_,by rw [if_pos rfl,if_pos (.inl rfl),Nat.zero_add],⟨a,hv,hp,?_⟩,
      fun hne => absurd rfl hne⟩
    rw [window_zero,List.nil_append,window_take _ _ (by omega)]
  · rw [if_neg h0,if_neg (Nat.not_lt.mpr hb)]
    by_cases hs : n < space
    · rw [if_pos (by omega),if_pos (by omega),if_pos (.inr hs)]
      have hused : b+space-n-b = space-n := by omega
      refine ⟨_,_,by rw [hused,hnext],⟨r.mdLen-b,madBitInit_valid _ _,madBitInit_pos _,?_⟩,
        fun _ hle => by omega⟩
      have hlen : b+space-n = b+(space-n) := by omega
      have hstart : r.mdLen-b+b = r.mdLen := by omega
      have hstored := store_window r.mainData r.mdLen (window m a (space-n))
      rw [window_length] at hstored
      rw [hlen,window_add,window_store_below _ _ (by omega),hstart,hstored,List.take_append,
        window_length,List.take_of_length_le (by simp),Nat.add_sub_cancel_left,
          window_take _ _ (by omega)]
    · rw [if_neg (by omega),if_neg (by omega)]
      refine ⟨_,_,rfl,⟨r.mdLen-b,madBitInit_valid _ _,madBitInit_pos _,?_⟩,fun _ _ => rfl⟩
      rw [List.take_append_of_le_length (by rw [window_length]; omega),window_take _ _ (by omega)]

theorem findMainData_early (m : Mem) (ptr : MadBitptr) (hb : r.mdLen < b) (mdLen : Nat) :
    findMainData m ptr b mdLen r = some (none,r,0) := by
  unfold findMainData
  rw [if_neg (by omega),if_pos hb]

/-- The bytes the next frame points back to are in this frame. -/
theorem preload_full (mdLen : Nat) {free : Nat} (hf : n ≤ free) (hn : n ≤ space) :
    (preload m (a+space) b mdLen free n r).mdLen = n ∧
      (preload m (a+space) b mdLen free n r).held <:+ payload ++ window m a space := by
  unfold preload
  rw [if_pos hf]
  refine ⟨rfl,payload ++ window m a (space-n),?_⟩
  have hspace : space = space-n+n := by omega
  have hstart : a+space-n = a+(space-n) := by omega
  have hstored := store_window r.mainData 0 (window m (a+space-n) n)
  rw [window_length] at hstored
  rw [Reservoir.held,hstored,hstart,List.append_assoc,← window_add,← hspace]

/-- `keep` bytes of the reservoir are moved to the front, and the frame is put behind them. -/
theorem held_keep {x : Mem} {keep : Nat} (hk : keep ≤ r.mdLen)
    (hx : window x 0 keep = window r.mainData (r.mdLen-keep) keep) :
    Reservoir.held ⟨store x keep (window m a space),keep+space⟩ <:+ r.held ++ window m a space := by
  refine ⟨window r.mainData 0 (r.mdLen-keep),?_⟩
  have hstored := store_window x keep (window m a space)
  rw [window_length] at hstored
  have hheld : r.held = window r.mainData 0 (r.mdLen-keep) ++
      window r.mainData (r.mdLen-keep) keep := by
    have hsplit := window_add r.mainData 0 (r.mdLen-keep) keep
    rwa [Nat.zero_add,Nat.sub_add_cancel hk] at hsplit
  rw [hheld]
  simp only [Reservoir.held]
  rw [window_add,window_store_below _ _ (by omega),Nat.zero_add,hstored,hx,List.append_assoc]

/-- They are not: the end of the reservoir stays in front of the whole frame. -/
theorem preload_short (h : r.Holds payload) (hs : space < n) (hn : n ≤ b+space) :
    (preload m (a+space) b (b+space-n) space n r).mdLen = min (n-space) r.mdLen+space ∧
      (preload m (a+space) b (b+space-n) space n r).held <:+ payload ++ window m a space := by
  obtain ⟨front,rfl⟩ := h.suffix
  have hextra : b-(b+space-n) = n-space := by omega
  have hstart : a+space-space = a := by omega
  have hkept : ¬ n-space+space > n := by omega
  have hless : b+space-n < b := by omega
  unfold preload
  rw [if_neg (by omega),List.append_assoc]
  simp only [hextra,hstart,if_neg hkept,if_pos hless]
  split
  · rename_i hlt
    refine ⟨by simp only; omega,(held_keep (show n-space ≤ r.mdLen by omega) ?_).trans
      (List.suffix_append _ _)⟩
    exact ucMemmove_window r.mainData 0 (r.mdLen-(n-space)) (n-space)
  · rename_i hge
    exact ⟨by omega,(held_keep (Nat.le_refl _) (by rw [Nat.sub_self])).trans
      (List.suffix_append _ _)⟩

theorem preload_holds (h : r.Holds payload) (hn : n ≤ b+space) (h511 : n ≤ 511) (r1 : Reservoir)
    (used : Nat) (hfull : n ≤ space → n ≤ space-used) (hshort : space < n → used = 0 ∧ r1 = r) :
    (preload m (a+space) b (b+space-n) (space-used) n r1).mdLen =
        (if n ≤ space then n else min (n-space) r.mdLen+space) ∧
      (preload m (a+space) b (b+space-n) (space-used) n r1).Holds
        (payload ++ window m a space) := by
  by_cases hs : n ≤ space
  · obtain ⟨hlen,hheld⟩ : _ ∧ _ <:+ payload ++ _ :=
      preload_full (m := m) (r := r1) (a := a) (b := b) (b+space-n) (hfull hs) hs
    rw [if_pos hs]
    exact ⟨hlen,hheld,by omega⟩
  · obtain ⟨rfl,rfl⟩ := hshort (by omega)
    obtain ⟨hlen,hheld⟩ := preload_short (m := m) (a := a) h (by omega) hn
    rw [if_neg hs]
    exact ⟨hlen,hheld,by rw [Nat.sub_zero]; omega⟩

/-- No more is kept than the next frame points back to. -/
theorem preload_mdLen (nextFrame mdLen free : Nat) :
    (preload m nextFrame b mdLen free n r).mdLen ≤ n := by
  unfold preload
  split
  · exact Nat.le_refl _
  · have hextra : (if b-mdLen+free > n then n-free else b-mdLen)+free ≤ n := by split <;> omega
    simp only
    generalize (if b-mdLen+free > n then n-free else b-mdLen) = extra at hextra ⊢
    split
    · split
      · exact hextra
      · omega
    · simp only
      omega

/-- The two copies stay in the buffer. -/
theorem findMainData_outside {mdLen used : Nat} {main : Option MainData} {r1 : Reservoir}
    (h : findMainData m ptr b mdLen r = some (main,r1,used)) {x : Nat} (hx : madBufferMdlen ≤ x) :
    r1.mainData x = r.mainData x := by
  unfold findMainData at h
  split at h
  · cases h
    rfl
  · split at h
    · cases h
      rfl
    · split at h
      · split at h
        · cases h
          exact store_outside _ _ _ _ (.inr (by rw [window_length]; omega))
        · cases h
      · cases h
        rfl

theorem preload_outside {mdLen free : Nat} (hn : n ≤ 511) (nextFrame : Nat) {x : Nat}
    (hx : madBufferMdlen ≤ x) :
    (preload m nextFrame b mdLen free n r).mainData x = r.mainData x := by
  have hg : madBufferMdlen = 2567 := rfl
  unfold preload
  split
  · exact store_outside _ _ _ _ (.inr (by rw [window_length]; omega))
  · rename_i hf
    -- what is kept of the reservoir leaves room for the frame among the 511 bytes
    have hkeep : ∀ {y : Reservoir}, y.mdLen+free ≤ n → y.mainData x = r.mainData x →
        store y.mainData y.mdLen (window m (nextFrame-free) free) x = r.mainData x := by
      intro y hy hsame
      rw [store_outside _ _ _ _ (.inr (by rw [window_length]; omega)),hsame]
    have hextra : (if b-mdLen+free > n then n-free else b-mdLen)+free ≤ n := by split <;> omega
    simp only
    generalize (if b-mdLen+free > n then n-free else b-mdLen) = extra at hextra ⊢
    split
    · split
      · exact hkeep hextra (by simp only [ucMemmove_apply]; rw [if_neg (by omega)])
      · exact hkeep (by omega) rfl
    · exact hkeep (by simp only; omega) rfl

end

theorem peekMdBegin_eq (m : Mem) (a : Nat) :
    peekMdBegin m a =
      if field m (8*a) 32 &&& 0xffe60000 = 0xffe20000 then
        field m (8*a+(if field m (8*a) 32 &&& 0x00010000 = 0 then 48 else 32))
          (if field m (8*a) 32 &&& 0x00080000 ≠ 0 then 9 else 8)
      else 0 := by
  obtain ⟨peek,hread,hv,hpos⟩ := madBitRead_eq (madBitInit_valid m a) 32
  rw [madBitInit_pos] at hread hpos
  obtain ⟨hskip,hskipped⟩ := madBitSkip_spec hv 16
  simp only [peekMdBegin,hread]
  split
  · split
    · rw [(madBitRead_spec hskip _).1,hskipped,hpos]
    · rw [(madBitRead_spec hv _).1,hpos]
  · rfl

theorem peekMdBegin_lt (m : Mem) (nextFrame : Nat) : peekMdBegin m nextFrame < 512 := by
  rw [peekMdBegin_eq]
  split
  · refine (field_lt m _ _).trans_le ?_
    split <;> decide
  · decide

/-- Nothing is looked at behind the eight bytes that libmad wants behind a frame. -/
theorem peekMdBegin_congr {m m' : Mem} {a a' : Nat}
    (h : window m a madBufferGuard = window m' a' madBufferGuard) :
    peekMdBegin m a = peekMdBegin m' a' := by
  have hguard : madBufferGuard = 8 := rfl
  have hword : field m (8*a) 32 = field m' (8*a') 32 := field_window_congr (k := 0) h (by omega)
  rw [peekMdBegin_eq,peekMdBegin_eq,hword]
  split
  · exact field_window_congr h (by split <;> split <;> omega)
  · rfl

/-- A mask without low bits leaves them alone. -/
theorem and_upper (u k : Nat) {v : Nat} (hv : v < 2^16) :
    (u*2^16+v) &&& (k*2^16) = (u &&& k)*2^16 := by
  refine Nat.eq_of_testBit_eq fun i => ?_
  rw [Nat.testBit_and,Nat.mul_comm u,Nat.testBit_two_pow_mul_add _ hv,Nat.testBit_mul_two_pow,
    Nat.testBit_mul_two_pow,Nat.testBit_and]
  by_cases hi : i < 16
  · simp [hi,Nat.not_le.mpr hi]
  · simp [hi,Nat.le_of_not_lt hi]

/-- What is looked at in advance, where the mark of a Layer III frame is. -/
theorem peekMdBegin_frame {m : Mem} {a : Nat} (hs : syncAt m a = true)
    (hl : (headerWord m (8*a)).layer = 1) :
    peekMdBegin m a = field m (8*a+(if (headerWord m (8*a)).protection = 0 then 48 else 32))
      (if (headerWord m (8*a)).id ≠ 0 then 9 else 8) := by
  obtain ⟨h0,h1⟩ := (syncAt_iff m a).mp hs
  have hlt := (m (a+1)).toNat_lt
  have hlow := field_lt m (8*a+16) 16
  have hword : field m (8*a) 32 = (0xff00+(m (a+1)).toNat)*2^16+field m (8*a+16) 16 := by
    have hsecond : 8*a+8 = 8*(a+1) := by omega
    rw [field_add m (8*a) 16 16,field_add m (8*a) 8 8,field_byte,h0,hsecond,field_byte]
    omega
  -- the second byte decides
  have hmask : ∀ b < 256, b/32 = 7 → b/2 % 4 = 1 → (0xff00+b) &&& 0xffe6 = 0xffe2 ∧
      ((0xff00+b) &&& 1 = 0 ↔ b % 2 = 0) ∧ ((0xff00+b) &&& 8 = 0 ↔ b/8 % 2 = 0) := by decide +kernel
  rw [headerWord_eq] at hl ⊢
  obtain ⟨hlayer,hprotection,hid⟩ := hmask _ hlt h1 hl
  have hmark := and_upper (0xff00+(m (a+1)).toNat) 0xffe6 hlow
  have hcheck := and_upper (0xff00+(m (a+1)).toNat) 1 hlow
  have hlsf := and_upper (0xff00+(m (a+1)).toNat) 8 hlow
  rw [← hword] at hmark hcheck hlsf
  norm_num only at hmark hcheck hlsf
  rw [peekMdBegin_eq,hmark,hcheck,hlsf,hlayer,if_pos rfl]
  simp only [Nat.mul_eq_zero,hprotection,hid,OfNat.ofNat_ne_zero,or_false,ne_eq]

/-! One call. -/

/-- A call with the pointer behind the header and the check word, at a whole byte. -/
structure LayerCall where
  mem : Mem
  header : MadHeader
  stream : MadBitstream
  byte : Nat
  valid : stream.ptr.Valid mem
  aligned : stream.ptr.pos = 8*byte

namespace LayerCall

def lsf (c : LayerCall) : Bool := c.header.flags.lsfExt
def nch (c : LayerCall) : Nat := madNchannels c.header
def body (c : LayerCall) : Nat := c.byte+siLen c.nch c.lsf
def space (c : LayerCall) : Nat := c.stream.nextFrame-c.body
def payload (c : LayerCall) : List UInt8 := window c.mem c.body c.space
def sideinfo (c : LayerCall) : SideInfo := sideinfoAt c.mem c.nch c.lsf (8*c.byte)
def mdBegin (c : LayerCall) : Nat := c.sideinfo.mainDataBegin

/-- The bytes that are kept for the next frame, if they are there at all. -/
def nextBegin (c : LayerCall) : Nat :=
  let peeked := peekMdBegin c.mem c.stream.nextFrame
  if peeked > c.mdBegin+c.space then 0 else peeked

def mdLen (c : LayerCall) : Nat := c.mdBegin+c.space-c.nextBegin

def check (c : LayerCall) : BitVec 16 :=
  if c.header.flags.protection then madBitCrc c.mem c.stream.ptr (8*siLen c.nch c.lsf)
    c.header.crcCheck
  else c.header.crcCheck

/-- What is wrong with the frame before its main data are looked for. -/
def fault (c : LayerCall) : MadError :=
  orError (if c.header.flags.protection ∧ c.check ≠ c.header.crcTarget then .badcrc else .none)
    (sideinfoFault c.mem c.nch c.lsf (8*c.byte))

def headerAfter (c : LayerCall) : MadHeader :=
  { c.header with
    crcCheck := c.check
    flags := { c.header.flags with
      nprivateIII := c.header.flags.nprivateIII ||| privBitlen c.nch c.lsf }
    privateBits := c.header.privateBits ||| c.sideinfo.privateBits }

theorem nextBegin_le (c : LayerCall) : c.nextBegin ≤ c.mdBegin+c.space ∧ c.nextBegin ≤ 511 := by
  have hp := peekMdBegin_lt c.mem c.stream.nextFrame
  unfold nextBegin
  simp only
  split <;> omega

theorem nch_or (c : LayerCall) : c.nch = 1 ∨ c.nch = 2 := by
  unfold nch madNchannels
  split
  · exact .inr rfl
  · exact .inl rfl

end LayerCall

section
variable (iiiDecode : MainData → SideInfo → MadHeader → MadError)

/-- The frame has its side information. -/
theorem madLayerIII_eq (c : LayerCall) (hfit : c.body ≤ c.stream.nextFrame) (r : Reservoir) :
    ∃ ptr, ptr.Valid c.mem ∧ ptr.pos = 8*c.body ∧
      madLayerIII iiiDecode false c.mem c.header c.stream r =
      (findMainData c.mem ptr c.mdBegin c.mdLen r).map fun x =>
        ⟨decodeMain iiiDecode c.fault x.1 c.sideinfo c.headerAfter,c.headerAfter,
          { c.stream with ptr := ptr },preload c.mem c.stream.nextFrame c.mdBegin c.mdLen
            (c.space-x.2.2) c.nextBegin x.2.1,x.1⟩ := by
  obtain ⟨hval,hvalid,hpos⟩ := iiiSideinfo_reads c.mem c.nch_or c.lsf c.stream.ptr c.valid
  rw [c.aligned] at hval hpos
  have hnext : madBitNextbyte c.stream.ptr = c.byte := by
    rw [madBitNextbyte_eq c.valid,c.aligned]
    omega
  rcases hr : (iiiSideinfo c.mem c.nch c.lsf).run c.stream.ptr with ⟨⟨error,si⟩,ptr⟩
  rw [hr] at hval hvalid hpos
  simp only [Prod.mk.injEq] at hval hvalid hpos
  obtain ⟨rfl,rfl⟩ := hval
  have hbody : madBitNextbyte ptr = c.body := by
    rw [madBitNextbyte_eq hvalid,hpos]
    unfold LayerCall.body
    omega
  refine ⟨ptr,hvalid,by rw [hpos]; unfold LayerCall.body; omega,?_⟩
  have hfit' : ¬ c.stream.nextFrame < c.byte+siLen c.nch c.lsf := Nat.not_lt.mpr hfit
  unfold madLayerIII
  simp only [show madNchannels c.header = c.nch from rfl,
    show c.header.flags.lsfExt = c.lsf from rfl,hr,hnext,hbody,if_neg hfit']
  change (match findMainData c.mem ptr c.mdBegin c.mdLen r with
    | none => none
    | some (main,r,used) => _) = _
  cases findMainData c.mem ptr c.mdBegin c.mdLen r with
  | none => rfl
  | some x => rfl

/-- The frame is too short for its side information. -/
theorem madLayerIII_badframelen (c : LayerCall) (hfit : c.stream.nextFrame < c.body)
    (r : Reservoir) :
    madLayerIII iiiDecode false c.mem c.header c.stream r =
      some ⟨.badframelen,c.header,c.stream,{ r with mdLen := 0 },none⟩ := by
  have hnext : madBitNextbyte c.stream.ptr = c.byte := by
    rw [madBitNextbyte_eq c.valid,c.aligned]
    omega
  have hfit' : c.stream.nextFrame < c.byte+siLen c.nch c.lsf := hfit
  unfold madLayerIII
  simp only [show madNchannels c.header = c.nch from rfl,
    show c.header.flags.lsfExt = c.lsf from rfl,hnext,Bool.false_eq_true,if_false,if_pos hfit']

/-- The bytes from the pointer on. -/
def MainData.bytes (main : MainData) (n : Nat) : List UInt8 :=
  window main.mem (madBitNextbyte main.ptr) n

/-- The main data of a frame behind `before` whose payload is `own`: from `b` bytes back. -/
def mainDataOf (before own : List UInt8) (b len : Nat) : List UInt8 :=
  ((before ++ own).drop (before.length-b)).take len

structure LayerStep (c : LayerCall) (r : Reservoir) (before : List UInt8) (out : LayerIII) :
    Prop where
  holds : out.reservoir.Holds (before ++ c.payload)
  kept : out.reservoir.mdLen =
    if c.nextBegin ≤ c.space then c.nextBegin else min (c.nextBegin-c.space) r.mdLen+c.space
  outside : ∀ x, madBufferMdlen ≤ x → out.reservoir.mainData x = r.mainData x
  found : c.mdBegin ≤ r.mdLen → ∃ main, out.main = some main ∧
    main.bytes c.mdLen = mainDataOf before c.payload c.mdBegin c.mdLen ∧
    out.error = orError c.fault (iiiDecode main c.sideinfo c.headerAfter)
  early : r.mdLen < c.mdBegin → out.main = none ∧ out.error = orError c.fault .baddataptr

theorem madLayerIII_step {c : LayerCall} (hfit : c.body ≤ c.stream.nextFrame)
    (hroom : c.space ≤ 2056) {r : Reservoir} {before : List UInt8} (h : r.Holds before) :
    ∃ out, madLayerIII iiiDecode false c.mem c.header c.stream r = some out ∧
      LayerStep iiiDecode c r before out := by
  have hg : madBufferMdlen = 2567 := rfl
  have hshort := h.short
  obtain ⟨hle,h511⟩ := c.nextBegin_le
  have hnext : c.stream.nextFrame = c.body+c.space := by
    unfold LayerCall.space
    omega
  obtain ⟨ptr,hvalid,hpos,heq⟩ := madLayerIII_eq iiiDecode c hfit r
  by_cases hb : c.mdBegin ≤ r.mdLen
  · obtain ⟨main,r1,hfind,⟨a,hv,ha,hbytes⟩,hsame⟩ :=
      findMainData_found (m := c.mem) (a := c.body) (n := c.nextBegin) h hvalid hpos hb hle
        (by omega)
    have hstep := preload_holds (m := c.mem) (a := c.body) h hle h511 r1
      (if c.mdBegin = 0 ∨ c.nextBegin < c.space then c.space-c.nextBegin else 0)
      (fun hs => by split <;> omega)
      (fun hs => ⟨if_neg (by omega),hsame (by omega) hs.le⟩)
    have hmain : main.bytes c.mdLen = mainDataOf before c.payload c.mdBegin c.mdLen := by
      have hnext : madBitNextbyte main.ptr = a := by
        rw [madBitNextbyte_eq hv,ha]
        omega
      rw [MainData.bytes,hnext]
      exact hbytes
    refine ⟨_,heq.trans (congrArg (Option.map _) hfind),?_,?_,fun x hx => ?_,
      fun _ => ⟨main,rfl,hmain,rfl⟩,fun hlt => by omega⟩
    · rw [hnext]
      exact hstep.2
    · rw [hnext]
      exact hstep.1
    · exact (preload_outside h511 _ hx).trans (findMainData_outside hfind hx)
  · have hfind := findMainData_early c.mem ptr (show r.mdLen < c.mdBegin by omega) c.mdLen
    have hstep := preload_holds (m := c.mem) (a := c.body) h hle h511 r 0 (fun hs => hs)
      (fun _ => ⟨rfl,rfl⟩)
    refine ⟨_,heq.trans (congrArg (Option.map _) hfind),?_,?_,fun x hx => preload_outside h511 _ hx,
      fun hle' => absurd hle' hb,fun _ => ⟨rfl,rfl⟩⟩
    · rw [hnext]
      exact hstep.2
    · rw [hnext]
      exact hstep.1

/-! Any number of calls. -/

def layerRun : List LayerCall → Reservoir → Option (List LayerIII × Reservoir)
  | [], r => some ([],r)
  | c :: cs, r => do
      let out ← madLayerIII iiiDecode false c.mem c.header c.stream r
      let rest ← layerRun cs out.reservoir
      return (out :: rest.1,rest.2)

def payloadOf (calls : List LayerCall) : List UInt8 := (calls.map LayerCall.payload).flatten

/-- A call of any kind: a frame without its side information empties the reservoir. -/
theorem madLayerIII_any {c : LayerCall} (hroom : c.space ≤ 2056) {r : Reservoir}
    {before : List UInt8} (h : r.Holds before) :
    ∃ out, madLayerIII iiiDecode false c.mem c.header c.stream r = some out ∧
      out.reservoir.Holds (before ++ c.payload) ∧
      (∀ x, madBufferMdlen ≤ x → out.reservoir.mainData x = r.mainData x) ∧
      ∀ main, out.main = some main → c.mdBegin ≤ before.length ∧
        main.bytes c.mdLen = mainDataOf before c.payload c.mdBegin c.mdLen := by
  by_cases hfit : c.body ≤ c.stream.nextFrame
  · obtain ⟨out,hout,hstep⟩ := madLayerIII_step iiiDecode hfit hroom h
    refine ⟨out,hout,hstep.holds,hstep.outside,fun main hmain => ?_⟩
    by_cases hb : c.mdBegin ≤ r.mdLen
    · obtain ⟨main',hsome,hbytes,-⟩ := hstep.found hb
      have hlen := h.suffix.length_le
      rw [hmain,Option.some.injEq] at hsome
      rw [Reservoir.held,window_length] at hlen
      exact ⟨hb.trans hlen,hsome ▸ hbytes⟩
    · rw [(hstep.early (by omega)).1] at hmain
      cases hmain
  · refine ⟨_,madLayerIII_badframelen iiiDecode c (by omega) r,⟨?_,Nat.zero_le _⟩,fun _ _ => rfl,
      fun _ h => by cases h⟩
    exact List.nil_suffix

theorem layerRun_any (calls : List LayerCall) (hroom : ∀ c ∈ calls, c.space ≤ 2056) {r : Reservoir}
    {before : List UInt8} (h : r.Holds before) :
    ∃ outs r', layerRun iiiDecode calls r = some (outs,r') ∧ r'.Holds (before ++ payloadOf calls) ∧
      (∀ x, madBufferMdlen ≤ x → r'.mainData x = r.mainData x) ∧ outs.length = calls.length ∧
      ∀ i c out main, calls[i]? = some c → outs[i]? = some out → out.main = some main →
        c.mdBegin ≤ (before ++ payloadOf (calls.take i)).length ∧
        main.bytes c.mdLen = mainDataOf (before ++ payloadOf (calls.take i)) c.payload
          c.mdBegin c.mdLen := by
  induction calls generalizing r before with
  | nil =>
    exact ⟨[],r,rfl,by simpa [payloadOf] using h,fun _ _ => rfl,rfl,
      fun i c out main hc => by simp at hc⟩
  | cons c cs ih =>
    obtain ⟨out,hout,hholds,houtside,hmain⟩ := madLayerIII_any iiiDecode (hroom c (by simp)) h
    obtain ⟨outs,r',hrun,hholds',houtside',hlen,hmain'⟩ :=
      ih (fun c hc => hroom c (by simp [hc])) hholds
    refine ⟨out :: outs,r',by simp [layerRun,hout,hrun],?_,
      fun x hx => (houtside' x hx).trans (houtside x hx),by simp [hlen],
        fun i c' out' main hc ho hm => ?_⟩
    · simpa [payloadOf,List.append_assoc] using hholds'
    · cases i with
      | zero =>
        simp only [List.getElem?_cons_zero,Option.some.injEq] at hc ho
        subst hc ho
        simpa [payloadOf] using hmain main hm
      | succ i =>
        simp only [List.getElem?_cons_succ] at hc ho
        simpa [payloadOf,List.append_assoc] using hmain' i c' out' main hc ho hm

/-- Whatever frames come, in whatever buffers: the assertion holds, nothing is written
outside the 2567 bytes, the reservoir has the end of the payload so far, and main data
that are found are the payload bytes from `main_data_begin` back. -/
theorem layerRun_mainData (calls : List LayerCall) (hroom : ∀ c ∈ calls, c.space ≤ 2056)
    (mainData : Mem) :
    ∃ outs r', layerRun iiiDecode calls ⟨mainData,0⟩ = some (outs,r') ∧ r'.Holds (payloadOf calls) ∧
      (∀ x, madBufferMdlen ≤ x → r'.mainData x = mainData x) ∧ outs.length = calls.length ∧
      ∀ i c out main, calls[i]? = some c → outs[i]? = some out → out.main = some main →
        c.mdBegin ≤ (payloadOf (calls.take i)).length ∧
        main.bytes c.mdLen = mainDataOf (payloadOf (calls.take i)) c.payload c.mdBegin c.mdLen := by
  have hempty : (⟨mainData,0⟩ : Reservoir).Holds [] := ⟨List.nil_suffix,Nat.zero_le _⟩
  simpa using layerRun_any iiiDecode calls hroom hempty

/-- A frame of 24 bytes at 0, and one at 24 that points five bytes back. -/
def pairMem : Mem := fun a => if a = 28 then 5 else [0xff,0xf3,0x14,0xc0].getD (a % 24) 0

def pairCall (start : Nat) : LayerCall where
  mem := pairMem
  header := (headerWord pairMem (8*start)).header pairMem (8*start) madHeaderInit
  stream := ⟨⟨start+24+madBufferGuard,start,start+24,0⟩,true,true,0,madBitInit (start+4)⟩
  byte := start+4
  valid := madBitInit_valid _ _
  aligned := madBitInit_pos _

theorem layerRun_mainData_pair :
    ∃ outs r', layerRun (fun _ _ _ => .none) [pairCall 0,pairCall 24] ⟨fun _ => 0,0⟩ =
      some (outs,r') ∧
      r'.Holds (payloadOf [pairCall 0,pairCall 24]) ∧
      (∀ x, madBufferMdlen ≤ x → r'.mainData x = 0) ∧ outs.length = 2 ∧
      ∀ i c out main, [pairCall 0,pairCall 24][i]? = some c → outs[i]? = some out →
        out.main = some main →
        c.mdBegin ≤ (payloadOf ([pairCall 0,pairCall 24].take i)).length ∧ main.bytes c.mdLen =
          mainDataOf (payloadOf ([pairCall 0,pairCall 24].take i)) c.payload c.mdBegin c.mdLen :=
  layerRun_mainData _ [pairCall 0,pairCall 24] (by decide +kernel) _

/-- The call is for the Layer III frame at `this_frame`: its header has been read there,
and the pointer is behind it and its check word. -/
structure LayerCall.OfFrame (c : LayerCall) : Prop where
  sync : syncAt c.mem c.stream.thisFrame = true
  read : c.header.ReadAt c.mem c.stream.thisFrame
  layer : c.header.layer = 3
  byte : c.byte = c.stream.thisFrame+if c.header.flags.protection then 6 else 4

/-- The bytes behind a frame are the first of the next one, in whatever buffer that is,
and its main data do not begin before those of this one. -/
structure LayerCall.Follows (c c' : LayerCall) : Prop where
  frame : c'.OfFrame
  bytes : window c.mem c.stream.nextFrame madBufferGuard =
    window c'.mem c'.stream.thisFrame madBufferGuard
  within : c'.mdBegin ≤ c.mdBegin+c.space

/-- The look in advance finds what the next call will read. -/
theorem LayerCall.Follows.peek {c c' : LayerCall} (h : c.Follows c') :
    peekMdBegin c.mem c.stream.nextFrame = c'.mdBegin := by
  obtain ⟨hlayer,-,-,hlsf⟩ := h.frame.read.fields
  obtain ⟨-,-,old,ho⟩ := h.frame.read
  have hprotection := congrArg (fun header => header.flags.protection) ho
  have hin := (headerWord_inRange c'.mem (8*c'.stream.thisFrame)).layer
  have hthree := h.frame.layer
  rw [peekMdBegin_congr h.bytes,peekMdBegin_frame h.frame.sync (by omega)]
  simp only [LayerCall.mdBegin,LayerCall.sideinfo,sideinfoAt,LayerCall.lsf,hlsf,h.frame.byte,
    hprotection,HeaderWord.flags,Nat.mul_add]
  by_cases hp : (headerWord c'.mem (8*c'.stream.thisFrame)).protection = 0 <;>
    by_cases hid : (headerWord c'.mem (8*c'.stream.thisFrame)).id = 0 <;> simp [hp,hid]

/-- What comes of a frame behind `before`: its main data, if they are not from before
the start. -/
def MainFrom (c : LayerCall) (before : List UInt8) (out : LayerIII) : Prop :=
  if c.mdBegin ≤ before.length then
    ∃ main, out.main = some main ∧ main.bytes c.mdLen =
      mainDataOf before c.payload c.mdBegin c.mdLen ∧
      out.error = orError c.fault (iiiDecode main c.sideinfo c.headerAfter)
  else out.main = none ∧ out.error = orError c.fault .baddataptr

theorem LayerStep.mainFrom {c : LayerCall} {r : Reservoir} {before : List UInt8} {out : LayerIII}
    (h : LayerStep iiiDecode c r before out) (hr : r.mdLen = min c.mdBegin before.length) :
    MainFrom iiiDecode c before out := by
  unfold MainFrom
  split
  · exact h.found (by omega)
  · exact h.early (by omega)

theorem layerRun_chain (calls : List LayerCall)
    (hfit : ∀ c ∈ calls, c.body ≤ c.stream.nextFrame ∧ c.space ≤ 2056)
    (hchain : calls.IsChain LayerCall.Follows) {r : Reservoir} {before : List UInt8}
    (h : r.Holds before) (hhead : ∀ c ∈ calls.head?, r.mdLen = min c.mdBegin before.length) :
    ∃ outs r', layerRun iiiDecode calls r = some (outs,r') ∧ outs.length = calls.length ∧
      ∀ i c out, calls[i]? = some c → outs[i]? = some out →
        MainFrom iiiDecode c (before ++ payloadOf (calls.take i)) out := by
  induction calls generalizing r before with
  | nil => exact ⟨[],r,rfl,rfl,fun i c out hc => by simp at hc⟩
  | cons c cs ih =>
    obtain ⟨hbody,hroom⟩ := hfit c (by simp)
    have hr := hhead c (by simp)
    obtain ⟨out,hout,hstep⟩ := madLayerIII_step iiiDecode hbody hroom h
    -- the reservoir has what the next frame points back to, as far as there is such
    have hhead' : ∀ c' ∈ cs.head?, out.reservoir.mdLen =
        min c'.mdBegin (before ++ c.payload).length := by
      intro c' hc'
      cases cs with
      | nil => simp at hc'
      | cons d ds =>
        simp only [List.head?_cons,Option.mem_def,Option.some.injEq] at hc'
        subst hc'
        have hnext := (List.isChain_cons_cons.mp hchain).1
        have hle := hnext.within
        have hn : c.nextBegin = d.mdBegin := by
          simp only [LayerCall.nextBegin,hnext.peek]
          rw [if_neg (by omega)]
        have hlen : c.payload.length = c.space := window_length _ _ _
        rw [hstep.kept,hn,hr,List.length_append,hlen]
        split <;> omega
    obtain ⟨outs,r',hrun,hlen,hmain⟩ :=
      ih (fun c hc => hfit c (by simp [hc])) hchain.tail hstep.holds hhead'
    refine ⟨out :: outs,r',by simp [layerRun,hout,hrun],by simp [hlen],fun i c' out' hc ho => ?_⟩
    cases i with
    | zero =>
      simp only [List.getElem?_cons_zero,Option.some.injEq] at hc ho
      subst hc ho
      simpa [payloadOf] using hstep.mainFrom iiiDecode hr
    | succ i =>
      simp only [List.getElem?_cons_succ] at hc ho
      simpa [payloadOf,List.append_assoc] using hmain i c' out' hc ho

/-- Where frames follow one another, no main data are missed but those from before the
first frame: the call is left to `III_decode` and to the faults of the frame itself. -/
theorem layerRun_follows (calls : List LayerCall)
    (hfit : ∀ c ∈ calls, c.body ≤ c.stream.nextFrame ∧ c.space ≤ 2056)
    (hchain : calls.IsChain LayerCall.Follows) (mainData : Mem) :
    ∃ outs r', layerRun iiiDecode calls ⟨mainData,0⟩ = some (outs,r') ∧ outs.length = calls.length ∧
      ∀ i c out, calls[i]? = some c → outs[i]? = some out →
        MainFrom iiiDecode c (payloadOf (calls.take i)) out := by
  have hempty : (⟨mainData,0⟩ : Reservoir).Holds [] := ⟨List.nil_suffix,Nat.zero_le _⟩
  simpa using layerRun_chain iiiDecode calls hfit hchain hempty (fun c _ => by simp)

theorem layerRun_follows_pair :
    ∃ outs r', layerRun (fun _ _ _ => .none) [pairCall 0,pairCall 24] ⟨fun _ => 0,0⟩ =
      some (outs,r') ∧
      outs.length = 2 ∧ ∀ i c out, [pairCall 0,pairCall 24][i]? = some c → outs[i]? = some out →
        MainFrom (fun _ _ _ => .none) c (payloadOf ([pairCall 0,pairCall 24].take i)) out :=
  layerRun_follows _ [pairCall 0,pairCall 24] (by decide +kernel)
    (List.isChain_cons_cons.mpr
      ⟨⟨⟨by decide +kernel,⟨by decide +kernel,fun _ => rfl,madHeaderInit,rfl⟩,by decide +kernel,
        by decide +kernel⟩,by decide +kernel,by decide +kernel⟩,.singleton _⟩) _

end

/-! The check word. -/

theorem LayerCall.check_run (c : LayerCall) (hp : c.header.flags.protection = true) :
    c.check = Crc.run crcPoly c.header.crcCheck (bits c.mem (8*c.byte) (8*siLen c.nch c.lsf)) := by
  rw [LayerCall.check,if_pos hp,madBitCrc_run c.valid,c.aligned]

/-- Side information that differs from one with the right check word within 16 bits has
a wrong one. -/
theorem LayerCall.fault_burst {c c' : LayerCall} (hheader : c'.header = c.header)
    (hbyte : c'.byte = c.byte) (hp : c.header.flags.protection = true)
    (hok : c.check = c.header.crcTarget) {as xs ys cs : List Bool}
    (hbits : bits c.mem (8*c.byte) (8*siLen c.nch c.lsf) = as ++ xs ++ cs)
    (hbits' : bits c'.mem (8*c.byte) (8*siLen c.nch c.lsf) = as ++ ys ++ cs)
    (hl : xs.length = ys.length) (hw : xs.length ≤ 16) (hne : xs ≠ ys) : c'.fault = .badcrc := by
  have hp' : c'.header.flags.protection = true := hheader ▸ hp
  have hbad : c'.check ≠ c'.header.crcTarget := by
    rw [hheader,← hok,c.check_run hp,c'.check_run hp',hbits,hbyte]
    have hsame : siLen c'.nch c'.lsf = siLen c.nch c.lsf := by
      unfold LayerCall.nch LayerCall.lsf
      rw [hheader]
    rw [hsame,hbits',hheader]
    intro h
    exact hne (Crc.run_burst (by decide) _ as cs hl hw h.symm)
  rw [LayerCall.fault,if_pos ⟨hp',hbad⟩]
  rfl

/-- The check word that is computed table by table is the one computed bit by bit, and so
any burst of errors up to 16 bits long in the side information of a protected frame is
found, whatever the reservoir has and whatever else the burst has made of the frame. -/
theorem madLayerIII_burst (iiiDecode : MainData → SideInfo → MadHeader → MadError)
    {c c' : LayerCall} (hheader : c'.header = c.header) (hbyte : c'.byte = c.byte)
    (hp : c.header.flags.protection = true) (hok : c.check = c.header.crcTarget)
    {as xs ys cs : List Bool} (hbits : bits c.mem (8*c.byte) (8*siLen c.nch c.lsf) = as ++ xs ++ cs)
    (hbits' : bits c'.mem (8*c.byte) (8*siLen c.nch c.lsf) = as ++ ys ++ cs)
    (hl : xs.length = ys.length) (hw : xs.length ≤ 16) (hne : xs ≠ ys)
    (hfit : c'.body ≤ c'.stream.nextFrame) (hroom : c'.space ≤ 2056) {r : Reservoir}
    (hr : r.mdLen ≤ 511) :
    (∀ p : MadBitptr, p.Valid c'.mem → ∀ len init,
      madBitCrc c'.mem p len init = Crc.run crcPoly init (bits c'.mem p.pos len)) ∧
    ∃ out, madLayerIII iiiDecode false c'.mem c'.header c'.stream r = some out ∧
      out.error = .badcrc := by
  refine ⟨fun p hv len init => madBitCrc_run hv len init,?_⟩
  have hfault := LayerCall.fault_burst hheader hbyte hp hok hbits hbits' hl hw hne
  obtain ⟨out,hout,-⟩ := madLayerIII_any iiiDecode hroom ⟨List.suffix_rfl,hr⟩
  refine ⟨out,hout,?_⟩
  obtain ⟨ptr,-,-,heq⟩ := madLayerIII_eq iiiDecode c' hfit r
  rw [heq] at hout
  obtain ⟨x,-,rfl⟩ := Option.map_eq_some_iff.mp hout
  rw [hfault]
  rcases x.1 with _ | main <;> rfl

/-- A protected frame whose side information is all zero but for one byte. -/
def checkedCall (byte : UInt8) : LayerCall where
  mem := fun a => if a = 10 then byte else 0
  header := { madHeaderInit with
    layer := 3, flags := { MadFlags.none with protection := true }
    crcCheck := 0xffff, crcTarget := madBitCrc (fun _ => 0) (madBitInit 6) 136 0xffff }
  stream := ⟨⟨108,0,100,0⟩,true,true,0,madBitInit 6⟩
  byte := 6
  valid := madBitInit_valid _ _
  aligned := madBitInit_pos _

theorem madLayerIII_burst_flipped :
    ∃ out, madLayerIII (fun _ _ _ => .none) false (checkedCall 0x5a).mem (checkedCall 0x5a).header
      (checkedCall 0x5a).stream ⟨fun _ => 0,0⟩ = some out ∧ out.error = .badcrc := by
  have hheader : (checkedCall 0x5a).header = (checkedCall 0).header := rfl
  have hcheck : (checkedCall 0).check = (checkedCall 0).header.crcTarget := by decide +kernel
  have hbits : bits (checkedCall 0).mem (8*(checkedCall 0).byte)
      (8*siLen (checkedCall 0).nch (checkedCall 0).lsf) =
      List.replicate 32 false ++ List.replicate 8 false ++ List.replicate 96 false := by
        decide +kernel
  have hbits' : bits (checkedCall 0x5a).mem (8*(checkedCall 0).byte)
      (8*siLen (checkedCall 0).nch (checkedCall 0).lsf) =
      List.replicate 32 false ++ digits 8 0x5a ++ List.replicate 96 false := by decide +kernel
  exact (madLayerIII_burst _ hheader rfl rfl hcheck hbits hbits' (by decide) (by decide) (by decide)
    (by decide) (by decide) (Nat.zero_le _)).2

end Mardio
