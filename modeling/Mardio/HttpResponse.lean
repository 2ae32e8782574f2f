import Mardio.Commands
import Mardio.Lib.Infix
import Mardio.Pbuf

/-!
The first block of the server's response: both hosts look for three texts in the
buffer it was received into, wherever they stand. Here the searches are given the
buffer and not a string, and have no result where they leave it.
-/

set_option autoImplicit false

namespace Mardio
open ByteMem

inductive Verdict where
  | notFound | ogg | unknownMedia | accepted
  deriving DecidableEq, Repr

/-- The three searches, each made if the one before it did not decide. -/
def scanResponse (buf : Str) : Option Verdict :=
  (ucStrstrIn buf error404).bind fun r =>
    if r.isSome then some .notFound
    else (ucStrstrIn buf applicationOgg).bind fun r =>
      if r.isSome then some .ogg
      else (ucStrstrIn buf audioMpeg).bind fun r =>
        if r.isNone then some .unknownMedia else some .accepted

def httprequestSize : Nat := 1024

/-- The bytes at the start of a buffer that was cleared before. -/
def padded (size : Nat) (bytes : Str) : Str := bytes ++ List.replicate (size-bytes.length) 0

def Host.responseSize : Host → Nat
  | .linux => httprequestSize
  | .stm32 => tcpMss

/-- `recv` gives no more than the buffer holds; a longer chain is not searched. -/
def Host.responseBuffer (h : Host) (bytes : Str) : Str :=
  padded h.responseSize (bytes.take h.responseSize)

def Host.verdict (h : Host) (bytes : Str) : Option Verdict := scanResponse (h.responseBuffer bytes)

def hostNetRequestIn (o : NetOpen) (ns : Net) : Option Net :=
  if o.send = false then some { ns with state := .error }
  else match o.response with
    | none => some { ns with state := .error }
    | some response => (Host.linux.verdict response).map fun v =>
        if v = .accepted then ns else { ns with state := .error }

/-- The buffer is on the stack of the callback. -/
def netLwipRecvConnectIn (p : Chain) (stack : Mem) (ok : Bool) (n : StmNet) :
    Option (StmNet × List LwipCall) :=
  if ok = false then some (setLink n .error,[])
  else (netLwipBuildBufferIn p stack 0 tcpMss n).bind fun r =>
    if r.ret ≤ 0 then some (r.net,r.calls)
    else (scanResponse (window r.mem 0 tcpMss)).map fun v =>
      (if v = .accepted then tcpRecv (some .recv) (setLink r.net .opened)
        else setLink r.net .error,r.calls)

/-- The verdict on a string. -/
def mediaVerdict (text : Str) : Verdict :=
  if error404 <:+: text then .notFound
  else if applicationOgg <:+: text then .ogg
  else if audioMpeg <:+: text then .accepted
  else .unknownMedia

theorem exists_terminator {buf : Str} (h : 0 ∈ buf) :
    0 ∉ buf.takeWhile (· ≠ 0) ∧ ∃ rest, buf = buf.takeWhile (· ≠ 0) ++ 0 :: rest := by
  induction buf with
  | nil => cases h
  | cons a buf ih =>
    by_cases ha : a = 0
    · exact ⟨by simp [ha],buf,by simp [ha]⟩
    · obtain ⟨hno,rest,hrest⟩ := ih (by simpa [Ne.symm ha] using h)
      have htake : (a :: buf).takeWhile (· ≠ 0) = a :: buf.takeWhile (· ≠ 0) := by simp [ha]
      rw [htake]
      exact ⟨by simpa [Ne.symm ha] using hno,rest,congrArg (a :: ·) hrest⟩

theorem scanResponse_terminated {buf : Str} (h : 0 ∈ buf) :
    scanResponse buf = some (mediaVerdict (buf.takeWhile (· ≠ 0))) := by
  obtain ⟨hno,rest,hrest⟩ := exists_terminator h
  generalize buf.takeWhile (· ≠ 0) = text at hno hrest ⊢
  subst hrest
  obtain ⟨r1,hr1,h1⟩ := ucStrstrIn_terminated hno (by decide : 0 ∉ error404) rest
  obtain ⟨r2,hr2,h2⟩ := ucStrstrIn_terminated hno (by decide : 0 ∉ applicationOgg) rest
  obtain ⟨r3,hr3,h3⟩ := ucStrstrIn_terminated hno (by decide : 0 ∉ audioMpeg) rest
  simp only [scanResponse,hr1,hr2,hr3,Option.bind_some,h1,h2,mediaVerdict,← h3]
  split
  · rfl
  split
  · rfl
  cases r3 <;> rfl

theorem scanResponse_open {buf : Str} (h : 0 ∉ buf) :
    scanResponse buf = if error404 <:+: buf then some .notFound else none := by
  obtain ⟨hin,r,hr⟩ | ⟨hin,hr⟩ := ucStrstrIn_open h error404
  · simp [scanResponse,hr,hin]
  · simp [scanResponse,hr,hin]

/-- The first search ends inside the buffer at a zero byte or at a find; if it finds
nothing, the others end there too. -/
theorem scanResponse_isSome_iff (buf : Str) :
    (scanResponse buf).isSome = true ↔ 0 ∈ buf ∨ error404 <:+: buf := by
  by_cases h0 : 0 ∈ buf
  · simp [scanResponse_terminated h0,h0]
  · rw [scanResponse_open h0]
    split <;> simp_all

theorem Host.verdict_isSome_iff (h : Host) (bytes : Str) :
    (h.verdict bytes).isSome = true ↔ bytes.length < h.responseSize ∨
      0 ∈ bytes.take h.responseSize ∨ error404 <:+: bytes.take h.responseSize := by
  rw [Host.verdict,scanResponse_isSome_iff,Host.responseBuffer,padded,List.length_take]
  by_cases hlt : bytes.length < h.responseSize
  · have hpad : h.responseSize-min h.responseSize bytes.length ≠ 0 := by omega
    have hzero : (0:UInt8) ∈ List.replicate (h.responseSize-min h.responseSize bytes.length) 0 :=
      List.mem_replicate.mpr ⟨hpad,rfl⟩
    exact iff_of_true (.inl (List.mem_append_right _ hzero)) (.inl hlt)
  · have hpad : h.responseSize-min h.responseSize bytes.length = 0 := by omega
    rw [hpad,List.replicate_zero,List.append_nil]
    simp [hlt]

/-- What is done with the verdict on the board. -/
def StmNet.judged (n : StmNet) (v : Verdict) : StmNet :=
  if v = .accepted then tcpRecv (some .recv) (setLink n .opened) else setLink n .error

theorem netLwipRecvConnectIn_eq {q : Pbuf} {rest : Chain}
    (hsum : q.totLen.toNat = Chain.lens (q :: rest)) (stack : Mem) (n : StmNet) {bytes : Str}
    (hb : Chain.bytes (q :: rest) = bytes) :
    netLwipRecvConnectIn (q :: rest) stack true n =
      if tcpMss < bytes.length then some (setLink n .error,[.tcpRecved bytes.length,.pbufFree])
      else if bytes.length = 0 then some (n,[.tcpRecved bytes.length,.pbufFree])
      else (Host.stm32.verdict bytes).map fun v =>
        (n.judged v,[.tcpRecved bytes.length,.pbufFree]) := by
  have hlens : bytes.length = Chain.lens (q :: rest) := by rw [← hb,Chain.bytes_length]
  have hlen : q.totLen.toNat = bytes.length := by omega
  rw [netLwipRecvConnectIn,if_neg (by decide)]
  by_cases hfit : tcpMss < bytes.length
  · rw [netLwipBuildBufferIn_refuses (by omega),if_pos hfit,hlen]
    rfl
  · rw [netLwipBuildBufferIn_fits hsum (by omega),if_neg hfit,Option.bind_some,hlen,hb]
    by_cases h0 : bytes.length = 0
    · simp only [h0,if_true]
      rfl
    · have hle : Chain.lens (q :: rest) ≤ tcpMss := by omega
      have hbuf := flattened_window hle stack 0
      rw [hb,← hlens] at hbuf
      have hresponse : Host.stm32.responseBuffer bytes =
          bytes ++ List.replicate (tcpMss-bytes.length) 0 := by
        rw [Host.responseBuffer,Host.responseSize,List.take_of_length_le (by omega),padded]
      simp only [if_neg h0,Int.toNat_natCast,hbuf,Host.verdict,hresponse,StmNet.judged]
      rw [if_neg (by omega)]

/-- Every search in the response stays inside the buffer it was received into. -/
def ScansInside (bytes : Str) : Host → Prop
  | .linux => ∀ (o : NetOpen) (ns : Net), o.response = some bytes →
      (hostNetRequestIn o ns).isSome = true
  | .stm32 => ∀ (q : Pbuf) (rest : Chain), q.totLen.toNat = Chain.lens (q :: rest) →
      Chain.bytes (q :: rest) = bytes → ∀ (stack : Mem) (ok : Bool) (n : StmNet),
        (netLwipRecvConnectIn (q :: rest) stack ok n).isSome = true

theorem hostNetRequestIn_isSome (bytes : Str) :
    ScansInside bytes .linux ↔ (Host.linux.verdict bytes).isSome = true := by
  constructor
  · intro h
    have hr := h ⟨true,3,true,true,true,some bytes⟩ hostNetInit rfl
    simpa [hostNetRequestIn] using hr
  · intro h o ns ho
    rw [hostNetRequestIn]
    split
    · rfl
    · simpa [ho] using h

/-- The bytes in one link. -/
def onePbuf (bytes : Str) : Pbuf :=
  ⟨UInt16.ofNat bytes.length,UInt16.ofNat bytes.length,fun i => bytes.getD i 0⟩

theorem onePbuf_chain {bytes : Str} (h : bytes.length < 2^16) :
    (onePbuf bytes).totLen.toNat = Chain.lens [onePbuf bytes] ∧
      Chain.bytes [onePbuf bytes] = bytes := by
  have hlen : (UInt16.ofNat bytes.length).toNat = bytes.length := by
    rw [UInt16.toNat_ofNat']
    exact Nat.mod_eq_of_lt h
  refine ⟨by simp [Chain.lens,onePbuf],?_⟩
  rw [Chain.bytes_cons,Pbuf.bytes,onePbuf,hlen]
  refine List.ext_getElem (by simp [Chain.bytes]) fun i hi hi' => ?_
  simp [Chain.bytes,window,hi']

theorem netLwipRecvConnectIn_isSome (bytes : Str) :
    ScansInside bytes .stm32 ↔ tcpMss < bytes.length ∨
      (Host.stm32.verdict bytes).isSome = true := by
  have hmss : tcpMss = 1024 := rfl
  constructor
  · intro h
    by_cases hlong : tcpMss < bytes.length
    · exact .inl hlong
    · obtain ⟨hsum,hbytes⟩ := onePbuf_chain (by omega : bytes.length < 2^16)
      have hr := h (onePbuf bytes) [] hsum hbytes (fun _ => 0) true stmNetInit
      rw [netLwipRecvConnectIn_eq hsum _ _ hbytes,if_neg hlong] at hr
      by_cases h0 : bytes.length = 0
      · exact .inr ((Host.verdict_isSome_iff .stm32 bytes).mpr (.inl (by rw [h0]; decide)))
      · rw [if_neg h0,Option.isSome_map] at hr
        exact .inr hr
  · intro h q rest hsum hbytes stack ok n
    cases ok with
    | false => rfl
    | true =>
      rw [netLwipRecvConnectIn_eq hsum _ _ hbytes]
      split
      · rfl
      split
      · rfl
      · rw [Option.isSome_map]
        exact h.resolve_left ‹_›

theorem verdict_full {h : Host} {bytes : Str} (hlen : bytes.length = h.responseSize)
    (h0 : 0 ∉ bytes) (h4 : 0x34 ∉ bytes) : (h.verdict bytes).isSome = false := by
  rw [← Bool.not_eq_true,Host.verdict_isSome_iff,List.take_of_length_le hlen.le]
  rintro (hlt | hz | h404)
  · omega
  · exact h0 hz
  · exact h4 (h404.subset (by decide))

theorem responseScans_inside_iff (bytes : Str) (h : Host) :
    ScansInside bytes h ↔ bytes.length < h.responseSize ∨ 0 ∈ bytes.take h.responseSize ∨
      error404 <:+: bytes.take h.responseSize ∨ h = .stm32 ∧ h.responseSize < bytes.length := by
  cases h with
  | linux =>
    rw [hostNetRequestIn_isSome,Host.verdict_isSome_iff]
    simp
  | stm32 =>
    rw [netLwipRecvConnectIn_isSome,Host.verdict_isSome_iff]
    simp only [true_and,Host.responseSize]
    tauto

/-- A first block that fills the buffer, without a zero byte. -/
theorem responseScans_full_buffer :
    ¬ ScansInside (List.replicate 1024 0x41) .linux ∧
      ¬ ScansInside (List.replicate 1024 0x41) .stm32 := by
  have hfull : ∀ h : Host, h.responseSize = 1024 →
      (h.verdict (List.replicate 1024 0x41)).isSome = false :=
    fun h hs => verdict_full (by rw [List.length_replicate,hs])
      (fun h0 => absurd (List.eq_of_mem_replicate h0) (by decide))
      (fun h4 => absurd (List.eq_of_mem_replicate h4) (by decide))
  rw [hostNetRequestIn_isSome,netLwipRecvConnectIn_isSome,hfull _ rfl,hfull _ rfl,
    List.length_replicate]
  exact ⟨by decide,by decide⟩

/-! Header and body. -/

/-- What a string routine sees of the bytes. -/
def text (bytes : Str) : Str := bytes.takeWhile (· ≠ 0)

theorem text_append_of_mem {a : Str} (h : 0 ∈ a) (b : Str) : text (a ++ b) = text a := by
  obtain ⟨_,rest,hrest⟩ := exists_terminator h
  have hpos : ∀ c ∈ text a, decide (c ≠ 0) = true := by
    intro c hc
    have hne := List.mem_takeWhile_imp hc
    exact hne
  have heq : a ++ b = text a ++ 0 :: (rest ++ b) := by
    rw [← List.cons_append,← List.append_assoc]
    exact congrArg (· ++ b) hrest
  rw [heq,text,List.takeWhile_append_of_pos hpos]
  simp

theorem text_append_of_not_mem {a : Str} (h : 0 ∉ a) (b : Str) : text (a ++ b) = a ++ text b := by
  refine List.takeWhile_append_of_pos fun c hc => ?_
  simpa using fun h0 : c = 0 => h (h0 ▸ hc)

theorem text_of_not_mem {a : Str} (h : 0 ∉ a) : text a = a := by
  have := text_append_of_not_mem h []
  simpa [text] using this

theorem text_padded (size : Nat) (bytes : Str) : text (padded size bytes) = text bytes := by
  rw [padded]
  by_cases h : 0 ∈ bytes
  · exact text_append_of_mem h _
  · have hzeros : ∀ k : Nat, text (List.replicate k 0) = [] := fun k => by cases k <;> rfl
    rw [text_append_of_not_mem h,hzeros,List.append_nil,text_of_not_mem h]

theorem Host.verdict_of_lt {h : Host} {bytes : Str} (hlt : bytes.length < h.responseSize) :
    h.verdict bytes = some (mediaVerdict (text bytes)) := by
  have hmem : 0 ∈ padded h.responseSize bytes := by
    rw [padded]
    exact List.mem_append_right _ (List.mem_replicate.mpr ⟨by omega,rfl⟩)
  rw [Host.verdict,Host.responseBuffer,List.take_of_length_le hlt.le,scanResponse_terminated hmem]
  exact congrArg (fun t => some (mediaVerdict t)) (text_padded h.responseSize bytes)

theorem mediaVerdict_cases (t : Str) :
    error404 <:+: t ∧ mediaVerdict t = .notFound ∨
      ¬ error404 <:+: t ∧ (applicationOgg <:+: t ∧ mediaVerdict t = .ogg ∨
        ¬ applicationOgg <:+: t ∧ (audioMpeg <:+: t ∧ mediaVerdict t = .accepted ∨
          ¬ audioMpeg <:+: t ∧ mediaVerdict t = .unknownMedia)) := by
  by_cases h404 : error404 <:+: t
  · exact .inl ⟨h404,by rw [mediaVerdict,if_pos h404]⟩
  refine .inr ⟨h404,?_⟩
  by_cases hogg : applicationOgg <:+: t
  · exact .inl ⟨hogg,by rw [mediaVerdict,if_neg h404,if_pos hogg]⟩
  refine .inr ⟨hogg,?_⟩
  by_cases hmpeg : audioMpeg <:+: t
  · exact .inl ⟨hmpeg,by rw [mediaVerdict,if_neg h404,if_neg hogg,if_pos hmpeg]⟩
  · exact .inr ⟨hmpeg,by rw [mediaVerdict,if_neg h404,if_neg hogg,if_neg hmpeg]⟩

theorem mediaVerdict_accepted_iff (t : Str) :
    mediaVerdict t = .accepted ↔ ¬ error404 <:+: t ∧ ¬ applicationOgg <:+: t ∧
      audioMpeg <:+: t := by
  obtain ⟨h404,hv⟩ | ⟨h404,⟨hogg,hv⟩ | ⟨hogg,⟨hmpeg,hv⟩ | ⟨hmpeg,hv⟩⟩⟩ := mediaVerdict_cases t
  · simp [hv,h404]
  · simp [hv,hogg]
  · simp [hv,h404,hogg,hmpeg]
  · simp [hv,hmpeg]

theorem mediaVerdict_notFound_iff (t : Str) : mediaVerdict t = .notFound ↔ error404 <:+: t := by
  obtain ⟨h404,hv⟩ | ⟨h404,⟨_,hv⟩ | ⟨_,⟨_,hv⟩ | ⟨_,hv⟩⟩⟩ := mediaVerdict_cases t <;> simp [hv,h404]

theorem mediaAccepted_iff (bytes : Str) :
    mediaAccepted bytes = true ↔ mediaVerdict (text bytes) = .accepted := by
  rw [mediaVerdict_accepted_iff,mediaAccepted,text]
  simp only [ucStrstr_isSome_iff]
  split
  · simp_all
  split <;> simp_all [ucStrstr_isSome_iff]

/-- In a response that leaves room for a terminator the search is the one of the string. -/
theorem hostNetRequestIn_eq {o : NetOpen} {bytes : Str} (ho : o.response = some bytes)
    (hlt : bytes.length < httprequestSize) (ns : Net) :
    hostNetRequestIn o ns = some (hostNetRequest o ns) := by
  have hv : Host.linux.verdict bytes = some (mediaVerdict (text bytes)) := Host.verdict_of_lt hlt
  rw [hostNetRequestIn,hostNetRequest]
  split
  · rfl
  simp only [ho,hv,Option.map_some,mediaVerdict_accepted_iff,← Option.not_isSome,Bool.not_eq_true',
    ← Bool.not_eq_true,ucStrstr_isSome_iff,text]
  by_cases h404 : error404 <:+: bytes.takeWhile (· ≠ 0)
  · simp only [h404,not_true,false_and,if_false,if_true]
  by_cases hogg : applicationOgg <:+: bytes.takeWhile (· ≠ 0)
  · simp only [h404,hogg,not_true,not_false_eq_true,true_and,false_and,if_false,if_true]
  by_cases hmpeg : audioMpeg <:+: bytes.takeWhile (· ≠ 0)
  · simp only [h404,hogg,hmpeg,not_true,not_false_eq_true,true_and,if_false,if_true]
  · simp only [h404,hogg,hmpeg,not_false_eq_true,and_false,if_false,if_true]

theorem netLwipRecvConnectIn_refines {q : Pbuf} {rest : Chain}
    (hsum : q.totLen.toNat = Chain.lens (q :: rest)) (stack : Mem) (n : StmNet) {bytes : Str}
    (hb : Chain.bytes (q :: rest) = bytes) (hne : bytes.length ≠ tcpMss) :
    netLwipRecvConnectIn (q :: rest) stack true n =
      some (netLwipRecvConnect (some bytes) true n,[.tcpRecved bytes.length,.pbufFree]) := by
  rw [netLwipRecvConnectIn_eq hsum stack n hb]
  simp only [netLwipRecvConnect,netLwipBuildBuffer,Bool.true_eq_false,if_false]
  by_cases hlong : bytes.length > tcpMss
  · simp only [if_pos hlong]
    rfl
  by_cases h0 : bytes.length = 0
  · have hret : (bytes.length : Int) ≤ 0 := by omega
    simp only [if_neg hlong,if_pos h0,if_pos hret]
  have hret : ¬ (bytes.length : Int) ≤ 0 := by omega
  have hv : Host.stm32.verdict bytes = some (mediaVerdict (text bytes)) :=
    Host.verdict_of_lt (by rw [Host.responseSize]; omega)
  simp only [if_neg hlong,if_neg h0,if_neg hret,hv,Option.map_some,StmNet.judged,
    ← mediaAccepted_iff]
  cases mediaAccepted bytes <;> rfl

/-- The last line of the header is empty; lines end with LF or CR LF. -/
def EndsEmptyLine (header : Str) : Prop := [10,13,10] <:+ header ∨ [10,10] <:+ header

/-- The second word of the first line. -/
def statusCode (header : Str) : Str :=
  ((header.takeWhile (· ≠ 10)).dropWhile (· ≠ 32)).tail.takeWhile fun c => c ≠ 32 ∧ c ≠ 13

theorem statusCode_infix (header : Str) : statusCode header <:+: header := by
  have h1 := (List.takeWhile_prefix (l := (((header.takeWhile (· ≠ 10)).dropWhile (· ≠ 32)).tail))
    fun c : UInt8 => decide (c ≠ 32 ∧ c ≠ 13)).isInfix
  have h2 := (List.tail_suffix ((header.takeWhile (· ≠ 10)).dropWhile (· ≠ 32))).isInfix
  have h3 := (List.dropWhile_suffix (l := header.takeWhile (· ≠ 10)) fun c : UInt8 =>
    decide (c ≠ 32)).isInfix
  have h4 := (List.takeWhile_prefix (l := header) fun c : UInt8 => decide (c ≠ 10)).isInfix
  exact ((h1.trans h2).trans h3).trans h4

/-- The verdict is one on the header, whatever follows it in the same block. -/
structure HeaderDecides (h : Host) (header : Str) : Prop where
  media : ∀ body body' : Str, (header ++ body).length < h.responseSize →
    (header ++ body').length < h.responseSize →
    (h.verdict (header ++ body) = some .accepted ↔ h.verdict (header ++ body') = some .accepted)
  status : ∀ body : Str, (header ++ body).length < h.responseSize →
    h.verdict (header ++ body) = some .notFound → statusCode header = error404

theorem EndsEmptyLine.exists_line {header : Str} (he : EndsEmptyLine header) :
    ∃ front, header = front ++ [10] := by
  obtain ⟨front,rfl⟩ | ⟨front,rfl⟩ := he
  · exact ⟨front ++ [10,13],by simp⟩
  · exact ⟨front ++ [10],by simp⟩

/-- A text of one line that is longer than what follows the header is found in both
or in none. -/
theorem infix_header_iff {header : Str} (he : EndsEmptyLine header) {s body : Str} (hs : 10 ∉ s)
    (hlen : body.length < s.length) : s <:+: header ++ body ↔ s <:+: header := by
  obtain ⟨front,rfl⟩ := he.exists_line
  have hbody : ¬ s <:+: body := fun h => absurd h.length_le (by omega)
  have hnil : ¬ s <:+: [] := fun h => absurd h.length_le (by rw [List.length_nil]; omega)
  rw [List.append_assoc,List.singleton_append,Infix.infix_append_cons_iff hs,
    Infix.infix_append_cons_iff hs]
  simp only [hbody,hnil]

/-- A zero byte hides the body, a find in the header decides first, and a body of two
bytes holds none of the three texts. -/
theorem mediaVerdict_header {header : Str} (he : EndsEmptyLine header) {body : Str}
    (hc : 0 ∈ header ∨ error404 <:+: header ∨ body.length < 3) :
    mediaVerdict (text (header ++ body)) = mediaVerdict (text header) := by
  by_cases h0 : 0 ∈ header
  · rw [text_append_of_mem h0]
  rw [text_append_of_not_mem h0,text_of_not_mem h0]
  obtain hz | h404 | hlen := hc
  · exact absurd hz h0
  · have hfront : error404 <:+: header ++ text body :=
      h404.trans (List.prefix_append header _).isInfix
    rw [(mediaVerdict_notFound_iff _).mpr hfront,(mediaVerdict_notFound_iff _).mpr h404]
  · have htext : (text body).length < 3 := lt_of_le_of_lt (List.takeWhile_prefix _).length_le hlen
    have h404 : error404 <:+: header ++ text body ↔ error404 <:+: header :=
      infix_header_iff he (by decide) htext
    have hogg : applicationOgg <:+: header ++ text body ↔ applicationOgg <:+: header :=
      infix_header_iff he (by decide) (htext.trans (by decide))
    have hmpeg : audioMpeg <:+: header ++ text body ↔ audioMpeg <:+: header :=
      infix_header_iff he (by decide) (htext.trans (by decide))
    simp only [mediaVerdict,h404,hogg,hmpeg]

theorem HeaderDecides.cond {h : Host} {header : Str} (hd : HeaderDecides h header)
    (hfit : header.length < h.responseSize) :
    (error404 <:+: text header → statusCode header = error404) ∧
      (0 ∈ header ∨ error404 <:+: header ∨ h.responseSize ≤ header.length+3) := by
  constructor
  · intro h404
    have hfit' : (header ++ []).length < h.responseSize := by rwa [List.append_nil]
    refine hd.status [] hfit' ?_
    rw [Host.verdict_of_lt hfit',List.append_nil,(mediaVerdict_notFound_iff _).mpr h404]
  · by_contra hno
    simp only [not_or] at hno
    obtain ⟨h0,h404,hroom⟩ := hno
    -- The three digits as the whole body.
    have hlt : (header ++ error404).length < h.responseSize := by
      rw [List.length_append,show error404.length = 3 from rfl]
      omega
    have hin : error404 <:+: text (header ++ error404) := by
      rw [text_append_of_not_mem h0]
      exact (List.suffix_append header error404).isInfix
    have hcode := hd.status error404 hlt
      (by rw [Host.verdict_of_lt hlt,(mediaVerdict_notFound_iff _).mpr hin])
    exact h404 (hcode ▸ statusCode_infix header)

theorem headerDecides_iff {header : Str} (he : EndsEmptyLine header) (h : Host) :
    HeaderDecides h header ↔ h.responseSize ≤ header.length ∨
      (error404 <:+: text header → statusCode header = error404) ∧
        (0 ∈ header ∨ error404 <:+: header ∨ h.responseSize ≤ header.length+3) := by
  constructor
  · intro hd
    by_cases hfit : header.length < h.responseSize
    · exact .inr (hd.cond hfit)
    · exact .inl (Nat.not_lt.mp hfit)
  · intro hc
    have hv : ∀ body : Str, (header ++ body).length < h.responseSize →
        h.verdict (header ++ body) = some (mediaVerdict (text header)) ∧
          (error404 <:+: text header → statusCode header = error404) := by
      intro body hlt
      have hlen : header.length+body.length < h.responseSize := by rwa [List.length_append] at hlt
      obtain hlong | ⟨hcode,hc⟩ := hc
      · omega
      · rw [Host.verdict_of_lt hlt,mediaVerdict_header he
          (hc.imp_right (Or.imp_right fun _ => by omega))]
        exact ⟨rfl,hcode⟩
    constructor
    · intro body body' hlt hlt'
      rw [(hv body hlt).1,(hv body' hlt').1]
    · intro body hlt hnot
      rw [(hv body hlt).1,Option.some.injEq,mediaVerdict_notFound_iff] at hnot
      exact (hv body hlt).2 hnot

def notFoundHeader : Str :=
  ascii ['H','T','T','P','/','1','.','0',' ','4','0','4',' ','N','o','n','e','\r','\n','\r','\n']

theorem headerDecides_notFound :
    EndsEmptyLine notFoundHeader ∧ HeaderDecides .linux notFoundHeader ∧
      HeaderDecides .stm32 notFoundHeader := by
  have he : EndsEmptyLine notFoundHeader := .inl (by decide)
  have hcode : statusCode notFoundHeader = error404 := by decide
  have h404 : error404 <:+: notFoundHeader := by decide
  exact ⟨he,(headerDecides_iff he .linux).mpr (.inr ⟨fun _ => hcode,.inr (.inl h404)⟩),
    (headerDecides_iff he .stm32).mpr (.inr ⟨fun _ => hcode,.inr (.inl h404)⟩)⟩

def mpegHeader : Str :=
  ascii ['H','T','T','P','/','1','.','0',' ','2','0','0',' ','O','K','\r','\n','C','o','n','t','e',
    'n','t','-','T','y','p','e',':',' ','a','u','d','i','o','/','m','p','e','g','\r','\n','\r','\n']

/-- The stream is taken or not for three bytes of its audio. -/
theorem headerDecides_mpeg :
    EndsEmptyLine mpegHeader ∧ statusCode mpegHeader = ascii ['2','0','0'] ∧
      Host.linux.verdict mpegHeader = some .accepted ∧
      Host.linux.verdict (mpegHeader ++ error404) = some .notFound ∧
      Host.stm32.verdict mpegHeader = some .accepted ∧
      Host.stm32.verdict (mpegHeader ++ error404) = some .notFound ∧
      ¬ HeaderDecides .linux mpegHeader ∧ ¬ HeaderDecides .stm32 mpegHeader := by
  have hlen : ∀ h : Host, (mpegHeader ++ error404).length < h.responseSize := fun h => by
    cases h <;> decide
  have haccept : ∀ h : Host, h.verdict mpegHeader = some .accepted := fun h => by
    rw [Host.verdict_of_lt (by cases h <;> decide)]
    decide
  have hreject : ∀ h : Host, h.verdict (mpegHeader ++ error404) = some .notFound := fun h => by
    rw [Host.verdict_of_lt (hlen h)]
    decide
  have hnot : ∀ h : Host, ¬ HeaderDecides h mpegHeader := fun h hd =>
    absurd (hd.status error404 (hlen h) (hreject h)) (by decide)
  exact ⟨.inl (by decide),by decide,haccept .linux,hreject .linux,haccept .stm32,hreject .stm32,
    hnot .linux,hnot .stm32⟩

end Mardio
