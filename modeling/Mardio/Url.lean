import Mardio.Commands
import Mardio.Stm32Net

/-!
Taking a URL apart. One cursor goes over the address; the host name and the path are
copied without a terminator, and the port is written only behind a colon.
-/

set_option autoImplicit false

namespace Mardio
open ByteMem

/-- `MAX_URL` and `MAX_HOSTNAME`. -/
def maxUrl : Nat := 128

/-- The string in a buffer. -/
def bufferStr (m : Mem) : Str := (window m 0 maxUrl).takeWhile (· ≠ 0)

/-- How far a loop moves the cursor. The bound of the loop is the terminator. -/
def cursorSteps (p : UInt8 → Bool) : Str → Nat
  | [] => 0
  | c :: rest => if p c then cursorSteps p rest+1 else 0

def inHost (c : UInt8) : Bool := c != 58 && c != 47

def isDigit (c : UInt8) : Bool := 48 ≤ c && c ≤ 57

/-- What the three pointers designate. -/
structure UrlParts where
  hostname : Mem
  port : Int
  remote : Mem

def netParseUrl (h : Host) (address : Str) (out : UrlParts) : UrlParts :=
  let oldIndex := if ucMemcmp (address ++ [0]) httpUri httpUri.length = 0 then httpUri.length else 0
  let index := oldIndex+cursorSteps inHost (address.drop oldIndex)
  -- the length is a 16-bit integer
  let len := (index-oldIndex) % 2^16
  let hostname := store out.hostname 0 ((address.drop oldIndex).take len)
  let (index,port) :=
    if address.getD index 0 = 58 then
      (index+1+cursorSteps isDigit (address.drop (index+1)),q3Atoi h (address.drop (index+1)))
    else (index,out.port)
  let remote := if index < address.length then store out.remote 0 (address.drop index)
    else out.remote
  ⟨hostname,port,remote⟩

/-! What the parts of a URL are. -/

def urlRest (address : Str) : Str :=
  if httpUri <+: address then address.drop httpUri.length else address

def urlHost (rest : Str) : Str := rest.takeWhile inHost

/-- What follows the colon behind the host name, if there is one. -/
def afterColon (rest : Str) : Option Str :=
  match rest.dropWhile inHost with
  | 58 :: tail => some tail
  | _ => none

def urlRemote (rest : Str) : Str :=
  match afterColon rest with
  | some tail => tail.dropWhile isDigit
  | none => rest.dropWhile inHost

theorem cursorSteps_eq (p : UInt8 → Bool) (s : Str) : cursorSteps p s = (s.takeWhile p).length := by
  induction s with
  | nil => rfl
  | cons c s ih =>
    by_cases hc : p c = true
    · simp [cursorSteps,hc,ih]
    · simp [cursorSteps,hc]

theorem drop_cursorSteps (p : UInt8 → Bool) (s : Str) :
    s.drop (cursorSteps p s) = s.dropWhile p := by
  have hsplit := List.takeWhile_append_dropWhile (p := p) (l := s)
  rw [cursorSteps_eq]
  nth_rewrite 2 [← hsplit]
  rw [List.drop_left]

theorem drop_urlStart (address : Str) :
    address.drop (if ucMemcmp (address ++ [0]) httpUri httpUri.length = 0 then httpUri.length
      else 0) = urlRest address := by
  rw [urlRest]
  simp only [ucMemcmp_eq_zero_iff (by decide : 0 ∉ httpUri)]
  split <;> rfl

theorem getD_drop (s : Str) (n : Nat) : s.getD n 0 = (s.drop n).headD 0 := by
  rw [List.getD_eq_getElem?_getD,List.headD_eq_head?_getD,List.head?_drop]

/-- Nothing is copied at the terminator. -/
theorem store_rest (m : Mem) (s : Str) (n : Nat) :
    (if n < s.length then store m 0 (s.drop n) else m) = store m 0 (s.drop n) := by
  split
  · rfl
  · rw [List.drop_of_length_le (by omega),store]

theorem netParseUrl_eq (h : Host) (address : Str) (out : UrlParts) :
    netParseUrl h address out =
      ⟨store out.hostname 0 ((urlRest address).take ((urlHost (urlRest address)).length % 2^16)),
        ((afterColon (urlRest address)).map (q3Atoi h)).getD out.port,
        store out.remote 0 (urlRemote (urlRest address))⟩ := by
  have hstart := drop_urlStart address
  unfold netParseUrl
  generalize (if ucMemcmp (address ++ [0]) httpUri httpUri.length = 0 then httpUri.length else 0) =
    start at *
  generalize urlRest address = rest at *
  have hlen : cursorSteps inHost rest = (urlHost rest).length := cursorSteps_eq inHost rest
  have htail : address.drop (start+(urlHost rest).length) = rest.dropWhile inHost := by
    rw [← List.drop_drop,hstart,← hlen,drop_cursorSteps]
  have hbehind : address.drop (start+(urlHost rest).length+1) = (rest.dropWhile inHost).drop 1 := by
    rw [← List.drop_drop,htail]
  simp only [hstart,hlen,store_rest,getD_drop,htail,hbehind,Nat.add_sub_cancel_left]
  cases ht : rest.dropWhile inHost with
  | nil => simp [afterColon,urlRemote,ht,htail]
  | cons c tail =>
    by_cases hc : c = 58
    · subst hc
      have hremote : address.drop (start+(urlHost rest).length+1+cursorSteps isDigit tail) =
          tail.dropWhile isDigit := by
        rw [← List.drop_drop,hbehind,ht,List.drop_one,List.tail_cons,drop_cursorSteps]
      simp [afterColon,urlRemote,ht,hremote]
    · simp [afterColon,urlRemote,ht,hc,htail]

/-! Buffers and digits. -/

theorem window_zeros (a n : Nat) : window (fun _ => 0) a n = List.replicate n 0 := by
  simp [window,List.map_const']

/-- A string copied into a buffer of zeros is terminated by them. -/
theorem bufferStr_store {s : Str} (hz : 0 ∉ s) (hl : s.length < maxUrl) :
    bufferStr (store (fun _ => 0) 0 s) = s := by
  obtain ⟨k,hk⟩ := Nat.exists_eq_add_of_lt hl
  rw [bufferStr,hk,Nat.add_assoc,window_add,store_window]
  have hbehind : window (store (fun _ => 0) 0 s) (0+s.length) (k+1) = window (fun _ => 0) 0 (k+1) :=
    window_congr fun i _ => store_outside _ _ _ _ (by omega)
  rw [hbehind,window_zeros,List.replicate_succ]
  exact takeWhile_terminated hz _

/-- A number as it is written. -/
def decimal (n : Nat) : Str := ascii (Nat.toDigits 10 n)

def digit (n : Nat) : UInt8 := UInt8.ofNat (48+n)

theorem decimal_eq (n : Nat) : decimal n = if n < 10 then [digit n]
    else decimal (n/10) ++ [digit (n % 10)] := by
  have hdigit : ∀ k < 10, UInt8.ofNat (Nat.digitChar k).toNat = digit k := by decide
  rw [decimal,Nat.toDigits_eq_if (by decide)]
  split
  · rename_i hn
    simp [ascii,hdigit n hn]
  · simp [decimal,ascii,hdigit (n % 10) (Nat.mod_lt _ (by decide))]

theorem digit_spec {k : Nat} (hk : k < 10) : isDigit (digit k) = true ∧ (digit k).toNat = 48+k := by
  revert k
  decide

theorem decimal_digits (n : Nat) : decimal n ≠ [] ∧ ∀ c ∈ decimal n, isDigit c = true := by
  induction n using Nat.strong_induction_on with
  | _ n ih =>
  rw [decimal_eq]
  split
  · rename_i hn
    simpa using (digit_spec hn).1
  · have hlast := (digit_spec (Nat.mod_lt n (by decide : 10 > 0))).1
    have hfront := (ih (n/10) (by omega)).2
    refine ⟨by simp,fun c hc => ?_⟩
    simp only [List.mem_append,List.mem_singleton] at hc
    obtain hc | rfl := hc
    · exact hfront c hc
    · exact hlast

theorem atoiDigits_append {s : Str} (hs : ∀ c ∈ s, isDigit c = true) (v : Int) (rest : Str) :
    atoiDigits v (s ++ rest) = atoiDigits (atoiDigits v s) rest := by
  induction s generalizing v with
  | nil => rfl
  | cons c s ih =>
    have hc : 48 ≤ c ∧ c ≤ 57 := by simpa [isDigit] using hs c List.mem_cons_self
    simp only [List.cons_append,atoiDigits,hc,and_self,if_true]
    exact ih (fun d hd => hs d (List.mem_cons_of_mem _ hd)) _

theorem atoiDigits_digit {v : Int} {k : Nat} (hk : k < 10) (hv : 0 ≤ v) (hv' : v*10+k < 2^31) :
    atoiDigits v [digit k] = v*10+k := by
  obtain ⟨hdigit,hnat⟩ := digit_spec hk
  have hc : 48 ≤ digit k ∧ digit k ≤ 57 := by simpa [isDigit] using hdigit
  rw [atoiDigits,if_pos hc,atoiDigits,hnat,Int.bmod_def]
  omega

theorem atoiDigits_decimal {n : Nat} (hn : n < 2^31) : atoiDigits 0 (decimal n) = n := by
  induction n using Nat.strong_induction_on with
  | _ n ih =>
  rw [decimal_eq]
  split
  · rename_i hlt
    rw [atoiDigits_digit hlt (by omega) (by omega)]
    omega
  · rw [atoiDigits_append (decimal_digits _).2,ih (n/10) (by omega) (by omega),
      atoiDigits_digit (Nat.mod_lt _ (by decide)) (by omega) (by omega)]
    omega

theorem digit_first (h : Host) {d : UInt8} (hd : isDigit d = true) :
    h.above d = true ∧ d ≠ 43 ∧ d ≠ 45 := by
  have hrange : 48 ≤ d.toNat ∧ d.toNat ≤ 57 := by simpa [isDigit,UInt8.le_iff_toNat_le] using hd
  refine ⟨?_,?_,?_⟩
  · cases h with
    | linux =>
      simp [Host.above,UInt8.lt_iff_toNat_lt]
      omega
    | stm32 =>
      simp [Host.above,UInt8.lt_iff_toNat_lt]
      omega
  · rintro rfl
    simp at hrange
  · rintro rfl
    simp at hrange

/-- The port is read up to the byte the cursor has stopped at. -/
theorem q3Atoi_decimal (h : Host) {n : Nat} (hn : n < 2^31) {rest : Str}
    (hr : ∀ c ∈ rest.head?, isDigit c = false) :
    q3Atoi h (decimal n ++ rest) = n := by
  have hvalue : atoiDigits 0 (decimal n ++ rest) = n := by
    rw [atoiDigits_append (decimal_digits n).2,atoiDigits_decimal hn]
    cases rest with
    | nil => rfl
    | cons c rest =>
      have hc : ¬ (48 ≤ c ∧ c ≤ 57) := by simpa [isDigit] using hr c rfl
      rw [atoiDigits,if_neg hc]
  -- the first digit is neither skipped nor a sign
  obtain ⟨hne,hdigits⟩ := decimal_digits n
  obtain ⟨d,s,hs⟩ := List.exists_cons_of_ne_nil hne
  obtain ⟨habove,hplus,hminus⟩ := digit_first h (hdigits d (by simp [hs]))
  rw [hs,List.cons_append] at hvalue ⊢
  simp [q3Atoi,habove,hplus,hminus,hvalue]

/-! Whole addresses. -/

/-- With cleared buffers. -/
def parsedUrl (h : Host) (port : Int) (address : Str) : UrlParts :=
  netParseUrl h address ⟨fun _ => 0,port,fun _ => 0⟩

def httpAddress (host : Str) (port : Nat) (path : Str) : Str :=
  httpUri ++ (host ++ 58 :: (decimal port ++ path))

theorem afterColon_eq_some {rest tail : Str} :
    afterColon rest = some tail ↔ rest.dropWhile inHost = 58 :: tail := by
  unfold afterColon
  split
  · rename_i t ht
    simp [ht]
  · rename_i hne
    simpa using hne tail

theorem urlRest_suffix (address : Str) : urlRest address <:+ address := by
  rw [urlRest]
  split
  · exact List.drop_suffix _ _
  · exact List.suffix_rfl

theorem urlRemote_suffix (rest : Str) : urlRemote rest <:+ rest := by
  have hbehind := List.dropWhile_suffix (l := rest) inHost
  unfold urlRemote
  cases hc : afterColon rest with
  | none => exact hbehind
  | some tail =>
    rw [afterColon_eq_some.mp hc] at hbehind
    exact (List.dropWhile_suffix isDigit).trans ((List.suffix_cons 58 tail).trans hbehind)

theorem parsedUrl_split (h : Host) (port : Int) {address : Str} (hz : 0 ∉ address)
    (hl : address.length < maxUrl) :
    bufferStr (parsedUrl h port address).hostname = urlHost (urlRest address) ∧
      bufferStr (parsedUrl h port address).remote = urlRemote (urlRest address) := by
  have hrest := urlRest_suffix address
  have hremote := (urlRemote_suffix (urlRest address)).trans hrest
  have hhost : urlHost (urlRest address) <+: urlRest address := List.takeWhile_prefix _
  have hlen : (urlHost (urlRest address)).length < maxUrl :=
    (hhost.length_le.trans hrest.length_le).trans_lt hl
  rw [parsedUrl,netParseUrl_eq]
  constructor
  · rw [Nat.mod_eq_of_lt (hlen.trans (by decide)),← List.prefix_iff_eq_take.mp hhost]
    exact bufferStr_store (fun h0 => hz (hrest.subset (hhost.subset h0))) hlen
  · exact bufferStr_store (fun h0 => hz (hremote.subset h0)) (hremote.length_le.trans_lt hl)

theorem httpAddress_parts {host path : Str} (port : Nat) (hhost : ∀ c ∈ host, inHost c = true)
    (hpath : ∀ c ∈ path.head?, isDigit c = false) :
    urlHost (urlRest (httpAddress host port path)) = host ∧
      afterColon (urlRest (httpAddress host port path)) = some (decimal port ++ path) ∧
      urlRemote (urlRest (httpAddress host port path)) = path := by
  have hrest : urlRest (httpAddress host port path) = host ++ 58 :: (decimal port ++ path) := by
    rw [urlRest,httpAddress,if_pos (List.prefix_append _ _),List.drop_left]
  have hcolon : inHost 58 = false := rfl
  have hafter : afterColon (host ++ 58 :: (decimal port ++ path)) =
      some (decimal port ++ path) := by
    rw [afterColon_eq_some,List.dropWhile_append_of_pos hhost,
      List.dropWhile_cons_of_neg (by simp [hcolon])]
  rw [hrest]
  refine ⟨?_,hafter,?_⟩
  · rw [urlHost,List.takeWhile_append_of_pos hhost,List.takeWhile_cons_of_neg (by simp [hcolon]),
      List.append_nil]
  · rw [urlRemote,hafter]
    simp only [List.dropWhile_append_of_pos (decimal_digits port).2]
    cases path with
    | nil => rfl
    | cons c path => rw [List.dropWhile_cons_of_neg (by simp [hpath c rfl])]

/-- The host name and the path are what the address has there, and an address put
together from a host name, a port and a path comes apart into them again. -/
theorem netParseUrl_splits (h : Host) (port : Int) :
    (∀ address, 0 ∉ address → address.length < maxUrl →
      bufferStr (parsedUrl h port address).hostname = urlHost (urlRest address) ∧
      bufferStr (parsedUrl h port address).remote = urlRemote (urlRest address)) ∧
    ∀ host n path, 58 ∉ host → 47 ∉ host → n ≤ 65535 → (∀ c ∈ path.head?, c = 47) →
      0 ∉ httpAddress host n path → (httpAddress host n path).length < maxUrl →
      bufferStr (parsedUrl h port (httpAddress host n path)).hostname = host ∧
      (parsedUrl h port (httpAddress host n path)).port = n ∧
      bufferStr (parsedUrl h port (httpAddress host n path)).remote = path := by
  refine ⟨fun address hz hl => parsedUrl_split h port hz hl,
    fun host n path h58 h47 hn hpath hz hl => ?_⟩
  have hhost : ∀ c ∈ host, inHost c = true := by
    intro c hc
    have hne : c ≠ 58 ∧ c ≠ 47 := ⟨fun he => h58 (he ▸ hc),fun he => h47 (he ▸ hc)⟩
    simp [inHost,hne]
  have hslash : ∀ c ∈ path.head?, isDigit c = false := by
    intro c hc
    rw [hpath c hc]
    rfl
  obtain ⟨hname,hport,hremote⟩ := httpAddress_parts n hhost hslash
  obtain ⟨hname',hremote'⟩ := parsedUrl_split h port hz hl
  refine ⟨hname'.trans hname,?_,hremote'.trans hremote⟩
  rw [parsedUrl,netParseUrl_eq,hport]
  exact q3Atoi_decimal h (by omega) hslash

/-- The host name `a`, port 8000 and the path `/b`, whatever the port was before. -/
theorem netParseUrl_splits_radio :
    bufferStr (parsedUrl .linux (-7) (httpAddress [97] 8000 [47,98])).hostname = [97] ∧
      (parsedUrl .linux (-7) (httpAddress [97] 8000 [47,98])).port = 8000 ∧
      bufferStr (parsedUrl .linux (-7) (httpAddress [97] 8000 [47,98])).remote = [47,98] :=
  (netParseUrl_splits .linux (-7)).2 [97] 8000 [47,98] (by decide) (by decide) (by decide)
    (by simp) (by decide)
    (by decide)

/-! Where a connection goes. -/

/-- What the Linux host connects to. The port is a local variable that nothing has set,
and is used as a 16-bit number. -/
def linuxTarget (address : Str) (port : Int) : Str × Nat :=
  let out := parsedUrl .linux port address
  (bufferStr out.hostname,(out.port % 2^16).toNat)

/-- On the board the port is that of the connection before. -/
def stmOpenUrl (address : Str) (reply : DnsReply) (r : TcpOpen) (n : StmNet) : StmNet :=
  let out := parsedUrl .stm32 n.ns.port address
  stmNetOpen ⟨bufferStr out.hostname,some (out.port % 2^16).toNat⟩ reply r n

def stmTarget (n : StmNet) : Str × Nat := (n.ns.hostname,n.ns.port)

/-- Nothing but the address decides where a connection goes. -/
structure TargetOfUrl (address : Str) : Prop where
  parse : ∀ h out out', (netParseUrl h address out).port = (netParseUrl h address out').port
  linux : ∀ port port', linuxTarget address port = linuxTarget address port'
  stm32 : ∀ reply r n n', n.ns.ethState ≠ .unknown → n'.ns.ethState ≠ .unknown →
    stmTarget (stmOpenUrl address reply r n) = stmTarget (stmOpenUrl address reply r n')

theorem stmNetOpen_target {n : StmNet} (hn : n.ns.ethState ≠ .unknown) (url : Url)
    (reply : DnsReply) (r : TcpOpen) :
    stmTarget (stmNetOpen url reply r n) = (url.hostname,url.port.getD n.ns.port) := by
  cases reply with
  | ok addr => cases hr : r.tcpNew <;> simp [stmNetOpen,stmTarget,netLwipOpen,setLink,setPcb,hn,hr]
  | inProgress => simp [stmNetOpen,stmTarget,setLink,hn]
  | failed => simp [stmNetOpen,stmTarget,setLink,hn]

theorem netParseUrl_port (h : Host) (address : Str) (out : UrlParts) :
    (netParseUrl h address out).port = ((afterColon (urlRest address)).map (q3Atoi h)).getD
      out.port := by
  rw [netParseUrl_eq]

theorem parsedUrl_hostname (h : Host) (address : Str) (port port' : Int) :
    (parsedUrl h port address).hostname = (parsedUrl h port' address).hostname := by
  rw [parsedUrl,parsedUrl,netParseUrl_eq,netParseUrl_eq]

/-- The address alone decides exactly if it has a colon behind the host name. -/
theorem targetOfUrl_iff (address : Str) :
    TargetOfUrl address ↔ ∃ tail, urlRest address = urlHost (urlRest address) ++ 58 :: tail := by
  have hsplit := List.takeWhile_append_dropWhile (p := inHost) (l := urlRest address)
  constructor
  · rintro ⟨hparse,-,-⟩
    cases hc : afterColon (urlRest address) with
    | none =>
      have hport := hparse .linux ⟨fun _ => 0,0,fun _ => 0⟩ ⟨fun _ => 0,1,fun _ => 0⟩
      simp [netParseUrl_port,hc] at hport
    | some tail =>
      refine ⟨tail,?_⟩
      rw [afterColon_eq_some.mp hc] at hsplit
      exact hsplit.symm
  · rintro ⟨tail,htail⟩
    have hbehind : (urlRest address).dropWhile inHost = 58 :: tail :=
      List.append_cancel_left (hsplit.trans htail)
    have hport : ∀ h out, (netParseUrl h address out).port = q3Atoi h tail := by
      intro h out
      rw [netParseUrl_port,afterColon_eq_some.mpr hbehind]
      rfl
    refine ⟨fun h out out' => (hport h out).trans (hport h out').symm,fun port port' => ?_,
      fun reply r n n' hn hn' => ?_⟩
    · simp only [linuxTarget]
      rw [parsedUrl_hostname .linux address port port']
      simp only [parsedUrl,hport]
    · rw [stmOpenUrl,stmOpenUrl,stmNetOpen_target hn,stmNetOpen_target hn',
        parsedUrl_hostname .stm32 address n.ns.port n'.ns.port]
      simp only [parsedUrl,hport,Option.getD_some]

/-- `http://a/b` goes to whatever port is there. -/
theorem targetOfUrl_portless : ¬ TargetOfUrl (httpUri ++ [97,47,98]) := by
  intro ht
  have hport := ht.linux 80 8000
  revert hport
  decide

end Mardio
