import Mardio.HttpResponse
import Mardio.Url
import Mardio.Xprintf

/-!
The request for a stream. Both hosts format it into a cleared buffer on the stack
and send the string that is then in the buffer.
-/

set_option autoImplicit false

namespace Mardio
open ByteMem

def requestFormat : Str :=
  ascii ['G','E','T',' ','%','s',' ','H','T','T','P','/','1','.','0','\r','\n','P','r','a','g','m',
    'a',':',' ','n','o','-','c','a','c','h','e','\r','\n','H','o','s','t',':',' ','%','s','\r','\n',
    'U','s','e','r','-','A','g','e','n','t',':',' ','x','m','m','s','/','1','.','2','.','7','\r',
    '\n','A','c','c','e','p','t',':',' ','*',' ','/',' ','*','\r','\n','\r','\n']

def Host.requestSize : Host → Nat
  | .linux => httprequestSize
  | .stm32 => 512

/-- The buffer when the request is sent. -/
def httpRequest (h : Host) (stack : Mem) (hostname filename : Str) : Option Mem :=
  xsprintf h (ucMemset stack 0 0 h.requestSize) 0 requestFormat [.str filename,.str hostname]

/-- The bytes up to the length that `uc_strlen` gives. -/
def sentRequest (h : Host) (stack : Mem) (hostname filename : Str) : Option Str :=
  (httpRequest h stack hostname filename).map fun m => text (window m 0 h.requestSize)

/-- The request for an address. -/
def urlRequest (h : Host) (stack : Mem) (port : Int) (address : Str) : Option Str :=
  sentRequest h stack (bufferStr (parsedUrl h port address).hostname)
    (bufferStr (parsedUrl h port address).remote)

def crlf : Str := [13,10]

/-- A request as it is meant. -/
def properRequest (hostname filename : Str) : Str :=
  ascii ['G','E','T',' '] ++ filename ++ ascii [' ','H','T','T','P','/','1','.','0'] ++ crlf ++
    ascii ['P','r','a','g','m','a',':',' ','n','o','-','c','a','c','h','e'] ++ crlf ++
    ascii ['H','o','s','t',':',' '] ++ hostname ++ crlf ++
    ascii ['U','s','e','r','-','A','g','e','n','t',':',' ','x','m','m','s','/','1','.','2','.',
      '7'] ++ crlf ++
    ascii ['A','c','c','e','p','t',':',' ','*',' ','/',' ','*'] ++ crlf ++ crlf

/-- Every line feed has one carriage return before it, and not two. -/
def SingleCr (s : Str) : Prop :=
  ∀ a b : Str, s = a ++ 10 :: b → ∃ c, a = c ++ [13] ∧ ∀ d, c ≠ d ++ [13]

structure RequestWellFormed (h : Host) (stack : Mem) (port : Int) (address : Str) : Prop where
  proper : urlRequest h stack port address = some
    (properRequest (bufferStr (parsedUrl h port address).hostname)
      (bufferStr (parsedUrl h port address).remote))
  lines : ∀ r, urlRequest h stack port address = some r → SingleCr r
  fits : ∀ r, urlRequest h stack port address = some r → r.length < h.requestSize

/-! What is sent. -/

def requestHead : Str := ascii ['G','E','T',' ']

def requestMiddle : Str :=
  ascii [' ','H','T','T','P','/','1','.','0','\r','\n','P','r','a','g','m','a',':',' ','n','o','-',
    'c','a','c','h','e','\r','\n','H','o','s','t',':',' ']

def requestTail : Str :=
  ascii ['\r','\n','U','s','e','r','-','A','g','e','n','t',':',' ','x','m','m','s','/','1','.','2',
    '.','7','\r','\n','A','c','c','e','p','t',':',' ','*',' ','/',' ','*','\r','\n','\r','\n']

def formattedRequest (hostname filename : Str) : Str :=
  xputs requestHead ++ (xputs filename ++
    (xputs requestMiddle ++ (xputs hostname ++ xputs requestTail)))

theorem requestFormat_eq :
    requestFormat = requestHead ++ 37 :: 115 ::
      (requestMiddle ++ 37 :: 115 :: (requestTail ++ [])) := by
  decide

theorem xvprintf_request (h : Host) (hostname filename : Str) :
    xvprintf h .text requestFormat [.str filename,.str hostname] =
      some (formattedRequest hostname filename) := by
  rw [requestFormat_eq,xvprintf_text h (by decide),xvprintf_string,xvprintf_text h (by decide),
    xvprintf_string,xvprintf_text h (by decide),xvprintf]
  simp [formattedRequest]

theorem mem_xputs {c : UInt8} {s : Str} (h : c ∈ xputs s) : c ∈ s ∨ c = 13 := by
  obtain ⟨d,hd,hc⟩ := List.mem_flatMap.mp h
  rw [xputc] at hc
  split at hc
  · rename_i h10
    rw [h10] at hd
    simp only [List.mem_cons,List.not_mem_nil,or_false] at hc
    cases hc with
    | inl hc => exact .inr hc
    | inr hc =>
      rw [hc]
      exact .inl hd
  · rw [List.mem_singleton.mp hc]
    exact .inl hd

theorem xputs_length (s : Str) : s.length ≤ (xputs s).length ∧ (xputs s).length ≤ 2*s.length := by
  induction s with
  | nil => exact ⟨le_rfl,le_rfl⟩
  | cons c s ih =>
    have hc : 1 ≤ (xputc c).length ∧ (xputc c).length ≤ 2 := by
      rw [xputc]
      split <;> simp
    rw [xputs] at ih ⊢
    rw [List.flatMap_cons,List.length_append,List.length_cons]
    omega

theorem fixed_lengths :
    (xputs requestHead).length = 4 ∧ (xputs requestMiddle).length = 37 ∧
      (xputs requestTail).length = 47 := by
  decide

theorem formattedRequest_length (hostname filename : Str) :
    (formattedRequest hostname filename).length =
      (xputs filename).length+(xputs hostname).length+88 := by
  obtain ⟨h1,h2,h3⟩ := fixed_lengths
  simp only [formattedRequest,List.length_append,h1,h2,h3]
  omega

theorem properRequest_length (hostname filename : Str) :
    (properRequest hostname filename).length = filename.length+hostname.length+82 := by
  simp only [properRequest,List.length_append,crlf,ascii,List.length_map,List.length_cons,
    List.length_nil]
  omega

/-- It ends with the two line ends of the format, each with a carriage return too many. -/
theorem formattedRequest_doubled (hostname filename : Str) :
    [13,13,10] <:+ formattedRequest hostname filename := by
  have htail : [13,13,10] <:+ xputs requestTail := by decide
  have h1 := htail.trans (List.suffix_append (xputs hostname) _)
  have h2 := (h1.trans (List.suffix_append (xputs requestMiddle) _)).trans
    (List.suffix_append (xputs filename) _)
  exact h2.trans (List.suffix_append (xputs requestHead) _)

theorem not_singleCr {s : Str} (h : [13,13,10] <:+ s) : ¬ SingleCr s := by
  obtain ⟨front,rfl⟩ := h
  intro hs
  obtain ⟨c,hc,hno⟩ := hs (front ++ [13] ++ [13]) [] (by simp)
  exact hno front (List.append_cancel_right hc).symm

theorem zero_notMem_formattedRequest {hostname filename : Str} (hh : 0 ∉ hostname)
    (hf : 0 ∉ filename) :
    0 ∉ formattedRequest hostname filename := by
  have hput : ∀ s : Str, 0 ∉ s → 0 ∉ xputs s := fun s hs hm => (mem_xputs hm).elim hs (by decide)
  simp only [formattedRequest,List.mem_append,not_or]
  exact ⟨hput _ (by decide),hput _ hf,hput _ (by decide),hput _ hh,hput _ (by decide)⟩

theorem sentRequest_eq {h : Host} {hostname filename : Str} (hh : 0 ∉ hostname) (hf : 0 ∉ filename)
    (hfit : (formattedRequest hostname filename).length < h.requestSize) (stack : Mem) :
    sentRequest h stack hostname filename = some (formattedRequest hostname filename) := by
  have hz := zero_notMem_formattedRequest hh hf
  have hstring : ∀ rest : Str, text (formattedRequest hostname filename ++ [0] ++ rest) =
      formattedRequest hostname filename := by
    intro rest
    rw [List.append_assoc,text_append_of_not_mem hz]
    simp [text]
  rw [sentRequest,httpRequest,xsprintf,xvprintf_request,Option.map_some,Option.map_some,
    store_window_front _ _ _ _ (by simpa using hfit),hstring]

/-- Host name and path are different parts of the address. -/
theorem urlParts_length (address : Str) :
    (urlHost (urlRest address)).length+(urlRemote (urlRest address)).length ≤ address.length := by
  have hrest := (urlRest_suffix address).length_le
  generalize urlRest address = rest at hrest ⊢
  have hsplit := congrArg List.length (List.takeWhile_append_dropWhile (p := inHost) (l := rest))
  have hremote : (urlRemote rest).length ≤ (rest.dropWhile inHost).length := by
    rw [urlRemote]
    cases hc : afterColon rest with
    | none => exact le_rfl
    | some tail =>
      rw [afterColon_eq_some.mp hc,List.length_cons]
      exact (List.dropWhile_suffix isDigit).length_le.trans (Nat.le_succ _)
  rw [List.length_append] at hsplit
  rw [urlHost]
  omega

theorem urlRequest_eq {address : Str} (hz : 0 ∉ address) (hl : address.length ≤ 127) (h : Host)
    (stack : Mem) (port : Int) :
    urlRequest h stack port address =
        some (formattedRequest (urlHost (urlRest address)) (urlRemote (urlRest address))) ∧
      (formattedRequest (urlHost (urlRest address)) (urlRemote (urlRest address))).length <
        h.requestSize := by
  have hlt : address.length < maxUrl := Nat.lt_succ_of_le hl
  obtain ⟨hhost,hremote⟩ := parsedUrl_split h port hz hlt
  have hsub := (urlRest_suffix address).subset
  have hhz : 0 ∉ urlHost (urlRest address) :=
    fun h0 => hz (hsub ((List.takeWhile_prefix _).subset h0))
  have hrz : 0 ∉ urlRemote (urlRest address) := fun h0 => hz (hsub ((urlRemote_suffix _).subset h0))
  have hfit : (formattedRequest (urlHost (urlRest address)) (urlRemote (urlRest address))).length <
      h.requestSize := by
    have hsize : 512 ≤ h.requestSize := by cases h <;> decide
    have hsum := urlParts_length address
    have h1 := (xputs_length (urlHost (urlRest address))).2
    have h2 := (xputs_length (urlRemote (urlRest address))).2
    rw [formattedRequest_length]
    omega
  rw [urlRequest,hhost,hremote]
  exact ⟨sentRequest_eq hhz hrz hfit stack,hfit⟩

theorem not_requestWellFormed {address : Str} (hz : 0 ∉ address) (hl : address.length ≤ 127)
    (h : Host) (stack : Mem) (port : Int) :
    ¬ RequestWellFormed h stack port address := fun hw =>
  not_singleCr (formattedRequest_doubled _ _) (hw.lines _ (urlRequest_eq hz hl h stack port).1)

/-- What is sent fits the buffer, but none of its lines ends as it should. -/
theorem urlRequest_never_wellFormed {address : Str} (hz : 0 ∉ address) (hl : address.length ≤ 127)
    (h : Host) (stack : Mem) (port : Int) :
    (∃ r, urlRequest h stack port address = some r ∧ r.length < h.requestSize ∧ ¬ SingleCr r ∧
        r ≠ properRequest (urlHost (urlRest address)) (urlRemote (urlRest address))) ∧
      ¬ RequestWellFormed h stack port address := by
  obtain ⟨hsent,hfit⟩ := urlRequest_eq hz hl h stack port
  refine ⟨⟨_,hsent,hfit,not_singleCr (formattedRequest_doubled _ _),fun heq => ?_⟩,
    not_requestWellFormed hz hl h stack port⟩
  have hlen := congrArg List.length heq
  have h1 := (xputs_length (urlHost (urlRest address))).1
  have h2 := (xputs_length (urlRemote (urlRest address))).1
  rw [formattedRequest_length,properRequest_length] at hlen
  omega

/-- The path b of the host a, asked for by the board. -/
theorem urlRequest_never_wellFormed_stm32 :
    urlRemote (urlRest (httpUri ++ [97,47,98])) = [47,98] ∧
      ¬ RequestWellFormed .stm32 (fun _ => 0) 80 (httpUri ++ [97,47,98]) :=
  ⟨by decide,(urlRequest_never_wellFormed (by decide) (by decide) .stm32 (fun _ => 0) 80).2⟩

/-- The same address on both hosts: the request ends with CR CR LF. -/
theorem requestWellFormed_address :
    urlRequest .linux (fun _ => 0) 80 (httpUri ++ [97,47,98]) =
      some (formattedRequest [97] [47,98]) ∧
      urlRequest .stm32 (fun _ => 0) 80 (httpUri ++ [97,47,98]) =
        some (formattedRequest [97] [47,98]) ∧
      [13,13,10] <:+ formattedRequest [97] [47,98] ∧
      ¬ RequestWellFormed .linux (fun _ => 0) 80 (httpUri ++ [97,47,98]) ∧
      ¬ RequestWellFormed .stm32 (fun _ => 0) 80 (httpUri ++ [97,47,98]) := by
  have hz : (0:UInt8) ∉ httpUri ++ [97,47,98] := by decide
  have hl : (httpUri ++ [97,47,98]).length ≤ 127 := by decide
  exact ⟨(urlRequest_eq hz hl .linux _ 80).1,(urlRequest_eq hz hl .stm32 _ 80).1,
    formattedRequest_doubled _ _,not_requestWellFormed hz hl .linux _ 80,
    not_requestWellFormed hz hl .stm32 _ 80⟩

end Mardio
