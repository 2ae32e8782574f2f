import Mardio.Libc

/-!
Splitting a command line into tokens. The text is the memory from the start of
the line on; a call that reads past that memory, or writes past the token
buffer, has no result.
-/

set_option autoImplicit false

namespace Mardio

inductive Host where
  | linux | stm32
  deriving DecidableEq, Repr

/-- The width of `long`. -/
def Host.longBits : Host → Nat
  | .linux => 64
  | .stm32 => 32

/-- The test `> ' '`: characters are signed on the Linux host and unsigned on the
STM32. -/
def Host.above : Host → UInt8 → Bool
  | .linux, c => 32 < c && c < 128
  | .stm32, c => 32 < c

def maxTokens : Nat := 16
def cmdInputBufferSize : Nat := 128

/-- `tokenBuffer` is what was written since the buffer was cleared; the rest of
it is zero. -/
structure Cmd where
  tokenBuffer : Str
  argv : List Nat
  deriving DecidableEq, Repr

def cmdInit : Cmd := ⟨[],[]⟩

def Cmd.argc (c : Cmd) : Nat := c.argv.length

/-- The string that a pointer into the token buffer designates. -/
def Cmd.str (c : Cmd) (offset : Nat) : Str := (c.tokenBuffer.drop offset).takeWhile (· ≠ 0)

def cmdArgv (i : Nat) (c : Cmd) : Str :=
  if c.argc = 0 ∨ c.argc ≤ i then [] else c.str (c.argv.getD i 0)

/-- The bytes that pass the test, the first one that does not, and the text
behind it. -/
def copyWhile (p : UInt8 → Bool) : Str → Option (Str × UInt8 × Str)
  | [] => none
  | c :: text =>
      if p c then (copyWhile p text).map fun r => (c :: r.1,r.2) else some ([],c,text)

/-- The second character is read only behind a slash. -/
def isComment : Str → Option Bool
  | [] => none
  | [c] => if c = 47 then none else some (c == 35)
  | c :: d :: _ => some (c == 47 && d == 47 || c == 35)

def Cmd.addToken (c : Cmd) (token : Str) : Cmd :=
  ⟨c.tokenBuffer ++ token ++ [0],c.argv ++ [c.tokenBuffer.length]⟩

/-- What follows the blanks: the end of the line, or a token with the byte it
stopped at and the text to go on with. A quote that closes a token is skipped;
a word stops in front of its delimiter. -/
def nextToken (h : Host) (text : Str) : Option (Option (Str × UInt8 × Str)) := do
  let (_,ch,rest) ← copyWhile (· == 32) text
  if ch = 10 ∨ ch = 13 ∨ ch = 0 then pure none
  else if ch = 34 then
    let (token,stop,rest) ← copyWhile (fun c => c != 34 && c != 0) rest
    pure (some (token,stop,rest))
  else
    let (token,stop,rest) ← copyWhile h.above (ch :: rest)
    pure (some (token,stop,stop :: rest))

/-- The loop, with the number of tokens there is still room for. -/
def tokenizeFrom (h : Host) : Nat → Str → Cmd → Option Cmd
  | 0, _, c => some c
  | n+1, text, c => do
      if ← isComment text then pure c
      else
        match ← nextToken h text with
        | none => pure c
        | some (token,stop,rest) =>
            if stop = 0 then pure (c.addToken token) else tokenizeFrom h n rest (c.addToken token)

def cmdTokenize (h : Host) (text : Str) : Option Cmd :=
  (tokenizeFrom h maxTokens text ⟨[],[]⟩).filter fun c =>
    c.tokenBuffer.length ≤ cmdInputBufferSize+maxTokens

/-- The tokens of a line, apart from how they are laid out. -/
def lineTokens (h : Host) : Nat → Str → Option (List Str)
  | 0, _ => some []
  | n+1, text => do
      if ← isComment text then pure []
      else
        match ← nextToken h text with
        | none => pure []
        | some (token,stop,rest) =>
            if stop = 0 then pure [token] else (lineTokens h n rest).map (token :: ·)

def Cmd.addTokens (c : Cmd) (ts : List Str) : Cmd := ts.foldl Cmd.addToken c

/-- The tokens one behind the other, each with its terminator. -/
def layout (ts : List Str) : Cmd := (⟨[],[]⟩ : Cmd).addTokens ts

theorem tokenizeFrom_eq (h : Host) (n : Nat) (text : Str) (c : Cmd) :
    tokenizeFrom h n text c = (lineTokens h n text).map c.addTokens := by
  induction n generalizing text c with
  | zero => rfl
  | succ n ih =>
    simp only [tokenizeFrom,lineTokens]
    cases isComment text with
    | none => rfl
    | some comment =>
      cases comment with
      | true => rfl
      | false =>
        cases nextToken h text with
        | none => rfl
        | some next =>
          obtain _ | ⟨token,stop,rest⟩ := next
          · rfl
          · by_cases hs : stop = 0
            · simp [hs,Cmd.addTokens]
            · simp [hs,ih,Function.comp_def,Cmd.addTokens]
              rfl

/-- The call lays the tokens of the line out in the cleared buffer. -/
theorem cmdTokenize_eq {h : Host} {text : Str} {c : Cmd} (hc : cmdTokenize h text = some c) :
    ∃ ts, lineTokens h maxTokens text = some ts ∧ c = layout ts := by
  simp only [cmdTokenize,tokenizeFrom_eq,Option.filter_eq_some_iff,Option.map_eq_some_iff] at hc
  obtain ⟨⟨ts,ht,rfl⟩,-⟩ := hc
  exact ⟨ts,ht,rfl⟩

theorem copyWhile_spec {p : UInt8 → Bool} {text token rest : Str} {stop : UInt8}
    (h : copyWhile p text = some (token,stop,rest)) :
    text = token ++ stop :: rest ∧ (∀ c ∈ token, p c = true) ∧ p stop = false := by
  induction text generalizing token with
  | nil => simp [copyWhile] at h
  | cons c text ih =>
    by_cases hp : p c = true
    · simp only [copyWhile,hp,if_true,Option.map_eq_some_iff,Prod.mk.injEq] at h
      obtain ⟨⟨t,s,r⟩,hr,rfl,hsr⟩ := h
      obtain ⟨rfl,rfl⟩ := hsr
      obtain ⟨he,ha,hn⟩ := ih hr
      exact ⟨by simp [he],by simpa [hp] using ha,hn⟩
    · simp only [copyWhile,hp] at h
      simp at h
      obtain ⟨rfl,rfl,rfl⟩ := h
      simpa using hp

/-- What passes the test is not the terminator. -/
theorem zero_mem_behind {p : UInt8 → Bool} {c : UInt8} {text : Str} (hp : p 0 = false)
    (hc : p c = true) (h0 : 0 ∈ c :: text) : 0 ∈ text := by
  rcases List.mem_cons.mp h0 with rfl | hmem
  · simp [hp] at hc
  · exact hmem

/-- The scan stops no later than at the terminator, and where it stops before it
the terminator is still ahead. -/
theorem copyWhile_stops {p : UInt8 → Bool} {text : Str} (hp : p 0 = false) (h0 : 0 ∈ text) :
    ∃ token stop rest, copyWhile p text = some (token,stop,rest) ∧ (stop = 0 ∨ 0 ∈ rest) := by
  induction text with
  | nil => simp at h0
  | cons c text ih =>
    by_cases hc : p c = true
    · obtain ⟨token,stop,rest,hr,ha⟩ := ih (zero_mem_behind hp hc h0)
      exact ⟨c :: token,stop,rest,by simp [copyWhile,hc,hr],ha⟩
    · exact ⟨[],c,text,by simp [copyWhile,hc],by simpa [eq_comm] using h0⟩

theorem Host.above_zero (h : Host) : h.above 0 = false := by cases h <;> rfl

theorem isComment_stops {text : Str} (h0 : 0 ∈ text) : ∃ b, isComment text = some b := by
  match text with
  | [c] =>
    have hc : c = 0 := by simpa [eq_comm] using h0
    exact ⟨false,by simp [isComment,hc]⟩
  | c :: d :: text => exact ⟨_,rfl⟩

theorem nextToken_stops (h : Host) {text : Str} (h0 : 0 ∈ text) :
    ∃ r, nextToken h text = some r ∧ ∀ token stop rest, r = some (token,stop,rest) →
      stop = 0 ∨ 0 ∈ rest := by
  obtain ⟨blanks,ch,rest,hb,ha⟩ := copyWhile_stops (p := (· == 32)) rfl h0
  by_cases hend : ch = 10 ∨ ch = 13 ∨ ch = 0
  · exact ⟨none,by simp [nextToken,hb,hend],by simp⟩
  have hrest : 0 ∈ rest := ha.resolve_left fun hz => hend (by simp [hz])
  by_cases hq : ch = 34
  · obtain ⟨token,stop,rest',ht,ha'⟩ := copyWhile_stops (p := fun c => c != 34 && c != 0) rfl hrest
    refine ⟨some (token,stop,rest'),by subst hq; simp [nextToken,hb,ht],?_⟩
    rintro _ _ _ ⟨⟩
    exact ha'
  · obtain ⟨token,stop,rest',ht,ha'⟩ :=
      copyWhile_stops h.above_zero (List.mem_cons_of_mem ch hrest)
    refine ⟨some (token,stop,stop :: rest'),by simp [nextToken,hb,hend,hq,ht],?_⟩
    rintro _ _ _ ⟨⟩
    exact ha'.imp id (List.mem_cons_of_mem _)

/-- The number of bytes in front of the terminator. -/
def lineLength (text : Str) : Nat := (text.takeWhile (· ≠ 0)).length

theorem lineLength_append {t : Str} (hz : 0 ∉ t) (rest : Str) :
    lineLength (t ++ rest) = t.length+lineLength rest := by
  have hp : ∀ c ∈ t, decide (c ≠ 0) = true := by
    intro c hc
    simpa using fun h0 : c = 0 => hz (h0 ▸ hc)
  rw [lineLength,List.takeWhile_append_of_pos hp,List.length_append,lineLength]

theorem lineLength_cons {c : UInt8} (hc : c ≠ 0) (text : Str) :
    lineLength (c :: text) = lineLength text+1 := by
  simp [lineLength,hc]

/-- A token has no terminator in it, and takes its bytes from the front of the line. -/
theorem nextToken_spec {h : Host} {text token rest : Str} {stop : UInt8}
    (hn : nextToken h text = some (some (token,stop,rest))) :
    0 ∉ token ∧ token.length ≤ lineLength text ∧
      (stop ≠ 0 → token.length+lineLength rest ≤ lineLength text) := by
  simp only [nextToken,Option.bind_eq_bind,Option.bind_eq_some_iff,Prod.exists] at hn
  obtain ⟨blanks,ch,rest₁,hb,hn⟩ := hn
  obtain ⟨rfl,hblank,-⟩ := copyWhile_spec hb
  have hz : 0 ∉ blanks := fun hm => by simpa using hblank 0 hm
  split at hn
  · simp at hn
  rename_i hend
  have hch : ch ≠ 0 := fun h0 => hend (.inr (.inr h0))
  rw [lineLength_append hz]
  split at hn
  · simp only [Option.bind_eq_some_iff,Prod.exists] at hn
    obtain ⟨token',stop',rest',ht,hn⟩ := hn
    obtain ⟨rfl,hall,-⟩ := copyWhile_spec ht
    simp at hn
    obtain ⟨rfl,rfl,rfl⟩ := hn
    have hz' : 0 ∉ token' := fun hm => by simpa using hall 0 hm
    rw [lineLength_cons hch,lineLength_append hz']
    refine ⟨hz',by omega,fun hs => ?_⟩
    rw [lineLength_cons hs]
    omega
  · simp only [Option.bind_eq_some_iff,Prod.exists] at hn
    obtain ⟨token',stop',rest',ht,hn⟩ := hn
    obtain ⟨he,hall,-⟩ := copyWhile_spec ht
    simp at hn
    obtain ⟨rfl,rfl,rfl⟩ := hn
    have hz' : 0 ∉ token' := fun hm => by simpa [h.above_zero] using hall 0 hm
    rw [he,lineLength_append hz']
    exact ⟨hz',by omega,fun _ => by omega⟩

/-- A line with a terminator is split without reading past it. -/
theorem lineTokens_stops (h : Host) (n : Nat) {text : Str} (h0 : 0 ∈ text) :
    ∃ ts, lineTokens h n text = some ts := by
  induction n generalizing text with
  | zero => exact ⟨[],rfl⟩
  | succ n ih =>
    obtain ⟨comment,hc⟩ := isComment_stops h0
    obtain ⟨next,hn,ha⟩ := nextToken_stops h h0
    cases comment with
    | true => exact ⟨[],by simp [lineTokens,hc]⟩
    | false =>
      obtain _ | ⟨token,stop,rest⟩ := next
      · exact ⟨[],by simp [lineTokens,hc,hn]⟩
      by_cases hs : stop = 0
      · exact ⟨[token],by simp [lineTokens,hc,hn,hs]⟩
      · obtain ⟨ts,ht⟩ := ih ((ha _ _ _ rfl).resolve_left hs)
        exact ⟨token :: ts,by simp [lineTokens,hc,hn,hs,ht]⟩

theorem copyWhile_append {p : UInt8 → Bool} {text : Str} (hp : p 0 = false) (h0 : 0 ∈ text)
    (x : Str) :
    copyWhile p (text ++ x) = (copyWhile p text).map fun r => (r.1,r.2.1,r.2.2 ++ x) := by
  induction text with
  | nil => simp at h0
  | cons c text ih =>
    by_cases hc : p c = true
    · simp [copyWhile,hc,ih (zero_mem_behind hp hc h0),Function.comp_def]
    · simp [copyWhile,hc]

theorem isComment_append {text : Str} (h0 : 0 ∈ text) (x : Str) :
    isComment (text ++ x) = isComment text := by
  match text with
  | [c] =>
    have hc : c = 0 := by simpa [eq_comm] using h0
    subst hc
    cases x <;> simp [isComment]
  | c :: d :: text => rfl

theorem nextToken_append (h : Host) {text : Str} (h0 : 0 ∈ text) (x : Str) :
    nextToken h (text ++ x) = (nextToken h text).map
      (Option.map fun r => (r.1,r.2.1,r.2.2 ++ x)) := by
  obtain ⟨blanks,ch,rest,hb,ha⟩ := copyWhile_stops (p := (· == 32)) rfl h0
  have hbx := copyWhile_append (p := (· == 32)) rfl h0 x
  rw [hb,Option.map_some] at hbx
  by_cases hend : ch = 10 ∨ ch = 13 ∨ ch = 0
  · simp [nextToken,hb,hbx,hend]
  have hrest : 0 ∈ rest := ha.resolve_left fun hz => hend (by simp [hz])
  by_cases hq : ch = 34
  · subst hq
    have ht := copyWhile_append (p := fun c => c != 34 && c != 0) rfl hrest x
    simp only [nextToken,hb,hbx,Option.bind_eq_bind,Option.bind_some,ht]
    cases copyWhile (fun c => c != 34 && c != 0) rest <;> simp
  · have ht := copyWhile_append h.above_zero (List.mem_cons_of_mem ch hrest) x
    rw [List.cons_append] at ht
    simp only [nextToken,hb,hbx,Option.bind_eq_bind,Option.bind_some,hend,hq,if_false,ht]
    cases copyWhile h.above (ch :: rest) <;> simp

/-- What lies behind the terminator does not matter. -/
theorem lineTokens_append (h : Host) (n : Nat) {text : Str} (h0 : 0 ∈ text) (x : Str) :
    lineTokens h n (text ++ x) = lineTokens h n text := by
  induction n generalizing text with
  | zero => rfl
  | succ n ih =>
    obtain ⟨comment,hc⟩ := isComment_stops h0
    obtain ⟨next,hn,ha⟩ := nextToken_stops h h0
    have hcx := isComment_append h0 x
    have hnx := nextToken_append h h0 x
    rw [hc] at hcx
    rw [hn,Option.map_some] at hnx
    cases comment with
    | true => simp [lineTokens,hc,hcx]
    | false =>
      obtain _ | ⟨token,stop,rest⟩ := next
      · simp [lineTokens,hc,hcx,hn,hnx]
      by_cases hs : stop = 0
      · simp [lineTokens,hc,hcx,hn,hnx,hs]
      · simp [lineTokens,hc,hcx,hn,hnx,hs,ih ((ha _ _ _ rfl).resolve_left hs)]

theorem lineTokens_spec {h : Host} {n : Nat} {text : Str} {ts : List Str}
    (ht : lineTokens h n text = some ts) :
    (∀ t ∈ ts, 0 ∉ t) ∧ ts.length ≤ n ∧ (ts.map List.length).sum ≤ lineLength text := by
  induction n generalizing text ts with
  | zero =>
    cases ht
    simp
  | succ n ih =>
    simp only [lineTokens,Option.bind_eq_bind,Option.bind_eq_some_iff] at ht
    obtain ⟨comment,-,ht⟩ := ht
    cases comment with
    | true =>
      cases ht
      simp
    | false =>
      simp only [Bool.false_eq_true,if_false,Option.bind_eq_some_iff] at ht
      obtain ⟨_ | ⟨token,stop,rest⟩,hn,ht⟩ := ht
      · cases ht
        simp
      obtain ⟨hz,hl,hrest⟩ := nextToken_spec hn
      by_cases hs : stop = 0
      · simp [hs] at ht
        subst ht
        simp [hz]
        omega
      · simp only [hs,if_false,Option.map_eq_some_iff] at ht
        obtain ⟨ts',ht',rfl⟩ := ht
        obtain ⟨hz',hn',hl'⟩ := ih ht'
        have hlen := hrest hs
        refine ⟨by simpa [hz] using hz',by simp; omega,?_⟩
        simp
        omega

@[simp] theorem addToken_tokenBuffer (c : Cmd) (t : Str) :
    (c.addToken t).tokenBuffer = c.tokenBuffer ++ t ++ [0] := rfl

@[simp] theorem addToken_argv (c : Cmd) (t : Str) :
    (c.addToken t).argv = c.argv ++ [c.tokenBuffer.length] := rfl

@[simp] theorem addTokens_nil (c : Cmd) : c.addTokens [] = c := rfl

@[simp] theorem addTokens_cons (c : Cmd) (t : Str) (ts : List Str) :
    c.addTokens (t :: ts) = (c.addToken t).addTokens ts := rfl

theorem addTokens_tokenBuffer (c : Cmd) (ts : List Str) :
    (c.addTokens ts).tokenBuffer = c.tokenBuffer ++ ts.flatMap (· ++ [0]) := by
  induction ts generalizing c with
  | nil => simp
  | cons t ts ih => simp [ih]

/-- The pointers stored so far stay. -/
theorem addTokens_argv (c : Cmd) (ts : List Str) :
    ∃ offsets, (c.addTokens ts).argv = c.argv ++ offsets ∧ offsets.length = ts.length := by
  induction ts generalizing c with
  | nil => exact ⟨[],by simp⟩
  | cons t ts ih =>
    obtain ⟨offsets,ha,hl⟩ := ih (c.addToken t)
    exact ⟨c.tokenBuffer.length :: offsets,by simp [ha],by simp [hl]⟩

theorem addTokens_argc (c : Cmd) (ts : List Str) : (c.addTokens ts).argc = c.argc+ts.length := by
  obtain ⟨offsets,ha,hl⟩ := addTokens_argv c ts
  simp [Cmd.argc,ha,hl]

theorem takeWhile_terminated {t : Str} (hz : 0 ∉ t) (rest : Str) :
    (t ++ 0 :: rest).takeWhile (· ≠ 0) = t := by
  induction t with
  | nil => simp
  | cons c t ih =>
    simp at hz
    simp [Ne.symm hz.1]
    simpa using ih hz.2

/-- The string behind the pointer of a token is the token. -/
theorem addTokens_str (c : Cmd) {ts : List Str} {i : Nat} {t : Str} (ht : ts[i]? = some t)
    (hz : 0 ∉ t) :
    (c.addTokens ts).str ((c.addTokens ts).argv.getD (c.argc+i) 0) = t := by
  induction ts generalizing c i with
  | nil => simp at ht
  | cons u ts ih =>
    cases i with
    | zero =>
      simp at ht
      subst ht
      obtain ⟨offsets,ha,-⟩ := addTokens_argv (c.addToken u) ts
      simp [ha,Cmd.str,addTokens_tokenBuffer,Cmd.argc]
      simpa using takeWhile_terminated hz (ts.flatMap (· ++ [0]))
    | succ i =>
      have h := ih (c.addToken u) (i := i) (by simpa using ht)
      have hi : (c.addToken u).argc+i = c.argc+(i+1) := by
        simp [Cmd.argc]
        omega
      rwa [hi] at h

theorem layout_argc (ts : List Str) : (layout ts).argc = ts.length := by
  rw [layout,addTokens_argc]
  simp [Cmd.argc]

theorem cmdArgv_layout {ts : List Str} (hz : ∀ t ∈ ts, 0 ∉ t) (i : Nat) :
    cmdArgv i (layout ts) = ts.getD i [] := by
  unfold cmdArgv
  rw [layout_argc]
  by_cases hi : i < ts.length
  · have h := addTokens_str ⟨[],[]⟩ (List.getElem?_eq_getElem hi) (hz _ (List.getElem_mem hi))
    have hne : ¬ (ts.length = 0 ∨ ts.length ≤ i) := by omega
    rw [if_neg hne]
    simpa [layout,Cmd.argc,List.getElem?_eq_getElem hi] using h
  · simp [Nat.not_lt.mp hi]

theorem layout_length (ts : List Str) :
    (layout ts).tokenBuffer.length = (ts.map List.length).sum+ts.length := by
  simp only [layout,addTokens_tokenBuffer,List.nil_append]
  induction ts with
  | nil => rfl
  | cons t ts ih =>
    simp [ih]
    omega

/-- The tokens with their terminators are no longer than the token buffer. -/
def TokensFit (ts : List Str) : Prop :=
  (ts.map List.length).sum+ts.length ≤ cmdInputBufferSize+maxTokens

instance (ts : List Str) : Decidable (TokensFit ts) := inferInstanceAs (Decidable (_ ≤ _))

theorem cmdTokenize_of_line {h : Host} {text : Str} {ts : List Str}
    (ht : lineTokens h maxTokens text = some ts) :
    cmdTokenize h text = if TokensFit ts then some (layout ts) else none := by
  have he : (lineTokens h maxTokens text).map (⟨[],[]⟩ : Cmd).addTokens = some (layout ts) := by
    simp [ht,layout]
  have hfit : (layout ts).tokenBuffer.length ≤ cmdInputBufferSize+maxTokens ↔ TokensFit ts := by
    rw [layout_length,TokensFit]
  rw [cmdTokenize,tokenizeFrom_eq,he,Option.filter_some]
  simp only [decide_eq_true_eq,hfit]

/-- Tokenizing a terminated line that fits the console reads nothing behind the
terminator and stays in the token buffer. -/
theorem cmdTokenize_terminated (h : Host) {text : Str} (h0 : 0 ∈ text)
    (hl : lineLength text ≤ cmdInputBufferSize) :
    ∃ ts, lineTokens h maxTokens text = some ts ∧ cmdTokenize h text = some (layout ts) := by
  obtain ⟨ts,ht⟩ := lineTokens_stops h maxTokens h0
  obtain ⟨-,hn,hs⟩ := lineTokens_spec ht
  refine ⟨ts,ht,?_⟩
  have hfit : TokensFit ts := by
    unfold TokensFit
    omega
  rw [cmdTokenize_of_line ht,if_pos hfit]

/-- What was written lies in the token buffer, and so does the terminator of every
string that a pointer designates. -/
structure TokensInside (c : Cmd) : Prop where
  written : c.tokenBuffer.length ≤ cmdInputBufferSize+maxTokens
  count : c.argc ≤ maxTokens
  terminated : ∀ p ∈ c.argv, 0 ∈ c.tokenBuffer.drop p

instance (c : Cmd) : Decidable (TokensInside c) :=
  decidable_of_iff (c.tokenBuffer.length ≤ cmdInputBufferSize+maxTokens ∧ c.argc ≤ maxTokens ∧
    ∀ p ∈ c.argv, 0 ∈ c.tokenBuffer.drop p) ⟨fun ⟨a,b,c⟩ => ⟨a,b,c⟩,fun h => ⟨h.1,h.2,h.3⟩⟩

theorem addTokens_terminated {c : Cmd} (hc : ∀ p ∈ c.argv, 0 ∈ c.tokenBuffer.drop p)
    (ts : List Str) :
    ∀ p ∈ (c.addTokens ts).argv, 0 ∈ (c.addTokens ts).tokenBuffer.drop p := by
  induction ts generalizing c with
  | nil => simpa using hc
  | cons t ts ih =>
    refine ih fun p hp => ?_
    simp only [addToken_argv,List.mem_append,List.mem_singleton] at hp
    simp only [addToken_tokenBuffer,List.append_assoc]
    obtain hp | rfl := hp
    · rw [List.drop_append]
      exact List.mem_append_left _ (hc p hp)
    · simp

/-- Splitting a line of no more characters than the console takes ends, reads no
further than the terminator and writes no further than the buffer. -/
theorem cmdTokenize_safe (h : Host) (line : Str) (hz : 0 ∉ line)
    (hl : line.length ≤ cmdInputBufferSize) :
    ∃ c, cmdTokenize h (line ++ [0]) = some c ∧ TokensInside c := by
  have hlen : lineLength (line ++ [0]) = line.length := by
    rw [lineLength_append hz]
    simp [lineLength]
  obtain ⟨ts,ht,hc⟩ := cmdTokenize_terminated h (by simp : 0 ∈ line ++ [0]) (by omega)
  obtain ⟨-,hn,hs⟩ := lineTokens_spec ht
  refine ⟨_,hc,?_,?_,?_⟩
  · rw [layout_length]
    omega
  · rw [layout_argc]
    exact hn
  · exact addTokens_terminated (by simp) ts

/-- A full line that ends with a byte of neither class of the Linux host: the last
fifteen tokens are empty. -/
theorem cmdTokenize_safe_full :
    ∃ c, cmdTokenize .linux ((List.replicate 127 97 ++ [200]) ++ [0]) = some c ∧ TokensInside c :=
  cmdTokenize_safe .linux (List.replicate 127 97 ++ [200]) (by simp) (by simp [cmdInputBufferSize])

end Mardio
