import Mardio.Cmd

/-!
Lines written as tokens with blanks between them, and what the tokenizer makes of
them. It looks for a comment before it skips blanks, so it finds one only where
nothing stands in front of it.
-/

set_option autoImplicit false

namespace Mardio

/-- What the callers of the tokenizer get: `cmd_Argc` strings of `cmd_Argv`. -/
def Cmd.tokens (c : Cmd) : List Str := (List.range c.argc).map fun i => cmdArgv i c

theorem layout_tokens {ts : List Str} (hz : ∀ t ∈ ts, 0 ∉ t) : (layout ts).tokens = ts := by
  refine List.ext_getElem ?_ fun i hi hi' => ?_
  · simp [Cmd.tokens,layout_argc]
  · simp [Cmd.tokens,cmdArgv_layout hz,List.getElem?_eq_getElem hi']

theorem exists_first {α : Type} {p : α → Bool} {l : List α} (hl : ¬ ∀ x ∈ l, p x = true) :
    ∃ front x back, l = front ++ x :: back ∧ (∀ y ∈ front, p y = true) ∧ p x = false := by
  obtain ⟨x,hx⟩ : ∃ x, l.find? (!p ·) = some x := by
    rw [← Option.isSome_iff_exists,List.find?_isSome]
    simpa using hl
  obtain ⟨hpx,front,back,hsplit,hfront⟩ := List.find?_eq_some_iff_append.mp hx
  exact ⟨front,x,back,hsplit,by simpa using hfront,by simpa using hpx⟩

/-! Tokens as they are written. -/

inductive Piece where
  | quoted (s : Str)
  | word (w : Str)
  deriving DecidableEq, Repr

def Piece.content : Piece → Str
  | .quoted s => s
  | .word w => w

def Piece.text : Piece → Str
  | .quoted s => 34 :: (s ++ [34])
  | .word w => w

def StartsComment (text : Str) : Prop := [35] <+: text ∨ [47,47] <+: text

instance (text : Str) : Decidable (StartsComment text) := inferInstanceAs (Decidable (_ ∨ _))

/-- A quoted token goes up to the next quote, a word up to the next byte that is not
above the blank. -/
def Piece.Complete : Piece → Prop
  | .quoted s => ∀ c ∈ s, c ≠ 0 ∧ c ≠ 34
  | .word w => w ≠ [] ∧ (∀ c ∈ w, 32 < c) ∧ w.head? ≠ some 34 ∧ ¬ StartsComment w

/-- A token with the number of blanks behind it. Only a quoted one may do without. -/
structure Written where
  piece : Piece
  gap : Nat
  complete : piece.Complete
  apart : 0 < gap ∨ ∃ s, piece = .quoted s

def blanks (n : Nat) : Str := List.replicate n 32

def Written.text (x : Written) : Str := x.piece.text ++ blanks x.gap

def Written.content (x : Written) : Str := x.piece.content

/-- All bytes of a word pass the host's test. -/
def Written.passes (h : Host) (x : Written) : Bool :=
  match x.piece with
  | .quoted _ => true
  | .word w => w.all h.above

structure TokenLine where
  lead : Nat
  tokens : List Written

def TokenLine.text (l : TokenLine) : Str := blanks l.lead ++ l.tokens.flatMap Written.text

/-! One token. -/

theorem copyWhile_run {p : UInt8 → Bool} {t : Str} {c : UInt8} (ht : ∀ b ∈ t, p b = true)
    (hc : p c = false) (rest : Str) : copyWhile p (t ++ c :: rest) = some (t,c,rest) := by
  induction t with
  | nil => simp [copyWhile,hc]
  | cons b t ih =>
    have hb := ht b List.mem_cons_self
    simp [copyWhile,hb,ih fun d hd => ht d (List.mem_cons_of_mem _ hd)]

theorem isComment_cons {c : UInt8} (h35 : c ≠ 35) (h47 : c ≠ 47) (rest : Str) :
    isComment (c :: rest) = some false := by
  cases rest <;> simp [isComment,h35,h47]

theorem isComment_of_starts {text : Str} (hc : StartsComment text) :
    isComment text = some true := by
  obtain ⟨t,rfl⟩ | ⟨t,rfl⟩ := hc
  · cases t <;> simp [isComment]
  · simp [isComment]

theorem Written.isComment_text (x : Written) (rest : Str) :
    isComment (x.text ++ rest) = some false := by
  obtain ⟨piece,gap,hcomplete,hapart⟩ := x
  cases piece with
  | quoted s => exact isComment_cons (by decide) (by decide) _
  | word w =>
    obtain ⟨hne,-,-,hcomment⟩ := hcomplete
    have hgap : 0 < gap := hapart.resolve_right (by simp)
    obtain ⟨gap,rfl⟩ := Nat.exists_eq_add_of_lt hgap
    match w, hne with
    | [c], _ =>
      have hc : c ≠ 35 := fun h => hcomment (.inl (by simp [h]))
      simp [Written.text,Piece.text,blanks,List.replicate_succ,isComment,hc]
    | c :: d :: w, _ =>
      have hc : c ≠ 35 := fun h => hcomment (.inl (by simp [h]))
      have hd : c = 47 → d ≠ 47 := fun h h' => hcomment (.inr (by simp [h,h']))
      simpa [Written.text,Piece.text,isComment,hc] using hd

/-- Behind the blanks the next token is taken. -/
theorem nextToken_blanks (h : Host) (k : Nat) (text : Str) :
    nextToken h (blanks k ++ text) = nextToken h text := by
  have hcopy : ∀ k, copyWhile (· == 32) (blanks k ++ text) =
      (copyWhile (· == 32) text).map fun r => (blanks k ++ r.1,r.2) := by
    intro k
    induction k with
    | zero => simp [blanks]
    | succ k ih =>
      have hb : blanks (k+1) = 32 :: blanks k := rfl
      simp [hb,copyWhile,ih,Function.comp_def]
  simp only [nextToken,hcopy]
  cases copyWhile (· == 32) text <;> simp

/-- The first byte decides how a token is read. -/
theorem nextToken_quote {h : Host} {s : Str} (hs : ∀ c ∈ s, c ≠ 0 ∧ c ≠ 34) (rest : Str) :
    nextToken h (34 :: (s ++ 34 :: rest)) = some (some (s,34,rest)) := by
  have hcopy := copyWhile_run (p := fun c => c != 34 && c != 0) (t := s) (c := 34)
    (fun c hc => by simp [hs c hc]) (by decide) rest
  simp [nextToken,copyWhile,hcopy]

/-- A byte that ends the line, starts a quoted token or is skipped. -/
def special (c : UInt8) : Bool := c == 32 || c == 10 || c == 13 || c == 0 || c == 34

/-- A word is what passes the test, be it nothing at all. -/
theorem nextToken_word {h : Host} {u : Str} {b : UInt8} (hu : ∀ c ∈ u, h.above c = true)
    (hb : h.above b = false) (hfirst : (u ++ [b]).head?.any special = false) (rest : Str) :
    nextToken h (u ++ b :: rest) = some (some (u,b,b :: rest)) := by
  have hcopy := copyWhile_run hu hb rest
  cases u with
  | nil =>
    simp [special] at hfirst
    simp only [List.nil_append] at hcopy ⊢
    simp [nextToken,copyWhile,hfirst,hb]
  | cons c u =>
    simp [special] at hfirst
    rw [List.cons_append] at hcopy ⊢
    have hblank : copyWhile (· == 32) (c :: (u ++ b :: rest)) = some ([],c,u ++ b :: rest) := by
      simp [copyWhile,hfirst]
    simp [nextToken,hblank,hcopy,hfirst]

theorem lineTokens_next {h : Host} {n : Nat} {text token rest : Str} {stop : UInt8}
    (hc : isComment text = some false) (hn : nextToken h text = some (some (token,stop,rest)))
    (hs : stop ≠ 0) :
    lineTokens h (n+1) text = (lineTokens h n rest).map (token :: ·) := by
  simp [lineTokens,hc,hn,hs]

theorem Host.above_gt {h : Host} {c : UInt8} (hc : h.above c = true) : 32 < c := by
  cases h <;> simp [Host.above] at hc
  · exact hc.1
  · exact hc

theorem not_special_of_gt {c : UInt8} (hc : 32 < c) (hq : c ≠ 34) : special c = false := by
  have hne : ∀ d : UInt8, d ≤ 32 → c ≠ d := by
    rintro d hd rfl
    exact absurd hc (UInt8.not_lt.mpr hd)
  simp [special,hq,hne 32 (by decide),hne 10 (by decide),hne 13 (by decide),hne 0 (by decide)]

theorem head_not_special {w : Str} (hgt : ∀ c ∈ w, 32 < c) (hq : w.head? ≠ some 34) :
    w.head?.any special = false := by
  cases w with
  | nil => rfl
  | cons c w => exact not_special_of_gt (hgt c List.mem_cons_self) (by simpa using hq)

/-- The first token behind some blanks, where the host reads it whole. -/
theorem Written.nextToken_text {h : Host} {x : Written} (hx : x.passes h = true) (rest : Str) :
    ∃ stop, stop ≠ 0 ∧
      nextToken h (x.text ++ rest) = some (some (x.content,stop,blanks x.gap ++ rest)) := by
  have hcomplete := x.complete
  have hapart := x.apart
  cases hp : x.piece with
  | quoted s =>
    rw [hp] at hcomplete
    refine ⟨34,by decide,?_⟩
    have hn := nextToken_quote (h := h) hcomplete (blanks x.gap ++ rest)
    simpa [Written.text,Written.content,Piece.text,Piece.content,hp] using hn
  | word w =>
    rw [hp] at hcomplete hapart
    obtain ⟨hne,hall,hq,-⟩ := hcomplete
    have hgap : 0 < x.gap := hapart.resolve_right (by simp)
    obtain ⟨k,hk⟩ := Nat.exists_eq_succ_of_ne_zero hgap.ne'
    have hb : blanks x.gap = 32 :: blanks k := by simp [blanks,hk,List.replicate_succ]
    refine ⟨32,by decide,?_⟩
    simp only [Written.text,Written.content,Piece.text,Piece.content,hp,hb]
    rw [List.append_assoc,List.cons_append]
    refine nextToken_word (by simpa [Written.passes,hp] using hx) (by cases h <;> decide) ?_ _
    rw [List.head?_append_of_ne_nil _ hne]
    exact head_not_special hall hq

/-- A blank in front of the text only takes away the look for a comment. -/
theorem lineTokens_blanks (h : Host) (n k : Nat) {text : Str} (hc : isComment text = some false) :
    lineTokens h n (blanks k ++ text) = lineTokens h n text := by
  cases n with
  | zero => rfl
  | succ n =>
    have hc' : isComment (blanks k ++ text) = some false := by
      cases k with
      | zero => exact hc
      | succ k => exact isComment_cons (by decide) (by decide) _
    simp only [lineTokens,hc,hc',nextToken_blanks]

theorem lineTokens_written {h : Host} {x : Written} (hx : x.passes h = true) (n k : Nat)
    (rest : Str) :
    lineTokens h (n+1) (blanks k ++ (x.text ++ rest)) =
      (lineTokens h n (blanks x.gap ++ rest)).map (x.content :: ·) := by
  obtain ⟨stop,hs,hn⟩ := x.nextToken_text hx rest
  rw [lineTokens_blanks h (n+1) k (x.isComment_text rest),
    lineTokens_next (x.isComment_text rest) hn hs]

/-- The number of blanks behind the last token. -/
def lastGap : Nat → List Written → Nat
  | k, [] => k
  | _, x :: xs => lastGap x.gap xs

/-- Tokens that the host reads whole come out one by one. -/
theorem lineTokens_tokens {h : Host} {xs : List Written} (hx : ∀ x ∈ xs, x.passes h = true)
    (n k : Nat) (rest : Str) :
    lineTokens h n (blanks k ++ (xs.flatMap Written.text ++ rest)) =
      (lineTokens h (n-xs.length) (blanks (lastGap k xs) ++ rest)).map
        ((xs.map Written.content).take n ++ ·) := by
  induction xs generalizing n k with
  | nil => simp [lastGap]
  | cons x xs ih =>
    cases n with
    | zero => simp [lineTokens]
    | succ n =>
      have hrest := ih (fun y hy => hx y (List.mem_cons_of_mem _ hy)) n x.gap
      rw [List.flatMap_cons,List.append_assoc,lineTokens_written (hx x List.mem_cons_self),hrest]
      simp [Function.comp_def,lastGap]

theorem lineTokens_end (h : Host) (n k : Nat) : lineTokens h n (blanks k ++ [0]) = some [] := by
  rw [lineTokens_blanks h n k rfl]
  cases n with
  | zero => rfl
  | succ n => simp [lineTokens,isComment,nextToken,copyWhile]

theorem cmdTokenize_empty (h : Host) : cmdTokenize h [0] = some (layout []) := by
  have hline : lineTokens h maxTokens [0] = some [] := lineTokens_end h maxTokens 0
  rw [cmdTokenize_of_line hline,if_pos (by decide)]

theorem cmdTokenize_congr {h : Host} {text text' : Str}
    (he : lineTokens h maxTokens text = lineTokens h maxTokens text') :
    cmdTokenize h text = cmdTokenize h text' := by
  rw [cmdTokenize,cmdTokenize,tokenizeFrom_eq,tokenizeFrom_eq,he]

theorem cmdTokenize_tokens {h : Host} {text : Str} {c : Cmd} (hc : cmdTokenize h text = some c) :
    lineTokens h maxTokens text = some c.tokens := by
  obtain ⟨ts,ht,rfl⟩ := cmdTokenize_eq hc
  rw [ht,layout_tokens (lineTokens_spec ht).1]

theorem tokens_iff {h : Host} {text : Str} {ts : List Str} :
    (∃ c, cmdTokenize h text = some c ∧ c.tokens = ts) ↔
      lineTokens h maxTokens text = some ts ∧ TokensFit ts := by
  constructor
  · rintro ⟨c,hc,rfl⟩
    have ht := cmdTokenize_tokens hc
    rw [cmdTokenize_of_line ht] at hc
    exact ⟨ht,(Option.ite_none_right_eq_some.mp hc).1⟩
  · rintro ⟨ht,hfit⟩
    exact ⟨layout ts,by rw [cmdTokenize_of_line ht,if_pos hfit],
      layout_tokens (lineTokens_spec ht).1⟩

theorem lineLength_le (line : Str) : lineLength (line ++ [0]) ≤ line.length := by
  induction line with
  | nil => simp [lineLength]
  | cons c line ih =>
    by_cases hc : c = 0
    · simp [lineLength,hc]
    · rw [List.cons_append,lineLength_cons hc,List.length_cons]
      omega

/-! Quoted strings. -/

/-- A string that can stand between quotes. -/
abbrev Quotable := { s : Str // ∀ c ∈ s, c ≠ 0 ∧ c ≠ 34 }

def quote (s : Quotable) : Str := 34 :: (s.val ++ [34])

def quotedLine : List Quotable → Str
  | [] => []
  | [s] => quote s
  | s :: t :: ts => quote s ++ 32 :: quotedLine (t :: ts)

def Quotable.written (s : Quotable) (gap : Nat) : Written :=
  ⟨.quoted s.val,gap,s.property,.inr ⟨_,rfl⟩⟩

def quotedTokens : List Quotable → List Written
  | [] => []
  | [s] => [s.written 0]
  | s :: t :: ts => s.written 1 :: quotedTokens (t :: ts)

theorem quotedTokens_text (ts : List Quotable) :
    (quotedTokens ts).flatMap Written.text = quotedLine ts := by
  fun_induction quotedTokens ts with
  | case1 => rfl
  | case2 s => simp [quotedLine,quote,Quotable.written,Written.text,Piece.text,blanks]
  | case3 s t ts ih => simp [quotedLine,quote,Quotable.written,Written.text,Piece.text,blanks,ih]

theorem quotedTokens_content (ts : List Quotable) :
    (quotedTokens ts).map Written.content = ts.map Subtype.val := by
  fun_induction quotedTokens ts with
  | case1 => rfl
  | case2 s => rfl
  | case3 s t ts ih => exact congrArg (s.val :: ·) ih

theorem quotedTokens_passes (h : Host) (ts : List Quotable) :
    ∀ x ∈ quotedTokens ts, x.passes h = true := by
  fun_induction quotedTokens ts with
  | case1 => simp
  | case2 s => simp [Quotable.written,Written.passes]
  | case3 s t ts ih => simpa [Quotable.written,Written.passes] using ih

/-- Strings written between quotes, with one blank between them, come back as they
were, whatever they contain. -/
theorem cmdTokenize_quoted (h : Host) (ts : List Quotable) (hn : ts.length ≤ maxTokens)
    (hl : (quotedLine ts).length ≤ cmdInputBufferSize) :
    ∃ c, cmdTokenize h (quotedLine ts ++ [0]) = some c ∧ c.tokens = ts.map Subtype.val := by
  have hlen := congrArg List.length (quotedTokens_content ts)
  simp only [List.length_map] at hlen
  have hline : lineTokens h maxTokens (quotedLine ts ++ [0]) = some (ts.map Subtype.val) := by
    have htokens := lineTokens_tokens (quotedTokens_passes h ts) maxTokens 0 [0]
    rw [lineTokens_end,quotedTokens_text,quotedTokens_content,
      List.take_of_length_le (by rwa [List.length_map]),Option.map_some,List.append_nil] at htokens
    exact htokens
  obtain ⟨ts',ht,hc⟩ := cmdTokenize_terminated h (by simp : 0 ∈ quotedLine ts ++ [0])
    ((lineLength_le _).trans hl)
  refine ⟨_,hc,?_⟩
  rw [hline] at ht
  cases ht
  exact layout_tokens (lineTokens_spec hline).1

def hashQuoted : Quotable := ⟨[35,32,10],by simp⟩
def nothingQuoted : Quotable := ⟨[],by simp⟩

theorem cmdTokenize_quoted_three :
    ∃ c, cmdTokenize .linux (quotedLine [hashQuoted,nothingQuoted,hashQuoted] ++ [0]) = some c ∧
      c.tokens = [[35,32,10],[],[35,32,10]] :=
  cmdTokenize_quoted .linux [hashQuoted,nothingQuoted,hashQuoted] (by decide) (by decide)

/-! Words that the host does not read whole. -/

/-- Where a byte is neither a blank nor passes the test the loop makes no headway, and
every token from there on is empty. -/
theorem lineTokens_stuck {h : Host} {b : UInt8} (hb : h.above b = false) (hs : special b = false)
    (n : Nat) (rest : Str) : lineTokens h n (b :: rest) = some (List.replicate n []) := by
  have h35 : b ≠ 35 := by
    rintro rfl
    cases h <;> simp [Host.above] at hb
  have h47 : b ≠ 47 := by
    rintro rfl
    cases h <;> simp [Host.above] at hb
  have h0 : b ≠ 0 := by
    rintro rfl
    simp [special] at hs
  have hn := nextToken_word (u := []) (by simp) hb (by simpa using hs) rest
  induction n with
  | zero => rfl
  | succ n ih =>
    rw [lineTokens_next (isComment_cons h35 h47 rest) hn h0,ih]
    rfl

/-- Only a word can be cut short, and the rest of the line is lost. -/
theorem lineTokens_cut {h : Host} {x : Written} (hx : x.passes h = false) :
    x.content.takeWhile h.above ≠ x.content ∧ ∀ n k rest,
      lineTokens h (n+1) (blanks k ++ (x.text ++ rest)) =
        some (x.content.takeWhile h.above :: List.replicate n []) := by
  have hcomplete := x.complete
  cases hp : x.piece with
  | quoted s => simp [Written.passes,hp] at hx
  | word w =>
    rw [hp] at hcomplete
    obtain ⟨-,hall,hq,-⟩ := hcomplete
    have hfail : ¬ ∀ c ∈ w, h.above c = true := by simpa [Written.passes,hp] using hx
    obtain ⟨u,b,v,hw,hu,hb⟩ := exists_first hfail
    have hgt : 32 < b := hall b (by rw [hw]; simp)
    have hb34 : b ≠ 34 := by
      rintro rfl
      cases h <;> simp [Host.above] at hb
    have hspecial := not_special_of_gt hgt hb34
    have htaken : x.content.takeWhile h.above = u := by
      rw [Written.content,hp,Piece.content,hw,List.takeWhile_append_of_pos hu]
      simp [hb]
    rw [htaken]
    refine ⟨?_,fun n k rest => ?_⟩
    · simp [Written.content,hp,Piece.content,hw]
    · have htext : x.text ++ rest = u ++ b :: (v ++ (blanks x.gap ++ rest)) := by
        simp [Written.text,hp,Piece.text,hw]
      have hfirst : (u ++ [b]).head?.any special = false := by
        have hhead : (u ++ [b]).head? = w.head? := by
          rw [hw]
          cases u <;> rfl
        rw [hhead]
        exact head_not_special hall hq
      have hn := nextToken_word hu hb hfirst (v ++ (blanks x.gap ++ rest))
      have h0 : b ≠ 0 := by
        rintro rfl
        simp at hgt
      have hcomment := x.isComment_text rest
      rw [lineTokens_blanks h (n+1) k hcomment]
      rw [htext] at hcomment ⊢
      rw [lineTokens_next hcomment hn h0,lineTokens_stuck hb hspecial]
      rfl

/-- The tokens a host finds for up to `n` written ones: a word that it does not read
whole is cut, and empty tokens follow. -/
def hostTokens (h : Host) : Nat → List Written → List Str
  | 0, _ | _, [] => []
  | n+1, x :: xs =>
      if x.passes h then x.content :: hostTokens h n xs
      else x.content.takeWhile h.above :: List.replicate n []

theorem lineTokens_hostTokens (h : Host) (n k : Nat) (xs : List Written) :
    lineTokens h n (blanks k ++ (xs.flatMap Written.text ++ [0])) = some (hostTokens h n xs) := by
  induction xs generalizing n k with
  | nil => cases n <;> simp [hostTokens,lineTokens_end]
  | cons x xs ih =>
    cases n with
    | zero => rfl
    | succ n =>
      rw [List.flatMap_cons,List.append_assoc,hostTokens]
      by_cases hx : x.passes h = true
      · have hone : ∀ y ∈ [x], y.passes h = true := by simpa using hx
        have hfirst := lineTokens_tokens hone (n+1) k (xs.flatMap Written.text ++ [0])
        simp only [List.flatMap_cons,List.flatMap_nil,List.append_nil,List.length_singleton,
          Nat.add_sub_cancel,lastGap,ih] at hfirst
        rw [hfirst,if_pos hx]
        simp
      · rw [(lineTokens_cut (by simpa using hx)).2,if_neg hx]

/-! Comments behind a line. -/

/-- A comment sign inside a token. -/
def Marked (s : Str) : Prop := 35 ∈ s ∨ [47,47] <:+: s

/-- The line with the comment gives the tokens of the line without it, and comment
signs inside a token are kept. -/
def CommentIgnored (h : Host) (l : TokenLine) (comment : Str) : Prop :=
  ∃ c, cmdTokenize h (l.text ++ [0]) = some c ∧
    cmdTokenize h (l.text ++ (comment ++ [0])) = some c ∧
    ∀ i x, i < maxTokens → l.tokens[i]? = some x → Marked x.content → c.tokens[i]? = some x.content

/-- The tokens fit; the line is empty or gives all the tokens there are places for, which a
word the host does not read whole brings about too; and no such word stands in front of a
comment sign. -/
structure CommentNotReached (h : Host) (l : TokenLine) : Prop where
  fits : TokensFit (hostTokens h maxTokens l.tokens)
  unreached : l.text = [] ∨ maxTokens ≤ l.tokens.length ∨
    ∃ x ∈ l.tokens.take maxTokens, x.passes h = false
  whole : ∀ (i : Nat) (x : Written), i < maxTokens → l.tokens[i]? = some x → Marked x.content →
    ∀ y ∈ l.tokens.take (i+1), y.passes h = true

variable {h : Host} {l : TokenLine}

theorem TokenLine.fits_iff : cmdTokenize h (l.text ++ [0]) ≠ none ↔
    TokensFit (hostTokens h maxTokens l.tokens) := by
  have hline : lineTokens h maxTokens (l.text ++ [0]) = some (hostTokens h maxTokens l.tokens) := by
    rw [TokenLine.text,List.append_assoc,lineTokens_hostTokens]
  rw [cmdTokenize_of_line hline]
  simp

theorem Marked.ne_nil {s : Str} (hm : Marked s) : s ≠ [] := by
  rintro rfl
  simp [Marked] at hm

theorem TokenLine.tokens_full (hn : maxTokens ≤ l.tokens.length)
    (hp : ∀ x ∈ l.tokens.take maxTokens, x.passes h = true) (rest : Str) :
    lineTokens h maxTokens (l.text ++ rest) =
      some ((l.tokens.take maxTokens).map Written.content) := by
  have htokens := lineTokens_tokens hp maxTokens l.lead
    ((l.tokens.drop maxTokens).flatMap Written.text ++ rest)
  have hlen : (l.tokens.take maxTokens).length = maxTokens := by simpa using hn
  rw [hlen,Nat.sub_self,← List.append_assoc ((l.tokens.take maxTokens).flatMap _),
    ← List.flatMap_append,List.take_append_drop,← List.append_assoc] at htokens
  rw [TokenLine.text,htokens,List.take_of_length_le (by simp)]
  simp [lineTokens]

theorem TokenLine.tokens_short (hn : l.tokens.length < maxTokens)
    (hp : ∀ x ∈ l.tokens, x.passes h = true) (rest : Str) :
    lineTokens h maxTokens (l.text ++ rest) =
      (lineTokens h (maxTokens-l.tokens.length) (blanks (lastGap l.lead l.tokens) ++ rest)).map
        (l.tokens.map Written.content ++ ·) := by
  have htokens := lineTokens_tokens hp maxTokens l.lead rest
  rw [List.take_of_length_le (by simpa using hn.le),← List.append_assoc] at htokens
  exact htokens

/-- The first word that is cut short, and the tokens whatever follows the line. -/
theorem TokenLine.tokens_cut (hcut : ∃ x ∈ l.tokens.take maxTokens, x.passes h = false) :
    ∃ (xs : List Written) (x : Written) (ys : List Written) (u : Str),
      l.tokens = xs ++ x :: ys ∧ (∀ y ∈ xs, y.passes h = true) ∧ x.passes h = false ∧
      u ≠ x.content ∧ ∀ rest, lineTokens h maxTokens (l.text ++ rest) =
        some (xs.map Written.content ++ u :: List.replicate (maxTokens-xs.length-1) []) := by
  have hfail : ¬ ∀ x ∈ l.tokens.take maxTokens, x.passes h = true := by simpa using hcut
  obtain ⟨front,x,ys,hfirst,hfront,hx⟩ := exists_first hfail
  have hsplit : l.tokens = front ++ x :: (ys ++ l.tokens.drop maxTokens) := by
    rw [← List.cons_append,← List.append_assoc,← hfirst,List.take_append_drop]
  have hlt : front.length < maxTokens := by
    have hlen := congrArg List.length hfirst
    simp only [List.length_take,List.length_append,List.length_cons] at hlen
    omega
  obtain ⟨hu,hcut⟩ := lineTokens_cut hx
  refine ⟨front,x,_,_,hsplit,hfront,hx,hu,fun rest => ?_⟩
  obtain ⟨r,hr⟩ : ∃ r, maxTokens-front.length = r+1 := ⟨maxTokens-front.length-1,by omega⟩
  have htokens := lineTokens_tokens hfront maxTokens l.lead
    (x.text ++ ((ys ++ l.tokens.drop maxTokens).flatMap Written.text ++ rest))
  rw [hr,hcut,List.take_of_length_le (by simpa using hlt.le)] at htokens
  rw [TokenLine.text,hsplit,List.flatMap_append,List.flatMap_cons,hr]
  simpa using htokens

theorem nextToken_ne_end {c : UInt8} (hc : special c = false) (rest : Str) :
    nextToken h (c :: rest) ≠ some none := by
  simp only [special,Bool.or_eq_false_iff,beq_eq_false_iff_ne] at hc
  have hblank : copyWhile (· == 32) (c :: rest) = some ([],c,rest) := by simp [copyWhile,hc]
  simp only [nextToken,hblank,hc,Option.bind_eq_bind,Option.bind_some,or_self,if_false]
  cases copyWhile h.above (c :: rest) <;> simp

/-- Behind a blank a comment is a token like any other. -/
theorem lineTokens_comment {comment : Str} (hc : StartsComment comment) (n k : Nat) :
    lineTokens h (n+1) (blanks (k+1) ++ (comment ++ [0])) ≠ some [] := by
  obtain ⟨c,t,rfl,hspecial⟩ : ∃ c t, comment = c :: t ∧ special c = false := by
    obtain ⟨t,rfl⟩ | ⟨t,rfl⟩ := hc
    · exact ⟨35,t,rfl,by decide⟩
    · exact ⟨47,47 :: t,rfl,by decide⟩
  have hcomment : isComment (blanks (k+1) ++ (c :: (t ++ [0]))) = some false :=
    isComment_cons (by decide) (by decide) _
  have hnext := nextToken_ne_end (h := h) hspecial (t ++ [0])
  simp only [List.cons_append,lineTokens,hcomment,nextToken_blanks]
  cases hn : nextToken h (c :: (t ++ [0])) with
  | none => simp
  | some r =>
    cases r with
    | none => exact absurd hn hnext
    | some token =>
      obtain ⟨token,stop,rest⟩ := token
      by_cases hs : stop = 0 <;> simp [hs]

/-- A token of a cut line comes out whole exactly if it stands in front of the cut. -/
theorem cut_kept_iff {xs ys : List Written} {x y : Written} {u : Str} {i r : Nat}
    (hu : u ≠ x.content) (hy : (xs ++ x :: ys)[i]? = some y) (hm : Marked y.content) :
    (xs.map Written.content ++ u :: List.replicate r [])[i]? = some y.content ↔ i < xs.length := by
  rcases Nat.lt_trichotomy i xs.length with hi | hi | hi
  · rw [List.getElem?_append_left hi] at hy
    rw [List.getElem?_append_left (by simpa using hi),List.getElem?_map,hy]
    simp [hi]
  · subst hi
    simp at hy
    subst hy
    simpa using hu
  · have hne := hm.ne_nil
    obtain ⟨j,rfl⟩ := Nat.exists_eq_add_of_lt hi
    have hget : (xs.map Written.content ++ u :: List.replicate r [])[xs.length+j+1]? =
        (List.replicate r [])[j]? := by
      rw [List.getElem?_append_right (by simp; omega)]
      have hsub : xs.length+j+1-(xs.map Written.content).length = j+1 := by
        simp
        omega
      rw [hsub,List.getElem?_cons_succ]
    rw [hget,List.getElem?_replicate]
    refine iff_of_false ?_ (by omega)
    split <;> simp [hne.symm]

theorem cut_whole_iff {xs ys : List Written} {x : Written} (i : Nat)
    (hxs : ∀ y ∈ xs, y.passes h = true) (hx : x.passes h = false) :
    (∀ y ∈ (xs ++ x :: ys).take (i+1), y.passes h = true) ↔ i < xs.length := by
  constructor
  · intro hall
    by_contra hi
    have hmem : x ∈ (xs ++ x :: ys).take (i+1) := by
      obtain ⟨j,hj⟩ := Nat.exists_eq_add_of_le (Nat.not_lt.mp hi)
      rw [hj,Nat.add_assoc,List.take_length_add_append]
      simp
    rw [hall x hmem] at hx
    cases hx
  · intro hi y hy
    rw [List.take_append_of_le_length hi] at hy
    exact hxs y (List.mem_of_mem_take hy)

theorem lastGap_pos {xs : List Written} (hend : ∀ x ∈ xs.getLast?, 0 < x.gap) (hne : xs ≠ [])
    (k : Nat) :
    0 < lastGap k xs := by
  induction xs generalizing k with
  | nil => exact absurd rfl hne
  | cons x xs ih =>
    cases xs with
    | nil => exact hend x rfl
    | cons y xs => exact ih (by simpa using hend) (by simp) x.gap

theorem TokenLine.gap_pos (hend : ∀ x ∈ l.tokens.getLast?, 0 < x.gap) (htext : l.text ≠ []) :
    0 < lastGap l.lead l.tokens := by
  by_cases hne : l.tokens = []
  · rw [hne,lastGap]
    refine Nat.pos_of_ne_zero fun hlead => htext ?_
    simp [TokenLine.text,hne,hlead,blanks]
  · exact lastGap_pos hend hne l.lead

/-- The line has room for another token: a comment is ignored on an empty line only. -/
theorem TokenLine.commentIgnored_short {comment : Str} (hend : ∀ x ∈ l.tokens.getLast?, 0 < x.gap)
    (hc : StartsComment comment) (hn : l.tokens.length < maxTokens)
    (hp : ∀ x ∈ l.tokens, x.passes h = true) :
    CommentIgnored h l comment ↔ l.text = [] := by
  have hline := l.tokens_short hn hp
  have hplain : lineTokens h maxTokens (l.text ++ [0]) = some (l.tokens.map Written.content) := by
    rw [hline,lineTokens_end]
    simp
  constructor
  · rintro ⟨c,ht,htc,-⟩
    by_contra htext
    obtain ⟨k,hk⟩ := Nat.exists_eq_succ_of_ne_zero (TokenLine.gap_pos hend htext).ne'
    obtain ⟨r,hr⟩ : ∃ r, maxTokens-l.tokens.length = r+1 := ⟨maxTokens-l.tokens.length-1,by omega⟩
    have htokens := cmdTokenize_tokens htc
    rw [← cmdTokenize_tokens ht,hplain,hline,hk,hr,Option.map_eq_some_iff] at htokens
    obtain ⟨more,hmore,he⟩ := htokens
    obtain rfl : more = [] := by simpa using he
    exact lineTokens_comment hc r k hmore
  · intro htext
    rw [htext,List.nil_append] at hplain
    have hcomment : isComment (comment ++ [0]) = some true :=
      isComment_of_starts (hc.imp (·.trans (List.prefix_append _ _))
        (·.trans (List.prefix_append _ _)))
    have hempty : lineTokens h maxTokens [0] = some [] := lineTokens_end h maxTokens 0
    have hsame : lineTokens h (15+1) (comment ++ [0]) = some [] := by simp [lineTokens,hcomment]
    have ht := cmdTokenize_empty h
    rw [hempty] at hplain
    refine ⟨layout [],by simpa [htext] using ht,?_,fun i x _ hx _ => ?_⟩
    · rw [htext,List.nil_append,cmdTokenize_congr (hsame.trans hempty.symm),ht]
    · have hnil := List.map_eq_nil_iff.mp (Option.some.inj hplain).symm
      simp [hnil] at hx

/-- A line whose tokens use up the room is split the same way with and without the
comment; only its own tokens have to fit. -/
theorem TokenLine.commentIgnored_full (comment : Str) (hn : maxTokens ≤ l.tokens.length)
    (hp : ∀ x ∈ l.tokens.take maxTokens, x.passes h = true) :
    CommentIgnored h l comment ↔ cmdTokenize h (l.text ++ [0]) ≠ none := by
  have hline := l.tokens_full hn hp
  have hsame := cmdTokenize_congr ((hline (comment ++ [0])).trans (hline [0]).symm)
  constructor
  · rintro ⟨c,ht,-,-⟩
    simp [ht]
  · intro hfits
    obtain ⟨c,ht⟩ := Option.ne_none_iff_exists'.mp hfits
    refine ⟨c,ht,hsame.trans ht,fun i y hi hy _ => ?_⟩
    have htokens := (hline [0]).symm.trans (cmdTokenize_tokens ht)
    rw [← Option.some.inj htokens]
    simp [hi,hy]

/-- Where a word stops the tokenizer the comment is not reached, and a token with a
comment sign is kept only in front of that word. -/
theorem TokenLine.commentIgnored_cut (comment : Str)
    (hcut : ∃ x ∈ l.tokens.take maxTokens, x.passes h = false) :
    CommentIgnored h l comment ↔ CommentNotReached h l := by
  obtain ⟨xs,x,ys,u,hsplit,hxs,hx,hu,hline⟩ := l.tokens_cut hcut
  have hsame := cmdTokenize_congr ((hline (comment ++ [0])).trans (hline [0]).symm)
  have hkept : ∀ c, cmdTokenize h (l.text ++ [0]) = some c → ∀ i y, l.tokens[i]? = some y →
      Marked y.content →
      (c.tokens[i]? = some y.content ↔ ∀ z ∈ l.tokens.take (i+1), z.passes h = true) := by
    intro c ht i y hy hm
    have htokens := (hline [0]).symm.trans (cmdTokenize_tokens ht)
    rw [hsplit] at hy ⊢
    rw [← Option.some.inj htokens,cut_kept_iff hu hy hm,cut_whole_iff i hxs hx]
  constructor
  · rintro ⟨c,ht,-,hm⟩
    exact ⟨TokenLine.fits_iff.mp (by simp [ht]),.inr (.inr hcut),
      fun i y hi hy hmark => (hkept c ht i y hy hmark).mp (hm i y hi hy hmark)⟩
  · rintro ⟨hfits,-,hwhole⟩
    obtain ⟨c,ht⟩ := Option.ne_none_iff_exists'.mp (TokenLine.fits_iff.mpr hfits)
    exact ⟨c,ht,hsame.trans ht,fun i y hi hy hmark =>
      (hkept c ht i y hy hmark).mpr (hwhole i y hi hy hmark)⟩

/-- A comment behind a line is ignored exactly where the tokenizer does not come to
it with room for a token, or nothing stands in front of it. -/
theorem cmdTokenize_comment_iff (h : Host) (l : TokenLine) (comment : Str)
    (hend : ∀ x ∈ l.tokens.getLast?, 0 < x.gap) (hc : StartsComment comment) :
    CommentIgnored h l comment ↔ CommentNotReached h l := by
  by_cases hcut : ∃ x ∈ l.tokens.take maxTokens, x.passes h = false
  · exact TokenLine.commentIgnored_cut comment hcut
  · have hpass : ∀ x ∈ l.tokens.take maxTokens, x.passes h = true := by simpa using hcut
    have hwhole : ∀ i, i < maxTokens → ∀ y ∈ l.tokens.take (i+1), y.passes h = true :=
      fun i hi y hy => hpass y ((List.take_subset_take_left _ hi) hy)
    rcases Nat.lt_or_ge l.tokens.length maxTokens with hn | hn
    · have hall := hpass
      rw [List.take_of_length_le hn.le] at hall
      rw [TokenLine.commentIgnored_short hend hc hn hall]
      constructor
      · intro htext
        have hfits : cmdTokenize h (l.text ++ [0]) ≠ none := by simp [htext,cmdTokenize_empty h]
        exact ⟨TokenLine.fits_iff.mp hfits,.inl htext,fun i _ hi _ _ => hwhole i hi⟩
      · rintro ⟨-,hempty | hfull | hstopped,-⟩
        · exact hempty
        · omega
        · exact absurd hstopped hcut
    · rw [TokenLine.commentIgnored_full comment hn hpass,TokenLine.fits_iff]
      exact ⟨fun hfits => ⟨hfits,.inr (.inl hn),fun i _ hi _ _ => hwhole i hi⟩,
        fun hreached => hreached.fits⟩

/-- `echo a` with a blank and a comment behind it. -/
def echoLine : TokenLine where
  lead := 0
  tokens :=
    [⟨.word [101,99,104,111],1,by simp [Piece.Complete,StartsComment],.inl (by decide)⟩,
     ⟨.word [97],1,by simp [Piece.Complete,StartsComment],.inl (by decide)⟩]

theorem cmdTokenize_comment_echo :
    (∀ x ∈ echoLine.tokens.getLast?, 0 < x.gap) ∧ StartsComment [35,98] ∧
      (CommentIgnored .linux echoLine [35,98] ↔ CommentNotReached .linux echoLine) :=
  ⟨by simp [echoLine],by decide,cmdTokenize_comment_iff .linux echoLine [35,98]
    (by simp [echoLine]) (by decide)⟩

theorem cmdTokenize_comment_taken : ¬ CommentIgnored .linux echoLine [35,98] := by
  rintro ⟨c,ht,htc,-⟩
  have he := ht.trans htc.symm
  revert he
  decide

end Mardio
