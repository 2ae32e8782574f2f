import Mardio.TokenLines

/-!
The words of a line without quotes and comments. Blanks are skipped by one test and
words copied by another; a byte that neither takes stops the tokenizer for good.
-/

set_option autoImplicit false

namespace Mardio

/-- A space or a control, the one above the letters included. -/
def blank (c : UInt8) : Bool := decide (c ≤ 32) || c == 127

/-- Maximal runs of bytes other than blanks. -/
def lineWords (line : Str) : List Str := (line.splitOnP blank).filter (· ≠ [])

def firstLine (line : Str) : Str := line.takeWhile fun c => c ≠ 10 ∧ c ≠ 13

def WordsFound (h : Host) (line : Str) : Prop :=
  ∃ c, cmdTokenize h (line ++ [0]) = some c ∧ c.tokens = (lineWords (firstLine line)).take maxTokens

/-- A space, or a byte of a word that passes the host's test. -/
def Plain (h : Host) (c : UInt8) : Prop := c = 32 ∨ h.above c = true ∧ c ≠ 127

instance (h : Host) (c : UInt8) : Decidable (Plain h c) := inferInstanceAs (Decidable (_ ∨ _))

/-- Up to the end of its `n`th word the line has nothing but spaces and bytes that pass
the host's test, and the copying of that word ends with it. -/
def Clear (h : Host) (n : Nat) (line : Str) : Prop :=
  ∃ front back, line = front ++ back ∧ (∀ c ∈ front, Plain h c) ∧
    (back = [] ∨ n ≤ (lineWords front).length ∧ ∃ b t, back = b :: t ∧ b ≤ 32)

/-! Words. -/

theorem blank_le {b : UInt8} (hb : b ≤ 32) : blank b = true := by simp [blank,hb]

theorem Plain.above {h : Host} {c : UInt8} (hp : Plain h c) (hc : c ≠ 32) :
    h.above c = true ∧ blank c = false := by
  obtain rfl | ⟨ha,hdel⟩ := hp
  · exact absurd rfl hc
  · exact ⟨ha,by simp [blank,UInt8.not_le.mpr (Host.above_gt ha),hdel]⟩

theorem lineWords_blank {b : UInt8} (hb : blank b = true) (x y : Str) :
    lineWords (x ++ b :: y) = lineWords x ++ lineWords y := by
  rw [lineWords,List.splitOnP_append_cons x y hb,List.filter_append,lineWords,lineWords]

theorem lineWords_run {w : Str} (hne : w ≠ []) (hw : ∀ c ∈ w, blank c = false) :
    lineWords w = [w] := by
  have hsplit : w.splitOnP blank = [w] :=
    List.splitOnP_eq_singleton fun c hc => by simpa using hw c hc
  simp [lineWords,hsplit,hne]

theorem lineWords_nil : lineWords [] = [] := by simp [lineWords]

theorem ne_nil_of_mem_words {line w : Str} (hw : w ∈ lineWords line) : w ≠ [] := by
  simpa using (List.mem_filter.mp hw).2

theorem not_blank_of_mem_words {line w : Str} (hw : w ∈ lineWords line) :
    ∀ c ∈ w, blank c = false := by
  have hsplit : ∀ w ∈ line.splitOnP blank, ∀ c ∈ w, blank c = false := by
    clear hw
    induction line with
    | nil => simp
    | cons b line ih =>
      rw [List.splitOnP_cons_eq_if_modifyHead]
      split
      · simpa using ih
      · cases hl : line.splitOnP blank with
        | nil => simp
        | cons x xs =>
          rw [hl] at ih
          simp only [List.modifyHead_cons,List.forall_mem_cons] at ih ⊢
          exact ⟨⟨by simpa using ‹¬ blank b = true›,ih.1⟩,ih.2⟩
  exact hsplit w (List.mem_filter.mp hw).1

variable {h : Host}

theorem Host.not_above {b : UInt8} (hb : b ≤ 32) : h.above b = false := by
  rw [Bool.eq_false_iff]
  exact fun ha => absurd (Host.above_gt ha) (UInt8.not_lt.mpr hb)

theorem isComment_plain {text : Str} (hne : text ≠ [])
    (hplain : ∀ c ∈ text.head?, c ≠ 35 ∧ c ≠ 47) :
    isComment text = some false := by
  cases text with
  | nil => exact absurd rfl hne
  | cons c text => exact isComment_cons (hplain c rfl).1 (hplain c rfl).2 text

theorem isComment_word {u : Str} (hne : u ≠ []) (hplain : ∀ c ∈ u, c ≠ 34 ∧ c ≠ 35 ∧ c ≠ 47)
    (rest : Str) : isComment (u ++ rest) = some false := by
  refine isComment_plain (by simp [hne]) fun c hc => (hplain c ?_).2
  rw [List.head?_append_of_ne_nil _ hne] at hc
  exact List.mem_of_mem_head? hc

theorem Host.plain_of_not_above {b : UInt8} (hb : h.above b = false) :
    b ≠ 34 ∧ b ≠ 35 ∧ b ≠ 47 := by
  refine ⟨?_,?_,?_⟩ <;> rintro rfl <;> cases h <;> simp [Host.above] at hb

/-- A blank or the end of the text closes a word. -/
theorem lineWords_first {u : Str} (hne : u ≠ []) (hu : ∀ c ∈ u, blank c = false) {p : Str}
    (hp : p.head?.all blank) :
    lineWords (u ++ p) = u :: lineWords p := by
  cases p with
  | nil => simp [lineWords_nil,lineWords_run hne hu]
  | cons b p =>
    have hb : blank b = true := by simpa using hp
    have hrest := lineWords_blank hb [] p
    simp only [List.nil_append,lineWords_nil] at hrest
    rw [lineWords_blank hb,lineWords_run hne hu,hrest]
    rfl

/-- The byte that ends the first line ends the tokens. -/
theorem lineTokens_stop {e : UInt8} (he : e = 0 ∨ e = 10 ∨ e = 13) (n : Nat) (rest : Str) :
    lineTokens h n (e :: rest) = some [] := by
  cases n with
  | zero => rfl
  | succ n =>
    have hc : isComment (e :: rest) = some false := by
      rcases he with rfl | rfl | rfl <;> exact isComment_cons (by decide) (by decide) rest
    have hn : nextToken h (e :: rest) = some none := by
      rcases he with rfl | rfl | rfl <;> simp [nextToken,copyWhile]
    simp [lineTokens,hc,hn]

/-- A word is taken whole, and the byte it stopped at is looked at next. -/
theorem lineTokens_word {u : Str} (hne : u ≠ []) (hu : ∀ c ∈ u, h.above c = true)
    (hplain : ∀ c ∈ u, c ≠ 34 ∧ c ≠ 35 ∧ c ≠ 47) {d : UInt8} (hd : h.above d = false) (n : Nat)
    (rest : Str) :
    lineTokens h (n+1) (u ++ d :: rest) = (lineTokens h n (d :: rest)).map (u :: ·) := by
  have hfirst : (u ++ [d]).head?.any special = false := by
    rw [List.head?_append_of_ne_nil _ hne]
    exact head_not_special (fun c hc => Host.above_gt (hu c hc))
      (fun hq => (hplain 34 (List.mem_of_mem_head? hq)).1 rfl)
  have hn := nextToken_word hu hd hfirst rest
  have hc : isComment (u ++ d :: rest) = some false := isComment_word hne hplain _
  by_cases h0 : d = 0
  · rw [lineTokens_stop (.inl h0)]
    simp only [lineTokens,hc,hn]
    simp [h0]
  · exact lineTokens_next hc hn h0

/-- A text that starts with a byte of a word is a word and then nothing, or a space. -/
theorem exists_first_word {c : UInt8} {p : Str} (hp : ∀ d ∈ c :: p, Plain h d) (hc : c ≠ 32) :
    ∃ u v : Str, c :: p = u ++ v ∧ u ≠ [] ∧ (∀ d ∈ u, h.above d = true ∧ blank d = false) ∧
      ∀ d ∈ v.head?, d = 32 := by
  have hsplit := List.takeWhile_append_dropWhile (p := fun d => decide (d ≠ 32)) (l := c :: p)
  refine ⟨_,_,hsplit.symm,by simp [hc],fun d hd => ?_,fun d hd => ?_⟩
  · have hne : d ≠ 32 := by simpa using List.mem_takeWhile_imp hd
    exact (hp d ((List.takeWhile_prefix _).subset hd)).above hne
  · have hhead := List.head?_dropWhile_not (fun d => decide (d ≠ 32)) (c :: p)
    rw [Option.mem_def.mp hd] at hhead
    simpa using hhead

/-- A text of spaces and bytes that pass gives its words, and goes on at the byte
behind it. -/
theorem lineTokens_words {p : Str} (hp : ∀ c ∈ p, Plain h c)
    (hplain : ∀ c ∈ p, c ≠ 34 ∧ c ≠ 35 ∧ c ≠ 47) {b : UInt8} (hb : h.above b = false) (n : Nat)
    (rest : Str) :
    lineTokens h n (p ++ b :: rest) =
      (lineTokens h (n-(lineWords p).length) (b :: rest)).map ((lineWords p).take n ++ ·) := by
  -- on the length of the text: a turn of the loop takes a space or a whole word from it
  induction hlen : p.length using Nat.strong_induction_on generalizing p n with
  | _ len ih =>
  subst hlen
  match p, n with
  | [], n => simp [lineWords_nil]
  | c :: p, 0 => simp [lineTokens]
  | c :: p, n+1 =>
    by_cases hc : c = 32
    · subst hc
      have hcomment : isComment (p ++ b :: rest) = some false := by
        refine isComment_plain (by simp) ?_
        cases p with
        | nil => simpa using (Host.plain_of_not_above hb).2
        | cons c p => simpa using (hplain c (by simp)).2
      have hwords : lineWords (32 :: p) = lineWords p := by
        simpa [lineWords_nil] using lineWords_blank (b := 32) (by decide) [] p
      have hskip := lineTokens_blanks h (n+1) 1 hcomment
      have hrest := ih p.length (by simp) (fun d hd => hp d (List.mem_cons_of_mem _ hd))
        (fun d hd => hplain d (List.mem_cons_of_mem _ hd)) (n+1) rfl
      rw [hwords,← hrest,← hskip]
      rfl
    · obtain ⟨u,v,hsplit,hune,huall,hv⟩ := exists_first_word hp hc
      have hnext : ∃ d rest', v ++ b :: rest = d :: rest' ∧ h.above d = false ∧
          v.head?.all blank := by
        cases v with
        | nil => exact ⟨b,rest,rfl,hb,rfl⟩
        | cons d v =>
          obtain rfl := hv d rfl
          exact ⟨32,v ++ b :: rest,rfl,Host.not_above (by decide),rfl⟩
      obtain ⟨d,rest',hdrest,hd,hhead⟩ := hnext
      have hvlen : v.length < (c :: p).length := by
        have hpos := List.length_pos_iff.mpr hune
        rw [hsplit,List.length_append]
        omega
      have hrest := ih v.length hvlen (fun e he => hp e (hsplit ▸ List.mem_append_right _ he))
        (fun e he => hplain e (hsplit ▸ List.mem_append_right _ he)) n rfl
      rw [hsplit,lineWords_first hune (fun e he => (huall e he).2) hhead,List.append_assoc,hdrest,
        lineTokens_word hune (fun e he => (huall e he).1)
          (fun e he => hplain e (hsplit ▸ List.mem_append_left _ he)) hd,
        ← hdrest,hrest]
      simp [Function.comp_def]

/-! A byte that stops the tokenizer. -/

theorem lineTokens_stopped {p : Str} (hp : ∀ c ∈ p, Plain h c)
    (hplain : ∀ c ∈ p, c ≠ 34 ∧ c ≠ 35 ∧ c ≠ 47) {b : UInt8} (hb : h.above b = false)
    (hs : special b = false) (n : Nat) (rest : Str) :
    lineTokens h n (p ++ b :: rest) = some ((lineWords p ++ List.replicate n []).take n) := by
  rw [lineTokens_words hp hplain hb,lineTokens_stuck hb hs,Option.map_some,List.take_append,
    List.take_replicate,Nat.min_eq_left (Nat.sub_le _ _)]

/-- Up to the space in front of its last word. -/
theorem exists_last_word {p : Str} (hp : ∀ c ∈ p, Plain h c) :
    ∃ front u, p = front ++ u ∧ (∀ c ∈ u, h.above c = true ∧ blank c = false) ∧
      ∀ c ∈ front.getLast?, c = 32 := by
  induction p using List.reverseRecOn with
  | nil => exact ⟨[],[],by simp⟩
  | append_singleton p c ih =>
    by_cases hc : c = 32
    · exact ⟨p ++ [c],[],by simpa using hc⟩
    · obtain ⟨front,u,rfl,hu,hlast⟩ := ih fun d hd => hp d (by simp [hd])
      refine ⟨front,u ++ [c],by simp,fun d hd => ?_,hlast⟩
      obtain hd | hd := List.mem_append.mp hd
      · exact hu d hd
      · rw [List.mem_singleton.mp hd]
        exact (hp c (by simp)).above hc

theorem lineWords_append {front : Str} (hlast : ∀ c ∈ front.getLast?, c = 32) (x : Str) :
    lineWords (front ++ x) = lineWords front ++ lineWords x := by
  rcases List.eq_nil_or_concat front with rfl | ⟨f,c,rfl⟩
  · simp [lineWords_nil]
  · have hc : blank c = true := by
      rw [hlast c (by simp)]
      rfl
    have hclosed := lineWords_blank hc f []
    rw [lineWords_nil,List.append_nil] at hclosed
    rw [List.concat_eq_append,hclosed,List.append_assoc,List.singleton_append,lineWords_blank hc]

/-- What the first place behind the common words holds. -/
theorem take_append_head {α : Type} {n : Nat} {xs ys zs : List α} (hlt : xs.length < n)
    (he : (xs ++ ys).take n = (xs ++ zs).take n) : ys.head? = zs.head? := by
  have hget := congrArg (·[xs.length]?) he
  simpa [hlt,List.getElem?_append_right,List.head?_eq_getElem?] using hget

theorem words_stopped_control {p q : Str} {b : UInt8} {n : Nat} (hb : b ≤ 32)
    (he : (lineWords p ++ List.replicate n []).take n = (lineWords (p ++ b :: q)).take n) :
    n ≤ (lineWords p).length := by
  by_contra hlt
  rw [lineWords_blank (blank_le hb)] at he
  have hhead := take_append_head (Nat.not_le.mp hlt) he
  obtain ⟨m,rfl⟩ := Nat.exists_eq_succ_of_ne_zero (by omega : n ≠ 0)
  rw [List.replicate_succ,List.head?_cons] at hhead
  exact ne_nil_of_mem_words (List.mem_of_mem_head? hhead.symm) rfl

/-- A byte that stops a word makes it shorter. -/
theorem words_stopped_word {front u q : Str} {b : UInt8} {n : Nat}
    (hlast : ∀ c ∈ front.getLast?, c = 32) (hu : ∀ c ∈ u, blank c = false) (hb : blank b = false)
    (he : (lineWords (front ++ u) ++ List.replicate n []).take n =
      (lineWords (front ++ (u ++ b :: q))).take n) :
    n ≤ (lineWords front).length := by
  by_contra hlt
  have hq := List.takeWhile_append_dropWhile (p := fun c : UInt8 => !blank c) (l := q)
  have hword : lineWords (u ++ b :: q) =
      (u ++ b :: q.takeWhile fun c => !blank c) :: lineWords (q.dropWhile fun c => !blank c) := by
    have hall : ∀ c ∈ u ++ b :: q.takeWhile (fun c => !blank c), blank c = false := by
      intro c hc
      simp only [List.mem_append,List.mem_cons] at hc
      obtain hc | rfl | hc := hc
      · exact hu c hc
      · exact hb
      · simpa using List.mem_takeWhile_imp hc
    have hnext : (q.dropWhile fun c => !blank c).head?.all blank := by
      have hhead := List.head?_dropWhile_not (fun c : UInt8 => !blank c) q
      revert hhead
      cases (q.dropWhile fun c => !blank c).head? <;> simp
    rw [← lineWords_first (by simp) hall hnext]
    simp [hq]
  rw [lineWords_append hlast,lineWords_append hlast,List.append_assoc,hword] at he
  have hhead := take_append_head (Nat.not_le.mp hlt) he
  obtain ⟨m,rfl⟩ := Nat.exists_eq_succ_of_ne_zero (by omega : n ≠ 0)
  cases u with
  | nil => simp [lineWords_nil,List.replicate_succ] at hhead
  | cons c u => simp [lineWords_run (List.cons_ne_nil c u) hu] at hhead

/-! A byte that is copied and should have ended a word. -/

/-- The words of a text that ends with a space come first. -/
theorem lineTokens_front {front : Str} (hp : ∀ c ∈ front, Plain h c)
    (hplain : ∀ c ∈ front, c ≠ 34 ∧ c ≠ 35 ∧ c ≠ 47) (hlast : ∀ c ∈ front.getLast?, c = 32)
    {x : Str} (hx : isComment x = some false) (n : Nat) :
    lineTokens h n (front ++ x) =
      (lineTokens h (n-(lineWords front).length) x).map ((lineWords front).take n ++ ·) := by
  rcases List.eq_nil_or_concat front with rfl | ⟨f,c,rfl⟩
  · simp [lineWords_nil]
  · rw [List.concat_eq_append] at *
    obtain rfl : c = 32 := hlast c (by simp)
    have hclosed : lineWords (f ++ [32]) = lineWords f := by
      rw [lineWords_blank (by decide),lineWords_nil,List.append_nil]
    have hskip := lineTokens_blanks h (n-(lineWords f).length) 1 hx
    rw [List.append_assoc,List.singleton_append,hclosed,← hskip]
    exact lineTokens_words (fun d hd => hp d (by simp [hd])) (fun d hd => hplain d (by simp [hd]))
      (Host.not_above (by decide)) n x

/-- What the tokenizer copies of `q`, up to the byte that stops it, `e` at the latest. -/
theorem exists_stop {e : UInt8} (he : h.above e = false) (q rest : Str) :
    ∃ w d rest', q ++ e :: rest = w ++ d :: rest' ∧ w <+: q ∧ (∀ c ∈ w, h.above c = true) ∧
      h.above d = false := by
  induction q with
  | nil => exact ⟨[],e,rest,rfl,List.prefix_rfl,by simp,he⟩
  | cons c q ih =>
    by_cases hc : h.above c = true
    · obtain ⟨w,d,rest',hsplit,hpre,hall,hd⟩ := ih
      refine ⟨c :: w,d,rest',by rw [List.cons_append,hsplit]; rfl,?_,?_,hd⟩
      · exact (List.cons_prefix_cons).mpr ⟨rfl,hpre⟩
      · exact List.forall_mem_cons.mpr ⟨hc,hall⟩
    · exact ⟨[],c,q ++ e :: rest,rfl,List.nil_prefix,by simp,by simpa using hc⟩

/-- The token that takes the byte in is none of the words. -/
theorem words_del {front u q rest : Str} {e : UInt8} {n : Nat} (hp : ∀ c ∈ front, Plain h c)
    (hlast : ∀ c ∈ front.getLast?, c = 32) (hu : ∀ c ∈ u, h.above c = true ∧ blank c = false)
    (hplain : ∀ c ∈ front ++ (u ++ 127 :: q), c ≠ 34 ∧ c ≠ 35 ∧ c ≠ 47) (he : h.above e = false)
    (ht : lineTokens h n (front ++ (u ++ 127 :: q) ++ e :: rest) =
      some ((lineWords (front ++ (u ++ 127 :: q))).take n)) : n ≤ (lineWords front).length := by
  by_contra hlt
  obtain ⟨w,d,rest',hsplit,hpre,hcopied,hd⟩ := exists_stop he q rest
  have hw : ∀ c ∈ u ++ 127 :: w, h.above c = true := by
    intro c hc
    simp only [List.mem_append,List.mem_cons] at hc
    obtain hc | rfl | hc := hc
    · exact (hu c hc).1
    · cases h <;> decide
    · exact hcopied c hc
  have hwplain : ∀ c ∈ u ++ 127 :: w, c ≠ 34 ∧ c ≠ 35 ∧ c ≠ 47 := by
    intro c hc
    refine hplain c ?_
    simp only [List.mem_append,List.mem_cons] at hc ⊢
    exact .inr (hc.imp_right (Or.imp_right fun hm => hpre.subset hm))
  have htext : front ++ (u ++ 127 :: q) ++ e :: rest =
      front ++ ((u ++ 127 :: w) ++ d :: rest') := by
    simp [hsplit]
  have hcomment : isComment ((u ++ 127 :: w) ++ d :: rest') = some false :=
    isComment_word (by simp) hwplain _
  obtain ⟨m,hm⟩ : ∃ m, n-(lineWords front).length = m+1 := ⟨n-(lineWords front).length-1,by omega⟩
  rw [htext,lineTokens_front hp (fun c hc => hplain c (by simp [hc])) hlast hcomment,hm,
    lineTokens_word (by simp) hw hwplain hd,Option.map_map,Option.map_eq_some_iff] at ht
  obtain ⟨ts,-,hts⟩ := ht
  -- compare the token with the word at its place
  have hk : (lineWords front).take n = lineWords front := List.take_of_length_le (by omega)
  rw [Function.comp_apply,hk,lineWords_append hlast,List.take_append,hk,hm,
    List.append_cancel_left_eq] at hts
  cases hwords : lineWords (u ++ 127 :: q) with
  | nil =>
    rw [hwords] at hts
    cases hts
  | cons v vs =>
    rw [hwords,List.take_succ_cons] at hts
    have hmem : v ∈ lineWords (u ++ 127 :: q) := by simp [hwords]
    have hv := not_blank_of_mem_words hmem 127
    rw [← (List.cons.inj hts).1] at hv
    exact absurd (hv (by simp)) (by decide)

/-! The first line. -/

theorem firstLine_end (line : Str) :
    ∃ e rest, line ++ [0] = firstLine line ++ e :: rest ∧ (e = 0 ∨ e = 10 ∨ e = 13) := by
  have hsplit := List.takeWhile_append_dropWhile (p := fun c : UInt8 => decide (c ≠ 10 ∧ c ≠ 13))
    (l := line)
  have hhead := List.head?_dropWhile_not (fun c : UInt8 => decide (c ≠ 10 ∧ c ≠ 13)) line
  cases hd : line.dropWhile fun c => decide (c ≠ 10 ∧ c ≠ 13) with
  | nil =>
    rw [hd,List.append_nil] at hsplit
    exact ⟨0,[],by rw [firstLine,hsplit],.inl rfl⟩
  | cons e rest =>
    rw [hd] at hsplit hhead
    refine ⟨e,rest ++ [0],?_,.inr ?_⟩
    · rw [firstLine,← List.cons_append,← List.append_assoc,hsplit]
    · by_cases h10 : e = 10
      · exact .inl h10
      · exact .inr (by simpa [h10] using hhead)

theorem Clear.words {n : Nat} {line : Str} (hc : Clear h n line)
    (hplain : ∀ c ∈ line, c ≠ 34 ∧ c ≠ 35 ∧ c ≠ 47) {e : UInt8} (he : e = 0 ∨ e = 10 ∨ e = 13)
    (rest : Str) :
    lineTokens h n (line ++ e :: rest) = some ((lineWords line).take n) := by
  obtain ⟨front,back,rfl,hfront,hback⟩ := hc
  have hplain' := fun c hc => hplain c (List.mem_append_left back hc)
  obtain rfl | ⟨hn,b,t,rfl,hb⟩ := hback
  · have hend : h.above e = false := Host.not_above (by rcases he with rfl | rfl | rfl <;> decide)
    rw [List.append_nil,lineTokens_words hfront hplain' hend,lineTokens_stop he]
    simp
  · rw [List.append_assoc,List.cons_append,lineTokens_words hfront hplain' (Host.not_above hb),
      Nat.sub_eq_zero_of_le hn,lineWords_blank (blank_le hb),List.take_append_of_le_length hn]
    simp [lineTokens]

/-- The words in front of a byte that is not plain are enough. -/
theorem clear_of_front {n : Nat} (hn : 0 < n) {front x : Str} (hp : ∀ c ∈ front, Plain h c)
    (hlast : ∀ c ∈ front.getLast?, c = 32) (hwords : n ≤ (lineWords front).length) :
    Clear h n (front ++ x) := by
  rcases List.eq_nil_or_concat front with rfl | ⟨f,c,rfl⟩
  · simp [lineWords_nil] at hwords
    omega
  · rw [List.concat_eq_append] at *
    obtain rfl : c = 32 := hlast c (by simp)
    rw [lineWords_blank (by decide),lineWords_nil,List.append_nil] at hwords
    exact ⟨f,32 :: x,by simp,fun d hd => hp d (by simp [hd]),.inr ⟨hwords,32,x,rfl,by decide⟩⟩

theorem clear_of_words {n : Nat} (hn : 0 < n) {line : Str}
    (hplain : ∀ c ∈ line, c ≠ 34 ∧ c ≠ 35 ∧ c ≠ 47) (hline : ∀ c ∈ line, c ≠ 0 ∧ c ≠ 10 ∧ c ≠ 13)
    {e : UInt8} (he : h.above e = false) {rest : Str}
    (ht : lineTokens h n (line ++ e :: rest) = some ((lineWords line).take n)) :
    Clear h n line := by
  by_cases hall : ∀ c ∈ line, decide (Plain h c) = true
  · exact ⟨line,[],by simp,by simpa using hall,.inl rfl⟩
  · obtain ⟨p,b,q,rfl,hp,hb⟩ := exists_first hall
    rw [decide_eq_false_iff_not] at hb
    have hp' : ∀ c ∈ p, Plain h c := by simpa using hp
    obtain ⟨front,u,rfl,hu,hlast⟩ := exists_last_word hp'
    have hfront : ∀ c ∈ front, Plain h c := fun c hc => hp' c (by simp [hc])
    rw [List.append_assoc front u (b :: q)] at ht hplain ⊢
    by_cases habove : h.above b = true
    · -- the byte is copied: it is the control above the letters
      obtain rfl : b = 127 := by
        by_contra hne
        exact hb (.inr ⟨habove,hne⟩)
      exact clear_of_front hn hfront hlast (words_del hfront hlast hu hplain he ht)
    · have hspecial : special b = false := by
        have hb' := hline b (by simp)
        have h32 : b ≠ 32 := fun h32 => hb (.inl h32)
        simp [special,h32,hb',hplain b (by simp)]
      rw [Bool.not_eq_true] at habove
      have hstop := ht
      rw [← List.append_assoc front,List.append_assoc (front ++ u),List.cons_append,
        lineTokens_stopped hp' (fun c hc =>
          hplain c (by simpa using .imp_right .inl (List.mem_append.mp hc))) habove hspecial,
        Option.some.injEq] at hstop
      by_cases hb32 : b ≤ 32
      · exact ⟨front ++ u,b :: q,by simp,hp',.inr ⟨words_stopped_control hb32 hstop,b,q,rfl,hb32⟩⟩
      · -- the byte stands in a word: the words in front of it have to be enough
        have hdel : b ≠ 127 := by
          rintro rfl
          cases h <;> simp [Host.above] at habove
        rw [List.append_assoc front u] at hstop
        have hblank : blank b = false := by simp [blank,hb32,hdel]
        exact clear_of_front hn hfront hlast
          (words_stopped_word hlast (fun c hc => (hu c hc).2) hblank hstop)

/-- The tokens are the words of the line exactly where no tab or other control, and on
the Linux host no byte above 127, comes before the last word there is room for has
ended. The control 127 ends a word, but is copied into the token. -/
theorem cmdTokenize_words_iff (h : Host) (line : Str) (hz : 0 ∉ line)
    (hplain : ∀ c ∈ line, c ≠ 34 ∧ c ≠ 35 ∧ c ≠ 47) :
    WordsFound h line ↔
      Clear h maxTokens (firstLine line) ∧
        TokensFit ((lineWords (firstLine line)).take maxTokens) := by
  obtain ⟨e,rest,hsplit,he⟩ := firstLine_end line
  have hsub : ∀ c ∈ firstLine line, c ∈ line := fun c hc => (List.takeWhile_sublist _).subset hc
  have hplain' := fun c hc => hplain c (hsub c hc)
  have hline : ∀ c ∈ firstLine line, c ≠ 0 ∧ c ≠ 10 ∧ c ≠ 13 := by
    intro c hc
    have hend : c ≠ 10 ∧ c ≠ 13 := by simpa using List.mem_takeWhile_imp hc
    exact ⟨fun h0 => hz (h0 ▸ hsub c hc),hend⟩
  rw [WordsFound,tokens_iff,hsplit]
  refine and_congr_left fun _ => ?_
  have hend : h.above e = false := Host.not_above (by rcases he with rfl | rfl | rfl <;> decide)
  exact ⟨clear_of_words (by decide) hplain' hline hend,fun hc => hc.words hplain' he rest⟩

theorem cmdTokenize_words_blank : WordsFound .linux [97,32,98] ∧
    lineWords (firstLine [97,32,98]) = [[97],[98]] := by
  have hiff := cmdTokenize_words_iff .linux [97,32,98] (by simp) (by simp)
  have hclear : Clear .linux maxTokens (firstLine [97,32,98]) :=
    ⟨[97,32,98],[],by decide,by simp [Plain,Host.above],.inl rfl⟩
  have hwords : lineWords (firstLine [97,32,98]) = [[97],[98]] := by decide
  exact ⟨hiff.mpr ⟨hclear,by rw [hwords]; decide⟩,hwords⟩

/-- The same with a tab: fifteen empty tokens follow the `a`. With the control 127 there
is one token that holds both letters. -/
theorem cmdTokenize_words_tab : ¬ WordsFound .stm32 [97,9,98] ∧
    ¬ WordsFound .stm32 [97,127,98] := by
  constructor <;>
  · rintro ⟨c,hc,he⟩
    have ht := cmdTokenize_tokens hc
    rw [he] at ht
    revert ht
    decide

end Mardio
