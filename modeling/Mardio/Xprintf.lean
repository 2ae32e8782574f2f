import Mardio.Commands

/-!
Formatted output. Every character goes through `xputc`, which puts a carriage
return in front of each line feed.
-/

set_option autoImplicit false

namespace Mardio
open ByteMem

/-- `_CR_CRLF` is 1. -/
def xputc (c : UInt8) : Str := if c = 10 then [13,10] else [c]

def xputs (str : Str) : Str := str.flatMap xputc

inductive XArg where
  | str (s : Str)
  | int (v : Int)
  deriving DecidableEq, Repr

structure XFlags where
  zero : Bool
  left : Bool
  long : Bool
  deriving DecidableEq, Repr

/-- What the next character of the format is: text, or a place in a conversion. -/
inductive XMode where
  | text
  | flag
  | width (f : XFlags) (w : Nat)
  | type (f : XFlags) (w : Nat)
  deriving DecidableEq, Repr

/-- What a character of the format does: it is put out, or it belongs to a conversion,
which goes on or ends with it. -/
inductive XStep where
  | pass
  | next (m : XMode)
  | convert (f : XFlags) (w : Nat)
  deriving DecidableEq, Repr

def xwidth (f : XFlags) (w : Nat) (c : UInt8) : XStep :=
  if 48 ≤ c ∧ c ≤ 57 then .next (.width f ((w*10+c.toNat-48) % 2^32))
  -- 'l' and 'L'
  else if c = 108 ∨ c = 76 then .next (.type { f with long := true } w)
  else .convert f w

def xflag (c : UInt8) : XStep :=
  if c = 48 then .next (.width ⟨true,false,false⟩ 0)
  else if c = 45 then .next (.width ⟨false,true,false⟩ 0)
  else xwidth ⟨false,false,false⟩ 0 c

def xstep : XMode → UInt8 → XStep
  | .text, c => if c = 37 then .next .flag else .pass
  | .flag, c => xflag c
  | .width f w, c => xwidth f w c
  | .type f w, _ => .convert f w

def xpad (left : Bool) (d : UInt8) (w : Nat) (len : Nat) (out : Str) : Str :=
  if left then out ++ List.replicate (w-len) 32 else List.replicate (w-len) d ++ out

/-- The digits of `v` in base `r` as the loop puts them into `s[16]`, lowest first. -/
def xdigits (r : Nat) (lower : Bool) : Nat → Nat → Str
  | 0, _ => []
  | n+1, v =>
      let d := v % r
      UInt8.ofNat (48+d+if d > 9 then (if lower then 0x27 else 0x07) else 0) ::
        if v / r = 0 then [] else xdigits r lower n (v / r)

/-- A number. There is no result where the sign is put behind the end of `s[16]`. -/
def xnumber (h : Host) (r : Nat) (signed lower : Bool) (f : XFlags) (w : Nat) (arg : Int) :
    Option Str :=
  let v := ((if f.long then arg else if signed then Int.bmod arg (2^32) else arg % 2^32) %
    2^h.longBits).toNat
  let negative := signed && v.testBit 31
  let v := if negative then (2^h.longBits-v) % 2^h.longBits else v
  let s := xdigits r lower 16 v
  if negative ∧ s.length = 16 then none
  else
    let s := if negative then s ++ [45] else s
    some (xpad f.left (if f.zero then 48 else 32) w s.length s.reverse)

/-- `d -= 0x20` for small letters. -/
def upperCase (c : UInt8) : UInt8 := if c ≥ 97 then c-32 else c

/-- The conversion that ends with `c`: what it puts out, and the arguments it leaves.
There is no result where the argument is missing or of another type. -/
def xconvert (h : Host) (c : UInt8) (f : XFlags) (w : Nat) (args : List XArg) :
    Option (Str × List XArg) :=
  let number (r : Nat) (signed : Bool) : Option (Str × List XArg) :=
    match args with
    | .int v :: args => (xnumber h r signed (c == 120) f w v).map fun out => (out,args)
    | _ => none
  match (upperCase c).toNat with
  | 83 => match args with
    | .str s :: args => some (xpad f.left 32 w s.length (xputs s),args)
    | _ => none
  | 67 => match args with
    | .int v :: args => some (xputc (UInt8.ofNat (v % 256).toNat),args)
    | _ => none
  | 66 => number 2 false
  | 79 => number 8 false
  | 68 => number 10 true
  | 85 => number 10 false
  | 88 => number 16 false
  | _ => some (xputc c,args)

/-- One pass over the format. It ends wherever the terminator is. -/
def xvprintf (h : Host) : XMode → Str → List XArg → Option Str
  | _, [], _ => some []
  | m, c :: fmt, args =>
      match xstep m c with
      | .pass => (xvprintf h .text fmt args).map (xputc c ++ ·)
      | .next m => xvprintf h m fmt args
      | .convert f w => (xconvert h c f w args).bind fun r =>
          (xvprintf h .text fmt r.2).map (r.1 ++ ·)

/-- Into memory, with a terminator. -/
def xsprintf (h : Host) (m : Mem) (buff : Nat) (fmt : Str) (args : List XArg) : Option Mem :=
  (xvprintf h .text fmt args).map fun out => store m buff (out ++ [0])

theorem xvprintf_text (h : Host) {s : Str} (hs : 37 ∉ s) (fmt : Str) (args : List XArg) :
    xvprintf h .text (s ++ fmt) args = (xvprintf h .text fmt args).map (xputs s ++ ·) := by
  induction s with
  | nil => simp [xputs]
  | cons c s ih =>
    have hpass : xstep .text c = .pass := if_neg fun h0 => hs (by simp [h0])
    rw [List.cons_append,xvprintf,hpass,ih fun hm => hs (List.mem_cons_of_mem c hm),Option.map_map]
    simp [xputs,Function.comp_def]

/-- `%s` without a width. -/
theorem xvprintf_string (h : Host) (s fmt : Str) (args : List XArg) :
    xvprintf h .text (37 :: 115 :: fmt) (.str s :: args) =
      (xvprintf h .text fmt args).map (xputs s ++ ·) := by
  have hconv : xconvert h 115 ⟨false,false,false⟩ 0 (.str s :: args) = some (xputs s,args) := by
    simp [xconvert,upperCase,xpad]
  have hpercent : xstep .text 37 = .next .flag := by decide
  have htype : xstep .flag 115 = .convert ⟨false,false,false⟩ 0 := by decide
  simp only [xvprintf,hpercent,htype,hconv,Option.bind_some]

example : xvprintf .linux .text (ascii ['%','0','4','x']) [.int 0xA3] =
    some (ascii ['0','0','a','3']) := by
  decide +kernel

end Mardio
