import Mardio.Lcd
import Mardio.Lib.ByteMem
import Mardio.Lib.LastCall

/-!
The picture in memory, with nothing assumed about the coordinates: the box is four bytes,
an index into the picture is whatever the expression of the source gives, and every access
is recorded. A byte holds eight pixels of one column, so a call has to leave seven of them
alone.
-/

set_option autoImplicit false

namespace Mardio
open ByteMem

structure RawPcd where
  data : Mem
  minX : UInt8
  minY : UInt8
  maxX : UInt8
  maxY : UInt8
  accesses : List Nat

/-- An assignment such as `|=` reads and writes one byte. -/
def RawPcd.assign (i : Nat) (f : UInt8 → UInt8) (p : RawPcd) : RawPcd :=
  { p with data := Function.update p.data i (f (p.data i)), accesses := p.accesses ++ [i] }

def RawPcd.updatebox (newMinX newMinY newMaxX newMaxY : UInt8) (p : RawPcd) : RawPcd :=
  let p := if newMinX < p.minX then { p with minX := newMinX } else p
  -- the source assigns to min_x here
  let p := if newMinY < p.minY then { p with minX := newMinY } else p
  let p := if newMaxX > p.maxX then { p with maxX := newMaxX } else p
  if newMaxY > p.maxY then { p with maxY := newMaxY } else p

/-- The part that the two functions have in common. -/
def RawPcd.paint (x y color : UInt8) (p : RawPcd) : RawPcd :=
  if color ≠ 0 then p.assign (x.toNat+y.toNat/8*84) (· ||| 1 <<< (y % 8))
  else p.assign (x.toNat+y.toNat/8*84) (· &&& ~~~(1 <<< (y % 8)))

def RawPcd.putpixel (x y color : UInt8) (p : RawPcd) : RawPcd :=
  if x ≥ 84 then p
  else if y ≥ 48 then p
  else (p.paint x y color).updatebox x y x y

def RawPcd.putpixelLazy (x y color : UInt8) (p : RawPcd) : RawPcd :=
  if x ≥ 84 then p
  else if y ≥ 48 then p
  else p.paint x y color

structure PixelCall where
  lazy : Bool
  x : UInt8
  y : UInt8
  color : UInt8
  deriving DecidableEq, Repr

def pixelCall (p : RawPcd) (c : PixelCall) : RawPcd :=
  if c.lazy then p.putpixelLazy c.x c.y c.color else p.putpixel c.x c.y c.color

/-! The picture as a function of the coordinates. -/

def RawPcd.pixel (p : RawPcd) (x : LcdColumn) (y : Fin 48) : Bool :=
  bit p.data (x.val+y.val/8*84) ⟨y.val % 8,by omega⟩

def PixelCall.targets (x : LcdColumn) (y : Fin 48) (c : PixelCall) : Bool :=
  c.x.toNat == x.val && c.y.toNat == y.val

def PixelCall.offScreen (c : PixelCall) : Prop := 84 ≤ c.x.toNat ∨ 48 ≤ c.y.toNat

def PixelCall.lit (c : PixelCall) : Bool := c.color != 0

theorem RawPcd.updatebox_eq (a b c d : UInt8) (p : RawPcd) :
    p.updatebox a b c d =
      { p with
        minX := if b < p.minY then b else if a < p.minX then a else p.minX
        maxX := if c > p.maxX then c else p.maxX
        maxY := if d > p.maxY then d else p.maxY } := by
  simp only [RawPcd.updatebox]
  split_ifs <;> rfl

/-- One call, told by what it does to the picture: nothing off the screen, and otherwise
one assignment to a byte of it. -/
theorem pixelCall_cases (p : RawPcd) (c : PixelCall) :
    (c.offScreen ∧ pixelCall p c = p) ∨
      (c.x.toNat < 84 ∧ c.y.toNat < 48 ∧ (pixelCall p c).data = (p.paint c.x c.y c.color).data ∧
        (pixelCall p c).accesses = p.accesses ++ [c.x.toNat+c.y.toNat/8*84]) := by
  have hpaint : (p.paint c.x c.y c.color).accesses = p.accesses ++ [c.x.toNat+c.y.toNat/8*84] := by
    rw [RawPcd.paint]
    split <;> rfl
  by_cases hx : c.x ≥ 84
  · left
    have hoff : 84 ≤ c.x.toNat := UInt8.le_iff_toNat_le.mp hx
    exact ⟨.inl hoff,by simp [pixelCall,RawPcd.putpixel,RawPcd.putpixelLazy,hx]⟩
  by_cases hy : c.y ≥ 48
  · left
    have hoff : 48 ≤ c.y.toNat := UInt8.le_iff_toNat_le.mp hy
    exact ⟨.inr hoff,by simp [pixelCall,RawPcd.putpixel,RawPcd.putpixelLazy,hy]⟩
  right
  have hcall : (pixelCall p c).data = (p.paint c.x c.y c.color).data ∧
      (pixelCall p c).accesses = (p.paint c.x c.y c.color).accesses := by
    rw [pixelCall]
    split
    · rw [RawPcd.putpixelLazy,if_neg hx,if_neg hy]
      exact ⟨rfl,rfl⟩
    · rw [RawPcd.putpixel,if_neg hx,if_neg hy,RawPcd.updatebox_eq]
      exact ⟨rfl,rfl⟩
  exact ⟨UInt8.lt_iff_toNat_lt.mp (UInt8.not_le.mp hx),
    UInt8.lt_iff_toNat_lt.mp (UInt8.not_le.mp hy),hcall.1,hcall.2.trans hpaint⟩

theorem shift_eq_mask (y : UInt8) : 1 <<< (y % 8) = mask ⟨y.toNat % 8,by omega⟩ := by
  have hmod : UInt8.ofNat (y.toNat % 8) = y % 8 := UInt8.toNat_inj.mp (by simp; omega)
  rw [mask,hmod]

theorem paint_bit (p : RawPcd) (x y color : UInt8) (j : Nat) (l : Fin 8) :
    bit (p.paint x y color).data j l =
      if j = x.toNat+y.toNat/8*84 ∧ l.val = y.toNat % 8 then color != 0 else bit p.data j l := by
  rw [RawPcd.paint,shift_eq_mask]
  by_cases hcolor : color = 0
  · subst hcolor
    simpa [RawPcd.assign,Fin.ext_iff] using bit_clear p.data (x.toNat+y.toNat/8*84) j
      ⟨y.toNat % 8,by omega⟩ l
  · have hlit : (color != 0) = true := bne_iff_ne.mpr hcolor
    simpa [RawPcd.assign,Fin.ext_iff,hcolor,hlit] using bit_set p.data (x.toNat+y.toNat/8*84) j
      ⟨y.toNat % 8,by omega⟩ l

/-- One call sets its own pixel and no other: the byte gives the column and the row of
eight, and the bit gives the line in it. -/
theorem pixelCall_pixel (p : RawPcd) (c : PixelCall) (x : LcdColumn) (y : Fin 48) :
    (pixelCall p c).pixel x y = if c.targets x y then c.lit else p.pixel x y := by
  obtain ⟨hoff,he⟩ | ⟨hx,hy,hdata,-⟩ := pixelCall_cases p c
  · have hmiss : c.targets x y = false := by
      unfold PixelCall.offScreen at hoff
      simp only [PixelCall.targets,Bool.and_eq_false_iff,beq_eq_false_iff_ne]
      omega
    simp [he,hmiss]
  · have hsame : (x.val+y.val/8*84 = c.x.toNat+c.y.toNat/8*84 ∧ y.val % 8 = c.y.toNat % 8) ↔
        c.targets x y = true := by
      simp only [PixelCall.targets,Bool.and_eq_true,beq_iff_eq]
      omega
    rw [RawPcd.pixel,hdata,paint_bit]
    simp only [hsame,RawPcd.pixel,PixelCall.lit]

theorem pixelCall_accesses (p : RawPcd) (c : PixelCall) :
    ∃ made : List Nat, (pixelCall p c).accesses = p.accesses ++ made ∧ ∀ i ∈ made, i < 504 := by
  obtain ⟨-,he⟩ | ⟨hx,hy,-,hlog⟩ := pixelCall_cases p c
  · exact ⟨[],by simp [he],by simp⟩
  · refine ⟨[c.x.toNat+c.y.toNat/8*84],hlog,?_⟩
    rw [List.forall_mem_singleton]
    omega

theorem pixelCall_offScreen (p : RawPcd) {c : PixelCall} (hoff : c.offScreen) :
    pixelCall p c = p := by
  obtain ⟨-,he⟩ | ⟨hx,hy,-⟩ := pixelCall_cases p c
  · exact he
  · unfold PixelCall.offScreen at hoff
    omega

theorem pixelRun_accesses (calls : List PixelCall) (p : RawPcd) :
    ∃ made : List Nat, (calls.foldl pixelCall p).accesses = p.accesses ++ made ∧
      ∀ i ∈ made, i < 504 := by
  induction calls generalizing p with
  | nil => exact ⟨[],by simp,by simp⟩
  | cons c calls ih =>
    obtain ⟨made,hmade,hin⟩ := pixelCall_accesses p c
    obtain ⟨later,hlater,hin'⟩ := ih (pixelCall p c)
    refine ⟨made ++ later,?_,List.forall_mem_append.mpr ⟨hin,hin'⟩⟩
    rw [List.foldl_cons,hlater,hmade,List.append_assoc]

/-- Whatever the calls, a pixel shows the colour of the last one for it, a call off the
screen changes nothing, and every access is to the 504 bytes of the picture. -/
theorem pixelRun_pixelMap (p : RawPcd) (calls : List PixelCall) :
    (∀ (x : LcdColumn) (y : Fin 48), (calls.foldl pixelCall p).pixel x y =
        ((LastCall.last (PixelCall.targets x y) calls).map PixelCall.lit).getD (p.pixel x y)) ∧
      (∀ (q : RawPcd) (c : PixelCall), c.offScreen → pixelCall q c = q) ∧
      ∃ made : List Nat, (calls.foldl pixelCall p).accesses = p.accesses ++ made ∧
        ∀ i ∈ made, i < 504 := by
  refine ⟨fun x y => ?_,fun q c hoff => pixelCall_offScreen q hoff,pixelRun_accesses calls p⟩
  refine LastCall.read_foldl (fun q => RawPcd.pixel q x y) (fun q c hc => ?_)
    (fun q c hc => ?_) calls p
  · simp [pixelCall_pixel,hc]
  · simp [pixelCall_pixel,hc]

/-! The picture that the transfers read is this one. -/

/-- A state with checked coordinates describes the memory. -/
structure RawPcd.Shows (r : RawPcd) (p : Pcd) : Prop where
  data : ∀ i : Fin 504, r.data i.val = p.data i
  minX : r.minX.toNat = p.minX.val
  minY : r.minY.toNat = p.minY.val
  maxX : r.maxX.toNat = p.maxX.val
  maxY : r.maxY.toNat = p.maxY.val

theorem pcd8544Updatebox_eq (a : LcdColumn) (b : Fin 48) (c : LcdColumn) (d : Fin 48) (p : Pcd) :
    pcd8544Updatebox a b c d p =
      { p with
        minX := if b < p.minY then b.castLE (by decide) else if a < p.minX then a else p.minX
        maxX := if p.maxX < c then c else p.maxX
        maxY := if p.maxY < d then d else p.maxY } := by
  simp only [pcd8544Updatebox]
  split_ifs <;> rfl

variable {r : RawPcd} {p : Pcd} {x y : UInt8}

theorem RawPcd.Shows.paint (h : r.Shows p) (hx : x.toNat < 84) (hy : y.toNat < 48) (color : UInt8) :
    (r.paint x y color).Shows (Mardio.paint ⟨x.toNat,hx⟩ ⟨y.toNat,hy⟩ color p) := by
  have hi : x.toNat+y.toNat/8*84 = (cell ⟨y.toNat/8,by omega⟩ ⟨x.toNat,hx⟩).val := rfl
  have hdata (f : UInt8 → UInt8) (i : Fin 504) :
      Function.update r.data (x.toNat+y.toNat/8*84) (f (r.data (x.toNat+y.toNat/8*84))) i.val =
        Function.update p.data (cell ⟨y.toNat/8,by omega⟩ ⟨x.toNat,hx⟩)
          (f (p.data (cell ⟨y.toNat/8,by omega⟩ ⟨x.toNat,hx⟩))) i := by
    rw [hi,h.data,Function.update_apply,Function.update_apply,h.data]
    simp only [Fin.ext_iff]
  have hmask : (1 : UInt8) <<< UInt8.ofNat (y.toNat % 8) = 1 <<< (y % 8) := (shift_eq_mask y).symm
  rw [RawPcd.paint,Mardio.paint,hmask]
  by_cases hcolor : color ≠ 0
  · rw [if_pos hcolor,if_pos hcolor]
    exact ⟨hdata (· ||| 1 <<< (y % 8)),h.minX,h.minY,h.maxX,h.maxY⟩
  · rw [if_neg hcolor,if_neg hcolor]
    exact ⟨hdata (· &&& ~~~(1 <<< (y % 8))),h.minX,h.minY,h.maxX,h.maxY⟩

theorem RawPcd.Shows.updatebox (h : r.Shows p) (hx : x.toNat < 84) (hy : y.toNat < 48) :
    (r.updatebox x y x y).Shows (pcd8544Updatebox ⟨x.toNat,hx⟩ ⟨y.toNat,hy⟩ ⟨x.toNat,hx⟩
      ⟨y.toNat,hy⟩ p) := by
  obtain ⟨hdata,hminX,hminY,hmaxX,hmaxY⟩ := h
  rw [RawPcd.updatebox_eq,pcd8544Updatebox_eq]
  refine ⟨hdata,?_,hminY,?_,?_⟩
  · simp only [UInt8.lt_iff_toNat_lt,Fin.lt_def,hminX,hminY]
    split_ifs <;> first | rfl | exact hminX
  · simp only [gt_iff_lt,UInt8.lt_iff_toNat_lt,Fin.lt_def,hmaxX]
    split_ifs <;> first | rfl | exact hmaxX
  · simp only [gt_iff_lt,UInt8.lt_iff_toNat_lt,Fin.lt_def,hmaxY]
    split_ifs <;> first | rfl | exact hmaxY

theorem RawPcd.Shows.putpixel (h : r.Shows p) (x y color : UInt8) :
    (r.putpixel x y color).Shows (pcd8544Putpixel x y color p) ∧
      (r.putpixelLazy x y color).Shows (pcd8544PutpixelLazy x y color p) := by
  rw [RawPcd.putpixel,RawPcd.putpixelLazy,pcd8544Putpixel,pcd8544PutpixelLazy]
  by_cases hin : x.toNat < 84 ∧ y.toNat < 48
  · have hx : ¬ x ≥ 84 := UInt8.not_le.mpr (UInt8.lt_iff_toNat_lt.mpr hin.1)
    have hy : ¬ y ≥ 48 := UInt8.not_le.mpr (UInt8.lt_iff_toNat_lt.mpr hin.2)
    rw [if_neg hx,if_neg hy,dif_pos hin,if_neg hx,if_neg hy,dif_pos hin]
    have hpaint := h.paint hin.1 hin.2 color
    exact ⟨hpaint.updatebox hin.1 hin.2,hpaint⟩
  · have hout : x ≥ 84 ∨ y ≥ 48 := by
      rw [ge_iff_le,ge_iff_le,UInt8.le_iff_toNat_le,UInt8.le_iff_toNat_le]
      simp only [UInt8.reduceToNat]
      omega
    rw [dif_neg hin,dif_neg hin]
    rcases hout with hx | hy
    · simp only [hx,if_true]
      exact ⟨h,h⟩
    · simp only [hy,if_true,ite_self]
      exact ⟨h,h⟩

end Mardio
