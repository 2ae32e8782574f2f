import Mardio.Lib.Runs

/-!
The display of the board: a picture in memory with the box of it that counts as
changed, and the controller of the panel, which is told an address and then takes byte
after byte. A transfer sends the box and nothing else.
-/

set_option autoImplicit false

namespace Mardio
open Runs

/-- Six rows of 84 columns; a byte is eight pixels, one below the other. -/
abbrev LcdRow := Fin 6
abbrev LcdColumn := Fin 84

def cell (r : LcdRow) (c : LcdColumn) : Fin 504 := ⟨c.val+r.val*84,by omega⟩

/-- The fields of the box are bytes in the source. They only ever receive coordinates
that have been checked, so `j` in the loop of `pcd8544_update` does not wrap. -/
structure Pcd where
  data : Fin 504 → UInt8
  minX : LcdColumn
  minY : Fin 48
  maxX : LcdColumn
  maxY : Fin 48

def Pcd.zero : Pcd := ⟨fun _ => 0,0,0,0,0⟩

/-! The controller. -/

structure Panel where
  ram : LcdRow → LcdColumn → UInt8
  x : LcdColumn
  y : LcdRow
  extended : Bool
  vertical : Bool

/-- SETVOP of the extended set has the code of SETXADDR. What sets neither the address
nor a mode has no effect on the memory. -/
def Panel.command (p : Panel) (c : UInt8) : Panel :=
  if c.toNat/8 = 4 then { p with extended := c.toNat % 2 = 1, vertical := c.toNat/2 % 2 = 1 }
  else if p.extended then p
  else if h : c.toNat/128 = 1 ∧ c.toNat % 128 < 84 then { p with x := ⟨c.toNat % 128,h.2⟩ }
  else if h : c.toNat/8 = 8 ∧ c.toNat % 8 < 6 then { p with y := ⟨c.toNat % 8,h.2⟩ }
  else p

def Panel.store (p : Panel) (b : UInt8) : Panel :=
  let p' := { p with ram := Function.update p.ram p.y (Function.update (p.ram p.y) p.x b) }
  if p.vertical then { p' with y := p.y+1, x := if p.y = 5 then p.x+1 else p.x }
  else { p' with x := p.x+1, y := if p.x = 83 then p.y+1 else p.y }

inductive PcdMode where
  | data | command
  deriving DecidableEq, Repr

/-- Panel memory and picture at one moment. -/
structure Shot where
  ram : LcdRow → LcdColumn → UInt8
  data : Fin 504 → UInt8

def Shot.Same (s : Shot) : Prop := ∀ r c, s.ram r c = s.data (cell r c)

/-- `shots` records the moment right after each `pcd8544_update`. -/
structure Lcd where
  pcd : Pcd
  mode : PcdMode
  panel : Panel
  shots : List Shot

def pcd8544Setmode (mode : PcdMode) (s : Lcd) : Lcd := { s with mode := mode }

def pcd8544Write (b : UInt8) (s : Lcd) : Lcd :=
  { s with panel := if s.mode = .data then s.panel.store b else s.panel.command b }

def pcd8544Reset (ram : LcdRow → LcdColumn → UInt8) (s : Lcd) : Lcd :=
  { s with panel := ⟨ram,0,0,false,false⟩ }

def pcd8544Setcontrast (contrast : UInt8) (s : Lcd) : Lcd :=
  pcd8544Write (0x80 ||| if 0x7F < contrast then 0x7F else contrast) s

/-! The picture. -/

def pcd8544Updatebox (newMinX : LcdColumn) (newMinY : Fin 48) (newMaxX : LcdColumn)
    (newMaxY : Fin 48) (p : Pcd) : Pcd :=
  let p := if newMinX < p.minX then { p with minX := newMinX } else p
  -- the source assigns to min_x here
  let p := if newMinY < p.minY then { p with minX := newMinY.castLE (by decide) } else p
  let p := if p.maxX < newMaxX then { p with maxX := newMaxX } else p
  if p.maxY < newMaxY then { p with maxY := newMaxY } else p

def paint (x : LcdColumn) (y : Fin 48) (color : UInt8) (p : Pcd) : Pcd :=
  let i := cell ⟨y.val/8,by omega⟩ x
  let bit : UInt8 := 1 <<< UInt8.ofNat (y.val % 8)
  { p with data := Function.update p.data i (if color ≠
    0 then p.data i ||| bit else p.data i &&& ~~~bit) }

def pcd8544Putpixel (x y color : UInt8) (p : Pcd) : Pcd :=
  if h : x.toNat < 84 ∧ y.toNat < 48 then
    pcd8544Updatebox ⟨x.toNat,h.1⟩ ⟨y.toNat,h.2⟩ ⟨x.toNat,h.1⟩ ⟨y.toNat,h.2⟩
      (paint ⟨x.toNat,h.1⟩ ⟨y.toNat,h.2⟩ color p)
  else p

def pcd8544PutpixelLazy (x y color : UInt8) (p : Pcd) : Pcd :=
  if h : x.toNat < 84 ∧ y.toNat < 48 then paint ⟨x.toNat,h.1⟩ ⟨y.toNat,h.2⟩ color p else p

/-! The transfer. -/

def sendColumns (r : LcdRow) : Nat → LcdColumn → Lcd → Lcd
  | 0, _, s => s
  | n+1, j, s => sendColumns r n (j+1) (pcd8544Write (s.pcd.data (cell r j)) s)

def sendRow (r : LcdRow) (s : Lcd) : Lcd :=
  let s := pcd8544Setmode .command s
  let s := pcd8544Write (0x40 ||| UInt8.ofNat r.val) s
  let s := pcd8544Write (0x80 ||| UInt8.ofNat s.pcd.minX.val) s
  let s := pcd8544Setmode .data s
  sendColumns r (s.pcd.maxX.val+1-s.pcd.minX.val) s.pcd.minX s

def sendRows : List LcdRow → Lcd → Lcd
  | [], s => s
  | r :: rows, s =>
    if (r.val+1)*8 < s.pcd.minY.val then sendRows rows s
    else if s.pcd.maxY.val < r.val*8 then s
    else sendRows rows (sendRow r s)

def pcd8544Update (s : Lcd) : Lcd :=
  let s := sendRows (List.finRange 6) s
  { s with pcd := pcd8544Updatebox 0 0 83 47 s.pcd, shots := s.shots ++ [⟨s.panel.ram,s.pcd.data⟩] }

def pcd8544Clean (s : Lcd) : Lcd := pcd8544Update { s with pcd := Pcd.zero }

/-- After the reset pulse the memory of the panel is undefined. -/
def pcd8544Init (ram : LcdRow → LcdColumn → UInt8) (contrast : UInt8) (s : Lcd) : Lcd :=
  let s := pcd8544Setmode .command (pcd8544Reset ram s)
  let s := pcd8544Write (0x20 ||| 0x01) s
  let s := pcd8544Write (0x10 ||| 0x4) s
  let s := pcd8544Setcontrast contrast s
  let s := pcd8544Write 0x20 s
  let s := pcd8544Write (0x08 ||| 0x04) s
  pcd8544Clean s

def pcd8544DrawResource (data : Fin 504 → UInt8) (s : Lcd) : Lcd :=
  { s with pcd := { s.pcd with data := data } }

def hostLcdInit (ram : LcdRow → LcdColumn → UInt8) (s : Lcd) : Lcd :=
  pcd8544Update (pcd8544Init ram 0x38 s)

def hostLcdPutpixel (x y : UInt16) (color : UInt8) (s : Lcd) : Lcd :=
  if x.toNat < 84 ∧ y.toNat < 48 then
    { s with pcd := pcd8544PutpixelLazy x.toUInt8 y.toUInt8 (if color ≠ 0 then 1 else 0) s.pcd }
  else s

def hostLcdUpdateScreen (s : Lcd) : Lcd := pcd8544Update s

def hostLcdCleanScreen (s : Lcd) : Lcd := { s with pcd := Pcd.zero }

inductive LcdResource where
  | blank | startup | wellcome | error | errorInit | errorNet | errorFs | errorSound | errorLibmad
  | radio | file | play | stop
  | volume (level : Fin 16)
  deriving DecidableEq, Repr

/-- The pictures of `gfx.h`, 504 bytes each, one for every resource but the blank one. -/
abbrev Gfx := LcdResource → Fin 504 → UInt8

def hostLcdDraw (gfx : Gfx) (resource : LcdResource) (s : Lcd) : Lcd :=
  let s := pcd8544Clean s
  pcd8544Update (if resource = .blank then s else pcd8544DrawResource (gfx resource) s)

inductive LcdOp where
  | draw (resource : LcdResource)
  | cleanScreen
  | hostPutpixel (x y : UInt16) (color : UInt8)
  | putpixel (x y color : UInt8)
  | clean
  | updateScreen
  deriving DecidableEq, Repr

def lcdCall (gfx : Gfx) (s : Lcd) : LcdOp → Lcd
  | .draw resource => hostLcdDraw gfx resource s
  | .cleanScreen => hostLcdCleanScreen s
  | .hostPutpixel x y color => hostLcdPutpixel x y color s
  | .putpixel x y color => { s with pcd := pcd8544Putpixel x y color s.pcd }
  | .clean => pcd8544Clean s
  | .updateScreen => hostLcdUpdateScreen s

def lcdStep (gfx : Gfx) (s : Lcd) (op : LcdOp) : Option Lcd := some (lcdCall gfx s op)

/-- Recording starts when `host_lcd_init` has returned. -/
def lcdStart (ram : LcdRow → LcdColumn → UInt8) (s : Lcd) : Lcd :=
  { hostLcdInit ram s with shots := [] }

def PanelRefines (s : Lcd) : Prop := ∀ shot ∈ s.shots, shot.Same

def Pcd.box (p : Pcd) (r : LcdRow) (c : LcdColumn) : Prop :=
  p.minY.val ≤ (r.val+1)*8 ∧ r.val*8 ≤ p.maxY.val ∧ p.minX.val ≤ c.val ∧ c.val ≤ p.maxX.val

/-- What is not sent is right already. A clean empties picture and box together and
sends the first byte alone, so the rest of the panel has to be blank before it. -/
def Covered (s : Lcd) : LcdOp → Prop
  | .updateScreen => ∀ r c, ¬ s.pcd.box r c → s.panel.ram r c = s.pcd.data (cell r c)
  | .clean | .draw _ => ∀ r c, ¬ (r = 0 ∧ c = 0) → s.panel.ram r c = 0
  | .cleanScreen | .hostPutpixel .. | .putpixel .. => True

/-! What a transfer does. -/

/-- From `s` to `t` the bytes of a set of cells have been sent. -/
structure Sends (cells : LcdRow → LcdColumn → Prop) (s t : Lcd) : Prop where
  pcd : t.pcd = s.pcd
  shots : t.shots = s.shots
  extended : t.panel.extended = s.panel.extended
  vertical : t.panel.vertical = s.panel.vertical
  inside : ∀ r c, cells r c → t.panel.ram r c = s.pcd.data (cell r c)
  outside : ∀ r c, ¬ cells r c → t.panel.ram r c = s.panel.ram r c

variable {s t u : Lcd} {A B : LcdRow → LcdColumn → Prop}

theorem Sends.none (s : Lcd) : Sends (fun _ _ => False) s s :=
  ⟨rfl,rfl,rfl,rfl,fun _ _ h => h.elim,fun _ _ _ => rfl⟩

theorem Sends.trans (h : Sends A s t) (h' : Sends B t u) :
    Sends (fun r c => A r c ∨ B r c) s u where
  pcd := h'.pcd.trans h.pcd
  shots := h'.shots.trans h.shots
  extended := h'.extended.trans h.extended
  vertical := h'.vertical.trans h.vertical
  inside r c hc := by
    by_cases hb : B r c
    · rw [h'.inside r c hb,h.pcd]
    · rw [h'.outside r c hb,h.inside r c (hc.resolve_right hb)]
  outside r c hc := by
    obtain ⟨ha,hb⟩ := not_or.mp hc
    rw [h'.outside r c hb,h.outside r c ha]

theorem Sends.congr (h : Sends A s t) (hAB : ∀ r c, A r c ↔ B r c) : Sends B s t :=
  ⟨h.pcd,h.shots,h.extended,h.vertical,fun r c hb => h.inside r c ((hAB r c).mpr hb),
    fun r c hb => h.outside r c fun ha => hb ((hAB r c).mp ha)⟩

theorem store_ram (p : Panel) (b : UInt8) (r : LcdRow) (c : LcdColumn) :
    (p.store b).ram r c = if r = p.y ∧ c = p.x then b else p.ram r c := by
  have hram : (p.store b).ram = Function.update p.ram p.y (Function.update (p.ram p.y) p.x b) := by
    rw [Panel.store]
    split <;> rfl
  rw [hram,Function.update_apply]
  by_cases hr : r = p.y
  · simp [hr,Function.update_apply]
  · simp [hr]

theorem store_horizontal {p : Panel} (h : p.vertical = false) (b : UInt8) :
    (p.store b).x = p.x+1 ∧ (p.store b).y = (if p.x = 83 then p.y+1 else p.y) ∧
      (p.store b).extended = p.extended ∧ (p.store b).vertical = false := by
  simp [Panel.store,h]

/-- One byte in data mode. -/
theorem write_sends {r : LcdRow} {j : LcdColumn} (hm : s.mode = .data)
    (hv : s.panel.vertical = false) (hx : s.panel.x = j) (hy : s.panel.y = r) :
    Sends (fun r' c => r' = r ∧ c = j) s (pcd8544Write (s.pcd.data (cell r j)) s) := by
  obtain ⟨-,-,hext,hver⟩ := store_horizontal hv (s.pcd.data (cell r j))
  subst hx hy
  refine ⟨rfl,rfl,?_,?_,?_,?_⟩
  · rw [pcd8544Write,if_pos hm,hext]
  · rw [pcd8544Write,if_pos hm,hver,hv]
  · rintro r' c ⟨rfl,rfl⟩
    simp [pcd8544Write,hm,store_ram]
  · intro r' c hc
    simp only [pcd8544Write,if_pos hm,store_ram,if_neg hc]

theorem sendColumns_sends (r : LcdRow) (n : Nat) (j : LcdColumn) (s : Lcd) (hm : s.mode = .data)
    (hv : s.panel.vertical = false) (hx : s.panel.x = j) (hy : s.panel.y = r) (hn : j.val+n ≤ 84) :
    Sends (fun r' c => r' = r ∧ j.val ≤ c.val ∧ c.val < j.val+n) s (sendColumns r n j s) := by
  induction n generalizing j s with
  | zero => exact (Sends.none s).congr fun r' c => iff_of_false id fun h => by omega
  | succ n ih =>
    have hone := write_sends hm hv hx hy
    obtain ⟨hx',hy',-,hv'⟩ := store_horizontal hv (s.pcd.data (cell r j))
    -- the last column may take the address to the next row, but then nothing follows
    rcases Nat.eq_zero_or_pos n with rfl | hpos
    · exact hone.congr fun r' c => by simp only [Fin.ext_iff]; omega
    · have hlast : j ≠ 83 := by
        rintro rfl
        have : (83 : LcdColumn).val = 83 := rfl
        omega
      have hj : (j+1).val = j.val+1 := by
        rw [Fin.val_add]
        exact Nat.mod_eq_of_lt (by simp; omega)
      have hrest := ih (j+1) (pcd8544Write (s.pcd.data (cell r j)) s) hm
        (by simpa [pcd8544Write,hm] using hv') (by simp [pcd8544Write,hm,hx',hx])
        (by simp [pcd8544Write,hm,hy',hx,hy,hlast]) (by omega)
      exact (hone.trans hrest).congr fun r' c => by simp only [Fin.ext_iff] at hj ⊢; omega

theorem command_setYaddr {p : Panel} (h : p.extended = false) (r : LcdRow) :
    p.command (0x40 ||| UInt8.ofNat r.val) = { p with y := r } := by
  have hcode : ∀ r : LcdRow, (0x40 ||| UInt8.ofNat r.val).toNat = 64+r.val := by decide
  have hr := hcode r
  rw [Panel.command,if_neg (by omega),if_neg (by simp [h]),dif_neg (by omega),dif_pos (by omega)]
  congr
  omega

theorem command_setXaddr {p : Panel} (h : p.extended = false) (x : LcdColumn) :
    p.command (0x80 ||| UInt8.ofNat x.val) = { p with x := x } := by
  have hcode : ∀ x : LcdColumn, (0x80 ||| UInt8.ofNat x.val).toNat = 128+x.val := by decide
  have hx := hcode x
  rw [Panel.command,if_neg (by omega),if_neg (by simp [h]),dif_pos (by omega)]
  congr
  omega

theorem sendRow_sends (r : LcdRow) (s : Lcd) (he : s.panel.extended = false)
    (hv : s.panel.vertical = false) :
    Sends (fun r' c => r' = r ∧ s.pcd.minX.val ≤ c.val ∧ c.val ≤ s.pcd.maxX.val) s
      (sendRow r s) := by
  -- the two commands leave the address at the first byte
  have haddr : sendRow r s = sendColumns r (s.pcd.maxX.val+1-s.pcd.minX.val) s.pcd.minX
      { s with mode := .data, panel := { s.panel with x := s.pcd.minX, y := r } } := by
    simp only [sendRow,pcd8544Setmode,pcd8544Write,reduceCtorEq,if_false,command_setYaddr he]
    rw [command_setXaddr (by exact he)]
  have hcols := sendColumns_sends r (s.pcd.maxX.val+1-s.pcd.minX.val) s.pcd.minX
    { s with mode := .data, panel := { s.panel with x := s.pcd.minX, y := r } } rfl hv rfl rfl
      (by omega)
  rw [haddr]
  refine Sends.congr ⟨hcols.pcd,hcols.shots,hcols.extended,hcols.vertical,hcols.inside,
    hcols.outside⟩ fun r' c => ?_
  refine and_congr_right fun _ => and_congr_right fun (hl : s.pcd.minX.val ≤ c.val) => ?_
  omega

theorem sendRows_sends (rows : List LcdRow) (hrows : rows.Pairwise (· < ·)) (s : Lcd)
    (he : s.panel.extended = false) (hv : s.panel.vertical = false) :
    Sends (fun r c => r ∈ rows ∧ s.pcd.box r c) s (sendRows rows s) := by
  induction rows generalizing s with
  | nil => exact (Sends.none s).congr fun r c => by simp
  | cons r rows ih =>
    obtain ⟨hfirst,hrest⟩ := List.pairwise_cons.mp hrows
    rw [sendRows]
    split
    · -- above the box
      refine (ih hrest s he hv).congr fun r' c => ?_
      have hskip : ¬ s.pcd.box r c := fun hbox => absurd hbox.1 (by omega)
      constructor
      · exact fun h => ⟨List.mem_cons_of_mem r h.1,h.2⟩
      · rintro ⟨hmem,hbox⟩
        refine ⟨(List.mem_cons.mp hmem).resolve_left ?_,hbox⟩
        rintro rfl
        exact hskip hbox
    · split
      · -- below the box, as is every later row
        refine (Sends.none s).congr fun r' c => iff_of_false id ?_
        rintro ⟨hmem,-,hmax,-⟩
        rcases List.mem_cons.mp hmem with rfl | hmem
        · omega
        · have := Fin.lt_def.mp (hfirst r' hmem)
          omega
      · have hrow := sendRow_sends r s he hv
        have hmore := ih hrest (sendRow r s) (hrow.extended.trans he) (hrow.vertical.trans hv)
        refine (hrow.trans hmore).congr fun r' c => ?_
        rw [hrow.pcd,List.mem_cons,or_and_right]
        refine or_congr_left (and_congr_right ?_)
        rintro rfl
        simp only [Pcd.box]
        omega

/-! What holds between the calls. -/

structure LcdReady (s : Lcd) : Prop where
  minX : s.pcd.minX = 0
  minY : s.pcd.minY = 0
  normal : s.panel.extended = false
  horizontal : s.panel.vertical = false

theorem LcdReady.record (h : LcdReady s) (shots : List Shot) : LcdReady { s with shots := shots } :=
  ⟨h.minX,h.minY,h.normal,h.horizontal⟩

theorem LcdReady.drawResource (h : LcdReady s) (data : Fin 504 → UInt8) :
    LcdReady (pcd8544DrawResource data s) :=
  ⟨h.minX,h.minY,h.normal,h.horizontal⟩

theorem LcdReady.sends (h : LcdReady s) : Sends s.pcd.box s (sendRows (List.finRange 6) s) :=
  (sendRows_sends _ (List.pairwise_lt_finRange 6) s h.normal h.horizontal).congr fun r c => by simp

theorem LcdReady.update_ram (h : LcdReady s) {r : LcdRow} {c : LcdColumn} (hc : s.pcd.box r c) :
    (pcd8544Update s).panel.ram r c = s.pcd.data (cell r c) := h.sends.inside r c hc

/-- A box that starts in the corner stays there, and the slip of `pcd8544_updatebox` is
never met. -/
theorem updatebox_corner {p : Pcd} (hx : p.minX = 0) (hy : p.minY = 0) (x x' : LcdColumn)
    (y y' : Fin 48) :
    pcd8544Updatebox x y x' y' p = { p with maxX := max p.maxX x', maxY := max p.maxY y' } := by
  have hmin : ¬ x < p.minX := by rw [hx]; exact Fin.not_lt_zero x
  have hmin' : ¬ y < p.minY := by rw [hy]; exact Fin.not_lt_zero y
  simp only [pcd8544Updatebox,if_neg hmin,if_neg hmin']
  by_cases hx' : p.maxX < x'
  · by_cases hy' : p.maxY < y'
    · simp [hx',hy',max_eq_right hx'.le,max_eq_right hy'.le]
    · simp [hx',hy',max_eq_right hx'.le,max_eq_left (not_lt.mp hy')]
  · by_cases hy' : p.maxY < y'
    · simp [hx',hy',max_eq_left (not_lt.mp hx'),max_eq_right hy'.le]
    · simp [hx',hy',max_eq_left (not_lt.mp hx'),max_eq_left (not_lt.mp hy')]

/-- The picture and the panel agree after a transfer if they agreed outside the box. -/
theorem LcdReady.update (h : LcdReady s) :
    LcdReady (pcd8544Update s) ∧ (pcd8544Update s).pcd = { s.pcd with maxX := 83, maxY := 47 } ∧
      ∃ shot : Shot, (pcd8544Update s).shots = s.shots ++ [shot] ∧
        (shot.Same ↔ ∀ r c, ¬ s.pcd.box r c → s.panel.ram r c = s.pcd.data (cell r c)) := by
  have hs := h.sends
  have hpcd : (pcd8544Update s).pcd = { s.pcd with maxX := 83, maxY := 47 } := by
    simp only [pcd8544Update,hs.pcd,updatebox_corner h.minX h.minY]
    rw [max_eq_right (show s.pcd.maxX ≤ 83 from Fin.le_last _),
      max_eq_right (show s.pcd.maxY ≤ 47 from Fin.le_last _)]
  refine ⟨⟨?_,?_,hs.extended.trans h.normal,hs.vertical.trans h.horizontal⟩,hpcd,
    ⟨(sendRows (List.finRange 6) s).panel.ram,s.pcd.data⟩,
      by simp only [pcd8544Update,hs.pcd,hs.shots],?_⟩
  · rw [hpcd]
    exact h.minX
  · rw [hpcd]
    exact h.minY
  · refine ⟨fun hsame r c hc => ?_,fun hout r c => ?_⟩
    · rw [← hs.outside r c hc]
      exact hsame r c
    · by_cases hc : s.pcd.box r c
      · exact hs.inside r c hc
      · exact (hs.outside r c hc).trans (hout r c hc)

theorem zero_box (r : LcdRow) (c : LcdColumn) : Pcd.zero.box r c ↔ r = 0 ∧ c = 0 := by
  simp only [Pcd.box,Pcd.zero,Fin.ext_iff,Fin.val_zero]
  omega

theorem LcdReady.full_box (h : LcdReady s) (hx : s.pcd.maxX = 83) (hy : s.pcd.maxY = 47)
    (r : LcdRow) (c : LcdColumn) : s.pcd.box r c := by
  have h83 : (83 : LcdColumn).val = 83 := rfl
  have h47 : (47 : Fin 48).val = 47 := rfl
  simp only [Pcd.box,h.minX,h.minY,hx,hy,h83,h47,Fin.val_zero]
  omega

theorem LcdReady.update_full (h : LcdReady s) (hx : s.pcd.maxX = 83) (hy : s.pcd.maxY = 47) :
    ∃ shot : Shot, (pcd8544Update s).shots = s.shots ++ [shot] ∧ shot.Same := by
  obtain ⟨-,-,shot,hshots,hsame⟩ := h.update
  exact ⟨shot,hshots,hsame.mpr fun r c hc => absurd (h.full_box hx hy r c) hc⟩

theorem LcdReady.clean (h : LcdReady s) :
    LcdReady (pcd8544Clean s) ∧ (pcd8544Clean s).pcd = { Pcd.zero with maxX := 83, maxY := 47 } ∧
      ∃ shot : Shot, (pcd8544Clean s).shots = s.shots ++ [shot] ∧
        (shot.Same ↔ ∀ r c, ¬ (r = 0 ∧ c = 0) → s.panel.ram r c = 0) := by
  have hzero : LcdReady { s with pcd := Pcd.zero } := ⟨rfl,rfl,h.normal,h.horizontal⟩
  obtain ⟨hready,hpcd,shot,hshots,hsame⟩ := hzero.update
  have hdata : ∀ i, Pcd.zero.data i = 0 := fun _ => rfl
  exact ⟨hready,hpcd,shot,hshots,by simpa only [zero_box,hdata] using hsame⟩

theorem LcdReady.draw (h : LcdReady s) (gfx : Gfx) (resource : LcdResource) :
    LcdReady (hostLcdDraw gfx resource s) ∧
      ∃ shot last : Shot, (hostLcdDraw gfx resource s).shots = s.shots ++ [shot,last] ∧ last.Same ∧
        (shot.Same ↔ ∀ r c, ¬ (r = 0 ∧ c = 0) → s.panel.ram r c = 0) := by
  obtain ⟨hready,hpcd,shot,hshots,hsame⟩ := h.clean
  obtain ⟨t,ht,htr,htx,hty,hts⟩ : ∃ t, hostLcdDraw gfx resource s = pcd8544Update t ∧ LcdReady t ∧
      t.pcd.maxX = 83 ∧ t.pcd.maxY = 47 ∧ t.shots = (pcd8544Clean s).shots := by
    rw [hostLcdDraw]
    split
    · exact ⟨_,rfl,hready,by rw [hpcd],by rw [hpcd],rfl⟩
    · exact ⟨_,rfl,hready.drawResource _,by simp [pcd8544DrawResource,hpcd],
        by simp [pcd8544DrawResource,hpcd],rfl⟩
  obtain ⟨last,hlast,hlsame⟩ := htr.update_full htx hty
  rw [ht]
  exact ⟨htr.update.1,shot,last,by simp [hlast,hts,hshots],hlsame,hsame⟩

theorem putpixel_corner {p : Pcd} (hx : p.minX = 0) (hy : p.minY = 0) (x y color : UInt8) :
    (pcd8544Putpixel x y color p).minX = 0 ∧ (pcd8544Putpixel x y color p).minY = 0 := by
  rw [pcd8544Putpixel]
  split
  · rw [updatebox_corner (by exact hx) (by exact hy)]
    exact ⟨hx,hy⟩
  · exact ⟨hx,hy⟩

theorem putpixelLazy_corner {p : Pcd} (hx : p.minX = 0) (hy : p.minY = 0) (x y color : UInt8) :
    (pcd8544PutpixelLazy x y color p).minX = 0 ∧ (pcd8544PutpixelLazy x y color p).minY = 0 := by
  rw [pcd8544PutpixelLazy]
  split <;> exact ⟨hx,hy⟩

/-- What a call records is right exactly when the call is covered. -/
theorem LcdReady.call (h : LcdReady s) (gfx : Gfx) (op : LcdOp) :
    LcdReady (lcdCall gfx s op) ∧
      ∃ more : List Shot, (lcdCall gfx s op).shots = s.shots ++ more ∧
        ((∀ shot ∈ more, shot.Same) ↔ Covered s op) := by
  cases op with
  | draw resource =>
    obtain ⟨hready,shot,last,hshots,hlast,hsame⟩ := h.draw gfx resource
    refine ⟨hready,[shot,last],hshots,?_⟩
    rw [List.forall_mem_cons,List.forall_mem_singleton,and_iff_left hlast]
    exact hsame
  | clean =>
    obtain ⟨hready,-,shot,hshots,hsame⟩ := h.clean
    exact ⟨hready,[shot],hshots,List.forall_mem_singleton.trans hsame⟩
  | updateScreen =>
    obtain ⟨hready,-,shot,hshots,hsame⟩ := h.update
    exact ⟨hready,[shot],hshots,List.forall_mem_singleton.trans hsame⟩
  | cleanScreen =>
    exact ⟨⟨rfl,rfl,h.normal,h.horizontal⟩,[],by simp [lcdCall,hostLcdCleanScreen],
      by simp [Covered]⟩
  | putpixel x y color =>
    obtain ⟨hx,hy⟩ := putpixel_corner h.minX h.minY x y color
    exact ⟨⟨hx,hy,h.normal,h.horizontal⟩,[],by simp [lcdCall],by simp [Covered]⟩
  | hostPutpixel x y color =>
    refine ⟨?_,[],?_,by simp [Covered]⟩
    · rw [lcdCall,hostLcdPutpixel]
      split
      · obtain ⟨hx,hy⟩ :=
          putpixelLazy_corner h.minX h.minY x.toUInt8 y.toUInt8 (if color ≠ 0 then 1 else 0)
        exact ⟨hx,hy,h.normal,h.horizontal⟩
      · exact h
    · rw [lcdCall,hostLcdPutpixel,List.append_nil]
      split <;> rfl

/-! Whole runs. -/

structure LcdInv (s : Lcd) : Prop extends LcdReady s where
  same : PanelRefines s

theorem LcdInv.step {gfx : Gfx} {op : LcdOp} (h : LcdInv s) (hc : Covered s op)
    (hs : lcdStep gfx s op = some t) : LcdInv t := by
  cases hs
  obtain ⟨hready,more,hshots,hsame⟩ := h.toLcdReady.call gfx op
  refine ⟨hready,?_⟩
  rw [PanelRefines,hshots,List.forall_mem_append]
  exact ⟨h.same,hsame.mpr hc⟩

/-- A call outside the condition records a difference. -/
theorem LcdInv.differs {gfx : Gfx} {op : LcdOp} (h : LcdInv s) (hn : ¬ Covered s op) :
    ∃ t, lcdStep gfx s op = some t ∧ ¬ PanelRefines t := by
  obtain ⟨-,more,hshots,hsame⟩ := h.toLcdReady.call gfx op
  refine ⟨_,rfl,fun hall => hn (hsame.mp ?_)⟩
  rw [PanelRefines,hshots,List.forall_mem_append] at hall
  exact hall.2

/-- The commands of the set-up leave the controller as the reset did. -/
theorem pcd8544Init_eq (ram : LcdRow → LcdColumn → UInt8) (s : Lcd) :
    pcd8544Init ram 0x38 s = pcd8544Clean
      { s with mode := .command, panel := ⟨ram,0,0,false,false⟩ } := by
  rfl

theorem pcd8544Init_clean (ram : LcdRow → LcdColumn → UInt8) (s : Lcd) :
    LcdReady (pcd8544Init ram 0x38 s) ∧
      (pcd8544Init ram 0x38 s).pcd = { Pcd.zero with maxX := 83, maxY := 47 } := by
  have hreset : LcdReady { s with pcd := Pcd.zero, mode := .command, panel := ⟨ram,0,0,false,
      false⟩ } :=
    ⟨rfl,rfl,rfl,rfl⟩
  obtain ⟨hready,hpcd,-⟩ := hreset.clean
  rw [pcd8544Init_eq]
  exact ⟨hready,hpcd⟩

theorem lcdStart_inv (ram : LcdRow → LcdColumn → UInt8) (s : Lcd) : LcdInv (lcdStart ram s) :=
  ⟨(pcd8544Init_clean ram s).1.update.1.record [],by simp [PanelRefines,lcdStart]⟩

/-- The second transfer of `host_lcd_init` blanks the panel. -/
theorem lcdStart_blank (ram : LcdRow → LcdColumn → UInt8) (s : Lcd) (r : LcdRow) (c : LcdColumn) :
    (lcdStart ram s).panel.ram r c = 0 := by
  obtain ⟨hready,hpcd⟩ := pcd8544Init_clean ram s
  have hsent := hready.update_ram (hready.full_box (by rw [hpcd]) (by rw [hpcd]) r c)
  have hdata : (pcd8544Init ram 0x38 s).pcd.data (cell r c) = 0 := by rw [hpcd]; rfl
  rw [← hdata,← hsent,lcdStart,hostLcdInit]

/-- The panel shows the picture after every transfer of a run exactly when every
transfer leaves out only what is right already. -/
theorem lcdRun_refines_iff (gfx : Gfx) (ram : LcdRow → LcdColumn → UInt8) (s : Lcd)
    (ops : List LcdOp) :
    Always (lcdStep gfx) PanelRefines (lcdStart ram s) ops ↔
      Guarded (lcdStep gfx) Covered (lcdStart ram s) ops :=
  always_iff_guarded (fun _ h => LcdInv.same h) (fun _ _ _ h hc hs => h.step hc hs)
    (fun _ _ h hn => h.differs hn) ops (lcdStart ram s) (lcdStart_inv ram s)

/-- A pixel set after the screen was cleaned lies outside the box. -/
theorem LcdInv.pixel_lost {gfx : Gfx} (hinv : LcdInv s) (hblank : s.panel.ram 0 5 = 0) :
    ¬ Always (lcdStep gfx) PanelRefines s [.cleanScreen,.hostPutpixel 5 5 1,.updateScreen] := by
  intro h
  have hput : hostLcdPutpixel 5 5 1 (hostLcdCleanScreen s) =
      { s with pcd := paint 5 5 1 Pcd.zero } := by
    rw [hostLcdPutpixel,if_pos (by decide),pcd8544PutpixelLazy,dif_pos (by decide)]
    rfl
  have hend := ((h.2 (hostLcdCleanScreen s) rfl).2 _ rfl).2
    (pcd8544Update { s with pcd := paint 5 5 1 Pcd.zero })
    (by rw [← hput]; rfl)
  have hready : LcdReady { s with pcd := paint 5 5 1 Pcd.zero } :=
    ⟨rfl,rfl,hinv.normal,hinv.horizontal⟩
  obtain ⟨-,-,shot,hshots,hsame⟩ := hready.update
  have hbox : ¬ (paint 5 5 1 Pcd.zero).box 0 5 := fun hb => absurd hb.2.2.2 (by decide)
  have hdiff := hsame.mp (hend shot (by simp [hshots])) 0 5 hbox
  have hdata : (paint 5 5 1 Pcd.zero).data (cell 0 5) = 32 := by decide
  rw [hblank,hdata] at hdiff
  exact absurd hdiff (by decide)

theorem lcdRun_pixel_lost :
    ¬ Always (lcdStep fun _ _ => 0) PanelRefines
      (lcdStart (fun _ _ => 0) ⟨Pcd.zero,.command,⟨fun _ _ => 0,0,0,false,false⟩,[]⟩)
      [.cleanScreen,.hostPutpixel 5 5 1,.updateScreen] :=
  (lcdStart_inv _ _).pixel_lost (lcdStart_blank _ _ 0 5)

end Mardio
