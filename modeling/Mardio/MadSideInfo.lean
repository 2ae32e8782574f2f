import Mardio.Lib.Cursor
import Mardio.MadSync

/-!
The side information of a Layer III frame. It is read field by field through the
bit pointer; where a window is switched other fields are read than where it is
not, but as many bits of them.
-/

set_option autoImplicit false

namespace Mardio
open ByteMem BitString Cursor

def bitRead (m : Mem) (len : Nat) : StateM MadBitptr Nat := fun ptr => madBitRead m ptr len

def mixedBlockFlag : Nat := 0x08

/-- The fields that come from the side information. -/
structure Channel where
  part23Length : Nat
  bigValues : Nat
  globalGain : Nat
  scalefacCompress : Nat
  flags : Nat
  blockType : Nat
  tableSelect : List Nat
  subblockGain : List Nat
  region0Count : Nat
  region1Count : Nat
  deriving DecidableEq, Repr

structure SideInfo where
  mainDataBegin : Nat
  privateBits : Nat
  scfsi : List Nat
  gr : List (List Channel)
  deriving DecidableEq, Repr

/-- With `window_switching_flag`. -/
def switchedWindow (m : Mem) (lsf : Bool) (scfsi : Nat) (result : MadError) (channel : Channel) :
    StateM MadBitptr (MadError × Channel) := do
  let blockType ← bitRead m 2
  let result := if blockType = 0 ∧ result = .none then .badblocktype else result
  let result := if lsf = false ∧ blockType = 2 ∧ scfsi ≠ 0 ∧ result = .none then .badscfsi
    else result
  let mixed ← bitRead m 1
  let tableSelect ← repeatRead (bitRead m 5) 2
  let subblockGain ← repeatRead (bitRead m 3) 3
  return (result,{ channel with
    blockType := blockType
    flags := if mixed ≠ 0 then mixedBlockFlag else 0
    region0Count := if mixed = 0 ∧ blockType = 2 then 8 else 7
    region1Count := 36
    tableSelect := tableSelect
    subblockGain := subblockGain })

def plainWindow (m : Mem) (result : MadError) (channel : Channel) :
    StateM MadBitptr (MadError × Channel) := do
  let tableSelect ← repeatRead (bitRead m 5) 3
  let region0Count ← bitRead m 4
  let region1Count ← bitRead m 3
  return (result,{ channel with
    tableSelect := tableSelect, region0Count := region0Count, region1Count := region1Count })

def windowInfo (m : Mem) (lsf : Bool) (scfsi switching : Nat) (result : MadError)
    (channel : Channel) :
    StateM MadBitptr (MadError × Channel) :=
  if switching ≠ 0 then switchedWindow m lsf scfsi result channel else plainWindow m result channel

/-- The body of the loop over granules and channels. -/
def channelInfo (m : Mem) (lsf : Bool) (scfsi : Nat) (result : MadError) :
    StateM MadBitptr (MadError × Channel) := do
  let part23Length ← bitRead m 12
  let bigValues ← bitRead m 9
  let globalGain ← bitRead m 8
  let scalefacCompress ← bitRead m (if lsf then 9 else 4)
  let result := if bigValues > 288 ∧ result = .none then .badbigvalues else result
  let channel : Channel := ⟨part23Length,bigValues,globalGain,scalefacCompress,0,0,[],[],0,0⟩
  let switching ← bitRead m 1
  let r ← windowInfo m lsf scfsi switching result channel
  -- preflag (not for lsf), scalefac_scale and count1table_select
  let flags ← bitRead m (if lsf then 2 else 3)
  return (r.1,{ r.2 with flags := r.2.flags ||| flags })

def channelInfos (m : Mem) (lsf : Bool) (scfsi : List Nat) :
    List Nat → MadError → StateM MadBitptr (MadError × List Channel)
  | [], result => return (result,[])
  | ch :: chs, result => do
      let r ← channelInfo m lsf (scfsi.getD ch 0) result
      let rs ← channelInfos m lsf scfsi chs r.1
      return (rs.1,r.2 :: rs.2)

def granuleInfos (m : Mem) (lsf : Bool) (scfsi : List Nat) (nch : Nat) :
    Nat → MadError → StateM MadBitptr (MadError × List (List Channel))
  | 0, result => return (result,[])
  | ngr+1, result => do
      let r ← channelInfos m lsf scfsi (List.range nch) result
      let rs ← granuleInfos m lsf scfsi nch ngr r.1
      return (rs.1,r.2 :: rs.2)

def privBitlen (nch : Nat) (lsf : Bool) : Nat :=
  if lsf then (if nch = 1 then 1 else 2) else (if nch = 1 then 5 else 3)

def scfsiInfo (m : Mem) (nch : Nat) (lsf : Bool) : StateM MadBitptr (List Nat) :=
  if lsf then pure [] else repeatRead (bitRead m 4) nch

def iiiSideinfo (m : Mem) (nch : Nat) (lsf : Bool) : StateM MadBitptr (MadError × SideInfo) := do
  let mainDataBegin ← bitRead m (if lsf then 8 else 9)
  let privateBits ← bitRead m (privBitlen nch lsf)
  let scfsi ← scfsiInfo m nch lsf
  let r ← granuleInfos m lsf scfsi nch (if lsf then 1 else 2) .none
  return (r.1,⟨mainDataBegin,privateBits,scfsi,r.2⟩)

/-! The fields by their places. -/

theorem bitRead_reads (m : Mem) (len : Nat) :
    Reads (MadBitptr.Valid m) MadBitptr.pos (bitRead m len) len fun p => field m p len :=
  fun _ hc => madBitRead_spec hc len

/-- The first error stays. -/
def orError (result error : MadError) : MadError := if result = .none then error else result

def fieldsAt (m : Mem) (n len : Nat) : Nat → List Nat := recordsAt (fun p => field m p len) len n

theorem bitRead_repeat (m : Mem) (len n : Nat) :
    Reads (MadBitptr.Valid m) MadBitptr.pos (repeatRead (bitRead m len) n) (n*len)
      (fieldsAt m n len) :=
  (bitRead_reads m len).repeat n

def switchedAt (m : Mem) (channel : Channel) (p : Nat) : Channel :=
  { channel with
    blockType := field m p 2
    flags := if field m (p+2) 1 ≠ 0 then mixedBlockFlag else 0
    region0Count := if field m (p+2) 1 = 0 ∧ field m p 2 = 2 then 8 else 7
    region1Count := 36
    tableSelect := fieldsAt m 2 5 (p+3)
    subblockGain := fieldsAt m 3 3 (p+13) }

def switchedFault (m : Mem) (lsf : Bool) (scfsi p : Nat) : MadError :=
  if field m p 2 = 0 then .badblocktype
  else if lsf = false ∧ field m p 2 = 2 ∧ scfsi ≠ 0 then .badscfsi else .none

theorem switchedWindow_reads (m : Mem) (lsf : Bool) (scfsi : Nat) (result : MadError)
    (channel : Channel) :
    Reads (MadBitptr.Valid m) MadBitptr.pos (switchedWindow m lsf scfsi result channel) 22
      fun p => (orError result (switchedFault m lsf scfsi p),switchedAt m channel p) := by
  unfold switchedWindow
  refine Reads.congr ((bitRead_reads m 2).bind fun _ => (bitRead_reads m 1).bind fun _ =>
    (bitRead_repeat m 5 2).bind fun _ => (bitRead_repeat m 3 3).bind fun _ => Reads.pure _) rfl
      fun p => ?_
  refine Prod.ext ?_ rfl
  simp only [orError,switchedFault]
  by_cases h0 : field m p 2 = 0
  · by_cases hr : result = .none <;> simp [h0,hr]
  · by_cases hr : result = .none <;> simp [h0,hr]

def plainAt (m : Mem) (channel : Channel) (p : Nat) : Channel :=
  { channel with
    tableSelect := fieldsAt m 3 5 p, region0Count := field m (p+15) 4, region1Count :=
      field m (p+19) 3 }

theorem plainWindow_reads (m : Mem) (result : MadError) (channel : Channel) :
    Reads (MadBitptr.Valid m) MadBitptr.pos (plainWindow m result channel) 22
      fun p => (result,plainAt m channel p) := by
  unfold plainWindow
  exact Reads.congr ((bitRead_repeat m 5 3).bind fun _ => (bitRead_reads m 4).bind fun _ =>
    (bitRead_reads m 3).bind fun _ => Reads.pure _) rfl fun p => rfl

def compressBits (lsf : Bool) : Nat := if lsf then 9 else 4

/-- The bits of one channel in one granule. -/
def channelBits (lsf : Bool) : Nat := if lsf then 63 else 59

def channelAt (m : Mem) (lsf : Bool) (p : Nat) : Channel :=
  let channel : Channel :=
    ⟨field m p 12,field m (p+12) 9,field m (p+21) 8,field m (p+29) (compressBits lsf),
    0,0,[],[],0,0⟩
  let window := p+29+compressBits lsf
  let channel := if field m window 1 ≠ 0 then switchedAt m channel (window+1)
    else plainAt m channel (window+1)
  { channel with flags := channel.flags ||| field m (window+23) (if lsf then 2 else 3) }

def channelFault (m : Mem) (lsf : Bool) (scfsi p : Nat) : MadError :=
  let window := p+29+compressBits lsf
  if field m (p+12) 9 > 288 then .badbigvalues
  else if field m window 1 ≠ 0 then switchedFault m lsf scfsi (window+1) else .none

theorem windowInfo_reads (m : Mem) (lsf : Bool) (scfsi switching : Nat) (result : MadError)
    (channel : Channel) :
    Reads (MadBitptr.Valid m) MadBitptr.pos (windowInfo m lsf scfsi switching result channel)
      22 fun p =>
      (orError result (if switching ≠ 0 then switchedFault m lsf scfsi p else .none),
        if switching ≠ 0 then switchedAt m channel p else plainAt m channel p) := by
  unfold windowInfo
  refine Reads.congr (.ite (switchedWindow_reads m lsf scfsi result channel)
    (plainWindow_reads m result channel)) rfl
    fun p => ?_
  split
  · rfl
  · by_cases hr : result = .none <;> simp [orError,hr]

theorem orError_assoc (result : MadError) {c : Prop} [Decidable c] {e f : MadError}
    (he : e ≠ .none) :
    orError (if c ∧ result = .none then e else result) f = orError result (if c then e else f) := by
  by_cases hr : result = .none <;> by_cases hc : c <;> simp [orError,hr,hc,he]

theorem channelInfo_reads (m : Mem) (lsf : Bool) (scfsi : Nat) (result : MadError) :
    Reads (MadBitptr.Valid m) MadBitptr.pos (channelInfo m lsf scfsi result) (channelBits lsf)
      fun p => (orError result (channelFault m lsf scfsi p),channelAt m lsf p) := by
  unfold channelInfo
  refine Reads.congr ((bitRead_reads m 12).bind fun _ => (bitRead_reads m 9).bind fun _ =>
    (bitRead_reads m 8).bind fun _ => (bitRead_reads m _).bind fun _ =>
      (bitRead_reads m 1).bind fun _ =>
    (windowInfo_reads m lsf scfsi _ _ _).bind fun _ => (bitRead_reads m _).bind fun _ =>
      Reads.pure _) ?_ fun p => ?_
  · cases lsf <;> rfl
  · refine Prod.ext ?_ ?_
    · simp only [orError_assoc result (show MadError.badbigvalues ≠ .none by decide)]
      rfl
    · rfl

/-- The first fault among those of the channels from `p` on. -/
def faultsAt (m : Mem) (lsf : Bool) (scfsi : List Nat) : List Nat → MadError → Nat → MadError
  | [], result, _ => result
  | ch :: chs, result, p => faultsAt m lsf scfsi chs
      (orError result (channelFault m lsf (scfsi.getD ch 0) p))
      (p+channelBits lsf)

def channelsAt (m : Mem) (lsf : Bool) (nch : Nat) : Nat → List Channel :=
  recordsAt (channelAt m lsf) (channelBits lsf) nch

theorem channelInfos_reads (m : Mem) (lsf : Bool) (scfsi : List Nat) (chs : List Nat)
    (result : MadError) :
    Reads (MadBitptr.Valid m) MadBitptr.pos (channelInfos m lsf scfsi chs result)
      (chs.length*channelBits lsf)
      fun p => (faultsAt m lsf scfsi chs result p,channelsAt m lsf chs.length p) := by
  induction chs generalizing result with
  | nil => exact (Reads.pure _).congr (by simp) fun p => rfl
  | cons ch chs ih =>
    refine Reads.congr ((channelInfo_reads m lsf _ result).bind fun r => (ih r.1).bind fun rs =>
      Reads.pure _) ?_
      fun p => ?_
    · rw [List.length_cons,Nat.succ_mul]
      omega
    · exact Prod.ext rfl (recordsAt_succ (channelAt m lsf) _ chs.length p).symm

def granuleFaults (m : Mem) (lsf : Bool) (scfsi : List Nat) (nch : Nat) :
    Nat → MadError → Nat → MadError
  | 0, result, _ => result
  | ngr+1, result, p => granuleFaults m lsf scfsi nch ngr
      (faultsAt m lsf scfsi (List.range nch) result p)
      (p+nch*channelBits lsf)

def granulesAt (m : Mem) (lsf : Bool) (nch ngr : Nat) : Nat → List (List Channel) :=
  recordsAt (channelsAt m lsf nch) (nch*channelBits lsf) ngr

theorem granuleInfos_reads (m : Mem) (lsf : Bool) (scfsi : List Nat) (nch ngr : Nat)
    (result : MadError) :
    Reads (MadBitptr.Valid m) MadBitptr.pos (granuleInfos m lsf scfsi nch ngr result)
      (ngr*(nch*channelBits lsf))
      fun p => (granuleFaults m lsf scfsi nch ngr result p,granulesAt m lsf nch ngr p) := by
  induction ngr generalizing result with
  | zero => exact (Reads.pure _).congr (by simp) fun p => rfl
  | succ ngr ih =>
    have hch := channelInfos_reads m lsf scfsi (List.range nch) result
    rw [List.length_range] at hch
    refine Reads.congr (hch.bind fun r => (ih r.1).bind fun rs => Reads.pure _) ?_ fun p => ?_
    · rw [Nat.succ_mul]
      omega
    · exact Prod.ext rfl (recordsAt_succ (channelsAt m lsf nch) _ ngr p).symm

/-- The fields in front of the granules. -/
def siPrefix (nch : Nat) (lsf : Bool) : Nat :=
  if lsf then 8+privBitlen nch lsf else 9+privBitlen nch lsf+nch*4

def scfsiAt (m : Mem) (nch : Nat) (lsf : Bool) (p : Nat) : List Nat :=
  if lsf then [] else fieldsAt m nch 4 (p+9+privBitlen nch lsf)

def sideinfoAt (m : Mem) (nch : Nat) (lsf : Bool) (p : Nat) : SideInfo where
  mainDataBegin := field m p (if lsf then 8 else 9)
  privateBits := field m (p+(if lsf then 8 else 9)) (privBitlen nch lsf)
  scfsi := scfsiAt m nch lsf p
  gr := granulesAt m lsf nch (if lsf then 1 else 2) (p+siPrefix nch lsf)

def sideinfoFault (m : Mem) (nch : Nat) (lsf : Bool) (p : Nat) : MadError :=
  granuleFaults m lsf (scfsiAt m nch lsf p) nch (if lsf then 1 else 2) .none (p+siPrefix nch lsf)

/-- `si_len` of `mad_layer_III`. -/
def siLen (nch : Nat) (lsf : Bool) : Nat :=
  if lsf then (if nch = 1 then 9 else 17) else (if nch = 1 then 17 else 32)

/-- The side information takes the bytes the frame sets aside for it. -/
theorem iiiSideinfo_reads (m : Mem) {nch : Nat} (hn : nch = 1 ∨ nch = 2) (lsf : Bool) :
    Reads (MadBitptr.Valid m) MadBitptr.pos (iiiSideinfo m nch lsf) (8*siLen nch lsf)
      fun p => (sideinfoFault m nch lsf p,sideinfoAt m nch lsf p) := by
  unfold iiiSideinfo
  cases lsf with
  | true =>
    refine Reads.congr ((bitRead_reads m _).bind fun _ => (bitRead_reads m _).bind fun _ =>
      (Reads.pure []).bind fun _ => (granuleInfos_reads m true _ nch _ _).bind fun _ =>
        Reads.pure _) ?_ fun p => ?_
    · rcases hn with rfl | rfl <;> rfl
    · simp only [sideinfoFault,sideinfoAt,siPrefix,scfsiAt,if_true,Nat.add_assoc,Nat.add_zero]
  | false =>
    refine Reads.congr ((bitRead_reads m _).bind fun _ => (bitRead_reads m _).bind fun _ =>
      (bitRead_repeat m 4 nch).bind fun _ => (granuleInfos_reads m false _ nch _ _).bind fun _ =>
        Reads.pure _) ?_
      fun p => ?_
    · rcases hn with rfl | rfl <;> rfl
    · simp only [sideinfoFault,sideinfoAt,siPrefix,scfsiAt,Bool.false_eq_true,if_false,
        Nat.add_assoc]

end Mardio
