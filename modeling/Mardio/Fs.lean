import Mardio.Id3Tag
import Mardio.IoBuffer

/-!
The file layer: the handle table, the files of a Linux host and the resource
files compiled into the program. Handles are plain integers, as in the source.
-/

set_option autoImplicit false

namespace Mardio
open ByteMem

def maxOpenFiles : Nat := 3

inductive FsSource where
  | closed | resource | host
  deriving DecidableEq, Repr

inductive FsState where
  | unknown | opened | closed | error
  deriving DecidableEq, Repr

inductive FsType where
  | unknown | none | riff | mp3
  deriving DecidableEq, Repr

structure FsHandle where
  source : FsSource
  handle : Int
  deriving DecidableEq, Repr

structure OpenFile where
  content : List UInt8
  pos : Nat
  deriving DecidableEq, Repr

/-- `size`, the length of the data, is an int. -/
structure ResEntry where
  name : Str
  data : List UInt8
  pos : Nat
  sized : data.length < 2^31
  deriving DecidableEq, Repr

/-- `fss`, the table `hfs` of the host and the resource table. Only the first
`MAX_OPEN_FILES` entries of the two handle tables exist in the program. -/
structure Fs where
  state : FsState
  type : FsType
  rate : SoundRate
  channels : Nat
  handle : Int
  handles : Nat → FsHandle
  hfs : Nat → Option OpenFile
  entries : List ResEntry

/-- What a call that opens files meets: the files `fopen` finds, how many bytes
`fread` delivers when it fails, the memory from the stack buffer of
`fs_open_riff` on, the width of a pointer, and how many chunks the walk over that
memory is followed for. -/
structure World where
  files : Str → Option (List UInt8)
  typeFault : Option Nat
  riffFault : Option Nat
  stack : Mem
  width : Nat
  fuel : Nat

def resFindHandle (name : Str) (entries : List ResEntry) : Int :=
  match entries.findIdx? (fun e => ucStrncmp name e.name e.name.length == 0) with
  -- the result is an 8-bit signed integer
  | some i => Int.bmod i (2^8)
  | none => -1

def resOpen (name : Str) (fs : Fs) : Int := resFindHandle name fs.entries

def resBadHandle (handle : Int) (fs : Fs) : Prop := handle > fs.entries.length ∨ handle < 0

instance (handle : Int) (fs : Fs) : Decidable (resBadHandle handle fs) :=
  inferInstanceAs (Decidable (_ ∨ _))

def resClose (handle : Int) (fs : Fs) : Fs :=
  if resBadHandle handle fs then fs
  else { fs with entries := fs.entries.modify handle.toNat fun e => { e with pos := 0 } }

def resRead (handle : Int) (size : Nat) (fs : Fs) : List UInt8 × Fs :=
  if resBadHandle handle fs then ([],fs)
  else match fs.entries[handle.toNat]? with
    | none => ([],fs)
    | some e =>
        let toread := if e.pos+size > e.data.length then e.data.length-e.pos else size
        ((e.data.drop e.pos).take toread,
          { fs with entries := fs.entries.modify handle.toNat fun e =>
            { e with pos := min (e.pos+toread) e.data.length } })

def resSeek (handle : Int) (offset : Nat) (fs : Fs) : Fs :=
  if resBadHandle handle fs then fs
  else { fs with entries := fs.entries.modify handle.toNat fun e =>
    { e with pos := if e.data.length ≥ offset then offset else e.data.length } }

def firstFree (p : Nat → Bool) : Option Nat := (List.range maxOpenFiles).find? p

def hostFsOpen (files : Str → Option (List UInt8)) (name : Str) (fs : Fs) : Int × Fs :=
  match firstFree (fun i => (fs.hfs i).isNone) with
  | none => (-1,fs)
  | some i =>
      match files name with
      | none => (-1,fs)
      | some content => (i,{ fs with hfs := Function.update fs.hfs i (some ⟨content,0⟩) })

/-- The bound tests of the file layer let `MAX_OPEN_FILES` itself pass. -/
def badHandle (handle : Int) : Prop := handle < 0 ∨ handle > maxOpenFiles

instance (handle : Int) : Decidable (badHandle handle) := inferInstanceAs (Decidable (_ ∨ _))

def hostFsClose (handle : Int) (fs : Fs) : Fs :=
  if badHandle handle then fs else { fs with hfs := Function.update fs.hfs handle.toNat none }

def hostFsRead (fault : Option Nat) (handle : Int) (size : Nat) (fs : Fs) : List UInt8 × Fs :=
  if badHandle handle then ([],fs)
  else match fs.hfs handle.toNat with
    | none => ([],fs)
    | some f =>
        let bytes := (f.content.drop f.pos).take (min size (fault.getD size))
        (bytes,{ fs with hfs := Function.update fs.hfs handle.toNat (some ⟨f.content,
          f.pos+bytes.length⟩) })

def hostFsSeek (handle : Int) (offset : Nat) (fs : Fs) : Fs :=
  if badHandle handle then fs
  else match fs.hfs handle.toNat with
    | none => fs
    | some f => { fs with hfs := Function.update fs.hfs handle.toNat (some ⟨f.content,offset⟩) }

def fsInit (entries : List ResEntry) : Fs :=
  ⟨.closed,.unknown,.unknown,0,-1,fun _ => ⟨.closed,0⟩,fun _ => none,entries⟩

def fsGetHandle (fs : Fs) : Int :=
  match firstFree (fun i => (fs.handles i).source == .closed) with
  | some i => i
  | none => -1

def setHandle (fs : Fs) (i : Int) (h : FsHandle) : Fs :=
  { fs with handles := Function.update fs.handles i.toNat h }

def fsOpen (files : Str → Option (List UInt8)) (name : Str) (fs : Fs) : Int × Fs :=
  let fsHandle := fsGetHandle fs
  if fsHandle = -1 then (-1,fs)
  else
    let (hostHandle,fs) := hostFsOpen files name fs
    if hostHandle ≠ -1 then (fsHandle,setHandle fs fsHandle ⟨.host,hostHandle⟩)
    else
      let hostHandle := resOpen name fs
      if hostHandle ≠ -1 then (fsHandle,setHandle fs fsHandle ⟨.resource,hostHandle⟩)
      else (-1,fs)

def fsClose (handle : Int) (fs : Fs) : Fs :=
  if badHandle handle then fs
  else
    let h := fs.handles handle.toNat
    match h.source with
    | .host => setHandle (hostFsClose h.handle fs) handle { h with source := .closed }
    | .resource => setHandle (resClose h.handle fs) handle { h with source := .closed }
    | .closed => fs

/-- `none` is the result -1. -/
def fsRead (fault : Option Nat) (handle : Int) (size : Nat) (fs : Fs) : Option (List UInt8) × Fs :=
  if badHandle handle ∨ size = 0 then (none,fs)
  else
    let h := fs.handles handle.toNat
    match h.source with
    | .host =>
        let (bytes,fs) := hostFsRead fault h.handle size fs
        (some bytes,fs)
    | .resource =>
        let (bytes,fs) := resRead h.handle size fs
        (some bytes,fs)
    | .closed => (none,fs)

def fsSeek (handle : Int) (offset : Nat) (fs : Fs) : Fs :=
  if badHandle handle then fs
  else
    let h := fs.handles handle.toNat
    match h.source with
    | .host => hostFsSeek h.handle offset fs
    | .resource => resSeek h.handle offset fs
    | .closed => fs

def fsStop (fs : Fs) : Fs :=
  if fs.handle ≠ -1 then { fsClose fs.handle fs with handle := -1, state := .closed } else fs

def le16 (width : Nat) (m : Mem) (a : Nat) : Nat :=
  (m (a % 2^width)).toNat+256*(m ((a+1) % 2^width)).toNat

def le32 (width : Nat) (m : Mem) (a : Nat) : Nat := le16 width m a+2^16*le16 width m (a+2)

def riffSignature : Nat := 0x46464952
def riffFormat : Nat := 0x45564157
def riffFmt : Nat := 0x20746d66
def riffData : Nat := 0x61746164
def riffFact : Nat := 0x74636166
def riffFmtPcm : Nat := 1

def typeOfHeader (buff : List UInt8) : FsType :=
  if buff.length < 44 then .unknown
  else
    let m := store (fun _ => 0) 0 buff
    if le32 32 m 0 = riffSignature ∧ le32 32 m 8 = riffFormat then .riff
    else if id3TagQuery buff 64 ≠ 0 then .mp3
    else .unknown

def fsType (w : World) (name : Str) (fs : Fs) : FsType × Fs :=
  let (f,fs) := fsOpen w.files name fs
  if f = -1 then (.none,fs)
  else
    let (ret,fs) := fsRead w.typeFault f 64 fs
    let fs := fsClose f fs
    match ret with
    | none => (.unknown,fs)
    | some buff => (typeOfHeader buff,fs)

inductive RiffEnd where
  | data (ptr : Nat) (fmt : Option Nat)
  | unknown
  deriving DecidableEq, Repr

/-- The `try_again` loop. Nothing keeps the cursor inside the buffer, so the walk
is over the whole address space; `none` means that it has not ended. -/
def riffWalk (width : Nat) (m : Mem) : Nat → Nat → Option Nat → Option RiffEnd
  | 0, _, _ => none
  | fuel+1, ptr, fmt =>
      let signature := le32 width m ptr
      let next := (ptr+le32 width m (ptr+4)+8) % 2^width
      if signature = riffFmt then riffWalk width m fuel next (some ((ptr+8) % 2^width))
      else if signature = riffFact then riffWalk width m fuel next fmt
      else if signature = riffData then some (.data ptr fmt)
      else some .unknown

structure RiffInfo where
  rate : SoundRate
  channels : Nat
  dataoff : Nat
  deriving DecidableEq, Repr

/-- The part of `fs_open_riff` between the read and the verdict: `some none` is the
jump to `fail`. -/
def riffInfo (w : World) (bytes : List UInt8) : Option (Option RiffInfo) :=
  let m := store w.stack 0 bytes
  match riffWalk w.width m w.fuel 12 none with
  | none => none
  | some .unknown => some none
  | some (.data _ none) => some none
  | some (.data ptr (some fmt)) =>
      if le16 w.width m fmt ≠ riffFmtPcm then some none
      else
        let rate := sndFreq2rate (le32 w.width m (fmt+4))
        if rate = .unknown then some none
        else some (some ⟨rate,le16 w.width m (fmt+2),ptr % 2^32⟩)

/-- The failure exits all go through `fs_stop`, which closes `fss.handle` and not
the handle that was just opened. -/
def fsOpenRiff (w : World) (name : Str) (fs : Fs) : Option Fs :=
  let (handle,fs) := fsOpen w.files name fs
  if handle = -1 then some (fsStop fs)
  else
    match fsRead w.riffFault handle 128 fs with
    | (none,fs) => some (fsStop fs)
    | (some bytes,fs) =>
        match riffInfo w bytes with
        | none => none
        | some none => some (fsStop fs)
        | some (some info) =>
            some (fsSeek handle info.dataoff { fs with
              rate := info.rate
              channels := info.channels
              type := .riff
              state := .opened
              handle := handle })

def fsOpenMp3 (w : World) (name : Str) (fs : Fs) : Fs :=
  let (handle,fs) := fsOpen w.files name fs
  if handle = -1 then fsStop fs
  else { fs with type := .mp3, state := .opened, handle := handle }

def fsPlay (w : World) (name : Str) (fs : Fs) : Option Fs :=
  match fsType w name fs with
  | (.riff,fs) => fsOpenRiff w name fs
  | (.mp3,fs) => some (fsOpenMp3 w name fs)
  | (_,fs) => some fs

/-- At end of file the pushed slot stays in the ring, empty. -/
def fsPollRiff (fault : Option Nat) (fs : Fs) (io : Io) : Fs × Io :=
  if oFree io = 0 then (fs,io)
  else
    let (p,io) := oPush io
    let out := io.output p
    match fsRead fault fs.handle out.size fs with
    | (none,fs) => (fsStop fs,io)
    | (some [],fs) => (fsStop fs,io)
    | (some bytes,fs) =>
        (fs,setOutput io p { out with
          data := bytes
          used := bytes.length % 2^16
          rate := fs.rate
          channels := fs.channels })

def fsPollMp3 (fault : Option Nat) (fs : Fs) (io : Io) : Fs × Io :=
  if iFree io = 0 then (fs,io)
  else
    let (p,io) := iPush io
    let buff := io.input p
    match fsRead fault fs.handle buff.size fs with
    | (none,fs) => (fsStop fs,io)
    | (some [],fs) => (fsStop fs,io)
    | (some bytes,fs) => (fs,setInput io p { buff with data := bytes, used := bytes.length % 2^16 })

def fsPoll (fault : Option Nat) (fs : Fs) (io : Io) : Fs × Io :=
  if fs.handle = -1 then (fs,io)
  else match fs.type with
    | .riff => fsPollRiff fault fs io
    | .mp3 => fsPollMp3 fault fs io
    | _ => (fs,io)

end Mardio
