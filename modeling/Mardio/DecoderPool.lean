import Mardio.Frames
import Mardio.Salloc

/-!
The memory of the decoder over whole runs of the player. The library takes its two
blocks from the slot allocator when it first decodes, and `libmad_init` forgets them
without giving them back.
-/

set_option autoImplicit false

namespace Mardio
open ByteMem Runs

/-- The pointers of the library's stream and frame. `nomem` is history: an allocation
has failed. -/
structure MadMem where
  sas : Salloc
  mainData : Nat
  overlap : Nat
  nomem : Bool

inductive MadBlock where
  | mainData | overlap
  deriving DecidableEq, Repr

def madBufferMdlen : Nat := 511+2048+madBufferGuard
def madFixedSize : Nat := 4

/-- What the library does about a block before it uses it. -/
def madAllocate (m : MadMem) : MadBlock → MadMem
  | .mainData =>
      if m.mainData = 0 then
        let r := lmaMalloc madBufferMdlen m.sas
        { m with sas := r.2, mainData := r.1, nomem := m.nomem || r.1 == 0 }
      else m
  | .overlap =>
      if m.overlap = 0 then
        let r := lmaCalloc (2*32*18) madFixedSize m.sas
        { m with sas := r.2, overlap := r.1, nomem := m.nomem || r.1 == 0 }
      else m

def madStreamInit (m : MadMem) : MadMem := { m with mainData := 0 }

def madFrameInit (m : MadMem) : MadMem := { m with overlap := 0 }

def madFrameFinish (m : MadMem) : MadMem :=
  if m.overlap ≠ 0 then { m with sas := lmaFree m.overlap m.sas, overlap := 0 } else m

def madStreamFinish (m : MadMem) : MadMem :=
  if m.mainData ≠ 0 then { m with sas := lmaFree m.mainData m.sas, mainData := 0 } else m

/-- `libmad_init` and `libmad_done` as far as they are about memory. -/
def libmadInitMem (m : MadMem) : MadMem := madFrameInit (madStreamInit m)

def libmadDoneMem (m : MadMem) : MadMem := madStreamFinish (madFrameFinish m)

structure Board where
  sys : Sys
  mem : MadMem

/-- A call of the player with the blocks the library asks for meanwhile, or a call of
a sound driver that does what it likes with its own state and the output ring. -/
inductive BoardOp where
  | call (op : SysOp) (blocks : List MadBlock)
  | sound (ss : Ss) (o : IoS maxOutputBuffers) (output : Fin maxOutputBuffers → Output)

/-- The call gets as far as the library. -/
def libmadEnters (pl : PlState) (ls : Ls) (io : Io) : Bool :=
  libmadReady pl ls io && decide ((libmadInput ls io).1 ≠ .stop)

/-- `pl_stop` has called `libmad_done` if the player was active. -/
def stopMem (s : Board) : MadMem := if s.sys.pl.state.active then libmadDoneMem s.mem else s.mem

/-- A poll stops the player at most once: it is not active afterwards. -/
def callMem (s : Board) (blocks : List MadBlock) : SysOp → MadMem
  | .play _ _ _ => libmadInitMem (stopMem s)
  | .stop => stopMem s
  | .poll => if (plPoll s.sys).pl.state.active then s.mem else stopMem s
  | .madLoop _ => if libmadEnters s.sys.pl.state s.sys.ls s.sys.io
      then blocks.foldl madAllocate s.mem else s.mem
  | _ => s.mem

def boardStep (s : Board) : BoardOp → Option Board
  | .call op blocks => (sysStep s.sys op).map fun t => ⟨t,callMem s blocks op⟩
  | .sound ss o output =>
      some { s with
        sys := { s.sys with ss := ss, io := { s.sys.io with o := o, output := output } } }

def boardStart (entries : List ResEntry) (snd : Bool) (pool : ℕ+) (mem : Mem) : Board :=
  ⟨sysInit entries snd,⟨lmaInit (libmadAlloc pool mem),0,0,false⟩⟩

/-- No slot is in use when a play called in this state gets to `libmad_init`, and no
allocation has failed so far. -/
def PoolSafe (s : Board) : Prop :=
  (∀ slot ∈ (stopMem s).sas.slots, slot.state = .empty) ∧ (stopMem s).sas.usedSlots = 0 ∧
    s.mem.nomem = false

def slotFor (b : Bool) (size allocated data : Nat) : Slot :=
  if b then ⟨.used,size,allocated,data⟩ else ⟨.empty,size,0,data⟩

/-- A block is in use exactly when the library has the pointer to it. -/
structure MemShape (pool : ℕ+) (a b : Bool) (m : MadMem) : Prop where
  mainData : m.mainData = if a then pool.val else 0
  overlap : m.overlap = if b then pool.val+3*1024 else 0
  slots : m.sas.slots =
    [slotFor a (3*1024) madBufferMdlen pool,slotFor b (5*1024) (2*32*18*madFixedSize) (pool+3*1024)]
  usedSlots : m.sas.usedSlots = a.toNat+b.toNat
  enough : m.nomem = false

theorem start_shape (entries : List ResEntry) (snd : Bool) (pool : ℕ+) (mem : Mem) :
    MemShape pool false false (boardStart entries snd pool mem).mem := ⟨rfl,rfl,rfl,rfl,rfl⟩

variable {pool : ℕ+} {a b : Bool} {m : MadMem}

theorem saAlloc_mainData (h : MemShape pool false b m) :
    saAlloc madBufferMdlen m.sas = (pool.val,{ m.sas with
      slots := [slotFor true (3*1024) madBufferMdlen pool,
        slotFor b (5*1024) (2*32*18*madFixedSize) (pool+3*1024)]
      usedSlots := 1+b.toNat }) := by
  cases b <;> simp [saAlloc,h.slots,h.usedSlots,takeSlot,slotFor,madBufferMdlen,madBufferGuard]

theorem saAlloc_overlap (h : MemShape pool a false m) :
    saAlloc (2*32*18*madFixedSize) m.sas = (pool.val+3*1024,{ m.sas with
      slots := [slotFor a (3*1024) madBufferMdlen pool,
        slotFor true (5*1024) (2*32*18*madFixedSize) (pool+3*1024)]
      usedSlots := a.toNat+1 }) := by
  cases a <;> simp [saAlloc,h.slots,h.usedSlots,takeSlot,slotFor,madFixedSize]

theorem MemShape.allocate_mainData (h : MemShape pool a b m) :
    MemShape pool true b (madAllocate m .mainData) := by
  cases a with
  | true =>
    have hm : m.mainData ≠ 0 := by simp [h.mainData]
    rw [madAllocate,if_neg hm]
    exact h
  | false =>
    have hm : m.mainData = 0 := by simp [h.mainData]
    rw [madAllocate,if_pos hm,lmaMalloc,saAlloc_mainData h]
    exact ⟨rfl,h.overlap,rfl,rfl,by simp [h.enough]⟩

theorem MemShape.allocate_overlap (h : MemShape pool a b m) :
    MemShape pool a true (madAllocate m .overlap) := by
  cases b with
  | true =>
    have hm : m.overlap ≠ 0 := by simp [h.overlap]
    rw [madAllocate,if_neg hm]
    exact h
  | false =>
    have hm : m.overlap = 0 := by simp [h.overlap]
    have htotal : 2*32*18*madFixedSize % 2^32 = 2*32*18*madFixedSize := by decide
    have hcalloc : ∃ mem, lmaCalloc (2*32*18) madFixedSize m.sas = (pool.val+3*1024,{ m.sas with
        slots := [slotFor a (3*1024) madBufferMdlen pool,
          slotFor true (5*1024) (2*32*18*madFixedSize) (pool+3*1024)]
        usedSlots := a.toNat+1
        mem := mem }) := by
      rw [lmaCalloc,saCalloc,htotal,saAlloc_overlap h]
      exact ⟨ucMemset m.sas.mem (pool+3*1024) 0 (2*32*18*madFixedSize),by simp [madFixedSize]⟩
    obtain ⟨mem,hc⟩ := hcalloc
    rw [madAllocate,if_pos hm,hc]
    exact ⟨h.mainData,rfl,rfl,rfl,by simp [h.enough]⟩

theorem MemShape.allocate (h : MemShape pool a b m) (blocks : List MadBlock) :
    ∃ a' b', MemShape pool a' b' (blocks.foldl madAllocate m) := by
  induction blocks generalizing a b m with
  | nil => exact ⟨a,b,h⟩
  | cons block blocks ih =>
    cases block with
    | mainData => exact ih h.allocate_mainData
    | overlap => exact ih h.allocate_overlap

theorem MemShape.frameFinish (h : MemShape pool a b m) :
    MemShape pool a false (madFrameFinish m) := by
  cases b with
  | false =>
    have hm : ¬ m.overlap ≠ 0 := by simp [h.overlap]
    rw [madFrameFinish,if_neg hm]
    exact h
  | true =>
    have hm : m.overlap ≠ 0 := by simp [h.overlap]
    rw [madFrameFinish,if_pos hm]
    refine ⟨h.mainData,rfl,?_,?_,h.enough⟩ <;>
      cases a <;> simp [lmaFree,saFree,h.overlap,h.slots,h.usedSlots,releaseSlot,slotFor]

theorem MemShape.streamFinish (h : MemShape pool a b m) :
    MemShape pool false b (madStreamFinish m) := by
  cases a with
  | false =>
    have hm : ¬ m.mainData ≠ 0 := by simp [h.mainData]
    rw [madStreamFinish,if_neg hm]
    exact h
  | true =>
    have hm : m.mainData ≠ 0 := by simp [h.mainData]
    rw [madStreamFinish,if_pos hm]
    refine ⟨rfl,h.overlap,?_,?_,h.enough⟩ <;>
      cases b <;> simp [lmaFree,saFree,h.mainData,h.slots,h.usedSlots,releaseSlot,slotFor]

theorem MemShape.done (h : MemShape pool a b m) : MemShape pool false false (libmadDoneMem m) :=
  h.frameFinish.streamFinish

theorem MemShape.init (h : MemShape pool false false m) :
    MemShape pool false false (libmadInitMem m) :=
  ⟨rfl,rfl,h.slots,h.usedSlots,h.enough⟩

/-- While the player is stopped there is nothing to decode, and the decoder has no
memory. -/
structure BoardInv (pool : ℕ+) (s : Board) : Prop where
  sys : SysInv (fun _ => True) s.sys
  quiet : s.sys.pl.state.active = false → s.sys.ls.state = .init → iUsed s.sys.io = 0
  shape : ∃ a b, MemShape pool a b s.mem
  idle : s.sys.pl.state.active = false → MemShape pool false false s.mem

theorem SysInv.stopped {Q : (Nat → FsSource) → Prop} {s : Sys} (h : SysInv Q s)
    (ha : s.pl.state.active = false) : s.pl.state = .stop := by
  have hk := h.known
  cases hp : s.pl.state <;> simp_all [PlState.active]

theorem BoardInv.stopMem {s : Board} (h : BoardInv pool s) :
    MemShape pool false false (stopMem s) := by
  obtain ⟨a,b,hs⟩ := h.shape
  cases ha : s.sys.pl.state.active with
  | true => simpa [Mardio.stopMem,ha] using hs.done
  | false => simpa [Mardio.stopMem,ha] using h.idle ha

theorem BoardInv.safe {s : Board} (h : BoardInv pool s) : PoolSafe s := by
  obtain ⟨a,b,hs⟩ := h.shape
  refine ⟨?_,h.stopMem.usedSlots,hs.enough⟩
  rw [h.stopMem.slots]
  simp [slotFor]

theorem BoardInv.notEntered {s : Board} (h : BoardInv pool s) (ha : s.sys.pl.state.active = false) :
    libmadReady s.sys.pl.state s.sys.ls s.sys.io = false := by
  have hq := h.quiet ha
  by_cases hi : s.sys.ls.state = .init
  · simp [libmadReady,hq hi]
  · simp [libmadReady,hi]

/-- When a poll has stopped the player it has finished the decoder. -/
theorem plPoll_decoder {s : Sys} (ha : s.pl.state.active = true) :
    (plPoll s).pl.state.active = true ∨ (plPoll s).ls.state = .done := by
  refine plPoll_keeps (P := fun t => t.pl.state.active = true ∨ t.ls.state = .done)
    (fun _ _ hst _ => .inl hst) (fun t ht => ?_) (.inl ha)
  unfold plStop
  split
  · exact .inr rfl
  · exact ht

theorem ioInit_iUsed (io : Io) : iUsed (ioInit io) = 0 := by
  simp [iUsed,ioUsed,ioInit,ioResetOutput,ioResetInput]

theorem BoardInv.play {s : Board} {t : Sys} (h : BoardInv pool s) {w : World} {o : NetOpen}
    {what : Str} (hp : plPlay w o what s.sys = some t) :
    BoardInv pool ⟨t,libmadInitMem (Mardio.stopMem s)⟩ := by
  have hm := h.stopMem.init
  refine ⟨h.sys.play hp fun _ _ _ _ => trivial,fun ha _ => ?_,⟨false,false,hm⟩,fun _ => hm⟩
  -- the rings were reset, and a play that leaves the player stopped pushes nothing
  have hio : t.io = ioInit s.sys.io := by
    cases hu : isHttp what with
    | true => rw [plPlay_url hu hp]; rfl
    | false =>
      obtain ⟨out,fs,_,_,rfl⟩ := plPlay_file h.sys hu hp
      unfold plSwitch
      split <;> simp [plStop_io,setPlState,withFile,plReset]
  rw [hio]
  exact ioInit_iUsed s.sys.io

theorem BoardInv.stop {s : Board} (h : BoardInv pool s) :
    BoardInv pool ⟨plStop s.sys,Mardio.stopMem s⟩ := by
  refine ⟨h.sys.stop.1,fun _ hi => ?_,⟨false,false,h.stopMem⟩,fun _ => h.stopMem⟩
  cases ha : s.sys.pl.state.active with
  | true => simp [plStop,ha,libmadDone] at hi
  | false =>
    have he : plStop s.sys = s.sys := by simp [plStop,ha]
    rw [he] at hi ⊢
    exact h.quiet ha hi

theorem BoardInv.poll {s : Board} (h : BoardInv pool s) :
    BoardInv pool ⟨plPoll s.sys,if (plPoll s.sys).pl.state.active then s.mem
      else Mardio.stopMem s⟩ := by
  refine ⟨h.sys.poll,fun hn hi => ?_,?_,fun hn => ?_⟩
  · cases ha : s.sys.pl.state.active with
    | true =>
      obtain hact | hdone := plPoll_decoder ha
      · simp_all
      · simp_all
    | false =>
      have he : plPoll s.sys = s.sys := by simp [plPoll,ha]
      rw [he] at hi ⊢
      exact h.quiet ha hi
  · split
    · exact h.shape
    · exact ⟨false,false,h.stopMem⟩
  · simp only at hn
    rw [hn]
    exact h.stopMem

/-- What keeps the player, the input ring and the state of the decoder, unless the
player is active, keeps the invariant. -/
theorem BoardInv.keep {s : Board} {t : Sys} (h : BoardInv pool s) (ht : SysInv (fun _ => True) t)
    (hpl : t.pl.state = s.sys.pl.state)
    (hsame : s.sys.pl.state.active = false → t.ls = s.sys.ls ∧ t.io.i = s.sys.io.i) :
    BoardInv pool ⟨t,s.mem⟩ := by
  refine ⟨ht,fun ha hi => ?_,h.shape,fun ha => ?_⟩
  · simp only [hpl] at ha
    obtain ⟨hls,hio⟩ := hsame ha
    simp only [hls] at hi
    rw [iUsed,hio]
    exact h.quiet ha hi
  · simp only [hpl] at ha
    exact h.idle ha

theorem BoardInv.step {s t : Board} {op : BoardOp} (h : BoardInv pool s)
    (hs : boardStep s op = some t) :
    BoardInv pool t := by
  cases op with
  | sound ss o output =>
    cases hs
    exact h.keep ⟨h.sys.known,h.sys.file,h.sys.idle,h.sys.exclusive,h.sys.typed⟩ rfl fun _ =>
      ⟨rfl,rfl⟩
  | call op blocks =>
    obtain ⟨u,hu,rfl⟩ := Option.map_eq_some_iff.mp hs
    have hsys : SysInv (fun _ => True) u := h.sys.step hu fun _ _ _ _ _ _ _ _ => trivial
    cases op with
    | play w o what => exact h.play hu
    | stop =>
      cases hu
      exact h.stop
    | poll =>
      cases hu
      exact h.poll
    | volume v =>
      cases hu
      exact h.keep hsys rfl fun _ => ⟨rfl,rfl⟩
    | fsPoll fault =>
      cases hu
      refine h.keep hsys rfl fun ha => ⟨rfl,?_⟩
      have hh := (h.sys.idle (h.sys.stopped ha)).1
      simp [fsPoll,hh]
    | netPoll o =>
      cases hu
      refine h.keep hsys rfl fun ha => ⟨rfl,?_⟩
      have hn := (h.sys.idle (h.sys.stopped ha)).2
      simp [hostNetPoll,hn]
    | sndLoop os =>
      cases hu
      refine h.keep hsys rfl fun _ => ⟨rfl,?_⟩
      have hr := (hostSndLoop_rings s.sys.pl.state s.sys.pl.volume os s.sys.ss s.sys.io).1
      exact congrArg (fun r => (⟨r.head,r.tail⟩ : IoS maxInputBuffers)) hr
    | madLoop its =>
      cases hu
      cases ha : s.sys.pl.state.active with
      | false =>
        have hr := h.notEntered ha
        have hm : callMem s blocks (.madLoop its) = s.mem := by simp [callMem,libmadEnters,hr]
        rw [hm]
        refine h.keep hsys rfl fun _ => ?_
        simp [libmadLoop_idle hr]
      | true =>
        refine ⟨hsys,fun hn => ?_,?_,fun hn => ?_⟩
        · cases ha.symm.trans hn
        · obtain ⟨a,b,hm⟩ := h.shape
          simp only [callMem]
          split
          · exact hm.allocate blocks
          · exact ⟨a,b,hm⟩
        · cases ha.symm.trans hn

/-- The decoder's pool is empty whenever the decoder is initialised, and never runs
out. -/
theorem boardRun_poolSafe (entries : List ResEntry) (snd : Bool) (pool : ℕ+) (mem : Mem)
    (ops : List BoardOp) :
    Always boardStep PoolSafe (boardStart entries snd pool mem) ops := by
  have hmem := start_shape entries snd pool mem
  exact always_of_invariant (I := BoardInv pool) (fun _ h => h.safe)
    (fun _ _ _ h hs => h.step hs) ops _
    ⟨sysInit_inv entries snd trivial,fun _ _ => ioInit_iUsed Io.zero,⟨false,false,hmem⟩,
      fun _ => hmem⟩

end Mardio
