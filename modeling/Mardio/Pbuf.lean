import Mardio.Stm32Net

/-!
Received data as the TCP stack of the board hands it over: a chain of packet
buffers that `net_lwip_build_buffer` flattens into one buffer of its caller.
-/

set_option autoImplicit false

namespace Mardio
open ByteMem

/-- One link. `totLen` counts the bytes of this link and of all behind it. -/
structure Pbuf where
  totLen : UInt16
  len : UInt16
  payload : Mem

def Pbuf.bytes (q : Pbuf) : Str := window q.payload 0 q.len.toNat

/-- The links from `p` on; no link is the null pointer. -/
abbrev Chain := List Pbuf

def Chain.bytes (p : Chain) : Str := p.flatMap Pbuf.bytes

def Chain.lens (p : Chain) : Nat := (p.map fun q => q.len.toNat).sum

/-- The calls that give the memory of a chain back to the stack. -/
inductive LwipCall where
  | tcpRecved (len : Nat)
  | pbufFree
  deriving DecidableEq, Repr

/-- The loop over the links, with the offset `tmp_len`. -/
def copyChain (m : Mem) (buf : Nat) : Chain → Nat → Mem × Nat
  | [], tmpLen => (m,tmpLen)
  | q :: rest, tmpLen => copyChain (store m (buf+tmpLen) q.bytes) buf rest (tmpLen+q.len.toNat)

structure Built where
  ret : Int
  mem : Mem
  net : StmNet
  calls : List LwipCall

/-- `net_lwip_build_buffer` on a buffer of `bufLen` bytes at `buf`. Both exits give
back `p->tot_len` bytes, so there is no result for the null pointer. -/
def netLwipBuildBufferIn (p : Chain) (m : Mem) (buf : Nat) (bufLen : Int) (n : StmNet) :
    Option Built :=
  match p with
  | [] => none
  | q :: rest =>
      let r : Int × Mem × StmNet :=
        if (q.totLen.toNat : Int) > bufLen then (-1,m,setLink n .error)
        else
          let c := copyChain (ucMemset m buf 0 bufLen.toNat) buf (q :: rest) 0
          (c.2,c.1,n)
      some ⟨r.1,r.2.1,r.2.2,[.tcpRecved q.totLen.toNat,.pbufFree]⟩

theorem Chain.bytes_cons (q : Pbuf) (rest : Chain) :
    Chain.bytes (q :: rest) = q.bytes ++ rest.bytes := rfl

theorem Chain.lens_cons (q : Pbuf) (rest : Chain) :
    Chain.lens (q :: rest) = q.len.toNat+rest.lens := rfl

@[simp] theorem Pbuf.bytes_length (q : Pbuf) : q.bytes.length = q.len.toNat := window_length _ _ _

@[simp] theorem Chain.bytes_length (p : Chain) : p.bytes.length = p.lens := by
  induction p with
  | nil => rfl
  | cons q rest ih =>
    rw [Chain.bytes_cons,List.length_append,ih,Pbuf.bytes_length,Chain.lens_cons]

/-- Link after link at a running offset is one copy of all the bytes. -/
theorem copyChain_eq (m : Mem) (buf : Nat) (p : Chain) (tmpLen : Nat) :
    copyChain m buf p tmpLen = (store m (buf+tmpLen) p.bytes,tmpLen+p.lens) := by
  induction p generalizing m tmpLen with
  | nil => rfl
  | cons q rest ih =>
    rw [copyChain,ih,Chain.bytes_cons,Chain.lens_cons,store_append,Pbuf.bytes_length,
      Nat.add_assoc buf,Nat.add_assoc tmpLen]

/-- Clearing the buffer and copying the chain to its start. -/
theorem flattened_window {p : Chain} {k : Nat} (hk : p.lens ≤ k) (m : Mem) (buf : Nat) :
    window (store (ucMemset m buf 0 k) buf p.bytes) buf k =
      p.bytes ++ List.replicate (k-p.lens) 0 := by
  have hclear : window (ucMemset m buf 0 k) buf k = List.replicate k 0 := by
    have h := store_window m buf (List.replicate k 0)
    rwa [List.length_replicate,← ucMemset_eq_store] at h
  rw [store_window_front _ _ _ _ (by simpa using hk),hclear,List.drop_replicate,Chain.bytes_length]

theorem flattened_outside {p : Chain} {k : Nat} (hk : p.lens ≤ k) (m : Mem) (buf : Nat) {a : Nat}
    (ha : a < buf ∨ buf+k ≤ a) : store (ucMemset m buf 0 k) buf p.bytes a = m a := by
  rw [store_outside _ _ _ _ (by rw [Chain.bytes_length]; omega),ucMemset_eq_store,
    store_outside _ _ _ _ (by simpa using ha)]

section
variable {q : Pbuf} {rest : Chain} {bufLen : Int}

theorem netLwipBuildBufferIn_refuses (h : bufLen < q.totLen.toNat) (m : Mem) (buf : Nat)
    (n : StmNet) :
    netLwipBuildBufferIn (q :: rest) m buf bufLen n =
      some ⟨-1,m,setLink n .error,[.tcpRecved q.totLen.toNat,.pbufFree]⟩ := by
  rw [netLwipBuildBufferIn]
  simp only [if_pos (show (q.totLen.toNat : Int) > bufLen from h)]

theorem netLwipBuildBufferIn_fits (hsum : q.totLen.toNat = Chain.lens (q :: rest))
    (h : q.totLen.toNat ≤ bufLen) (m : Mem) (buf : Nat) (n : StmNet) :
    netLwipBuildBufferIn (q :: rest) m buf bufLen n =
      some ⟨q.totLen.toNat,store (ucMemset m buf 0 bufLen.toNat) buf (Chain.bytes (q :: rest)),n,
        [.tcpRecved q.totLen.toNat,.pbufFree]⟩ := by
  have hfit : ¬ (q.totLen.toNat : Int) > bufLen := by omega
  rw [netLwipBuildBufferIn]
  simp only [if_neg hfit,copyChain_eq,Nat.add_zero,Nat.zero_add,← hsum]

end

/-- What a call of `net_lwip_build_buffer` for a chain of `totLen` bytes does. -/
structure Flattens (p : Chain) (totLen : Nat) (m : Mem) (buf : Nat) (bufLen : Int) (n : StmNet)
    (r : Built) : Prop where
  stored : totLen ≤ bufLen →
    window r.mem buf bufLen.toNat = p.bytes ++ List.replicate (bufLen.toNat-totLen) 0
  outside : totLen ≤ bufLen → ∀ a, a < buf ∨ buf+bufLen.toNat ≤ a → r.mem a = m a
  returned : totLen ≤ bufLen → r.ret = totLen ∧ r.net = n
  refused : bufLen < totLen → r.mem = m ∧ r.ret = -1 ∧ r.net = setLink n .error
  calls : r.calls = [.tcpRecved totLen,.pbufFree]

theorem netLwipBuildBufferIn_flattens (q : Pbuf) (rest : Chain)
    (hsum : q.totLen.toNat = Chain.lens (q :: rest)) (m : Mem) (buf : Nat) (bufLen : Int)
    (n : StmNet) :
    ∃ r, netLwipBuildBufferIn (q :: rest) m buf bufLen n = some r ∧
      Flattens (q :: rest) q.totLen.toNat m buf bufLen n r := by
  by_cases hfit : q.totLen.toNat ≤ bufLen
  · have hk : Chain.lens (q :: rest) ≤ bufLen.toNat := by omega
    refine ⟨_,netLwipBuildBufferIn_fits hsum hfit m buf n,?_⟩
    refine ⟨fun _ => ?_,fun _ a ha => flattened_outside hk m buf ha,fun _ => ⟨rfl,rfl⟩,?_,rfl⟩
    · rw [hsum]
      exact flattened_window hk m buf
    · omega
  · refine ⟨_,netLwipBuildBufferIn_refuses (by omega) m buf n,?_⟩
    refine ⟨?_,?_,?_,fun _ => ⟨rfl,rfl,rfl⟩,rfl⟩ <;> omega

/-- Two links, of two bytes and one, in a buffer of four. -/
theorem netLwipBuildBufferIn_flattens_two :
    ∃ r, netLwipBuildBufferIn [⟨3,2,fun _ => 65⟩,⟨1,1,fun _ => 66⟩] (fun _ => 7) 8 4 stmNetInit =
      some r ∧
      window r.mem 8 4 = [65,65,66,0] ∧ r.mem 12 = 7 ∧ r.ret = 3 ∧
      r.calls = [.tcpRecved 3,.pbufFree] := by
  obtain ⟨r,hr,hf⟩ := netLwipBuildBufferIn_flattens ⟨3,2,fun _ => 65⟩ [⟨1,1,fun _ => 66⟩]
    (by decide)
    (fun _ => 7) 8 4 stmNetInit
  exact ⟨r,hr,hf.stored (by decide),hf.outside (by decide) 12 (by decide),
    (hf.returned (by decide)).1,hf.calls⟩

/-- The other modules see the chain as its bytes. -/
theorem netLwipBuildBufferIn_eq {q : Pbuf} {rest : Chain}
    (hsum : q.totLen.toNat = Chain.lens (q :: rest)) (m : Mem) (buf bufLen : Nat) (n : StmNet) :
    ∃ r, netLwipBuildBufferIn (q :: rest) m buf bufLen n = some r ∧
      netLwipBuildBuffer (some (Chain.bytes (q :: rest))) bufLen n =
        (r.ret,window r.mem buf r.ret.toNat,r.net) := by
  have hlen := Chain.bytes_length (q :: rest)
  by_cases hfit : q.totLen.toNat ≤ bufLen
  · refine ⟨_,netLwipBuildBufferIn_fits hsum (by omega) m buf n,?_⟩
    rw [netLwipBuildBuffer,if_neg (by omega)]
    simp only [Int.toNat_natCast,hsum,← hlen,store_window]
  · refine ⟨_,netLwipBuildBufferIn_refuses (by omega) m buf n,?_⟩
    rw [netLwipBuildBuffer,if_pos (by omega)]
    rfl

end Mardio
