import Mardio.Lib.Orbits
import Mardio.RiffBounds

/-!
Whether the walk over the chunks of a RIFF file ends. The cursor moves by the size in
the file plus 8, modulo the size of the address space, and only the bytes under it
decide where it goes next.
-/

set_option autoImplicit false

namespace Mardio
open ByteMem Orbits

/-- How far the cursor moves; at a data or unknown chunk it stays. -/
def chunkLength (width : Nat) (m : Mem) (ptr : Nat) : Option Nat :=
  if le32 width m ptr = riffFmt ∨ le32 width m ptr = riffFact then some (le32 width m (ptr+4)+8)
    else none

def chunkNext (width : Nat) (m : Mem) (ptr : Nat) : Option Nat :=
  (chunkLength width m ptr).map fun length => (ptr+length) % 2^width

/-- The lengths of the next `n` chunks, if the walk gets past all of them. -/
def chunkLengths (width : Nat) (m : Mem) : Nat → Nat → Option (List Nat)
  | 0, _ => some []
  | n+1, ptr => (chunkLength width m ptr).bind fun length =>
      (chunkLengths width m n ((ptr+length) % 2^width)).map (length :: ·)

variable {width : Nat} {m : Mem}

/-- What the walk remembers of a format chunk has no part in it. -/
theorem riffWalk_ends (n ptr : Nat) (fmt : Option Nat) :
    (∃ e, riffWalk width m n ptr fmt = some e) ↔ orbit (chunkNext width m) n ptr = none := by
  induction n generalizing ptr fmt with
  | zero => simp [riffWalk,orbit]
  | succ n ih =>
    have hnext := Nat.add_assoc ptr (le32 width m (ptr+4)) 8
    by_cases hfmt : le32 width m ptr = riffFmt
    · simp [riffWalk,orbit,chunkNext,chunkLength,hfmt,hnext,ih]
    by_cases hfact : le32 width m ptr = riffFact
    · have hne : riffFact ≠ riffFmt := by decide
      simp [riffWalk,orbit,chunkNext,chunkLength,hfact,hne,hnext,ih]
    by_cases hdata : le32 width m ptr = riffData
    · have hne : riffData ≠ riffFmt ∧ riffData ≠ riffFact := by decide
      simp [riffWalk,orbit,chunkNext,chunkLength,hdata,hne]
    · simp [riffWalk,orbit,chunkNext,chunkLength,hfmt,hfact,hdata]

/-- Following the walk further does not change where it ended. -/
theorem riffWalk_mono {a b ptr : Nat} {fmt : Option Nat} {e : RiffEnd} (hab : a ≤ b)
    (he : riffWalk width m a ptr fmt = some e) : riffWalk width m b ptr fmt = some e := by
  induction a generalizing b ptr fmt with
  | zero => cases he
  | succ a ih =>
    cases b with
    | zero => omega
    | succ b =>
      have hrest : ∀ {ptr fmt}, riffWalk width m a ptr fmt = some e →
          riffWalk width m b ptr fmt = some e :=
        ih (Nat.le_of_succ_le_succ hab)
      rw [riffWalk] at he ⊢
      split at he
      · rename_i hfmt
        rw [if_pos hfmt]
        exact hrest he
      · rename_i hfmt
        rw [if_neg hfmt]
        split at he
        · rename_i hfact
          rw [if_pos hfact]
          exact hrest he
        · rename_i hfact
          rw [if_neg hfact]
          exact he

theorem chunkLengths_orbit {n ptr : Nat} (hp : ptr < 2^width) :
    orbit (chunkNext width m) n ptr = (chunkLengths width m n ptr).map fun lengths =>
      (ptr+lengths.sum) % 2^width := by
  induction n generalizing ptr with
  | zero => simp [orbit,chunkLengths,Nat.mod_eq_of_lt hp]
  | succ n ih =>
    cases hl : chunkLength width m ptr with
    | none => simp [orbit,chunkNext,chunkLengths,hl]
    | some length =>
      have hrest := ih (Nat.mod_lt (ptr+length) (Nat.two_pow_pos width))
      simp [orbit,chunkNext,chunkLengths,hl,hrest,Function.comp_def,Nat.add_assoc]

theorem chunkLengths_length {n ptr : Nat} {lengths : List Nat}
    (hl : chunkLengths width m n ptr = some lengths) :
    lengths.length = n := by
  induction n generalizing ptr lengths with
  | zero =>
    cases hl
    rfl
  | succ n ih =>
    simp only [chunkLengths,Option.bind_eq_some_iff,Option.map_eq_some_iff] at hl
    obtain ⟨length,-,rest,hrest,rfl⟩ := hl
    rw [List.length_cons,ih hrest]

theorem chunkLengths_append {n k ptr : Nat} (hp : ptr < 2^width) {front run : List Nat}
    (hn : front.length = n) :
    chunkLengths width m (n+k) ptr = some (front ++ run) ↔
      chunkLengths width m n ptr = some front ∧
        chunkLengths width m k ((ptr+front.sum) % 2^width) = some run := by
  induction n generalizing ptr front with
  | zero =>
    obtain rfl := List.length_eq_zero_iff.mp hn
    simp [chunkLengths,Nat.mod_eq_of_lt hp]
  | succ n ih =>
    obtain ⟨l,front,rfl⟩ := List.exists_cons_of_length_eq_add_one hn
    have hrest := ih (Nat.mod_lt (ptr+l) (Nat.two_pow_pos width)) (by simpa using hn)
    simp only [Nat.mod_add_mod,Nat.add_assoc] at hrest
    rw [Nat.succ_add]
    cases hl : chunkLength width m ptr with
    | none => simp [chunkLengths,hl]
    | some length =>
      simp only [chunkLengths,hl,Option.bind_some,Option.map_eq_some_iff,List.cons_append,
        List.cons.injEq,List.sum_cons]
      grind

theorem chunkNext_visited {ptr : Nat} (hp : ptr < 2^width) :
    {t | ∃ n, orbit (chunkNext width m) n ptr = some t}.Finite := by
  refine (Set.finite_lt_nat (2^width)).subset ?_
  rintro t ⟨n,hn⟩
  rw [chunkLengths_orbit hp,Option.map_eq_some_iff] at hn
  obtain ⟨lengths,-,rfl⟩ := hn
  exact Nat.mod_lt _ (Nat.two_pow_pos _)

/-- The walk ends exactly if it never comes back to a place: no chunks that follow each
other on it have lengths that add up to a multiple of the address space. -/
theorem riffWalk_chunks_iff (hstart : 12 < 2^width) :
    (∃ fuel e, riffWalk width m fuel 12 none = some e) ↔
      ∀ n front run, chunkLengths width m n 12 = some (front ++ run) → run ≠ [] →
        ¬ 2^width ∣ run.sum := by
  simp only [riffWalk_ends]
  rw [orbit_ends_iff (chunkNext_visited hstart)]
  constructor
  · intro hnew n front run hl hne hdvd
    have hlen := chunkLengths_length hl
    rw [List.length_append] at hlen
    rw [← hlen,chunkLengths_append hstart rfl] at hl
    obtain ⟨k,hk⟩ := Nat.exists_eq_add_one_of_ne_zero (mt List.length_eq_zero_iff.mp hne)
    refine hnew front.length k ((12+front.sum) % 2^width) ?_ ?_
    · rw [chunkLengths_orbit hstart,hl.1,Option.map_some]
    · rw [chunkLengths_orbit (Nat.mod_lt _ (Nat.two_pow_pos _)),← hk,hl.2,Option.map_some,
        Nat.mod_add_mod,Nat.add_mod,Nat.mod_eq_zero_of_dvd hdvd,Nat.add_zero,Nat.mod_mod]
  · intro hsum n k t hn hk
    rw [chunkLengths_orbit hstart,Option.map_eq_some_iff] at hn
    obtain ⟨front,hfront,rfl⟩ := hn
    rw [chunkLengths_orbit (Nat.mod_lt _ (Nat.two_pow_pos _)),Option.map_eq_some_iff] at hk
    obtain ⟨run,hrun,hback⟩ := hk
    have hne : run ≠ [] := by
      rintro rfl
      have hlen := chunkLengths_length hrun
      cases hlen
    refine hsum _ front run ((chunkLengths_append hstart (chunkLengths_length hfront)).mpr
      ⟨hfront,hrun⟩) hne ?_
    have hsame : (12+front.sum+run.sum) ≡ 12+front.sum+0 [MOD 2^width] := by
      rw [Nat.ModEq,Nat.add_zero,← hback,Nat.mod_add_mod]
    exact (Nat.modEq_zero_iff_dvd).mp (Nat.ModEq.add_left_cancel' _ hsame)

/-- The walk of the STM32 ends exactly if the lengths of no chunks that follow each
other on it add up to a multiple of the address space. -/
theorem riffWalk_ends_iff (m : Mem) :
    (∃ fuel e, riffWalk 32 m fuel 12 none = some e) ↔
      ∀ n front run, chunkLengths 32 m n 12 = some (front ++ run) → run ≠ [] → ¬ 2^32 ∣ run.sum :=
  riffWalk_chunks_iff (by decide)

/-- A file of 44 bytes whose format chunk claims a size of -8. -/
def roundRiff : List UInt8 :=
  [0x52,0x49,0x46,0x46,36,0,0,0,0x57,0x41,0x56,0x45,0x66,0x6d,0x74,0x20,0xf8,0xff,0xff,0xff] ++
    List.replicate 24 0

theorem roundRiff_words : word32 roundRiff 12 = riffFmt ∧ word32 roundRiff 16 = 2^32-8 := by
  decide +kernel

theorem roundRiff_stays (stack : Mem) : chunkNext 32 (store stack 0 roundRiff) 12 = some 12 := by
  let b : RiffBuff := ⟨roundRiff,stack,32,by decide,by decide⟩
  have hlen : b.bytes.length = 44 := rfl
  have hsignature : le32 32 b.mem 12 = riffFmt := (le32_inside (by omega)).trans roundRiff_words.1
  have hsize : le32 32 b.mem 16 = 2^32-8 := (le32_inside (by omega)).trans roundRiff_words.2
  have hlength : chunkLength 32 b.mem 12 = some (2^32-8+8) := by
    rw [chunkLength,if_pos (.inl hsignature),hsize]
  exact congrArg (Option.map fun length => (12+length) % 2^32) hlength

theorem roundRiff_walk (stack : Mem) (fuel : Nat) (fmt : Option Nat) :
    riffWalk 32 (store stack 0 roundRiff) fuel 12 fmt = none := by
  have hstay : orbit (chunkNext 32 (store stack 0 roundRiff)) 1 12 = some 12 := by
    rw [orbit,roundRiff_stays,Option.bind_some,orbit]
  have hround := orbit_ne_none (n := 0) (k := 0) rfl hstay fuel
  rw [Option.eq_none_iff_forall_ne_some]
  exact fun e he => hround ((riffWalk_ends fuel 12 fmt).mp ⟨e,he⟩)

/-- `fs_type` takes it for a RIFF file, and the walk stays at its first chunk. -/
theorem riffWalk_round :
    typeOfHeader roundRiff = .riff ∧
      ¬ ∃ fuel e, riffWalk 32 (store (fun _ => 0) 0 roundRiff) fuel 12 none = some e := by
  refine ⟨by decide +kernel,?_⟩
  rintro ⟨fuel,e,he⟩
  rw [roundRiff_walk] at he
  cases he

end Mardio
