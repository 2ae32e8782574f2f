import Mathlib

/-!
A ring of `n` slots addressed by two free-running 32-bit counters. A slot is
found by reducing a counter modulo `n`; when `n` divides `2^32` this survives
the wrap of the counters, so the queue the ring stands for is read off by
walking `used` slots from `tail`.
-/

set_option autoImplicit false

structure CounterRing (β : Type) (n : Nat) where
  head : UInt32
  tail : UInt32
  slots : Fin n → β

namespace CounterRing

theorem toNat_succ (c : UInt32) : (c+1).toNat = (c.toNat+1) % 2^32 := by
  simp [UInt32.toNat_add]

theorem toNat_diff (a b : UInt32) : (a-b).toNat = (2^32-b.toNat+a.toNat) % 2^32 :=
  UInt32.toNat_sub a b

def used {β : Type} {n : Nat} (r : CounterRing β n) : Nat := (r.head-r.tail).toNat

def take {β : Type} {n : Nat} (r : CounterRing β n) : CounterRing β n :=
  { r with tail := r.tail+1 }

theorem take_used {β : Type} {n : Nat} (r : CounterRing β n) (h : 0 < r.used) :
    r.take.used+1 = r.used := by
  have hh := r.head.toNat_lt
  have ht := r.tail.toNat_lt
  simp only [used,take,toNat_diff,toNat_succ] at *
  omega

theorem tail_add_used {β : Type} {n : Nat} (r : CounterRing β n) (h : r.used ≤ r.head.toNat) :
    r.tail.toNat+r.used = r.head.toNat := by
  have hh := r.head.toNat_lt
  have ht := r.tail.toNat_lt
  simp only [used,toNat_diff] at *
  omega

theorem used_pos_of_lt {β : Type} {n : Nat} (r : CounterRing β n) (h : r.tail < r.head) :
    0 < r.used := by
  have hh := r.head.toNat_lt
  have hlt := UInt32.lt_iff_toNat_lt.mp h
  simp only [used,toNat_diff]
  omega

theorem used_of_le {β : Type} {n : Nat} (r : CounterRing β n) (h : r.tail ≤ r.head) :
    r.used = r.head.toNat-r.tail.toNat := by
  have hh := r.head.toNat_lt
  have hle := UInt32.le_iff_toNat_le.mp h
  simp only [used,toNat_diff]
  omega

section
variable {β : Type} {n : Nat} [NeZero n]

def slotOf (n : Nat) [NeZero n] (c : Nat) : Fin n := Fin.ofNat n c

/-- The slot and the element `j` places behind the tail. -/
def entry (r : CounterRing β n) (j : Nat) : Fin n × β :=
  (slotOf n (r.tail.toNat+j),r.slots (slotOf n (r.tail.toNat+j)))

def contents (r : CounterRing β n) : List (Fin n × β) := (List.range r.used).map r.entry

def put (r : CounterRing β n) (b : β) : CounterRing β n :=
  { r with
    head := r.head+1
    slots := Function.update r.slots (slotOf n r.head.toNat) b }

@[simp] theorem contents_length (r : CounterRing β n) : r.contents.length = r.used := by
  simp [contents]

theorem slotOf_eq_iff (a b : Nat) : slotOf n a = slotOf n b ↔ a % n = b % n := by
  simp [slotOf,Fin.ext_iff,Fin.ofNat]

theorem slotOf_wrap (hn : n ∣ 2^32) (a : Nat) : slotOf n (a % 2^32) = slotOf n a := by
  rw [slotOf_eq_iff,Nat.mod_mod_of_dvd _ hn]

theorem slotOf_add_ne (a i j : Nat) (hij : i < j) (hj : j < i+n) :
    slotOf n (a+i) ≠ slotOf n (a+j) := by
  rw [Ne,slotOf_eq_iff]
  intro h
  have hd : (a+j-(a+i)) % n = 0 := Nat.sub_mod_eq_zero_of_mod_eq h.symm
  have hlt : a+j-(a+i) < n := by omega
  rw [Nat.mod_eq_of_lt hlt] at hd
  omega

theorem head_slot (hn : n ∣ 2^32) (r : CounterRing β n) :
    slotOf n r.head.toNat = slotOf n (r.tail.toNat+r.used) := by
  rw [← slotOf_wrap hn (r.tail.toNat+r.used)]
  congr 1
  have hh := r.head.toNat_lt
  have ht := r.tail.toNat_lt
  simp only [used,toNat_diff]
  omega

theorem put_used (r : CounterRing β n) (b : β) (h : r.used+1 < 2^32) :
    (r.put b).used = r.used+1 := by
  have hh := r.head.toNat_lt
  have ht := r.tail.toNat_lt
  simp only [used,put,toNat_diff,toNat_succ] at *
  omega

theorem put_entry_old (hn : n ∣ 2^32) (r : CounterRing β n) (b : β) (j : Nat)
    (hj : j < r.used) (hu : r.used < n) : (r.put b).entry j = r.entry j := by
  have hne : slotOf n (r.tail.toNat+j) ≠ slotOf n r.head.toNat := by
    rw [head_slot hn r]
    exact slotOf_add_ne _ _ _ hj (by omega)
  simp [entry,put,Function.update_of_ne hne]

theorem put_entry_new (hn : n ∣ 2^32) (r : CounterRing β n) (b : β) :
    (r.put b).entry r.used = (slotOf n r.head.toNat,b) := by
  have h : slotOf n (r.tail.toNat+r.used) = slotOf n r.head.toNat := (head_slot hn r).symm
  simp [entry,put,h]

/-- Below capacity a new element goes to the back of the queue. -/
theorem put_contents (hn : n ∣ 2^32) (hlt : n < 2^32) (r : CounterRing β n) (b : β)
    (hu : r.used < n) :
    (r.put b).contents = r.contents ++ [(slotOf n r.head.toNat,b)] := by
  rw [contents,put_used r b (by omega),List.range_succ,List.map_append,List.map_singleton,
    put_entry_new hn,contents]
  congr 1
  refine List.map_congr_left fun j hj => ?_
  exact put_entry_old hn r b j (List.mem_range.mp hj) hu

theorem take_entry (hn : n ∣ 2^32) (r : CounterRing β n) (j : Nat) :
    r.take.entry j = r.entry (j+1) := by
  have h : slotOf n (r.take.tail.toNat+j) = slotOf n (r.tail.toNat+(j+1)) := by
    rw [slotOf_eq_iff]
    simp only [take,toNat_succ]
    rw [Nat.add_mod,Nat.mod_mod_of_dvd _ hn,← Nat.add_mod]
    congr 1
    omega
  simp only [entry,h]
  rfl

theorem contents_eq_cons (hn : n ∣ 2^32) (r : CounterRing β n) (h : 0 < r.used) :
    r.contents = r.entry 0 :: r.take.contents := by
  have hu := take_used r h
  rw [contents,← hu,List.range_succ_eq_map,List.map_cons,contents,List.map_map]
  congr 1
  refine List.map_congr_left fun j _ => ?_
  exact (take_entry hn r j).symm

end

end CounterRing
