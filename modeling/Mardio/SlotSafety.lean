import Mardio.Lib.Runs
import Mardio.Salloc

/-!
The slot allocator over whole runs. The addresses `sa_init` gives the slots never
change, so what a run keeps is an order on fixed extents together with the states and
the counter; the blocks the callers hold are history beside the allocator.
-/

set_option autoImplicit false

namespace Mardio
open ByteMem Runs

/-- A slot table before `sa_init`, with a pool that lies anywhere but at `NULL`. -/
structure SlotTable extends Salloc where
  notNull : 0 < data
  positive : ∀ s ∈ slots, 0 < s.size
  empty : ∀ s ∈ slots, s.state = .empty
  fits : (slots.map Slot.size).sum ≤ dataSize
  unused : usedSlots = 0
  count : slots.length < 2^16

/-- The allocator and the blocks its callers hold, each with its address and the number
of bytes asked for. -/
structure Holding where
  sas : Salloc
  live : List (Nat × Nat)

inductive SaOp where
  | alloc (n : Nat)
  | calloc (nmemb size : Nat)
  | free (ptr : Nat)
  deriving DecidableEq, Repr

def hold (live : List (Nat × Nat)) (n : Nat) (r : Nat × Salloc) : Holding :=
  ⟨r.2,if r.1 = 0 then live else (r.1,n) :: live⟩

def saStep (h : Holding) : SaOp → Option Holding
  | .alloc n => some (hold h.live n (saAlloc n h.sas))
  | .calloc nmemb size => some (hold h.live (nmemb*size) (saCalloc nmemb size h.sas))
  | .free ptr => some ⟨saFree ptr h.sas,h.live.filter (·.1 ≠ ptr)⟩

/-- A product that fits in 32 bits; a pointer that is `NULL` or held. -/
def ProperCall (h : Holding) : SaOp → Prop
  | .alloc _ => True
  | .calloc nmemb size => nmemb*size < 2^32
  | .free ptr => ptr = 0 ∨ ptr ∈ h.live.map Prod.fst

instance decidableProperCall (h : Holding) : (op : SaOp) → Decidable (ProperCall h op)
  | .alloc _ => isTrue trivial
  | .calloc nmemb size => inferInstanceAs (Decidable (nmemb*size < 2^32))
  | .free ptr => inferInstanceAs (Decidable (ptr = 0 ∨ ptr ∈ h.live.map Prod.fst))

def SlotTable.start (t : SlotTable) : Holding := ⟨saInit t.toSalloc,[]⟩

def usedCount (slots : List Slot) : Nat := slots.countP (·.state = .used)

def BlocksApart (a b : Nat × Nat) : Prop := a.1+a.2 ≤ b.1 ∨ b.1+b.2 ≤ a.1

/-- The counter counts, an allocation fails only for want of a slot, the slots in use are
those of the blocks held, and these lie in the pool and apart from each other. -/
structure SlotsSafe (h : Holding) : Prop where
  counted : h.sas.usedSlots = usedCount h.sas.slots
  null_iff : ∀ n, (saAlloc n h.sas).1 = 0 ↔ ¬ ∃ s ∈ h.sas.slots, s.state = .empty ∧ n ≤ s.size
  used_iff : ∀ s ∈ h.sas.slots, s.state = .used ↔ s.data ∈ h.live.map Prod.fst
  inside : ∀ b ∈ h.live, h.sas.data ≤ b.1 ∧ b.1+b.2 ≤ h.sas.data+h.sas.dataSize
  apart : h.live.Pairwise BlocksApart

/-! What the searches do to the table. -/

theorem takeSlot_none {n : Nat} {slots : List Slot} (h : takeSlot n slots = none) :
    ¬ ∃ s ∈ slots, s.state = .empty ∧ n ≤ s.size := by
  induction slots with
  | nil => simp
  | cons s slots ih =>
    rw [takeSlot] at h
    split at h
    · cases h
    · rename_i hs
      have hrest := ih (by simpa using h)
      simp only [List.mem_cons,exists_eq_or_imp,not_or]
      exact ⟨hs,hrest⟩

theorem takeSlot_some {n ptr : Nat} {slots slots' : List Slot}
    (h : takeSlot n slots = some (ptr,slots')) :
    ∃ (pre : List Slot) (s : Slot) (post : List Slot), slots = pre ++ s :: post ∧
      s.state = .empty ∧ n ≤ s.size ∧ ptr = s.data ∧
      slots' = pre ++ { s with state := .used, allocated := n % 2^32 } :: post := by
  induction slots generalizing slots' with
  | nil => cases h
  | cons s slots ih =>
    rw [takeSlot] at h
    split at h
    · rename_i hs
      cases h
      exact ⟨[],s,slots,rfl,hs.1,hs.2,rfl,rfl⟩
    · obtain ⟨⟨p,rest⟩,hr,he⟩ := Option.map_eq_some_iff.mp h
      cases he
      obtain ⟨pre,t,post,rfl,hstate,hsize,hptr,rfl⟩ := ih hr
      exact ⟨s :: pre,t,post,rfl,hstate,hsize,hptr,rfl⟩

theorem releaseSlot_none {ptr : Nat} {slots : List Slot} (h : releaseSlot ptr slots = none) :
    ∀ s ∈ slots, s.data ≠ ptr := by
  induction slots with
  | nil => simp
  | cons s slots ih =>
    rw [releaseSlot] at h
    split at h
    · cases h
    · rename_i hs
      exact List.forall_mem_cons.mpr ⟨hs,ih (by simpa using h)⟩

theorem releaseSlot_some {ptr : Nat} {slots slots' : List Slot}
    (h : releaseSlot ptr slots = some slots') :
    ∃ (pre : List Slot) (s : Slot) (post : List Slot), slots = pre ++ s :: post ∧
      slots.find? (·.data = ptr) = some s ∧
      slots' = pre ++ { s with state := .empty, allocated := 0 } :: post := by
  induction slots generalizing slots' with
  | nil => cases h
  | cons s slots ih =>
    rw [releaseSlot] at h
    split at h
    · rename_i hs
      cases h
      exact ⟨[],s,slots,rfl,by simp [hs],rfl⟩
    · rename_i hs
      obtain ⟨rest,hr,rfl⟩ := Option.map_eq_some_iff.mp h
      obtain ⟨pre,t,post,rfl,hfirst,rfl⟩ := ih hr
      exact ⟨s :: pre,t,post,rfl,by simpa [hs] using hfirst,rfl⟩

/-! Extents: the address and size of each slot, one behind the other in the pool. -/

def extents (slots : List Slot) : List (Nat × Nat) := slots.map fun s => (s.data,s.size)

structure Stacked (lo hi : Nat) (xs : List (Nat × Nat)) : Prop where
  positive : ∀ x ∈ xs, 0 < x.2
  inside : ∀ x ∈ xs, lo ≤ x.1 ∧ x.1+x.2 ≤ hi
  ordered : xs.Pairwise fun x y => x.1+x.2 ≤ y.1

theorem placeSlots_inside (ptr : Nat) (slots : List Slot) :
    ∀ x ∈ extents (placeSlots ptr slots), ptr ≤ x.1 ∧ x.1+x.2 ≤ ptr+(slots.map Slot.size).sum := by
  induction slots generalizing ptr with
  | nil => simp [placeSlots,extents]
  | cons s slots ih =>
    intro x hx
    simp only [placeSlots,extents,List.map_cons,List.mem_cons] at hx
    simp only [List.map_cons,List.sum_cons]
    rcases hx with rfl | hx
    · simp
    · have := ih (ptr+s.size) x hx
      omega

theorem placeSlots_stacked {ptr hi : Nat} {slots : List Slot} (hpos : ∀ s ∈ slots, 0 < s.size)
    (hfit : ptr+(slots.map Slot.size).sum ≤ hi) :
    Stacked ptr hi (extents (placeSlots ptr slots)) := by
  refine ⟨?_,fun x hx => ?_,?_⟩
  · induction slots generalizing ptr with
    | nil => simp [placeSlots,extents]
    | cons s slots ih =>
      have htail : ptr+s.size+(slots.map Slot.size).sum ≤ hi := by
        simp only [List.map_cons,List.sum_cons] at hfit
        omega
      have hrest := ih (fun t ht => hpos t (by simp [ht])) htail
      exact List.forall_mem_cons.mpr ⟨hpos s (by simp),hrest⟩
  · have := placeSlots_inside ptr slots x hx
    omega
  · clear hpos hfit
    induction slots generalizing ptr with
    | nil => simp [placeSlots,extents]
    | cons s slots ih =>
      exact List.pairwise_cons.mpr ⟨fun x hx => (placeSlots_inside _ slots x hx).1,ih⟩

variable {lo hi : Nat} {slots pre post : List Slot} {s t : Slot}

theorem Stacked.nodup (h : Stacked lo hi (extents slots)) : (slots.map Slot.data).Nodup := by
  have hlt : (extents slots).Pairwise fun x y => x.1 < y.1 := by
    refine h.ordered.imp_of_mem fun {x y} hx _ hxy => ?_
    have := h.positive x hx
    omega
  rw [extents,List.pairwise_map] at hlt
  exact List.pairwise_map.mpr (hlt.imp fun hxy => Nat.ne_of_lt hxy)

theorem Stacked.eq_of_data (h : Stacked lo hi (extents slots)) (hs : s ∈ slots) (ht : t ∈ slots)
    (he : s.data = t.data) : s = t := List.inj_on_of_nodup_map h.nodup hs ht he

theorem Stacked.apart (h : Stacked lo hi (extents slots)) (hs : s ∈ slots) (ht : t ∈ slots)
    (hne : s.data ≠ t.data) : BlocksApart (s.data,s.size) (t.data,t.size) := by
  have : Std.Symm BlocksApart := ⟨fun _ _ hab => hab.symm⟩
  have hall : (extents slots).Pairwise BlocksApart := h.ordered.imp Or.inl
  have hmem : ∀ {u : Slot}, u ∈ slots → (u.data,u.size) ∈ extents slots :=
    fun hu => List.mem_map_of_mem hu
  exact hall.forall (hmem hs) (hmem ht) (fun he => hne (congrArg Prod.fst he))

theorem extents_middle (hd : t.data = s.data) (hz : t.size = s.size) :
    extents (pre ++ t :: post) = extents (pre ++ s :: post) := by simp [extents,hd,hz]

theorem usedCount_middle :
    usedCount (pre ++ s :: post) = usedCount (pre ++ post)+if s.state = .used then 1 else 0 := by
  simp only [usedCount,List.countP_append,List.countP_cons,decide_eq_true_eq]
  omega

theorem mem_middle {u : Slot} (hu : u ∈ pre ++ s :: post) (hne : u ≠ s) : u ∈ pre ++ t :: post := by
  simp only [List.mem_append,List.mem_cons] at hu ⊢
  grind

theorem mem_others {u : Slot} (hu : u ∈ pre ++ s :: post) : u = s ∨ u ∈ pre ++ post := by
  simp only [List.mem_append,List.mem_cons] at hu ⊢
  grind

theorem mem_of_others {u : Slot} (hu : u ∈ pre ++ post) : u ∈ pre ++ s :: post := by
  simp only [List.mem_append,List.mem_cons] at hu ⊢
  grind

theorem Stacked.ne_others (h : Stacked lo hi (extents (pre ++ s :: post))) {u : Slot}
    (hu : u ∈ pre ++ post) :
    u.data ≠ s.data := by
  have hnodup := h.nodup
  rw [List.map_append,List.map_cons,List.nodup_middle,List.nodup_cons,← List.map_append] at hnodup
  exact fun he => hnodup.1 (he ▸ List.mem_map_of_mem hu)

/-! One call. -/

/-- What holds between calls. A block held lies in a slot in use, and there are no other
slots in use. -/
structure HoldInv (h : Holding) : Prop where
  notNull : 0 < h.sas.data
  stacked : Stacked h.sas.data (h.sas.data+h.sas.dataSize) (extents h.sas.slots)
  count : h.sas.slots.length < 2^16
  counted : h.sas.usedSlots = usedCount h.sas.slots
  held : ∀ b ∈ h.live, ∃ s ∈ h.sas.slots, s.state = .used ∧ s.data = b.1 ∧ b.2 ≤ s.size
  owned : ∀ s ∈ h.sas.slots, s.state = .used → s.data ∈ h.live.map Prod.fst
  distinct : h.live.Pairwise (·.1 ≠ ·.1)

variable {h : Holding}

theorem HoldInv.data_pos (hi : HoldInv h) (hs : s ∈ h.sas.slots) : 0 < s.data :=
  hi.notNull.trans_le (hi.stacked.inside (s.data,s.size) (List.mem_map_of_mem hs)).1

theorem HoldInv.live_pos (hi : HoldInv h) {b : Nat × Nat} (hb : b ∈ h.live) : 0 < b.1 := by
  obtain ⟨s,hs,-,hd,-⟩ := hi.held b hb
  exact hd ▸ hi.data_pos hs

/-- The counter, told by one slot and the others. -/
theorem used_middle {sas : Salloc} (hcounted : sas.usedSlots = usedCount sas.slots)
    (hcount : sas.slots.length < 2^16) (he : sas.slots = pre ++ s :: post) :
    sas.usedSlots = usedCount (pre ++ post)+(if s.state = .used then 1 else 0) ∧
      usedCount (pre ++ post)+1 < 2^16 := by
  have hle : usedCount (pre ++ post) ≤ (pre ++ post).length := List.countP_le_length
  rw [he] at hcount
  simp only [List.length_append,List.length_cons] at hcount hle
  exact ⟨by rw [hcounted,he,usedCount_middle],by omega⟩

theorem saAlloc_none {n : Nat} {sas : Salloc} (ht : takeSlot n sas.slots = none) :
    saAlloc n sas = (0,sas) := by
  rw [saAlloc,ht]
  split <;> rfl

/-- A full table has no empty slot, so the early return of `sa_alloc` hides none. -/
theorem room_of_empty {sas : Salloc} (hcounted : sas.usedSlots = usedCount sas.slots)
    (hs : s ∈ sas.slots) (hempty : s.state = .empty) : sas.slots.length ≠ sas.usedSlots := by
  intro hfull
  have hused : ∀ s ∈ sas.slots, s.state = .used := by
    simpa using List.countP_eq_length.mp (hcounted.symm.trans hfull.symm)
  have := hused s hs
  simp [hempty] at this

theorem saAlloc_some {sas : Salloc} (hcounted : sas.usedSlots = usedCount sas.slots) {n ptr : Nat}
    (ht : takeSlot n sas.slots = some (ptr,slots)) :
    saAlloc n sas = (ptr,{ sas with slots := slots, usedSlots := (sas.usedSlots+1) % 2^16 }) := by
  obtain ⟨pre,s,post,he,hstate,-⟩ := takeSlot_some ht
  rw [saAlloc,if_neg (room_of_empty hcounted (by simp [he]) hstate),ht]

theorem HoldInv.null_iff (hi : HoldInv h) (n : Nat) :
    (saAlloc n h.sas).1 = 0 ↔ ¬ ∃ s ∈ h.sas.slots, s.state = .empty ∧ n ≤ s.size := by
  cases ht : takeSlot n h.sas.slots with
  | none => exact iff_of_true (by rw [saAlloc_none ht]) (takeSlot_none ht)
  | some r =>
    obtain ⟨pre,s,post,he,hstate,hsize,hptr,-⟩ := takeSlot_some ht
    have hs : s ∈ h.sas.slots := by simp [he]
    have hpos : r.1 ≠ 0 := hptr ▸ (hi.data_pos hs).ne'
    exact iff_of_false (by rwa [saAlloc_some hi.counted ht]) (not_not.mpr ⟨s,hs,hstate,hsize⟩)

theorem HoldInv.safe (hi : HoldInv h) : SlotsSafe h := by
  refine ⟨hi.counted,hi.null_iff,fun s hs => ⟨hi.owned s hs,fun hd => ?_⟩,fun b hb => ?_,
    hi.distinct.imp_of_mem fun {b c} hb hc hne => ?_⟩
  · obtain ⟨b,hb,hbd⟩ := List.mem_map.mp hd
    obtain ⟨u,hu,hused,hud,-⟩ := hi.held b hb
    rwa [hi.stacked.eq_of_data hs hu (hbd.symm.trans hud.symm)]
  · obtain ⟨s,hs,-,hd,hz⟩ := hi.held b hb
    have := hi.stacked.inside (s.data,s.size) (List.mem_map_of_mem hs)
    simp only at this
    omega
  · obtain ⟨s,hs,-,hsd,hsz⟩ := hi.held b hb
    obtain ⟨t,ht,-,htd,htz⟩ := hi.held c hc
    have := hi.stacked.apart hs ht (by rw [hsd,htd]; exact hne)
    simp only [BlocksApart] at this ⊢
    omega

/-- A call that leaves the extents alone has to account for the counter and the blocks. -/
theorem HoldInv.update (hi : HoldInv h) {slots' : List Slot} {used : Nat} {live : List (Nat × Nat)}
    (hext : extents slots' = extents h.sas.slots) (hused : used = usedCount slots')
    (hheld : ∀ b ∈ live, ∃ s ∈ slots', s.state = .used ∧ s.data = b.1 ∧ b.2 ≤ s.size)
    (howned : ∀ s ∈ slots', s.state = .used → s.data ∈ live.map Prod.fst)
    (hdistinct : live.Pairwise (·.1 ≠ ·.1)) :
    HoldInv ⟨{ h.sas with slots := slots', usedSlots := used },live⟩ := by
  have hlen : slots'.length = h.sas.slots.length := by
    simpa [extents] using congrArg List.length hext
  exact ⟨hi.notNull,hext ▸ hi.stacked,hlen.trans_lt hi.count,hused,hheld,howned,hdistinct⟩

theorem HoldInv.alloc (hi : HoldInv h) (n : Nat) : HoldInv (hold h.live n (saAlloc n h.sas)) := by
  cases ht : takeSlot n h.sas.slots with
  | none =>
    rw [saAlloc_none ht]
    exact hi
  | some r =>
    rw [saAlloc_some hi.counted ht]
    obtain ⟨ptr,slots⟩ := r
    obtain ⟨pre,s,post,he,hstate,hsize,rfl,rfl⟩ := takeSlot_some ht
    have hs : s ∈ h.sas.slots := by simp [he]
    -- an empty slot holds no block
    have hfree : ∀ u ∈ h.sas.slots, u.state = .used → u ≠ s := by
      rintro u - hu rfl
      simp [hstate] at hu
    simp only [hold,if_neg (hi.data_pos hs).ne']
    refine hi.update (by rw [he]; exact extents_middle rfl rfl) ?_ ?_ (fun u hu hused => ?_) ?_
    · obtain ⟨hused,hlt⟩ := used_middle hi.counted hi.count he
      simp only [usedCount_middle,hused,hstate,reduceCtorEq,if_false,if_true]
      omega
    · refine List.forall_mem_cons.mpr ⟨?_,fun b hb => ?_⟩
      · exact ⟨{ s with state := .used, allocated := n % 2^32 },by simp,rfl,rfl,hsize⟩
      · obtain ⟨u,hu,hused,hd,hz⟩ := hi.held b hb
        exact ⟨u,mem_middle (he ▸ hu) (hfree u hu hused),hused,hd,hz⟩
    · obtain rfl | hu := mem_others hu
      · simp
      · exact List.mem_cons_of_mem _ (hi.owned u (he ▸ mem_of_others hu) hused)
    · refine List.pairwise_cons.mpr ⟨fun b hb hne => ?_,hi.distinct⟩
      obtain ⟨u,hu,hused,hd,-⟩ := hi.held b hb
      exact hfree u hu hused (hi.stacked.eq_of_data hu hs (hd.trans hne.symm))

theorem HoldInv.mem (hi : HoldInv h) (m : Mem) :
    HoldInv { h with sas := { h.sas with mem := m } } :=
  ⟨hi.notNull,hi.stacked,hi.count,hi.counted,hi.held,hi.owned,hi.distinct⟩

theorem HoldInv.calloc (hi : HoldInv h) {nmemb size : Nat} (hn : nmemb*size < 2^32) :
    HoldInv (hold h.live (nmemb*size) (saCalloc nmemb size h.sas)) := by
  have halloc := hi.alloc (nmemb*size)
  simp only [saCalloc,Nat.mod_eq_of_lt hn]
  split
  · exact hi
  · split
    · exact halloc
    · rename_i hne
      simp only [hold,if_neg hne] at halloc ⊢
      exact halloc.mem _

theorem saFree_some {ptr : Nat} {sas : Salloc} (hp : ptr ≠ 0)
    (hr : releaseSlot ptr sas.slots = some slots) :
    saFree ptr sas = { sas with slots := slots, usedSlots := (sas.usedSlots+2^16-1) % 2^16 } := by
  rw [saFree,if_neg hp,hr]

theorem HoldInv.free (hi : HoldInv h) {ptr : Nat} (hp : ptr = 0 ∨ ptr ∈ h.live.map Prod.fst) :
    HoldInv ⟨saFree ptr h.sas,h.live.filter (·.1 ≠ ptr)⟩ := by
  rcases hp with rfl | hp
  · have hall : h.live.filter (·.1 ≠ 0) = h.live :=
      List.filter_eq_self.mpr fun b hb => by simpa using (hi.live_pos hb).ne'
    rw [hall,saFree,if_pos rfl]
    exact hi
  obtain ⟨b,hb,rfl⟩ := List.mem_map.mp hp
  obtain ⟨u,hu,hused,hd,-⟩ := hi.held b hb
  cases hr : releaseSlot b.1 h.sas.slots with
  | none => exact absurd hd (releaseSlot_none hr u hu)
  | some slots =>
    rw [saFree_some (hi.live_pos hb).ne' hr]
    obtain ⟨pre,s,post,he,hfirst,rfl⟩ := releaseSlot_some hr
    have hdata : s.data = b.1 := by simpa using List.find?_some hfirst
    -- addresses are distinct, so the slot found is the one in use
    obtain rfl : s = u := hi.stacked.eq_of_data (by simp [he]) hu (hdata.trans hd.symm)
    refine hi.update (by rw [he]; exact extents_middle rfl rfl) ?_ (fun c hc => ?_)
      (fun v hv hvused => ?_)
      (hi.distinct.filter _)
    · obtain ⟨hcount,hlt⟩ := used_middle hi.counted hi.count he
      simp only [usedCount_middle,hcount,hused,reduceCtorEq,if_false,if_true]
      omega
    · obtain ⟨hc,hne⟩ := List.mem_filter.mp hc
      obtain ⟨v,hv,hvused,hvd,hvz⟩ := hi.held c hc
      refine ⟨v,mem_middle (he ▸ hv) ?_,hvused,hvd,hvz⟩
      rintro rfl
      simp [← hvd,hd] at hne
    · obtain rfl | hv := mem_others hv
      · cases hvused
      · have hstacked := hi.stacked
        rw [he] at hstacked
        obtain ⟨c,hc,hcd⟩ := List.mem_map.mp (hi.owned v (he ▸ mem_of_others hv) hvused)
        have hne : c.1 ≠ b.1 :=
          fun hcb => hstacked.ne_others hv (hcd.symm.trans (hcb.trans hdata.symm))
        exact List.mem_map.mpr ⟨c,List.mem_filter.mpr ⟨hc,by simpa using hne⟩,hcd⟩

/-! Whole runs. -/

theorem placeSlots_length (ptr : Nat) (slots : List Slot) :
    (placeSlots ptr slots).length = slots.length := by
  induction slots generalizing ptr with
  | nil => rfl
  | cons s slots ih => simp [placeSlots,ih]

theorem placeSlots_usedCount (ptr : Nat) (slots : List Slot) :
    usedCount (placeSlots ptr slots) = usedCount slots := by
  induction slots generalizing ptr with
  | nil => rfl
  | cons s slots ih =>
    have hrest := ih (ptr+s.size)
    simp only [usedCount] at hrest
    simp [usedCount,placeSlots,List.countP_cons,hrest]

theorem SlotTable.start_unused (t : SlotTable) : usedCount (placeSlots t.data t.slots) = 0 := by
  rw [placeSlots_usedCount]
  exact List.countP_eq_zero.mpr fun s hs => by simp [t.empty s hs]

theorem SlotTable.start_inv (t : SlotTable) : HoldInv t.start where
  notNull := t.notNull
  stacked := placeSlots_stacked t.positive (Nat.add_le_add_left t.fits _)
  count := (placeSlots_length t.data t.slots).trans_lt t.count
  counted := t.unused.trans t.start_unused.symm
  held := by simp [SlotTable.start]
  owned := by
    intro s hs hused
    exact absurd (by simpa using hused) (List.countP_eq_zero.mp t.start_unused s hs)
  distinct := List.Pairwise.nil

theorem holdInv_step {h h' : Holding} {op : SaOp} (hi : HoldInv h) (hok : ProperCall h op)
    (hs : saStep h op = some h') : HoldInv h' := by
  cases op with
  | alloc n => cases hs; exact hi.alloc n
  | calloc nmemb size => cases hs; exact hi.calloc hok
  | free ptr => cases hs; exact hi.free hok

/-- In every run that frees only what is held the allocator stays safe. -/
theorem slots_safe (t : SlotTable) (ops : List SaOp) (hok : Guarded saStep ProperCall t.start ops) :
    Always saStep SlotsSafe t.start ops :=
  always_of_guarded (fun _ hi => hi.safe) (fun _ _ _ hi hok hs => holdInv_step hi hok hs)
    ops t.start
    t.start_inv hok

/-- The pool of the decoder is such a table. -/
def libmadTable (pool : ℕ+) (mem : Mem) : SlotTable :=
  { libmadAlloc pool mem with
    notNull := pool.pos
    positive := by simp [libmadAlloc,saEntry]
    empty := by simp [libmadAlloc,saEntry]
    fits := by simp [libmadAlloc,saEntry,libmadPoolSize]
    unused := rfl
    count := by simp [libmadAlloc] }

theorem slots_safe_decoder :
    Guarded saStep ProperCall (libmadTable 4096 fun _ => 0).start
      [SaOp.alloc 2567,SaOp.calloc 1152 4,SaOp.alloc 1,SaOp.free 4096,SaOp.free 0,SaOp.alloc 3000] ∧
    Always saStep SlotsSafe (libmadTable 4096 fun _ => 0).start
      [SaOp.alloc 2567,SaOp.calloc 1152 4,SaOp.alloc 1,SaOp.free 4096,SaOp.free 0,
        SaOp.alloc 3000] :=
  ⟨by decide,slots_safe _ _ (by decide)⟩

end Mardio
