import YlUtils.Cache.Slots
import YlUtils.Cache.View

/-! # The layout of a cache in memory

A layout relates the linked structures of a cache to lists of slots. Every
operation of the cache manager keeps a layout, and computes on the lists what
the abstract cache computes.
-/

namespace YlUtils.CacheManager

open Linked

variable {T : Type}

def allSlots (size : UInt32) : List ℤ := (List.range size.toNat).map Int.ofNat

@[simp] theorem mem_allSlots {size : UInt32} {k : ℤ} :
    k ∈ allSlots size ↔ 0 ≤ k ∧ k < size.toNat := by
  simp only [allSlots, List.mem_map, List.mem_range]
  constructor
  · rintro ⟨n, hn, rfl⟩
    exact ⟨Int.natCast_nonneg n, Int.ofNat_lt.mpr hn⟩
  · intro h
    exact ⟨k.toNat, by omega, Int.toNat_of_nonneg h.1⟩

theorem nodup_allSlots (size : UInt32) : (allSlots size).Nodup :=
  List.Nodup.map (fun _ _ h => Int.ofNat.inj h) List.nodup_range

/-- The linked structures of `w` are the lists of `A`: the free list and the
busy list share out all slots, and the chain of a bucket holds the busy slots
whose signatures belong there. -/
structure Linkage (w : View T) (A : Slots T) : Prop where
  free : DList (-1) w.link w.freeList.next w.freeList.prev A.free
  busy : DList (-1) w.link w.busyList.next w.busyList.prev A.busy
  slots : (A.free ++ A.busy).Perm (allSlots w.size)
  free_size : w.freeListSize.toNat = A.free.length
  chain_seg : ∀ i, w.InRange i → Seg w.hash (-1) (A.chain i) (-1)
  chain_head : ∀ i, w.InRange i → w.pidx i = (A.chain i).headD (-1)
  chain_nodup : ∀ i, w.InRange i → (A.chain i).Nodup
  mem_chain : ∀ i, w.InRange i →
    ∀ k, k ∈ A.chain i ↔ k ∈ A.busy ∧ (A.entry k).1.bucket w.size = i
  entry_eq : w.entry = A.entry

/-- The busy list and the chains of `w` are those of `A`, whatever its free list. -/
structure Entries (w : View T) (A : Slots T) : Prop where
  busy : DList (-1) w.link w.busyList.next w.busyList.prev A.busy
  slots_nodup : (A.free ++ A.busy).Nodup
  slots_inRange : ∀ k ∈ A.free ++ A.busy, w.InRange k
  bucket_inRange : ∀ k ∈ A.busy, w.InRange ((A.entry k).1.bucket w.size)
  chain_seg : ∀ i, w.InRange i → Seg w.hash (-1) (A.chain i) (-1)
  chain_head : ∀ i, w.InRange i → w.pidx i = (A.chain i).headD (-1)
  chain_nodup : ∀ i, w.InRange i → (A.chain i).Nodup
  mem_chain : ∀ i, w.InRange i →
    ∀ k, k ∈ A.chain i ↔ k ∈ A.busy ∧ (A.entry k).1.bucket w.size = i
  entry_eq : w.entry = A.entry

/-- A linkage of a cache whose slots are numbered by `int`. -/
structure Layout (w : View T) (A : Slots T) : Prop extends Linkage w A where
  size_pos : 0 < w.size.toNat
  size_le : w.size.toNat ≤ 2 ^ 31

theorem ne_nil {w : View T} {k : ℤ} (hk : w.InRange k) : k ≠ -1 := by
  have := hk.1
  omega

namespace Entries

variable {c : CacheManager T} {w : View T} {A : Slots T} {k i : ℤ} {s : TSign} {v : T}

theorem inRange_free (h : Entries w A) (hk : k ∈ A.free) : w.InRange k :=
  h.slots_inRange k (List.mem_append_left _ hk)

theorem inRange_busy (h : Entries w A) (hk : k ∈ A.busy) : w.InRange k :=
  h.slots_inRange k (List.mem_append_right _ hk)

theorem free_notMem_busy (h : Entries w A) (hk : k ∈ A.free) : k ∉ A.busy := fun hb =>
  (List.nodup_append.mp h.slots_nodup).2.2 k hk k hb rfl

theorem length_busy_le (h : Entries w A) : A.busy.length ≤ w.size.toNat := by
  have hs : A.busy ⊆ allSlots w.size := fun k hk => mem_allSlots.mpr (h.inRange_busy hk)
  have := (List.subperm_of_subset h.busy.nodup hs).length_le
  simpa [allSlots] using this

theorem mem_chain_bucket (h : Entries w A) (hk : k ∈ A.busy) :
    k ∈ A.chain ((A.entry k).1.bucket w.size) :=
  (h.mem_chain _ (h.bucket_inRange k hk) k).mpr ⟨hk, rfl⟩

theorem busy_of_mem_chain (h : Entries w A) (hi : w.InRange i) (hk : k ∈ A.chain i) :
    k ∈ A.busy :=
  ((h.mem_chain i hi k).mp hk).1

theorem chain_nil_notMem (h : Entries w A) (hi : w.InRange i) : -1 ∉ A.chain i := fun hk =>
  ne_nil (h.inRange_busy (h.busy_of_mem_chain hi hk)) rfl

theorem chain_length_le (h : Entries w A) (hi : w.InRange i) :
    (A.chain i).length ≤ w.size.toNat := by
  have hs : A.chain i ⊆ A.busy := fun k hk => h.busy_of_mem_chain hi hk
  exact (List.subperm_of_subset (h.chain_nodup i hi) hs).length_le.trans h.length_busy_le

theorem chain_disjoint (h : Entries w A) {j : ℤ} (hi : w.InRange i) (hj : w.InRange j)
    (hij : i ≠ j) (hk : k ∈ A.chain i) : k ∉ A.chain j := fun hk' =>
  hij (((h.mem_chain i hi k).mp hk).2.symm.trans ((h.mem_chain j hj k).mp hk').2)

theorem walk_eq (hc : c.view = w) : ∀ {fuel : ℕ} {p x : ℤ} {l : List ℤ},
    Seg w.hash p (x :: l) (-1) → (∀ k ∈ x :: l, w.InRange k) → l.length < fuel →
    c.walk s fuel x = some ((x :: l).find? fun k => (w.entry k).1.eq s)
  | 0, _, _, _, _, _, hf => absurd hf (Nat.not_lt_zero _)
  | fuel + 1, _, x, l, ⟨_, hx, hl⟩, hr, hf => by
    have hxr := hr x List.mem_cons_self
    simp only [walk, item_of_inRange hc hxr, Option.bind_eq_bind, Option.bind_some,
      pvalue_sign, pvalue_hashNext, hc, hx]
    by_cases he : (w.entry x).1.eq s = true
    · simp [he]
    · rw [List.find?_cons_of_neg (p := fun k => (w.entry k).1.eq s) he, if_neg he]
      cases l with
      | nil => simp
      | cons y l =>
        have hy := ne_nil (hr y (by simp))
        rw [List.headD_cons, if_neg hy]
        exact walk_eq hc hl (fun k hk => hr k (List.mem_cons_of_mem _ hk)) (by simpa using hf)

/-- A search in a bucket of the array finds the slot that the abstract cache hits. -/
theorem search_eq (h : Entries w A) (hc : c.view = w) (hi : w.InRange (s.bucket w.size)) :
    c.search s = some (A.hit w.size s) := by
  have hseg := h.chain_seg _ hi
  have hlen := h.chain_length_le hi
  have hr : ∀ k ∈ A.chain (s.bucket w.size), w.InRange k := fun k hk =>
    h.inRange_busy (h.busy_of_mem_chain hi hk)
  have hsize : c.size = w.size := congrArg View.size hc
  have hb : c.bucket (s.bucket w.size) = some ((A.chain (s.bucket w.size)).headD (-1)) := by
    rw [← h.chain_head _ hi]
    subst hc
    exact if_pos hi
  unfold search Slots.hit
  rw [hsize, hb]
  cases hl : A.chain (s.bucket w.size) with
  | nil => simp
  | cons x l =>
    rw [hl] at hseg hlen hr
    have hx := ne_nil (hr x List.mem_cons_self)
    simp only [List.headD_cons, Option.bind_eq_bind, Option.bind_some, hx, if_false]
    have hfuel : l.length < w.size.toNat := Nat.lt_of_lt_of_le (Nat.lt_succ_self _) hlen
    rw [walk_eq hc hseg hr hfuel, h.entry_eq]

end Entries

namespace Layout

variable {c : CacheManager T} {w : View T} {A : Slots T} {k : ℤ}

theorem length_add_length (h : Layout w A) : A.free.length + A.busy.length = w.size.toNat := by
  have := h.slots.length_eq
  simpa [allSlots] using this

theorem inRange_bucket (h : Layout w A) (s : TSign) : w.InRange (s.bucket w.size) := by
  have hlt : ((s.sign1 + s.sign2) % w.size).toNat < w.size.toNat := by
    rw [UInt32.toNat_mod]
    exact Nat.mod_lt _ h.size_pos
  have hle := h.size_le
  unfold View.InRange TSign.bucket
  rw [intOf_of_lt (by omega)]
  omega

theorem entries (h : Layout w A) : Entries w A where
  busy := h.busy
  slots_nodup := h.slots.nodup_iff.mpr (nodup_allSlots _)
  slots_inRange _ hk := mem_allSlots.mp (h.slots.mem_iff.mp hk)
  bucket_inRange _ _ := h.inRange_bucket _
  chain_seg := h.chain_seg
  chain_head := h.chain_head
  chain_nodup := h.chain_nodup
  mem_chain := h.mem_chain
  entry_eq := h.entry_eq

theorem inRange_free (h : Layout w A) (hk : k ∈ A.free) : w.InRange k := h.entries.inRange_free hk

theorem inRange_busy (h : Layout w A) (hk : k ∈ A.busy) : w.InRange k := h.entries.inRange_busy hk

theorem free_notMem_busy (h : Layout w A) (hk : k ∈ A.free) : k ∉ A.busy :=
  h.entries.free_notMem_busy hk

theorem search_eq (h : Layout w A) (hc : c.view = w) (s : TSign) :
    c.search s = some (A.hit w.size s) := h.entries.search_eq hc (h.inRange_bucket s)

end Layout

end YlUtils.CacheManager
