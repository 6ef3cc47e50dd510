import YlUtils.Cache.Invariant

/-! # Caches of more slots than `int` can number

The slots from `2 ^ 31` on have no number. Behind `init` the free list of such a
cache has `2 ^ 31` slots and ends at `-2 ^ 31` instead of `-1`, so that a slot
can be taken as long as another one follows, and none can be put back. The other
slots count as free for ever: nothing is reclaimed.
-/

namespace YlUtils.CacheManager

open Linked

variable {T : Type} {size : UInt32} {fresh : ℤ → T × TSign}

def busySlots (c : CacheManager T) : List ℤ :=
  follow (-1) c.view.link.next c.size.toNat c.busyList.next

/-- A call that gets by with the slots and the buckets that `int` can number. -/
def Numbered (c : CacheManager T) (o : Op T) : Prop :=
  c.size.toNat ≤ 2 ^ 31 ∨ 0 ≤ o.sign.bucket c.size ∧
    match o with
    | .insert sign _ =>
      (∃ k, c.search sign = some (some k)) ∨ c.busySlots.length + 1 < 2 ^ 31
    | .remove sign => c.search sign = some none
    | .find _ => True

/-- The free list of `w` are the numbered slots that are free. -/
structure Oversized (w : View T) (A : Slots T) : Prop extends Entries w A where
  size_gt : 2 ^ 31 < w.size.toNat
  free_seg : Seg w.link (-1) A.free (-2 ^ 31)
  free_head : w.freeList.next = A.free.headD (-2 ^ 31)
  free_ne_nil : A.free ≠ []
  free_tail : w.freeList.prev < -1
  free_size : w.freeListSize.toNat + 2 ^ 31 = A.free.length + w.size.toNat
  slots_length : A.free.length + A.busy.length = 2 ^ 31

/-- The linked structures of `w` are the lists of `A`, as far as its slots are numbered. -/
inductive Laid (w : View T) (A : Slots T) : Prop where

  | layout : Layout w A → Laid w A

  | oversized : Oversized w A → Laid w A

section Accesses

variable {c : CacheManager T} {s : TSign} {k : ℤ}

theorem inRange_bucket_of_nonneg {w : View T} (hw : 0 < w.size.toNat)
    (h : 0 ≤ s.bucket w.size) : w.InRange (s.bucket w.size) := by
  have hlt : ((s.sign1 + s.sign2) % w.size).toNat < w.size.toNat := by
    rw [UInt32.toNat_mod]
    exact Nat.mod_lt _ hw
  have hle : s.bucket w.size ≤ ((s.sign1 + s.sign2) % w.size).toNat := by
    unfold TSign.bucket
    rcases Nat.lt_or_ge ((s.sign1 + s.sign2) % w.size).toNat (2 ^ 31) with hn | hn
    · exact Int.le_of_eq (intOf_of_lt hn)
    · rw [intOf_of_le hn]
      omega
  exact ⟨h, by omega⟩

theorem search_eq_none (h : s.bucket c.size < 0) : c.search s = none := by
  unfold search bucket
  rw [if_neg fun hr => absurd hr.1 (Int.not_le.mpr h)]
  rfl

theorem modifyItem_eq_none (f : Item T → Item T) (h : k < 0) : c.modifyItem k f = none :=
  if_neg fun hr => absurd hr.1 (Int.not_le.mpr h)

theorem insertIntoFreeList_eq_none (h : c.freeList.prev < -1) :
    c.insertIntoFreeList k = none := by
  have hne : c.freeList.prev ≠ -1 := by omega
  have hneg : c.freeList.prev < 0 := by omega
  simp [insertIntoFreeList, hne, modifyItem_eq_none _ hneg]

end Accesses

theorem Entries.busySlots_eq {c : CacheManager T} {w : View T} {A : Slots T} (h : Entries w A)
    (hc : c.view = w) : c.busySlots = A.busy := by
  subst hc
  have hl := h.length_busy_le
  change follow (-1) c.view.link.next c.view.size.toNat c.view.busyList.next = _
  rw [h.busy.head_eq]
  exact h.busy.seg.follow_eq h.busy.nil_notMem hl

namespace Oversized

variable {c : CacheManager T} {w : View T} {A : Slots T} {k : ℤ} {s : TSign} {v : T}

theorem size_pos (h : Oversized w A) : 0 < w.size.toNat := Nat.zero_lt_of_lt h.size_gt

theorem freeListSize_ne_zero (h : Oversized w A) (hc : c.view = w) : c.freeListSize ≠ 0 := by
  intro h0
  have hsize := h.free_size
  rw [← hc] at hsize
  change c.freeListSize.toNat + _ = _ + c.size.toNat at hsize
  have hgt : 2 ^ 31 < c.size.toNat := by
    have := h.size_gt
    rwa [← hc] at this
  have hne := List.length_pos_iff.mpr h.free_ne_nil
  rw [h0, UInt32.toNat_zero] at hsize
  omega

/-- No call reclaims slots. -/
theorem makeRoom_eq (h : Oversized w A) (hc : c.view = w) : c.makeRoom = some c :=
  if_neg (h.freeListSize_ne_zero hc)

theorem slots_makeRoom (h : Oversized w A) : A.makeRoom w.size = A := if_neg h.free_ne_nil

theorem refresh (h : Oversized w A) (hk : k ∈ A.busy) :
    Oversized (Entries.refreshed w k) (A.refresh k) := by
  have he := h.toEntries.refresh hk
  have hkf : k ∉ A.free := fun hf => h.free_notMem_busy hf hk
  have hnil : -1 ∉ A.free := fun hf => ne_nil (h.inRange_free hf) rfl
  have hseg : Seg (w.link.unlink (-1) k) (-1) A.free (-2 ^ 31) := by
    obtain ⟨a, b, -, hb⟩ := h.exists_busy_split hk
    have hbusy := h.busy.seg
    rw [hb] at hbusy
    exact hbusy.unlink_frame (fun y hy hf => h.free_notMem_busy hf (hb ▸ hy)) hnil h.free_seg
  have htail := (h.unlink_busy hk).tail_notMem
    (fun y hy hf => h.free_notMem_busy hf (List.mem_of_mem_erase hy)) hnil
  have hlen := (Slots.refresh_perm hk).length_eq
  exact { he with
    size_gt := h.size_gt
    free_seg := hseg.pushBack_frame hkf htail
    free_head := h.free_head
    free_ne_nil := h.free_ne_nil
    free_tail := h.free_tail
    free_size := h.free_size
    slots_length := hlen ▸ h.slots_length }

theorem assign (h : Oversized w A) (k : ℤ) (v : T) :
    Oversized { w with entry := Function.update w.entry k ((w.entry k).1, v) } (A.assign k v) :=
  { h.toEntries.assign k v with
    size_gt := h.size_gt
    free_seg := h.free_seg
    free_head := h.free_head
    free_ne_nil := h.free_ne_nil
    free_tail := h.free_tail
    free_size := h.free_size
    slots_length := h.slots_length }

variable {y : ℤ} {free : List ℤ}

theorem free_links (h : Oversized w A) (hf : A.free = k :: y :: free) :
    w.link.prev k = -1 ∧ w.link.next k = y ∧ w.link.unlink (-1) k = w.link.setPrev y (-1) := by
  have hseg := h.free_seg
  rw [hf] at hseg
  have hy : y ≠ -1 := ne_nil (h.inRange_free (by simp [hf]))
  exact ⟨hseg.1, hseg.2.1, unlink_head hseg.1 hseg.2.1 hy⟩

theorem store (h : Oversized w A) (hi : w.InRange (s.bucket w.size))
    (hf : A.free = k :: y :: free) (v : T) :
    Oversized (Entries.stored w k s v) (A.store w.size s v) := by
  obtain ⟨hprev, hnext, hunlink⟩ := h.free_links hf
  have hkf : k ∈ A.free := by simp [hf]
  have hyf : y ∈ A.free := by simp [hf]
  have hy : y ≠ -1 := ne_nil (h.inRange_free hyf)
  have hnd := (List.nodup_append.mp h.slots_nodup).1
  rw [hf] at hnd
  have hnil : -1 ∉ y :: free := fun hm =>
    ne_nil (h.inRange_free (hf ▸ List.mem_cons_of_mem k hm)) rfl
  have hbusy : DList (-1) (w.link.unlink (-1) k) w.busyList.next w.busyList.prev A.busy := by
    rw [hunlink]
    exact { h.busy with seg := h.busy.seg.setPrev (h.free_notMem_busy hyf) }
  have hseg : Seg (w.link.unlink (-1) k) (-1) (y :: free) (-2 ^ 31) := by
    have hseg := h.free_seg
    rw [hf] at hseg
    rw [hunlink]
    exact hseg.2.2.setPrev_head (List.nodup_cons.mp hnd).2
  have htail := hbusy.tail_notMem
    (fun x hx hm => h.free_notMem_busy (hf ▸ List.mem_cons_of_mem k hm) hx) hnil
  have he := h.toEntries.store hi hf hbusy v
  have hA : (A.store w.size s v).free = y :: free ∧
      (A.store w.size s v).busy = A.busy ++ [k] := by
    simp [Slots.store, hf]
  have hlen := h.slots_length
  have hsize := h.free_size
  have hgt := h.size_gt
  rw [hf, List.length_cons] at hlen hsize
  refine { he with
    size_gt := h.size_gt
    free_seg := ?_
    free_head := ?_
    free_ne_nil := by simp [hA.1]
    free_tail := ?_
    free_size := ?_
    slots_length := ?_ }
  · rw [hA.1]
    exact hseg.pushBack_frame (List.nodup_cons.mp hnd).1 htail
  · rw [hA.1]
    change (if w.link.prev k = -1 then w.link.next k else w.freeList.next) = y
    rw [if_pos hprev, hnext]
  · change (if w.link.next k = -1 then w.link.prev k else w.freeList.prev) < -1
    rw [if_neg (by rwa [hnext])]
    exact h.free_tail
  · rw [hA.1]
    change (w.freeListSize - 1).toNat + 2 ^ 31 = (y :: free).length + w.size.toNat
    rw [UInt32.toNat_sub_of_le _ _ (by rw [UInt32.le_iff_toNat_le, UInt32.toNat_one]; omega),
      UInt32.toNat_one]
    omega
  · rw [hA.1, hA.2, List.length_append, List.length_singleton]
    omega

/-- The last numbered slot cannot be taken: none follows it. -/
theorem insertNew_eq_none (h : Oversized w A) (hc : c.view = w) (hf : A.free = [k]) :
    c.insertNew s v = none := by
  have hseg := h.free_seg
  rw [hf] at hseg
  have hhead : c.freeList.next = k := by
    have hhead := h.free_head
    rwa [hf, ← hc] at hhead
  have hkr : w.InRange k := h.inRange_free (by simp [hf])
  have hget : c.getFromFreeList = none := by
    unfold getFromFreeList
    simp only [hhead, item_of_inRange hc hkr, Option.bind_eq_bind, Option.bind_some,
      pvalue_linkNext, hc, hseg.2.1, List.headD_nil]
    rw [if_neg (by decide), modifyItem_eq_none _ (by decide)]
    rfl
  unfold insertNew
  rw [hget]
  rfl

theorem insertSign_succeeds (h : Oversized w A) (hc : c.view = w)
    (hi : w.InRange (s.bucket w.size))
    (hroom : A.hit w.size s = none → A.busy.length + 1 < 2 ^ 31) (v : T) :
    Succeeds (c.insertSign s v) fun d =>
      d.view.size = w.size ∧ Oversized d.view (A.insert w.size s v) := by
  unfold insertSign Slots.insert
  rw [h.makeRoom_eq hc, h.slots_makeRoom]
  simp only [Option.bind_eq_bind, Option.bind_some, h.search_eq hc hi]
  cases hh : A.hit w.size s with
  | some k =>
    refine (modifyItem_value hc (h.inRange_busy (h.of_hit hi hh).1)).mono fun d hd => ?_
    rw [hd]
    exact ⟨rfl, h.assign k v⟩
  | none =>
    have hlen := h.slots_length
    have hbusy := hroom hh
    obtain ⟨k, y, free, hf⟩ : ∃ k y free, A.free = k :: y :: free := by
      rcases hf : A.free with _ | ⟨k, _ | ⟨y, free⟩⟩
      · exact absurd hf h.free_ne_nil
      · rw [hf, List.length_singleton] at hlen
        omega
      · exact ⟨k, y, free, rfl⟩
    obtain ⟨hprev, hnext, -⟩ := h.free_links hf
    have hhead : w.freeList.next = k := by rw [h.free_head, hf, List.headD_cons]
    refine Succeeds.map ((h.insertNew_succeeds hc hi hhead (h.inRange_free (by simp [hf])) hprev
      (fun _ => hnext ▸ h.inRange_free (by simp [hf])) v).mono fun r hr => ?_)
    rw [hr.2]
    exact ⟨rfl, h.store hi hf v⟩

theorem removeSign_succeeds (h : Oversized w A) (hc : c.view = w)
    (hi : w.InRange (s.bucket w.size)) (hmiss : A.hit w.size s = none) :
    Succeeds (c.removeSign s) fun d =>
      d.view.size = w.size ∧ Oversized d.view (A.remove w.size s) := by
  unfold removeSign Slots.remove
  rw [h.search_eq hc hi, hmiss]
  simpa [hc] using h

theorem findSign_succeeds (h : Oversized w A) (hc : c.view = w)
    (hi : w.InRange (s.bucket w.size)) :
    Succeeds (c.findSign s) fun r => r.1.view.size = w.size ∧
      Oversized r.1.view (A.find w.size s).1 ∧ r.2 = (A.find w.size s).2 := by
  refine (h.toEntries.findSign_succeeds hc hi).mono ?_
  rintro r ⟨hr, hr₂⟩
  rw [hr]
  unfold Slots.find at hr₂ ⊢
  cases hh : A.hit w.size s with
  | none => exact ⟨rfl, h, by rw [hr₂, hh]⟩
  | some k => exact ⟨rfl, h.refresh (h.of_hit hi hh).1, by rw [hr₂, hh]⟩

theorem inRange_bucket (h : Oversized w A) (hc : c.view = w) {o : Op T} (hn : c.Numbered o) :
    w.InRange (o.sign.bucket w.size) := by
  subst hc
  rcases hn with hle | ⟨hb, -⟩
  · exact absurd h.size_gt (Nat.not_lt.mpr hle)
  · exact inRange_bucket_of_nonneg h.size_pos hb

theorem callOp_succeeds (h : Oversized w A) (hc : c.view = w) {o : Op T} (hn : c.Numbered o) :
    Succeeds (c.callOp o) fun r => r.1.view.size = w.size ∧
      Oversized r.1.view (A.call w.size o).1 ∧ r.2 = (A.call w.size o).2 := by
  have hi := h.inRange_bucket hc hn
  have hgt : ¬ c.size.toNat ≤ 2 ^ 31 := by
    subst hc
    exact Nat.not_le.mpr h.size_gt
  have hneed := (hn.resolve_left hgt).2
  cases o with
  | insert sign value =>
    have hroom : A.hit w.size sign = none → A.busy.length + 1 < 2 ^ 31 := fun hmiss => by
      rw [← h.busySlots_eq hc]
      refine hneed.resolve_left ?_
      rintro ⟨k, hk⟩
      rw [h.search_eq (s := sign) hc hi] at hk
      exact absurd (hmiss.symm.trans (Option.some_inj.mp hk)) (by simp)
    exact Succeeds.map ((h.insertSign_succeeds hc hi hroom value).mono fun d hd =>
      ⟨hd.1, hd.2, rfl⟩)
  | remove sign =>
    have hmiss : A.hit w.size sign = none := by
      have hneed : c.search sign = some none := hneed
      rwa [h.search_eq (s := sign) hc hi, Option.some_inj] at hneed
    exact Succeeds.map ((h.removeSign_succeeds hc hi hmiss).mono fun d hd => ⟨hd.1, hd.2, rfl⟩)
  | find sign => exact h.findSign_succeeds hc hi

theorem bucket_nonneg_of_isSome (h : Oversized w A) (hc : c.view = w) {o : Op T}
    (hs : (c.callOp o).isSome) : 0 ≤ o.sign.bucket c.size := by
  by_contra hneg
  have hnone : c.search o.sign = none := search_eq_none (Int.not_le.mp hneg)
  cases o with
  | insert sign value =>
    have hnone : c.search sign = none := hnone
    simp [callOp, insertSign, h.makeRoom_eq hc, hnone] at hs
  | remove sign =>
    have hnone : c.search sign = none := hnone
    simp [callOp, removeSign, hnone] at hs
  | find sign =>
    have hnone : { c with visitCnt := c.visitCnt + 1 }.search sign = none :=
      search_eq_none (Int.not_le.mp hneg)
    simp [callOp, findSign, hnone] at hs

/-- The last numbered slot is never taken. -/
theorem room_of_isSome (h : Oversized w A) (hc : c.view = w) (hi : w.InRange (s.bucket w.size))
    (hs : (c.insertSign s v).isSome) (hmiss : A.hit w.size s = none) :
    A.busy.length + 1 < 2 ^ 31 := by
  by_contra hfull
  have hlen := h.slots_length
  have hpos := List.length_pos_iff.mpr h.free_ne_nil
  obtain ⟨k, hf⟩ := List.length_eq_one_iff.mp (show A.free.length = 1 by omega)
  have hsearch : c.search s = some none := hmiss ▸ h.search_eq hc hi
  simp [insertSign, h.makeRoom_eq hc, hsearch, h.insertNew_eq_none hc hf] at hs

/-- No slot is put back. -/
theorem hit_none_of_isSome (h : Oversized w A) (hc : c.view = w)
    (hi : w.InRange (s.bucket w.size)) (hs : (c.removeSign s).isSome) :
    A.hit w.size s = none := by
  cases hh : A.hit w.size s with
  | none => rfl
  | some k =>
    obtain ⟨d, hd, hv⟩ := h.delFromBusyList_yields hc (h.of_hit hi hh).1
    have htail : d.freeList.prev < -1 := by
      change d.view.freeList.prev < -1
      rw [hv]
      exact h.free_tail
    have hsearch : c.search s = some (some k) := hh ▸ h.search_eq hc hi
    simp [removeSign, hsearch, hd, insertIntoFreeList_eq_none htail] at hs

theorem numbered_of_isSome (h : Oversized w A) (hc : c.view = w) {o : Op T}
    (hs : (c.callOp o).isSome) : c.Numbered o := by
  have hsize : c.size = w.size := congrArg View.size hc
  have hb := h.bucket_nonneg_of_isSome hc hs
  have hi : w.InRange (o.sign.bucket w.size) :=
    inRange_bucket_of_nonneg h.size_pos (hsize ▸ hb)
  refine .inr ⟨hb, ?_⟩
  cases o with
  | insert sign value =>
    have hs : (c.insertSign sign value).isSome := by simpa [callOp] using hs
    have hsearch : c.search sign = some (A.hit w.size sign) := h.search_eq hc hi
    dsimp only
    rw [hsearch, h.busySlots_eq hc]
    cases hh : A.hit w.size sign with
    | none => exact .inr (h.room_of_isSome hc hi hs hh)
    | some k => exact .inl ⟨k, rfl⟩
  | remove sign =>
    have hs : (c.removeSign sign).isSome := by simpa [callOp] using hs
    have hsearch : c.search sign = some (A.hit w.size sign) := h.search_eq hc hi
    exact hsearch.trans (congrArg some (h.hit_none_of_isSome hc hi hs))
  | find sign => trivial

end Oversized

theorem initialView_entries {free : List ℤ} (hnodup : free.Nodup)
    (hrange : ∀ k ∈ free, (initialView size fresh).InRange k) :
    Entries (initialView size fresh) { initialSlots size fresh with free := free } := by
  constructor
  · exact ⟨trivial, List.nodup_nil, by simp [initialSlots], rfl, rfl⟩
  · simpa [initialSlots] using hnodup
  · simpa [initialSlots] using hrange
  · simp [initialSlots]
  · exact fun _ _ => trivial
  · exact fun _ _ => rfl
  · exact fun _ _ => List.nodup_nil
  · simp [initialSlots]
  · rfl

theorem initialView_oversized (h : 2 ^ 31 < size.toNat) {n : ℕ} (hn : n = 2 ^ 31) :
    Oversized (initialView size fresh)
      { initialSlots size fresh with free := (List.range n).map Int.ofNat } := by
  have hlt := size.toNat_lt
  have hlast : (size - 1).toNat = size.toNat - 1 := toNat_sub_one (by omega)
  have hp : ∀ i < n, (initialView size fresh).link.prev (i : ℕ) = (i : ℤ) - 1 :=
    fun i hi => initialView_prev (by omega) (by omega)
  have hnext : ∀ i < n, (initialView size fresh).link.next (i : ℕ) =
      if i + 1 = n then -2 ^ 31 else (i : ℤ) + 1 := by
    intro i hi
    have hof : (UInt32.ofNat (i + 1)).toNat = i + 1 := by
      rw [UInt32.toNat_ofNat']
      omega
    rw [initialView_next (by omega)]
    by_cases hend : i + 1 = n
    · rw [if_pos hend, intOf_of_le (by omega), hof, hend, hn]
      rfl
    · rw [if_neg hend, intOf_of_lt (by omega), hof]
      rfl
  have hnodup : ((List.range n).map Int.ofNat).Nodup :=
    List.Nodup.map (fun _ _ h => Int.ofNat.inj h) List.nodup_range
  have hrange : ∀ k ∈ (List.range n).map Int.ofNat, (initialView size fresh).InRange k := by
    intro k hk
    obtain ⟨i, hi, rfl⟩ := List.mem_map.mp hk
    rw [List.mem_range] at hi
    exact ⟨Int.natCast_nonneg i, Int.ofNat_lt.mpr (show i < size.toNat by omega)⟩
  constructor
  · exact initialView_entries hnodup hrange
  · exact h
  · have := seg_consecutive hp hnext n 0 (by omega)
    simpa [List.range_eq_range'] using this
  · obtain ⟨m, rfl⟩ : ∃ m, n = m + 1 := ⟨n - 1, by omega⟩
    simp [initialView, List.range_succ_eq_map]
  · rw [ne_eq, List.map_eq_nil_iff, List.range_eq_nil]
    omega
  · change intOf (size - 1) < -1
    rw [intOf_of_le (by omega), hlast]
    omega
  · change size.toNat + 2 ^ 31 = ((List.range n).map Int.ofNat).length + size.toNat
    rw [List.length_map, List.length_range]
    omega
  · change ((List.range n).map Int.ofNat).length + 0 = 2 ^ 31
    rw [List.length_map, List.length_range, Nat.add_zero, hn]

/-- A cache of any size is laid out after `init`, as far as its slots are numbered. -/
theorem init_laid (c : CacheManager T) (h : 0 < size.toNat) :
    Succeeds (c.init size fresh) fun d =>
      d.view.size = size ∧ ∃ A : Slots T, Laid d.view A ∧ A.busy = [] := by
  rcases Nat.lt_or_ge (2 ^ 31) size.toNat with hgt | hle
  · refine (init_yields c h).mono fun d hd => ?_
    rw [hd]
    exact ⟨rfl, _, .oversized (initialView_oversized hgt rfl), rfl⟩
  · exact (init_succeeds c h hle).mono fun d hd => ⟨hd.1, _, .layout hd.2, rfl⟩

namespace Laid

variable {c : CacheManager T} {w : View T} {A : Slots T} {o : Op T}

theorem entries (h : Laid w A) : Entries w A := by
  cases h with
  | layout h => exact h.entries
  | oversized h => exact h.toEntries

theorem freeListSize_eq_zero_iff (h : Laid w A) (hc : c.view = w) :
    c.freeListSize = 0 ↔ A.free = [] := by
  cases h with
  | layout h => exact h.freeListSize_eq_zero_iff hc
  | oversized h => exact iff_of_false (h.freeListSize_ne_zero hc) h.free_ne_nil

theorem makeRoom_succeeds (h : Laid w A) (hc : c.view = w) :
    Succeeds c.makeRoom fun d => d.view.size = w.size ∧ Laid d.view (A.makeRoom w.size) := by
  cases h with
  | layout h => exact (h.makeRoom_succeeds hc).mono fun d hd => ⟨hd.1, .layout hd.2⟩
  | oversized h =>
    rw [h.makeRoom_eq hc, h.slots_makeRoom, succeeds_some, hc]
    exact ⟨rfl, .oversized h⟩

theorem makeRoom_free_ne_nil (h : Laid w A) (hs : 10 ≤ w.size.toNat) :
    (A.makeRoom w.size).free ≠ [] := by
  cases h with
  | layout h => exact h.makeRoom_free_ne_nil hs
  | oversized h =>
    rw [h.slots_makeRoom]
    exact h.free_ne_nil

theorem inRange_bucket (h : Laid w A) (hc : c.view = w) (hn : c.Numbered o) :
    w.InRange (o.sign.bucket w.size) := by
  cases h with
  | layout h => exact h.inRange_bucket _
  | oversized h => exact h.inRange_bucket hc hn

theorem call_succeeds (h : Laid w A) (hc : c.view = w) (hs : 10 ≤ w.size.toNat)
    (hn : c.Numbered o) :
    Succeeds (c.callOp o) fun r => r.1.view.size = w.size ∧
      Laid r.1.view (A.call w.size o).1 ∧ r.2 = (A.call w.size o).2 := by
  cases h with
  | layout h =>
    exact (h.call_succeeds hc hs o).mono fun r hr => ⟨hr.1, .layout hr.2.1, hr.2.2⟩
  | oversized h =>
    exact (h.callOp_succeeds hc hn).mono fun r hr => ⟨hr.1, .oversized hr.2.1, hr.2.2⟩

theorem numbered_of_isSome (h : Laid w A) (hc : c.view = w) (hs : (c.callOp o).isSome) :
    c.Numbered o := by
  cases h with
  | layout h =>
    subst hc
    exact .inl h.size_le
  | oversized h => exact h.numbered_of_isSome hc hs

end Laid

end YlUtils.CacheManager
