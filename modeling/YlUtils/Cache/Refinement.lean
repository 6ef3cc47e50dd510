import YlUtils.Cache.Layout

/-! # The cache manager computes the abstract cache

Releasing, refreshing and storing a slot keep the layout of a cache; so the
calls of the cache manager succeed on every laid out cache, and take it to a
layout of what the abstract call returns.
-/

namespace YlUtils.CacheManager

open Linked

variable {T : Type} {c : CacheManager T} {w : View T} {A : Slots T} {k : ℤ} {s : TSign} {v : T}

theorem erase_middle {a b : List ℤ} (h : (a ++ k :: b).Nodup) : (a ++ k :: b).erase k = a ++ b := by
  have hk : k ∉ a := fun hk => (List.nodup_append.mp h).2.2 k hk k (by simp) rfl
  rw [List.erase_append_right _ hk, List.erase_cons_head]

namespace Entries

theorem exists_busy_split (h : Entries w A) (hk : k ∈ A.busy) :
    ∃ a b, A.busy.erase k = a ++ b ∧ A.busy = a ++ k :: b := by
  obtain ⟨a, b, he⟩ := List.append_of_mem hk
  have hn := h.busy.nodup
  rw [he] at hn ⊢
  exact ⟨a, b, erase_middle hn, rfl⟩

theorem exists_chain_split (h : Entries w A) {i : ℤ} (hi : w.InRange i) (hk : k ∈ A.chain i) :
    ∃ a b, (A.chain i).erase k = a ++ b ∧ A.chain i = a ++ k :: b := by
  obtain ⟨a, b, he⟩ := List.append_of_mem hk
  have hn := h.chain_nodup i hi
  rw [he] at hn ⊢
  exact ⟨a, b, erase_middle hn, rfl⟩

theorem unlink_busy (h : Entries w A) (hk : k ∈ A.busy) :
    DList (-1) (w.link.unlink (-1) k) (unlinkEnds w.link w.busyList k).next
      (unlinkEnds w.link w.busyList k).prev (A.busy.erase k) := by
  obtain ⟨a, b, he, hb⟩ := h.exists_busy_split hk
  have hbusy := h.busy
  rw [hb] at hbusy
  rw [he]
  exact hbusy.unlink

theorem delFromBusyList_yields (h : Entries w A) (hc : c.view = w) (hk : k ∈ A.busy) :
    Yields (c.delFromBusyList k)
      { w with link := w.link.unlink (-1) k, busyList := unlinkEnds w.link w.busyList k } := by
  obtain ⟨a, b, he, hb⟩ := h.exists_busy_split hk
  have hbusy := h.busy
  rw [hb] at hbusy
  have hmem : ∀ y ∈ a ++ k :: b, w.InRange y := fun y hy => h.inRange_busy (hb ▸ hy)
  refine CacheManager.delFromBusyList_yields hc (h.inRange_busy hk) (fun hp => ?_) (fun hn => ?_)
    (prev_ne_self hbusy.seg hbusy.nodup hbusy.nil_notMem)
  · exact hmem _ (by simp [(prev_eq_nil_or_mem hbusy.seg).resolve_left hp])
  · exact hmem _ (by simp [(next_eq_nil_or_mem hbusy.seg).resolve_left hn])

/-- What `find` leaves after it moves slot `k` to the back of the busy list. -/
def refreshed (w : View T) (k : ℤ) : View T := { w with
  link := (w.link.unlink (-1) k).pushBack (-1) (unlinkEnds w.link w.busyList k).prev k
  busyList := pushEnds (unlinkEnds w.link w.busyList k) k }

theorem refresh (h : Entries w A) (hk : k ∈ A.busy) : Entries (refreshed w k) (A.refresh k) := by
  have hp := Slots.refresh_perm hk
  have hslots := hp.append_left A.free
  refine { h with
    busy := (h.unlink_busy hk).pushBack h.busy.nodup.not_mem_erase (ne_nil (h.inRange_busy hk))
    slots_nodup := hslots.nodup_iff.mpr h.slots_nodup
    slots_inRange := fun x hx => h.slots_inRange x (hslots.mem_iff.mp hx)
    bucket_inRange := fun x hx => h.bucket_inRange x (hp.mem_iff.mp hx)
    mem_chain := fun i hi x => ?_ }
  rw [hp.mem_iff]
  exact h.mem_chain i hi x

theorem assign (h : Entries w A) (k : ℤ) (v : T) :
    Entries { w with entry := Function.update w.entry k ((w.entry k).1, v) } (A.assign k v) := by
  have hsign : ∀ x, (Function.update A.entry k ((A.entry k).1, v) x).1 = (A.entry x).1 := by
    intro x
    by_cases hx : x = k
    · subst hx; simp
    · simp [hx]
  refine { h with
    bucket_inRange := fun x hx => ?_
    mem_chain := fun i hi x => ?_
    entry_eq := ?_ }
  · change w.InRange ((Function.update A.entry k ((A.entry k).1, v) x).1.bucket _)
    rw [hsign]
    exact h.bucket_inRange x hx
  · change x ∈ A.chain i ↔
      x ∈ A.busy ∧ (Function.update A.entry k ((A.entry k).1, v) x).1.bucket _ = i
    rw [h.mem_chain i hi, hsign]
  · change Function.update w.entry k _ = Function.update A.entry k _
    rw [h.entry_eq]

theorem insertIntoBusyList_yields (h : Entries w A) (hk : k ∈ A.busy) {d : CacheManager T}
    (hd : d.view = { w with
      link := w.link.unlink (-1) k, busyList := unlinkEnds w.link w.busyList k }) :
    Yields (d.insertIntoBusyList k) (refreshed w k) := by
  refine CacheManager.insertIntoBusyList_yields hd (h.inRange_busy hk) fun ht => ?_
  have hb := h.unlink_busy hk
  change (unlinkEnds w.link w.busyList k).prev ≠ -1 at ht
  change w.InRange (unlinkEnds w.link w.busyList k).prev
  rw [hb.tail_eq] at ht ⊢
  exact h.inRange_busy (List.mem_of_mem_erase ((getLastD_eq_or_mem _ _).resolve_left ht))

@[simp] theorem view_recordVisit (c : CacheManager T) : c.recordVisit.view = c.view := by
  unfold recordVisit
  split
  · rfl
  · split <;> rfl

theorem of_hit (h : Entries w A) (hi : w.InRange (s.bucket w.size)) (hh : A.hit w.size s = some k) :
    k ∈ A.busy ∧ (A.entry k).1.bucket w.size = s.bucket w.size :=
  (h.mem_chain _ hi k).mp (List.mem_of_find?_eq_some hh)

theorem findSign_succeeds (h : Entries w A) (hc : c.view = w) (hi : w.InRange (s.bucket w.size)) :
    Succeeds (c.findSign s) fun r =>
      r.1.view = (A.hit w.size s).elim w (refreshed w) ∧ r.2 = (A.find w.size s).2 := by
  have hc' : { c with visitCnt := c.visitCnt + 1 }.view = w := hc
  unfold findSign Slots.find
  simp only [h.search_eq hc' hi, Option.bind_eq_bind, Option.bind_some]
  cases hh : A.hit w.size s with
  | none => simpa using hc'
  | some k =>
    have hk := (h.of_hit hi hh).1
    simp only [item_of_inRange hc' (h.inRange_busy hk), Option.bind_some]
    refine (h.delFromBusyList_yields hc' hk).bind fun d hd => ?_
    refine (h.insertIntoBusyList_yields hk hd).bind fun e he => ?_
    rw [succeeds_some, view_recordVisit]
    have hv : { e with hitCnt := e.hitCnt + 1 }.view = e.view := rfl
    rw [hv, he]
    refine ⟨rfl, ?_⟩
    rw [← h.entry_eq, ← hc]
    rfl

def stored (w : View T) (k : ℤ) (s : TSign) (v : T) : View T := { w with
  link := (w.link.unlink (-1) k).pushBack (-1) w.busyList.prev k
  hash := w.hash.pushFront (-1) (w.pidx (s.bucket w.size)) k
  entry := Function.update w.entry k (s, v)
  pidx := Function.update w.pidx (s.bucket w.size) k
  freeList := unlinkEnds w.link w.freeList k
  busyList := pushEnds w.busyList k
  freeListSize := w.freeListSize - 1 }

variable {free : List ℤ}

theorem pushFront_chain (h : Entries w A) {i : ℤ} (hi : w.InRange i) (hk : k ∉ A.busy) (j : ℤ)
    (hj : w.InRange j) :
    Seg (w.hash.pushFront (-1) (w.pidx i) k) (-1)
      (Function.update A.chain i (k :: A.chain i) j) (-1) ∧
    Function.update w.pidx i k j = (Function.update A.chain i (k :: A.chain i) j).headD (-1) := by
  have hkc : ∀ j, w.InRange j → k ∉ A.chain j := fun j hj hc => hk (h.busy_of_mem_chain hj hc)
  by_cases hji : j = i
  · subst hji
    rw [Function.update_self, Function.update_self, h.chain_head j hi]
    exact ⟨(h.chain_seg j hi).pushFront (h.chain_nodup j hi) (h.chain_nil_notMem hi) (hkc j hi),
      rfl⟩
  · rw [Function.update_of_ne hji, Function.update_of_ne hji]
    refine ⟨(h.chain_seg j hj).pushFront_frame (hkc j hj) ?_, h.chain_head j hj⟩
    rw [h.chain_head i hi]
    rcases headD_eq_or_mem (A.chain i) (-1) with he | he
    · rw [he]; exact h.chain_nil_notMem hj
    · exact h.chain_disjoint hi hj (Ne.symm hji) he

theorem store (h : Entries w A) (hi : w.InRange (s.bucket w.size)) (hf : A.free = k :: free)
    (hbusy : DList (-1) (w.link.unlink (-1) k) w.busyList.next w.busyList.prev A.busy) (v : T) :
    Entries (stored w k s v) (A.store w.size s v) := by
  have hkf : k ∈ A.free := by simp [hf]
  have hkb : k ∉ A.busy := h.free_notMem_busy hkf
  have hkc : ∀ j, w.InRange j → k ∉ A.chain j := fun j hj hc => hkb (h.busy_of_mem_chain hj hc)
  have hA : A.store w.size s v = {
      free := free
      busy := A.busy ++ [k]
      chain := Function.update A.chain (s.bucket w.size) (k :: A.chain (s.bucket w.size))
      entry := Function.update A.entry k (s, v) } := by
    simp [Slots.store, hf]
  have hp : (free ++ (A.busy ++ [k])).Perm (A.free ++ A.busy) := by
    rw [hf, ← List.append_assoc]
    exact List.perm_append_singleton _ _
  rw [hA]
  refine ⟨hbusy.pushBack hkb (ne_nil (h.inRange_free hkf)), hp.nodup_iff.mpr h.slots_nodup,
    fun x hx => h.slots_inRange x (hp.mem_iff.mp hx), ?_, ?_, ?_, ?_, ?_, ?_⟩
  · intro x hx
    change w.InRange ((Function.update A.entry k (s, v) x).1.bucket w.size)
    by_cases hxk : x = k
    · rw [hxk, Function.update_self]
      exact hi
    · rw [Function.update_of_ne hxk]
      rcases List.mem_append.mp hx with hx | hx
      · exact h.bucket_inRange x hx
      · exact absurd (List.mem_singleton.mp hx) hxk
  · exact fun j hj => (h.pushFront_chain hi hkb j hj).1
  · exact fun j hj => (h.pushFront_chain hi hkb j hj).2
  · intro j hj
    change (Function.update A.chain _ _ j).Nodup
    by_cases hji : j = s.bucket w.size
    · subst hji
      rw [Function.update_self]
      exact List.nodup_cons.mpr ⟨hkc _ hi, h.chain_nodup _ hi⟩
    · rw [Function.update_of_ne hji]
      exact h.chain_nodup j hj
  · intro j hj x
    change x ∈ Function.update A.chain _ _ j ↔
      x ∈ A.busy ++ [k] ∧ (Function.update A.entry k (s, v) x).1.bucket w.size = j
    rw [List.mem_append, List.mem_singleton]
    by_cases hx : x = k
    · subst hx
      by_cases hji : j = s.bucket w.size
      · simp [hji]
      · simp [hji, hkc j hj, Ne.symm hji]
    · by_cases hji : j = s.bucket w.size
      · subst hji
        simp [hx, h.mem_chain _ hi]
      · simp [hx, hji, h.mem_chain j hj]
  · change Function.update w.entry k _ = Function.update A.entry k _
    rw [h.entry_eq]

theorem insertNew_succeeds (h : Entries w A) (hc : c.view = w) (hi : w.InRange (s.bucket w.size))
    (hhead : w.freeList.next = k) (hkr : w.InRange k) (hprev : w.link.prev k = -1)
    (hnext : w.link.next k ≠ -1 → w.InRange (w.link.next k)) (v : T) :
    Succeeds (c.insertNew s v) fun r => r.1 = k ∧ r.2.view = stored w k s v := by
  have hsize : c.size = w.size := congrArg View.size hc
  unfold insertNew
  simp only [Option.bind_eq_bind, hsize]
  refine (getFromFreeList_yields hc (hhead ▸ hkr) (hhead ▸ hnext) (hhead ▸ hprev)).bind
    fun r hr => ?_
  obtain ⟨hr₁, hr₂⟩ := hr
  rw [hhead] at hr₁ hr₂
  obtain ⟨pos, d⟩ := r
  subst hr₁
  have hb : d.bucket (s.bucket w.size) = some (w.pidx (s.bucket w.size)) := by
    have : d.pidx = w.pidx := by change d.view.pidx = _; rw [hr₂]
    rw [← this]
    exact if_pos (show d.view.InRange _ by rw [hr₂]; exact hi)
  simp only [hb, Option.bind_some]
  refine (modifyItem_new hr₂ hkr).bind fun e he => ?_
  refine Succeeds.bind (P := fun e : CacheManager T => e.view = { w with
    link := w.link.unlink (-1) pos
    hash := w.hash.pushFront (-1) (w.pidx (s.bucket w.size)) pos
    entry := Function.update w.entry pos (s, v)
    freeList := unlinkEnds w.link w.freeList pos
    freeListSize := w.freeListSize - 1 }) ?_ fun e he => ?_
  · by_cases hn : w.pidx (s.bucket w.size) = -1
    · simpa [hn, Links.pushFront] using he
    · rw [if_neg hn]
      have hm : w.InRange (w.pidx (s.bucket w.size)) := by
        rw [h.chain_head _ hi] at hn ⊢
        exact h.inRange_busy (h.busy_of_mem_chain hi ((headD_eq_or_mem _ _).resolve_left hn))
      simpa [hn, Links.pushFront] using modifyItem_hashPrev he hm
  · refine (setBucket_yields he hi).bind fun f hf => ?_
    refine (CacheManager.insertIntoBusyList_yields hf hkr fun ht => ?_).bind fun g hg => ?_
    · change w.busyList.prev ≠ -1 at ht
      change w.InRange w.busyList.prev
      rw [h.busy.tail_eq] at ht ⊢
      exact h.inRange_busy ((getLastD_eq_or_mem _ _).resolve_left ht)
    · rw [succeeds_some]
      exact ⟨rfl, hg⟩

end Entries

namespace Layout

theorem unlink_busy (h : Layout w A) (hk : k ∈ A.busy) :
    DList (-1) (w.link.unlink (-1) k) w.freeList.next w.freeList.prev A.free := by
  obtain ⟨a, b, -, hb⟩ := h.entries.exists_busy_split hk
  have hbusy := h.busy
  rw [hb] at hbusy
  exact hbusy.unlink_frame h.free fun y hy hf => h.free_notMem_busy hf (hb ▸ hy)

theorem unlink_chain (h : Layout w A) {i : ℤ} (hi : w.InRange i) (hk : k ∈ A.chain i) (j : ℤ)
    (hj : w.InRange j) :
    Seg (w.hash.unlink (-1) k) (-1)
      (Function.update A.chain i ((A.chain i).erase k) j) (-1) ∧
    unlinkHead w.hash w.pidx i k j =
      (Function.update A.chain i ((A.chain i).erase k) j).headD (-1) := by
  obtain ⟨a, b, he, hb⟩ := h.entries.exists_chain_split hi hk
  have hseg := h.chain_seg i hi
  have hnd := h.chain_nodup i hi
  have hnil := h.entries.chain_nil_notMem hi
  rw [hb] at hseg hnd hnil
  by_cases hji : j = i
  · subst hji
    rw [Function.update_self, he]
    refine ⟨hseg.unlink hnd hnil, ?_⟩
    rw [← hseg.unlink_headD hnil, unlinkHead, ← hb, ← h.chain_head j hi]
    split <;> simp
  · rw [Function.update_of_ne hji]
    constructor
    · refine hseg.unlink_frame (fun y hy => ?_) (h.entries.chain_nil_notMem hj) (h.chain_seg j hj)
      exact h.entries.chain_disjoint hi hj (Ne.symm hji) (hb ▸ hy)
    · rw [← h.chain_head j hj, unlinkHead]
      split <;> simp [hji]

theorem delFromHashList_yields (h : Layout w A) {i : ℤ} (hi : w.InRange i) (hk : k ∈ A.chain i)
    {d : CacheManager T} {x : View T} (hd : d.view = x) (hs : x.size = w.size)
    (hh : x.hash = w.hash) :
    Yields (d.delFromHashList i k)
      { x with hash := w.hash.unlink (-1) k, pidx := unlinkHead w.hash x.pidx i k } := by
  obtain ⟨a, b, he, hb⟩ := h.entries.exists_chain_split hi hk
  have hseg := h.chain_seg i hi
  have hnd := h.chain_nodup i hi
  have hnil := h.entries.chain_nil_notMem hi
  rw [hb] at hseg hnd hnil
  have hr : ∀ {y}, w.InRange y → x.InRange y := fun hy => by rwa [View.InRange, hs]
  have hmem : ∀ y ∈ a ++ k :: b, x.InRange y := fun y hy =>
    hr (h.inRange_busy (h.entries.busy_of_mem_chain hi (hb ▸ hy)))
  rw [← hh] at hseg ⊢
  refine CacheManager.delFromHashList_yields hd (hmem k (by simp)) (hr hi) (fun hp => ?_)
    (fun hn => ?_) (prev_ne_self hseg hnd hnil)
  · exact hmem _ (by simp [(prev_eq_nil_or_mem hseg).resolve_left hp])
  · exact hmem _ (by simp [(next_eq_nil_or_mem hseg).resolve_left hn])

def released (w : View T) (k : ℤ) : View T := { w with
  link := (w.link.unlink (-1) k).pushBack (-1) w.freeList.prev k
  hash := w.hash.unlink (-1) k
  pidx := unlinkHead w.hash w.pidx ((w.entry k).1.bucket w.size) k
  busyList := unlinkEnds w.link w.busyList k
  freeList := pushEnds w.freeList k
  freeListSize := w.freeListSize + 1 }

theorem release_slots (h : Layout w A) (hk : k ∈ A.busy) :
    (A.free ++ [k] ++ A.busy.erase k).Perm (allSlots w.size) := by
  have hp : (A.free ++ [k] ++ A.busy.erase k).Perm (A.free ++ A.busy) := by
    rw [List.append_assoc]
    exact (List.perm_cons_erase hk).symm.append_left _
  exact hp.trans h.slots

theorem release_free_size (h : Layout w A) (hk : k ∈ A.busy) :
    (w.freeListSize + 1).toNat = A.free.length + 1 := by
  have hl := h.length_add_length
  have hb := List.length_pos_of_mem hk
  have hs := h.size_le
  rw [UInt32.toNat_add, h.free_size]
  simp only [UInt32.toNat_one]
  omega

theorem release (h : Layout w A) (hk : k ∈ A.busy) :
    Layout (released w k) (A.release w.size k) := by
  have hi := h.inRange_bucket (A.entry k).1
  have hch := h.entries.mem_chain_bucket hk
  have hkf : k ∉ A.free := fun hf => h.free_notMem_busy hf hk
  have hkb : k ∉ A.busy.erase k := h.busy.nodup.not_mem_erase
  have hd : ∀ y ∈ A.free, y ∉ A.busy.erase k := fun y hy hb =>
    h.free_notMem_busy hy (List.mem_of_mem_erase hb)
  have hfree := h.unlink_busy hk
  have hbusy := h.entries.unlink_busy hk
  have hent : w.entry = A.entry := h.entry_eq
  refine ⟨⟨?_, ?_, h.release_slots hk, ?_, ?_, ?_, ?_, ?_, h.entry_eq⟩, h.size_pos, h.size_le⟩
  · exact hfree.pushBack hkf (ne_nil (h.inRange_busy hk))
  · exact hfree.pushBack_frame hbusy hd hkb
  · change (w.freeListSize + 1).toNat = (A.free ++ [k]).length
    rw [h.release_free_size hk, List.length_append, List.length_singleton]
  · exact fun j hj => (h.unlink_chain hi hch j hj).1
  · intro j hj
    change unlinkHead w.hash w.pidx ((w.entry k).1.bucket w.size) k j = _
    rw [hent]
    exact (h.unlink_chain hi hch j hj).2
  · intro j hj
    change (Function.update A.chain _ _ j).Nodup
    by_cases hji : j = (A.entry k).1.bucket w.size
    · subst hji
      rw [Function.update_self]
      exact (h.chain_nodup _ hi).erase k
    · rw [Function.update_of_ne hji]
      exact h.chain_nodup j hj
  · intro j hj x
    change x ∈ Function.update A.chain _ _ j ↔ x ∈ A.busy.erase k ∧ (A.entry x).1.bucket w.size = j
    by_cases hji : j = (A.entry k).1.bucket w.size
    · subst hji
      rw [Function.update_self, (h.chain_nodup _ hi).mem_erase_iff, h.busy.nodup.mem_erase_iff,
        h.mem_chain _ hi]
      tauto
    · rw [Function.update_of_ne hji, h.busy.nodup.mem_erase_iff, h.mem_chain j hj]
      constructor
      · rintro ⟨hx, rfl⟩
        exact ⟨⟨fun he => hji (by rw [he]), hx⟩, rfl⟩
      · rintro ⟨⟨_, hx⟩, rfl⟩
        exact ⟨hx, rfl⟩

theorem insertIntoFreeList_guard (h : Layout w A) (ht : w.freeList.prev ≠ -1) :
    w.InRange w.freeList.prev := by
  rw [h.free.tail_eq] at ht ⊢
  exact h.inRange_free ((getLastD_eq_or_mem _ _).resolve_left ht)

theorem reclaimOne_succeeds (h : Layout w A) (hc : c.view = w) (hne : A.busy ≠ []) :
    Succeeds c.reclaimOne fun d =>
      d.view.size = w.size ∧ Layout d.view (A.evictOne w.size) := by
  obtain ⟨k, busy, hb⟩ := List.exists_cons_of_ne_nil hne
  have hk : k ∈ A.busy := by simp [hb]
  have hhead : c.busyList.next = k := by
    have := h.busy.head_eq
    rw [hb] at this
    rw [← hc] at this
    exact this
  have hev : A.evictOne w.size = A.release w.size k := by simp [Slots.evictOne, hb]
  rw [hev]
  unfold reclaimOne
  simp only [Option.bind_eq_bind, hhead]
  refine (h.entries.delFromBusyList_yields hc hk).bind fun d hd => ?_
  have hkr := h.inRange_busy hk
  rw [item_of_inRange hd hkr]
  have hsize : d.size = w.size := congrArg View.size hd
  simp only [Option.bind_some, pvalue_sign, hd, hsize, h.entry_eq]
  refine (h.delFromHashList_yields (h.inRange_bucket _) (h.entries.mem_chain_bucket hk) hd rfl
    rfl).bind fun e he => ?_
  refine (insertIntoFreeList_yields he hkr h.insertIntoFreeList_guard).mono fun f hf => ?_
  have hrel : f.view = released w k := by rw [hf]; simp [released, h.entry_eq]
  rw [hrel]
  exact ⟨rfl, h.release hk⟩

theorem reclaimLoop_succeeds : ∀ (n : ℕ) {c : CacheManager T} {w : View T} {A : Slots T},
    Layout w A → c.view = w → n ≤ A.busy.length →
    Succeeds (reclaimLoop n c) fun d => d.view.size = w.size ∧ Layout d.view (A.evict w.size n)
  | 0, _, _, _, h, hc, _ => by
    rw [reclaimLoop, succeeds_some, hc]
    exact ⟨rfl, h⟩
  | n + 1, _, w, A, h, hc, hn => by
    have hne : A.busy ≠ [] := fun he => by simp [he] at hn
    refine (h.reclaimOne_succeeds hc hne).bind fun d hd => ?_
    obtain ⟨hs, hd⟩ := hd
    have hlen : n ≤ (A.evictOne w.size).busy.length := by
      rw [Slots.evictOne_busy, List.length_drop]
      omega
    refine (reclaimLoop_succeeds n hd rfl hlen).mono fun e he => ?_
    rw [hs] at he
    exact he

theorem freeListSize_eq_zero_iff (h : Layout w A) (hc : c.view = w) :
    c.freeListSize = 0 ↔ A.free = [] := by
  have hf : c.freeListSize.toNat = A.free.length := by
    rw [← h.free_size, ← hc]
    rfl
  rw [← UInt32.toNat_inj, hf]
  exact List.length_eq_zero_iff

theorem quota_le_length_busy (h : Layout w A) (hf : A.free = []) :
    (w.size / 10).toNat ≤ A.busy.length := by
  have hl := h.length_add_length
  rw [hf, List.length_nil] at hl
  rw [Slots.size_div_ten]
  omega

theorem makeRoom_succeeds (h : Layout w A) (hc : c.view = w) :
    Succeeds c.makeRoom fun d =>
      d.view.size = w.size ∧ Layout d.view (A.makeRoom w.size) := by
  have hfl := h.freeListSize_eq_zero_iff hc
  have hsize : c.size = w.size := congrArg View.size hc
  unfold makeRoom Slots.makeRoom
  by_cases hfree : A.free = []
  · rw [if_pos (hfl.mpr hfree), if_pos hfree]
    unfold reclaim Slots.reclaim
    rw [hsize]
    exact h.reclaimLoop_succeeds _ hc (h.quota_le_length_busy hfree)
  · rw [if_neg (mt hfl.mp hfree), if_neg hfree, succeeds_some, hc]
    exact ⟨rfl, h⟩

/-- With at least ten slots there is a free one once room is made. -/
theorem makeRoom_free_ne_nil (h : Layout w A) (hs : 10 ≤ w.size.toNat) :
    (A.makeRoom w.size).free ≠ [] := by
  unfold Slots.makeRoom
  by_cases hf : A.free = []
  · have hl := h.length_add_length
    rw [hf, List.length_nil] at hl
    rw [if_pos hf, A.reclaim_free, ← List.length_pos_iff, List.length_append, List.length_take]
    omega
  · rwa [if_neg hf]

theorem removeSign_succeeds (h : Layout w A) (hc : c.view = w) (s : TSign) :
    Succeeds (c.removeSign s) fun d =>
      d.view.size = w.size ∧ Layout d.view (A.remove w.size s) := by
  have hsize : c.size = w.size := congrArg View.size hc
  unfold removeSign Slots.remove
  rw [h.search_eq hc]
  cases hh : A.hit w.size s with
  | none => simpa [hc] using h
  | some k =>
    have hi := h.inRange_bucket s
    have hch : k ∈ A.chain (s.bucket w.size) := List.mem_of_find?_eq_some hh
    obtain ⟨hk, hks⟩ := (h.mem_chain _ hi k).mp hch
    simp only [Option.bind_eq_bind, Option.bind_some]
    refine (h.entries.delFromBusyList_yields hc hk).bind fun d hd => ?_
    refine (insertIntoFreeList_yields hd (h.inRange_busy hk) h.insertIntoFreeList_guard).bind
      fun e he => ?_
    rw [hsize]
    refine (h.delFromHashList_yields hi hch he rfl rfl).mono fun f hf => ?_
    have hrel : f.view = released w k := by rw [hf]; simp [released, h.entry_eq, hks]
    rw [hrel]
    exact ⟨rfl, h.release hk⟩

theorem refresh (h : Layout w A) (hk : k ∈ A.busy) :
    Layout (Entries.refreshed w k) (A.refresh k) := by
  have hkf : k ∉ A.free := fun hf => h.free_notMem_busy hf hk
  have hd : ∀ y ∈ A.busy.erase k, y ∉ A.free := fun y hy hf =>
    h.free_notMem_busy hf (List.mem_of_mem_erase hy)
  have he := h.entries.refresh hk
  exact { h with
    free := (h.entries.unlink_busy hk).pushBack_frame (h.unlink_busy hk) hd hkf
    busy := he.busy
    slots := ((Slots.refresh_perm hk).append_left _).trans h.slots
    mem_chain := he.mem_chain }

theorem assign (h : Layout w A) (k : ℤ) (v : T) :
    Layout { w with entry := Function.update w.entry k ((w.entry k).1, v) } (A.assign k v) :=
  { h with
    mem_chain := (h.entries.assign k v).mem_chain
    entry_eq := (h.entries.assign k v).entry_eq }

theorem findSign_succeeds (h : Layout w A) (hc : c.view = w) (s : TSign) :
    Succeeds (c.findSign s) fun r => r.1.view.size = w.size ∧
      Layout r.1.view (A.find w.size s).1 ∧ r.2 = (A.find w.size s).2 := by
  have hi := h.inRange_bucket s
  refine (h.entries.findSign_succeeds hc hi).mono ?_
  rintro r ⟨hr, hr₂⟩
  rw [hr]
  unfold Slots.find at hr₂ ⊢
  cases hh : A.hit w.size s with
  | none => exact ⟨rfl, h, by rw [hr₂, hh]⟩
  | some k => exact ⟨rfl, h.refresh (h.entries.of_hit hi hh).1, by rw [hr₂, hh]⟩

variable {free : List ℤ}

theorem unlink_free (h : Layout w A) (hf : A.free = k :: free) :
    DList (-1) (w.link.unlink (-1) k) (unlinkEnds w.link w.freeList k).next
      (unlinkEnds w.link w.freeList k).prev free ∧
    DList (-1) (w.link.unlink (-1) k) w.busyList.next w.busyList.prev A.busy := by
  have hfree := h.free
  rw [hf] at hfree
  refine ⟨DList.unlink (a := []) hfree, DList.unlink_frame (a := []) hfree h.busy fun y hy => ?_⟩
  exact h.free_notMem_busy (hf ▸ hy)

theorem store (h : Layout w A) (hf : A.free = k :: free) (s : TSign) (v : T) :
    Layout (Entries.stored w k s v) (A.store w.size s v) := by
  have hkf : k ∈ A.free := by simp [hf]
  obtain ⟨hfree, hbusy⟩ := h.unlink_free hf
  have hnd : k ∉ free := by
    have := h.free.nodup
    rw [hf] at this
    exact (List.nodup_cons.mp this).1
  have hd : ∀ y ∈ A.busy, y ∉ free := fun y hy hy' =>
    h.free_notMem_busy (by rw [hf]; exact List.mem_cons_of_mem _ hy') hy
  have he := h.entries.store (h.inRange_bucket s) hf hbusy v
  have hA : (A.store w.size s v).free = free ∧ (A.store w.size s v).busy = A.busy ++ [k] := by
    simp [Slots.store, hf]
  refine ⟨⟨?_, he.busy, ?_, ?_, he.chain_seg, he.chain_head, he.chain_nodup, he.mem_chain,
    he.entry_eq⟩, h.size_pos, h.size_le⟩
  · rw [hA.1]
    exact hbusy.pushBack_frame hfree hd hnd
  · have hp : (free ++ (A.busy ++ [k])).Perm (k :: free ++ A.busy) := by
      rw [← List.append_assoc]
      exact List.perm_append_singleton _ _
    rw [hA.1, hA.2]
    exact (hf ▸ hp).trans h.slots
  · have hs := h.free_size
    rw [hf, List.length_cons] at hs
    rw [hA.1]
    change (w.freeListSize - 1).toNat = free.length
    rw [UInt32.toNat_sub_of_le _ _ (by rw [UInt32.le_iff_toNat_le, hs, UInt32.toNat_one]; omega),
      hs]
    simp

theorem insertNew_succeeds (h : Layout w A) (hc : c.view = w) (hf : A.free = k :: free)
    (s : TSign) (v : T) :
    Succeeds (c.insertNew s v) fun r => r.1 = k ∧ r.2.view = Entries.stored w k s v := by
  have hfree := h.free
  rw [hf] at hfree
  have hhead : w.freeList.next = k := hfree.head_eq
  refine h.entries.insertNew_succeeds hc (h.inRange_bucket s) hhead
    (h.inRange_free (by simp [hf])) (seg_neighbours (a := []) hfree.seg).1 (fun hn => ?_) v
  refine h.inRange_free (hf ▸ List.mem_cons_of_mem _ ?_)
  exact (next_eq_nil_or_mem (a := []) hfree.seg).resolve_left hn

/-- There is a free slot for `s` once room is made, if it takes one. -/
def Accepts (A : Slots T) (size : UInt32) (s : TSign) : Prop :=
  (A.makeRoom size).hit size s = none → (A.makeRoom size).free ≠ []

theorem insertSign_succeeds (h : Layout w A) (hc : c.view = w) (hs : Accepts A w.size s) (v : T) :
    Succeeds (c.insertSign s v) fun d =>
      d.view.size = w.size ∧ Layout d.view (A.insert w.size s v) := by
  unfold insertSign Slots.insert
  simp only [Option.bind_eq_bind]
  refine (h.makeRoom_succeeds hc).bind fun d hd => ?_
  obtain ⟨hsize, hd⟩ := hd
  rw [hd.search_eq rfl, hsize]
  simp only [Option.bind_some]
  cases hh : (A.makeRoom w.size).hit w.size s with
  | some k =>
    have hch : k ∈ (A.makeRoom w.size).chain (s.bucket d.view.size) := by
      rw [hsize]; exact List.mem_of_find?_eq_some hh
    have hk := hd.entries.busy_of_mem_chain (hd.inRange_bucket s) hch
    refine (modifyItem_value rfl (hd.inRange_busy hk)).mono fun e he => ?_
    rw [he]
    exact ⟨hsize, hd.assign k v⟩
  | none =>
    obtain ⟨k, free, hf⟩ := List.exists_cons_of_ne_nil (hs hh)
    refine Succeeds.map ((hd.insertNew_succeeds rfl hf s v).mono fun r hr => ?_)
    rw [hr.2]
    have := hd.store hf s v
    rw [hsize] at this
    exact ⟨hsize, this⟩

theorem call_succeeds_of_accepts (h : Layout w A) (hc : c.view = w) (e : Op T)
    (hs : ∀ sign value, e = .insert sign value → Accepts A w.size (sign)) :
    Succeeds (c.callOp e) fun r => r.1.view.size = w.size ∧
      Layout r.1.view (A.call w.size e).1 ∧ r.2 = (A.call w.size e).2 := by
  cases e with
  | insert sign value =>
    refine Succeeds.map ((h.insertSign_succeeds hc (hs sign value rfl) value).mono fun d hd => ?_)
    exact ⟨hd.1, hd.2, rfl⟩
  | remove sign =>
    refine Succeeds.map ((h.removeSign_succeeds hc _).mono fun d hd => ?_)
    exact ⟨hd.1, hd.2, rfl⟩
  | find sign => exact h.findSign_succeeds hc _

theorem call_succeeds (h : Layout w A) (hc : c.view = w) (hs : 10 ≤ w.size.toNat) (e : Op T) :
    Succeeds (c.callOp e) fun r => r.1.view.size = w.size ∧
      Layout r.1.view (A.call w.size e).1 ∧ r.2 = (A.call w.size e).2 :=
  h.call_succeeds_of_accepts hc e fun _ _ _ _ => h.makeRoom_free_ne_nil hs

end Layout

end YlUtils.CacheManager
