import YlUtils.Cache.Safety

/-! # Overwriting an entry

`insert` makes room before it looks for its key. In a full cache it therefore
evicts entries also where it only had to replace a value, and spares the others
in one case alone: the quota is one slot, and that slot holds the key itself.
-/

namespace YlUtils

namespace Slots

variable {T : Type} {A B : Slots T} {size : UInt32} {s t : TSign} {v x : T} {k : ℤ}

def Holds (A : Slots T) (s : TSign) (v : T) : Prop := ∃ k ∈ A.busy, A.entry k = (s, v)

/-- No two busy slots agree in the bucket and in the first word. -/
def Separated (A : Slots T) (size : UInt32) : Prop :=
  ∀ k ∈ A.busy, ∀ l ∈ A.busy, (A.entry k).1.bucket size = (A.entry l).1.bucket size →
    (A.entry k).1.sign1 = (A.entry l).1.sign1 → k = l

theorem Separated.of_subset (h : A.Separated size) (hsub : B.busy ⊆ A.busy)
    (hsign : ∀ k, (B.entry k).1 = (A.entry k).1) : B.Separated size := by
  intro k hk l hl
  rw [hsign, hsign]
  exact h k (hsub hk) l (hsub hl)

theorem Separated.eq_of_entry {l : ℤ} (h : A.Separated size) (hk : k ∈ A.busy) (hl : l ∈ A.busy)
    (he : (A.entry k).1 = (A.entry l).1) : k = l :=
  h k hk l hl (by rw [he]) (by rw [he])

theorem Separated.makeRoom (h : A.Separated size) : (A.makeRoom size).Separated size :=
  h.of_subset (A.makeRoom_busy_sublist size).subset fun _ => by rw [A.makeRoom_entry]

theorem Separated.holds_update (h : A.Separated size) (hk : k ∈ A.busy) (hs : (A.entry k).1 = s)
    (hbusy : ∀ l, l ∈ B.busy ↔ l ∈ A.busy) (hentry : B.entry = Function.update A.entry k (s, v))
    (t : TSign) (x : T) : B.Holds t x ↔ if t = s then x = v else A.Holds t x := by
  have hother : ∀ l ∈ A.busy, (A.entry l).1 = s → l = k := fun l hl hls =>
    h.eq_of_entry hl hk (hls.trans hs.symm)
  unfold Holds
  simp only [hbusy, hentry]
  split
  · next hts =>
    subst hts
    constructor
    · rintro ⟨l, hl, hlx⟩
      rcases eq_or_ne l k with rfl | hne
      · rw [Function.update_self] at hlx
        exact (congrArg Prod.snd hlx).symm
      · rw [Function.update_of_ne hne] at hlx
        exact absurd (hother l hl (by rw [hlx])) hne
    · rintro rfl
      exact ⟨k, hk, Function.update_self ..⟩
  · next hts =>
    constructor
    · rintro ⟨l, hl, hlx⟩
      rcases eq_or_ne l k with rfl | hne
      · rw [Function.update_self] at hlx
        exact absurd (congrArg Prod.fst hlx).symm hts
      · exact ⟨l, hl, by rwa [Function.update_of_ne hne] at hlx⟩
    · rintro ⟨l, hl, hlx⟩
      have hne : l ≠ k := by
        rintro rfl
        exact hts ((congrArg Prod.fst hlx).symm.trans hs)
      exact ⟨l, hl, by rwa [Function.update_of_ne hne]⟩

end Slots

namespace CacheManager

open Linked

variable {T : Type} {size : UInt32} {fresh : ℤ → T × TSign}

/-- A key with the signature is in the cache, and `v` is stored for it. -/
def Holds (c : CacheManager T) (s : TSign) (v : T) : Prop :=
  ∃ k ∈ c.busySlots, (c.pvalue k).sign = s ∧ (c.pvalue k).value = v

/-- From `c` to `d` the value of one signature is replaced, and no slot is taken or freed. -/
structure Replaces (c d : CacheManager T) (s : TSign) (v : T) : Prop where
  holds : ∀ t x, d.Holds t x ↔ if t = s then x = v else c.Holds t x
  free : d.freeSlots = c.freeSlots
  freeListSize : d.freeListSize = c.freeListSize

namespace Entries

variable {c : CacheManager T} {w : View T} {A : Slots T} {s : TSign} {v : T} {k : ℤ}

theorem holds_iff (h : Entries w A) (hc : c.view = w) : c.Holds s v ↔ A.Holds s v := by
  unfold Holds Slots.Holds
  rw [h.busySlots_eq hc]
  simp only [pvalue_sign, pvalue_value, hc, h.entry_eq, Prod.ext_iff]

theorem separated_store (h : Entries w A) (hi : w.InRange (s.bucket w.size))
    (hsep : A.Separated w.size) (hh : A.hit w.size s = none) :
    (A.store w.size s v).Separated w.size := by
  cases hf : A.free with
  | nil => simpa [Slots.store, hf] using hsep
  | cons k free =>
    have hk : k ∉ A.busy := h.free_notMem_busy (by simp [hf])
    have hold : ∀ l ∈ A.busy, Function.update A.entry k (s, v) l = A.entry l := fun l hl =>
      Function.update_of_ne (fun he : l = k => hk (he ▸ hl)) _ _
    intro l hl m hm hb h₁
    simp only [Slots.store, hf, List.mem_append, List.mem_singleton] at hl hm hb h₁
    rcases hl with hl | rfl
    · rw [hold l hl] at hb h₁
      rcases hm with hm | rfl
      · rw [hold m hm] at hb h₁
        exact hsep l hl m hm hb h₁
      · rw [Function.update_self] at hb h₁
        exact absurd h₁ (h.hit_none hi hh hl hb)
    · rw [Function.update_self] at hb h₁
      rcases hm with hm | rfl
      · rw [hold m hm] at hb h₁
        exact absurd h₁.symm (h.hit_none hi hh hm hb.symm)
      · rfl

theorem hit_of_holds (h : Entries w A) (hsep : A.Separated w.size) (hk : k ∈ A.busy)
    (hs : (A.entry k).1 = s) : A.hit w.size s = some k := by
  have hi : w.InRange (s.bucket w.size) := hs ▸ h.bucket_inRange k hk
  cases hh : A.hit w.size s with
  | none => exact absurd (by rw [hs]) (h.hit_none hi hh hk (by rw [hs]))
  | some l =>
    obtain ⟨hl, hb, h₁⟩ := h.hit_some hi hh
    rw [hsep l hl k hk (by rw [hb, hs]) (by rw [h₁, hs])]

end Entries

namespace Layout

variable {c d : CacheManager T} {w : View T} {A B : Slots T} {s t : TSign} {v x : T} {k : ℤ}
  {free : List ℤ}

theorem replaces_iff (h : Layout c.view A) (h' : Layout d.view B) :
    c.Replaces d s v ↔
      (∀ t x, B.Holds t x ↔ if t = s then x = v else A.Holds t x) ∧ B.free = A.free := by
  have hfree : B.free = A.free → d.freeListSize = c.freeListSize := by
    intro he
    apply UInt32.toNat_inj.mp
    calc d.freeListSize.toNat = B.free.length := h'.free_size
      _ = A.free.length := by rw [he]
      _ = c.freeListSize.toNat := h.free_size.symm
  constructor
  · rintro ⟨hholds, hslots, -⟩
    rw [h.freeSlots_eq rfl, h'.freeSlots_eq rfl] at hslots
    simp only [h.entries.holds_iff rfl, h'.entries.holds_iff rfl] at hholds
    exact ⟨hholds, hslots⟩
  · rintro ⟨hholds, hslots⟩
    constructor
    · simpa only [h.entries.holds_iff rfl, h'.entries.holds_iff rfl] using hholds
    · rw [h.freeSlots_eq rfl, h'.freeSlots_eq rfl, hslots]
    · exact hfree hslots

theorem insert_of_full (h : Layout w A) (hc : c.view = w) (hsep : A.Separated w.size)
    (hf : A.free = []) {busy : List ℤ} (hb : A.busy = k :: busy) (hquota : w.size.toNat / 10 = 1)
    (hs : (A.entry k).1 = s) (v : T) :
    (∀ t x, (A.insert w.size s v).Holds t x ↔ if t = s then x = v else A.Holds t x) ∧
      (A.insert w.size s v).free = [] := by
  obtain ⟨d, -, hsize, hB⟩ := h.makeRoom_succeeds hc
  have hroom : A.makeRoom w.size = A.reclaim w.size := if_pos hf
  have hbusy : (A.makeRoom w.size).busy = busy := by
    rw [hroom, A.reclaim_busy, hquota, hb]
    rfl
  have hfree : (A.makeRoom w.size).free = [k] := by
    rw [hroom, A.reclaim_free, hquota, hf, hb]
    rfl
  have hentry : (A.makeRoom w.size).entry = A.entry := A.makeRoom_entry w.size
  have hnd := h.busy.nodup
  rw [hb] at hnd
  have hk : k ∉ busy := (List.nodup_cons.mp hnd).1
  have hmem : ∀ l ∈ busy, l ∈ A.busy := fun l hl => hb ▸ List.mem_cons_of_mem k hl
  have hkb : k ∈ A.busy := hb ▸ List.mem_cons_self
  -- The key itself was evicted, so that no slot is hit and its slot is taken again.
  have hmiss : (A.makeRoom w.size).hit w.size s = none := by
    cases hh : (A.makeRoom w.size).hit w.size s with
    | none => rfl
    | some l =>
      rw [← hsize] at hh hB
      obtain ⟨hl, hbk, h₁⟩ := hB.entries.hit_some (hB.inRange_bucket s) hh
      rw [hsize] at hl hbk h₁
      rw [hentry] at hbk h₁
      rw [hbusy] at hl
      have : l = k := hsep l (hmem l hl) k hkb (by rw [hbk, hs]) (by rw [h₁, hs])
      exact absurd (this ▸ hl) hk
  have hins : A.insert w.size s v = (A.makeRoom w.size).store w.size s v := by
    simp only [Slots.insert, hmiss]
  have hstored : ((A.makeRoom w.size).store w.size s v).entry =
      Function.update A.entry k (s, v) := by
    simp only [Slots.store, hfree, hentry]
  have hsame : ∀ l, l ∈ ((A.makeRoom w.size).store w.size s v).busy ↔ l ∈ A.busy := fun l => by
    simp only [Slots.store, hfree, hbusy, hb, List.mem_append, List.mem_singleton]
    exact Or.comm.trans List.mem_cons.symm
  rw [hins]
  exact ⟨hsep.holds_update hkb hs hsame hstored, by simp [Slots.store, hfree]⟩

/-- What is evicted for an entry that is held must be that entry alone. -/
theorem front_of_insert (h : Layout w A) (hsep : A.Separated w.size) (hten : 10 ≤ w.size.toNat)
    (hf : A.free = []) {busy : List ℤ} (hb : A.busy = k :: busy)
    (hholds : ∀ t x, (A.insert w.size s v).Holds t x ↔ if t = s then x = v else A.Holds t x)
    (hfree : (A.insert w.size s v).free = []) :
    w.size.toNat / 10 = 1 ∧ (A.entry k).1 = s := by
  have hlen := h.length_add_length
  rw [hf, List.length_nil] at hlen
  have hroom : A.makeRoom w.size = A.reclaim w.size := if_pos hf
  have hbusy : (A.makeRoom w.size).busy = A.busy.drop (w.size.toNat / 10) := by
    rw [hroom, A.reclaim_busy]
  have htake : (A.makeRoom w.size).free = A.busy.take (w.size.toNat / 10) := by
    rw [hroom, A.reclaim_free, hf, List.nil_append]
  have hentry : (A.makeRoom w.size).entry = A.entry := A.makeRoom_entry w.size
  have hkb : k ∈ A.busy := hb ▸ List.mem_cons_self
  -- Of the slots that are freed all but one stay free.
  have hstore : A.insert w.size s v = (A.makeRoom w.size).store w.size s v := by
    unfold Slots.insert at hfree ⊢
    cases hh : (A.makeRoom w.size).hit w.size s with
    | none => simp only [hh]
    | some l =>
      simp only [hh] at hfree
      change (A.makeRoom w.size).free = [] at hfree
      rw [htake, List.take_eq_nil_iff] at hfree
      rcases hfree with hzero | hnil
      · omega
      · rw [hb] at hnil
        cases hnil
  obtain ⟨q, hq⟩ : ∃ q, w.size.toNat / 10 = q + 1 := ⟨w.size.toNat / 10 - 1, by omega⟩
  rw [hq, hb] at hbusy htake
  rw [List.drop_succ_cons] at hbusy
  rw [List.take_succ_cons] at htake
  rw [hstore] at hholds hfree
  have hrest : busy.take q = [] := by simpa [Slots.store, htake] using hfree
  rw [hb, List.length_cons] at hlen
  have hq₀ : q = 0 := by
    rcases List.take_eq_nil_iff.mp hrest with hzero | hnil
    · exact hzero
    · rw [hnil, List.length_nil] at hlen
      omega
  subst hq₀
  refine ⟨hq, ?_⟩
  by_contra hne
  obtain ⟨l, hl, hly⟩ := (hholds (A.entry k).1 (A.entry k).2).mpr
    (by rw [if_neg hne]; exact ⟨k, hkb, rfl⟩)
  simp only [Slots.store, htake, hbusy, hentry, List.drop_zero, List.mem_append,
    List.mem_singleton] at hl hly
  rcases hl with hl | rfl
  · have hnd := h.busy.nodup
    rw [hb] at hnd
    have hlk : l ≠ k := fun he => (List.nodup_cons.mp hnd).1 (he ▸ hl)
    rw [Function.update_of_ne hlk] at hly
    exact hlk (hsep.eq_of_entry (hb ▸ List.mem_cons_of_mem k hl) hkb (by rw [hly]))
  · rw [Function.update_self] at hly
    exact hne (congrArg Prod.fst hly).symm

/-- In a full cache, an insertion of an entry that is held replaces its value alone exactly if the
one slot of the quota is that of the entry. -/
theorem insert_replaces_full_iff (h : Layout c.view A) (hsep : A.Separated c.size)
    (hten : 10 ≤ c.size.toNat) (hf : A.free = []) (hheld : A.Holds s x) (v : T) :
    Succeeds (c.insertSign s v) (fun d => c.Replaces d s v) ↔
      c.size.toNat / 10 = 1 ∧ (c.pvalue c.busyList.next).sign = s := by
  obtain ⟨d, hd, -, hB⟩ := h.insertSign_succeeds rfl (s := s)
    (fun _ => h.makeRoom_free_ne_nil hten) v
  rw [hd, succeeds_some, h.replaces_iff hB, hf]
  obtain ⟨l, hl, hly⟩ := hheld
  obtain ⟨k, busy, hb⟩ := List.exists_cons_of_ne_nil (List.ne_nil_of_mem hl)
  have hhead : c.busyList.next = k := by
    have := h.busy.head_eq
    rwa [hb] at this
  have hsign : (c.pvalue c.busyList.next).sign = (A.entry k).1 := by
    rw [hhead, pvalue_sign, h.entry_eq]
  rw [hsign]
  constructor
  · rintro ⟨hholds, hfree⟩
    exact h.front_of_insert hsep hten hf hb hholds hfree
  · rintro ⟨hquota, hs⟩
    exact h.insert_of_full rfl hsep hf hb hquota hs v

end Layout

namespace Laid

variable {c d : CacheManager T} {w : View T} {A : Slots T} {s : TSign} {x : T}

theorem separated_call (h : Laid w A) (hc : c.view = w) (hsep : A.Separated w.size)
    {e : Op T} (hi : w.InRange (e.sign.bucket w.size)) : (A.call w.size e).1.Separated w.size := by
  cases e with
  | insert sign value =>
    obtain ⟨d, -, hsize, hB⟩ := h.makeRoom_succeeds hc
    have hroom := hsep.makeRoom
    change (A.insert w.size sign value).Separated w.size
    unfold Slots.insert
    simp only
    cases hh : (A.makeRoom w.size).hit w.size sign with
    | some k =>
      refine hroom.of_subset (List.Subset.refl _) fun l => ?_
      rcases eq_or_ne l k with rfl | hne
      · simp [Slots.assign]
      · simp [Slots.assign, hne]
    | none =>
      have hi' : d.view.InRange (sign.bucket d.view.size) := by
        rw [View.InRange, hsize]
        exact hi
      rw [← hsize] at hh hroom hB ⊢
      exact hB.entries.separated_store hi' hroom hh
  | remove sign =>
    change (A.remove w.size sign).Separated w.size
    unfold Slots.remove
    split
    · exact hsep.of_subset (List.erase_subset) fun _ => rfl
    · exact hsep
  | find sign =>
    change (A.find w.size sign).1.Separated w.size
    unfold Slots.find
    split
    · next k hh =>
      have hk := (h.entries.hit_some hi hh).1
      refine hsep.of_subset (fun l hl => ?_) fun _ => rfl
      rcases List.mem_append.mp hl with hl | hl
      · exact List.mem_of_mem_erase hl
      · exact List.mem_singleton.mp hl ▸ hk
    · exact hsep

theorem insert_replaces_of_free (h : Laid w A) (hc : c.view = w) (hsep : A.Separated w.size)
    (hf : A.free ≠ []) (hheld : A.Holds s x) (v : T) :
    Succeeds (c.insertSign s v) fun d => c.Replaces d s v := by
  obtain ⟨k, hk, he⟩ := hheld
  have hs : (A.entry k).1 = s := congrArg Prod.fst he
  have hi : w.InRange (s.bucket w.size) := hs ▸ h.entries.bucket_inRange k hk
  have hroom : c.makeRoom = some c := if_neg (mt (h.freeListSize_eq_zero_iff hc).mp hf)
  have hentry : (A.assign k v).entry = Function.update A.entry k (s, v) := by
    rw [Slots.assign, he]
  unfold insertSign
  simp only [hroom, h.entries.search_eq hc hi, h.entries.hit_of_holds hsep hk hs,
    Option.bind_eq_bind, Option.bind_some]
  refine (modifyItem_value hc (h.entries.inRange_busy hk)).mono fun d hd => ?_
  have hB := h.entries.assign k v
  rw [← hd] at hB
  constructor
  · intro t x
    rw [hB.holds_iff rfl, h.entries.holds_iff hc]
    exact hsep.holds_update (B := A.assign k v) hk hs (fun _ => Iff.rfl) hentry t x
  · change follow (-1) d.view.link.next d.view.size.toNat d.view.freeList.next =
      follow (-1) c.view.link.next c.view.size.toNat c.view.freeList.next
    rw [hd, hc]
  · change d.view.freeListSize = c.view.freeListSize
    rw [hd, hc]

theorem insert_replaces_iff (h : Laid c.view A) (hsep : A.Separated c.size)
    (hten : 10 ≤ c.size.toNat) (hheld : A.Holds s x) (v : T) :
    Succeeds (c.insertSign s v) (fun d => c.Replaces d s v) ↔
      c.freeListSize ≠ 0 ∨ c.size.toNat / 10 = 1 ∧ (c.pvalue c.busyList.next).sign = s := by
  have hzero : c.freeListSize = 0 ↔ A.free = [] := h.freeListSize_eq_zero_iff rfl
  by_cases hf : A.free = []
  · cases h with
    | oversized h => exact absurd hf h.free_ne_nil
    | layout h =>
      rw [h.insert_replaces_full_iff hsep hten hf hheld v]
      exact (or_iff_right (not_not.mpr (hzero.mpr hf))).symm
  · exact iff_of_true (h.insert_replaces_of_free rfl hsep hf hheld v) (.inl (mt hzero.mp hf))

theorem of_run {calls : List (Call T)} (hrun : c.run calls = some d) (h : Laid c.view A)
    (hten : 10 ≤ c.size.toNat) (hsep : A.Separated c.size) :
    d.size = c.size ∧ ∃ B : Slots T, Laid d.view B ∧ B.Separated d.size := by
  induction calls generalizing c A with
  | nil =>
    obtain rfl := Option.some_inj.mp hrun
    exact ⟨rfl, A, h, hsep⟩
  | cons e calls ih =>
    rw [run, List.foldlM_cons] at hrun
    obtain ⟨c', hcall, hrun⟩ := Option.bind_eq_some_iff.mp hrun
    obtain ⟨r, hr, rfl⟩ := Option.map_eq_some_iff.mp hcall
    rw [call_eq_bind] at hr
    obtain ⟨o, -, hr⟩ := Option.bind_eq_some_iff.mp hr
    have hn := h.numbered_of_isSome rfl (o := o) (by rw [hr]; rfl)
    obtain ⟨hsize, hB, -⟩ := (h.call_succeeds rfl hten hn).of_eq hr
    have hsep' := h.separated_call rfl hsep (h.inRange_bucket rfl hn)
    change r.1.size = c.size at hsize
    obtain ⟨hdsize, hd⟩ := ih hrun hB (hsize ▸ hten) (by rw [hsize]; exact hsep')
    exact ⟨hdsize.trans hsize, hd⟩

end Laid

/-- In every state that calls reach after `init`, an insertion of a key that is present replaces its
value and does nothing else exactly if a slot is free, or the quota of a reclaim is one slot and the
key is the one least recently used. -/
theorem runFromInit_insert_replaces_iff (c d : CacheManager T) (size : UInt32)
    (fresh : ℤ → T × TSign) (h : 10 ≤ size.toNat) (calls : List (Call T))
    (hrun : c.runFromInit size fresh calls = some d) (key : Bytes) (sign : TSign) (x value : T)
    (hsign : YeeSign.getSignCStr key = some sign) (hheld : d.Holds sign x) :
    Succeeds (d.insert key value) (fun e => d.Replaces e sign value) ↔
      d.freeListSize ≠ 0 ∨ d.size.toNat / 10 = 1 ∧ (d.pvalue d.busyList.next).sign = sign := by
  obtain ⟨d₀, hinit, hrun⟩ := Option.bind_eq_some_iff.mp hrun
  obtain ⟨hsize, A, hA, hbusy⟩ := (init_laid c (by omega)).of_eq hinit
  change d₀.size = size at hsize
  have hsep : A.Separated d₀.size := fun k hk => by
    rw [hbusy] at hk
    exact absurd hk List.not_mem_nil
  obtain ⟨hdsize, B, hB, hsepB⟩ := hA.of_run hrun (hsize ▸ h) hsep
  have hten : 10 ≤ d.size.toNat := by
    rw [hdsize, hsize]
    exact h
  rw [insert, hsign, Option.bind_eq_bind, Option.bind_some]
  exact hB.insert_replaces_iff hsepB hten ((hB.entries.holds_iff rfl).mp hheld) value

theorem runFromInit_insert_replaces_iff_ten :
    Succeeds (blank.runFromInit 10 (fun _ => (0, ⟨0, 0⟩)) [.insert [97] 1, .insert [98] 2])
      fun d => d.Holds (YeeSign.getSign [98]) 2 ∧
        (Succeeds (d.insert [98] 20) (fun e => d.Replaces e (YeeSign.getSign [98]) 20) ↔
          d.freeListSize ≠ 0 ∨ d.size.toNat / 10 = 1 ∧
            (d.pvalue d.busyList.next).sign = YeeSign.getSign [98]) := by
  obtain ⟨d, hd⟩ : ∃ d, blank.runFromInit 10 (fun _ => (0, ⟨0, 0⟩))
      [.insert [97] 1, .insert [98] 2] = some d := Option.isSome_iff_exists.mp (by decide +kernel)
  have hcheck : (do
      let d ← blank.runFromInit 10 (fun _ => (0, ⟨0, 0⟩)) [.insert [97] 1, .insert [98] 2]
      some (d.busySlots.any fun k => (d.pvalue k).sign == YeeSign.getSign [98] &&
        (d.pvalue k).value == 2) : Option Bool) = some true := by decide +kernel
  simp only [hd, Option.bind_eq_bind, Option.bind_some, Option.some_inj, List.any_eq_true,
    Bool.and_eq_true, beq_iff_eq] at hcheck
  exact ⟨d, hd, hcheck, runFromInit_insert_replaces_iff blank d 10 _ (by decide) _ hd [98] _ 2 20
    (YeeSign.getSignCStr_eq (by decide)) hcheck⟩

/-- With ten keys in a cache of ten slots, an insertion of the second one evicts the first one. -/
theorem overwrite_evicts_other :
    Succeeds (blank.runFromInit 10 (fun _ => (0, ⟨0, 0⟩))
        ((List.range 10).map fun i => .insert [UInt8.ofNat (97 + i)] i)) fun d =>
      d.Holds (YeeSign.getSign [98]) 1 ∧
        ¬ Succeeds (d.insert [98] 20) fun e => d.Replaces e (YeeSign.getSign [98]) 20 := by
  obtain ⟨d, hd⟩ : ∃ d, blank.runFromInit 10 (fun _ => (0, ⟨0, 0⟩))
      ((List.range 10).map fun i => .insert [UInt8.ofNat (97 + i)] i) = some d :=
    Option.isSome_iff_exists.mp (by decide +kernel)
  have hcheck : (do
      let d ← blank.runFromInit 10 (fun _ => (0, ⟨0, 0⟩))
        ((List.range 10).map fun i => .insert [UInt8.ofNat (97 + i)] i)
      let e ← d.insert [98] 20
      some (d.busySlots.any fun k => (d.pvalue k).sign == YeeSign.getSign [98] &&
        (d.pvalue k).value == 1, d.freeSlots, e.freeSlots) : Option (Bool × List ℤ × List ℤ)) =
      some (true, [], [0]) := by decide +kernel
  rw [hd] at hcheck
  refine ⟨d, hd, ?_⟩
  simp only [Option.bind_eq_bind, Option.bind_some] at hcheck
  cases he : d.insert [98] 20 with
  | none => simp [he] at hcheck
  | some e =>
    simp only [he, Option.bind_some, Option.some_inj, Prod.mk.injEq, List.any_eq_true,
      Bool.and_eq_true, beq_iff_eq] at hcheck
    obtain ⟨hheld, hfree, hfree'⟩ := hcheck
    refine ⟨hheld, fun hr => ?_⟩
    have hsame := (hr.of_eq he).free
    rw [hfree, hfree'] at hsame
    cases hsame

end CacheManager

end YlUtils
