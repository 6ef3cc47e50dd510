import YlUtils.Cache.Lookup

/-! # Calls that stay within the arrays

The reclaim of `insert` frees a tenth of the slots, rounded down, and so none of
fewer than ten. A full cache of that size has no slot for a new entry: the call
that would store one takes the slot `-1`.
-/

namespace YlUtils.CacheManager

open Linked

variable {T : Type} {size : UInt32} {fresh : ℤ → T × TSign}

def freeSlots (c : CacheManager T) : List ℤ :=
  follow (-1) c.view.link.next c.size.toNat c.freeList.next

/-- The rounds of `reclaim` unlink slots that are on the busy list. -/
def UnlinksBusy : ℕ → CacheManager T → Prop
  | 0, _ => True
  | n + 1, c => c.busyList.next ∈ c.busySlots ∧ Succeeds c.reclaimOne (UnlinksBusy n)

/-- A call that indexes the arrays within their bounds only, takes a slot only
off a free list that has one, and reclaims only busy slots. -/
structure Safe (c : CacheManager T) (e : Op T) : Prop where
  inRange : (c.callOp e).isSome
  takes : ∀ sign value, e = .insert sign value → Succeeds c.makeRoom fun d =>
    Succeeds (d.search sign) fun found => found = none → d.freeSlots ≠ []
  reclaims : ∀ sign value, e = .insert sign value → c.freeListSize = 0 →
    UnlinksBusy (c.size / 10).toNat c

/-- A cache that has a slot for the entry that a call stores. -/
def HasSlot (c : CacheManager T) : Op T → Prop
  | .insert sign _ => 10 ≤ c.size.toNat ∨ c.freeListSize ≠ 0 ∨
      ∃ k, c.search sign = some (some k)
  | _ => True

/-- A property of the calls of a run, each in the state it is made in; every key
has a signature. -/
def Always (P : CacheManager T → Op T → Prop) : CacheManager T → List (Call T) → Prop
  | _, [] => True
  | c, e :: es => Succeeds e.op fun o => P c o ∧ ∀ r, c.callOp o = some r → Always P r.1 es

namespace Layout

variable {c : CacheManager T} {w : View T} {A : Slots T} {s : TSign}

theorem freeSlots_eq (h : Layout w A) (hc : c.view = w) : c.freeSlots = A.free := by
  subst hc
  have hl := h.length_add_length
  change follow (-1) c.view.link.next c.view.size.toNat c.view.freeList.next = _
  rw [h.free.head_eq]
  exact h.free.seg.follow_eq h.free.nil_notMem (by omega)

theorem unlinksBusy (h : Layout w A) (hc : c.view = w) {n : ℕ} (hn : n ≤ A.busy.length) :
    UnlinksBusy n c := by
  induction n generalizing c w A with
  | zero => trivial
  | succ n ih =>
    obtain ⟨k, busy, hb⟩ := List.exists_cons_of_length_pos (Nat.zero_lt_of_lt hn)
    have hhead : c.view.busyList.next = k := by
      rw [hc, h.busy.head_eq, hb]
      rfl
    constructor
    · rw [h.entries.busySlots_eq hc, hb]
      exact hhead ▸ List.mem_cons_self
    · refine (h.reclaimOne_succeeds hc (by simp [hb])).mono fun d hd => ih hd.2 rfl ?_
      rw [Slots.evictOne_busy, List.length_drop]
      exact Nat.le_sub_of_add_le hn

theorem makeRoom_eq_self (A : Slots T) (hs : size.toNat < 10) : A.makeRoom size = A := by
  have hquota : (size / 10).toNat = 0 := by
    rw [Slots.size_div_ten]
    exact Nat.div_eq_of_lt hs
  unfold Slots.makeRoom Slots.reclaim
  rw [hquota, Slots.evict, ite_self]

theorem accepts_of_hasSlot (h : Layout w A) (hc : c.view = w) {sign : TSign} {value : T}
    (hs : c.HasSlot (.insert sign value)) : Accepts A w.size sign := by
  have hsize : c.size = w.size := congrArg View.size hc
  intro hnone
  rcases hs with hten | hfree | ⟨k, hk⟩
  · exact h.makeRoom_free_ne_nil (hsize ▸ hten)
  · have hne := mt (h.freeListSize_eq_zero_iff hc).mpr hfree
    rw [Slots.makeRoom, if_neg hne]
    exact hne
  · rcases Nat.lt_or_ge w.size.toNat 10 with hlt | hge
    · rw [makeRoom_eq_self A hlt] at hnone
      rw [h.search_eq hc, hnone] at hk
      cases hk
    · exact h.makeRoom_free_ne_nil hge

/-- A call is safe exactly if there is a slot for the entry it stores. -/
theorem safe_iff_hasSlot (h : Layout w A) (hc : c.view = w) (e : Op T) :
    c.Safe e ↔ c.HasSlot e := by
  have hsize : c.size = w.size := congrArg View.size hc
  constructor
  · intro hsafe
    cases e with
    | remove sign => trivial
    | find sign => trivial
    | insert sign value =>
      obtain ⟨d, hd, found, hfound, htakes⟩ := hsafe.takes sign value rfl
      obtain ⟨hdsize, hlayout⟩ := (h.makeRoom_succeeds hc).of_eq hd
      rw [hlayout.search_eq rfl, Option.some_inj] at hfound
      rw [hlayout.freeSlots_eq rfl] at htakes
      by_contra hno
      obtain ⟨hlt, hfree, hmiss⟩ : c.size.toNat < 10 ∧ c.freeListSize = 0 ∧
          ∀ k, c.search sign ≠ some (some k) := by
        simpa [HasSlot] using hno
      have hself := makeRoom_eq_self A (hsize ▸ hlt)
      rw [hself, hdsize] at hfound
      rw [hself] at htakes
      have hnone : found = none := by
        cases hf : found with
        | none => rfl
        | some k => exact absurd (by rw [h.search_eq hc, hfound, hf]) (hmiss k)
      exact htakes hnone ((h.freeListSize_eq_zero_iff hc).mp hfree)
  · intro hslot
    constructor
    · obtain ⟨r, hr, -⟩ := h.call_succeeds_of_accepts hc e fun sign value he =>
        h.accepts_of_hasSlot hc (he ▸ hslot)
      rw [hr]
      rfl
    · rintro sign value rfl
      refine (h.makeRoom_succeeds hc).mono ?_
      rintro d ⟨hdsize, hlayout⟩
      rw [hlayout.search_eq rfl, succeeds_some, hlayout.freeSlots_eq rfl, hdsize]
      exact h.accepts_of_hasSlot hc hslot
    · rintro sign value rfl hfree
      rw [hsize]
      exact h.unlinksBusy hc (h.quota_le_length_busy ((h.freeListSize_eq_zero_iff hc).mp hfree))

end Layout

namespace Oversized

variable {c : CacheManager T} {w : View T} {A : Slots T}

theorem freeSlots_ne_nil (h : Oversized w A) (hc : c.view = w) : c.freeSlots ≠ [] := by
  have hsize := h.size_pos
  obtain ⟨k, free, hf⟩ := List.exists_cons_of_ne_nil h.free_ne_nil
  have hhead : c.freeList.next = k := by
    have hhead := h.free_head
    rwa [hf, ← hc] at hhead
  obtain ⟨n, hn⟩ : ∃ n, c.size.toNat = n + 1 := by
    rw [← hc] at hsize
    exact ⟨c.size.toNat - 1, (Nat.sub_add_cancel hsize).symm⟩
  have hk : k ≠ -1 := ne_nil (h.inRange_free (by simp [hf]))
  rw [freeSlots, hn, hhead, follow, if_neg hk]
  exact List.cons_ne_nil _ _

theorem safe_iff (h : Oversized w A) (hc : c.view = w) (o : Op T) :
    c.Safe o ↔ c.Numbered o := by
  constructor
  · exact fun hsafe => h.numbered_of_isSome hc hsafe.inRange
  · intro hn
    constructor
    · obtain ⟨r, hr, -⟩ := h.callOp_succeeds hc hn
      rw [hr]
      rfl
    · rintro sign value rfl
      have hi : w.InRange (sign.bucket w.size) :=
        h.inRange_bucket (o := .insert sign value) hc hn
      rw [h.makeRoom_eq hc, succeeds_some, h.search_eq hc hi, succeeds_some]
      exact fun _ => h.freeSlots_ne_nil hc
    · exact fun _ _ _ hfull => absurd hfull (h.freeListSize_ne_zero hc)

theorem hasSlot (h : Oversized w A) (hc : c.view = w) (o : Op T) : c.HasSlot o := by
  subst hc
  have hgt : 2 ^ 31 < c.size.toNat := h.size_gt
  cases o with
  | insert sign value => exact .inl (by omega)
  | remove sign => trivial
  | find sign => trivial

end Oversized

namespace Laid

variable {c : CacheManager T} {w : View T} {A : Slots T} {o : Op T}

theorem safe_iff (h : Laid w A) (hc : c.view = w) (o : Op T) :
    c.Safe o ↔ c.Numbered o ∧ c.HasSlot o := by
  cases h with
  | layout h =>
    have hn : c.Numbered o := by
      subst hc
      exact .inl h.size_le
    rw [h.safe_iff_hasSlot hc o, and_iff_right hn]
  | oversized h => rw [h.safe_iff hc o, and_iff_left (h.hasSlot hc o)]

theorem callOp_laid (h : Laid w A) (hc : c.view = w) (hn : c.Numbered o) (hslot : c.HasSlot o) :
    Succeeds (c.callOp o) fun r => ∃ B : Slots T, Laid r.1.view B := by
  cases h with
  | layout h =>
    have hcall := h.call_succeeds_of_accepts hc o fun sign value he =>
      h.accepts_of_hasSlot hc (he ▸ hslot)
    exact hcall.mono fun r hr => ⟨_, .layout hr.2.1⟩
  | oversized h => exact (h.callOp_succeeds hc hn).mono fun r hr => ⟨_, .oversized hr.2.1⟩

theorem always_safe_iff (h : Laid w A) (hc : c.view = w) (calls : List (Call T)) :
    Always Safe c calls ↔ Always (fun c o => c.Numbered o ∧ c.HasSlot o) c calls := by
  induction calls generalizing c w A with
  | nil => exact Iff.rfl
  | cons e es ih =>
    refine exists_congr fun o => and_congr_right fun _ => ?_
    change c.Safe o ∧ _ ↔ (c.Numbered o ∧ c.HasSlot o) ∧ _
    rw [h.safe_iff hc o]
    refine and_congr_right fun hok => forall_congr' fun r => imp_congr_right fun hr => ?_
    obtain ⟨B, hB⟩ := (h.callOp_laid hc hok.1 hok.2).of_eq hr
    exact ih hB rfl

end Laid

/-- The calls after `init` stay within the arrays, and take and free slots as they should, exactly
if they get by with the numbered slots and there is one for every entry that is stored. -/
theorem init_always_safe_iff (c : CacheManager T) (size : UInt32) (fresh : ℤ → T × TSign)
    (h : 0 < size.toNat) (calls : List (Call T)) :
    Succeeds (c.init size fresh) fun d =>
      (Always Safe d calls ↔ Always (fun c o => c.Numbered o ∧ c.HasSlot o) d calls) := by
  refine (init_laid c h).mono ?_
  rintro d ⟨-, A, hA, -⟩
  exact hA.always_safe_iff rfl calls

theorem init_always_safe_iff_one :
    Succeeds (blank.init 1 fun _ => (0, ⟨0, 0⟩)) fun d =>
      (Always Safe d [.insert [97] 1, .find [97]] ↔
        Always (fun c o => c.Numbered o ∧ c.HasSlot o) d [.insert [97] 1, .find [97]]) :=
  init_always_safe_iff blank 1 _ (by decide) _

/-- A second entry does not fit into a cache of one slot. -/
theorem full_not_safe :
    ¬ Succeeds (blank.init 1 fun _ => (0, ⟨0, 0⟩)) fun d =>
      Always Safe d [.insert [97] 1, .insert [98] 2] := by
  rintro ⟨d, hd, o, ho, hfirst, hrest⟩
  obtain ⟨r, hr⟩ := Option.isSome_iff_exists.mp hfirst.inRange
  obtain ⟨o', ho', hsafe, -⟩ := hrest r hr
  have hsecond := hsafe.inRange
  obtain rfl := Option.some_inj.mp (ho.symm.trans (Call.op_insert (by decide)))
  obtain rfl := Option.some_inj.mp (ho'.symm.trans (Call.op_insert (by decide)))
  have hnone : (do
      let d ← blank.init 1 fun _ => (0, ⟨0, 0⟩)
      let r ← d.callOp (.insert (YeeSign.getSign [97]) 1)
      r.1.callOp (.insert (YeeSign.getSign [98]) 2) :
        Option (CacheManager ℕ × Option ℕ)).isSome = false := by
    decide +kernel
  simp only [hd, hr, Option.bind_eq_bind, Option.bind_some] at hnone
  rw [hnone] at hsecond
  cases hsecond

end YlUtils.CacheManager
