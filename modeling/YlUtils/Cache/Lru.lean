import YlUtils.Cache.Invariant

/-! # Eviction of the least recently used

A run is accompanied by a clock and by the time at which each slot was last
used: when its entry was created, or when a `find` last hit it. The busy list
is in the order of these times, so the slots a reclaim takes from its front are
those that were not used for longest.
-/

namespace YlUtils.CacheManager

open Linked

variable {T : Type} {size : UInt32} {fresh : ℤ → T × TSign}

/-- The slot that a call uses: the one `insert` takes for a new entry, or the one `find` hits. -/
def used (c : CacheManager T) : Op T → Option ℤ
  | .insert sign value => do
    let c ← c.makeRoom
    match ← c.search sign with
    | some _ => none
    | none => (·.1) <$> c.insertNew sign value
  | .remove _ => none
  | .find sign => (c.search sign).join

/-- A cache with the number of calls made so far and the time of last use of its slots. -/
structure Aged (T : Type) where
  cache : CacheManager T
  now : ℕ
  lastUse : ℤ → ℕ

/-- Record a use at the given time. -/
def touch (lastUse : ℤ → ℕ) (now : ℕ) : Option ℤ → ℤ → ℕ
  | some k => Function.update lastUse k now
  | none => lastUse

namespace Aged

def callOp (a : Aged T) (o : Op T) : Option (Aged T) := do
  let r ← a.cache.callOp o
  some ⟨r.1, a.now + 1, touch a.lastUse (a.now + 1) (a.cache.used o)⟩

def call (a : Aged T) (e : Call T) : Option (Aged T) := e.op.bind a.callOp

theorem foldlM_call {a : Aged T} {calls : List (Call T)} {ops : List (Op T)}
    (h : calls.map Call.op = ops.map some) : calls.foldlM call a = ops.foldlM callOp a := by
  induction calls generalizing a ops with
  | nil =>
    obtain rfl := List.map_eq_nil_iff.mp h.symm
    rfl
  | cons e calls ih =>
    obtain ⟨o, ops, rfl, ho, hops⟩ := List.map_eq_cons_iff.mp h.symm
    rw [List.foldlM_cons, List.foldlM_cons, call, ← ho, Option.bind_some]
    exact congrArg _ (funext fun b => ih hops.symm)

def runFromInit (c : CacheManager T) (size : UInt32) (fresh : ℤ → T × TSign) (lastUse : ℤ → ℕ)
    (calls : List (Call T)) : Option (Aged T) := do
  let c ← c.init size fresh
  calls.foldlM call ⟨c, 0, lastUse⟩

/-- The busy list, from `busy_list.next` to `busy_list.prev`, is in the order of
last use, and a reclaim evicts exactly the first tenth of it. -/
def LeastRecentlyUsed (a : Aged T) : Prop :=
  let quota := a.cache.size.toNat / 10
  ∃ busy : List ℤ,
    DList (-1) a.cache.view.link a.cache.busyList.next a.cache.busyList.prev busy ∧
    busy.Pairwise (fun x y => a.lastUse x < a.lastUse y) ∧
    (a.cache.freeListSize = 0 → Succeeds a.cache.reclaim fun d =>
      (busy.take quota).length = quota ∧
      DList (-1) d.view.link d.busyList.next d.busyList.prev (busy.drop quota) ∧
      (∀ x ∈ busy.take quota, ∀ y ∈ busy.drop quota, a.lastUse x < a.lastUse y) ∧
      d.view.entry = a.cache.view.entry)

end Aged

namespace Layout

variable {c : CacheManager T} {w : View T} {A : Slots T}

def usedSlot (A : Slots T) (size : UInt32) : Op T → Option ℤ
  | .insert sign _ =>
    match (A.makeRoom size).hit size sign with
    | some _ => none
    | none => (A.makeRoom size).free.head?
  | .remove _ => none
  | .find sign => A.hit size sign

theorem used_eq (h : Layout w A) (hc : c.view = w) (hs : 10 ≤ w.size.toNat) (e : Op T) :
    c.used e = usedSlot A w.size e := by
  cases e with
  | remove sign => rfl
  | find sign => simp [used, usedSlot, h.search_eq hc]
  | insert sign value =>
    obtain ⟨d, hd, hsize, hB⟩ := h.makeRoom_succeeds hc
    obtain ⟨k, free, hf⟩ := List.exists_cons_of_ne_nil (h.makeRoom_free_ne_nil hs)
    obtain ⟨r, hr, hr₁, -⟩ := hB.insertNew_succeeds rfl hf sign value
    simp only [used, usedSlot, hd, hB.search_eq rfl, Option.bind_eq_bind, Option.bind_some, hsize]
    split
    · rfl
    · simp [hr, hr₁, hf]

/-- Slots in the order of last use, none used after `now`. -/
structure InUseOrder (A : Slots T) (now : ℕ) (lastUse : ℤ → ℕ) : Prop where
  pairwise : A.busy.Pairwise fun x y => lastUse x < lastUse y
  le_now : ∀ k ∈ A.busy, lastUse k ≤ now

namespace InUseOrder

variable {now : ℕ} {lastUse : ℤ → ℕ} {busy : List ℤ} {k : ℤ}

theorem sublist {B : Slots T} (h : InUseOrder A now lastUse) (hb : B.busy.Sublist A.busy) :
    InUseOrder B (now + 1) lastUse :=
  ⟨h.pairwise.sublist hb, fun k hk => (h.le_now k (hb.subset hk)).trans (Nat.le_succ now)⟩

theorem append {B : Slots T} (h : InUseOrder A now lastUse) (hsub : busy.Sublist A.busy)
    (hk : k ∉ busy) (hb : B.busy = busy ++ [k]) :
    InUseOrder B (now + 1) (Function.update lastUse k (now + 1)) := by
  have hold : ∀ x ∈ busy, Function.update lastUse k (now + 1) x = lastUse x := fun x hx =>
    Function.update_of_ne (fun he : x = k => hk (he ▸ hx)) _ _
  constructor
  · rw [hb, List.pairwise_append]
    refine ⟨?_, List.pairwise_singleton _ _, fun x hx y hy => ?_⟩
    · refine (h.pairwise.sublist hsub).imp_of_mem fun {x y} hx hy hxy => ?_
      rwa [hold x hx, hold y hy]
    · rw [List.mem_singleton.mp hy, hold x hx, Function.update_self]
      exact Nat.lt_succ_of_le (h.le_now x (hsub.subset hx))
  · intro x hx
    rw [hb, List.mem_append, List.mem_singleton] at hx
    rcases hx with hx | rfl
    · rw [hold x hx]
      exact (h.le_now x (hsub.subset hx)).trans (Nat.le_succ now)
    · rw [Function.update_self]

end InUseOrder

/-- Every call keeps the order of use. -/
theorem inUseOrder_call (h : Layout w A) (hc : c.view = w) (hs : 10 ≤ w.size.toNat) {now : ℕ}
    {lastUse : ℤ → ℕ}
    (ho : InUseOrder A now lastUse) (e : Op T) :
    InUseOrder (A.call w.size e).1 (now + 1)
      (touch lastUse (now + 1) (usedSlot A w.size e)) := by
  cases e with
  | insert sign value =>
    have hsub := A.makeRoom_busy_sublist w.size
    simp only [Slots.call, Slots.insert, usedSlot]
    cases hh : (A.makeRoom w.size).hit w.size sign with
    | some k => exact ho.sublist hsub
    | none =>
      obtain ⟨k, free, hf⟩ := List.exists_cons_of_ne_nil (h.makeRoom_free_ne_nil hs)
      have hk : k ∉ (A.makeRoom w.size).busy := by
        obtain ⟨d, hd, hsize, hB⟩ := h.makeRoom_succeeds hc
        exact hB.free_notMem_busy (by simp [hf])
      simp only [hf, List.head?_cons, touch]
      exact ho.append hsub hk (by simp [Slots.store, hf])
  | remove sign =>
    simp only [Slots.call, Slots.remove, usedSlot, touch]
    cases A.hit w.size sign with
    | some k => exact ho.sublist List.erase_sublist
    | none => exact ho.sublist (List.Sublist.refl _)
  | find sign =>
    simp only [Slots.call, Slots.find, usedSlot]
    cases A.hit w.size sign with
    | some k => exact ho.append List.erase_sublist h.busy.nodup.not_mem_erase rfl
    | none => exact ho.sublist (List.Sublist.refl _)

theorem leastRecentlyUsed {a : Aged T} {now : ℕ} (h : Layout a.cache.view A)
    (ho : InUseOrder A now a.lastUse) : a.LeastRecentlyUsed := by
  refine ⟨A.busy, h.busy, ho.pairwise, fun hfull => ?_⟩
  have hfree : A.free = [] := by
    rw [← List.length_eq_zero_iff, ← h.free_size]
    exact congrArg UInt32.toNat hfull
  have hlen := h.length_add_length
  rw [hfree, List.length_nil, Nat.zero_add] at hlen
  change A.busy.length = a.cache.size.toNat at hlen
  have hroom := h.makeRoom_succeeds rfl
  rw [makeRoom, if_pos hfull, Slots.makeRoom, if_pos hfree] at hroom
  refine hroom.mono fun d hd => ?_
  have hb := hd.2.busy
  have he := hd.2.entry_eq
  rw [A.reclaim_busy] at hb
  rw [A.reclaim_entry] at he
  refine ⟨?_, hb, fun x hx y hy => ?_, he.trans h.entry_eq.symm⟩
  · rw [List.length_take, hlen]
    omega
  · have hp := ho.pairwise
    rw [← List.take_append_drop (a.cache.size.toNat / 10) A.busy, List.pairwise_append] at hp
    exact hp.2.2 x hx y hy

end Layout

/-- After every sequence of calls the busy list is in the order of last use, and
a reclaim takes exactly the tenth of the slots that was not used for longest. -/
theorem Aged.runFromInit_leastRecentlyUsed (c : CacheManager T) (size : UInt32)
    (fresh : ℤ → T × TSign) (lastUse : ℤ → ℕ) (h : 10 ≤ size.toNat) (hle : size.toNat ≤ 2 ^ 31)
    (calls : List (Call T)) (hkeys : ∀ e ∈ calls, e.Fits) :
    Succeeds (Aged.runFromInit c size fresh lastUse calls) Aged.LeastRecentlyUsed := by
  obtain ⟨ops, hops⟩ := exists_ops hkeys
  unfold Aged.runFromInit
  refine (init_succeeds c (by omega) hle).bind fun d hd => ?_
  rw [Aged.foldlM_call hops]
  have hstep : ∀ (a : Aged T) (e : Op T),
      (a.cache.view.size = size ∧
        ∃ A, Layout a.cache.view A ∧ Layout.InUseOrder A a.now a.lastUse) →
      Succeeds (a.callOp e) fun a => a.cache.view.size = size ∧
        ∃ A, Layout a.cache.view A ∧ Layout.InUseOrder A a.now a.lastUse := by
    rintro a e ⟨rfl, A, hA, ho⟩
    refine (hA.call_succeeds rfl h e).bind fun r hr => ?_
    rw [succeeds_some, hA.used_eq rfl h]
    exact ⟨hr.1, _, hr.2.1, hA.inUseOrder_call rfl h ho e⟩
  have hinit : Layout.InUseOrder (initialSlots size fresh) 0 lastUse := by
    constructor <;> simp [initialSlots]
  refine (foldlM_succeeds hstep ⟨hd.1, _, hd.2, hinit⟩ ops).mono ?_
  rintro a ⟨-, A, hA, ho⟩
  exact hA.leastRecentlyUsed ho

theorem Aged.runFromInit_leastRecentlyUsed_ten :
    Succeeds (Aged.runFromInit blank 10 (fun _ => (0, ⟨0, 0⟩)) (fun _ => 0)
      [.insert [97] 1, .insert [98] 2, .find [97]]) Aged.LeastRecentlyUsed :=
  Aged.runFromInit_leastRecentlyUsed blank 10 _ _ (by decide) (by decide) _
    (by unfold Call.Fits; decide)

theorem Aged.oversized_fails :
    ¬ Succeeds (Aged.runFromInit blank 2147483649 (fun _ => (0, ⟨0, 0⟩)) (fun _ => 0)
      [.insert [97] 1, .remove [97]]) Aged.LeastRecentlyUsed := by
  have hnone : (Aged.runFromInit blank 2147483649 (fun _ => (0, ⟨0, 0⟩)) (fun _ => 0)
      [.insert [97] 1, .remove [97]]).isNone = true := by decide +kernel
  rw [Option.isNone_iff_eq_none] at hnone
  rw [hnone]
  exact not_succeeds_none

theorem Aged.runFromInit_long_key (c : CacheManager T) (size : UInt32) (fresh : ℤ → T × TSign)
    (lastUse : ℤ → ℕ) (value : T) (calls : List (Call T)) :
    Aged.runFromInit c size fresh lastUse
      (.insert (List.replicate (2 ^ 31) 97) value :: calls) = none := by
  unfold Aged.runFromInit
  cases c.init size fresh with
  | none => rfl
  | some d =>
    rw [Option.bind_eq_bind, Option.bind_some, List.foldlM_cons, Aged.call, Call.op_long]
    rfl

/-- Neither slots without a number nor keys whose length is not an `int` are handled. -/
theorem Aged.not_leastRecentlyUsed :
    ¬ Succeeds (Aged.runFromInit blank 2147483649 (fun _ => (0, ⟨0, 0⟩)) (fun _ => 0)
        [.insert [97] 1, .remove [97]]) Aged.LeastRecentlyUsed ∧
      ¬ Succeeds (Aged.runFromInit blank 10 (fun _ => (0, ⟨0, 0⟩)) (fun _ => 0)
        [.insert (List.replicate (2 ^ 31) 97) 1]) Aged.LeastRecentlyUsed := by
  refine ⟨Aged.oversized_fails, ?_⟩
  rw [Aged.runFromInit_long_key]
  exact not_succeeds_none

end YlUtils.CacheManager
