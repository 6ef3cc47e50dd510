import YlUtils.Cache.Refinement

/-! # The structural invariant of the cache

A cache is laid out after `init`, provided that its slots are numbered by
`int`, and so after every sequence of calls. A cache of more slots than `int`
can number is broken from the start.
-/

namespace YlUtils.CacheManager

open Linked

variable {T : Type} {size : UInt32} {fresh : ℤ → T × TSign}

theorem toNat_sub_one (h : 0 < size.toNat) : (size - 1).toNat = size.toNat - 1 := by
  rw [UInt32.toNat_sub_of_le _ _ (by rw [UInt32.le_iff_toNat_le, UInt32.toNat_one]; omega),
    UInt32.toNat_one]

theorem seg_consecutive {L : Links ℤ} {n : ℕ} {q : ℤ} (hp : ∀ i < n, L.prev (i : ℕ) = (i : ℤ) - 1)
    (hn : ∀ i < n, L.next (i : ℕ) = if i + 1 = n then q else (i : ℤ) + 1) :
    ∀ m a : ℕ, a + m = n → Seg L ((a : ℤ) - 1) ((List.range' a m).map Int.ofNat) q
  | 0, _, _ => trivial
  | m + 1, a, ha => by
    have ih := seg_consecutive hp hn m (a + 1) (by omega)
    rw [List.range'_succ, List.map_cons, seg_cons]
    refine ⟨hp a (by omega), ?_, by simpa using ih⟩
    rw [Int.ofNat_eq_natCast, hn a (by omega)]
    cases m with
    | zero => simp; omega
    | succ m => simp [List.range'_succ]; omega

/-- The lists of a fresh cache: every slot is free, in the order of the array. -/
def initialSlots (size : UInt32) (fresh : ℤ → T × TSign) : Slots T where
  free := allSlots size
  busy := []
  chain _ := []
  entry k := ((fresh k).2, (fresh k).1)

def initialView (size : UInt32) (fresh : ℤ → T × TSign) : View T where
  size := size
  link := Links.setNext (Links.setPrev
    ⟨fun i => intOf (UInt32.ofNat i.toNat + 1), fun i => intOf (UInt32.ofNat i.toNat - 1)⟩
    0 (-1)) (size - 1).toNat (-1)
  hash := ⟨fun _ => -1, fun _ => -1⟩
  entry k := ((fresh k).2, (fresh k).1)
  pidx _ := -1
  freeList := ⟨0, intOf (size - 1)⟩
  busyList := ⟨-1, -1⟩
  freeListSize := size

theorem init_yields (c : CacheManager T) (h : 0 < size.toNat) :
    Yields (c.init size fresh) (initialView size fresh) := by
  have hlast := toNat_sub_one h
  unfold init
  simp only [Option.bind_eq_bind]
  refine (modifyItem_linkPrev rfl ⟨Int.le_refl 0, ?_⟩).bind fun d hd => ?_
  · change (0 : ℤ) < size.toNat
    omega
  · refine (modifyItem_linkNext hd ⟨by omega, ?_⟩).mono fun e he => he
    change ((size - 1).toNat : ℤ) < size.toNat
    omega

theorem initialView_prev {i : ℕ} (hi : i < size.toNat) (hle : i ≤ 2 ^ 31) :
    (initialView size fresh).link.prev (i : ℕ) = (i : ℤ) - 1 := by
  change Function.update _ (0 : ℤ) (-1) (i : ℤ) = _
  rcases Nat.eq_zero_or_pos i with rfl | hpos
  · simp
  · have hof : (UInt32.ofNat i).toNat = i := by
      rw [UInt32.toNat_ofNat']
      omega
    rw [Function.update_of_ne (by omega)]
    change intOf (UInt32.ofNat i - 1) = _
    rw [intOf_of_lt (by rw [toNat_sub_one (by omega)]; omega), toNat_sub_one (by omega)]
    omega

theorem initialView_next {i : ℕ} (hi : i + 1 < size.toNat) :
    (initialView size fresh).link.next (i : ℕ) = intOf (UInt32.ofNat (i + 1)) := by
  have hlast := toNat_sub_one (Nat.zero_lt_of_lt hi)
  change Function.update _ ((size - 1).toNat : ℤ) (-1) (i : ℤ) = _
  rw [Function.update_of_ne (by omega)]
  change intOf (UInt32.ofNat i + 1) = _
  rw [UInt32.ofNat_add]
  rfl

theorem initialView_layout (h : 0 < size.toNat) (hle : size.toNat ≤ 2 ^ 31) :
    Layout (initialView size fresh) (initialSlots size fresh) := by
  have hlast := toNat_sub_one h
  have hp : ∀ i < size.toNat, (initialView size fresh).link.prev (i : ℕ) = (i : ℤ) - 1 :=
    fun i hi => initialView_prev hi (by omega)
  have hn : ∀ i < size.toNat, (initialView size fresh).link.next (i : ℕ) =
      if i + 1 = size.toNat then -1 else (i : ℤ) + 1 := by
    intro i hi
    by_cases hlt : i + 1 = size.toNat
    · rw [if_pos hlt]
      change Function.update _ ((size - 1).toNat : ℤ) (-1) (i : ℤ) = _
      rw [show (i : ℤ) = ((size - 1).toNat : ℤ) by omega, Function.update_self]
    · have hof : (UInt32.ofNat (i + 1)).toNat = i + 1 := by
        rw [UInt32.toNat_ofNat']
        omega
      rw [if_neg hlt, initialView_next (by omega), intOf_of_lt (by omega), hof]
      rfl
  refine ⟨⟨⟨?_, nodup_allSlots size, ?_, ?_, ?_⟩, ?_, ?_, ?_, ?_, ?_, ?_, ?_, rfl⟩, h, hle⟩
  · have := seg_consecutive hp hn size.toNat 0 (by omega)
    simpa [initialSlots, allSlots, List.range_eq_range'] using this
  · simp [initialSlots]
  · obtain ⟨n, hs⟩ : ∃ n, size.toNat = n + 1 := ⟨size.toNat - 1, by omega⟩
    simp [initialView, initialSlots, allSlots, hs, List.range_succ_eq_map]
  · obtain ⟨n, hs⟩ : ∃ n, size.toNat = n + 1 := ⟨size.toNat - 1, by omega⟩
    change intOf (size - 1) = (allSlots size).getLastD (-1)
    rw [intOf_of_lt (by omega), hlast, allSlots, hs, List.range_succ, List.map_append,
      List.map_singleton, getLastD_append_cons]
    rfl
  · exact ⟨trivial, List.nodup_nil, by simp [initialSlots], rfl, rfl⟩
  · simp [initialSlots, initialView]
  · simp [initialView, initialSlots, allSlots]
  · exact fun i _ => trivial
  · exact fun i _ => rfl
  · exact fun i _ => List.nodup_nil
  · simp [initialSlots]

theorem init_succeeds (c : CacheManager T) (h : 0 < size.toNat) (hle : size.toNat ≤ 2 ^ 31) :
    Succeeds (c.init size fresh) fun d =>
      d.view.size = size ∧ Layout d.view (initialSlots size fresh) := by
  refine (init_yields c h).mono fun d hd => ?_
  rw [hd]
  exact ⟨rfl, initialView_layout h hle⟩

theorem runOps_succeeds {c : CacheManager T} {A : Slots T} (hs : 10 ≤ size.toNat)
    (hc : c.view.size = size) (h : Layout c.view A) (ops : List (Op T)) :
    Succeeds (c.runOps ops) fun d => d.view.size = size ∧
      Layout d.view (ops.foldl (fun A o => (A.call size o).1) A) := by
  refine foldlM_simulates
    (R := fun (d : CacheManager T) A => d.view.size = size ∧ Layout d.view A) ?_ ⟨hc, h⟩ ops
  rintro d B o ⟨rfl, hd⟩
  refine Succeeds.map ((hd.call_succeeds rfl hs o).mono fun r hr => ⟨hr.1, hr.2.1⟩)

/-- The state after a sequence of calls that follows `init`. -/
def runFromInit (c : CacheManager T) (size : UInt32) (fresh : ℤ → T × TSign)
    (calls : List (Call T)) : Option (CacheManager T) := do
  let c ← c.init size fresh
  c.run calls

theorem runFromInit_succeeds (c : CacheManager T) (h : 10 ≤ size.toNat)
    (hle : size.toNat ≤ 2 ^ 31) {calls : List (Call T)} {ops : List (Op T)}
    (hops : calls.map Call.op = ops.map some) :
    Succeeds (c.runFromInit size fresh calls) fun d => d.view.size = size ∧
      Layout d.view (ops.foldl (fun A o => (A.call size o).1) (initialSlots size fresh)) := by
  unfold runFromInit
  refine (init_succeeds c (by omega) hle).bind fun d hd => ?_
  rw [run_eq_runOps hops]
  exact runOps_succeeds h hd.1 hd.2 ops

/-- After every sequence of calls on a cache of ten slots or more, numbered by
`int`, its linked structures are well formed. -/
theorem runFromInit_linkage (c : CacheManager T) (size : UInt32) (fresh : ℤ → T × TSign)
    (h : 10 ≤ size.toNat) (hle : size.toNat ≤ 2 ^ 31) (calls : List (Call T))
    (hkeys : ∀ e ∈ calls, e.Fits) :
    Succeeds (c.runFromInit size fresh calls) fun d => d.view.size = size ∧
      ∃ A : Slots T, Linkage d.view A := by
  obtain ⟨ops, hops⟩ := exists_ops hkeys
  exact (runFromInit_succeeds c h hle hops).mono fun _ hd => ⟨hd.1, _, hd.2.toLinkage⟩

/-- An object that `init` was never called on. -/
def blank : CacheManager ℕ where
  size := 0
  pvalue _ := ⟨0, ⟨0, 0⟩, ⟨-1, -1⟩, ⟨-1, -1⟩⟩
  pidx _ := -1
  freeList := ⟨-1, -1⟩
  busyList := ⟨-1, -1⟩
  freeListSize := 0
  visitCnt := 0
  hitCnt := 0
  fstat := []

theorem runFromInit_linkage_ten :
    Succeeds (blank.runFromInit 10 (fun _ => (0, ⟨0, 0⟩))
        [.insert [97] 1, .find [97], .remove [97]])
      fun d => d.view.size = 10 ∧ ∃ A : Slots ℕ, Linkage d.view A :=
  runFromInit_linkage blank 10 _ (by decide) (by decide) _ (by unfold Call.Fits; decide)

/-- The last slot of a cache of `2 ^ 31 + 1` slots has no number: after `init`
the tail field of the free list names no slot. -/
theorem oversized_not_linkage :
    ¬ Succeeds (blank.runFromInit 2147483649 (fun _ => (0, ⟨0, 0⟩)) []) fun d =>
      d.view.size = 2147483649 ∧ ∃ A : Slots ℕ, Linkage d.view A := by
  intro hs
  have hi : Yields (blank.init 2147483649 fun _ => (0, ⟨0, 0⟩)) _ := init_yields blank (by decide)
  obtain ⟨d, hd, hv⟩ := hi
  have hrun : blank.runFromInit 2147483649 (fun _ => (0, ⟨0, 0⟩)) [] = some d := by
    unfold runFromInit
    rw [hd]
    rfl
  obtain ⟨-, A, hA⟩ := hs.of_eq hrun
  have htail := hA.free.tail_eq
  rw [hv] at htail
  have hm : (-2147483648 : ℤ) ∈ A.free := by
    have := (getLastD_eq_or_mem A.free (-1)).resolve_left (by rw [← htail]; decide)
    rwa [← htail] at this
  have hr := (hA.slots.mem_iff (a := -2147483648)).mp (List.mem_append_left _ hm)
  rw [mem_allSlots] at hr
  omega

theorem runFromInit_long_key (c : CacheManager T) (size : UInt32) (fresh : ℤ → T × TSign)
    (value : T) (calls : List (Call T)) :
    c.runFromInit size fresh (.insert (List.replicate (2 ^ 31) 97) value :: calls) = none := by
  unfold runFromInit
  cases c.init size fresh with
  | none => rfl
  | some d =>
    rw [Option.bind_eq_bind, Option.bind_some, run, List.foldlM_cons, call_eq_bind, Call.op_long]
    rfl

/-- Neither slots without a number nor keys whose length is not an `int` are handled. -/
theorem not_linkage :
    ¬ Succeeds (blank.runFromInit 2147483649 (fun _ => (0, ⟨0, 0⟩)) []) (fun d =>
        d.view.size = 2147483649 ∧ ∃ A : Slots ℕ, Linkage d.view A) ∧
      ¬ Succeeds (blank.runFromInit 10 (fun _ => (0, ⟨0, 0⟩))
        [.insert (List.replicate (2 ^ 31) 97) 1]) fun d =>
          d.view.size = 10 ∧ ∃ A : Slots ℕ, Linkage d.view A := by
  refine ⟨oversized_not_linkage, ?_⟩
  rw [runFromInit_long_key]
  exact not_succeeds_none

end YlUtils.CacheManager
