import Mathlib.Data.List.Perm.Basic
import YlUtils.Cache.Manager

/-! # The cache as lists of slots

The abstract cache has no links: its free list, its busy list and its chains
are lists of slots, and its entries are a table. The busy list is kept in the
order of last use and each chain in the order of creation, newest first.
-/

namespace YlUtils

/-- A cache whose linked structures are lists. -/
structure Slots (T : Type) where
  free : List ℤ
  busy : List ℤ
  chain : ℤ → List ℤ
  entry : ℤ → TSign × T

namespace Slots

variable {T : Type}

/-- The newest slot of the bucket of `s` whose signature compares equal to `s`. -/
def hit (A : Slots T) (size : UInt32) (s : TSign) : Option ℤ :=
  (A.chain (s.bucket size)).find? fun k => (A.entry k).1.eq s

/-- Return a busy slot to the free list. -/
def release (A : Slots T) (size : UInt32) (k : ℤ) : Slots T :=
  let i := (A.entry k).1.bucket size
  { A with
    busy := A.busy.erase k
    free := A.free ++ [k]
    chain := Function.update A.chain i ((A.chain i).erase k) }

def evictOne (A : Slots T) (size : UInt32) : Slots T :=
  match A.busy with
  | [] => A
  | k :: _ => A.release size k

def evict (size : UInt32) : ℕ → Slots T → Slots T
  | 0, A => A
  | n + 1, A => evict size n (A.evictOne size)

/-- A tenth of the slots is evicted, rounded down. -/
def reclaim (A : Slots T) (size : UInt32) : Slots T := evict size (size / 10).toNat A

def makeRoom (A : Slots T) (size : UInt32) : Slots T :=
  if A.free = [] then A.reclaim size else A

def refresh (A : Slots T) (k : ℤ) : Slots T := { A with busy := A.busy.erase k ++ [k] }

def assign (A : Slots T) (k : ℤ) (v : T) : Slots T :=
  { A with entry := Function.update A.entry k ((A.entry k).1, v) }

/-- Store a new entry in the first free slot. -/
def store (A : Slots T) (size : UInt32) (s : TSign) (v : T) : Slots T :=
  match A.free with
  | [] => A
  | k :: free =>
    let i := s.bucket size
    { free := free
      busy := A.busy ++ [k]
      chain := Function.update A.chain i (k :: A.chain i)
      entry := Function.update A.entry k (s, v) }

def insert (A : Slots T) (size : UInt32) (s : TSign) (v : T) : Slots T :=
  let A := A.makeRoom size
  match A.hit size s with
  | some k => A.assign k v
  | none => A.store size s v

def remove (A : Slots T) (size : UInt32) (s : TSign) : Slots T :=
  match A.hit size s with
  | some k => A.release size k
  | none => A

def find (A : Slots T) (size : UInt32) (s : TSign) : Slots T × Option T :=
  match A.hit size s with
  | some k => (A.refresh k, some (A.entry k).2)
  | none => (A, none)

def call (A : Slots T) (size : UInt32) : CacheManager.Op T → Slots T × Option T
  | .insert sign value => (A.insert size (sign) value, none)
  | .remove sign => (A.remove size (sign), none)
  | .find sign => A.find size (sign)

theorem refresh_perm {A : Slots T} {k : ℤ} (hk : k ∈ A.busy) : (A.refresh k).busy.Perm A.busy :=
  (List.perm_append_singleton _ _).trans (List.perm_cons_erase hk).symm

section Evict

variable (A : Slots T) (size : UInt32) (n : ℕ)

@[simp] theorem evictOne_busy : (A.evictOne size).busy = A.busy.drop 1 := by
  unfold evictOne
  split <;> simp_all [release]

@[simp] theorem evictOne_free : (A.evictOne size).free = A.free ++ A.busy.take 1 := by
  unfold evictOne
  split <;> simp_all [release]

@[simp] theorem evictOne_entry : (A.evictOne size).entry = A.entry := by
  unfold evictOne
  split <;> rfl

theorem evict_busy : (evict size n A).busy = A.busy.drop n := by
  induction n generalizing A with
  | zero => rfl
  | succ n ih => rw [evict, ih, evictOne_busy, List.drop_drop, Nat.add_comm]

theorem evict_free : (evict size n A).free = A.free ++ A.busy.take n := by
  induction n generalizing A with
  | zero => simp [evict]
  | succ n ih =>
    rw [evict, ih, evictOne_free, evictOne_busy, List.append_assoc, Nat.add_comm n 1, List.take_add]

@[simp] theorem evict_entry : (evict size n A).entry = A.entry := by
  induction n generalizing A with
  | zero => rfl
  | succ n ih => rw [evict, ih, evictOne_entry]

theorem size_div_ten : (size / 10).toNat = size.toNat / 10 := by
  rw [UInt32.toNat_div]
  rfl

theorem reclaim_busy : (A.reclaim size).busy = A.busy.drop (size.toNat / 10) := by
  rw [reclaim, evict_busy, size_div_ten]

theorem reclaim_free : (A.reclaim size).free = A.free ++ A.busy.take (size.toNat / 10) := by
  rw [reclaim, evict_free, size_div_ten]

@[simp] theorem reclaim_entry : (A.reclaim size).entry = A.entry := evict_entry A size _

theorem makeRoom_busy_sublist : (A.makeRoom size).busy.Sublist A.busy := by
  unfold makeRoom
  split
  · rw [A.reclaim_busy]
    exact List.drop_sublist _ _
  · exact List.Sublist.refl _

@[simp] theorem makeRoom_entry : (A.makeRoom size).entry = A.entry := by
  unfold makeRoom
  split
  · exact A.reclaim_entry size
  · rfl

end Evict

end Slots

end YlUtils
