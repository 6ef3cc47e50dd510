import Mathlib.Logic.Function.Basic
import YlUtils.Runs.Succeeds

/-! # Arrays on the heap

An array that is allocated gets a number that no other one ever has. What is done to
one array leaves the others as they are. To touch what is not allocated, or a place
outside of an array, has no defined behaviour.
-/

namespace YlUtils

variable {α : Type}

/-- The arrays that were ever allocated, with their items as long as they are. -/
structure Heap (α : Type) where
  blocks : List (Option (List α))

namespace Heap

def empty : Heap α := ⟨[]⟩

def block (h : Heap α) (b : ℕ) : Option (List α) := h.blocks[b]?.join

/-- `new[]`, which finds the items in the memory. -/
def alloc (h : Heap α) (items : List α) : ℕ × Heap α :=
  (h.blocks.length, ⟨h.blocks ++ [some items]⟩)

def free (h : Heap α) (b : ℕ) : Option (Heap α) := do
  let _ ← h.block b
  some ⟨h.blocks.set b none⟩

def read (h : Heap α) (b i : ℕ) : Option α := do
  let items ← h.block b
  items[i]?

def write (h : Heap α) (b i : ℕ) (x : α) : Option (Heap α) := do
  let items ← h.block b
  if i < items.length then some ⟨h.blocks.set b (some (items.set i x))⟩ else none

def memcpy (h : Heap α) (dst src n : ℕ) : Option (Heap α) := do
  let old ← h.block dst
  let items ← h.block src
  if n ≤ old.length ∧ n ≤ items.length then
    some ⟨h.blocks.set dst (some (items.take n ++ old.drop n))⟩
  else none

def fill (h : Heap α) (b n : ℕ) (x : α) : Option (Heap α) :=
  (List.range n).foldlM (fun h i => h.write b i x) h

variable {h : Heap α} {b c n i : ℕ} {items old : List α} {x : α}

theorem lt_length (hb : h.block b = some items) : b < h.blocks.length := by
  by_contra hge
  rw [block, List.getElem?_eq_none (Nat.not_lt.mp hge)] at hb
  cases hb

theorem ne_of_fresh (hc : h.block c = some items) (hb : h.block b = none) : c ≠ b := by
  rintro rfl
  rw [hb] at hc
  cases hc

theorem block_set (hb : h.block b = some items) (o : Option (List α)) :
    (⟨h.blocks.set b o⟩ : Heap α).block = Function.update h.block b o := by
  funext c
  by_cases hc : c = b
  · rw [hc, Function.update_self, block, List.getElem?_set_self (lt_length hb)]
    rfl
  · rw [Function.update_of_ne hc, block, List.getElem?_set_ne (Ne.symm hc)]
    rfl

theorem block_alloc (h : Heap α) (items : List α) :
    (h.alloc items).2.block = Function.update h.block (h.alloc items).1 (some items) := by
  funext c
  unfold alloc
  by_cases hc : c = h.blocks.length
  · rw [hc, Function.update_self, block]
    simp
  · rw [Function.update_of_ne hc, block, block]
    rcases Nat.lt_or_gt_of_ne hc with hlt | hgt
    · rw [List.getElem?_append_left hlt]
    · have hge : (h.blocks ++ [some items]).length ≤ c := by simpa using Nat.succ_le_of_lt hgt
      rw [List.getElem?_eq_none hge, List.getElem?_eq_none (Nat.le_of_lt hgt)]

theorem block_alloc_fresh (h : Heap α) (items : List α) : h.block (h.alloc items).1 = none := by
  unfold block alloc
  rw [List.getElem?_eq_none (Nat.le_refl _)]
  rfl

theorem free_spec (hb : h.block b = some items) :
    Succeeds (h.free b) fun h' => h'.block = Function.update h.block b none := by
  rw [free, hb]
  exact succeeds_some.mpr (block_set hb none)

theorem write_spec (hb : h.block b = some items) (hi : i < items.length) (x : α) :
    Succeeds (h.write b i x) fun h' =>
      h'.block = Function.update h.block b (some (items.set i x)) := by
  rw [write, hb]
  simp only [Option.bind_eq_bind, Option.bind_some, if_pos hi, succeeds_some]
  exact block_set hb _

theorem memcpy_spec (hdst : h.block b = some old) (hsrc : h.block c = some items)
    (hn : n ≤ old.length) (hn' : n ≤ items.length) :
    Succeeds (h.memcpy b c n) fun h' =>
      h'.block = Function.update h.block b (some (items.take n ++ old.drop n)) := by
  rw [memcpy, hdst, hsrc]
  simp only [Option.bind_eq_bind, Option.bind_some, if_pos (And.intro hn hn'), succeeds_some]
  exact block_set hdst _

theorem fill_spec (hb : h.block b = some items) (hn : n ≤ items.length) (x : α) :
    Succeeds (h.fill b n x) fun h' =>
      h'.block = Function.update h.block b (some (List.replicate n x ++ items.drop n)) := by
  induction n with
  | zero =>
    refine succeeds_some.mpr ?_
    rw [List.drop_zero, List.replicate_zero, List.nil_append, ← hb, Function.update_eq_self]
  | succ n ih =>
    rw [fill, List.range_succ, List.foldlM_append]
    refine (ih (by omega)).bind fun h₁ h₁b => ?_
    have hb₁ : h₁.block b = some (List.replicate n x ++ items.drop n) := by
      rw [h₁b, Function.update_self]
    have hlt : n < (List.replicate n x ++ items.drop n).length := by
      rw [List.length_append, List.length_replicate, List.length_drop]
      omega
    rw [List.foldlM_cons]
    refine (write_spec hb₁ hlt x).bind fun h₂ h₂b => succeeds_some.mpr ?_
    have hitems : (List.replicate n x ++ items.drop n).set n x =
        List.replicate (n + 1) x ++ items.drop (n + 1) := by
      rw [List.set_append_right _ _ (by simp), List.length_replicate, Nat.sub_self,
        List.replicate_succ', List.drop_eq_getElem_cons hn, List.append_assoc]
      rfl
    rw [h₂b, h₁b, Function.update_idem, hitems]

/-- What is allocated stays as it is, but for the array `old`. -/
def Keeps (h : Heap α) (old : Option ℕ) (h' : Heap α) : Prop :=
  ∀ c items, h.block c = some items → old ≠ some c → h'.block c = some items

section Keeps

variable {old : Option ℕ} {h₁ h₂ : Heap α}

theorem Keeps.refl (h : Heap α) (old : Option ℕ) : h.Keeps old h := fun _ _ hc _ => hc

theorem Keeps.update {o : Option (List α)} (hk : h.Keeps old h₁)
    (hb : h₂.block = Function.update h₁.block b o) (hold : old = some b ∨ h.block b = none) :
    h.Keeps old h₂ := by
  intro c items hc hne
  have hcb : c ≠ b := by
    rintro rfl
    rcases hold with ho | hfresh
    · exact hne ho
    · exact ne_of_fresh hc hfresh rfl
  rw [hb, Function.update_of_ne hcb]
  exact hk c items hc hne

theorem Keeps.of_none (hk : h.Keeps none h₁) (old : Option ℕ) : h.Keeps old h₁ :=
  fun c items hc _ => hk c items hc (by simp)

theorem Keeps.trans (hk : h.Keeps old h₁) (hk' : h₁.Keeps old h₂) : h.Keeps old h₂ :=
  fun c items hc hne => hk' c items (hk c items hc hne) hne

/-- What is not allocated any more was the array `old`, or never allocated. -/
theorem Keeps.eq_or_fresh (hk : h.Keeps old h₁) (hb : h₁.block b = none) :
    old = some b ∨ h.block b = none := by
  by_contra hnot
  obtain ⟨hold, hsome⟩ := not_or.mp hnot
  obtain ⟨items, hitems⟩ := Option.ne_none_iff_exists'.mp hsome
  rw [hk b items hitems hold] at hb
  cases hb

end Keeps

end Heap

end YlUtils
