import Mathlib.Data.List.Basic

/-! # Pointers to arrays

What a pointer leads to: nothing, an array, or an array that was deleted. To
read or to delete what was deleted has no defined behaviour.
-/

namespace YlUtils

inductive Pointer (α : Type) where
  | null
  | live (items : List α)
  | freed

namespace Pointer

variable {α : Type} {p : Pointer α}

def delete : Pointer α → Option (Pointer α)
  | null => some null
  | live _ => some freed
  | freed => none

def isNull : Pointer α → Bool
  | null => true
  | _ => false

def read (p : Pointer α) (i : ℕ) : Option α :=
  match p with
  | live items => items[i]?
  | _ => none

/-- The pointer leads to an array of the length, or is null where the length is zero. -/
def HasLength (p : Pointer α) (n : ℕ) : Prop :=
  match p with
  | null => n = 0
  | live items => items.length = n
  | freed => False

theorem exists_delete (h : p ≠ .freed) : ∃ q, p.delete = some q := by
  cases p with
  | null => exact ⟨_, rfl⟩
  | live items => exact ⟨_, rfl⟩
  | freed => exact absurd rfl h

theorem HasLength.ne_freed {n : ℕ} (h : p.HasLength n) : p ≠ .freed := by
  rintro rfl
  exact h

end Pointer

end YlUtils
