import Mathlib.Logic.Function.Basic

/-! # Reversible updates in place

A cipher that rewrites the cells of a block one after the other is undone by
rewriting them in the opposite order, as long as what is added to a cell depends
on the other cells only. Rounds with different offsets compose.
-/

namespace YlUtils.InPlace

variable {ι α κ : Type*} [DecidableEq ι]

/-- The value of the offset at a cell does not depend on that cell. -/
def Blind (f : (ι → α) → ι → α) (i : ι) : Prop :=
  ∀ v x, f (Function.update v i x) i = f v i

section Cells

variable [Add α] [Sub α]

def add (f : (ι → α) → ι → α) (v : ι → α) (i : ι) : ι → α :=
  Function.update v i (v i + f v i)

def sub (f : (ι → α) → ι → α) (v : ι → α) (i : ι) : ι → α :=
  Function.update v i (v i - f v i)

/-- Add to the cells in the order of the list. -/
def addAll (f : (ι → α) → ι → α) (is : List ι) (v : ι → α) : ι → α :=
  is.foldl (add f) v

/-- Subtract from the cells, the last one first. -/
def subAll (f : (ι → α) → ι → α) (is : List ι) (v : ι → α) : ι → α :=
  is.foldr (fun i v => sub f v i) v

/-- One round for each key. -/
def encipher (f : κ → (ι → α) → ι → α) (is : List ι) (ks : List κ) (v : ι → α) : ι → α :=
  ks.foldl (fun v k => addAll (f k) is v) v

/-- The rounds undone, the last one first. -/
def decipher (f : κ → (ι → α) → ι → α) (is : List ι) (ks : List κ) (v : ι → α) : ι → α :=
  ks.foldr (fun k v => subAll (f k) is v) v

variable {f : (ι → α) → ι → α} {is : List ι} {i : ι}

theorem sub_add (hsub : ∀ a b : α, a + b - b = a) (h : Blind f i) (v : ι → α) :
    sub f (add f v i) i = v := by
  unfold sub add
  rw [h, Function.update_self, hsub, Function.update_idem, Function.update_eq_self]

theorem subAll_addAll (hsub : ∀ a b : α, a + b - b = a) (h : ∀ i ∈ is, Blind f i) (v : ι → α) :
    subAll f is (addAll f is v) = v := by
  induction is generalizing v with
  | nil => rfl
  | cons i is ih =>
    have hrest := ih (fun j hj => h j (List.mem_cons_of_mem i hj)) (add f v i)
    change sub f (subAll f is (addAll f is (add f v i))) i = v
    rw [hrest]
    exact sub_add hsub (h i List.mem_cons_self) v

/-- Rounds are undone by the opposite rounds in the opposite order. -/
theorem decipher_encipher {g : κ → (ι → α) → ι → α} (hsub : ∀ a b : α, a + b - b = a)
    (h : ∀ k, ∀ i ∈ is, Blind (g k) i) (ks : List κ) (v : ι → α) :
    decipher g is ks (encipher g is ks v) = v := by
  induction ks generalizing v with
  | nil => rfl
  | cons k ks ih =>
    change subAll (g k) is (decipher g is ks (encipher g is ks (addAll (g k) is v))) = v
    rw [ih]
    exact subAll_addAll hsub (h k) v

theorem add_sub (hadd : ∀ a b : α, a - b + b = a) (h : Blind f i) (v : ι → α) :
    add f (sub f v i) i = v := by
  unfold add sub
  rw [h, Function.update_self, hadd, Function.update_idem, Function.update_eq_self]

theorem addAll_subAll (hadd : ∀ a b : α, a - b + b = a) (h : ∀ i ∈ is, Blind f i) (v : ι → α) :
    addAll f is (subAll f is v) = v := by
  induction is generalizing v with
  | nil => rfl
  | cons i is ih =>
    change addAll f is (add f (sub f (subAll f is v) i) i) = v
    rw [add_sub hadd (h i List.mem_cons_self)]
    exact ih (fun j hj => h j (List.mem_cons_of_mem i hj)) v

theorem encipher_decipher {g : κ → (ι → α) → ι → α} (hadd : ∀ a b : α, a - b + b = a)
    (h : ∀ k, ∀ i ∈ is, Blind (g k) i) (ks : List κ) (v : ι → α) :
    encipher g is ks (decipher g is ks v) = v := by
  induction ks generalizing v with
  | nil => rfl
  | cons k ks ih =>
    change encipher g is ks (addAll (g k) is (subAll (g k) is (decipher g is ks v))) = v
    rw [addAll_subAll hadd (h k)]
    exact ih v

end Cells

end YlUtils.InPlace
