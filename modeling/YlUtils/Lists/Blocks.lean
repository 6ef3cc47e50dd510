import Mathlib.Data.List.Basic

/-! # Blocks of a sorted list

The entries of a sorted list that satisfy a convex predicate stand in one block.
-/

namespace YlUtils

variable {α : Type*} {r : α → α → Prop} {p : α → Bool} {l : List α}

/-- `l` is `before ++ block ++ after`, where `block` holds the entries with `p` and no others. -/
structure IsBlock (p : α → Bool) (l before block after : List α) : Prop where
  eq : l = before ++ block ++ after
  before : ∀ a ∈ before, p a = false
  block : ∀ a ∈ block, p a = true
  after : ∀ a ∈ after, p a = false

theorem exists_block (hp : ∀ a b c, r a b → r b c → p a = true → p c = true → p b = true)
    (hl : l.Pairwise r) : ∃ before block after, IsBlock p l before block after := by
  induction l with
  | nil => exact ⟨[], [], [], by simp, by simp, by simp, by simp⟩
  | cons x l ih =>
    obtain ⟨hx, hl⟩ := List.pairwise_cons.mp hl
    obtain ⟨before, block, after, h⟩ := ih hl
    cases hpx : p x with
    | false =>
      exact ⟨x :: before, block, after, by simp [h.eq],
        List.forall_mem_cons.mpr ⟨hpx, h.before⟩, h.block, h.after⟩
    | true =>
      cases before with
      | nil =>
        exact ⟨[], x :: block, after, by simp [h.eq], by simp,
          List.forall_mem_cons.mpr ⟨hpx, h.block⟩, h.after⟩
      | cons y before =>
        -- `y` stands between `x` and the block, so the block is empty
        have hy := h.before y List.mem_cons_self
        have hblock : block = [] := by
          rw [List.eq_nil_iff_forall_not_mem]
          intro z hz
          have hyz : r y z := by
            rw [h.eq, List.cons_append, List.cons_append, List.pairwise_cons] at hl
            exact hl.1 z (by simp [hz])
          have hxy : r x y := hx y (by simp [h.eq])
          have := hp x y z hxy hyz hpx (h.block z hz)
          simp [hy] at this
        subst hblock
        refine ⟨[], [x], y :: (before ++ after), by simp [h.eq], by simp, by simp [hpx], ?_⟩
        intro a ha
        rcases List.mem_cons.mp ha with rfl | ha
        · exact hy
        · rcases List.mem_append.mp ha with ha | ha
          · exact h.before a (List.mem_cons_of_mem y ha)
          · exact h.after a ha

variable {before block after : List α}

theorem IsBlock.filter (h : IsBlock p l before block after) : l.filter p = block := by
  rw [h.eq, List.filter_append, List.filter_append, List.filter_eq_nil_iff.mpr,
    List.filter_eq_self.mpr h.block, List.filter_eq_nil_iff.mpr]
  · simp
  · simpa using h.after
  · simpa using h.before

theorem IsBlock.get_iff (h : IsBlock p l before block after) {k : ℕ} {a : α} (hk : l[k]? = some a) :
    p a = true ↔ before.length ≤ k ∧ k < before.length + block.length := by
  rw [h.eq] at hk
  rcases Nat.lt_or_ge k before.length with hlt | hge
  · rw [List.append_assoc, List.getElem?_append_left hlt] at hk
    rw [h.before a (List.mem_of_getElem? hk)]
    simp only [Bool.false_eq_true, false_iff]
    omega
  · rcases Nat.lt_or_ge k (before.length + block.length) with hlt | hge'
    · rw [List.append_assoc, List.getElem?_append_right hge,
        List.getElem?_append_left (by omega)] at hk
      simp [h.block a (List.mem_of_getElem? hk), hge, hlt]
    · rw [List.getElem?_append_right (by simpa using hge')] at hk
      rw [h.after a (List.mem_of_getElem? hk)]
      simp only [Bool.false_eq_true, false_iff]
      omega

theorem IsBlock.length_le (h : IsBlock p l before block after) :
    before.length + block.length ≤ l.length := by
  rw [h.eq]
  simp

end YlUtils
