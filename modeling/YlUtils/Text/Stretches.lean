import Mathlib.Data.List.Infix

/-! # Stretches of a text

A predicate on characters marks the delimiters of a text. A stretch is a part without
delimiters that cannot be made longer. Searching for the next character that is no
delimiter, and from there for the next one, finds the stretches from left to right.
-/

namespace YlUtils

variable {α : Type*}

def HoldsAt (d : α → Bool) (s : List α) (k : ℕ) : Prop := ∃ c ∈ s[k]?, d c = true

def findFrom (d : α → Bool) (s : List α) (pos : ℕ) : Option ℕ :=
  ((s.drop pos).findIdx? d).map (pos + ·)

/-- The part from `i` up to `j` is not empty, has no delimiter, and lies between delimiters or the
ends of the text. -/
structure IsStretch (d : α → Bool) (s : List α) (i j : ℕ) : Prop where
  nonempty : i < j
  inside : j ≤ s.length
  free : ∀ k, i ≤ k → k < j → ¬ HoldsAt d s k
  left : i = 0 ∨ HoldsAt d s (i - 1)
  right : j = s.length ∨ HoldsAt d s j

inductive Stretches (d : α → Bool) (s : List α) : ℕ → List (ℕ × ℕ) → Prop
  | none {pos : ℕ} (gap : ∀ k, pos ≤ k → k < s.length → HoldsAt d s k) : Stretches d s pos []
  | last {pos i : ℕ} (hpos : pos ≤ i) (gap : ∀ k, pos ≤ k → k < i → HoldsAt d s k)
    (hi : i < s.length) (free : ∀ k, i ≤ k → ¬ HoldsAt d s k) :
    Stretches d s pos [(i, s.length)]
  | next {pos i j : ℕ} {ts : List (ℕ × ℕ)} (hpos : pos ≤ i)
    (gap : ∀ k, pos ≤ k → k < i → HoldsAt d s k) (hi : i < j)
    (free : ∀ k, i ≤ k → k < j → ¬ HoldsAt d s k) (hj : HoldsAt d s j)
    (rest : Stretches d s j ts) : Stretches d s pos ((i, j) :: ts)

section Search

variable {d : α → Bool} {s : List α} {pos i k : ℕ}

theorem HoldsAt.lt_length (h : HoldsAt d s k) : k < s.length := by
  obtain ⟨c, hc, -⟩ := h
  exact (List.getElem?_eq_some_iff.mp hc).1

theorem holdsAt_iff (hk : k < s.length) : HoldsAt d s k ↔ d s[k] = true := by
  simp [HoldsAt, List.getElem?_eq_getElem hk]

theorem holdsAt_not_iff : HoldsAt (fun c => !d c) s k ↔ k < s.length ∧ ¬ HoldsAt d s k := by
  by_cases hk : k < s.length
  · simp [holdsAt_iff hk, hk]
  · exact iff_of_false (fun h => hk h.lt_length) fun h => hk h.1

theorem findFrom_eq_some_iff :
    findFrom d s pos = some i ↔
      pos ≤ i ∧ HoldsAt d s i ∧ ∀ k, pos ≤ k → k < i → ¬ HoldsAt d s k := by
  rw [findFrom, Option.map_eq_some_iff]
  constructor
  · rintro ⟨n, hn, rfl⟩
    obtain ⟨hlt, hat, hbefore⟩ := List.findIdx?_eq_some_iff_getElem.mp hn
    rw [List.length_drop] at hlt
    refine ⟨Nat.le_add_right _ _, ?_, fun k hk hlt' hhold => ?_⟩
    · rw [holdsAt_iff (by omega)]
      rwa [List.getElem_drop] at hat
    · obtain ⟨m, rfl⟩ := Nat.exists_eq_add_of_le hk
      have hno := hbefore m (by omega)
      rw [List.getElem_drop, ← holdsAt_iff hhold.lt_length] at hno
      exact hno hhold
  · rintro ⟨hle, hat, hbefore⟩
    obtain ⟨n, rfl⟩ := Nat.exists_eq_add_of_le hle
    have hlt := hat.lt_length
    refine ⟨n, List.findIdx?_eq_some_iff_getElem.mpr ⟨?_, ?_, fun m hm => ?_⟩, rfl⟩
    · rw [List.length_drop]
      omega
    · rwa [List.getElem_drop, ← holdsAt_iff hlt]
    · rw [List.getElem_drop, ← holdsAt_iff (by omega)]
      exact hbefore (pos + m) (by omega) (by omega)

theorem findFrom_eq_none_iff :
    findFrom d s pos = none ↔ ∀ k, pos ≤ k → ¬ HoldsAt d s k := by
  rw [findFrom, Option.map_eq_none_iff, List.findIdx?_eq_none_iff]
  constructor
  · rintro hno k hk ⟨c, hc, hd⟩
    obtain ⟨m, rfl⟩ := Nat.exists_eq_add_of_le hk
    rw [← List.getElem?_drop] at hc
    rw [hno c (List.mem_of_getElem? hc)] at hd
    cases hd
  · intro hno c hc
    obtain ⟨m, hm⟩ := List.mem_iff_getElem?.mp hc
    rw [List.getElem?_drop] at hm
    rw [← Bool.not_eq_true]
    exact fun hd => hno (pos + m) (Nat.le_add_right _ _) ⟨c, hm, hd⟩

end Search

namespace Stretches

variable {d : α → Bool} {s : List α} {pos i j : ℕ} {ts : List (ℕ × ℕ)}

theorem exists_from (d : α → Bool) (s : List α) (pos : ℕ) :
    ∃ ts, Stretches d s pos ts ∧ ts.length ≤ s.length - pos := by
  induction hn : s.length - pos using Nat.strong_induction_on generalizing pos with
  | h n ih =>
    cases hi : findFrom (fun c => !d c) s pos with
    | none =>
      have hgap := findFrom_eq_none_iff.mp hi
      refine ⟨[], .none fun k hk hlt => ?_, Nat.zero_le _⟩
      by_contra hno
      exact hgap k hk (holdsAt_not_iff.mpr ⟨hlt, hno⟩)
    | some i =>
      obtain ⟨hpos, hat, hbefore⟩ := findFrom_eq_some_iff.mp hi
      obtain ⟨hlt, hno⟩ := holdsAt_not_iff.mp hat
      have hgap : ∀ k, pos ≤ k → k < i → HoldsAt d s k := by
        intro k hk hki
        by_contra hk'
        exact hbefore k hk hki (holdsAt_not_iff.mpr ⟨hki.trans hlt, hk'⟩)
      cases hj : findFrom d s i with
      | none =>
        exact ⟨_, .last hpos hgap hlt (findFrom_eq_none_iff.mp hj), by simp; omega⟩
      | some j =>
        obtain ⟨hij, hhold, hfree⟩ := findFrom_eq_some_iff.mp hj
        have hne : i ≠ j := fun h => hno (h ▸ hhold)
        have hlen := hhold.lt_length
        obtain ⟨ts, hts, hcount⟩ := ih (s.length - j) (by omega) j rfl
        refine ⟨_, .next hpos hgap (by omega) hfree hhold hts, ?_⟩
        rw [List.length_cons]
        omega

theorem start_eq (h : IsStretch d s i j) {i' : ℕ} (hpos : pos ≤ i)
    (gap : ∀ k, pos ≤ k → k < i' → HoldsAt d s k) (hfree : ∀ k, i' ≤ k → k ≤ i → ¬ HoldsAt d s k) :
    i = i' := by
  rcases Nat.lt_trichotomy i i' with hlt | heq | hgt
  · exact absurd (gap i hpos hlt) (h.free i le_rfl h.nonempty)
  · exact heq
  · rcases h.left with rfl | hleft
    · exact absurd hgt (Nat.not_lt_zero _)
    · exact absurd hleft (hfree (i - 1) (by omega) (by omega))

theorem left_of_gap (hpos : pos = 0 ∨ HoldsAt d s pos) (hle : pos ≤ i) (hno : ¬ HoldsAt d s i)
    (gap : ∀ k, pos ≤ k → k < i → HoldsAt d s k) : i = 0 ∨ HoldsAt d s (i - 1) := by
  rcases Nat.eq_or_lt_of_le hle with rfl | hlt
  · exact hpos.imp_right fun h => absurd h hno
  · exact .inr (gap (i - 1) (by omega) (by omega))

/-- Behind a delimiter, or at the start, the search finds just the stretches. -/
theorem mem_iff (h : Stretches d s pos ts) (hpos : pos = 0 ∨ HoldsAt d s pos) :
    (i, j) ∈ ts ↔ IsStretch d s i j ∧ pos ≤ i := by
  induction h with
  | none gap =>
    refine iff_of_false List.not_mem_nil fun ⟨h, hle⟩ => ?_
    exact h.free i le_rfl h.nonempty (gap i hle (h.nonempty.trans_le h.inside))
  | @last pos i' hle gap hi free =>
    rw [List.mem_singleton, Prod.mk.injEq]
    constructor
    · rintro ⟨rfl, rfl⟩
      have hleft := left_of_gap hpos hle (free i le_rfl) gap
      exact ⟨⟨hi, le_rfl, fun k hk _ => free k hk, hleft, .inl rfl⟩, hle⟩
    · rintro ⟨h, hle'⟩
      obtain rfl := start_eq h hle' gap fun k hk _ => free k hk
      exact ⟨rfl, h.right.resolve_right (free j h.nonempty.le)⟩
  | @next pos i' j' ts hle gap hi free hj rest ih =>
    have hrest : (i, j) ∈ ts ↔ IsStretch d s i j ∧ j' ≤ i := ih (.inr hj)
    rw [List.mem_cons, Prod.mk.injEq, hrest]
    constructor
    · rintro (⟨rfl, rfl⟩ | ⟨h, hle'⟩)
      · have hleft := left_of_gap hpos hle (free i le_rfl hi) gap
        exact ⟨⟨hi, hj.lt_length.le, free, hleft, .inr hj⟩, hle⟩
      · exact ⟨h, by omega⟩
    · rintro ⟨h, hle'⟩
      rcases Nat.lt_or_ge i j' with hlt | hge
      · obtain rfl := start_eq h hle' gap fun k hk hki => free k hk (by omega)
        refine .inl ⟨rfl, ?_⟩
        -- neither of the two ends lies inside of the other stretch
        rcases Nat.lt_trichotomy j j' with hlt' | heq | hgt
        · have hlen := hj.lt_length
          exact absurd (h.right.resolve_left (by omega)) (free j h.nonempty.le hlt')
        · exact heq
        · exact absurd hj (h.free j' hi.le hgt)
      · exact .inr ⟨h, hge⟩

theorem pairwise (h : Stretches d s pos ts) (hpos : pos = 0 ∨ HoldsAt d s pos) :
    ts.Pairwise fun a b => a.2 < b.1 := by
  induction h with
  | none gap => exact .nil
  | last hle gap hi free => exact List.pairwise_singleton _ _
  | @next pos i' j' ts hle gap hi free hj rest ih =>
    refine List.pairwise_cons.mpr ⟨?_, ih (.inr hj)⟩
    rintro ⟨i, j⟩ hmem
    obtain ⟨h, hle'⟩ := (rest.mem_iff (.inr hj)).mp hmem
    -- a stretch does not begin with the delimiter behind another one
    refine Nat.lt_of_le_of_ne hle' fun heq => ?_
    have heq' : j' = i := heq
    exact h.free i le_rfl h.nonempty (heq' ▸ hj)

end Stretches

end YlUtils
