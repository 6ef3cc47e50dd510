import Mathlib.Data.List.Basic

/-! # Quoted literals

In a literal an escape character gives the character after it a meaning, a
doubled quote is a quote, and any other quote ends the literal.
-/

namespace YlUtils.Literal

variable {α : Type}

def prepend (x : List α) (r : List α × List α) : List α × List α := (x ++ r.1, r.2)

theorem map_prepend_eq_some {x w t : List α} {r : Option (List α × List α)} :
    r.map (prepend x) = some (w, t) ↔ ∃ u, r = some (u, t) ∧ w = x ++ u := by
  constructor
  · intro h
    obtain ⟨⟨u, t'⟩, hu, he⟩ := Option.map_eq_some_iff.mp h
    obtain ⟨rfl, rfl⟩ := Prod.mk.inj he
    exact ⟨u, hu, rfl⟩
  · rintro ⟨u, rfl, rfl⟩
    rfl

section Reading

variable [DecidableEq α]

/-- Read a literal behind its opening quote: what it denotes, and the text after it. -/
def read (quote escape : α) (meaning : α → List α) : List α → Option (List α × List α)
  | [] => none
  | [c] => if c = quote ∧ c ≠ escape then some ([], []) else none
  | c :: d :: s =>
    if c = escape then (read quote escape meaning s).map (prepend (meaning d))
    else if c = quote then
      if d = quote then (read quote escape meaning s).map (prepend [quote])
      else some ([], d :: s)
    else (read quote escape meaning (d :: s)).map (prepend [c])

def Denotes (quote escape : α) (meaning : α → List α) (text value : List α) : Prop :=
  ∃ s, text = quote :: s ∧ read quote escape meaning s = some (value, [])

variable {quote escape c d : α} {meaning : α → List α} {s v : List α}

@[simp] theorem denotes_cons :
    Denotes quote escape meaning (quote :: s) v ↔ read quote escape meaning s = some (v, []) := by
  simp [Denotes]

theorem read_quote (h : quote ≠ escape) : read quote escape meaning [quote] = some ([], []) := by
  simp [read, h]

theorem read_escape : read quote escape meaning (escape :: d :: s) =
    (read quote escape meaning s).map (prepend (meaning d)) := by
  rw [read, if_pos rfl]

theorem read_cons (he : c ≠ escape) (hq : c ≠ quote) : read quote escape meaning (c :: s) =
    (read quote escape meaning s).map (prepend [c]) := by
  cases s with
  | nil => simp [read, hq]
  | cons d s => rw [read, if_neg he, if_neg hq]

theorem read_quote_cons (h : quote ≠ escape) (hd : d ≠ quote) :
    read quote escape meaning (quote :: d :: s) = some ([], d :: s) := by
  rw [read, if_neg h, if_pos rfl, if_neg hd]

theorem read_quote_quote (h : quote ≠ escape) : read quote escape meaning (quote :: quote :: s) =
    (read quote escape meaning s).map (prepend [quote]) := by
  rw [read, if_neg h, if_pos rfl, if_pos rfl]

end Reading

end YlUtils.Literal
