import Mathlib.Order.Bounds.Basic
import Mathlib.Order.Monotone.Defs

/-! # Best paths through a trellis

The nodes of a trellis stand in columns, and a path takes one node of every
column. The weight of a path grows from left to right by a rule that is monotone
in the weight so far and need not be associative, so rounded arithmetic is
covered. A table that extends the best predecessor of each node holds the
greatest weight of all paths to the node, and following its choices backwards
gives a path of that weight.
-/

namespace YlUtils

/-- Columns of nodes, with the weight a path has in the first column and the rule
by which it grows. -/
structure Trellis (W : Type) [Preorder W] where
  width : ℕ → ℕ
  start : W
  ext : ℕ → W → ℕ → ℕ → W
  mono : ∀ c a b, Monotone fun w => ext c w a b

namespace Trellis

variable {W : Type} [Preorder W] (T : Trellis W)

def weight (t : ℕ → ℕ) : ℕ → W
  | 0 => T.start
  | c + 1 => T.ext c (weight t c) (t c) (t (c + 1))

/-- The path takes a node of every column up to `c`. -/
def Through (t : ℕ → ℕ) (c : ℕ) : Prop := ∀ i ≤ c, t i < T.width i

/-- The weights of the paths that end in node `b` of column `c`. -/
def weights (c b : ℕ) : Set W := {w | ∃ t, T.Through t c ∧ t c = b ∧ T.weight t c = w}

variable {T}

theorem weight_congr {t t' : ℕ → ℕ} {c : ℕ} (h : ∀ i ≤ c, t i = t' i) :
    T.weight t c = T.weight t' c := by
  induction c with
  | zero => rfl
  | succ c ih =>
    rw [weight, weight, ih fun i hi => h i (by omega), h c (by omega), h (c + 1) (by omega)]

/-- The path that the choices `back` give for node `b` of column `c`. -/
def trace (back : ℕ → ℕ → ℕ) : ℕ → ℕ → ℕ → ℕ
  | 0, b => fun _ => b
  | c + 1, b => fun i => if i = c + 1 then b else trace back c (back (c + 1) b) i

@[simp] theorem trace_self (back : ℕ → ℕ → ℕ) (c b : ℕ) : trace back c b c = b := by
  cases c <;> simp [trace]

theorem trace_of_le {back : ℕ → ℕ → ℕ} {c b i : ℕ} (h : i ≤ c) :
    trace back (c + 1) b i = trace back c (back (c + 1) b) i :=
  if_neg (show ¬ i = c + 1 by omega)

theorem trace_pred (back : ℕ → ℕ → ℕ) {c b i : ℕ} (h : i < c) :
    trace back c b i = back (i + 1) (trace back c b (i + 1)) := by
  induction c generalizing b with
  | zero => omega
  | succ c ih =>
    rw [trace_of_le (by omega)]
    rcases Nat.lt_or_ge i c with hi | hi
    · rw [trace_of_le hi]
      exact ih hi
    · obtain rfl : i = c := by omega
      simp

/-- A table of weights and choices in which every node of a column extends its best
predecessor, up to column `n`. -/
structure Solves (T : Trellis W) (opwt : ℕ → ℕ → W) (back : ℕ → ℕ → ℕ) (n : ℕ) : Prop where
  start : ∀ b < T.width 0, opwt 0 b = T.start
  back_lt : ∀ c < n, ∀ b < T.width (c + 1), back (c + 1) b < T.width c
  opwt_succ : ∀ c < n, ∀ b < T.width (c + 1),
    opwt (c + 1) b = T.ext c (opwt c (back (c + 1) b)) (back (c + 1) b) b
  le_opwt : ∀ c < n, ∀ b < T.width (c + 1), ∀ a < T.width c,
    T.ext c (opwt c a) a b ≤ opwt (c + 1) b

namespace Solves

variable {opwt : ℕ → ℕ → W} {back : ℕ → ℕ → ℕ} {n c b : ℕ}

theorem weight_le (h : T.Solves opwt back n) {t : ℕ → ℕ} (hc : c ≤ n) (ht : T.Through t c) :
    T.weight t c ≤ opwt c (t c) := by
  induction c with
  | zero => exact (h.start _ (ht 0 (Nat.le_refl 0))) ▸ Preorder.le_refl _
  | succ c ih =>
    have hw := ih (by omega) fun i hi => ht i (by omega)
    exact Preorder.le_trans _ _ _ (T.mono c (t c) (t (c + 1)) hw)
      (h.le_opwt c (by omega) _ (ht _ (Nat.le_refl _)) _ (ht c (by omega)))

theorem trace_through (h : T.Solves opwt back n) (hc : c ≤ n) (hb : b < T.width c) :
    T.Through (trace back c b) c := by
  induction c generalizing b with
  | zero =>
    intro i hi
    obtain rfl : i = 0 := by omega
    exact hb
  | succ c ih =>
    intro i hi
    rcases Nat.lt_or_ge c i with hci | hci
    · obtain rfl : i = c + 1 := by omega
      simpa using hb
    · rw [trace_of_le hci]
      exact ih (by omega) (h.back_lt c (by omega) b hb) i hci

theorem weight_trace (h : T.Solves opwt back n) (hc : c ≤ n) (hb : b < T.width c) :
    T.weight (trace back c b) c = opwt c b := by
  induction c generalizing b with
  | zero => exact (h.start b hb).symm
  | succ c ih =>
    rw [h.opwt_succ c (by omega) b hb, weight, trace_self, trace_of_le (Nat.le_refl c), trace_self,
      weight_congr fun i hi => trace_of_le hi,
      ih (by omega) (h.back_lt c (by omega) b hb)]

/-- The table holds the greatest weight of the paths to each node. -/
theorem isGreatest (h : T.Solves opwt back n) (hc : c ≤ n) (hb : b < T.width c) :
    IsGreatest (T.weights c b) (opwt c b) := by
  constructor
  · exact ⟨trace back c b, h.trace_through hc hb, trace_self back c b, h.weight_trace hc hb⟩
  · rintro w ⟨t, ht, rfl, rfl⟩
    exact h.weight_le hc ht

end Solves

end Trellis

end YlUtils
