import Mathlib.Algebra.GroupWithZero.Nat
import YlUtils.Segment.CRoutine

/-! # What the segmentation takes from the sentence

The segmentation passes over the sentence by skipping a space, by taking an
undefined character of two bytes, or by taking a word. The mark `temppt`, which
an undefined character leaves behind it, makes a later word put the text since
the mark into the list once more. The list spells the sentence exactly if that
never happens.
-/

namespace YlUtils

inductive SegOp
  | skip
  | undef
  | word (n : ℕ)
  deriving DecidableEq

namespace SegOp

def bytes : SegOp → ℕ
  | skip => 1
  | undef => 2
  | word n => n

def Fits (s : Bytes) (p : ℕ) : SegOp → Prop
  | skip => s[p]? = some 32
  | undef => p < s.length
  | word n => 1 ≤ n ∧ n ≤ MAX_WordLen ∧ p + n ≤ s.length

def piece (s : Bytes) (p : ℕ) : SegOp → Bytes
  | skip => []
  | undef => (s.drop p).take 2
  | word n => (s.drop p).take n

end SegOp

open SegOp

structure Emission where
  basept : ℕ
  temppt : ℕ
  rows : List Bytes

namespace Emission

def init : Emission := ⟨0, 0, []⟩

/-- The mark stands before the position, so the next word repeats what is between them. -/
def Stale (e : Emission) : Prop := e.temppt ≠ 0 ∧ e.temppt < e.basept

instance (e : Emission) : Decidable e.Stale := inferInstanceAs (Decidable (_ ∧ _))

def repeated (s : Bytes) (e : Emission) : Bytes :=
  ((s.drop e.temppt).take (e.basept - e.temppt)).take MAX_WordLen

def step (s : Bytes) (e : Emission) : SegOp → Emission
  | skip => { e with basept := e.basept + 1 }
  | undef => ⟨e.basept + 2, e.basept + 2, e.rows ++ [piece s e.basept undef]⟩
  | word n =>
    if e.Stale then
      ⟨e.basept + n, 0, e.rows ++ [e.repeated s] ++ [piece s e.basept (word n)]⟩
    else ⟨e.basept + n, e.temppt, e.rows ++ [piece s e.basept (word n)]⟩

def run (s : Bytes) (ops : List SegOp) : Emission := ops.foldl (step s) init

end Emission

/-- Every pass is possible where it is made. -/
def FitsFrom (s : Bytes) : ℕ → List SegOp → Prop
  | _, [] => True
  | p, op :: ops => op.Fits s p ∧ FitsFrom s (p + op.bytes) ops

def pieces (s : Bytes) : ℕ → List SegOp → Bytes
  | _, [] => []
  | p, op :: ops => op.piece s p ++ pieces s (p + op.bytes) ops

/-- Behind an undefined character and one more pass, there are only spaces. -/
def EndsStale (ops : List SegOp) : Prop :=
  ∃ before op k, op ≠ undef ∧ ops = before ++ undef :: op :: List.replicate k skip

/-- An undefined character is followed by a pass and, but for spaces, by a word. -/
def Repeats (ops : List SegOp) : Prop := ∃ before n, before ++ [word n] <+: ops ∧ EndsStale before

section Passes

variable {s : Bytes} {p n : ℕ} {op : SegOp} {ops : List SegOp}

theorem fitsFrom_concat :
    FitsFrom s p (ops ++ [op]) ↔ FitsFrom s p ops ∧ op.Fits s (p + (ops.map bytes).sum) := by
  induction ops generalizing p with
  | nil => simp [FitsFrom]
  | cons op' ops ih => simp [FitsFrom, ih, and_assoc, Nat.add_assoc]

theorem pieces_concat :
    pieces s p (ops ++ [op]) = pieces s p ops ++ op.piece s (p + (ops.map bytes).sum) := by
  induction ops generalizing p with
  | nil => simp [pieces]
  | cons op' ops ih => simp [pieces, ih, List.append_assoc, Nat.add_assoc]

theorem run_concat : Emission.run s (ops ++ [op]) = (Emission.run s ops).step s op := by
  simp [Emission.run]

theorem length_rows_dropLast_le (s : Bytes) (ops : List SegOp) :
    (Emission.run s ops.dropLast).rows.length ≤ (Emission.run s ops).rows.length := by
  cases ops using List.reverseRecOn with
  | nil => exact Nat.le_refl _
  | append_singleton ops op =>
    rw [List.dropLast_concat, run_concat]
    cases op with
    | skip => exact Nat.le_refl _
    | undef => simp [Emission.step]
    | word n => by_cases h : (Emission.run s ops).Stale <;> simp [Emission.step, h]

theorem basept_step (e : Emission) (op : SegOp) : (e.step s op).basept = e.basept + op.bytes := by
  cases op with
  | skip => rfl
  | undef => rfl
  | word n => by_cases h : e.Stale <;> simp [Emission.step, h, bytes]

theorem basept_run : (Emission.run s ops).basept = (ops.map bytes).sum := by
  induction ops using List.reverseRecOn with
  | nil => rfl
  | append_singleton ops op ih => simp [run_concat, basept_step, ih]

theorem endsStale_concat_iff :
    EndsStale (ops ++ [op]) ↔
      ops.getLast? = some undef ∧ op ≠ undef ∨ EndsStale ops ∧ op = skip := by
  constructor
  · rintro ⟨before, op', k, hop', heq⟩
    cases k with
    | zero =>
      have heq' : ops ++ [op] = (before ++ [undef]) ++ [op'] := by simpa using heq
      obtain ⟨rfl, rfl⟩ := List.append_singleton_inj.mp heq'
      exact Or.inl ⟨by simp, hop'⟩
    | succ k =>
      rw [List.replicate_succ'] at heq
      have heq' : ops ++ [op] = (before ++ undef :: op' :: List.replicate k skip) ++ [skip] := by
        simpa using heq
      obtain ⟨rfl, rfl⟩ := List.append_singleton_inj.mp heq'
      exact Or.inr ⟨⟨before, op', k, hop', rfl⟩, rfl⟩
  · rintro (⟨hlast, hop⟩ | ⟨⟨before, op', k, hop', rfl⟩, rfl⟩)
    · obtain ⟨before, rfl⟩ := List.getLast?_eq_some_iff.mp hlast
      exact ⟨before, op, 0, hop, by simp⟩
    · exact ⟨before, op', k + 1, hop', by simp [List.replicate_succ']⟩

theorem repeats_concat_iff :
    Repeats (ops ++ [op]) ↔ Repeats ops ∨ EndsStale ops ∧ ∃ n, op = word n := by
  constructor
  · rintro ⟨before, n, hprefix, hstale⟩
    rcases List.prefix_concat_iff.mp hprefix with heq | hprefix
    · obtain ⟨rfl, rfl⟩ := List.append_singleton_inj.mp heq
      exact Or.inr ⟨hstale, n, rfl⟩
    · exact Or.inl ⟨before, n, hprefix, hstale⟩
  · rintro (⟨before, n, hprefix, hstale⟩ | ⟨hstale, n, rfl⟩)
    · exact ⟨before, n, hprefix.trans (List.prefix_append _ _), hstale⟩
    · exact ⟨ops, n, List.prefix_refl _, hstale⟩

end Passes

section Spelling

variable {s : Bytes} {ops : List SegOp} {op : SegOp} {n : ℕ}

namespace Emission

theorem step_stale {e : Emission} (h : e.Stale) : e.step s (word n) =
    ⟨e.basept + n, 0, e.rows ++ [e.repeated s] ++ [piece s e.basept (word n)]⟩ :=
  if_pos h

theorem step_not_stale {e : Emission} (h : ¬ e.Stale) : e.step s (word n) =
    ⟨e.basept + n, e.temppt, e.rows ++ [piece s e.basept (word n)]⟩ :=
  if_neg h

theorem repeated_ne_nil {e : Emission} (h : e.Stale) (hle : e.basept ≤ s.length) :
    e.repeated s ≠ [] := by
  have := h.2
  rw [← List.length_pos_iff]
  simp only [repeated, List.length_take, List.length_drop, MAX_WordLen]
  omega

end Emission

structure Marked (ops : List SegOp) (e : Emission) : Prop where
  le : e.temppt ≤ e.basept
  fresh : e.temppt ≠ 0 ∧ e.temppt = e.basept ↔ ops.getLast? = some undef
  stale : e.Stale ↔ EndsStale ops

theorem marked_run (h : FitsFrom s 0 ops) : Marked ops (Emission.run s ops) := by
  induction ops using List.reverseRecOn with
  | nil =>
    refine ⟨Nat.le_refl 0, by simp [Emission.run, Emission.init],
      iff_of_false (fun h => h.1 rfl) ?_⟩
    rintro ⟨before, op, k, -, heq⟩
    cases before <;> cases heq
  | append_singleton ops op ih =>
    obtain ⟨hops, hop⟩ := fitsFrom_concat.mp h
    obtain ⟨hle, hfresh, hstale⟩ := ih hops
    rw [run_concat]
    -- a mark that is set stands at the position or before it
    have hset : (Emission.run s ops).temppt ≠ 0 ↔
        ops.getLast? = some undef ∨ EndsStale ops := by
      rw [← hfresh, ← hstale, Emission.Stale]
      omega
    cases op with
    | skip =>
      refine ⟨Nat.le_succ_of_le hle, ?_, ?_⟩
      · simp only [Emission.step, List.getLast?_concat, Option.some.injEq, reduceCtorEq, iff_false]
        omega
      · rw [endsStale_concat_iff]
        simp only [Emission.Stale, Emission.step, ne_eq, reduceCtorEq, not_false_eq_true, and_true]
        rw [← hset]
        omega
    | undef =>
      refine ⟨Nat.le_refl _, by simp [Emission.step], ?_⟩
      rw [endsStale_concat_iff]
      simp [Emission.Stale, Emission.step]
    | word n =>
      have hn : 1 ≤ n := hop.1
      by_cases hs : (Emission.run s ops).Stale
      · have hlast : ops.getLast? ≠ some undef := fun h => by
          have := (hfresh.mpr h).2
          have := hs.2
          omega
        rw [Emission.step_stale hs]
        refine ⟨Nat.zero_le _, by simp, ?_⟩
        rw [endsStale_concat_iff]
        simp [Emission.Stale, hlast]
      · rw [Emission.step_not_stale hs]
        refine ⟨by dsimp only; omega, ?_, ?_⟩
        · simp only [List.getLast?_concat, Option.some.injEq, reduceCtorEq, iff_false]
          omega
        · rw [endsStale_concat_iff, ← hfresh]
          rw [Emission.Stale] at hs ⊢
          simp only [ne_eq, reduceCtorEq, not_false_eq_true, and_true, and_false, or_false]
          omega

/-- The rows of the list against the text that was passed over. -/
structure Spelling (s : Bytes) (ops : List SegOp) : Prop where
  length_le : (pieces s 0 ops).length ≤ (Emission.run s ops).rows.flatten.length
  eq : ¬ Repeats ops → (Emission.run s ops).rows.flatten = pieces s 0 ops
  length_lt : Repeats ops → (pieces s 0 ops).length < (Emission.run s ops).rows.flatten.length

theorem Spelling.concat (h : Spelling s ops)
    (hrows : ((Emission.run s ops).step s op).rows.flatten =
      (Emission.run s ops).rows.flatten ++ op.piece s (Emission.run s ops).basept)
    (hrepeats : Repeats (ops ++ [op]) ↔ Repeats ops) : Spelling s (ops ++ [op]) := by
  have hpieces : pieces s 0 (ops ++ [op]) =
      pieces s 0 ops ++ op.piece s (Emission.run s ops).basept := by
    rw [pieces_concat, basept_run, Nat.zero_add]
  rw [← run_concat] at hrows
  constructor
  · rw [hrows, hpieces, List.length_append, List.length_append]
    exact Nat.add_le_add_right h.length_le _
  · intro hno
    rw [hrows, hpieces, h.eq (mt hrepeats.mpr hno)]
  · intro hyes
    rw [hrows, hpieces, List.length_append, List.length_append]
    exact Nat.add_lt_add_right (h.length_lt (hrepeats.mp hyes)) _

theorem spelling_run (h : FitsFrom s 0 ops) : Spelling s ops := by
  induction ops using List.reverseRecOn with
  | nil =>
    refine ⟨Nat.le_refl 0, fun _ => rfl, ?_⟩
    rintro ⟨before, n, hprefix, -⟩
    exact absurd (List.prefix_nil.mp hprefix) (by simp)
  | append_singleton ops op ih =>
    obtain ⟨hops, hop⟩ := fitsFrom_concat.mp h
    have hmarked := marked_run hops
    have hspelling := ih hops
    cases op with
    | skip => exact hspelling.concat (by simp [Emission.step, piece]) (by simp [repeats_concat_iff])
    | undef => exact hspelling.concat (by simp [Emission.step]) (by simp [repeats_concat_iff])
    | word n =>
      by_cases hs : (Emission.run s ops).Stale
      · have hyes : Repeats (ops ++ [word n]) :=
          repeats_concat_iff.mpr (Or.inr ⟨hmarked.stale.mp hs, n, rfl⟩)
        have hbasept : (Emission.run s ops).basept ≤ s.length := by
          have := hop.2.2
          rw [basept_run]
          omega
        have hpos := List.length_pos_iff.mpr (Emission.repeated_ne_nil hs hbasept)
        have hlt : (pieces s 0 (ops ++ [word n])).length <
            (Emission.run s (ops ++ [word n])).rows.flatten.length := by
          rw [run_concat, Emission.step_stale hs, pieces_concat, ← basept_run (s := s),
            Nat.zero_add]
          have := hspelling.length_le
          simp only [List.flatten_append, List.flatten_singleton, List.length_append]
          omega
        exact ⟨hlt.le, fun hno => absurd hyes hno, fun _ => hlt⟩
      · have hno : ¬ EndsStale ops := mt hmarked.stale.mpr hs
        exact hspelling.concat (by rw [Emission.step_not_stale hs]; simp)
          (by simp [repeats_concat_iff, hno])

/-- The list spells what was passed over, exactly if no word is repeated. -/
theorem rows_flatten_iff (h : FitsFrom s 0 ops) :
    (Emission.run s ops).rows.flatten = pieces s 0 ops ↔ ¬ Repeats ops := by
  have hspelling := spelling_run h
  constructor
  · intro heq hyes
    have := hspelling.length_lt hyes
    rw [heq] at this
    omega
  · exact hspelling.eq

end Spelling

end YlUtils
