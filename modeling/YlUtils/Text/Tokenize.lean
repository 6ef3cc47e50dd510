import YlUtils.Runs.Loop
import YlUtils.Text.CString
import YlUtils.Text.StdString
import YlUtils.Text.Stretches

/-! # Tokens between delimiters

`Tokenize` looks for the next character that is no delimiter and from there for the
next one that is. What lies between is a token.
-/

namespace YlUtils.YeeString

open StdString

def findFirstOf (str delims : Bytes) (pos : ℕ) : Option ℕ := findFrom (· ∈ delims) str pos

def findFirstNotOf (str delims : Bytes) (pos : ℕ) : Option ℕ :=
  findFrom (fun c => !decide (c ∈ delims)) str pos

def tokenBody (str delims : Bytes) :
    List Bytes × ℕ → Round (List Bytes × ℕ) (Option (List Bytes))
  | (tokens, pos) =>
    match findFirstNotOf str delims pos with
    | none => .leave (some tokens)
    | some lastPos =>
      let pos := findFirstOf str delims lastPos
      -- `npos` less a position is more than is left of the string
      match substr str lastPos (pos.map (· - lastPos)) with
      | none => .leave none
      | some token =>
        match pos with
        | none => .leave (some (tokens ++ [token]))
        | some pos => .again (tokens ++ [token], pos)

/-- `tokens` behind `Tokenize`, which clears what it holds before, if the loop is left within the
rounds and nothing throws. -/
def Tokenize (rounds : ℕ) (str : Bytes) (_ : List Bytes) (delims : Bytes) : Option (List Bytes) :=
  (loop (tokenBody str delims) rounds ([], 0)).join

variable {str delims : Bytes} {ts : List (ℕ × ℕ)} {pos i : ℕ}

theorem findFirstNotOf_eq_some (hpos : pos ≤ i)
    (hgap : ∀ k, pos ≤ k → k < i → HoldsAt (· ∈ delims) str k) (hi : i < str.length)
    (hno : ¬ HoldsAt (· ∈ delims) str i) : findFirstNotOf str delims pos = some i :=
  findFrom_eq_some_iff.mpr ⟨hpos, holdsAt_not_iff.mpr ⟨hi, hno⟩,
    fun k hk hki hnot => (holdsAt_not_iff.mp hnot).2 (hgap k hk hki)⟩

theorem tokenBody_loop (h : Stretches (· ∈ delims) str pos ts) {rounds : ℕ}
    (hrounds : ts.length < rounds) (tokens : List Bytes) :
    loop (tokenBody str delims) rounds (tokens, pos) =
      some (some (tokens ++ ts.map fun t => (str.drop t.1).take (t.2 - t.1))) := by
  obtain ⟨rounds, rfl⟩ := Nat.exists_eq_add_of_lt hrounds
  clear hrounds
  induction h generalizing tokens with
  | @none pos gap =>
    have hnone : findFirstNotOf str delims pos = none := findFrom_eq_none_iff.mpr fun k hk hnot =>
      have hnot := holdsAt_not_iff.mp hnot
      hnot.2 (gap k hk hnot.1)
    rw [loop_leave (by rw [tokenBody, hnone]), List.map_nil, List.append_nil]
  | @last pos i hpos gap hi free =>
    have hfirst := findFirstNotOf_eq_some hpos gap hi (free _ le_rfl)
    have hend : findFirstOf str delims i = none := findFrom_eq_none_iff.mpr free
    have hround : tokenBody str delims (tokens, pos) = .leave (some (tokens ++ [str.drop i])) := by
      rw [tokenBody, hfirst]
      dsimp only
      rw [hend, Option.map_none, substr_none hi.le]
    rw [loop_leave hround, List.map_singleton, List.take_of_length_le]
    rw [List.length_drop]
  | @next pos i j ts hpos gap hi free hj rest ih =>
    have hfirst := findFirstNotOf_eq_some hpos gap (hi.trans hj.lt_length) (free _ le_rfl hi)
    have hend : findFirstOf str delims i = some j :=
      findFrom_eq_some_iff.mpr ⟨hi.le, hj, free⟩
    have hround : tokenBody str delims (tokens, pos) =
        .again (tokens ++ [(str.drop i).take (j - i)], j) := by
      rw [tokenBody, hfirst]
      dsimp only
      rw [hend, Option.map_some, substr_some (hi.trans hj.lt_length).le]
    have hcount : ((i, j) :: ts).length + rounds + 1 = (ts.length + rounds + 1) + 1 := by
      rw [List.length_cons]
      omega
    rw [hcount, loop_again hround, ih, List.map_cons, List.append_assoc, List.singleton_append]

/-- Whatever `tokens` holds before, behind the call it holds just the longest parts of the string
without delimiters, in their order. -/
theorem tokenize_stretches (str delims : Bytes) :
    ∃ parts : List (ℕ × ℕ), (∀ i j, (i, j) ∈ parts ↔ IsStretch (· ∈ delims) str i j) ∧
      parts.Pairwise (fun a b => a.2 < b.1) ∧
      ∀ tokens rounds, str.length < rounds → Tokenize rounds str tokens delims =
        some (parts.map fun t => (str.drop t.1).take (t.2 - t.1)) := by
  obtain ⟨parts, hparts, hcount⟩ := Stretches.exists_from (· ∈ delims) str 0
  refine ⟨parts, fun i j => ?_, hparts.pairwise (.inl rfl), fun tokens rounds hrounds => ?_⟩
  · rw [hparts.mem_iff (.inl rfl), and_iff_left (Nat.zero_le i)]
  · rw [Tokenize, tokenBody_loop hparts (by omega)]
    rfl

end YlUtils.YeeString
