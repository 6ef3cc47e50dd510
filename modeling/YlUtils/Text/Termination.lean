import YlUtils.Runs.Loop
import YlUtils.Text.YeeString

/-! # The ends of the searching loops

`ReplaceAll` and `SimpleTokenize` go on behind the text that they have found. Where
that text is empty they find it at the same place again.
-/

namespace YlUtils.YeeString

open StdString

/-- One round of the loop of `ReplaceAll` on `strTemp`, `tpos`, `bHasReplaced` and `pos`; it is left
by an exception where `substr` throws. -/
def replaceBody (str strToReplaced strReplaced : Bytes) :
    Bytes × ℕ × Bool × Option ℕ → Round (Bytes × ℕ × Bool × Option ℕ) (Option (Bytes × ℕ × Bool))
  | (strTemp, tpos, bHasReplaced, none) => .leave (some (strTemp, tpos, bHasReplaced))
  | (strTemp, tpos, _, some pos) =>
    match substr str tpos (some (pos - tpos)) with
    | none => .leave none
    | some piece =>
      let tpos := pos + strToReplaced.length
      .again (strTemp ++ (piece ++ strReplaced), tpos, true, find str strToReplaced tpos)

def tokenizeBody (str delims : Bytes) :
    List Bytes × ℕ → Round (List Bytes × ℕ) (Option (List Bytes))
  | (tokens, p0) =>
    match find str delims p0 with
    | none => .leave do
      let piece ← substr str p0 none
      return tokens ++ [piece]
    | some p1 =>
      match substr str p0 (some (p1 - p0)) with
      | none => .leave none
      | some piece => .again (tokens ++ [piece], p1 + delims.length)

def ReplaceAllEnds (str strToReplaced strReplaced : Bytes) : Prop :=
  Ends (replaceBody str strToReplaced strReplaced) ([], 0, false, find str strToReplaced 0)

def SimpleTokenizeEnds (str delims : Bytes) : Prop := Ends (tokenizeBody str delims) ([], 0)

variable {str p r temp : Bytes} {pos : Option ℕ}

theorem replaceLoop_eq_loop (rounds tpos : ℕ) (has : Bool) :
    replaceLoop str p r rounds temp tpos has pos =
      (loop (replaceBody str p r) (rounds + 1) (temp, tpos, has, pos)).join := by
  induction rounds generalizing temp tpos has pos with
  | zero =>
    cases pos with
    | none => rfl
    | some pos =>
      rw [replaceLoop, loop, replaceBody]
      cases substr str tpos (some (pos - tpos)) <;> rfl
  | succ rounds ih =>
    cases pos with
    | none => rfl
    | some pos =>
      rw [replaceLoop, loop, replaceBody]
      cases substr str tpos (some (pos - tpos)) with
      | none => rfl
      | some piece => exact ih _ _

theorem tokenizeLoop_eq_loop (rounds : ℕ) (tokens : List Bytes) (p0 : ℕ) :
    tokenizeLoop str p rounds tokens p0 = (loop (tokenizeBody str p) rounds (tokens, p0)).join := by
  induction rounds generalizing tokens p0 with
  | zero => rfl
  | succ rounds ih =>
    rw [tokenizeLoop, loop, tokenizeBody]
    cases find str p p0 with
    | none => rfl
    | some p1 =>
      dsimp only
      cases substr str p0 (some (p1 - p0)) with
      | none => rfl
      | some piece => exact ih _ _

theorem replaceAll_mono {n m : ℕ} {s out : Bytes} (h : ReplaceAll n s p r = some out)
    (hle : n ≤ m) : ReplaceAll m s p r = some out := by
  have hloop : ∀ rounds, replaceLoop s p r rounds [] 0 false (find s p 0) =
      (loop (replaceBody s p r) (rounds + 1) ([], 0, false, find s p 0)).join :=
    fun rounds => replaceLoop_eq_loop rounds 0 false
  rw [ReplaceAll, hloop] at h ⊢
  cases hn : loop (replaceBody s p r) (n + 1) ([], 0, false, find s p 0) with
  | none =>
    rw [hn] at h
    cases h
  | some b => rwa [loop_mono hn (Nat.succ_le_succ hle), ← hn]

theorem replaceAllEnds_of_ne_nil (hp : p ≠ []) (str r : Bytes) : ReplaceAllEnds str p r := by
  have hpos := List.length_pos_iff.mpr hp
  let left : Bytes × ℕ × Bool × Option ℕ → ℕ
    | (_, _, _, none) => 0
    | (_, _, _, some pos) => str.length + 1 - pos
  refine ends_of_measure (I := fun s => ∀ pos ∈ s.2.2.2, pos ≤ str.length) left ?_ ?_
  · rintro ⟨temp, tpos, has, pos | pos⟩ s' hI hround
    · cases hround
    · rw [replaceBody] at hround
      cases hpiece : substr str tpos (some (pos - tpos)) with
      | none =>
        rw [hpiece] at hround
        cases hround
      | some piece =>
        rw [hpiece] at hround
        cases hround
        have hle := hI pos rfl
        cases hfind : find str p (pos + p.length) with
        | none => exact ⟨fun _ h => absurd h (by simp), by simp only [left]; omega⟩
        | some pos' =>
          have hbounds := find_bounds hfind
          refine ⟨fun q hq => ?_, by simp only [left]; omega⟩
          obtain rfl := Option.some.inj hq
          omega
  · intro pos hmem
    have hfind : find str p 0 = some pos := hmem
    have hbounds := find_bounds hfind
    omega

theorem simpleTokenizeEnds_of_ne_nil (hp : p ≠ []) (str : Bytes) : SimpleTokenizeEnds str p := by
  have hpos := List.length_pos_iff.mpr hp
  refine ends_of_measure (I := fun s => s.2 ≤ str.length) (fun s => str.length - s.2) ?_
    (Nat.zero_le _)
  rintro ⟨tokens, p0⟩ s' hI hround
  rw [tokenizeBody] at hround
  cases hfind : find str p p0 with
  | none =>
    rw [hfind] at hround
    cases hround
  | some p1 =>
    rw [hfind] at hround
    dsimp only at hround
    cases hpiece : substr str p0 (some (p1 - p0)) with
    | none =>
      rw [hpiece] at hround
      cases hround
    | some piece =>
      rw [hpiece] at hround
      cases hround
      have hbounds := find_bounds hfind
      dsimp only at hI ⊢
      omega

theorem find_nil (str : Bytes) : find str [] 0 = some 0 := by
  rw [find_zero]
  cases str <;> simp [Search.find]

theorem not_replaceAllEnds_nil (str r : Bytes) : ¬ ReplaceAllEnds str [] r := by
  refine not_ends (I := fun s => s.2.1 = 0 ∧ s.2.2.2 = some 0) ?_ ⟨rfl, find_nil str⟩
  rintro ⟨temp, tpos, has, pos⟩ ⟨rfl, rfl⟩
  rw [replaceBody, substr_some (Nat.zero_le _)]
  exact ⟨_, rfl, rfl, find_nil str⟩

theorem replaceAll_nil (rounds : ℕ) (s r : Bytes) : ReplaceAll rounds s [] r = none := by
  rw [ReplaceAll, replaceLoop_eq_loop]
  cases h : loop (replaceBody s [] r) (rounds + 1) ([], 0, false, find s [] 0) with
  | none => rfl
  | some b => exact absurd ⟨rounds + 1, by rw [h]; rfl⟩ (not_replaceAllEnds_nil s r)

theorem not_simpleTokenizeEnds_nil (str : Bytes) : ¬ SimpleTokenizeEnds str [] := by
  refine not_ends (I := fun s => s.2 = 0) ?_ rfl
  rintro ⟨tokens, p0⟩ rfl
  rw [tokenizeBody, find_nil]
  dsimp only
  rw [substr_some (Nat.zero_le _)]
  exact ⟨_, rfl, rfl⟩

/-- Either loop ends exactly if the text that is searched for is not empty. -/
theorem loops_end_iff (str p r : Bytes) :
    (ReplaceAllEnds str p r ↔ p ≠ []) ∧ (SimpleTokenizeEnds str p ↔ p ≠ []) := by
  constructor
  · constructor
    · rintro hends rfl
      exact not_replaceAllEnds_nil str r hends
    · exact fun hp => replaceAllEnds_of_ne_nil hp str r
  · constructor
    · rintro hends rfl
      exact not_simpleTokenizeEnds_nil str hends
    · exact fun hp => simpleTokenizeEnds_of_ne_nil hp str

/-- Neither loop ends for the string `a` and the empty text. -/
theorem not_loops_end : ¬ ReplaceAllEnds [97] [] [98] ∧ ¬ SimpleTokenizeEnds [97] [] :=
  ⟨not_replaceAllEnds_nil [97] [98], not_simpleTokenizeEnds_nil [97]⟩

end YlUtils.YeeString
