import YlUtils.Runs.Loop
import YlUtils.Segment.SetNewTag

/-! # Disambiguation of a sentence

The loop of `Stat_Disambi` goes from span to span. A span is a run of words with
several tags. The graph takes at most 48 of its words, so a longer span is cut: the
last word of a part gets its tag as the word before the next part.
-/

namespace YlUtils

/-- A category with several tags. Shorter ones than three characters are not looked at. -/
def IsMulti (cate : Bytes) : Prop := 2 < cate.length ∧ 45 ∈ cate

instance (cate : Bytes) : Decidable (IsMulti cate) :=
  inferInstanceAs (Decidable (2 < cate.length ∧ 45 ∈ cate))

def skipSingle (u : WordList) : ℕ → ℕ → ℕ
  | 0, i => i
  | rounds + 1, i =>
    if u.cates i ≠ [] ∧ 45 ∉ u.cates i then skipSingle u rounds (i + 1) else i

section Disambi

variable {W : Type} [LinearOrder W] (P : TagStatistics W)

def guessAt (u : WordList) (i : ℕ) : Option WordList :=
  let ftag := if i = 0 then [94] else u.cates (i - 1)
  let btag := if i + 1 = u.wid then [36] else u.cates (i + 1)
  if ftag.length < 10 ∧ btag.length < 10 then
    (P.GuessTag ftag btag).map fun tags => { u with cates := Function.update u.cates i tags }
  else none

/-- The span of words with several tags or none, from position `i` on. -/
def spanFrom : ℕ → ℕ → WordList → Option (WordList × ℕ)
  | 0, i, u => some (u, i)
  | rounds + 1, i, u =>
    if u.cates i = [] then (guessAt P u i).bind fun u => spanFrom rounds (i + 1) u
    else if IsMulti (u.cates i) then spanFrom rounds (i + 1) u
    else some (u, i)

def cateBefore (u : WordList) (start : ℕ) : Bytes := if start = 0 then [94] else u.cates (start - 1)

/-- The category behind a span, or the tag for the end of the sentence. -/
def cateBehind (u : WordList) (stop : ℕ) : Bytes := if stop = u.wid then [36] else u.cates stop

/-- The categories of the graph for the words from `start` up to `stop`, with those beside them. -/
def spanCates (u : WordList) (start stop : ℕ) : List Bytes :=
  let span := (List.range' start (stop - start)).map u.cates
  ((cateBefore u start :: span).take (AMBICHLENG - 1) ++ [cateBehind u stop]).take (AMBICHLENG - 1)

/-- One round of the loop of `Stat_Disambi`: the words with one tag, and a part of a span. -/
def disambiRound (x : WordList × ℕ) : Round (WordList × ℕ) (Option WordList) :=
  if x.2 < x.1.wid then
    let start := skipSingle x.1 (x.1.wid - x.2) x.2
    match spanFrom P (x.1.wid - start) start x.1 with
    | none => .leave none
    | some (u, stop) =>
      if start < stop then
        match disambiguate P u (spanCates u start stop) (start - 1) with
        | none => .leave none
        | some u => .again (u, min stop (start + (AMBICHLENG - 2)))
      else .again (u, stop)
  else .leave (some x.1)

/-- Not defined for a full list, behind which the program reads. -/
def Stat_Disambi (u : WordList) : Option WordList :=
  if u.wid < MAX_NumOfWordsPerSentence then (loop (disambiRound P) (u.wid + 1) (u, 0)).join
  else none

end Disambi

end YlUtils
