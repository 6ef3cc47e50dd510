import YlUtils.Segment.DoSeg
import YlUtils.Text.DoubleByte
import YlUtils.Text.Munch

/-! # A string of mixed text

The string is cut by an automaton that reads bytes: runs of Chinese characters
go to the sentence segmentation, whose words are printed, numbers and words of
letters are printed as they are, and of the other bytes only the reserved ones.
Every word that is printed is followed by a blank. Without `dest` the program
writes to the standard output instead, which is not modelled.
-/

namespace YlUtils

def isalpha (c : UInt8) : Bool := (65 ≤ c && c ≤ 90) || (97 ≤ c && c ≤ 122)

def IS_GB (c₀ c₁ : UInt8) : Bool := 0x81 ≤ c₀ && c₀ ≤ 0xFE && 0x40 ≤ c₁ && c₁ ≤ 0xFE

inductive WORDSTATE
  | NONE
  | EWORD
  | NUMBER
  | HZSTRING

def MAXHZSTRLEN : ℕ := 512 - 2
def MAXEWORDLEN : ℕ := 30
def MAXNUMBERLEN : ℕ := 5

/-- The counters of the word that is being read. -/
structure WordCounts where
  len : ℕ
  midcnt : ℕ
  tailcnt : ℕ
  maxnumberlen : ℕ

/-- What the segmentation of a sentence puts into `SegTagUnits`, with what it keeps for the next one
(`ambiflag`), and how many words the probabilities of names add to a surname. -/
structure SentenceSegmenter (σ : Type) where
  SegTagASentence : σ → Bytes → List Bytes × σ
  surname : Bytes → Bool
  two : Bytes → Bytes → Fin 2
  three : Bytes → Bytes → Bytes → Fin 3

structure SegTagState (σ : Type) where
  curstate : WORDSTATE
  p : ℕ
  pword : ℕ
  counts : WordCounts
  dest : Bytes
  wsum : ℕ
  kept : σ

/-- `strchr`, which finds the zero behind the characters as well. -/
def strchr (reservstr : Bytes) (c : UInt8) : Bool := c = 0 || c ∈ reservstr

variable {σ : Type}

section Names

variable (seg : SentenceSegmenter σ)

def nelen (w₁ : Bytes) (ws : List Bytes) : ℕ :=
  match ws with
  | w₂ :: ws =>
    if w₁.length ≤ 2 ∧ w₂.length ≤ 2 ∧ seg.surname w₁ then
      match ws with
      | w₃ :: _ => if w₃.length ≤ 2 then 1 + seg.three w₁ w₂ w₃ else 1 + seg.two w₁ w₂
      | [] => 1 + seg.two w₁ w₂
    else 1
  | [] => 1

/-- The words with their names put together. -/
def nameWords : ℕ → List Bytes → List Bytes
  | n + 1, w :: ws =>
    ((w :: ws).take (nelen seg w ws)).flatten :: nameWords n ((w :: ws).drop (nelen seg w ws))
  | _, _ => []

def sentenceWords (kept : σ) (sentence : Bytes) : List Bytes :=
  nameWords seg (seg.SegTagASentence kept sentence).1.length (seg.SegTagASentence kept sentence).1

end Names

def printWords (ws : List Bytes) : Bytes := ws.flatMap (· ++ [32])

/-- Whether a byte goes on with a word, and the counters. -/
def ewordValid (q : WordCounts) (c next : UInt8) : WordCounts × Bool :=
  if q.len < MAXEWORDLEN then
    if q.tailcnt = 0 ∧ (isalpha c || isdigit c) then
      let maxnumberlen := if isdigit c then q.maxnumberlen + 1 else q.maxnumberlen
      ({ q with maxnumberlen := maxnumberlen }, maxnumberlen < 5)
    else if q.tailcnt = 0 ∧ q.midcnt = 0 ∧ (c = 45 ∨ c = 38) then
      if isalpha next || isdigit next then ({ q with midcnt := 1 }, true) else (q, false)
    else if c = 43 ∨ c = 35 then ({ q with tailcnt := q.tailcnt + 1 }, true)
    else (q, false)
  else (q, false)

def numberValid (q : WordCounts) (c next : UInt8) : WordCounts × Bool :=
  if q.len < MAXNUMBERLEN then
    if isdigit c then (q, true)
    else if q.midcnt = 0 ∧ c = 46 then
      if isdigit next then ({ q with midcnt := 1 }, true) else (q, false)
    else (q, false)
  else (q, false)

section Rounds

variable (seg : SentenceSegmenter σ) (reservstr s : Bytes)

/-- `p[k]`: the string ends with a zero. -/
def charAt (k : ℕ) : UInt8 := s.getD k 0

def SegTagState.word (st : SegTagState σ) : Bytes := (s.drop st.pword).take (st.p - st.pword)

def SegTagState.print (st : SegTagState σ) (ws : List Bytes) : SegTagState σ :=
  { st with curstate := .NONE, dest := st.dest ++ printWords ws, wsum := st.wsum + ws.length }

/-- The state at the beginning of a word of the kind `curstate`. -/
def SegTagState.start (st : SegTagState σ) (curstate : WORDSTATE) : SegTagState σ :=
  { st with
    curstate
    pword := st.p
    counts := ⟨1, 0, 0, match curstate with
      | .EWORD => 0
      | _ => st.counts.maxnumberlen⟩ }

def noneRound (st : SegTagState σ) : SegTagState σ :=
  let c := charAt s st.p
  if IS_GB c (charAt s (st.p + 1)) then
    let st := st.start .HZSTRING
    { st with counts := { st.counts with len := st.counts.len + 1 }, p := st.p + 2 }
  else
    let st :=
      if isdigit c then st.start .NUMBER
      else if isalpha c then st.start .EWORD
      else if strchr reservstr c then { st with dest := st.dest ++ [c, 32] }
      else st
    { st with p := st.p + 1 }

def wordRound (valid : WordCounts → UInt8 → UInt8 → WordCounts × Bool) (st : SegTagState σ) :
    SegTagState σ :=
  let r := valid st.counts (charAt s st.p) (charAt s (st.p + 1))
  if r.2 then { st with counts := { r.1 with len := r.1.len + 1 }, p := st.p + 1 }
  else { st with counts := r.1 }.print [st.word s]

def hzRound (st : SegTagState σ) : SegTagState σ :=
  if MAXHZSTRLEN ≤ st.counts.len ∨ IS_GB (charAt s st.p) (charAt s (st.p + 1)) = false then
    { st.print (sentenceWords seg st.kept (st.word s)) with
      kept := (seg.SegTagASentence st.kept (st.word s)).2 }
  else { st with counts := { st.counts with len := st.counts.len + 2 }, p := st.p + 2 }

def segTagRound (st : SegTagState σ) : Round (SegTagState σ) (SegTagState σ) :=
  if st.p ≤ s.length then
    .again <|
      match st.curstate with
      | .NONE => noneRound reservstr s st
      | .EWORD => wordRound s ewordValid st
      | .NUMBER => wordRound s numberValid st
      | .HZSTRING => hzRound seg s st
  else .leave st

/-- The bytes that are written to `dest`, the number of words, and what the segmentation keeps. -/
def SegTagString (kept : σ) : Option (Bytes × ℕ × σ) :=
  (loop (segTagRound seg reservstr s) (2 * s.length + 3)
    ⟨.NONE, 0, 0, ⟨0, 0, 0, 0⟩, [], 0, kept⟩).map fun st => (st.dest ++ [0], st.wsum, st.kept)

end Rounds

end YlUtils
