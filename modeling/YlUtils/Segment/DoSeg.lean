import YlUtils.Runs.Loop
import YlUtils.Segment.Emission

/-! # The segmentation of a sentence

The loop passes over the sentence from left to right. A space is skipped,
characters of one byte are gathered to numbers, nouns and punctuation, and for
the rest the dictionaries choose the next words; where they know none, an
undefined character is taken.
-/

namespace YlUtils

/-- The text of the sentence, and what stands in the memory before it. -/
structure Sentence where
  text : Bytes
  front : ℕ → UInt8
  text_zero : 0 ∉ text

/-- `pThisSentence[k]`. -/
def Sentence.char (s : Sentence) (k : ℤ) : UInt8 :=
  if k < 0 then s.front k.natAbs else s.text.getD k.toNat 0

structure SegState where
  basept : ℕ
  seekpt : ℕ
  temppt : ℕ
  units : WordList

/-- What `SegVarInitial` and `InitSegTagUnitsList` start from. -/
def SegState.init : SegState := ⟨0, 0, 0, .init⟩

def isdigit (c : UInt8) : Bool := 48 ≤ c && c ≤ 57

def ispunct (c : UInt8) : Bool :=
  (33 ≤ c && c ≤ 47) || (58 ≤ c && c ≤ 64) || (91 ≤ c && c ≤ 96) || (123 ≤ c && c ≤ 126)

def isPositive (c : UInt8) : Bool := 0 < c && c < 128

def IsNumber (s : Sentence) (basept seekpt : ℕ) : Bool :=
  (List.range' basept (seekpt - basept)).all fun i =>
    isdigit (s.char i) || s.char i ∈ [46, 45, 43, 47, 35, 44, 58, 32]

/-- The first part of `seg_word`: what stands between the mark and the position. -/
def segMarked (s : Sentence) (st : SegState) : SegState × Bool :=
  if st.temppt ≠ 0 ∧ st.temppt < st.basept then
    let WordBuf :=
      if st.basept - st.temppt ≤ MAX_WordLen then
        (s.text.drop st.temppt).take (st.basept - st.temppt)
      else (s.text.drop st.temppt).take MAX_WordLen
    let r := st.units.AddWordCateInfo WordBuf []
    if r.2 then (st, true) else ({ st with temppt := 0, units := r.1 }, false)
  else (st, false)

/-- The state behind the word, and whether the list was full. -/
def seg_word (s : Sentence) (st : SegState) (iBytes : ℕ) (cate : Bytes) : SegState × Bool :=
  let r := segMarked s st
  if r.2 then r
  else if 0 < iBytes then
    let st := r.1
    let iBytes := if MAX_WordLen < iBytes then MAX_WordLen else iBytes
    let a := st.units.AddWordCateInfo ((s.text.drop st.basept).take iBytes) cate
    ({ st with basept := st.basept + iBytes, seekpt := st.basept + iBytes, units := a.1 }, a.2)
  else r

def undefword (s : Sentence) (st : SegState) : SegState × Bool :=
  let a := st.units.AddWordCateInfo ((s.text.drop st.basept).take 2) []
  ({ basept := st.basept + 2
     seekpt := st.basept + 2
     temppt := if a.2 then st.basept else st.basept + 2
     units := a.1 }, a.2)

def asciiCate (s : Sentence) (basept seekpt : ℕ) : Bytes :=
  if IsNumber s basept seekpt then [109] else [110]

/-- The punctuation before `seekpt` is a part of a number or of another string. -/
def continues (s : Sentence) (seekpt : ℕ) : Bool :=
  let c := s.char ((seekpt : ℤ) - 1)
  (c ∈ [46, 44, 58] && isdigit (s.char ((seekpt : ℤ) - 2)) && isdigit (s.char seekpt)) ||
  (c ∈ [47, 64, 43, 45, 95, 35, 37, 38] &&
    (isPositive (s.char ((seekpt : ℤ) - 2)) || isPositive (s.char ((seekpt : ℤ) - 3))))

def asciiString (s : Sentence) (st : SegState) : SegState × Bool :=
  if st.basept < st.seekpt - 1 then
    seg_word s st (st.seekpt - 1 - st.basept) (asciiCate s st.basept (st.seekpt - 1))
  else (st, false)

def asciiRound (s : Sentence) (st : SegState) : Round SegState (SegState × Bool) :=
  if isPositive (s.char st.seekpt) ∧ st.seekpt < s.text.length then
    let st := { st with seekpt := st.seekpt + 1 }
    if ispunct (s.char ((st.seekpt : ℤ) - 1)) ∧ ¬ continues s st.seekpt then
      let r := asciiString s st
      if r.2 then .leave r
      else
        let r := seg_word s r.1 1 [119]
        if r.2 then .leave r else .again r.1
    else .again st
  else .leave (st, false)

def asciiWords (s : Sentence) (st : SegState) : Option (SegState × Bool) :=
  (loop (asciiRound s) ((s.text.length + 1) * (s.text.length + 1)) st).map fun r =>
    if r.2 then r
    else if r.1.basept < r.1.seekpt then
      seg_word s r.1 (r.1.seekpt - r.1.basept) (asciiCate s r.1.basept r.1.seekpt)
    else r

def skipSpace (s : Sentence) (st : SegState) : SegState :=
  if s.char st.basept = 32 then
    { st with
      seekpt := if st.seekpt = st.basept then st.seekpt + 1 else st.seekpt
      basept := st.basept + 1 }
  else st

/-- The words, with their lengths and categories, that `SegProcess` and `SegDisambi` take at a
place: they are not empty and lie within the sentence. Where the dictionaries know none, the list is
empty. What the dictionaries remember between two places is of type `δ`. -/
structure Chooser (s : Sentence) (δ : Type) where
  choose : δ → SegState → List (ℕ × Bytes) × δ
  pos : ∀ d st, ∀ w ∈ (choose d st).1, 0 < w.1
  fits : ∀ d st,
    st.basept + ((choose d st).1.map Prod.fst).sum ≤ s.text.length ∨ (choose d st).1 = []

def segWords (s : Sentence) : SegState → List (ℕ × Bytes) → SegState × Bool
  | st, [] => (st, false)
  | st, (iBytes, cate) :: ws =>
    let r := seg_word s st iBytes cate
    if r.2 then r else segWords s r.1 ws

def takeWords (s : Sentence) (st : SegState) (ws : List (ℕ × Bytes)) : SegState × Bool :=
  if ws = [] then undefword s st else segWords s st ws

def segRound {δ : Type} (s : Sentence) (chooser : Chooser s δ) (x : SegState × δ) :
    Round (SegState × δ) (Option (SegState × Bool)) :=
  if x.1.basept < s.text.length then
    match asciiWords s (skipSpace s x.1) with
    | none => .leave none
    | some r =>
      if r.2 ∨ r.1.basept = s.text.length then .leave (some r)
      else
        let c := chooser.choose x.2 r.1
        let r := takeWords s r.1 c.1
        if r.2 then .leave (some r) else .again (r.1, c.2)
  else .leave (some (x.1, false))

/-- The state in which the segmentation ends, and whether the list was full. -/
def Segmentation {δ : Type} (s : Sentence) (chooser : Chooser s δ) (d : δ) :
    Option (SegState × Bool) :=
  (loop (segRound s chooser) (s.text.length + 1) (SegState.init, d)).join

end YlUtils
