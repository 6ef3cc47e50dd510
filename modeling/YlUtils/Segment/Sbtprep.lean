import Mathlib.Order.Monotone.Defs
import YlUtils.Lists.Bisection
import YlUtils.Paths.FirstMax
import YlUtils.Text.Strcmp

/-! # Probabilities of tags

The statistics say how likely a tag follows another one, and how likely a word
has a tag. The probabilities are non-negative numbers of a type whose
multiplication is monotone and may round.
-/

namespace YlUtils

def POSset : List Bytes :=
  ((List.range 26).map fun i => [97 + UInt8.ofNat i]) ++ [[94], [36]]

def islower (c : UInt8) : Bool := 97 ≤ c && c ≤ 122

def getindex (word : Bytes) (wlist : List Bytes) : ℤ :=
  match wlist.findIdx? (strcmp word · = 0) with
  | some i => i
  | none => -1

structure TWREC where
  keyword : Bytes
  stag : List Bytes
  freq : List ℤ

/-- The statistics that are read from the files. The words stand at the positions from `1` to
`twlid - 1`, and `frequency f n` is `100.0 * f / n`. -/
structure TagStatistics (W : Type) [LinearOrder W] where
  zero : W
  one : W
  mul : W → W → W
  mul_mono : ∀ c, Monotone fun w => mul w c
  zero_le : ∀ w, zero ≤ w
  zero_mul : ∀ c, mul zero c = zero
  MINPOSSI : W
  PConTag : ℤ → ℤ → W
  twlist : ℕ → TWREC
  twlid : ℕ
  RowTSum : ℤ → ℤ
  frequency : ℤ → ℤ → W

namespace TagStatistics

variable {W : Type} [LinearOrder W] (P : TagStatistics W)

/-- A tag of a sub-category counts as its first letter. -/
def mainTag (tag : Bytes) : Bytes := if islower (tag.getD 0 0) then tag.take 1 else tag

def ConcurP (tagi tagj : Bytes) : W :=
  let row := getindex (mainTag tagi) POSset
  let col := getindex (mainTag tagj) POSset
  if row ≠ -1 ∧ col ≠ -1 then
    let possi := P.PConTag row col
    if possi = P.zero then P.MINPOSSI else possi
  else P.MINPOSSI

def SechWlist (word : Bytes) : ℕ :=
  (bisect (fun mid => strcmp word (P.twlist mid).keyword) 1 ((P.twlid : ℤ) - 1)).getD 0

def tagFreqs (tag : Bytes) : List Bytes → List ℤ → W
  | t :: ts, f :: fs =>
    if t = [] then P.one
    else if strcmp tag t = 0 then
      let row := getindex tag POSset
      let possi := if P.RowTSum row ≠ 0 then P.frequency f (P.RowTSum row) else P.zero
      if possi = P.zero then P.MINPOSSI else possi
    else tagFreqs tag ts fs
  | _, _ => P.one

def WtagP (word tag : Bytes) : W :=
  let wpos := P.SechWlist word
  if wpos ≠ 0 then P.tagFreqs tag ((P.twlist wpos).stag.take 5) (P.twlist wpos).freq else P.one

/-- The first of the letters with the greatest probability, if that is not zero. -/
def maxTag (prob : Bytes → W) : Option Bytes :=
  let letters := POSset.take 26
  let best := scanMax (0, P.zero) 0 (letters.map prob)
  if P.zero < best.2 then letters[best.1]? else none

def GetMaxFtag (ftag : Bytes) : Bytes := (P.maxTag fun tag => P.ConcurP ftag tag).getD []

def GetMaxBtag (btag : Bytes) : Bytes := (P.maxTag fun tag => P.ConcurP tag btag).getD [10]

/-- The letters that end a tag of the category, one by one: what `stag` holds at the end of a tag is
its last letter. -/
def lastLetters : Bytes → List Bytes
  | [] => []
  | [c] => [[c]]
  | c :: d :: rest => if d = 45 then [c] :: lastLetters (d :: rest) else lastLetters (d :: rest)

/-- The guessed tags, separated by hyphens, if they fit the buffer of 12 bytes. -/
def GuessTag (ftag btag : Bytes) : Option Bytes :=
  let tags := if ftag = [] then [] else
    (lastLetters ftag).map P.GetMaxFtag ++ (lastLetters btag).map P.GetMaxBtag
  let sumtag := [(45 : UInt8)].intercalate tags
  if ftag.length < 12 ∧ btag.length < 12 ∧ sumtag.length < 12 then some sumtag else none

def uniform : TagStatistics ℕ where
  zero := 0
  one := 1
  mul a b := a * b
  mul_mono c := fun _ _ h => Nat.mul_le_mul_right c h
  zero_le := Nat.zero_le
  zero_mul := Nat.zero_mul
  MINPOSSI := 1
  PConTag _ _ := 1
  twlist _ := ⟨[], [], []⟩
  twlid := 1
  RowTSum _ := 0
  frequency _ _ := 1

end TagStatistics

end YlUtils
