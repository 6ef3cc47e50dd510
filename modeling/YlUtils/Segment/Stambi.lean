import YlUtils.Segment.Sbtmodel

/-! # Paths through an ambiguous string

The positions at which an ambiguous string may be cut stand in a list. The search
tries every path through them that skips at most one position at a time, and
keeps the path whose categories score best.
-/

namespace YlUtils

/-- The categories of a unit of the string, from the position `SChPos` up to `EChPos`. -/
structure CTRec where
  SChPos : ℕ
  EChPos : ℕ
  CateTags : Bytes

def AddToSegPosArray (SegPosArray : List ℕ) (SecPos : ℕ) : List ℕ :=
  if SegPosArray.getLastD 0 < SecPos then SegPosArray ++ [SecPos] else SegPosArray

def GetSegUnitCateTag (CTArray : List CTRec) (SChPos EChPos : ℕ) : Option Bytes :=
  (CTArray.find? fun r => SChPos = r.SChPos ∧ EChPos = r.EChPos).map CTRec.CateTags

/-- The position that stands `SFlag` places behind `StPos`. -/
def SechPossSegPos (SegPosArray : List ℕ) (StPos SFlag : ℕ) : Option ℕ :=
  SegPosArray[SegPosArray.findIdx (StPos = ·) + SFlag]?

section Search

variable {W : Type} [LinearOrder W] (P : TagStatistics W)

def pathCates (u : WordList) (CTArray : List CTRec) (EndWCateTags : Bytes) (Path : List ℕ) :
    List Bytes :=
  (if u.wid = 0 then [94] else u.cates (u.wid - 1)) ::
    (Path.zip Path.tail).filterMap (fun s => GetSegUnitCateTag CTArray s.1 s.2) ++ [EndWCateTags]

/-- The array of categories has 40 places. -/
def GetSegPathScore (u : WordList) (CTArray : List CTRec) (EndWCateTags : Bytes) (Path : List ℕ) :
    Option W :=
  let CateTags := pathCates u CTArray EndWCateTags Path
  if CateTags.length ≤ 40 then CountSegPathScore P u.GetWord CateTags else none

end Search

structure PathSearch (W : Type) where
  Path : List ℕ
  BestSegPath : List ℕ
  BestSegPathScore : W

namespace PathSearch

variable {W : Type} [LinearOrder W] (score : List ℕ → Option W) (SegPosArray : List ℕ)

def extend (st : PathSearch W) (StPos SegPos : ℕ) : PathSearch W :=
  { st with Path := (st.Path.reverse.dropWhile (StPos < ·)).reverse ++ [SegPos] }

def SetBestSegPath (st : PathSearch W) : Option (PathSearch W) :=
  (score st.Path).map fun SPScore =>
    if st.BestSegPathScore < SPScore then
      { st with BestSegPath := st.Path, BestSegPathScore := SPScore }
    else st

/-- The step to the next position or the one behind it, if there is one. The path is complete at
`EndPos`, and otherwise `search` goes on. -/
def searchStep (EndPos : ℕ) (search : ℕ → PathSearch W → Option (PathSearch W)) (StPos SFlag : ℕ)
    (st : PathSearch W) : Option (PathSearch W) :=
  match SechPossSegPos SegPosArray StPos SFlag with
  | none => some st
  | some SegPos =>
    let st := st.extend StPos SegPos
    if SegPos = EndPos then st.SetBestSegPath score else search SegPos st

/-- At most `depth` calls stand inside each other. -/
def SearchBestSegPath (EndPos : ℕ) : ℕ → ℕ → PathSearch W → Option (PathSearch W)
  | 0, _, _ => none
  | depth + 1, StPos, st =>
    (st.searchStep score SegPosArray EndPos (SearchBestSegPath EndPos depth) StPos 1).bind fun st =>
      st.searchStep score SegPosArray EndPos (SearchBestSegPath EndPos depth) StPos 2

end PathSearch

def segPositions (positions : List ℕ) : List ℕ := positions.foldl AddToSegPosArray [0]

def bestSegPath {W : Type} [LinearOrder W] (P : TagStatistics W) (u : WordList)
    (CTArray : List CTRec) (EndWCateTags : Bytes) (SegPosArray : List ℕ) : Option (PathSearch W) :=
  PathSearch.SearchBestSegPath (GetSegPathScore P u CTArray EndWCateTags) SegPosArray
    (SegPosArray.getLastD 0) SegPosArray.length 0 ⟨[0], [], P.zero⟩

end YlUtils
