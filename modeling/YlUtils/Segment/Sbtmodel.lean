import YlUtils.Paths.Trellis
import YlUtils.Segment.CRoutine
import YlUtils.Segment.Sbtprep

/-! # The graph of tags

Each word of a span has a column with a node for each of its tags. The best
weight of every node is found column by column, with a pointer to the best node
of the column before it, and the tags are read off from the last column backwards.
-/

namespace YlUtils

def AMBICHLENG : ℕ := 50

def MAXTAGNUM : ℕ := 20

structure GRAPHELM (W : Type) where
  wordpos : ℤ
  singletag : Bytes
  pathpt : ℤ
  opwt : W

/-- The loop of `GraphGen` that cuts a category at its hyphens. The first character of a tag is
taken as it is. -/
def splitTags : Bytes → Bytes → List Bytes
  | _, [] => []
  | tagbuf, [c] => [tagbuf ++ [c]]
  | tagbuf, c :: d :: rest =>
    if d = 45 then (tagbuf ++ [c]) :: splitTags [] rest else splitTags (tagbuf ++ [c]) (d :: rest)

section Graph

variable {W : Type} [LinearOrder W] (P : TagStatistics W)

def GRAPHELM.zero : GRAPHELM W := ⟨0, [], 0, P.zero⟩

/-- The nodes of one word, if the category, its tags and their number fit. -/
def genColumn (cate : Bytes) (wordpos : ℤ) : Option (List (GRAPHELM W)) :=
  let tags := splitTags [] cate
  if cate.length < 50 ∧ tags.length ≤ MAXTAGNUM ∧ ∀ tag ∈ tags, tag.length < 4 then
    some (tags.map fun tag => ⟨wordpos, tag, 0, P.zero⟩)
  else none

/-- The columns of the graph; `dmanage` of a column is its length. -/
def GraphGen (CateTags : List Bytes) (StWordPos : ℤ) : Option (List (List (GRAPHELM W))) :=
  if CateTags.length ≤ AMBICHLENG then
    CateTags.zipIdx.mapM fun cate => genColumn P cate.1 (cate.2 + StWordPos)
  else none

/-- The best node to come from, and the weight on the way from it. The first node of the column is
looked at even if the column has none. -/
def bestForward (forward : List (GRAPHELM W)) (tag : Bytes) : ℕ × W :=
  let weights := forward.map fun f => P.mul f.opwt (P.ConcurP f.singletag tag)
  match weights with
  | [] => (0, P.mul P.zero (P.ConcurP [] tag))
  | w :: ws => firstMax w ws

def projectNode (word : ℤ → Bytes) (WFlag : Bool) (forward : List (GRAPHELM W)) (e : GRAPHELM W) :
    GRAPHELM W :=
  let best := bestForward P forward e.singletag
  { e with
    pathpt := best.1
    opwt := if WFlag then P.mul best.2 (P.WtagP (word e.wordpos) e.singletag) else best.2 }

def projectFrom (word : ℤ → Bytes) (WFlag : Bool) :
    List (GRAPHELM W) → List (List (GRAPHELM W)) → List (List (GRAPHELM W))
  | _, [] => []
  | forward, col :: cols =>
    let col := col.map (projectNode P word WFlag forward)
    col :: projectFrom word WFlag col cols

def D_project (word : ℤ → Bytes) (WFlag : Bool) :
    List (List (GRAPHELM W)) → List (List (GRAPHELM W))
  | [] => []
  | col :: cols =>
    let col := col.map fun e => { e with pathpt := -1, opwt := P.one }
    col :: projectFrom P word WFlag col cols

/-- Writing a tag into the categories. The row that stands for a position before the first word
holds one character. -/
def WordList.setCate (u : WordList) (wpos : ℤ) (tag : Bytes) : Option WordList :=
  if wpos < 0 then (if tag.length ≤ 1 then some u else none)
  else if wpos.toNat < MAX_NumOfWordsPerSentence ∧ tag.length ≤ MAX_WordCatesLen then
    some { u with cates := Function.update u.cates wpos.toNat tag }
  else none

def setNewTagLoop : List (List (GRAPHELM W)) → ℤ → ℤ → WordList → Option WordList
  | [], _, pathse, u => if pathse = -1 then some u else none
  | col :: cols, newid, pathse, u =>
    if pathse = -1 then some u
    else
      let e := col.getD pathse.toNat (.zero P)
      (u.setCate (newid - 1) e.singletag).bind (setNewTagLoop cols (newid - 1) e.pathpt)

def SetNewTag (directg : List (List (GRAPHELM W))) (u : WordList) : Option WordList :=
  match directg.reverse with
  | [] => none
  | col :: cols =>
    let e := col.getD 0 (.zero P)
    setNewTagLoop P cols e.wordpos e.pathpt u

def CountSegPathScore (word : ℤ → Bytes) (CateTags : List Bytes) : Option W :=
  (GraphGen P CateTags 0).bind fun directg =>
    (D_project P word false directg).getLast?.map fun col =>
      (scanMax (0, P.zero) 0 (col.map GRAPHELM.opwt)).2

/-- The tags of a span are set: `GraphGen`, `D_project` and `SetNewTag`. -/
def disambiguate (u : WordList) (CateTags : List Bytes) (StWordPos : ℤ) : Option WordList :=
  (GraphGen P CateTags StWordPos).bind fun directg =>
    SetNewTag P (D_project P u.GetWord true directg) u

end Graph

end YlUtils
