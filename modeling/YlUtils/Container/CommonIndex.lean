import YlUtils.Machine.Pointer
import YlUtils.Machine.Representation

/-! # The common index

An index has two levels. An entry of the first level names a slice of the second
one by an offset and a count. Each level is loaded from a file of its own, which
holds the number of its items and the items as they lie in memory.
-/

namespace YlUtils

structure Index1 where
  off : UInt32
  cnt : UInt32
  deriving DecidableEq

def Index1.representation : Representation Index1 :=
  (Representation.word.prod .word).map (fun p => ⟨p.1, p.2⟩) (fun i => (i.off, i.cnt)) fun _ => rfl

abbrev IOException := String

def maxItemNum : UInt64 := 100000000

variable {α : Type}

def itemsAt (R : Representation α) (n : ℕ) (b : Bytes) : List α :=
  (List.range n).map fun i => R.value (b.drop (i * R.size))

/-- Load the items of a file, of which opening gives its bytes or the text of an error; `errno` is
the text of the last error. The pointer and the number are those that are passed by reference. -/
def loadData (R : Representation α) (index : String) (file : Except String Bytes) (errno : String)
    (pItems : Pointer α) (itemNum maxItemNum : UInt64) :
    Option (Except IOException Unit × Pointer α × UInt64) := do
  let items ← pItems.delete
  let itemNum := if pItems.isNull then itemNum else 0
  let omsg := "loadData(" ++ index ++ ", **items, &item_num) : "
  match file with
  | .error e => some (.error (omsg ++ "open file error  : " ++ e), items, itemNum)
  | .ok b =>
    -- What a short file has of the number is read into it all the same.
    let itemNum := overwriteLong itemNum (b.take 8)
    if b.length < 8 then
      some (.error (omsg ++ "read item-num error : " ++ errno), items, itemNum)
    else if maxItemNum < itemNum then
      some (.error (omsg ++ "item_num " ++ toString itemNum ++ " beyond max_item_num " ++
        toString maxItemNum ++ ": "), items, itemNum)
    else if 8 + itemNum * .ofNat R.size ≠ .ofNat b.length then
      some (.error (omsg ++ "8+" ++ toString itemNum ++ "*" ++ toString R.size ++ " != " ++
        toString b.length), items, itemNum)
    else some (.ok (), .live (itemsAt R itemNum.toNat (b.drop 8)), itemNum)

structure CommonIndex (α : Type) where
  mIndex1 : Pointer Index1
  mIndex2 : Pointer α
  mSize1 : UInt64
  mSize2 : UInt64

namespace CommonIndex

def new : CommonIndex α := ⟨.null, .null, 0, 0⟩

def destroy (s : CommonIndex α) : Option Unit := do
  let _ ← s.mIndex1.delete
  let _ ← s.mIndex2.delete
  some ()

/-- Load both levels; an exception of the first one leaves the second one as it is. -/
def load (R : Representation α) (index1 index2 : String) (file1 file2 : Except String Bytes)
    (errno : String) (s : CommonIndex α) : Option (Except IOException Unit × CommonIndex α) := do
  let r ← loadData Index1.representation index1 file1 errno s.mIndex1 s.mSize1 maxItemNum
  let s := { s with mIndex1 := r.2.1, mSize1 := r.2.2 }
  match r.1 with
  | .error e => some (.error e, s)
  | .ok () =>
    let r ← loadData R index2 file2 errno s.mIndex2 s.mSize2 maxItemNum
    some (r.1, { s with mIndex2 := r.2.1, mSize2 := r.2.2 })

/-- `operator[]`: the position in the second level to which the pointer leads that it returns,
unless it is `NULL`, and the count. -/
def subscript (s : CommonIndex α) (n : UInt64) : Option (Option ℕ × UInt32) :=
  if s.mSize1 ≤ n then some (none, 0)
  else do
    let e ← s.mIndex1.read n.toNat
    some (some e.off.toNat, e.cnt)

def get (s : CommonIndex α) (cnt : UInt32) (n : UInt64) : Option (Option ℕ × UInt32) :=
  if s.mSize1 ≤ n then some (none, cnt)
  else do
    let e ← s.mIndex1.read n.toNat
    some (some e.off.toNat, e.cnt)

def printSlice (text : α → String) (s : CommonIndex α) (pos cnt : ℕ) (os : String) :
    Option String :=
  (List.range cnt).foldlM (fun os j => do
    let item ← s.mIndex2.read (pos + j)
    some (os ++ text item ++ " ")) os

/-- `operator<<`, with the text that is printed for an item. -/
def print (text : α → String) (s : CommonIndex α) : Option String :=
  (List.range s.mSize1.toNat).foldlM (fun os i => do
    let e ← s.mIndex1.read i
    if 0 < e.cnt then do
      let os ← s.printSlice text e.off.toNat e.cnt.toNat (os ++ "<" ++ toString i ++ " : ")
      some (os ++ ">\n")
    else some os)
    ("索引信息 : 一级:" ++ toString s.mSize1 ++ "\t二级:" ++ toString s.mSize2 ++ "\n")

end CommonIndex

end YlUtils
