import YlUtils.Machine.Words
import YlUtils.Maps.UniqueMap
import YlUtils.Sign.UlPrime

/-! # The term dictionary

A dictionary gives each signature the next identifier and counts its insertions.
It is saved to a file as the bytes of its memory, in the order in which the map
is iterated. An exception keeps what was changed before it was thrown.
-/

namespace YlUtils

structure TermInfo where
  termID : ℤ
  termFreq : UInt32
  docFreq : UInt32
  termWeight : UInt32
  deriving DecidableEq

abbrev TermPair := TSign × TermInfo

def sizeofTermPair : ℕ := 24

/-- The map; `eqSign` compares both words of its keys. -/
abbrev DictHashMap := UniqueMap TSign TermInfo

abbrev DictException := String

structure Dict where
  mCurrMaxID : ℤ
  mDictMap : DictHashMap

namespace TermPair

def bytes (p : TermPair) : Bytes :=
  wordBytes p.1.sign1 ++ wordBytes p.1.sign2 ++ intBytes p.2.termID ++
    wordBytes p.2.termFreq ++ wordBytes p.2.docFreq ++ wordBytes p.2.termWeight

def ofBytes (b : Bytes) : TermPair :=
  (⟨wordAt b, wordAt (b.drop 4)⟩,
    ⟨intOf (wordAt (b.drop 8)), wordAt (b.drop 12), wordAt (b.drop 16), wordAt (b.drop 20)⟩)

def array : ℕ → Bytes → List TermPair
  | 0, _ => []
  | n + 1, b => ofBytes b :: array n (b.drop sizeofTermPair)

end TermPair

/-- An order in which the entries of a map may be iterated. -/
structure Iteration where
  order : DictHashMap → List TermPair
  perm : ∀ m, (order m).Perm m.entries

namespace Dict

def new : Dict := ⟨-1, .empty⟩

def size (d : Dict) : ℕ := d.mDictMap.size

def getSignID (d : Dict) (sign : TSign) : ℤ :=
  match d.mDictMap.find sign with
  | none => -1
  | some info => info.termID

def insertSign (d : Dict) (sign : TSign) : ℤ × Dict :=
  match d.mDictMap.find sign with
  | some info =>
    (info.termID, { d with
      mDictMap := d.mDictMap.modify sign fun i => { i with termFreq := i.termFreq + 1 } })
  | none =>
    let mCurrMaxID := wrapInt (d.mCurrMaxID + 1)
    (mCurrMaxID, ⟨mCurrMaxID, d.mDictMap.insert sign ⟨mCurrMaxID, 1, 0, 0⟩⟩)

def insertTerm (d : Dict) (term : Bytes) : Option (ℤ × Dict) :=
  (YeeSign.getSignCStr term).map d.insertSign

/-- Load a file, of which opening gives its bytes or the text of an error. -/
def load (d : Dict) (dictf : String) (fdict : Except String Bytes) :
    Except DictException Unit × Dict :=
  let msg := "Dict::load(" ++ dictf ++ ") : exception : "
  match fdict with
  | .error e => (.error (msg ++ e), d)
  | .ok file =>
    let d := { d with mCurrMaxID := overwriteInt d.mCurrMaxID (file.take 4) }
    if file.length < 8 then
      (.error (msg ++ "读取最大termID时出错,文件格式有错,词典文件至少要有8个字节的数据"), d)
    else
      let termNum := wordAt (file.drop 4)
      if UInt32.ofInt (d.mCurrMaxID + 1) < termNum then
        (.error (msg ++ "词典文件中信息出现逻辑错误, mCurrMaxID=" ++ toString d.mCurrMaxID ++
          "term_num=" ++ toString termNum), d)
      else if file.length < 8 + termNum.toNat * sizeofTermPair then
        (.error (msg ++ "词典格式不对,应该是文件长度与词典信息长度不对."), d)
      else (.ok (), { d with mDictMap := .ofList (TermPair.array termNum.toNat (file.drop 8)) })

def save (d : Dict) (dictf : String) (it : Iteration) (openError : Option String) :
    Except DictException Bytes :=
  match openError with
  | some e => .error ("Dict::save(" ++ dictf ++ ") error : " ++ e)
  | none => .ok (intBytes d.mCurrMaxID ++ intBytes d.size ++
      (it.order d.mDictMap).flatMap TermPair.bytes)

end Dict

end YlUtils
