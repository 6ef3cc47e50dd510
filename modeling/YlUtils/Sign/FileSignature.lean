import YlUtils.Sign.Id3
import YlUtils.Text.Ascii

/-! # File signatures

A file is signed by samples of what remains of it without its tags and its ends,
and verified by the hashes of its blocks. A function returns `none` where the
source would leave its buffers; the `false` it may return is the inner `none`.
-/

namespace YlUtils

namespace FileSignature

def hashSize : ℕ := 10240

def skipSize : ℕ := 10240

def maxBlockNum : ℤ := 30

def packetSize : ℕ := 16384

/-- The loop that looks for the last dot, backwards from the end of the path. -/
def extLoop : Bytes → Bytes → Option Bytes
  | [], _ => none
  | c :: before, ext => if c = 46 then some ext else extLoop before (c :: ext)

def extension (filepath : Bytes) : Option Bytes := extLoop (cstr filepath).reverse []

def isMp3 (ext : Bytes) : Bool :=
  ext = [77, 80, 51] || ext = [109, 112, 51] || ext = [77, 112, 51] || ext = [109, 80, 51]

def virtualFile (ext fp : Bytes) : ℕ × ℕ :=
  if isMp3 ext then (detectVirtualFile fp 0 fp.length).2 else (0, fp.length)

def sizeBytes (n : ℕ) : Bytes := wordBytes (.ofNat n) ++ wordBytes (.ofNat (n / 2 ^ 32))

def calcHash2 (content : Bytes) (len : ℕ) : UInt32 × UInt32 :=
  (List.range (len / 2)).foldl (fun (sign1, sign2) i =>
    (sign1 * 16777619 ^^^ (content.getD (i * 2) 0).toUInt32,
      sign2 * 16777619 ^^^ (content.getD (i * 2 + 1) 0).toUInt32)) (0, 0)

def blockNum (filesize : ℕ) : ℤ :=
  let n := wrapInt ((filesize : ℤ) / (16 * 1024))
  let n := if n = 0 then 1 else n
  if n > maxBlockNum then maxBlockNum else n

/-- The loop that samples the file at even distances, `n` times. -/
def sample (fp : Bytes) (basepos filesize n : ℕ) : Option Bytes :=
  (List.range n).foldlM (fun hashBuf i => do
    let nRead := if i = n - 1 then hashSize - hashBuf.length else hashSize / n
    let b ← freadAt fp (basepos + filesize / n * i) nRead
    some (hashBuf ++ b)) []

def hashBuf (fp : Bytes) (basepos filesize : ℕ) : Option Bytes :=
  if filesize < hashSize then do
    let b ← freadAt fp basepos filesize
    some (b ++ sizeBytes filesize)
  else do
    let b ← sample fp basepos filesize (blockNum filesize).toNat
    some (b ++ List.replicate (hashSize - b.length) 0 ++ sizeBytes filesize)

def skipEnds (basepos filesize : ℕ) : ℕ × ℕ :=
  let (basepos, filesize) :=
    if skipSize < filesize then (basepos + skipSize, filesize - skipSize) else (basepos, filesize)
  (basepos, if skipSize < filesize then filesize - skipSize else filesize)

/-- `CompFileSign`, with the file at the path if it can be opened. -/
def compFileSign (filepath : Bytes) (file : Option Bytes) : Option (Option (UInt32 × UInt32)) :=
  match file with
  | none => some none
  | some fp => do
    let ext ← extension filepath
    let (basepos, filesize) := virtualFile ext fp
    if filesize = 0 then some none
    else
      let (basepos, filesize) := skipEnds basepos filesize
      some ((hashBuf fp basepos filesize).map fun b => calcHash2 b b.length)

def calcHash (content : Bytes) : UInt32 :=
  content.foldl (fun hash c => hash * 16777619 ^^^ c.toUInt32) 0

def blockSize (filesize : ℕ) : ℕ :=
  if filesize ≤ 4 * 1024 * 1024 then 1
  else if filesize ≤ 16 * 1024 * 1024 then 4
  else if filesize ≤ 64 * 1024 * 1024 then 8
  else 16

def blocknum (filesize : ℕ) : ℤ :=
  let n := wrapInt (filesize / (blockSize filesize * packetSize) : ℕ)
  if filesize % (blockSize filesize * packetSize) ≠ 0 then wrapInt (n + 1) else n

def dectoHexStr (decint : UInt32) : Bytes :=
  ([28, 24, 20, 16, 12, 8, 4, 0] : List UInt32).map fun s =>
    xnumToDigit (decint >>> s &&& 0xf).toUInt8

/-- The `while` loop over the packets of a block: the hash value, and what is left
of the file. -/
def packetLoop : ℕ → UInt32 → Bytes → UInt32 × Bytes
  | 0, hashvalue, fp => (hashvalue, fp)
  | j + 1, hashvalue, fp =>
    if fp = [] then (hashvalue, fp)
    else packetLoop j (hashvalue ^^^ calcHash (fp.take packetSize)) (fp.drop packetSize)

def blockLoop (blockSize : ℕ) : ℕ → Bytes → Bytes → Bytes
  | 0, szCodeBuffer, _ => szCodeBuffer
  | n + 1, szCodeBuffer, fp =>
    let (hashvalue, fp) := packetLoop blockSize 0 fp
    blockLoop blockSize n (szCodeBuffer ++ dectoHexStr hashvalue) fp

def genFileVerifyCode (filepath : Bytes) (file : Option Bytes) : Option (Option Bytes) :=
  match file with
  | none => some none
  | some fp => do
    let ext ← extension filepath
    let (basepos, filesize) := virtualFile ext fp
    if filesize = 0 then some none
    else some (some (blockLoop (blockSize filesize) (blocknum filesize).toNat []
      (fp.drop basepos)))

/-- The scan for the extension reads bytes of the path only, in both functions. -/
def ScanStaysInside (filepath : Bytes) (file : Option Bytes) : Prop :=
  (compFileSign filepath file).isSome = true ∧ (genFileVerifyCode filepath file).isSome = true

section Scan

variable {filepath fp : Bytes}

theorem extLoop_isSome (before ext : Bytes) :
    (extLoop before ext).isSome = true ↔ 46 ∈ before := by
  induction before generalizing ext with
  | nil => simp [extLoop]
  | cons c before ih =>
    rw [extLoop, List.mem_cons]
    by_cases hc : c = 46
    · simp [hc]
    · rw [if_neg hc, ih, or_iff_right (Ne.symm hc)]

theorem extension_isSome : (extension filepath).isSome = true ↔ 46 ∈ cstr filepath := by
  rw [extension, extLoop_isSome, List.mem_reverse]

theorem compFileSign_isSome :
    (compFileSign filepath (some fp)).isSome = (extension filepath).isSome := by
  unfold compFileSign
  cases extension filepath with
  | none => rfl
  | some ext =>
    simp only [Option.bind_eq_bind, Option.bind_some]
    split <;> rfl

theorem genFileVerifyCode_isSome :
    (genFileVerifyCode filepath (some fp)).isSome = (extension filepath).isSome := by
  unfold genFileVerifyCode
  cases extension filepath with
  | none => rfl
  | some ext =>
    simp only [Option.bind_eq_bind, Option.bind_some]
    split <;> rfl

/-- The scan stays inside of a path with a dot, and does not begin without a file. -/
theorem scanStaysInside_iff (filepath : Bytes) (file : Option Bytes) :
    ScanStaysInside filepath file ↔ file = none ∨ 46 ∈ cstr filepath := by
  unfold ScanStaysInside
  cases file with
  | none => simp [compFileSign, genFileVerifyCode]
  | some fp =>
    rw [compFileSign_isSome, genFileVerifyCode_isSome, extension_isSome, and_self]
    simp

/-- The path `a` of a file has no dot. -/
theorem not_scanStaysInside : ¬ ScanStaysInside [97, 0] (some [7]) :=
  fun h => absurd h.1 (by decide)

end Scan

end FileSignature

end YlUtils
