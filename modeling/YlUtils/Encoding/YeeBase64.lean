import YlUtils.Machine.Int
import YlUtils.Text.CString

/-! # The keyed Base64

The encoder always takes three bytes from its memory, and patches the padding
over the characters of a last group that was not whole. The keyed versions
combine the data with the bytes of a string, repeated, in a loop that only its
inner loop advances. The buffers that results are written into belong to the
caller and have room for them. A function of the base pair returns `none` where
the source reads behind the memory it is given, or writes before its result.
-/

namespace YlUtils.YeeBase64

def tbl : Array UInt8 := #[
    65, 66, 67, 68, 69, 70, 71, 72,
    73, 74, 75, 76, 77, 78, 79, 80,
    81, 82, 83, 84, 85, 86, 87, 88,
    89, 90, 97, 98, 99, 100, 101, 102,
    103, 104, 105, 106, 107, 108, 109, 110,
    111, 112, 113, 114, 115, 116, 117, 118,
    119, 120, 121, 122, 48, 49, 50, 51,
    52, 53, 54, 55, 56, 57, 43, 47]

def base64CharToValue : Array ℤ := #[
    -1, -1, -1, -1, -1, -1, -1, -1, -1, -1,
    -1, -1, -1, -1, -1, -1, -1, -1, -1, -1,
    -1, -1, -1, -1, -1, -1, -1, -1, -1, -1,
    -1, -1, -1, -1, -1, -1, -1, -1, -1, -1,
    -1, -1, -1, 62, -1, -1, -1, 63, 52, 53,
    54, 55, 56, 57, 58, 59, 60, 61, -1, -1,
    -1, -1, -1, -1, -1, 0, 1, 2, 3, 4,
    5, 6, 7, 8, 9, 10, 11, 12, 13, 14,
    15, 16, 17, 18, 19, 20, 21, 22, 23, 24,
    25, -1, -1, -1, -1, -1, -1, 26, 27, 28,
    29, 30, 31, 32, 33, 34, 35, 36, 37, 38,
    39, 40, 41, 42, 43, 44, 45, 46, 47, 48,
    49, 50, 51, -1, -1, -1, -1, -1]

def pad : UInt8 := 61

def charOf (i : UInt8) : UInt8 := tbl.getD i.toNat 0

def valueOf (c : UInt8) : ℤ := base64CharToValue.getD c.toNat (-1)

section Encoder

def quad (a b c : UInt8) : Bytes :=
  [charOf (a >>> 2), charOf (((a &&& 3) <<< 4) + (b >>> 4)),
    charOf (((b &&& 0xf) <<< 2) + (c >>> 6)), charOf (c &&& 0x3f)]

/-- The `for` loop from `i` on: the characters it writes, and the value of `i` after it. -/
def encodeLoop (length : ℤ) : Bytes → ℤ → Option (Bytes × ℤ)
  | a :: b :: c :: s, i =>
    if i < length then do
      let (p, i) ← encodeLoop length s (wrapInt (i + 3))
      some (quad a b c ++ p, i)
    else some ([], i)
  | _, i => if i < length then none else some ([], i)

def padAt (p : Bytes) (k : ℕ) : Option Bytes :=
  if k ≤ p.length then some (p.set (p.length - k) pad) else none

/-- Padding takes the place of the characters that no byte of the data is part of. -/
def padResult (p : Bytes) (i length : ℤ) : Option Bytes :=
  if i = wrapInt (length + 1) then padAt p 1
  else if i = wrapInt (length + 2) then do
    let p ← padAt p 2
    padAt p 1
  else some p

def base64Encode (str : Bytes) (length : ℤ) : Option (Bytes × ℤ) := do
  let (p, i) ← encodeLoop length str 0
  let p ← padResult p i length
  some (p ++ [0], wrapInt p.length)

end Encoder

section Decoder

def isBase64 (c : UInt8) : Bool := (c &&& 0x80 = 0 && valueOf c ≥ 0) || c = pad

/-- The macro `NEXT_BASE64_CHAR`: the character, and what follows it. -/
def nextBase64Char : Bytes → Option (UInt8 × Bytes)
  | [] => none
  | c :: p => if c ≠ 0 ∧ ¬ isBase64 c then nextBase64Char p else some (c, p)

/-- How a pass of the decoder's loop ends, with the bytes written so far. -/
inductive Pass where
  /-- The text has ended: `break`. -/
  | finished (q : Bytes)
  /-- The text is malformed: `return -1`. -/
  | failed (q : Bytes)
  /-- The next quadruplet begins at `p`. -/
  | continued (p q : Bytes)
  deriving DecidableEq, Repr

def wordOf (c : UInt8) : UInt64 := .ofNat (valueOf c).toNat

def quadruplet (p q : Bytes) : Option Pass := do
  let (c, p) ← nextBase64Char p
  if c = 0 then some (.finished q)
  else if c = pad then some (.failed q)
  else do
    let value := wordOf c <<< 18
    let (c, p) ← nextBase64Char p
    if c = 0 then some (.failed q)
    else if c = pad then some (.failed q)
    else do
      let value := value ||| wordOf c <<< 12
      let q := q ++ [(value >>> 16).toUInt8]
      let (c, p) ← nextBase64Char p
      if c = 0 then some (.failed q)
      else if c = pad then do
        let (c, p) ← nextBase64Char p
        if c = 0 then some (.failed q)
        else if c ≠ pad then some (.failed q)
        else some (.continued p q)
      else do
        let value := value ||| wordOf c <<< 6
        let q := q ++ [((0xff : UInt64) &&& value >>> 8).toUInt8]
        let (c, p) ← nextBase64Char p
        if c = 0 then some (.failed q)
        else if c = pad then some (.continued p q)
        else
          let value := value ||| wordOf c
          some (.continued p (q ++ [((0xff : UInt64) &&& value).toUInt8]))

/-- The loop of the decoder, for at most the given number of quadruplets. -/
def decodeLoop : ℕ → Bytes → Bytes → Option (ℤ × Bytes)
  | 0, _, _ => none
  | n + 1, p, q => do
    match ← quadruplet p q with
    | .finished q => some (wrapInt q.length, q)
    | .failed q => some (-1, q)
    | .continued p q => decodeLoop n p q

/-- The result, and the bytes written. Each quadruplet takes a byte of the text at least. -/
def base64Decode (base64 : Bytes) : Option (ℤ × Bytes) :=
  decodeLoop (base64.length + 1) base64 []

end Decoder

section Keyed

/-- The bytes of the key that the loops use: its length is kept in an `int`. -/
def keyOf (xorString : Bytes) : Bytes :=
  (cstr xorString).take (wrapInt (strlen xorString)).toNat

/-- The inner loop: what it has changed, and what it leaves. -/
def xorPass : Bytes → Bytes → Bytes × Bytes
  | x :: key, b :: todo =>
    let (done, rest) := xorPass key todo
    ((b ^^^ x) :: done, rest)
  | _, todo => ([], todo)

/-- The outer loop, which is `none` if it does not end within the given number of rounds. -/
def xorLoop (key : Bytes) : ℕ → Bytes → Option Bytes
  | _, [] => some []
  | 0, _ :: _ => none
  | rounds + 1, b :: todo =>
    let (done, rest) := xorPass key (b :: todo)
    (done ++ ·) <$> xorLoop key rounds rest

/-- The keyed encoder, where `tail` is the memory behind the copy of the data. -/
def base64EncodeXor (rounds : ℕ) (str : Bytes) (length : ℤ) (xorString tail : Bytes) :
    Option (Option (Bytes × ℤ)) :=
  if length < 0 ∨ (str.length : ℤ) < length then some none
  else (fun tmp => base64Encode (tmp ++ tail) length) <$>
    xorLoop (keyOf xorString) rounds (str.take length.toNat)

/-- The keyed decoder, which leaves what a malformed text was decoded into as it is. -/
def base64DecodeXor (rounds : ℕ) (base64 xorString : Bytes) : Option (Option (ℤ × Bytes)) :=
  match base64Decode base64 with
  | none => some none
  | some (ret, q) =>
    if ret = -1 then some (some (-1, q))
    else (fun done => some (ret, done ++ q.drop ret.toNat)) <$>
      xorLoop (keyOf xorString) rounds (q.take ret.toNat)

end Keyed

end YlUtils.YeeBase64
