import Mathlib.Data.List.Basic
import YlUtils.Machine.Int
import YlUtils.Text.CString

/-! # Base64

Three bytes are written as four characters of a table of 64, and read back
through its inverse. The decoder writes into a buffer of its own, whose bytes
may not be read before they are written. A function returns `none` where the
source would leave its buffers, and the inner `none` is the source's `NULL`.
-/

namespace YlUtils.Base64

def base64Table : Array UInt8 := #[
    65, 66, 67, 68, 69, 70, 71, 72, 73, 74, 75, 76, 77,
    78, 79, 80, 81, 82, 83, 84, 85, 86, 87, 88, 89, 90,
    97, 98, 99, 100, 101, 102, 103, 104, 105, 106, 107, 108, 109,
    110, 111, 112, 113, 114, 115, 116, 117, 118, 119, 120, 121, 122,
    48, 49, 50, 51, 52, 53, 54, 55, 56, 57, 43, 47, 0]

def base64Pad : UInt8 := 61

def base64ReverseTable : Array ℤ := #[
    -1, -1, -1, -1, -1, -1, -1, -1, -1, -1, -1, -1, -1, -1, -1, -1,
    -1, -1, -1, -1, -1, -1, -1, -1, -1, -1, -1, -1, -1, -1, -1, -1,
    -1, -1, -1, -1, -1, -1, -1, -1, -1, -1, -1, 62, -1, -1, -1, 63,
    52, 53, 54, 55, 56, 57, 58, 59, 60, 61, -1, -1, -1, -1, -1, -1,
    -1, 0, 1, 2, 3, 4, 5, 6, 7, 8, 9, 10, 11, 12, 13, 14,
    15, 16, 17, 18, 19, 20, 21, 22, 23, 24, 25, -1, -1, -1, -1, -1,
    -1, 26, 27, 28, 29, 30, 31, 32, 33, 34, 35, 36, 37, 38, 39, 40,
    41, 42, 43, 44, 45, 46, 47, 48, 49, 50, 51, -1, -1, -1, -1, -1,
    -1, -1, -1, -1, -1, -1, -1, -1, -1, -1, -1, -1, -1, -1, -1, -1,
    -1, -1, -1, -1, -1, -1, -1, -1, -1, -1, -1, -1, -1, -1, -1, -1,
    -1, -1, -1, -1, -1, -1, -1, -1, -1, -1, -1, -1, -1, -1, -1, -1,
    -1, -1, -1, -1, -1, -1, -1, -1, -1, -1, -1, -1, -1, -1, -1, -1,
    -1, -1, -1, -1, -1, -1, -1, -1, -1, -1, -1, -1, -1, -1, -1, -1,
    -1, -1, -1, -1, -1, -1, -1, -1, -1, -1, -1, -1, -1, -1, -1, -1,
    -1, -1, -1, -1, -1, -1, -1, -1, -1, -1, -1, -1, -1, -1, -1, -1,
    -1, -1, -1, -1, -1, -1, -1, -1, -1, -1, -1, -1, -1, -1, -1, -1]

def charOf (i : UInt8) : UInt8 := base64Table.getD i.toNat 0

/-- The entry of the reverse table for a character. -/
def reverseOf (ch : UInt8) : ℤ := base64ReverseTable.getD ch.toNat (-1)

def quad (a b c : UInt8) : Bytes :=
  [charOf (a >>> 2), charOf (((a &&& 0x03) <<< 4) + (b >>> 4)),
    charOf (((b &&& 0x0f) <<< 2) + (c >>> 6)), charOf (c &&& 0x3f)]

def encodeTail (current : Bytes) (length : ℤ) : Option Bytes :=
  if length ≠ 0 then do
    let a ← current[0]?
    if length > 1 then do
      let b ← current[1]?
      some [charOf (a >>> 2), charOf (((a &&& 0x03) <<< 4) + (b >>> 4)),
        charOf ((b &&& 0x0f) <<< 2), base64Pad]
    else some [charOf (a >>> 2), charOf ((a &&& 0x03) <<< 4), base64Pad, base64Pad]
  else some []

/-- The characters written through `p`, with `length` bytes left to read. -/
def encodeLoop : Bytes → ℤ → Option Bytes
  | a :: b :: c :: current, length =>
    if length > 2 then (quad a b c ++ ·) <$> encodeLoop current (length - 3)
    else encodeTail (a :: b :: c :: current) length
  | current, length => if length > 2 then none else encodeTail current length

def bufferSize (length : ℤ) : ℤ := wrapInt ((wrapInt (length + 2)).tdiv 3 * 4) + 1

/-- The characters with a zero after them, and their number. -/
def base64Encode (str : Bytes) (length : ℤ) : Option (Option (Bytes × ℤ)) :=
  if wrapInt (length + 2) < 0 ∨ (wrapInt (length + 2)).tdiv 3 ≥ 2 ^ 30 then some none
  else do
    let p ← encodeLoop str length
    if bufferSize length < p.length + 1 then none
    else some (some (p ++ [0], p.length))

/-- A buffer; the bytes not written yet hold nothing. -/
abbrev Buffer := List (Option UInt8)

def put (result : Buffer) (j : ℕ) (x : UInt8) : Option Buffer :=
  if j < result.length then some (result.set j (some x)) else none

/-- The update `result[j] |= x`, which reads the byte first. -/
def orAt (result : Buffer) (j : ℕ) (x : UInt8) : Option Buffer := do
  let old ← result[j]?.join
  put result j (old ||| x)

structure DecodeState where
  i : ℕ
  j : ℕ
  result : Buffer

def decodeChar (s : DecodeState) (ch : UInt8) : Option DecodeState :=
  match s.i % 4 with
  | 0 => do
    let result ← put s.result s.j (ch <<< 2)
    some ⟨s.i + 1, s.j, result⟩
  | 1 => do
    let result ← orAt s.result s.j (ch >>> 4)
    let result ← put result (s.j + 1) ((ch &&& 0x0f) <<< 4)
    some ⟨s.i + 1, s.j + 1, result⟩
  | 2 => do
    let result ← orAt s.result s.j (ch >>> 2)
    let result ← put result (s.j + 1) ((ch &&& 0x03) <<< 6)
    some ⟨s.i + 1, s.j + 1, result⟩
  | _ => do
    let result ← orAt s.result s.j ch
    some ⟨s.i + 1, s.j + 1, result⟩

/-- The `while` loop of the decoder, with the character it stops at. -/
def decodeLoop : Bytes → ℤ → DecodeState → Option (DecodeState × UInt8)
  | [], _, _ => none
  | ch :: current, length, s =>
    if ch ≠ 0 ∧ length > 0 then
      if ch = base64Pad then some (s, ch)
      else if reverseOf ch < 0 then decodeLoop current (length - 1) s
      else do
        let s ← decodeChar s (.ofNat (reverseOf ch).toNat)
        decodeLoop current (length - 1) s
    else some (s, ch)

/-- The result buffer, and the number of bytes decoded into it. -/
def base64Decode (str : Bytes) (length : ℤ) : Option (Option (Buffer × ℤ)) := do
  let (s, ch) ← decodeLoop str length ⟨0, 0, List.replicate (length + 1).toNat none⟩
  if ch = base64Pad ∧ s.i % 4 = 1 then some none
  else do
    let result ← (if ch = base64Pad ∧ s.i % 4 = 2 then put s.result (s.j + 1) 0
      else if ch = base64Pad ∧ s.i % 4 = 3 then put s.result s.j 0
      else some s.result)
    let result ← put result s.j 0
    some (some (result, s.j))

end YlUtils.Base64
