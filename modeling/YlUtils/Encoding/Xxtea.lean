import Mathlib.Data.List.Basic
import YlUtils.Machine.Int
import YlUtils.Text.CString

/-! # XXTEA

A text is packed into 32-bit words with its length in a word of its own, and the
words are mixed in place. A function returns `none` where the source would read
outside its buffers; the `NULL` it may return is the inner `none`.
-/

namespace YlUtils.Xxtea

abbrev Words := List UInt32

def delta : UInt32 := 0x9e3779b9

def mx (z y sum p e : UInt32) (k : Words) : Option UInt32 := do
  let kp ← k[((p &&& 3) ^^^ e).toNat]?
  some (((z >>> 5 ^^^ y <<< 2) + (y >>> 3 ^^^ z <<< 4)) ^^^ ((sum ^^^ y) + (kp ^^^ z)))

/-- One assignment `z = v[p] += XXTEA_MX`, where `next` is the position `y` is read from. -/
def encryptOne (k : Words) (sum e : UInt32) (p next : ℕ) (s : Words × UInt32) :
    Option (Words × UInt32) := do
  let y ← s.1[next]?
  let x ← s.1[p]?
  let d ← mx s.2 y sum (.ofNat p) e k
  some (s.1.set p (x + d), x + d)

def encryptRound (k : Words) (n : ℕ) (sum : UInt32) (s : Words × UInt32) :
    Option (Words × UInt32) := do
  let e := sum >>> 2 &&& 3
  let s ← (List.range n).foldlM (fun s p => encryptOne k sum e p (p + 1) s) s
  encryptOne k sum e n 0 s

def encryptRounds (k : Words) (n : ℕ) : ℕ → UInt32 → Words × UInt32 → Option (Words × UInt32)
  | 0, _, s => some s
  | q + 1, sum, s => do
    let s ← encryptRound k n (sum + delta) s
    encryptRounds k n q (sum + delta) s

def xxteaLongEncrypt (v : Words) (len : UInt32) (k : Words) : Option Words := do
  let n := len - 1
  let z ← v[n.toNat]?
  let _ ← v[0]?
  let q := 6 + 52 / (n + 1)
  if n < 1 then some v
  else (·.1) <$> encryptRounds k n.toNat q.toNat 0 (v, z)

/-- One assignment `y = v[p] -= XXTEA_MX`, where `prev` is the position `z` is read from. -/
def decryptOne (k : Words) (sum e : UInt32) (p prev : ℕ) (s : Words × UInt32) :
    Option (Words × UInt32) := do
  let z ← s.1[prev]?
  let x ← s.1[p]?
  let d ← mx z s.2 sum (.ofNat p) e k
  some (s.1.set p (x - d), x - d)

/-- The `for` loop of the decryption, from `p` down to 1. -/
def decryptFor (k : Words) (sum e : UInt32) : ℕ → Words × UInt32 → Option (Words × UInt32)
  | 0, s => some s
  | p + 1, s => do
    let s ← decryptOne k sum e (p + 1) p s
    decryptFor k sum e p s

def decryptRound (k : Words) (n : ℕ) (sum : UInt32) (s : Words × UInt32) :
    Option (Words × UInt32) := do
  let e := sum >>> 2 &&& 3
  let s ← decryptFor k sum e n s
  decryptOne k sum e 0 n s

/-- As `XXTEA_DELTA` is odd, the sum of the decryption reaches zero in fewer
rounds than this, wherever it starts. -/
def maxRounds : ℕ := 2 ^ 32

def decryptRounds (k : Words) (n : ℕ) : ℕ → UInt32 → Words × UInt32 → Option (Words × UInt32)
  | 0, _, _ => none
  | fuel + 1, sum, s =>
    if sum ≠ 0 then do
      let s ← decryptRound k n sum s
      decryptRounds k n fuel (sum - delta) s
    else some s

def xxteaLongDecrypt (v : Words) (len : UInt32) (k : Words) : Option Words := do
  let n := len - 1
  let _ ← v[n.toNat]?
  let y ← v[0]?
  let q := 6 + 52 / (n + 1)
  if n < 1 then some v
  else (·.1) <$> decryptRounds k n.toNat maxRounds (q * delta) (v, y)

def shift (i : ℕ) : UInt32 := .ofNat ((i &&& 3) <<< 3)

/-- A fresh array of words, of the size in bytes given to `malloc`. -/
def alloc (bytes : UInt32) : Words := List.replicate (bytes.toNat / 4) 0

def xxteaToLongArray (data : Bytes) (len : UInt32) (includeLength : Bool) :
    Option (Words × UInt32) := do
  let n := len >>> 2
  let n := if len &&& 3 = 0 then n else n + 1
  let (result, retLen) ← (if includeLength then do
      let result := alloc ((n + 1) <<< 2)
      if n.toNat < result.length then some (result.set n.toNat len, n + 1) else none
    else some (alloc (n <<< 2), n))
  let result ← (List.range len.toNat).foldlM (fun result i => do
    let x ← data[i]?
    let w ← result[i >>> 2]?
    some (result.set (i >>> 2) (w ||| x.toUInt32 <<< shift i))) result
  some (result, retLen)

/-- The bytes of the words with a zero after them, and their number. -/
def xxteaToByteArray (data : Words) (len : UInt32) (includeLength : Bool) :
    Option (Option (Bytes × UInt32)) := do
  let n := len <<< 2
  let m ← (if includeLength then data[(len - 1).toNat]? else some n)
  if includeLength ∧ (m < n - 7 ∨ m > n - 4) then some none
  else do
    let result ← (List.range m.toNat).mapM fun i => do
      let w ← data[i >>> 2]?
      some (w >>> shift i &&& 0xff).toUInt8
    some (some (result ++ [0], m))

def encrypt (data : Bytes) (len : UInt32) (key : Bytes) : Option (Option (Bytes × UInt32)) := do
  let (v, vLen) ← xxteaToLongArray data len true
  let (k, _) ← xxteaToLongArray key 16 false
  let v ← xxteaLongEncrypt v vLen k
  xxteaToByteArray v vLen false

def decrypt (data : Bytes) (len : UInt32) (key : Bytes) : Option (Option (Bytes × UInt32)) := do
  let (v, vLen) ← xxteaToLongArray data len false
  let (k, _) ← xxteaToLongArray key 16 false
  let v ← xxteaLongDecrypt v vLen k
  xxteaToByteArray v vLen true

/-- The number of bytes in front of a zero, which has to be among those that can be read. -/
def ustrlen (s : Bytes) : Option UInt32 := (strlenIn s).map .ofNat

/-- The ciphertext of a C string, with its length as an `int`. The length of the
key is not used, but it is read. -/
def xxteaEncrypt (data key : Bytes) : Option (Option (Bytes × ℤ)) := do
  let dataLen ← ustrlen data
  let _keyLen ← ustrlen key
  if dataLen = 0 then some none
  else do
    let result ← encrypt data dataLen key
    some (result.map fun r => (r.1, intOf r.2))

/-- The text of a ciphertext of `len` bytes. -/
def xxteaDecrypt (data key : Bytes) (len : ℤ) : Option (Option Bytes) := do
  let dataLen := UInt32.ofInt len
  let _keyLen ← ustrlen key
  if dataLen = 0 then some none
  else do
    let result ← decrypt data dataLen key
    some (result.map (·.1))

end YlUtils.Xxtea
