import YlUtils.Text.Ascii

/-! # The query string of a request

A query string is copied into one buffer and taken apart in place: names and
values become C strings of the buffer, which the map of the object points to. A
step returns `none` where the source would leave the buffer.
-/

namespace YlUtils

/-- The buffer of a query and the positions in it of names and of their values. -/
structure HttpQuery where
  httpQueryString : Bytes
  nameValue : List (ℕ × ℕ)

namespace HttpQuery

def empty : HttpQuery := ⟨[], []⟩

def strcaselt (left right : Bytes) : Bool := strcasecmp left right < 0

/-- The equivalence of keys that a map derives from its order. -/
def equivalent (a b : Bytes) : Bool := !strcaselt a b && !strcaselt b a

/-- The C string at a position of a buffer. -/
def stringAt (buf : Bytes) (p : ℕ) : Bytes := cstr (buf.drop p)

/-- Insertion into the map, which keeps the first value of a name. -/
def insert (buf : Bytes) (nameValue : List (ℕ × ℕ)) (name value : ℕ) : List (ℕ × ℕ) :=
  if nameValue.any fun e => equivalent (stringAt buf e.1) (stringAt buf name) then nameValue
  else nameValue ++ [(name, value)]

def escapeAt (buf : Bytes) (h : ℕ) : Option (Option UInt8) := do
  let h1 ← buf[h + 1]?
  if h1 = 0 then some none
  else do
    let h2 ← buf[h + 2]?
    if h2 = 0 ∨ ¬ (isxdigit h1 && isxdigit h2) then some none
    else if x2digitsToNum h1 h2 = 0 then some none
    else some (some (x2digitsToNum h1 h2))

/-- The `for` loop of `unescape`, with its two pointers, and the zero after it. -/
def unescapeLoop : ℕ → Bytes → ℕ → ℕ → Option Bytes
  | 0, _, _, _ => none
  | fuel + 1, buf, t, h => do
    let c ← buf[h]?
    if c = 0 then some (buf.set t 0)
    else do
      let escape ← (if c ≠ 37 then some none else escapeAt buf h)
      match escape with
      | some x => unescapeLoop fuel (buf.set t x) (t + 1) (h + 3)
      | none => unescapeLoop fuel (buf.set t (if c = 43 then 32 else c)) (t + 1) (h + 1)

def unescape (buf : Bytes) (s : ℕ) : Option Bytes := unescapeLoop buf.length buf s s

structure Scan where
  buf : Bytes
  nameValue : List (ℕ × ℕ)
  pnamebegin : ℕ
  pvaluebegin : ℕ
  p : ℕ

namespace Scan

/-- The test whether a name and a value lie before the scan position. -/
def isPair (s : Scan) : Option Bool := do
  let n ← s.buf[s.pnamebegin]?
  let v ← s.buf[s.pvaluebegin]?
  some (n ≠ 61 && n ≠ 38 && v = 61 && s.pnamebegin < s.pvaluebegin)

def insertPair (s : Scan) (buf : Bytes) : Option Scan := do
  let buf ← unescape buf (s.pvaluebegin + 1)
  some { s with
    buf := buf
    nameValue := insert buf s.nameValue s.pnamebegin (s.pvaluebegin + 1) }

/-- What the loop does at a `&`. -/
def endSegment (s : Scan) : Option Scan := do
  let s ← (if ← s.isPair then s.insertPair ((s.buf.set s.pvaluebegin 0).set s.p 0) else some s)
  some { s with pnamebegin := s.p + 1, pvaluebegin := s.p + 1 }

def loop : ℕ → Scan → Option Scan
  | 0, _ => none
  | fuel + 1, s => do
    let c ← s.buf[s.p]?
    if c = 0 then some s
    else do
      let s ← (if c = 38 then s.endSegment
        else do
          let v ← s.buf[s.pvaluebegin]?
          some (if c = 61 ∧ v ≠ 61 then { s with pvaluebegin := s.p } else s))
      loop fuel { s with p := s.p + 1 }

def finish (s : Scan) : Option Scan := do
  if ← s.isPair then s.insertPair (s.buf.set s.pvaluebegin 0) else some s

end Scan

def recv (d : HttpQuery) (queryString : Bytes) : Option HttpQuery := do
  let buf := cstr queryString ++ 0 :: d.httpQueryString.drop (strlen queryString + 1)
  let s ← Scan.loop buf.length ⟨buf, [], 0, 0, 0⟩
  let s ← s.finish
  some ⟨s.buf, s.nameValue⟩

def get (d : HttpQuery) (name : Bytes) : Option Bytes :=
  (d.nameValue.find? fun e => equivalent (stringAt d.httpQueryString e.1) (cstr name)).map
    fun e => stringAt d.httpQueryString e.2

end HttpQuery

end YlUtils
