import Mathlib.Data.FinEnum
import YlUtils.Machine.Fields

/-! # Tags of a file

A file may begin with an ID3v2 tag and end with an ID3v1 tag. Detection cuts the
tags off the part of the file that is looked at, an offset and a length.
-/

namespace YlUtils

/-- `fread` of one item of `len` bytes behind `fseek` to `off`. -/
def freadAt (fp : Bytes) (off len : ℕ) : Option Bytes :=
  if 0 < len ∧ off + len ≤ fp.length then some ((fp.drop off).take len) else none

namespace FileSignature

def swapLong (x : UInt32) : UInt32 :=
  ((x &&& 0xFF000000) >>> 24) + ((x &&& 0x00FF0000) >>> 8) + ((x &&& 0x0000FF00) <<< 8) +
    ((x &&& 0x000000FF) <<< 24)

def id3DesyncSize (x : UInt32) : UInt32 :=
  let x : UInt32 := (x &&& (0x7F : UInt32)) ||| ((x &&& ~~~(0xFF : UInt32)) >>> 1)
  let x : UInt32 := (x &&& (0x03FFF : UInt32)) ||| ((x &&& ~~~(0x03FFF : UInt32)) >>> 1)
  (x &&& (0x01FFFFF : UInt32)) ||| ((x &&& ~~~(0x01FFFFF : UInt32)) >>> 1)

def id3v2Tag : Bytes := [73, 68, 51]

def id3v2Unsynchronised : UInt32 := 0x80

def id3v2FooterPresent : UInt32 := 0x10

def id3v2KnownMask : UInt32 := 0xF0

/-- The conversion from `BYTE`, which is signed, to 32 bits. -/
def signExtend (b : UInt8) : UInt32 := b.toInt8.toInt32.toUInt32

/-- The size of an ID3v2 tag by its header, if the header is one that is known. -/
def id3v2TagSize (pHeader : Bytes) : Option UInt32 :=
  let nMajorVersion := pHeader.getD 3 0
  let nFlags := signExtend (pHeader.getD 5 0)
  if pHeader.take 3 ≠ id3v2Tag then none
  else if nMajorVersion.toInt8 < 2 ∨ 4 < nMajorVersion.toInt8 then none
  else if nFlags &&& ~~~id3v2KnownMask ≠ 0 then none
  else if nFlags &&& ~~~id3v2Unsynchronised ≠ 0 then none
  else
    let nTagSize := id3DesyncSize (swapLong (wordAt (pHeader.drop 6)))
    let nTagSize := if nFlags &&& id3v2FooterPresent ≠ 0 then nTagSize + 10 else nTagSize
    some (nTagSize + 10)

def detectVirtualID3v2 (fp : Bytes) (nOffset nLength : ℕ) : Bool × ℕ × ℕ :=
  match (freadAt fp nOffset 10).bind id3v2TagSize with
  | none => (false, nOffset, nLength)
  | some nTagSize =>
    if nLength ≤ nTagSize.toNat then (false, nOffset, nLength)
    else (true, nOffset + nTagSize.toNat, nLength - nTagSize.toNat)

def id3v1Tag : Bytes := [84, 65, 71]

def detectVirtualID3v1 (fp : Bytes) (nOffset nLength : ℕ) : Bool × ℕ × ℕ :=
  if nLength < 128 then (false, nOffset, nLength)
  else match freadAt fp (nOffset + nLength - 128) 128 with
    | none => (false, nOffset, nLength)
    | some pInfo =>
      if pInfo.take 3 ≠ id3v1Tag then (false, nOffset, nLength)
      else (true, nOffset, nLength - 128)

def detectVirtualFile (fp : Bytes) (nOffset nLength : ℕ) : Bool × ℕ × ℕ :=
  let (v2, nOffset, nLength) := detectVirtualID3v2 fp nOffset nLength
  let (v1, nOffset, nLength) := detectVirtualID3v1 fp nOffset nLength
  (v2 || v1, nOffset, nLength)

/-- An ID3v2 tag without flags: its versions and the bytes behind its header. -/
structure Id3v2 where
  majorVersion : UInt8
  minorVersion : UInt8
  payload : Bytes
  known : 2 ≤ majorVersion ∧ majorVersion ≤ 4
  fits : payload.length < 2 ^ 28

def sizeByte (n i : ℕ) : UInt8 := .ofNat (n / 2 ^ (7 * i) % 2 ^ 7)

namespace Id3v2

def header (t : Id3v2) : Bytes :=
  id3v2Tag ++ [t.majorVersion, t.minorVersion, 0, sizeByte t.payload.length 3,
    sizeByte t.payload.length 2, sizeByte t.payload.length 1, sizeByte t.payload.length 0]

def bytes (t : Id3v2) : Bytes := t.header ++ t.payload

end Id3v2

structure Id3v1 where
  info : Bytes
  length_eq : info.length = 125

def Id3v1.bytes (t : Id3v1) : Bytes := id3v1Tag ++ t.info

section Size

variable {x : UInt32} {a b c d : ℕ}

/-- The bytes of a word in reverse order. -/
theorem toNat_swapLong (ha : a < 2 ^ 8) (hb : b < 2 ^ 8) (hc : c < 2 ^ 8) (hd : d < 2 ^ 8)
    (hx : x.toNat = a * 2 ^ 24 + b * 2 ^ 16 + c * 2 ^ 8 + d) :
    (swapLong x).toNat = d * 2 ^ 24 + c * 2 ^ 16 + b * 2 ^ 8 + a := by
  have h24 := toNat_and_field (x := x) (m := 0xFF000000) 24 8 (by decide)
  have h16 := toNat_and_field (x := x) (m := 0x00FF0000) 16 8 (by decide)
  have h8 := toNat_and_field (x := x) (m := 0x0000FF00) 8 8 (by decide)
  have h0 := toNat_and_field (x := x) (m := 0x000000FF) 0 8 (by decide)
  rw [show x.toNat / 2 ^ 24 % 2 ^ 8 = a by omega] at h24
  rw [show x.toNat / 2 ^ 16 % 2 ^ 8 = b by omega] at h16
  rw [show x.toNat / 2 ^ 8 % 2 ^ 8 = c by omega] at h8
  rw [show x.toNat / 2 ^ 0 % 2 ^ 8 = d by rw [Nat.pow_zero, Nat.div_one]; omega] at h0
  unfold swapLong
  simp only [UInt32.toNat_add, UInt32.toNat_shiftRight, UInt32.toNat_shiftLeft, h24, h16, h8, h0,
    UInt32.reduceToNat, Nat.reduceMod, Nat.shiftRight_eq_div_pow, Nat.shiftLeft_eq]
  omega

theorem toNat_desync {l h : UInt32} {p q k : ℕ} (hp : p < 2 ^ k)
    (hl : (x &&& l).toNat = p) (hh : (x &&& h).toNat = q * 2 ^ (k + 1)) :
    ((x &&& l) ||| ((x &&& h) >>> 1)).toNat = q * 2 ^ k + p := by
  have hshift : ((x &&& h) >>> 1).toNat = q * 2 ^ k := by
    rw [UInt32.toNat_shiftRight, hh, Nat.pow_succ, ← Nat.mul_assoc]
    exact Nat.mul_div_cancel _ (by decide)
  rw [toNat_or_field k (hl ▸ hp) (hshift ▸ Nat.dvd_mul_left _ _), hl, hshift, Nat.add_comm]

theorem toNat_id3DesyncSize (ha : a < 2 ^ 7) (hb : b < 2 ^ 7) (hc : c < 2 ^ 7) (hd : d < 2 ^ 7)
    (hx : x.toNat = a * 2 ^ 24 + b * 2 ^ 16 + c * 2 ^ 8 + d) :
    (id3DesyncSize x).toNat = a * 2 ^ 21 + b * 2 ^ 14 + c * 2 ^ 7 + d := by
  have hlow : ∀ (y m : UInt32) (k : ℕ), m.toNat = (2 ^ k - 1) <<< 0 →
      (y &&& m).toNat = y.toNat % 2 ^ k := fun y m k hm => by
    rw [toNat_and_field 0 k hm, Nat.pow_zero, Nat.div_one, Nat.mul_one]
  unfold id3DesyncSize
  extract_lets y z
  have hy : y.toNat = (a * 2 ^ 16 + b * 2 ^ 8 + c) * 2 ^ 7 + d := by
    apply toNat_desync hd
    · rw [hlow x _ 7 rfl]
      omega
    · rw [toNat_and_field 8 24 rfl]
      omega
  have hz : z.toNat = (a * 2 ^ 8 + b) * 2 ^ 14 + (c * 2 ^ 7 + d) := by
    apply toNat_desync (by omega)
    · rw [hlow y _ 14 rfl]
      omega
    · rw [toNat_and_field 14 18 rfl]
      omega
  have h : ((z &&& (0x01FFFFF : UInt32)) |||
      ((z &&& ~~~(0x01FFFFF : UInt32)) >>> 1)).toNat =
        a * 2 ^ 21 + (b * 2 ^ 14 + c * 2 ^ 7 + d) := by
    apply toNat_desync (by omega)
    · rw [hlow z _ 21 rfl]
      omega
    · rw [toNat_and_field 21 11 rfl]
      omega
  rw [h]
  omega

theorem toNat_syncsafe {b3 b2 b1 b0 : UInt8} (h3 : b3.toNat < 2 ^ 7) (h2 : b2.toNat < 2 ^ 7)
    (h1 : b1.toNat < 2 ^ 7) (h0 : b0.toNat < 2 ^ 7) (s : Bytes) :
    (id3DesyncSize (swapLong (wordAt (b3 :: b2 :: b1 :: b0 :: s)))).toNat =
      b3.toNat * 2 ^ 21 + b2.toNat * 2 ^ 14 + b1.toNat * 2 ^ 7 + b0.toNat :=
  toNat_id3DesyncSize h3 h2 h1 h0
    (toNat_swapLong b0.toNat_lt b1.toNat_lt b2.toNat_lt b3.toNat_lt (toNat_wordAt b3 b2 b1 b0 s))

theorem toNat_sizeByte (n i : ℕ) : (sizeByte n i).toNat = n / 2 ^ (7 * i) % 2 ^ 7 := by
  unfold sizeByte
  exact UInt8.toNat_ofNat_of_lt' (by change _ < 2 ^ 8; omega)

theorem toNat_tagSize {n : ℕ} (hn : n < 2 ^ 28) (s : Bytes) :
    (id3DesyncSize (swapLong (wordAt (sizeByte n 3 :: sizeByte n 2 :: sizeByte n 1 ::
      sizeByte n 0 :: s)))).toNat = n := by
  have hlt : ∀ i, (sizeByte n i).toNat < 2 ^ 7 := fun i => by
    rw [toNat_sizeByte]
    exact Nat.mod_lt _ (by decide)
  rw [toNat_syncsafe (hlt 3) (hlt 2) (hlt 1) (hlt 0)]
  simp only [toNat_sizeByte, Nat.mul_zero, Nat.mul_one, Nat.pow_zero, Nat.div_one, Nat.reduceMul,
    Nat.reducePow]
  omega

theorem known_version : ∀ m : UInt8, 2 ≤ m ∧ m ≤ 4 → ¬ (m.toInt8 < 2 ∨ 4 < m.toInt8) := by
  decide +kernel

theorem id3v2TagSize_header (t : Id3v2) :
    ∃ n, id3v2TagSize t.header = some n ∧ n.toNat = t.bytes.length := by
  have hn := t.fits
  have hsize := toNat_tagSize hn []
  have hversion := known_version t.majorVersion t.known
  have hlen : t.bytes.length = t.payload.length + 10 := by
    rw [Id3v2.bytes, List.length_append, Nat.add_comm]
    rfl
  refine ⟨id3DesyncSize (swapLong (wordAt [sizeByte t.payload.length 3,
    sizeByte t.payload.length 2, sizeByte t.payload.length 1, sizeByte t.payload.length 0])) + 10,
    ?_, ?_⟩
  · unfold id3v2TagSize Id3v2.header
    simp only [id3v2Tag, List.cons_append, List.nil_append, List.take_succ_cons, List.take_zero,
      List.getD_cons_succ, List.getD_cons_zero, List.drop_succ_cons, List.drop_zero]
    rw [if_neg (by simp), if_neg hversion, if_neg (by decide), if_neg (by decide),
      if_neg (by decide)]
  · rw [hlen, UInt32.toNat_add, hsize]
    exact Nat.mod_eq_of_lt (by change _ + 10 < 2 ^ 32; omega)

end Size

end FileSignature

end YlUtils
