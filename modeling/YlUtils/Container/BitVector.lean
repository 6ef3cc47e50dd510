import YlUtils.Machine.Bits
import YlUtils.Runs.Succeeds
import YlUtils.Text.CString

/-! # The bit vector

The bits lie in an array of bytes. To set one, the byte that it lies in is put
together anew, of which the other bits are kept.
-/

namespace YlUtils

/-- The pointer to the bytes, which may be null, and the number of bits. -/
structure BitVector where
  mBuffer : Option Bytes
  mSize : UInt32
  deriving DecidableEq, Repr

namespace BitVector

def alloc (n : ℕ) (mem : ℕ → UInt8) : Bytes := (List.range n).map mem

def bufferSize (size : UInt32) : ℕ := (size / 8 + 1).toNat

def new (size : UInt32) (mem : ℕ → UInt8) : BitVector where
  mBuffer := if size ≠ 0 then some (alloc (bufferSize size) mem) else none
  mSize := size

def size (v : BitVector) : ℕ := v.mSize.toNat

/-- `get`; it is undefined where there is no byte to read. -/
def get (v : BitVector) (n : UInt32) : Option Bool := do
  let buffer ← v.mBuffer
  let byte ← buffer[(n >>> 3).toNat]?
  some (decide (byte.toUInt32 &&& 128 >>> (n &&& 7) ≠ 0))

def set (v : BitVector) (val : Bool) (n : UInt32) : Option BitVector := do
  let buffer ← v.mBuffer
  let byte ← buffer[(n / 8).toNat]?
  let i := byte.toUInt32
  let m := n % 8
  let byte :=
    if val then (i ||| 128 >>> m).toUInt8
    else ((127 >>> m &&& i) ||| i >>> (8 - m) <<< (8 - m)).toUInt8
  some { v with mBuffer := some (buffer.set (n / 8).toNat byte) }

def bitOf (buffer : Bytes) (n : ℕ) : Option Bool := (buffer[n / 8]?).map (bitAt · (n % 8))

def Allocated (v : BitVector) : Prop := ∃ b, v.mBuffer = some b ∧ b.length = bufferSize v.mSize

/-- The value with which a position is set last. -/
def lastSet (calls : List (Bool × UInt32)) (m : UInt32) : Option Bool :=
  (calls.reverse.find? fun c => c.2 = m).map Prod.fst

variable {v : BitVector} {b : Bytes} {n m : UInt32}

section Positions

theorem toNat_div_eight (n : UInt32) : (n / 8).toNat = n.toNat / 8 := UInt32.toNat_div n 8

theorem toNat_mod_eight (n : UInt32) : (n % 8).toNat = n.toNat % 8 := UInt32.toNat_mod n 8

theorem toNat_shiftRight_three (n : UInt32) : (n >>> 3).toNat = n.toNat / 8 := by
  have hmod : (3 : UInt32).toNat % 32 = 3 := rfl
  rw [UInt32.toNat_shiftRight, hmod, Nat.shiftRight_eq_div_pow]

theorem toNat_and_seven (n : UInt32) : (n &&& 7).toNat = n.toNat % 8 := by
  have hseven : (7 : UInt32).toNat = 2 ^ 3 - 1 := rfl
  rw [UInt32.toNat_and, hseven, Nat.and_two_pow_sub_one_eq_mod]

theorem bufferSize_eq (size : UInt32) : bufferSize size = size.toNat / 8 + 1 := by
  have hlt := size.toNat_lt
  have hone : (1 : UInt32).toNat = 1 := rfl
  rw [bufferSize, UInt32.toNat_add, toNat_div_eight, hone]
  omega

@[simp] theorem length_alloc (n : ℕ) (mem : ℕ → UInt8) : (alloc n mem).length = n := by
  simp [alloc]

theorem div_lt_bufferSize {size : UInt32} (h : n < size) : n.toNat / 8 < bufferSize size := by
  have hlt := UInt32.lt_iff_toNat_lt.mp h
  rw [bufferSize_eq]
  omega

end Positions

section Bits

theorem get_eq (v : BitVector) (n : UInt32) :
    v.get n = v.mBuffer.bind fun b => bitOf b n.toNat := by
  rw [get]
  cases v.mBuffer with
  | none => rfl
  | some b =>
    change (b[(n >>> 3).toNat]?).bind _ = (b[n.toNat / 8]?).map _
    rw [toNat_shiftRight_three]
    cases b[n.toNat / 8]? with
    | none => rfl
    | some c =>
      have hbit : (n &&& 7).toNat < 8 := by
        rw [toNat_and_seven]
        omega
      have hmask : decide (c.toUInt32 &&& 128 >>> (n &&& 7) ≠ 0) = bitAt c (n.toNat % 8) := by
        rw [Bool.eq_iff_iff, decide_eq_true_eq, and_mask_ne_zero hbit, toNat_and_seven]
      rw [Option.bind_some, Option.map_some, hmask]

theorem get_isSome_iff : (v.get n).isSome ↔ ∃ b, v.mBuffer = some b ∧ n.toNat / 8 < b.length := by
  rw [get_eq]
  cases v.mBuffer with
  | none => simp
  | some b => simp [bitOf]

theorem bitOf_set {k : ℕ} (hk : k / 8 < b.length) {byte : UInt8} {val : Bool}
    (hbyte : ∀ j < 8, bitAt byte j = if j = k % 8 then val else bitAt b[k / 8] j) (m : ℕ) :
    bitOf (b.set (k / 8) byte) m = if m = k then some val else bitOf b m := by
  unfold bitOf
  by_cases hplace : m / 8 = k / 8
  · have hsame : m % 8 = k % 8 ↔ m = k := by omega
    rw [hplace, List.getElem?_set_self hk, List.getElem?_eq_getElem hk, Option.map_some,
      Option.map_some, hbyte (m % 8) (by omega)]
    simp only [hsame]
    split <;> rfl
  · rw [List.getElem?_set_ne (Ne.symm hplace), if_neg fun h => hplace (by rw [h])]

theorem set_spec (hb : v.mBuffer = some b) (hn : n.toNat / 8 < b.length) (val : Bool) :
    Succeeds (v.set val n) fun v' => v'.mSize = v.mSize ∧ ∃ b', v'.mBuffer = some b' ∧
      b'.length = b.length ∧
        ∀ m : ℕ, bitOf b' m = if m = n.toNat then some val else bitOf b m := by
  have hbyte : b[(n / 8).toNat]? = some b[n.toNat / 8] := by
    rw [toNat_div_eight]
    exact List.getElem?_eq_getElem hn
  have hbit : (n % 8).toNat < 8 := by
    rw [toNat_mod_eight]
    omega
  rw [set, hb]
  change Succeeds ((b[(n / 8).toNat]?).bind _) _
  rw [hbyte, Option.bind_some, succeeds_some]
  refine ⟨rfl, _, rfl, List.length_set, fun m => ?_⟩
  rw [toNat_div_eight]
  refine bitOf_set hn (fun j hj => ?_) m
  rw [← toNat_mod_eight]
  cases val with
  | true => exact bitAt_or_mask hbit hj
  | false => exact bitAt_split hbit hj

end Bits

section Runs

theorem new_allocated {size : UInt32} (h : 0 < size) (mem : ℕ → UInt8) :
    (new size mem).Allocated :=
  ⟨alloc (bufferSize size) mem, if_pos (UInt32.pos_iff_ne_zero.mp h), length_alloc _ _⟩

theorem Allocated.set (h : v.Allocated) (hn : n < v.mSize) (val : Bool) :
    Succeeds (v.set val n) fun v' => v'.Allocated ∧ v'.mSize = v.mSize ∧
      ∀ m, v'.get m = if m = n then some val else v.get m := by
  obtain ⟨b, hb, hlen⟩ := h
  refine (set_spec hb (hlen ▸ div_lt_bufferSize hn) val).mono ?_
  rintro v' ⟨hsize, b', hb', hlen', hbits⟩
  refine ⟨⟨b', hb', by rw [hlen', hlen, hsize]⟩, hsize, fun m => ?_⟩
  rw [get_eq, get_eq, hb', hb]
  change bitOf b' m.toNat = if m = n then some val else bitOf b m.toNat
  rw [hbits]
  simp only [UInt32.toNat_inj]

theorem lastSet_cons (c : Bool × UInt32) (cs : List (Bool × UInt32)) (m : UInt32) :
    lastSet (c :: cs) m = (lastSet cs m).or (if m = c.2 then some c.1 else none) := by
  unfold lastSet
  rw [List.reverse_cons, List.find?_append, Option.map_or]
  by_cases h : c.2 = m
  · simp [h]
  · simp [h, Ne.symm h]

theorem Allocated.sets (h : v.Allocated) {calls : List (Bool × UInt32)}
    (hcalls : ∀ c ∈ calls, c.2 < v.mSize) :
    Succeeds (calls.foldlM (fun v c => v.set c.1 c.2) v) fun v' =>
      v'.Allocated ∧ v'.mSize = v.mSize ∧ ∀ m, v'.get m = (lastSet calls m).or (v.get m) := by
  induction calls generalizing v with
  | nil => exact ⟨v, rfl, h, rfl, fun m => rfl⟩
  | cons c cs ih =>
    rw [List.foldlM_cons]
    refine (h.set (hcalls c List.mem_cons_self) c.1).bind ?_
    rintro v₁ ⟨h₁, hsize₁, hget₁⟩
    refine (ih h₁ fun c' hc' => hsize₁ ▸ hcalls c' (List.mem_cons_of_mem c hc')).mono ?_
    rintro v' ⟨h', hsize', hget'⟩
    refine ⟨h', hsize'.trans hsize₁, fun m => ?_⟩
    rw [hget', hget₁, lastSet_cons, Option.or_assoc]
    congr 1
    split <;> rfl

end Runs

end BitVector

end YlUtils
