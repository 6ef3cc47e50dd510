import YlUtils.Conf.Config
import YlUtils.Machine.Words
import YlUtils.Text.Scan

/-! # Numbers in the configuration

Both functions choose a conversion by the beginning of the text. `%o` and `%x` store
an `unsigned int`, which is all of an `int` but the low half of a `long`.
-/

namespace YlUtils.Config

open Scan

/-- `sscanf` with a signed conversion, undefined if the number is not below the bound. -/
def sscanfSigned (bound : ℤ) (s : Bytes) (value : ℤ) : Option ℤ :=
  match scan 10 s with
  | none => some value
  | some z => if -bound ≤ z ∧ z < bound then some z else none

/-- `sscanf` with `%o` or `%x`, undefined if the number is no `unsigned int`; the bytes are stored
with `store`. -/
def sscanfUnsigned (base : ℕ) (s : Bytes) (store : ℤ → Bytes → ℤ) (value : ℤ) : Option ℤ :=
  match scan base s with
  | none => some value
  | some z => if z.natAbs < 2 ^ 32 then some (store value (wordBytes (.ofInt z))) else none

/-- `getValueOfLong` and `getValueOfInt`: what is returned and the value then, undefined as `sscanf`
is. They differ in the first conversion and in the bytes of the value. -/
def getValueOf (bound : ℤ) (store : ℤ → Bytes → ℤ) (c : Config) (value : ℤ) (name : Bytes) :
    Option (Bool × ℤ) :=
  let (found, sValue) := c.getValue [] name
  if ¬ found then some (false, value)
  else if sValue.getD 0 0 ≠ 48 ∨ sValue.length ≤ 1 then
    (sscanfSigned bound (cstr sValue) value).map (true, ·)
  else if sValue.getD 1 0 ≠ 88 ∧ sValue.getD 1 0 ≠ 120 then
    (sscanfUnsigned 8 (cstr sValue) store value).map (true, ·)
  else (sscanfUnsigned 16 (cstr sValue) store value).map (true, ·)

def getValueOfLong : Config → ℤ → Bytes → Option (Bool × ℤ) :=
  getValueOf (2 ^ 63) fun value b => longOf (overwriteLong (.ofInt value) b)

def getValueOfInt : Config → ℤ → Bytes → Option (Bool × ℤ) := getValueOf (2 ^ 31) overwriteInt

inductive Radix
  | decimal
  | octal
  | hexadecimal
  deriving DecidableEq

/-- The text is a numeral and denotes the number. Without a sign a decimal numeral does not begin
with `0`, unless that is all. -/
inductive Numeral : Bytes → Radix → ℤ → Prop
  | zero : Numeral [48] .decimal 0
  | unsigned (c : UInt8) (ds : Bytes) (hc : c ≠ 48) (h : Digits 10 (c :: ds)) :
    Numeral (c :: ds) .decimal (number 10 (c :: ds))
  | plus (ds : Bytes) (h : Digits 10 ds) : Numeral (43 :: ds) .decimal (number 10 ds)
  | minus (ds : Bytes) (h : Digits 10 ds) : Numeral (45 :: ds) .decimal (-number 10 ds)
  | octal (ds : Bytes) (h : Digits 8 ds) : Numeral (48 :: ds) .octal (number 8 ds)
  | hexadecimal (x : UInt8) (ds : Bytes) (hx : x = 88 ∨ x = 120) (h : Digits 16 ds) :
    Numeral (48 :: x :: ds) .hexadecimal (number 16 ds)

/-- `getValueOfLong` gives the number, whatever the variable held before, and so does
`getValueOfInt` if the number is an `int`. -/
def Agrees (c : Config) (name : Bytes) (n : ℤ) : Prop :=
  (∀ value value', c.getValueOfLong value name = c.getValueOfLong value' name) ∧
    (∀ value, c.getValueOfLong value name = some (true, n)) ∧
    (-2 ^ 31 ≤ n → n < 2 ^ 31 → ∀ value value',
      c.getValueOfInt value name = c.getValueOfLong value' name)

def Radix.base : Radix → ℕ
  | .decimal => 10
  | .octal => 8
  | .hexadecimal => 16

section Numeral

variable {text name : Bytes} {radix : Radix} {n : ℤ} {c : Config}

theorem Numeral.scan (h : Numeral text radix n) : Scan.scan radix.base text = some n := by
  cases h with
  | zero => rfl
  | unsigned d ds hd h =>
    rw [Radix.base, scan_digit (h.2 d List.mem_cons_self), scanDigits_of_digits (by decide) h]
    rfl
  | plus ds h =>
    rw [Radix.base, scan_plus, scanDigits_of_digits (by decide) h]
    rfl
  | minus ds h =>
    rw [Radix.base, scan_minus, scanDigits_of_digits (by decide) h]
    rfl
  | octal ds h =>
    have hzero : Digits 8 (48 :: ds) :=
      ⟨List.cons_ne_nil _ _, List.forall_mem_cons.mpr ⟨by decide, h.2⟩⟩
    rw [Radix.base, scan_digit (b := 8) (by decide), scanDigits_of_digits (by decide) hzero,
      number_zero_cons]
    rfl
  | hexadecimal x ds hx h =>
    rw [Radix.base, scan_digit (b := 8) (by decide), scanDigits_hex hx h]
    rfl

theorem Numeral.zero_notMem (h : Numeral text radix n) : 0 ∉ text := by
  have hdigits : ∀ {base : ℕ} {ds : Bytes}, Digits base ds → 0 ∉ ds := fun hds h0 =>
    absurd (isDigit_ge (hds.2 0 h0)) (by decide)
  cases h with
  | zero => decide
  | unsigned d ds hd h => exact hdigits h
  | plus ds h => simpa using hdigits h
  | minus ds h => simpa using hdigits h
  | octal ds h => simpa using hdigits h
  | hexadecimal x ds hx h => rcases hx with rfl | rfl <;> simpa using hdigits h

theorem getValueOf_numeral (hstored : c.mNameValue.find name = some text)
    (h : Numeral text radix n) (bound : ℤ) (store : ℤ → Bytes → ℤ) (value : ℤ) :
    getValueOf bound store c value name =
      (match radix with
        | .decimal => sscanfSigned bound text value
        | _ => sscanfUnsigned radix.base text store value).map (true, ·) := by
  have hcstr := cstr_eq_self h.zero_notMem
  have hget : c.getValue [] name = (true, text) := by rw [getValue, hstored]
  unfold getValueOf
  rw [hget]
  dsimp only
  rw [if_neg (by simp), hcstr]
  cases h with
  | zero => rfl
  | unsigned d ds hd h => exact if_pos (.inl hd)
  | plus ds h => rfl
  | minus ds h => rfl
  | octal ds h =>
    have hx : ∀ d ∈ ds, d ≠ 88 ∧ d ≠ 120 := by
      intro d hd
      have hdigit := h.2 d hd
      constructor <;>
      · rintro rfl
        exact absurd hdigit (by decide)
    obtain ⟨d, ds, rfl⟩ := List.exists_cons_of_ne_nil h.1
    rw [if_neg (by simp)]
    exact if_pos (hx d List.mem_cons_self)
  | hexadecimal x ds hx h =>
    rw [if_neg (by simp), if_neg (by rcases hx with rfl | rfl <;> simp)]
    rfl

theorem Numeral.nonneg (h : Numeral text radix n) (hradix : radix ≠ .decimal) : 0 ≤ n := by
  cases h with
  | octal ds h | hexadecimal x ds hx h => exact Int.natCast_nonneg _
  | _ => exact absurd rfl hradix

theorem sscanfSigned_decimal (h : Numeral text .decimal n) {bound : ℤ} (hlow : -bound ≤ n)
    (hhigh : n < bound) (value : ℤ) : sscanfSigned bound text value = some n := by
  have hscan := h.scan
  rw [Radix.base] at hscan
  rw [sscanfSigned, hscan]
  exact if_pos ⟨hlow, hhigh⟩

/-- `getValueOfLong` does what it should exactly with decimal numerals: an octal or a hexadecimal
one leaves the high half of the variable as it was. -/
theorem agrees_iff_decimal (hstored : c.mNameValue.find name = some text)
    (h : Numeral text radix n) (hlow : -2 ^ 63 ≤ n) (hhigh : n < 2 ^ 63) :
    c.Agrees name n ↔ radix = .decimal := by
  constructor
  · rintro ⟨-, hvalue, -⟩
    by_contra hradix
    have hminus := hvalue (-1)
    have hnonneg := h.nonneg hradix
    rw [getValueOfLong, getValueOf_numeral hstored h] at hminus
    have hunsigned : (sscanfUnsigned radix.base text
        (fun value b => longOf (overwriteLong (.ofInt value) b)) (-1)) = some n := by
      cases radix with
      | decimal => exact absurd rfl hradix
      | _ => simpa using hminus
    rw [sscanfUnsigned, h.scan] at hunsigned
    dsimp only at hunsigned
    split at hunsigned
    · have hneg := longOf_overwriteLong_neg (.ofInt n)
      rw [Option.some.inj hunsigned] at hneg
      omega
    · exact absurd hunsigned (by simp)
  · rintro rfl
    have hlong : ∀ value, c.getValueOfLong value name = some (true, n) := by
      intro value
      rw [getValueOfLong, getValueOf_numeral hstored h]
      exact congrArg (Option.map _) (sscanfSigned_decimal h hlow hhigh value)
    refine ⟨fun value value' => (hlong value).trans (hlong value').symm, hlong, ?_⟩
    intro hlow' hhigh' value value'
    rw [hlong, getValueOfInt, getValueOf_numeral hstored h]
    exact congrArg (Option.map _) (sscanfSigned_decimal h hlow' hhigh' value)

theorem agrees_iff_decimal_twelve :
    (⟨[], UniqueMap.empty.insert [97] [49, 50]⟩ : Config).Agrees [97] 12 ↔
      Radix.decimal = .decimal :=
  @agrees_iff_decimal [49, 50] _ _ _ _ rfl (.unsigned 49 [50] (by decide) (by decide +kernel))
    (by omega) (by omega)

/-- With `010` the high half of the variable is left. -/
theorem not_agrees :
    ¬ ∀ (c : Config) (name text : Bytes) (radix : Radix) (n : ℤ),
      c.mNameValue.find name = some text → Numeral text radix n → -2 ^ 63 ≤ n → n < 2 ^ 63 →
      c.Agrees name n := by
  intro hall
  have hagrees := hall ⟨[], UniqueMap.empty.insert [97] [48, 49, 48]⟩ [97] [48, 49, 48] .octal 8 rfl
    (.octal [49, 48] (by decide +kernel)) (by omega) (by omega)
  have hleft := hagrees.2.1 (2 ^ 32)
  exact absurd hleft (by decide +kernel)

end Numeral

end YlUtils.Config
