import Mathlib.Data.Nat.Digits.Defs
import YlUtils.Text.Ascii

/-! # Reading numbers

What the integer conversions of `sscanf` read: blanks, a sign, for `%x` a prefix, and
as many digits as there are.
-/

namespace YlUtils.Scan

/-- In the locale a program starts in. -/
def isspace (c : UInt8) : Bool := c = 32 || (9 ≤ c && c ≤ 13)

def isDigit (base : ℕ) (c : UInt8) : Bool := isxdigit c && (xdigitToNum c).toNat < base

def number (base : ℕ) (ds : Bytes) : ℕ :=
  Nat.ofDigits base (ds.reverse.map fun c => (xdigitToNum c).toNat)

def scanDigits (base : ℕ) (s : Bytes) : Option ℕ :=
  let s := if base = 16 ∧ (s.take 2 = [48, 120] ∨ s.take 2 = [48, 88]) then s.drop 2 else s
  let ds := s.takeWhile (isDigit base)
  if ds = [] then none else some (number base ds)

/-- The number at the beginning of the text, unless there is none. -/
def scan (base : ℕ) (s : Bytes) : Option ℤ :=
  match s.dropWhile isspace with
  | 45 :: s => (scanDigits base s).map fun n => -(n : ℤ)
  | 43 :: s => (scanDigits base s).map fun n => (n : ℤ)
  | s => (scanDigits base s).map fun n => (n : ℤ)

def Digits (base : ℕ) (ds : Bytes) : Prop := ds ≠ [] ∧ ∀ c ∈ ds, isDigit base c = true

instance (base : ℕ) (ds : Bytes) : Decidable (Digits base ds) :=
  inferInstanceAs (Decidable (_ ∧ _))

variable {base : ℕ} {ds : Bytes} {c x : UInt8}

theorem isxdigit_ge : ∀ c : UInt8, isxdigit c = true → 48 ≤ c.toNat := by decide +kernel

theorem isspace_of_ge : ∀ c : UInt8, 48 ≤ c.toNat → isspace c = false := by decide +kernel

theorem isDigit_ge (h : isDigit base c = true) : 48 ≤ c.toNat := by
  simp only [isDigit, Bool.and_eq_true] at h
  exact isxdigit_ge c h.1

theorem number_zero_cons (base : ℕ) (ds : Bytes) : number base (48 :: ds) = number base ds := by
  rw [number, number, List.reverse_cons, List.map_append]
  exact Nat.ofDigits_append_zero _

theorem scanDigits_of_digits (hb : base ≠ 16) (h : Digits base ds) :
    scanDigits base ds = some (number base ds) := by
  unfold scanDigits
  simp only [hb, false_and, if_false]
  rw [List.takeWhile_eq_self_iff.mpr h.2, if_neg h.1]

theorem scanDigits_hex (hx : x = 88 ∨ x = 120) (h : Digits 16 ds) :
    scanDigits 16 (48 :: x :: ds) = some (number 16 ds) := by
  have hmark : (48 :: x :: ds).take 2 = [48, 120] ∨ (48 :: x :: ds).take 2 = [48, 88] := by
    rcases hx with rfl | rfl <;> simp
  unfold scanDigits
  simp only [hmark, true_and, if_true, List.drop_succ_cons, List.drop_zero]
  rw [List.takeWhile_eq_self_iff.mpr h.2, if_neg h.1]

theorem scan_minus (ds : Bytes) :
    scan base (45 :: ds) = (scanDigits base ds).map fun n => -(n : ℤ) := rfl

theorem scan_plus (ds : Bytes) :
    scan base (43 :: ds) = (scanDigits base ds).map fun n => (n : ℤ) := rfl

theorem scan_digit {b : ℕ} (hc : isDigit b c = true) (ds : Bytes) :
    scan base (c :: ds) = (scanDigits base (c :: ds)).map fun n => (n : ℤ) := by
  have hge := isDigit_ge hc
  have hspace := isspace_of_ge c hge
  unfold scan
  rw [List.dropWhile_cons_of_neg (by rw [hspace]; exact Bool.false_ne_true)]
  split
  · next h =>
    cases h
    exact absurd hge (by decide)
  · next h =>
    cases h
    exact absurd hge (by decide)
  · rfl

end YlUtils.Scan
