import Mathlib.Data.FinEnum
import YlUtils.Text.CString

/-! # Character functions

The functions of the C library on single characters, and the comparison of
strings without regard to case, in the locale a program starts in.
-/

namespace YlUtils

def toupper (c : UInt8) : UInt8 := if 97 ≤ c ∧ c ≤ 122 then c - 32 else c

def tolower (c : UInt8) : UInt8 := if 65 ≤ c ∧ c ≤ 90 then c + 32 else c

def isxdigit (c : UInt8) : Bool :=
  (48 ≤ c && c ≤ 57) || (65 ≤ c && c ≤ 70) || (97 ≤ c && c ≤ 102)

def xdigitToNum (h : UInt8) : UInt8 := if h < 65 then h - 48 else toupper h - 65 + 10

def x2digitsToNum (h1 h2 : UInt8) : UInt8 := (xdigitToNum h1 <<< 4) + xdigitToNum h2

def xnumToDigit (x : UInt8) : UInt8 :=
  #[48, 49, 50, 51, 52, 53, 54, 55, 56, 57, 65, 66, 67, 68, 69, 70].getD x.toNat 0

/-- The comparison of two texts, which a C string ends with a zero. -/
def strcasecmp : Bytes → Bytes → ℤ
  | [], [] => 0
  | [], b :: _ => -(tolower b).toNat
  | a :: _, [] => (tolower a).toNat
  | a :: as, b :: bs =>
    if tolower a = tolower b then strcasecmp as bs
    else (tolower a).toNat - (tolower b).toNat

def SameName (a b : Bytes) : Prop := a.map tolower = b.map tolower

instance (a b : Bytes) : Decidable (SameName a b) := inferInstanceAs (Decidable (_ = _))

theorem tolower_ne_zero : ∀ c : UInt8, c ≠ 0 → (tolower c).toNat ≠ 0 := by decide +kernel

theorem strcasecmp_antisymm (a b : Bytes) : strcasecmp b a = -strcasecmp a b := by
  induction a generalizing b with
  | nil => cases b <;> simp [strcasecmp]
  | cons x a ih =>
    cases b with
    | nil => simp [strcasecmp]
    | cons y b =>
      unfold strcasecmp
      by_cases h : tolower x = tolower y
      · rw [if_pos h, if_pos h.symm, ih]
      · rw [if_neg h, if_neg (Ne.symm h)]
        omega

theorem strcasecmp_eq_zero {a b : Bytes} (ha : 0 ∉ a) (hb : 0 ∉ b) :
    strcasecmp a b = 0 ↔ SameName a b := by
  unfold SameName
  induction a generalizing b with
  | nil =>
    cases b with
    | nil => simp [strcasecmp]
    | cons y b =>
      have hy := tolower_ne_zero y fun h => hb (by simp [h])
      simpa [strcasecmp] using hy
  | cons x a ih =>
    cases b with
    | nil =>
      have hx := tolower_ne_zero x fun h => ha (by simp [h])
      simpa [strcasecmp] using hx
    | cons y b =>
      have hi := ih (fun h => ha (List.mem_cons_of_mem x h)) fun h => hb (List.mem_cons_of_mem y h)
      unfold strcasecmp
      by_cases h : tolower x = tolower y
      · rw [if_pos h, hi, List.map_cons, List.map_cons, h, List.cons.injEq]
        simp
      · rw [if_neg h, List.map_cons, List.map_cons, List.cons.injEq]
        have hn : (tolower x).toNat ≠ (tolower y).toNat := fun he => h (UInt8.toNat_inj.mp he)
        constructor
        · intro he
          omega
        · intro he
          exact absurd he.1 h

end YlUtils
