import Mathlib.Data.Nat.Digits.Defs
import YlUtils.Text.CString

/-! # Decimal numbers

Numbers as `%d` and the stream operators write them. Different numbers have
different texts.
-/

namespace YlUtils

def decimalNat (n : ℕ) : Bytes :=
  if n = 0 then [48] else (Nat.digits 10 n).reverse.map fun d => .ofNat (48 + d)

def decimal (z : ℤ) : Bytes := if z < 0 then 45 :: decimalNat z.natAbs else decimalNat z.natAbs

def decimalValue (s : Bytes) : ℕ := s.foldr (fun c n => (c.toNat - 48) + 10 * n) 0

theorem mem_decimalNat {c : UInt8} {n : ℕ} (h : c ∈ decimalNat n) :
    48 ≤ c.toNat ∧ c.toNat < 58 := by
  unfold decimalNat at h
  split at h
  · rw [List.mem_singleton.mp h]
    decide
  · obtain ⟨d, hd, rfl⟩ := List.mem_map.mp h
    have hlt := Nat.digits_lt_base (show 1 < 10 by decide) (List.mem_reverse.mp hd)
    rw [UInt8.toNat_ofNat_of_lt' (by change _ < 256; omega)]
    omega

theorem mem_decimal {c : UInt8} {z : ℤ} (h : c ∈ decimal z) :
    c = 45 ∨ (48 ≤ c.toNat ∧ c.toNat < 58) := by
  unfold decimal at h
  split at h
  · rcases List.mem_cons.mp h with rfl | h
    · exact .inl rfl
    · exact .inr (mem_decimalNat h)
  · exact .inr (mem_decimalNat h)

/-- What stands before and behind the first separator. -/
theorem append_separator_inj {c : UInt8} {a a' b b' : Bytes} (ha : c ∉ a) (ha' : c ∉ a')
    (h : a ++ c :: b = a' ++ c :: b') : a = a' ∧ b = b' := by
  induction a generalizing a' with
  | nil =>
    cases a' with
    | nil => exact ⟨rfl, (List.cons.inj h).2⟩
    | cons x a' => exact absurd (List.cons.inj h).1 fun hx => ha' (hx ▸ List.mem_cons_self)
  | cons x a ih =>
    cases a' with
    | nil => exact absurd (List.cons.inj h).1 fun hx => ha (hx ▸ List.mem_cons_self)
    | cons y a' =>
      obtain ⟨rfl, hrest⟩ := List.cons.inj h
      obtain ⟨rfl, hb⟩ := ih (fun hc => ha (List.mem_cons_of_mem _ hc))
        (fun hc => ha' (List.mem_cons_of_mem _ hc)) hrest
      exact ⟨rfl, hb⟩

theorem decimalValue_decimalNat (n : ℕ) : decimalValue (decimalNat n).reverse = n := by
  unfold decimalNat
  split
  · next h => rw [h]; rfl
  · have hfold : ∀ l : List ℕ, (∀ d ∈ l, d < 10) →
        decimalValue (l.map fun d => .ofNat (48 + d)) = Nat.ofDigits 10 l := by
      intro l hl
      induction l with
      | nil => rfl
      | cons d l ih =>
        have hd := hl d List.mem_cons_self
        have ih := ih fun x hx => hl x (List.mem_cons_of_mem d hx)
        rw [Nat.ofDigits_cons, ← ih, List.map_cons, decimalValue, List.foldr_cons,
          UInt8.toNat_ofNat_of_lt' (by change _ < 256; omega), Nat.add_sub_cancel_left]
        rfl
    rw [List.map_reverse, List.reverse_reverse,
      hfold _ fun d hd => Nat.digits_lt_base (by decide) hd, Nat.ofDigits_digits]

theorem decimal_separator {c : UInt8} (hc : c ≠ 45 ∧ ¬(48 ≤ c.toNat ∧ c.toNat < 58)) (z : ℤ) :
    c ∉ decimal z := fun h => (mem_decimal h).elim hc.1 hc.2

theorem decimalNat_injective : Function.Injective decimalNat := by
  intro m n h
  rw [← decimalValue_decimalNat m, h, decimalValue_decimalNat]

theorem decimal_injective : Function.Injective decimal := by
  intro x y h
  have hsign : ∀ {n : ℕ} {s : Bytes}, decimalNat n ≠ 45 :: s := by
    rintro n s hn
    have hdigit := mem_decimalNat (hn ▸ List.mem_cons_self : (45 : UInt8) ∈ decimalNat n)
    exact absurd hdigit.1 (by decide)
  unfold decimal at h
  split at h <;> split at h
  · have habs := decimalNat_injective (List.cons.inj h).2
    omega
  · exact absurd h.symm hsign
  · exact absurd h hsign
  · have habs := decimalNat_injective h
    omega

end YlUtils
