import Mathlib.Algebra.Group.Nat.Defs
import Mathlib.Data.List.Basic
import YlUtils.Machine.Words

/-! # Plain data in memory

A value of plain data is the bytes that it occupies. The members of a structure
follow one another, with padding where one has to be aligned, and so do the
elements of an array.
-/

namespace YlUtils

/-- How the values of a type lie in memory. -/
structure Representation (α : Type) where
  size : ℕ
  bytes : α → Bytes
  value : Bytes → α
  /-- The values that the machine's type has. -/
  Fits : α → Prop
  length_bytes : ∀ a, (bytes a).length = size
  value_bytes : ∀ a, Fits a → ∀ t, value (bytes a ++ t) = a

namespace Representation

variable {α β : Type}

def word : Representation UInt32 where
  size := 4
  bytes := wordBytes
  value := wordAt
  Fits _ := True
  length_bytes := wordBytes_length
  value_bytes w _ := wordAt_wordBytes w

def int : Representation ℤ where
  size := 4
  bytes := intBytes
  value b := intOf (wordAt b)
  Fits n := -2 ^ 31 ≤ n ∧ n < 2 ^ 31
  length_bytes := intBytes_length
  value_bytes n h t := by
    rw [intBytes, wordAt_wordBytes, intOf_ofInt h.1 h.2]

def prod (R : Representation α) (S : Representation β) : Representation (α × β) where
  size := R.size + S.size
  bytes p := R.bytes p.1 ++ S.bytes p.2
  value b := (R.value b, S.value (b.drop R.size))
  Fits p := R.Fits p.1 ∧ S.Fits p.2
  length_bytes p := by
    rw [List.length_append, R.length_bytes, S.length_bytes]
  value_bytes p h t := by
    rw [List.append_assoc, R.value_bytes _ h.1, List.drop_left' (R.length_bytes _),
      S.value_bytes _ h.2]

def align (R : Representation α) (n : ℕ) : Representation α where
  size := R.size + (n - R.size % n) % n
  bytes a := R.bytes a ++ List.replicate ((n - R.size % n) % n) 0
  value := R.value
  Fits := R.Fits
  length_bytes a := by
    rw [List.length_append, R.length_bytes, List.length_replicate]
  value_bytes a h t := by
    rw [List.append_assoc, R.value_bytes a h]

/-- A structure that has the members of `R`. -/
def map (R : Representation α) (make : α → β) (members : β → α)
    (h : ∀ b, make (members b) = b) : Representation β where
  size := R.size
  bytes b := R.bytes (members b)
  value s := make (R.value s)
  Fits b := R.Fits (members b)
  length_bytes b := R.length_bytes _
  value_bytes b hb t := by
    rw [R.value_bytes _ hb, h]

variable (R : Representation α)

/-- The bytes of an array of `n` elements. -/
def arrayBytes (n : ℕ) (a : ℤ → α) : Bytes :=
  (List.range n).flatMap fun i => R.bytes (a (i : ℕ))

def overwrite (n : ℕ) (b : Bytes) (a : ℤ → α) : ℤ → α := fun k =>
  if 0 ≤ k ∧ k < n then R.value (b.drop (k.toNat * R.size)) else a k

/-- `fread` of `count` elements into an array, out of a file that may not exist: the array, and
whether all of them were read. -/
def fread (count : ℕ) (file : Option Bytes) (a : ℤ → α) : (ℤ → α) × Bool :=
  match file with
  | none => (a, false)
  | some b =>
    let n := min count (b.length / R.size)
    (R.overwrite n b a, n == count)

variable {R} {n : ℕ} {a b : ℤ → α}

theorem length_arrayBytes (n : ℕ) (a : ℤ → α) : (R.arrayBytes n a).length = n * R.size := by
  have hlen : ∀ l : List ℕ,
      (l.flatMap fun i => R.bytes (a (i : ℕ))).length = l.length * R.size := by
    intro l
    induction l with
    | nil => rw [List.flatMap_nil, List.length_nil, List.length_nil, Nat.zero_mul]
    | cons i l ih =>
      rw [List.flatMap_cons, List.length_append, R.length_bytes, ih, List.length_cons, Nat.succ_mul,
        Nat.add_comm]
  rw [arrayBytes, hlen, List.length_range]

theorem drop_arrayBytes {k : ℕ} (hk : k < n) (a : ℤ → α) :
    ∃ t, (R.arrayBytes n a).drop (k * R.size) = R.bytes (a k) ++ t := by
  obtain ⟨m, rfl⟩ := Nat.exists_eq_add_of_lt hk
  have hsplit : R.arrayBytes (k + m + 1) a = R.arrayBytes k a ++
      ((List.range (m + 1)).map (k + ·)).flatMap fun i => R.bytes (a (i : ℕ)) := by
    rw [arrayBytes, Nat.add_assoc, List.range_add, List.flatMap_append]
    rfl
  rw [hsplit, List.drop_left' (length_arrayBytes k a), List.range_succ_eq_map, List.map_cons,
    List.flatMap_cons]
  exact ⟨_, rfl⟩

theorem arrayBytes_eq_iff :
    R.arrayBytes n a = R.arrayBytes n b ↔
      ∀ k : ℤ, 0 ≤ k → k < n → R.bytes (a k) = R.bytes (b k) := by
  constructor
  · intro h k h₀ hk
    obtain ⟨s, hs⟩ := drop_arrayBytes (R := R) (k := k.toNat) (n := n) (by omega) a
    obtain ⟨t, ht⟩ := drop_arrayBytes (R := R) (k := k.toNat) (n := n) (by omega) b
    rw [Int.toNat_of_nonneg h₀] at hs ht
    rw [h, ht] at hs
    exact (List.append_inj_left hs (by rw [R.length_bytes, R.length_bytes])).symm
  · intro h
    refine List.flatMap_congr fun i hi => ?_
    exact h i (Int.natCast_nonneg i) (Int.ofNat_lt.mpr (List.mem_range.mp hi))

theorem eq_of_bytes {x y : α} (hx : R.Fits x) (hy : R.Fits y) (h : R.bytes x = R.bytes y) :
    x = y := by
  rw [← R.value_bytes x hx [], h, R.value_bytes y hy]

theorem overwrite_arrayBytes {k : ℤ} (h₀ : 0 ≤ k) (hk : k < n) (hfits : R.Fits (a k)) :
    R.overwrite n (R.arrayBytes n a) b k = a k := by
  obtain ⟨t, ht⟩ := drop_arrayBytes (R := R) (k := k.toNat) (n := n) (by omega) a
  rw [Int.toNat_of_nonneg h₀] at ht
  rw [overwrite, if_pos ⟨h₀, hk⟩, ht, R.value_bytes _ hfits]

theorem fread_arrayBytes (hsize : 0 < R.size) (n : ℕ) (a b : ℤ → α) :
    R.fread n (some (R.arrayBytes n a)) b = (R.overwrite n (R.arrayBytes n a) b, true) := by
  have hlen : min n ((R.arrayBytes n a).length / R.size) = n := by
    rw [length_arrayBytes, Nat.mul_div_cancel n hsize, min_self]
  simp only [fread, hlen, beq_self_eq_true]

variable {file : Option Bytes}

theorem fread_true_iff (hsize : 0 < R.size) :
    (R.fread n file a).2 = true ↔ ∃ b, file = some b ∧ n * R.size ≤ b.length := by
  cases file with
  | none => simp [fread]
  | some b =>
    simp only [fread, beq_iff_eq, Option.some_inj, exists_eq_left']
    rw [← Nat.le_div_iff_mul_le hsize]
    exact ⟨fun h => h ▸ Nat.min_le_right n _, Nat.min_eq_left⟩

theorem fread_rest (hn : 0 < n) (h : (R.fread n file a).2 = false) :
    ∃ k : ℤ, 0 ≤ k ∧ k < n ∧ ∀ b, (R.fread n file b).1 k = b k := by
  cases file with
  | none => exact ⟨0, Int.le_refl 0, by omega, fun _ => rfl⟩
  | some t =>
    have hlt : min n (t.length / R.size) < n := by
      simp only [fread, beq_eq_false_iff_ne] at h
      omega
    refine ⟨(min n (t.length / R.size) : ℕ), Int.natCast_nonneg _, Int.ofNat_lt.mpr hlt,
      fun b => ?_⟩
    exact if_neg fun hk => Int.lt_irrefl _ hk.2

end Representation

/-- A type of plain data, with its alignment. All its values are the machine's. -/
structure PlainData (α : Type) extends Representation α where
  alignment : ℕ
  fits : ∀ a, Fits a

def PlainData.byte : PlainData UInt8 where
  size := 1
  bytes a := [a]
  value b := b.headD 0
  Fits _ := True
  length_bytes _ := rfl
  value_bytes _ _ _ := rfl
  alignment := 1
  fits _ := trivial

end YlUtils
