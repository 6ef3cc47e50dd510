import Mathlib.Data.Nat.GCD.Basic
import YlUtils.Ciphers.InPlace
import YlUtils.Encoding.Xxtea
import YlUtils.Runs.Succeeds

/-! # Decryption inverts encryption

The loops of XXTEA add to each word in turn a value of its two neighbours, which
the loop variables `z` and `y` carry along. They are therefore the rounds of a
cipher in place, and the decryption runs the same rounds backwards: its sum
reaches zero after exactly as many rounds as the encryption made.
-/

namespace YlUtils.Xxtea

open InPlace

variable {v w k : Words} {n p : ℕ} {sum x : UInt32}

/-- The words as a table, with zeros past their end. -/
def cells (v : Words) (i : ℕ) : UInt32 := v.getD i 0

theorem getElem?_eq_cells (hp : p < v.length) : v[p]? = some (cells v p) := by
  simp [cells, hp]

theorem cells_set (hp : p < v.length) (x : UInt32) :
    cells (v.set p x) = Function.update (cells v) p x := by
  funext i
  by_cases hi : i = p
  · simp [cells, hi, hp]
  · simp [cells, hi, List.getElem?_set_ne (Ne.symm hi)]

theorem eq_of_cells (hl : v.length = w.length) (h : cells v = cells w) : v = w := by
  apply List.ext_getElem? 
  intro i
  by_cases hi : i < v.length
  · rw [getElem?_eq_cells hi, getElem?_eq_cells (hl ▸ hi), h]
  · rw [List.getElem?_eq_none (by omega), List.getElem?_eq_none (by omega)]

section Rounds

def prev (n i : ℕ) : ℕ := if i = 0 then n else i - 1

def next (n i : ℕ) : ℕ := if i = n then 0 else i + 1

/-- What a round adds to word `p`. -/
def mixed (k : Words) (n : ℕ) (sum : UInt32) (c : ℕ → UInt32) (p : ℕ) : UInt32 :=
  (mx (c (prev n p)) (c (next n p)) sum (.ofNat p) (sum >>> 2 &&& 3) k).getD 0

theorem mixed_blind (hn : 0 < n) (k : Words) (sum : UInt32) :
    Blind (mixed k n sum) p := by
  intro c x
  have hprev : prev n p ≠ p := by unfold prev; split <;> omega
  have hnext : next n p ≠ p := by unfold next; split <;> omega
  unfold mixed
  rw [Function.update_of_ne hprev, Function.update_of_ne hnext]

theorem key_index_lt (p e : UInt32) (he : e.toNat < 2 ^ 2) : ((p &&& 3) ^^^ e).toNat < 4 := by
  have hp : (p &&& 3).toNat < 2 ^ 2 := by
    rw [UInt32.toNat_and]
    exact Nat.and_lt_two_pow _ (by decide)
  rw [UInt32.toNat_xor]
  exact Nat.xor_lt_two_pow hp he

theorem mx_eq (hk : 4 ≤ k.length) (c : ℕ → UInt32) :
    mx (c (prev n p)) (c (next n p)) sum (.ofNat p) (sum >>> 2 &&& 3) k =
      some (mixed k n sum c p) := by
  have he : (sum >>> 2 &&& 3).toNat < 2 ^ 2 := by
    rw [UInt32.toNat_and]
    exact Nat.and_lt_two_pow _ (by decide)
  have hi := key_index_lt (.ofNat p) _ he
  unfold mixed mx
  rw [getElem?_eq_cells (by omega)]
  rfl

/-- What one word of a round leaves: the words `c`, of which the loop carries word `i`. -/
def Carries (n i : ℕ) (c : ℕ → UInt32) (s : Words × UInt32) : Prop :=
  s.1.length = n + 1 ∧ cells s.1 = c ∧ s.2 = c i

variable {c : ℕ → UInt32} {s : Words × UInt32}

variable (sum) in
theorem encryptOne_succeeds (hk : 4 ≤ k.length) (hp : p ≤ n) (hs : Carries n (prev n p) c s) :
    Succeeds (encryptOne k sum (sum >>> 2 &&& 3) p (next n p) s)
      (Carries n p (add (mixed k n sum) c p)) := by
  obtain ⟨hl, rfl, hz⟩ := hs
  have hnext : next n p < s.1.length := by unfold next; split <;> omega
  unfold encryptOne
  rw [getElem?_eq_cells hnext, getElem?_eq_cells (by omega), hz]
  simp only [Option.bind_eq_bind, Option.bind_some, mx_eq hk, succeeds_some]
  refine ⟨by simpa using hl, cells_set (by omega) _, ?_⟩
  simp [add]

variable (sum) in
theorem decryptOne_succeeds (hk : 4 ≤ k.length) (hp : p ≤ n) (hs : Carries n (next n p) c s) :
    Succeeds (decryptOne k sum (sum >>> 2 &&& 3) p (prev n p) s)
      (Carries n p (sub (mixed k n sum) c p)) := by
  obtain ⟨hl, rfl, hy⟩ := hs
  have hprev : prev n p < s.1.length := by unfold prev; split <;> omega
  unfold decryptOne
  rw [getElem?_eq_cells hprev, getElem?_eq_cells (by omega), hy]
  simp only [Option.bind_eq_bind, Option.bind_some, mx_eq hk, succeeds_some]
  refine ⟨by simpa using hl, cells_set (by omega) _, ?_⟩
  simp [sub]

theorem encryptFor_succeeds (hk : 4 ≤ k.length) (hs : Carries n n c s) {m : ℕ} (hm : m ≤ n) :
    Succeeds ((List.range m).foldlM
        (fun s p => encryptOne k sum (sum >>> 2 &&& 3) p (p + 1) s) s)
      (Carries n (prev n m) (addAll (mixed k n sum) (List.range m) c)) := by
  induction m with
  | zero => simpa [addAll, prev] using hs
  | succ m ih =>
    rw [List.range_succ, List.foldlM_append]
    refine (ih (by omega)).bind fun t ht => ?_
    have hstep := encryptOne_succeeds sum hk (by omega : m ≤ n) ht
    rw [next, if_neg (by omega)] at hstep
    simpa [addAll, prev] using hstep

theorem encryptRound_succeeds (hk : 4 ≤ k.length) (hs : Carries n n c s) :
    Succeeds (encryptRound k n sum s)
      (Carries n n (addAll (mixed k n sum) (List.range (n + 1)) c)) := by
  unfold encryptRound
  refine (encryptFor_succeeds hk hs le_rfl).bind fun t ht => ?_
  have hstep := encryptOne_succeeds sum hk le_rfl ht
  rw [next, if_pos rfl] at hstep
  rw [List.range_succ, addAll, List.foldl_append]
  exact hstep

theorem decryptFor_succeeds (hk : 4 ≤ k.length) (hp : p ≤ n) (hs : Carries n (next n p) c s) :
    Succeeds (decryptFor k sum (sum >>> 2 &&& 3) p s) fun t =>
      ∃ d, Carries n (next n 0) d t ∧
        sub (mixed k n sum) d 0 = subAll (mixed k n sum) (List.range (p + 1)) c := by
  induction p generalizing c s with
  | zero => exact succeeds_some.mpr ⟨c, hs, rfl⟩
  | succ p ih =>
    have hstep := decryptOne_succeeds sum hk hp hs
    rw [prev, if_neg (by omega), Nat.add_sub_cancel] at hstep
    refine hstep.bind fun t ht => ?_
    have hnext : next n p = p + 1 := by rw [next, if_neg (by omega)]
    rw [← hnext] at ht
    refine (ih (by omega) ht).mono ?_
    rintro r ⟨d, hd, he⟩
    refine ⟨d, hd, ?_⟩
    rw [he, hnext, List.range_succ (n := p + 1), subAll, subAll, List.foldr_append]
    rfl

theorem decryptRound_succeeds (hk : 4 ≤ k.length) (hs : Carries n 0 c s) :
    Succeeds (decryptRound k n sum s)
      (Carries n 0 (subAll (mixed k n sum) (List.range (n + 1)) c)) := by
  unfold decryptRound
  have hnext : next n n = 0 := by rw [next, if_pos rfl]
  refine (decryptFor_succeeds hk le_rfl (hnext ▸ hs)).bind ?_
  rintro t ⟨d, hd, he⟩
  rw [← he]
  exact decryptOne_succeeds sum hk (Nat.zero_le n) hd

end Rounds

section Sums

def roundSum (i : ℕ) : UInt32 := .ofNat i * delta

theorem roundSum_succ (i : ℕ) : roundSum (i + 1) = roundSum i + delta := by
  unfold roundSum
  rw [UInt32.ofNat_add, UInt32.add_mul]
  rfl

theorem roundSum_sub (i : ℕ) : roundSum (i + 1) - delta = roundSum i := by
  rw [roundSum_succ, UInt32.add_sub_cancel]

theorem roundSum_ne_zero {i : ℕ} (hi : 0 < i) (hlt : i < 2 ^ 32) : roundSum i ≠ 0 := by
  intro h
  have hd : delta.toNat = 0x9e3779b9 := rfl
  have hz : i * 0x9e3779b9 % 2 ^ 32 = 0 := by
    have hm := congrArg UInt32.toNat h
    rwa [roundSum, UInt32.toNat_mul, UInt32.toNat_ofNat_of_lt' hlt, hd, UInt32.toNat_zero] at hm
  have hc : Nat.Coprime (2 ^ 32) 0x9e3779b9 := by decide +kernel
  have hdvd : 2 ^ 32 ∣ i := hc.dvd_of_dvd_mul_right (Nat.dvd_of_mod_eq_zero hz)
  exact absurd (Nat.le_of_dvd hi hdvd) (Nat.not_le.mpr hlt)

variable {c : ℕ → UInt32} {s : Words × UInt32}

/-- The sums of `q` rounds that follow round `j`. -/
def sums (j q : ℕ) : List UInt32 := (List.range' (j + 1) q).map roundSum

theorem sums_succ (q : ℕ) : sums 0 (q + 1) = sums 0 q ++ [roundSum (q + 1)] := by
  simp [sums, List.range'_concat, Nat.add_comm]

theorem decryptRounds_succ {q : ℕ} (fuel : ℕ) (hlt : q + 1 < 2 ^ 32) (s : Words × UInt32) :
    decryptRounds k n (fuel + 1) (roundSum (q + 1)) s =
      (decryptRound k n (roundSum (q + 1)) s).bind (decryptRounds k n fuel (roundSum q)) := by
  rw [decryptRounds, if_pos (roundSum_ne_zero q.succ_pos hlt), roundSum_sub]
  rfl

theorem encryptRounds_succeeds (hk : 4 ≤ k.length) (q j : ℕ) (hs : Carries n n c s) :
    Succeeds (encryptRounds k n q (roundSum j) s)
      (Carries n n (encipher (mixed k n) (List.range (n + 1)) (sums j q) c)) := by
  induction q generalizing j c s with
  | zero => exact succeeds_some.mpr hs
  | succ q ih =>
    unfold encryptRounds
    rw [← roundSum_succ]
    refine (encryptRound_succeeds hk hs).bind fun t ht => ?_
    simpa [sums, encipher, List.range'_succ] using ih (j + 1) ht

theorem decryptRounds_succeeds (hk : 4 ≤ k.length) {q fuel : ℕ} (hq : q < fuel)
    (hlt : q < 2 ^ 32) (hs : Carries n 0 c s) :
    Succeeds (decryptRounds k n fuel (roundSum q) s)
      (Carries n 0 (decipher (mixed k n) (List.range (n + 1)) (sums 0 q) c)) := by
  induction q generalizing fuel c s with
  | zero =>
    obtain ⟨m, rfl⟩ := Nat.exists_eq_add_of_lt hq
    unfold decryptRounds
    simpa [roundSum, sums, decipher] using hs
  | succ q ih =>
    obtain ⟨m, rfl⟩ := Nat.exists_eq_succ_of_ne_zero (Nat.ne_zero_of_lt hq)
    rw [decryptRounds_succ m hlt]
    refine (decryptRound_succeeds hk hs).bind fun t ht => ?_
    refine (ih (by omega) (by omega) ht).mono fun r hr => ?_
    simpa [sums_succ, decipher] using hr

/-- The loop is left behind the round with the sum `XXTEA_DELTA`, in which the sum gets zero. -/
theorem decryptRounds_eq {q fuel : ℕ} (hq : q < fuel) (hlt : q < 2 ^ 32) (s : Words × UInt32) :
    decryptRounds k n fuel (roundSum q) s =
      (sums 0 q).reverse.foldlM (fun s sum => decryptRound k n sum s) s := by
  induction q generalizing fuel s with
  | zero =>
    obtain ⟨m, rfl⟩ := Nat.exists_eq_add_of_lt hq
    rfl
  | succ q ih =>
    obtain ⟨m, rfl⟩ := Nat.exists_eq_succ_of_ne_zero (Nat.ne_zero_of_lt hq)
    rw [decryptRounds_succ m hlt, sums_succ, List.reverse_append, List.reverse_singleton,
      List.singleton_append, List.foldlM_cons]
    exact congrArg _ (funext fun t => ih (by omega) (by omega) t)

theorem decryptRounds_eq_none {q fuel : ℕ} (hq : fuel ≤ q) (hlt : q < 2 ^ 32)
    (s : Words × UInt32) : decryptRounds k n fuel (roundSum q) s = none := by
  induction fuel generalizing q s with
  | zero => rfl
  | succ fuel ih =>
    obtain ⟨q, rfl⟩ := Nat.exists_eq_succ_of_ne_zero (Nat.ne_zero_of_lt hq)
    rw [decryptRounds_succ fuel hlt]
    cases decryptRound k n (roundSum (q + 1)) s with
    | none => rfl
    | some t => exact ih (by omega) (by omega) t

end Sums

theorem rounds_toNat (len : UInt32) : (6 + 52 / len).toNat = 6 + 52 / len.toNat := by
  have hle := Nat.div_le_self 52 len.toNat
  rw [UInt32.toNat_add, UInt32.toNat_div]
  exact Nat.mod_eq_of_lt (show 6 + 52 / len.toNat < 2 ^ 32 by omega)

theorem rounds_mul_delta (len : UInt32) :
    (6 + 52 / len) * delta = roundSum (6 + 52 / len.toNat) := by
  rw [roundSum, ← rounds_toNat, UInt32.ofNat_toNat]

theorem toNat_sub_one {len : UInt32} (h2 : 2 ≤ len.toNat) : (len - 1).toNat = len.toNat - 1 := by
  rw [UInt32.toNat_sub_of_le _ _ (by rw [UInt32.le_iff_toNat_le, UInt32.toNat_one]; omega),
    UInt32.toNat_one]

theorem not_sub_one_lt {len : UInt32} (h2 : 2 ≤ len.toNat) : ¬ len - 1 < 1 := by
  rw [UInt32.lt_iff_toNat_lt, toNat_sub_one h2, UInt32.toNat_one]
  omega

section Whole

variable {len : UInt32} (hl : v.length = len.toNat) (h2 : 2 ≤ len.toNat) (hk : 4 ≤ k.length)
include hl h2 hk

theorem xxteaLongEncrypt_succeeds :
    Succeeds (xxteaLongEncrypt v len k) fun w => w.length = len.toNat ∧
      cells w = encipher (mixed k (len.toNat - 1)) (List.range len.toNat)
        (sums 0 (6 + 52 / len.toNat)) (cells v) := by
  have hn := toNat_sub_one h2
  have hlt := not_sub_one_lt h2
  unfold xxteaLongEncrypt
  simp only [hn]
  rw [getElem?_eq_cells (by omega), getElem?_eq_cells (by omega)]
  simp only [Option.bind_eq_bind, Option.bind_some, if_neg hlt, UInt32.sub_add_cancel,
    rounds_toNat]
  have hs : Carries (len.toNat - 1) (len.toNat - 1) (cells v) (v, cells v (len.toNat - 1)) :=
    ⟨by simp only []; omega, rfl, rfl⟩
  refine Succeeds.map ((encryptRounds_succeeds hk (6 + 52 / len.toNat) 0 hs).mono fun s hs => ?_)
  obtain ⟨hlen, hc, -⟩ := hs
  rw [hc, Nat.sub_add_cancel (by omega)]
  exact ⟨by omega, rfl⟩

theorem xxteaLongDecrypt_succeeds :
    Succeeds (xxteaLongDecrypt v len k) fun w => w.length = len.toNat ∧
      cells w = decipher (mixed k (len.toNat - 1)) (List.range len.toNat)
        (sums 0 (6 + 52 / len.toNat)) (cells v) := by
  have hn := toNat_sub_one h2
  have hlt := not_sub_one_lt h2
  have hq : (6 + 52 / (len - 1 + 1)) * delta = roundSum (6 + 52 / len.toNat) := by
    rw [UInt32.sub_add_cancel, rounds_mul_delta]
  have hmax : 6 + 52 / len.toNat < maxRounds := by
    have := Nat.div_le_self 52 len.toNat
    unfold maxRounds
    omega
  unfold xxteaLongDecrypt
  refine Succeeds.bind (P := fun _ => True) ?_ fun z _ => ?_
  · exact ⟨_, getElem?_eq_cells (by omega), trivial⟩
  refine Succeeds.bind (P := fun y => y = cells v 0) ?_ fun y hy => ?_
  · exact ⟨_, getElem?_eq_cells (by omega), rfl⟩
  have hs : Carries (len.toNat - 1) 0 (cells v) (v, y) := ⟨by simp only []; omega, rfl, hy⟩
  rw [if_neg hlt, hq, hn]
  refine Succeeds.map ((decryptRounds_succeeds hk hmax hmax hs).mono fun s hs => ?_)
  obtain ⟨hlen, hc, -⟩ := hs
  rw [hc, Nat.sub_add_cancel (by omega)]
  exact ⟨by omega, rfl⟩

theorem xxteaLongDecrypt_xxteaLongEncrypt :
    Succeeds (xxteaLongEncrypt v len k) fun w =>
      w.length = len.toNat ∧ xxteaLongDecrypt w len k = some v := by
  refine (xxteaLongEncrypt_succeeds hl h2 hk).mono ?_
  rintro w ⟨hw, hc⟩
  obtain ⟨u, hu, hul, huc⟩ := xxteaLongDecrypt_succeeds hw h2 hk
  refine ⟨hw, hu.trans (congrArg some (eq_of_cells (hul.trans hl.symm) ?_))⟩
  rw [huc, hc]
  exact decipher_encipher UInt32.add_sub_cancel (fun sum i _ => mixed_blind (by omega) k sum) _ _

theorem xxteaLongEncrypt_xxteaLongDecrypt :
    Succeeds (xxteaLongDecrypt v len k) fun w =>
      w.length = len.toNat ∧ xxteaLongEncrypt w len k = some v := by
  refine (xxteaLongDecrypt_succeeds hl h2 hk).mono ?_
  rintro w ⟨hw, hc⟩
  obtain ⟨u, hu, hul, huc⟩ := xxteaLongEncrypt_succeeds hw h2 hk
  refine ⟨hw, hu.trans (congrArg some (eq_of_cells (hul.trans hl.symm) ?_))⟩
  rw [huc, hc]
  exact encipher_decipher UInt32.sub_add_cancel (fun sum i _ => mixed_blind (by omega) k sum) _ _

end Whole

/-- Decryption inverts encryption. Its loop is left after exactly as many rounds as there are sums
from `q * XXTEA_DELTA` down to `XXTEA_DELTA`, none of which is zero. -/
theorem xxteaLongDecrypt_rounds {len : UInt32} (hl : v.length = len.toNat) (h2 : 2 ≤ len.toNat)
    (hk : k.length = 4) :
    (Succeeds (xxteaLongEncrypt v len k) fun w =>
      w.length = len.toNat ∧ xxteaLongDecrypt w len k = some v) ∧
    (∀ sum ∈ sums 0 (6 + 52 / len.toNat), sum ≠ 0) ∧
    ∀ (fuel : ℕ) (s : Words × UInt32),
      decryptRounds k (len - 1).toNat fuel ((6 + 52 / len) * delta) s =
        if 6 + 52 / len.toNat < fuel then
          (sums 0 (6 + 52 / len.toNat)).reverse.foldlM
            (fun s sum => decryptRound k (len - 1).toNat sum s) s
        else none := by
  have hlt : 6 + 52 / len.toNat < 2 ^ 32 := by
    have hle := Nat.div_le_self 52 len.toNat
    omega
  refine ⟨xxteaLongDecrypt_xxteaLongEncrypt hl h2 hk.ge, fun sum hsum => ?_, fun fuel s => ?_⟩
  · obtain ⟨i, hi, rfl⟩ := List.mem_map.mp hsum
    obtain ⟨hpos, hle⟩ := List.mem_range'_1.mp hi
    exact roundSum_ne_zero hpos (by omega)
  · rw [rounds_mul_delta]
    by_cases hfuel : 6 + 52 / len.toNat < fuel
    · rw [if_pos hfuel]
      exact decryptRounds_eq hfuel hlt s
    · rw [if_neg hfuel]
      exact decryptRounds_eq_none (Nat.not_lt.mp hfuel) hlt s

/-- Two words, which take 32 rounds. -/
theorem xxteaLongDecrypt_rounds_two :
    (Succeeds (xxteaLongEncrypt [7, 8] 2 [1, 2, 3, 4]) fun w =>
      w.length = (2 : UInt32).toNat ∧ xxteaLongDecrypt w 2 [1, 2, 3, 4] = some [7, 8]) ∧
    (∀ sum ∈ sums 0 (6 + 52 / (2 : UInt32).toNat), sum ≠ 0) ∧
    ∀ (fuel : ℕ) (s : Words × UInt32),
      decryptRounds [1, 2, 3, 4] ((2 : UInt32) - 1).toNat fuel ((6 + 52 / 2) * delta) s =
        if 6 + 52 / (2 : UInt32).toNat < fuel then
          (sums 0 (6 + 52 / (2 : UInt32).toNat)).reverse.foldlM
            (fun s sum => decryptRound [1, 2, 3, 4] ((2 : UInt32) - 1).toNat sum s) s
        else none :=
  xxteaLongDecrypt_rounds rfl (by decide) rfl

end YlUtils.Xxtea
