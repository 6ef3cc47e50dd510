import YlUtils.Sign.Tagged

/-! # Signatures without tags

All that the signature reads lies in the part of the file that is looked at, at
distances from its beginning. So it is the same wherever that part lies.
-/

namespace YlUtils.FileSignature

variable {body : Bytes} {k n N : ℕ}

theorem freadAt_window {off len : ℕ} (hlen : 0 < len) (h : off + len ≤ body.length)
    (pre post : Bytes) : freadAt (pre ++ (body ++ post)) (pre.length + off) len =
      some ((body.drop off).take len) := by
  rw [freadAt_append, freadAt, if_pos ⟨hlen, by rw [List.length_append]; omega⟩,
    List.drop_append_of_le_length (by omega), List.take_append_of_le_length]
  rw [List.length_drop]
  omega

/-- There are 1 to 30 samples, and if there are more than one they are far apart. -/
theorem blockNum_spec (h : n / 16384 < 2 ^ 31) : ∃ N : ℕ, blockNum n = N ∧ 1 ≤ N ∧ N ≤ 30 ∧
    (N = 1 ∨ 16384 * N ≤ n) := by
  have hwrap : wrapInt ((n : ℤ) / (16 * 1024)) = (n / 16384 : ℕ) :=
    wrapInt_of_lt (by omega) (by omega)
  unfold blockNum
  rw [hwrap]
  by_cases h0 : n / 16384 = 0
  · exact ⟨1, by rw [h0]; rfl, by decide, by decide, .inl rfl⟩
  · simp only [if_neg (show ¬((n / 16384 : ℕ) : ℤ) = 0 by omega)]
    by_cases h30 : ((n / 16384 : ℕ) : ℤ) > maxBlockNum
    · rw [if_pos h30]
      unfold maxBlockNum at h30
      exact ⟨30, rfl, by decide, by decide, .inr (by omega)⟩
    · rw [if_neg h30]
      unfold maxBlockNum at h30
      exact ⟨n / 16384, rfl, by omega, by omega, .inr (by omega)⟩

def readSize (N i : ℕ) : ℕ := if i = N - 1 then hashSize - hashSize / N * i else hashSize / N

theorem div_mul_le_of_le {a b i : ℕ} (h : i ≤ b) : a / b * i ≤ a := by
  calc a / b * i ≤ a / b * b := Nat.mul_le_mul_left _ h
    _ ≤ a := Nat.div_mul_le_self a b

section Sample

variable (hn : hashSize ≤ n) (h30 : N ≤ 30) (hfar : N = 1 ∨ 16384 * N ≤ n)

include hn h30 hfar

theorem readSize_fits {i : ℕ} (hi : i < N) :
    0 < readSize N i ∧ n / N * i + readSize N i ≤ n ∧ (i + 1 < N → readSize N i ≤ n / N) := by
  have hq : 0 < hashSize / N := Nat.div_pos (by unfold hashSize; omega) (by omega)
  have hle : hashSize / N ≤ n / N := Nat.div_le_div_right hn
  have hnext : n / N * i + n / N ≤ n := by
    rw [← Nat.mul_succ]
    exact div_mul_le_of_le hi
  unfold readSize
  by_cases hlast : i = N - 1
  · have hsum : hashSize / N * i + hashSize / N ≤ hashSize := by
      rw [← Nat.mul_succ]
      exact div_mul_le_of_le hi
    rw [if_pos hlast]
    refine ⟨by omega, ?_, by omega⟩
    rcases hfar with hone | hfar
    · have hi0 : i = 0 := by omega
      rw [hi0, Nat.mul_zero]
      omega
    · have hfar : hashSize ≤ n / N := by
        rw [Nat.le_div_iff_mul_le (by omega)]
        unfold hashSize
        omega
      omega
  · rw [if_neg hlast]
    exact ⟨hq, by omega, fun _ => hle⟩

theorem samples_window (hk : k + n ≤ body.length) {m : ℕ} (hm : m ≤ N) : ∃ acc : Bytes,
    (m < N → acc.length = hashSize / N * m) ∧
      ∀ pre post : Bytes, (List.range m).foldlM (fun hashBuf i => do
        let nRead := if i = N - 1 then hashSize - hashBuf.length else hashSize / N
        let b ← freadAt (pre ++ (body ++ post)) (pre.length + k + n / N * i) nRead
        some (hashBuf ++ b)) [] = some acc := by
  induction m with
  | zero => exact ⟨[], fun _ => by simp, fun _ _ => rfl⟩
  | succ m ih =>
    obtain ⟨acc, hlen, hacc⟩ := ih (by omega)
    have hlen := hlen (by omega)
    obtain ⟨hpos, hfit, -⟩ := readSize_fits hn h30 hfar hm
    have hread : (if m = N - 1 then hashSize - acc.length else hashSize / N) = readSize N m := by
      rw [hlen, readSize]
    refine ⟨acc ++ (body.drop (k + n / N * m)).take (readSize N m), ?_, fun pre post => ?_⟩
    · intro hlt
      rw [List.length_append, hlen, List.length_take_of_le (by rw [List.length_drop]; omega),
        readSize, if_neg (by omega), Nat.mul_succ]
    · have hbytes : freadAt (pre ++ (body ++ post)) (pre.length + (k + n / N * m)) (readSize N m) =
          some ((body.drop (k + n / N * m)).take (readSize N m)) :=
        freadAt_window hpos (by omega) pre post
      rw [List.range_succ, List.foldlM_append, hacc pre post]
      simp only [List.foldlM_cons, List.foldlM_nil, Option.bind_eq_bind, Option.bind_some, hread,
        Nat.add_assoc, hbytes, Option.pure_def]

end Sample

theorem hashBuf_window (hpos : 0 < n) (hk : k + n ≤ body.length) (h31 : n / 16384 < 2 ^ 31) :
    ∃ buf, ∀ pre post : Bytes, hashBuf (pre ++ (body ++ post)) (pre.length + k) n = some buf := by
  unfold hashBuf
  by_cases hn : n < hashSize
  · refine ⟨(body.drop k).take n ++ sizeBytes n, fun pre post => ?_⟩
    rw [if_pos hn, freadAt_window hpos hk]
    rfl
  · obtain ⟨N, hN, h1, h30, hfar⟩ := blockNum_spec h31
    obtain ⟨acc, -, hacc⟩ := samples_window (by omega) h30 hfar hk le_rfl
    refine ⟨acc ++ List.replicate (hashSize - acc.length) 0 ++ sizeBytes n, fun pre post => ?_⟩
    have hsample : sample (pre ++ (body ++ post)) (pre.length + k) n N = some acc := hacc pre post
    rw [if_neg hn, hN, Int.toNat_natCast, hsample]
    rfl

theorem skipEnds_spec (hn : 0 < n) : ∃ k m, 0 < m ∧ k + m ≤ n ∧
    ∀ basepos, skipEnds basepos n = (basepos + k, m) := by
  unfold skipEnds
  by_cases h : skipSize < n
  · simp only [if_pos h]
    by_cases h' : skipSize < n - skipSize
    · exact ⟨skipSize, n - skipSize - skipSize, by omega, by omega, fun _ => by rw [if_pos h']⟩
    · exact ⟨skipSize, n - skipSize, by omega, by omega, fun _ => by rw [if_neg h']⟩
  · simp only [if_neg h]
    exact ⟨0, n, hn, by omega, fun _ => rfl⟩

/-- The signature of a file with tags is that of the file without them. -/
theorem compFileSign_tagged (filepath filepath' : Bytes) (h : IsMp3Path filepath)
    (h' : IsMp3Path filepath') (hbody : Untagged body) (hfit : body.length / 16384 < 2 ^ 31)
    (v2 : Option Id3v2) (v1 : Option Id3v1) : ∃ signs,
      compFileSign filepath (some (tagged v2 body v1)) = some (some signs) ∧
        compFileSign filepath' (some body) = some (some signs) := by
  have hpos := List.length_pos_iff.mpr hbody.ne_nil
  obtain ⟨k, m, hm, hkm, hskip⟩ := skipEnds_spec hpos
  have hm31 : m / 16384 < 2 ^ 31 := lt_of_le_of_lt (Nat.div_le_div_right (by omega)) hfit
  obtain ⟨buf, hbuf⟩ := hashBuf_window hm hkm hm31
  have hsign : ∀ path, IsMp3Path path → ∀ v2 v1, compFileSign path (some (tagged v2 body v1)) =
      some (some (calcHash2 buf buf.length)) := by
    intro path hpath v2 v1
    obtain ⟨ext, hext, hmp3⟩ := hpath.extension
    unfold compFileSign
    simp only [hext, Option.bind_eq_bind, Option.bind_some, virtualFile_tagged hmp3 hbody, hskip]
    rw [if_neg (by omega), tagged, hbuf]
    rfl
  refine ⟨calcHash2 buf buf.length, hsign filepath h v2 v1, ?_⟩
  have hnone := hsign filepath' h' none none
  rwa [tagged, Option.elim_none, Option.elim_none, List.nil_append, List.append_nil] at hnone

/-- A file of one byte behind an empty ID3v2 tag. -/
theorem compFileSign_tagged_byte : ∃ signs,
    compFileSign [97, 46, 109, 112, 51]
        (some (tagged (some ⟨3, 0, [], by decide, by decide⟩) [7] none)) = some (some signs) ∧
      compFileSign [46, 77, 80, 51] (some [7]) = some (some signs) :=
  compFileSign_tagged _ _ ⟨[97], [109, 112, 51], by decide, by decide⟩
    ⟨[], [77, 80, 51], by decide, by decide⟩ ⟨by decide, by decide, by decide⟩ (by decide) _ none

end YlUtils.FileSignature
