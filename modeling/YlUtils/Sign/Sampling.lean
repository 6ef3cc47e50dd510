import YlUtils.Runs.Succeeds
import YlUtils.Sign.Signature

/-! # What the file signature reads

The reads of a file signature, in the machine words of the source. They do not
overlap and do not leave what is left of the file between its ends, and what they
write fills the buffer up to the bytes of the length.
-/

namespace YlUtils.FileSignature

/-- A `fread` of `nRead` bytes at the position `pos` of the file, to the place `dst` of the
buffer that is hashed. -/
structure Read where
  pos : UInt64
  nRead : UInt32
  dst : UInt32
  deriving DecidableEq, Repr

/-- How the buffer is filled: its size, the reads, and the place of the eight bytes of the
length. -/
structure Sampling where
  bufSize : UInt32
  reads : List Read
  lengthAt : UInt64
  deriving DecidableEq, Repr

def skips (basepos filesize : UInt64) : UInt64 × UInt64 :=
  let (basepos, filesize) :=
    if 10240 < filesize then (basepos + 10240, filesize - 10240) else (basepos, filesize)
  (basepos, if 10240 < filesize then filesize - 10240 else filesize)

def readLoop (basepos nInterval : UInt64) (n : ℕ) : ℕ → ℕ → UInt32 → UInt32 → List Read
  | 0, _, _, _ => []
  | m + 1, i, nTotalRead, nRead =>
    let nRead := if i = n - 1 then 10240 - nTotalRead else nRead
    ⟨basepos + nInterval * .ofNat i, nRead, nTotalRead⟩ ::
      readLoop basepos nInterval n m (i + 1) (nTotalRead + nRead) nRead

def sampling (basepos filesize : UInt64) : Sampling :=
  let bufSize : UInt32 := if filesize < 10240 then filesize.toUInt32 else 10240
  let bufSize := bufSize + 8
  let n := (blockNum filesize.toNat).toNat
  if bufSize < 10240 + 8 then ⟨bufSize, [⟨basepos, filesize.toUInt32, 0⟩], filesize⟩
  else ⟨bufSize, readLoop basepos (filesize / .ofNat n) n n 0 0 (10240 / .ofNat n), 10240⟩

def Read.offset (r : Read) (basepos : UInt64) : ℕ := (r.pos - basepos).toNat

/-- The reads write one behind the other, from one place of the buffer to another. -/
def Contiguous : ℕ → List Read → ℕ → Prop
  | start, [], stop => start = stop
  | start, r :: rs, stop => r.dst.toNat = start ∧ Contiguous (start + r.nRead.toNat) rs stop

/-- The `f` bytes at `basepos` are sampled in blocks that fill the buffer. -/
structure Samples (basepos : UInt64) (f : ℕ) (s : Sampling) : Prop where
  blocks : (s.reads.length : ℤ) = blockNum f ∧ 1 ≤ s.reads.length ∧ s.reads.length ≤ maxBlockNum
  disjoint : s.reads.Pairwise fun r r' => r.offset basepos + r.nRead.toNat ≤ r'.offset basepos
  inside : ∀ r ∈ s.reads, 0 < r.nRead.toNat ∧ r.offset basepos + r.nRead.toNat ≤ f
  filled : Contiguous 0 s.reads hashSize
  buffer : s.lengthAt.toNat = hashSize ∧ s.bufSize.toNat = hashSize + 8

def block (basepos filesize : UInt64) (n i : ℕ) : Read :=
  ⟨basepos + filesize / .ofNat n * .ofNat i,
    if i = n - 1 then 10240 - 10240 / .ofNat n * .ofNat i else 10240 / .ofNat n,
    10240 / .ofNat n * .ofNat i⟩

theorem readLoop_eq (basepos f : UInt64) {n m i : ℕ} (hi : i + m = n) :
    readLoop basepos (f / .ofNat n) n m i (10240 / .ofNat n * .ofNat i) (10240 / .ofNat n) =
      (List.range' i m).map (block basepos f n) := by
  induction m generalizing i with
  | zero => rfl
  | succ m ih =>
    rw [readLoop, List.range'_succ, List.map_cons, block]
    by_cases hlast : i = n - 1
    · obtain rfl : m = 0 := by omega
      simp only [if_pos hlast]
      rfl
    · have hstep : 10240 / UInt32.ofNat n * UInt32.ofNat i + 10240 / UInt32.ofNat n =
          10240 / UInt32.ofNat n * UInt32.ofNat (i + 1) := by
        rw [UInt32.ofNat_add, UInt32.mul_add, show UInt32.ofNat 1 = 1 from rfl, UInt32.mul_one]
      simp only [if_neg hlast]
      rw [hstep, ih (by omega)]

section Blocks

variable {basepos f : UInt64} {n i : ℕ}

theorem toNat_stride (h : i < n) (h30 : n ≤ 30) :
    (10240 / UInt32.ofNat n * UInt32.ofNat i).toNat = hashSize / n * i := by
  have hn : (UInt32.ofNat n).toNat = n := UInt32.toNat_ofNat_of_lt' (by change n < 2 ^ 32; omega)
  have hi : (UInt32.ofNat i).toNat = i := UInt32.toNat_ofNat_of_lt' (by change i < 2 ^ 32; omega)
  have hle : hashSize / n * i ≤ hashSize := div_mul_le_of_le h.le
  rw [UInt32.toNat_mul, UInt32.toNat_div, hn, hi]
  exact Nat.mod_eq_of_lt (lt_of_le_of_lt hle (by decide))

theorem block_dst (h : i < n) (h30 : n ≤ 30) :
    (block basepos f n i).dst.toNat = hashSize / n * i := toNat_stride h h30

theorem block_nRead (h : i < n) (h30 : n ≤ 30) :
    (block basepos f n i).nRead.toNat = readSize n i := by
  have hstride := toNat_stride h h30
  have hle : hashSize / n * i ≤ hashSize := div_mul_le_of_le h.le
  unfold block readSize
  simp only
  split
  · rw [UInt32.toNat_sub_of_le, hstride]
    · rfl
    · rw [UInt32.le_iff_toNat_le, hstride]
      exact hle
  · rw [UInt32.toNat_div, UInt32.toNat_ofNat_of_lt' (by change n < 2 ^ 32; omega)]
    rfl

theorem block_offset (h : i < n) (h30 : n ≤ 30) :
    (block basepos f n i).offset basepos = f.toNat / n * i := by
  have hn : (UInt64.ofNat n).toNat = n := UInt64.toNat_ofNat_of_lt' (by change n < 2 ^ 64; omega)
  have hi : (UInt64.ofNat i).toNat = i := UInt64.toNat_ofNat_of_lt' (by change i < 2 ^ 64; omega)
  have hle : f.toNat / n * i ≤ f.toNat := div_mul_le_of_le h.le
  unfold Read.offset block
  rw [UInt64.add_comm, UInt64.add_sub_cancel, UInt64.toNat_mul, UInt64.toNat_div, hn, hi]
  exact Nat.mod_eq_of_lt (lt_of_le_of_lt hle f.toNat_lt)

theorem block_pos (h : i < n) (h30 : n ≤ 30) (hr : basepos.toNat + f.toNat / n * i < 2 ^ 64) :
    (block basepos f n i).pos.toNat = basepos.toNat + f.toNat / n * i := by
  have hoffset : (block basepos f n i).offset basepos = f.toNat / n * i := block_offset h h30
  have hpos : (block basepos f n i).pos =
      basepos + ((block basepos f n i).pos - basepos) := by
    rw [UInt64.add_comm, UInt64.sub_add_cancel]
  rw [Read.offset] at hoffset
  rw [hpos, UInt64.toNat_add, hoffset]
  exact Nat.mod_eq_of_lt hr

theorem contiguous_blocks (h30 : n ≤ 30) {m : ℕ} (hi : i + m + 1 = n) : Contiguous
    (hashSize / n * i) ((List.range' i (m + 1)).map (block basepos f n)) hashSize := by
  induction m generalizing i with
  | zero =>
    have hle : hashSize / n * i ≤ hashSize := div_mul_le_of_le (by omega)
    refine ⟨block_dst (by omega) h30, ?_⟩
    rw [block_nRead (by omega) h30, readSize, if_pos (by omega)]
    change _ + _ = _
    omega
  | succ m ih =>
    rw [List.range'_succ, List.map_cons]
    refine ⟨block_dst (by omega) h30, ?_⟩
    rw [block_nRead (by omega) h30, readSize, if_neg (by omega), ← Nat.mul_succ]
    exact ih (by omega)

end Blocks

theorem sampling_long (basepos f : UInt64) (hf : hashSize ≤ f.toNat) {n : ℕ}
    (hn : blockNum f.toNat = n) :
    sampling basepos f = ⟨10248, (List.range' 0 n).map (block basepos f n), 10240⟩ := by
  have hlt : ¬ f < 10240 := by
    rw [UInt64.lt_iff_toNat_lt]
    exact Nat.not_lt.mpr hf
  have hloop := readLoop_eq basepos f (Nat.zero_add n)
  rw [show UInt32.ofNat 0 = 0 from rfl, UInt32.mul_zero] at hloop
  unfold sampling
  simp only [if_neg hlt, hn, Int.toNat_natCast, hloop]
  rfl

theorem samples_sampling (basepos f : UInt64) (hf : hashSize ≤ f.toNat)
    (hfit : f.toNat / 16384 < 2 ^ 31) : Samples basepos f.toNat (sampling basepos f) := by
  obtain ⟨n, hn, h1, h30, hfar⟩ := blockNum_spec hfit
  have hmem : ∀ i ∈ List.range' 0 n, i < n := fun i hi => by
    have := List.mem_range'_1.mp hi
    omega
  rw [sampling_long basepos f hf hn]
  constructor
  · rw [List.length_map, List.length_range']
    exact ⟨hn.symm, h1, by unfold maxBlockNum; omega⟩
  · rw [List.pairwise_map]
    refine List.Pairwise.imp_of_mem (fun {i j} hi hj hij => ?_) List.pairwise_lt_range'
    have hj := hmem j hj
    rw [block_offset (hmem i hi) h30, block_nRead (hmem i hi) h30, block_offset hj h30]
    calc f.toNat / n * i + readSize n i ≤ f.toNat / n * i + f.toNat / n :=
          Nat.add_le_add_left ((readSize_fits hf h30 hfar (hmem i hi)).2.2 (by omega)) _
      _ = f.toNat / n * (i + 1) := (Nat.mul_succ _ _).symm
      _ ≤ f.toNat / n * j := Nat.mul_le_mul_left _ hij
  · intro r hr
    obtain ⟨i, hi, rfl⟩ := List.mem_map.mp hr
    have hi := hmem i hi
    obtain ⟨hpos, hfits, -⟩ := readSize_fits hf h30 hfar hi
    rw [block_offset hi h30, block_nRead hi h30]
    exact ⟨hpos, hfits⟩
  · obtain ⟨m, rfl⟩ := Nat.exists_eq_add_of_le' h1
    exact contiguous_blocks (i := 0) h30 (by omega)
  · exact ⟨rfl, rfl⟩

theorem sampling_short (basepos f : UInt64) (hf : f.toNat < hashSize) : ∃ n : UInt32,
    n.toNat = f.toNat ∧ (n + 8).toNat = f.toNat + 8 ∧
      sampling basepos f = ⟨n + 8, [⟨basepos, n, 0⟩], f⟩ := by
  unfold hashSize at hf
  have hlt : f < 10240 := UInt64.lt_iff_toNat_lt.mpr hf
  have hn : f.toUInt32.toNat = f.toNat := by
    rw [UInt64.toNat_toUInt32]
    omega
  have hsize : (f.toUInt32 + 8).toNat = f.toNat + 8 := by
    rw [UInt32.toNat_add, hn]
    change (f.toNat + 8) % 2 ^ 32 = _
    omega
  refine ⟨f.toUInt32, hn, hsize, ?_⟩
  have hbuf : f.toUInt32 + 8 < 10240 + 8 := by
    rw [UInt32.lt_iff_toNat_lt, hsize]
    change _ < 10248
    omega
  unfold sampling
  simp only [if_pos hlt, if_pos hbuf]

theorem skip_iff (n : UInt64) : 10240 < n ↔ skipSize < n.toNat := UInt64.lt_iff_toNat_lt

theorem toNat_skip {n : UInt64} (h : skipSize < n.toNat) :
    (n - 10240).toNat = n.toNat - skipSize :=
  UInt64.toNat_sub_of_le _ _ (UInt64.le_iff_toNat_le.mpr h.le)

/-- The skips take nothing or `SKIP_SIZE` bytes off each end, and not all there is. -/
theorem skips_spec (basepos filesize : UInt64) (hpos : 0 < filesize) : ∃ front back f,
    skips basepos filesize = (basepos + .ofNat front, f) ∧ 0 < f.toNat ∧
      front + f.toNat + back = filesize.toNat ∧
        (front = 0 ∨ front = skipSize) ∧ (back = 0 ∨ back = skipSize) := by
  have hpos : 0 < filesize.toNat := UInt64.lt_iff_toNat_lt.mp hpos
  unfold skips
  simp only [skip_iff]
  by_cases h : skipSize < filesize.toNat
  · have hfront := toNat_skip h
    simp only [if_pos h, hfront]
    by_cases h' : skipSize < filesize.toNat - skipSize
    · have hback := toNat_skip (hfront ▸ h')
      refine ⟨skipSize, skipSize, filesize - 10240 - 10240, by rw [if_pos h']; rfl, ?_, ?_,
        .inr rfl, .inr rfl⟩
      · omega
      · omega
    · refine ⟨skipSize, 0, filesize - 10240, by rw [if_neg h']; rfl, ?_, ?_, .inr rfl, .inl rfl⟩
      · omega
      · omega
  · simp only [if_neg h]
    exact ⟨0, 0, filesize, by rw [show UInt64.ofNat 0 = 0 from rfl, UInt64.add_zero], hpos,
      by omega, .inl rfl, .inl rfl⟩

/-- What is read of `filesize` bytes at `basepos`: `front` and `back` bytes are skipped, and the
`f` bytes between them are read at once if they are few, else sampled. -/
structure SamplesInside (basepos filesize : UInt64) (front back : ℕ) (f : UInt64) : Prop where
  skips : skips basepos filesize = (basepos + .ofNat front, f)
  skipped : front + f.toNat + back = filesize.toNat
  ends : (front = 0 ∨ front = skipSize) ∧ (back = 0 ∨ back = skipSize)
  positive : 0 < f.toNat
  whole : f.toNat < hashSize → ∃ n : UInt32, n.toNat = f.toNat ∧ (n + 8).toNat = f.toNat + 8 ∧
    sampling (basepos + .ofNat front) f = ⟨n + 8, [⟨basepos + .ofNat front, n, 0⟩], f⟩
  samples : hashSize ≤ f.toNat →
    Samples (basepos + .ofNat front) f.toNat (sampling (basepos + .ofNat front) f)

/-- The reads of a file signature stay in the file and fill the buffer. -/
theorem sampling_inside (basepos filesize : UInt64) (hpos : 0 < filesize)
    (hfit : filesize.toNat / 16384 < 2 ^ 31) :
    ∃ front back f, SamplesInside basepos filesize front back f := by
  obtain ⟨front, back, f, hskips, hf, hsum, hends⟩ := skips_spec basepos filesize hpos
  have hfit : f.toNat / 16384 < 2 ^ 31 := lt_of_le_of_lt (Nat.div_le_div_right (by omega)) hfit
  exact ⟨front, back, f, hskips, hsum, hends, hf, sampling_short _ f, fun h =>
    samples_sampling _ f h hfit⟩

/-- A file of a mebibyte that is read from its beginning. -/
theorem sampling_inside_mebibyte :
    ∃ front back f, SamplesInside 0 1048576 front back f :=
  sampling_inside 0 1048576 (by decide) (by decide)

section Contents

def Read.bytes (fp : Bytes) (r : Read) : Option Bytes := freadAt fp r.pos.toNat r.nRead.toNat

theorem length_freadAt {fp b : Bytes} {off len : ℕ} (h : freadAt fp off len = some b) :
    b.length = len := by
  unfold freadAt at h
  split at h
  · next hlen =>
    rw [← Option.some.inj h, List.length_take_of_le]
    rw [List.length_drop]
    omega
  · exact absurd h (by simp)

theorem foldlM_samples (fp : Bytes) (p d : ℕ) {n m i : ℕ} (hi : i + m + 1 = n) {acc : Bytes}
    (hacc : acc.length = hashSize / n * i) : ∃ o,
      ((List.range' i (m + 1)).mapM fun i => freadAt fp (p + d * i) (readSize n i)) = o ∧
      ((List.range' i (m + 1)).foldlM (fun hashBuf i => do
        let nRead := if i = n - 1 then hashSize - hashBuf.length else hashSize / n
        let b ← freadAt fp (p + d * i) nRead
        some (hashBuf ++ b)) acc) = o.map (fun bs => acc ++ bs.flatten) ∧
      ∀ bs, o = some bs → (acc ++ bs.flatten).length = hashSize := by
  have hread : ∀ {i : ℕ} {acc : Bytes}, acc.length = hashSize / n * i →
      (if i = n - 1 then hashSize - acc.length else hashSize / n) = readSize n i :=
    fun h => by rw [h, readSize]
  induction m generalizing i acc with
  | zero =>
    have hle : hashSize / n * i ≤ hashSize := div_mul_le_of_le (by omega)
    rw [Nat.zero_add, List.range'_one, List.mapM_cons, List.mapM_nil, List.foldlM_cons]
    simp only [hread hacc]
    cases hb : freadAt fp (p + d * i) (readSize n i) with
    | none => exact ⟨none, rfl, rfl, by simp⟩
    | some b =>
      refine ⟨some [b], rfl, by simp, fun bs hbs => ?_⟩
      rw [← Option.some.inj hbs, List.flatten_singleton, List.length_append, hacc,
        length_freadAt hb, readSize, if_pos (by omega)]
      omega
  | succ m ih =>
    rw [List.range'_succ, List.mapM_cons, List.foldlM_cons]
    simp only [hread hacc]
    cases hb : freadAt fp (p + d * i) (readSize n i) with
    | none => exact ⟨none, rfl, rfl, by simp⟩
    | some b =>
      have hlen : (acc ++ b).length = hashSize / n * (i + 1) := by
        rw [List.length_append, hacc, length_freadAt hb, readSize, if_neg (by omega), Nat.mul_succ]
      obtain ⟨o, hmap, hfold, hfull⟩ := ih (by omega) hlen
      refine ⟨o.map (b :: ·), ?_, ?_, fun bs hbs => ?_⟩
      · rw [Option.bind_eq_bind, Option.bind_some, hmap]
        cases o with
        | none => rfl
        | some bs => rfl
      · refine Eq.trans hfold ?_
        rw [Option.map_map]
        congr 1
        funext bs
        simp
      · obtain ⟨bs', ho, rfl⟩ := Option.map_eq_some_iff.mp hbs
        rw [List.flatten_cons, ← List.append_assoc]
        exact hfull bs' ho

theorem skipEnds_eq_skips {basepos filesize : UInt64}
    (hregion : basepos.toNat + filesize.toNat < 2 ^ 64) :
    skipEnds basepos.toNat filesize.toNat =
      ((skips basepos filesize).1.toNat, (skips basepos filesize).2.toNat) := by
  unfold skips skipEnds
  simp only [skip_iff]
  by_cases h : skipSize < filesize.toNat
  · have hfront := toNat_skip h
    have hadd : (basepos + 10240).toNat = basepos.toNat + skipSize := by
      rw [UInt64.toNat_add]
      apply Nat.mod_eq_of_lt
      change basepos.toNat + skipSize < 2 ^ 64
      omega
    simp only [if_pos h, hfront, hadd]
    by_cases h' : skipSize < filesize.toNat - skipSize
    · have hback := toNat_skip (show skipSize < (filesize - 10240).toNat by rwa [hfront])
      rw [if_pos h', if_pos h', hback, hfront]
    · rw [if_neg h', if_neg h', hfront]
  · simp only [if_neg h]

theorem hashBuf_eq_reads (fp : Bytes) {basepos f : UInt64}
    (hregion : basepos.toNat + f.toNat < 2 ^ 64) (hfit : f.toNat / 16384 < 2 ^ 31) :
    hashBuf fp basepos.toNat f.toNat = ((sampling basepos f).reads.mapM (Read.bytes fp)).map
      fun bs => bs.flatten ++ sizeBytes f.toNat := by
  unfold hashBuf
  by_cases hf : f.toNat < hashSize
  · obtain ⟨n, hn, -, hs⟩ := sampling_short basepos f hf
    rw [if_pos hf, hs, List.mapM_cons, List.mapM_nil, Read.bytes, hn]
    cases freadAt fp basepos.toNat f.toNat with
    | none => rfl
    | some b => simp
  · obtain ⟨n, hn, h1, h30, hfar⟩ := blockNum_spec hfit
    obtain ⟨m, rfl⟩ := Nat.exists_eq_add_of_le' h1
    obtain ⟨o, hmap, hfold, hfull⟩ := foldlM_samples fp basepos.toNat (f.toNat / (m + 1))
      (show 0 + m + 1 = m + 1 by omega) (show ([] : Bytes).length = hashSize / (m + 1) * 0 from rfl)
    have hreads : (sampling basepos f).reads.mapM (Read.bytes fp) = o := by
      rw [sampling_long basepos f (by omega) hn, List.mapM_map, ← hmap]
      apply mapM_congr
      intro i hi
      have hi : i < m + 1 := by
        have := List.mem_range'_1.mp hi
        omega
      obtain ⟨-, hfits, -⟩ := readSize_fits (by omega) h30 hfar hi
      rw [Function.comp_apply, Read.bytes, block_nRead hi h30, block_pos hi h30 (by omega)]
    rw [if_neg hf, hn, Int.toNat_natCast, sample, List.range_eq_range', hfold, hreads]
    cases o with
    | none => rfl
    | some bs =>
      have hlen := hfull bs rfl
      rw [List.nil_append] at hlen
      simp [hlen]

theorem compFileSign_eq_reads {filepath fp ext : Bytes} {basepos filesize b f : UInt64}
    (hext : extension filepath = some ext)
    (hfile : virtualFile ext fp = (basepos.toNat, filesize.toNat)) (hpos : 0 < filesize)
    (hregion : basepos.toNat + filesize.toNat < 2 ^ 64) (hfit : filesize.toNat / 16384 < 2 ^ 31)
    (hskips : skips basepos filesize = (b, f)) :
    compFileSign filepath (some fp) = some (((sampling b f).reads.mapM (Read.bytes fp)).map
      fun bs => calcHash2 (bs.flatten ++ sizeBytes f.toNat)
        (bs.flatten ++ sizeBytes f.toNat).length) := by
  have hpos : 0 < filesize.toNat := UInt64.lt_iff_toNat_lt.mp hpos
  have hends := skipEnds_eq_skips hregion
  obtain ⟨k, m, -, hkm, hskip⟩ := skipEnds_spec hpos
  rw [hskips] at hends
  obtain ⟨hb, hf⟩ : b.toNat = basepos.toNat + k ∧ f.toNat = m :=
    Prod.mk.inj (hends.symm.trans (hskip basepos.toNat))
  have hfit : f.toNat / 16384 < 2 ^ 31 := lt_of_le_of_lt (Nat.div_le_div_right (by omega)) hfit
  unfold compFileSign
  simp only [hext, Option.bind_eq_bind, Option.bind_some, hfile, hends]
  rw [if_neg (Nat.ne_of_gt hpos), hashBuf_eq_reads fp (by omega) hfit, Option.map_map]
  rfl

end Contents

end YlUtils.FileSignature
