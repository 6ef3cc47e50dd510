import YlUtils.Sign.Id3

/-! # Which ID3v2 tags are recognised

The flags of a header are a signed byte. One with the highest bit set is negative
and has all bits above the lowest eight set in the comparison with the known
flags, so that an unsynchronised tag is taken for an unknown one.
-/

namespace YlUtils.FileSignature

def decodedSize (b3 b2 b1 b0 : UInt8) : ℕ :=
  (id3DesyncSize (swapLong (wordAt [b3, b2, b1, b0]))).toNat

/-- At an offset of a file there is the header of a tag with these flags, whose size `T` is less
than the length. -/
def Id3v2At (fp : Bytes) (nOffset nLength : ℕ) (nFlags : UInt8) (T : ℕ) : Prop :=
  ∃ major minor b3 b2 b1 b0 : UInt8, (fp.drop nOffset).take 10 =
      [73, 68, 51, major, minor, nFlags, b3, b2, b1, b0] ∧
    2 ≤ major ∧ major ≤ 4 ∧ T = 10 + decodedSize b3 b2 b1 b0 ∧ T < nLength

/-- A tag that may be unsynchronised and has no other flag. -/
def HasId3v2 (fp : Bytes) (nOffset nLength T : ℕ) : Prop :=
  ∃ nFlags : UInt8, nFlags &&& ~~~0x80 = 0 ∧ Id3v2At fp nOffset nLength nFlags T

/-- Exactly the supported tags are recognised and cut off, and sizes of seven bits to a byte are
read as such. -/
structure RecognisesId3v2 (fp : Bytes) (nOffset nLength : ℕ) : Prop where
  cut : ∀ T, HasId3v2 fp nOffset nLength T →
    detectVirtualID3v2 fp nOffset nLength = (true, nOffset + T, nLength - T)
  keep : (¬ ∃ T, HasId3v2 fp nOffset nLength T) →
    detectVirtualID3v2 fp nOffset nLength = (false, nOffset, nLength)
  size : ∀ b3 b2 b1 b0 : UInt8, b3 < 128 → b2 < 128 → b1 < 128 → b0 < 128 →
    decodedSize b3 b2 b1 b0 =
      b3.toNat * 128 ^ 3 + b2.toNat * 128 ^ 2 + b1.toNat * 128 + b0.toNat

section Size

theorem desync_lt {x l h : UInt32} {k : ℕ} (hx : x.toNat < 2 ^ (k + 1)) (hl : l.toNat < 2 ^ k) :
    ((x &&& l) ||| ((x &&& h) >>> 1)).toNat < 2 ^ k := by
  rw [UInt32.toNat_or, UInt32.toNat_and, UInt32.toNat_shiftRight, UInt32.toNat_and]
  apply Nat.or_lt_two_pow
  · exact lt_of_le_of_lt Nat.and_le_right hl
  · have hle : x.toNat &&& h.toNat ≤ x.toNat := Nat.and_le_left
    change (x.toNat &&& h.toNat) >>> 1 < 2 ^ k
    rw [Nat.shiftRight_eq_div_pow]
    rw [Nat.pow_succ] at hx
    omega

theorem toNat_id3DesyncSize_lt (x : UInt32) : (id3DesyncSize x).toNat < 2 ^ 29 := by
  unfold id3DesyncSize
  extract_lets y z
  have hy : y.toNat < 2 ^ 31 := desync_lt (k := 31) x.toNat_lt (by decide)
  have hz : z.toNat < 2 ^ 30 := desync_lt (k := 30) hy (by decide)
  exact desync_lt (k := 29) hz (by decide)

theorem decodedSize_syncsafe {b3 b2 b1 b0 : UInt8} (h3 : b3 < 128) (h2 : b2 < 128) (h1 : b1 < 128)
    (h0 : b0 < 128) : decodedSize b3 b2 b1 b0 =
      b3.toNat * 128 ^ 3 + b2.toNat * 128 ^ 2 + b1.toNat * 128 + b0.toNat := by
  have hlt : ∀ b : UInt8, b < 128 → b.toNat < 2 ^ 7 := fun b h => UInt8.lt_iff_toNat_lt.mp h
  exact toNat_syncsafe (hlt b3 h3) (hlt b2 h2) (hlt b1 h1) (hlt b0 h0) []

end Size

section Header

variable {fp : Bytes} {nOffset nLength T : ℕ}

theorem version_known : ∀ m : UInt8, ¬ (m.toInt8 < 2 ∨ 4 < m.toInt8) ↔ 2 ≤ m ∧ m ≤ 4 := by
  decide +kernel

theorem flags_known : ∀ b : UInt8, (signExtend b &&& ~~~id3v2KnownMask = 0 ∧
    signExtend b &&& ~~~id3v2Unsynchronised = 0) ↔ b = 0 := by
  decide +kernel

theorem flags_supported : ∀ b : UInt8, b &&& ~~~0x80 = 0 ↔ b = 0 ∨ b = 0x80 := by
  decide +kernel

/-- Ten bytes are the header of a known tag exactly if they have no flags. -/
theorem id3v2TagSize_eq_some {t0 t1 t2 major minor nFlags b3 b2 b1 b0 : UInt8} {n : UInt32} :
    id3v2TagSize [t0, t1, t2, major, minor, nFlags, b3, b2, b1, b0] = some n ↔
      [t0, t1, t2] = id3v2Tag ∧ (2 ≤ major ∧ major ≤ 4) ∧ nFlags = 0 ∧
        n.toNat = 10 + decodedSize b3 b2 b1 b0 := by
  have hsize : (id3DesyncSize (swapLong (wordAt [b3, b2, b1, b0])) + 10).toNat =
      10 + decodedSize b3 b2 b1 b0 := by
    have hlt := toNat_id3DesyncSize_lt (swapLong (wordAt [b3, b2, b1, b0]))
    rw [UInt32.toNat_add, Nat.add_comm]
    exact Nat.mod_eq_of_lt (by change 10 + _ < 2 ^ 32; omega)
  unfold id3v2TagSize
  simp only [List.take_succ_cons, List.take_zero, List.getD_cons_succ, List.getD_cons_zero,
    List.drop_succ_cons, List.drop_zero]
  by_cases htag : [t0, t1, t2] = id3v2Tag
  · rw [if_neg (not_not.mpr htag)]
    by_cases hversion : 2 ≤ major ∧ major ≤ 4
    · rw [if_neg ((version_known major).mpr hversion)]
      by_cases hflags : nFlags = 0
      · obtain ⟨hknown, hsync⟩ := (flags_known nFlags).mpr hflags
        rw [if_neg (not_not.mpr hknown), if_neg (not_not.mpr hsync), hflags, if_neg (by decide),
          Option.some.injEq, ← UInt32.toNat_inj, hsize]
        simp [htag, hversion, eq_comm]
      · have hne := mt (flags_known nFlags).mp hflags
        simp only [hflags, false_and, and_false, iff_false]
        split
        · simp
        · next hknown => rw [if_pos fun hsync => hne ⟨not_not.mp hknown, hsync⟩]; simp
    · rw [if_pos (not_not.mp (mt (version_known major).mp hversion))]
      simp [hversion]
  · rw [if_pos htag]
    simp [htag]

theorem exists_bytes_of_length {s : Bytes} (h : s.length = 10) :
    ∃ t0 t1 t2 major minor nFlags b3 b2 b1 b0 : UInt8,
      s = [t0, t1, t2, major, minor, nFlags, b3, b2, b1, b0] := by
  match s, h with
  | [t0, t1, t2, major, minor, nFlags, b3, b2, b1, b0], _ =>
    exact ⟨t0, t1, t2, major, minor, nFlags, b3, b2, b1, b0, rfl⟩

theorem freadAt_header {s : Bytes} : freadAt fp nOffset 10 = some s ↔
    s.length = 10 ∧ (fp.drop nOffset).take 10 = s := by
  have hlen : ((fp.drop nOffset).take 10).length = min 10 (fp.length - nOffset) := by
    rw [List.length_take, List.length_drop]
  unfold freadAt
  constructor
  · intro h
    split at h
    · obtain rfl := Option.some.inj h
      exact ⟨by omega, rfl⟩
    · exact absurd h (by simp)
  · rintro ⟨h, rfl⟩
    rw [if_pos (by omega)]

theorem detectVirtualID3v2_cut (h : Id3v2At fp nOffset nLength 0 T) :
    detectVirtualID3v2 fp nOffset nLength = (true, nOffset + T, nLength - T) := by
  obtain ⟨major, minor, b3, b2, b1, b0, hbytes, hmin, hmax, hT, hlt⟩ := h
  have hread := freadAt_header.mpr ⟨rfl, hbytes⟩
  have hlow := toNat_id3DesyncSize_lt (swapLong (wordAt [b3, b2, b1, b0]))
  have hn : (UInt32.ofNat T).toNat = T := by
    apply UInt32.toNat_ofNat_of_lt'
    unfold decodedSize at hT
    change T < 2 ^ 32
    omega
  have hsize : id3v2TagSize [73, 68, 51, major, minor, 0, b3, b2, b1, b0] = some (.ofNat T) :=
    id3v2TagSize_eq_some.mpr ⟨rfl, ⟨hmin, hmax⟩, rfl, hn.trans hT⟩
  unfold detectVirtualID3v2
  rw [hread, Option.bind_some, hsize]
  simp only [hn, if_neg (Nat.not_le.mpr hlt)]

theorem detectVirtualID3v2_keep (h : ¬ ∃ T, Id3v2At fp nOffset nLength 0 T) :
    detectVirtualID3v2 fp nOffset nLength = (false, nOffset, nLength) := by
  unfold detectVirtualID3v2
  cases hsize : (freadAt fp nOffset 10).bind id3v2TagSize with
  | none => rfl
  | some n =>
    obtain ⟨s, hread, htag⟩ := Option.bind_eq_some_iff.mp hsize
    obtain ⟨hlen, hbytes⟩ := freadAt_header.mp hread
    obtain ⟨t0, t1, t2, major, minor, nFlags, b3, b2, b1, b0, rfl⟩ := exists_bytes_of_length hlen
    obtain ⟨hname, hversion, rfl, hn⟩ := id3v2TagSize_eq_some.mp htag
    obtain ⟨rfl, rfl, rfl⟩ : t0 = 73 ∧ t1 = 68 ∧ t2 = 51 := by simpa [id3v2Tag] using hname
    have hle : nLength ≤ n.toNat := by
      by_contra hgt
      exact h ⟨n.toNat, major, minor, b3, b2, b1, b0, hbytes, hversion.1, hversion.2, hn,
        Nat.lt_of_not_le hgt⟩
    simp only [if_pos hle]

/-- The supported tags are recognised unless there is an unsynchronised one. -/
theorem recognisesId3v2_iff (fp : Bytes) (nOffset nLength : ℕ) :
    RecognisesId3v2 fp nOffset nLength ↔ ¬ ∃ T, Id3v2At fp nOffset nLength 0x80 T := by
  constructor
  · rintro h ⟨T, hT⟩
    have hcut := h.cut T ⟨0x80, by decide, hT⟩
    rw [detectVirtualID3v2_keep] at hcut
    · exact absurd hcut (by simp)
    · rintro ⟨T', hT'⟩
      obtain ⟨major, minor, b3, b2, b1, b0, hbytes, -⟩ := hT
      obtain ⟨major', minor', b3', b2', b1', b0', hbytes', -⟩ := hT'
      simp [hbytes] at hbytes'
  · intro h
    refine ⟨fun T hT => ?_, fun hT => ?_, fun _ _ _ _ => decodedSize_syncsafe⟩
    · obtain ⟨nFlags, hflags, hat⟩ := hT
      rcases (flags_supported nFlags).mp hflags with rfl | rfl
      · exact detectVirtualID3v2_cut hat
      · exact absurd ⟨T, hat⟩ h
    · apply detectVirtualID3v2_keep
      rintro ⟨T, hat⟩
      exact hT ⟨T, 0, by decide, hat⟩

/-- The tag of a file that is unsynchronised is not recognised. -/
theorem not_recognisesId3v2 :
    ¬ RecognisesId3v2 [73, 68, 51, 3, 0, 0x80, 0, 0, 0, 0, 7] 0 11 := by
  intro h
  have hcut := h.cut 10 ⟨0x80, by decide, 3, 0, 0, 0, 0, 0, rfl, by decide, by decide, by decide,
    by decide⟩
  exact absurd hcut (by decide)

end Header

end YlUtils.FileSignature
