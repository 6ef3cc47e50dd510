import YlUtils.Sign.FileSignature

/-! # Files with tags

Of a file whose path ends in `.mp3` exactly the tags are cut off: what is looked
at lies where the rest of the file is.
-/

namespace YlUtils.FileSignature

def IsMp3Path (filepath : Bytes) : Prop :=
  ∃ p e : Bytes, cstr filepath = p ++ 46 :: e ∧ e.map tolower = [109, 112, 51]

def tagged (v2 : Option Id3v2) (body : Bytes) (v1 : Option Id3v1) : Bytes :=
  v2.elim [] Id3v2.bytes ++ (body ++ v1.elim [] Id3v1.bytes)

/-- The file has no tags of its own. -/
structure Untagged (body : Bytes) : Prop where
  ne_nil : body ≠ []
  noV2 : body.take 3 ≠ id3v2Tag
  noV1 : 128 ≤ body.length → (body.drop (body.length - 128)).take 3 ≠ id3v1Tag

variable {filepath body rest : Bytes} {v2 : Option Id3v2} {v1 : Option Id3v1}

section Path

theorem extLoop_append {e : Bytes} (he : 46 ∉ e) (before ext : Bytes) :
    extLoop (e.reverse ++ 46 :: before) ext = some (e ++ ext) := by
  induction e using List.reverseRecOn generalizing ext with
  | nil => rw [List.reverse_nil, List.nil_append, extLoop, if_pos rfl, List.nil_append]
  | append_singleton e c ih =>
    rw [List.mem_append, not_or] at he
    have hc : c ≠ 46 := fun h => he.2 (by simp [h])
    rw [List.reverse_append, List.reverse_singleton, List.singleton_append, List.cons_append,
      extLoop, if_neg hc, ih he.1, List.append_assoc]
    rfl

theorem extension_eq {p e : Bytes} (h : cstr filepath = p ++ 46 :: e) (he : 46 ∉ e) :
    extension filepath = some e := by
  rw [extension, h, List.reverse_append, List.reverse_cons, List.append_assoc,
    List.singleton_append, extLoop_append he, List.append_nil]

theorem tolower_eq : ∀ c : UInt8, (tolower c = 109 → c = 77 ∨ c = 109) ∧
    (tolower c = 112 → c = 80 ∨ c = 112) ∧ (tolower c = 51 → c = 51) := by decide +kernel

theorem IsMp3Path.extension (h : IsMp3Path filepath) :
    ∃ ext, FileSignature.extension filepath = some ext ∧ isMp3 ext = true := by
  obtain ⟨p, e, hpath, he⟩ := h
  obtain ⟨a, b, c, rfl⟩ := List.length_eq_three.mp (by simpa using congrArg List.length he)
  obtain ⟨ha, hb, hc⟩ : tolower a = 109 ∧ tolower b = 112 ∧ tolower c = 51 := by simpa using he
  have ha := (tolower_eq a).1 ha
  have hb := (tolower_eq b).2.1 hb
  obtain rfl := (tolower_eq c).2.2 hc
  refine ⟨[a, b, 51], extension_eq hpath ?_, ?_⟩ <;>
    rcases ha with rfl | rfl <;> rcases hb with rfl | rfl <;> decide

end Path

section Detection

theorem detectVirtualID3v2_of_ne (h : rest.take 3 ≠ id3v2Tag) :
    (detectVirtualID3v2 rest 0 rest.length).2 = (0, rest.length) := by
  have hnone : (freadAt rest 0 10).bind id3v2TagSize = none := by
    unfold freadAt
    split
    · rw [Option.bind_some, id3v2TagSize, List.drop_zero, List.take_take]
      exact if_pos h
    · rfl
  unfold detectVirtualID3v2
  rw [hnone]

theorem detectVirtualID3v2_append (t : Id3v2) (hrest : rest ≠ []) :
    (detectVirtualID3v2 (t.bytes ++ rest) 0 (t.bytes ++ rest).length).2 =
      (t.bytes.length, rest.length) := by
  obtain ⟨n, hn, hsize⟩ := id3v2TagSize_header t
  have hpos := List.length_pos_iff.mpr hrest
  have hheader : freadAt (t.bytes ++ rest) 0 10 = some t.header := by
    unfold freadAt Id3v2.bytes
    rw [if_pos (by simp [Id3v2.header, id3v2Tag]), List.drop_zero, List.append_assoc]
    rfl
  unfold detectVirtualID3v2
  rw [hheader, Option.bind_some, hn]
  simp only [hsize, List.length_append, Nat.zero_add, Nat.add_sub_cancel_left]
  rw [if_neg (by omega)]

theorem freadAt_append (pre s : Bytes) (off len : ℕ) :
    freadAt (pre ++ s) (pre.length + off) len = freadAt s off len := by
  unfold freadAt
  rw [List.length_append, Nat.add_assoc, List.drop_append, List.drop_eq_nil_of_le (by omega)]
  simp only [List.nil_append, Nat.add_sub_cancel_left, Nat.add_le_add_iff_left]

theorem detectVirtualID3v1_tagged (pre : Bytes) (hbody : Untagged body) :
    (detectVirtualID3v1 (pre ++ (body ++ v1.elim [] Id3v1.bytes)) pre.length
      (body ++ v1.elim [] Id3v1.bytes).length).2 = (pre.length, body.length) := by
  unfold detectVirtualID3v1
  cases v1 with
  | none =>
    rw [Option.elim_none, List.append_nil]
    by_cases h128 : body.length < 128
    · rw [if_pos h128]
    · have hread : freadAt (pre ++ body) (pre.length + body.length - 128) 128 =
          some (body.drop (body.length - 128)) := by
        rw [Nat.add_sub_assoc (by omega), freadAt_append]
        unfold freadAt
        rw [if_pos (by omega), List.take_of_length_le (by rw [List.length_drop]; omega)]
      rw [if_neg h128, hread]
      simp only
      rw [if_pos (hbody.noV1 (by omega))]
  | some t =>
    have ht : t.bytes.length = 128 := by
      rw [Id3v1.bytes, List.length_append, t.length_eq]
      rfl
    have hread : freadAt (pre ++ (body ++ t.bytes)) (pre.length + (body ++ t.bytes).length - 128)
        128 = some t.bytes := by
      rw [Nat.add_sub_assoc (by rw [List.length_append]; omega), freadAt_append, List.length_append,
        ht, Nat.add_sub_cancel, ← Nat.add_zero body.length, freadAt_append]
      unfold freadAt
      rw [if_pos (by omega), List.drop_zero, List.take_of_length_le (by omega)]
    rw [Option.elim_some, if_neg (by rw [List.length_append]; omega), hread]
    simp only
    rw [if_neg (by simp [Id3v1.bytes, id3v1Tag]), List.length_append, ht, Nat.add_sub_cancel]

theorem Untagged.take_append (h : Untagged body) :
    (body ++ v1.elim [] Id3v1.bytes).take 3 ≠ id3v2Tag := by
  cases v1 with
  | none => simpa using h.noV2
  | some t =>
    match body, h with
    | [], h => exact absurd rfl h.ne_nil
    | [a], _ => simp [Id3v1.bytes, id3v1Tag, id3v2Tag]
    | [a, b], _ => simp [Id3v1.bytes, id3v1Tag, id3v2Tag]
    | a :: b :: c :: s, h => exact h.noV2

theorem virtualFile_tagged {ext : Bytes} (hext : isMp3 ext = true) (hbody : Untagged body)
    (v2 : Option Id3v2) (v1 : Option Id3v1) :
    virtualFile ext (tagged v2 body v1) = ((v2.elim [] Id3v2.bytes).length, body.length) := by
  have hv2 : (detectVirtualID3v2 (tagged v2 body v1) 0 (tagged v2 body v1).length).2 =
      ((v2.elim [] Id3v2.bytes).length, (body ++ v1.elim [] Id3v1.bytes).length) := by
    cases v2 with
    | none => exact detectVirtualID3v2_of_ne hbody.take_append
    | some t =>
      apply detectVirtualID3v2_append
      simp [hbody.ne_nil]
  rw [virtualFile, if_pos hext, detectVirtualFile]
  simp only [hv2]
  exact detectVirtualID3v1_tagged _ hbody

end Detection

end YlUtils.FileSignature
