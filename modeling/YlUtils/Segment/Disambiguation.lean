import Mathlib.Tactic.ByContra
import YlUtils.Segment.StatDisambi

/-! # The tags of a sentence

Where every word has a category, it has one of its tags when `Stat_Disambi` ends, but
for the last word of a span whose number of words is a multiple of 48. A span of
fewer words has a best tagging between the words beside it. The loop does not end if
a category with a hyphen is too short to be looked at.
-/

namespace YlUtils

/-- The number of words with several tags that stand right before position `i`. -/
def multiRun (u : WordList) : ℕ → ℕ
  | 0 => 0
  | i + 1 => if IsMulti (u.cates i) then multiRun u i + 1 else 0

/-- The word at position `j` is the last of a full part, behind which no span goes on before
position `i`. -/
structure IsLeft (u : WordList) (i j : ℕ) : Prop where
  multi : IsMulti (u.cates j)
  full : 48 ∣ multiRun u (j + 1)
  ends : j + 1 = i ∨ ¬ IsMulti (u.cates (j + 1))

/-- The words from `s` on are a whole span of `L` words. -/
structure IsSpan (u : WordList) (s L : ℕ) : Prop where
  pos : 0 < L
  le : s + L ≤ u.wid
  multi : ∀ j, s ≤ j → j < s + L → IsMulti (u.cates j)
  before : s = 0 ∨ ¬ IsMulti (u.cates (s - 1))
  behind : s + L = u.wid ∨ ¬ IsMulti (u.cates (s + L))

/-- Every word has a category, so that `GuessTag` is not asked. The categories fit the graph, and
the program does not read behind the arrays. -/
structure HasCates (u : WordList) : Prop where
  wid_lt : u.wid < MAX_NumOfWordsPerSentence
  cate : ∀ j < u.wid, IsCate (u.cates j)

section Span

variable {u u' : WordList} {s L i j k : ℕ}

theorem multiRun_add (h : ∀ j, s ≤ j → j < s + k → IsMulti (u.cates j)) :
    multiRun u (s + k) = multiRun u s + k := by
  induction k with
  | zero => rfl
  | succ k ih =>
    rw [← Nat.add_assoc, multiRun, if_pos (h _ (by omega) (by omega)),
      ih fun j hj hlt => h j hj (by omega)]
    rfl

theorem multiRun_eq_zero (h : s = 0 ∨ ¬ IsMulti (u.cates (s - 1))) : multiRun u s = 0 := by
  cases s with
  | zero => rfl
  | succ s =>
    rw [multiRun, if_neg]
    simpa using h

theorem length_spanCates (hlt : i < j) : (spanCates u i j).length = min (j - i + 2) 49 := by
  simp only [spanCates, List.length_take, List.length_append, List.length_cons, List.length_map,
    List.length_range', List.length_nil, AMBICHLENG]
  omega

theorem getCate_natCast (u : WordList) (j : ℕ) : u.GetCate j = u.cates j :=
  if_neg (show ¬ (j : ℤ) < 0 by omega)

theorem eq_cons_of_tagsSet {tags : List Bytes} (hlen : tags.length = L + 1)
    (hset : TagsSet u u' (i - 1) tags) :
    ∃ tag, tags = tag :: (List.range' i L).map u'.cates := by
  obtain ⟨tag, ts, rfl⟩ := List.exists_cons_of_length_eq_add_one hlen
  refine ⟨tag, congrArg (tag :: ·) (List.ext_getElem (by simpa using hlen) fun k hk hk' => ?_)⟩
  have hpos : ((k + 1 : ℕ) : ℤ) + ((i : ℤ) - 1) = (i + k : ℕ) := by omega
  have hget := hset.set (k + 1) (by rw [List.length_cons]; omega) (by omega)
  rw [hpos, getCate_natCast] at hget
  simp [hget, List.getD_eq_getElem?_getD, hk]

theorem spanCates_eq (hle : j - i < 48) : spanCates u i j =
    cateBefore u i :: (List.range' i (j - i)).map u.cates ++ [cateBehind u j] := by
  rw [spanCates, List.take_of_length_le, List.take_of_length_le] <;>
    simp only [List.length_take, List.length_append, List.length_cons, List.length_map,
      List.length_range', List.length_nil, AMBICHLENG] <;> omega

theorem spanCates_getD_zero : (spanCates u i j).getD 0 [] = cateBefore u i := rfl

theorem spanCates_getD_succ (hk : k < j - i) (hk' : k < 48) :
    (spanCates u i j).getD (k + 1) [] = u.cates (i + k) := by
  have hlen : k + 1 < ((cateBefore u i :: (List.range' i (j - i)).map u.cates).take 49).length := by
    simp only [List.length_take, List.length_cons, List.length_map, List.length_range']
    omega
  rw [List.getD_eq_getElem?_getD, spanCates, AMBICHLENG, List.getElem?_take_of_lt (by omega),
    List.getElem?_append_left hlen, List.getElem?_take_of_lt (by omega), List.getElem?_cons_succ,
    List.getElem?_map, List.getElem?_range' hk, Option.map_some, Option.getD_some, Nat.one_mul]

theorem isCate_single {c : UInt8} : IsCate [c] :=
  ⟨⟨by simp [MAX_WordCatesLen], by simp [splitTags]⟩, by simp⟩

theorem isCate_spanCates (h : ∀ j < u.wid, IsCate (u.cates j)) (hi : i < u.wid) (hj : j ≤ u.wid) :
    ∀ cate ∈ spanCates u i j, IsCate cate := by
  intro cate hcate
  rcases List.mem_append.mp (List.mem_of_mem_take hcate) with hmem | hmem
  · rcases List.mem_cons.mp (List.mem_of_mem_take hmem) with rfl | hmem
    · unfold cateBefore
      split
      · exact isCate_single
      · exact h (i - 1) (by omega)
    · obtain ⟨k, hk, rfl⟩ := List.mem_map.mp hmem
      have hk := List.mem_range'_1.mp hk
      exact h k (by omega)
  · obtain rfl := List.mem_singleton.mp hmem
    unfold cateBehind
    split
    · exact isCate_single
    · exact h j (by omega)

/-- What a part of a span is changed to. -/
structure PartSet (u u' : WordList) (start stop : ℕ) : Prop where
  words : u'.words = u.words
  wid : u'.wid = u.wid
  before : ∀ j, j + 1 < start → u'.cates j = u.cates j
  set : ∀ j, start ≤ j + 1 → j < min stop (start + 47) → u'.cates j ∈ splitTags [] (u.cates j)
  behind : ∀ j, min stop (start + 47) ≤ j → u'.cates j = u.cates j

theorem partSet_of_tagsSet {tags : List Bytes} {last : Bytes} (hlt : i < j)
    (htags : Tagging (spanCates u i j) (tags ++ [last])) (hset : TagsSet u u' (i - 1) tags) :
    PartSet u u' i j := by
  have hlen := htags.length_eq
  rw [length_spanCates hlt, List.length_append, List.length_singleton] at hlen
  refine ⟨hset.words, hset.wid, fun k hk => ?_, fun k hk hkj => ?_, fun k hk => ?_⟩
  · rw [← getCate_natCast, ← getCate_natCast]
    exact hset.frame k (.inl (by omega))
  · have hpos : ((k + 1 - i : ℕ) : ℤ) + ((i : ℤ) - 1) = k := by omega
    have hget := hset.set (k + 1 - i) (by omega) (by omega)
    rw [hpos, getCate_natCast] at hget
    have hmem := htags.getD_mem (i := k + 1 - i) (by
      rw [List.length_append, List.length_singleton]
      omega)
    rw [List.getD_eq_getElem?_getD, List.getElem?_append_left (by omega),
      ← List.getD_eq_getElem?_getD, ← hget] at hmem
    rw [tagsAt] at hmem
    rcases Nat.eq_or_lt_of_le hk with rfl | hik
    · rw [Nat.sub_self, spanCates_getD_zero, cateBefore, if_neg (by omega)] at hmem
      exact hmem
    · obtain ⟨m, hm⟩ : ∃ m, k + 1 - i = m + 1 := ⟨k - i, by omega⟩
      rw [hm, spanCates_getD_succ (by omega) (by omega), show i + m = k by omega] at hmem
      exact hmem
  · rw [← getCate_natCast, ← getCate_natCast]
    exact hset.frame k (.inr (by omega))

end Span

section Score

variable {W : Type} [LinearOrder W] (P : TagStatistics W)

/-- The score of the tags of a span, between the category before it and the first tag behind it. -/
def spanScore (u : WordList) (s L : ℕ) (tags : List Bytes) : W :=
  pathScore P u.GetWord true ((s : ℤ) - 1)
    (cateBefore u s :: tags ++ [(splitTags [] (cateBehind u (s + L))).headD []])

/-- The span has tags in `u'` that score best among its taggings in `u`. -/
def HasBestTags (u u' : WordList) (s L : ℕ) : Prop :=
  ∀ tags, Tagging ((List.range' s L).map u.cates) tags →
    spanScore P u s L tags ≤ spanScore P u s L ((List.range' s L).map u'.cates)

/-- What holds when the loop for the list `u₀` stands at a position. -/
structure DisambiInv (u₀ : WordList) (x : WordList × ℕ) : Prop where
  words : x.1.words = u₀.words
  wid : x.1.wid = u₀.wid
  le : x.2 ≤ u₀.wid
  cut : x.2 < u₀.wid → IsMulti (u₀.cates x.2) → 48 ∣ multiRun u₀ x.2
  passed : ∀ j < x.2, 45 ∈ u₀.cates j → IsMulti (u₀.cates j)
  later : ∀ j, x.2 ≤ j → x.1.cates j = u₀.cates j
  left : ∀ j < x.2, IsLeft u₀ x.2 j → x.1.cates j = u₀.cates j
  tag : ∀ j < x.2, ¬ IsLeft u₀ x.2 j → x.1.cates j ∈ splitTags [] (u₀.cates j)
  best : ∀ s L, IsSpan u₀ s L → L < 48 → s + L ≤ x.2 → HasBestTags P u₀ x.1 s L

variable {P} {u₀ u u' : WordList} {i j : ℕ}

theorem DisambiInv.init : DisambiInv P u₀ (u₀, 0) where
  words := rfl
  wid := rfl
  le := Nat.zero_le _
  cut _ _ := Nat.dvd_zero 48
  passed j hj := absurd hj (Nat.not_lt_zero j)
  later _ _ := rfl
  left j hj := absurd hj (Nat.not_lt_zero j)
  tag j hj := absurd hj (Nat.not_lt_zero j)
  best s L hs _ hle := absurd hs.pos (by omega)

theorem DisambiInv.cate (h : HasCates u₀) (hinv : DisambiInv P u₀ (u, i)) (hj : j < u₀.wid) :
    IsCate (u.cates j) := by
  rcases Nat.lt_or_ge j i with hlt | hge
  · by_cases hleft : IsLeft u₀ i j
    · exact (hinv.left j hlt hleft) ▸ h.cate j hj
    · exact (h.cate j hj).of_mem (hinv.tag j hlt hleft)
  · exact (hinv.later j hge) ▸ h.cate j hj

theorem DisambiInv.skip (hinv : DisambiInv P u₀ (u, i)) (hi : i < u₀.wid) (hne : u.cates i ≠ [])
    (hsingle : 45 ∉ u.cates i) : DisambiInv P u₀ (u, i + 1) := by
  have hcate : u.cates i = u₀.cates i := hinv.later i (Nat.le_refl i)
  have hmulti : ¬ IsMulti (u₀.cates i) := fun h => hsingle (hcate ▸ h.2)
  refine ⟨hinv.words, hinv.wid, hi, fun _ _ => ?_, fun j hj hmem => ?_, fun j hj => ?_,
    fun j hj hleft => ?_, fun j hj hleft => ?_, fun s L hs hL hle => ?_⟩
  · rw [multiRun, if_neg hmulti]
    exact Nat.dvd_zero 48
  · rcases Nat.lt_or_ge j i with hlt | hge
    · exact hinv.passed j hlt hmem
    · obtain rfl : j = i := by dsimp only at hj; omega
      exact absurd (hcate ▸ hmem) hsingle
  · exact hinv.later j (by dsimp only at hj ⊢; omega)
  · have hji : j ≠ i := fun h => hmulti (h ▸ hleft.multi)
    have hlt : j < i := by dsimp only at hj; omega
    refine hinv.left j hlt ⟨hleft.multi, hleft.full, .inr ?_⟩
    rcases hleft.ends with h | h
    · dsimp only at h
      omega
    · exact h
  · rcases Nat.lt_or_ge j i with hlt | hge
    · refine hinv.tag j hlt fun h => hleft ⟨h.multi, h.full, .inr ?_⟩
      rcases h.ends with h | h
      · dsimp only at h
        exact h ▸ hmulti
      · exact h
    · obtain rfl : j = i := by dsimp only at hj; omega
      rw [← hcate, splitTags_single hne hsingle]
      exact List.mem_singleton_self _
  · refine hinv.best s L hs hL ?_
    by_contra hlt
    dsimp only at hle hlt
    exact hmulti (hs.multi i (by have := hs.pos; omega) (by omega))

theorem DisambiInv.skips (h : HasCates u₀) (hinv : DisambiInv P u₀ (u, i)) {rounds : ℕ}
    (hrounds : i + rounds = u₀.wid) :
    DisambiInv P u₀ (u, skipSingle u rounds i) ∧ i ≤ skipSingle u rounds i ∧
      (skipSingle u rounds i < u₀.wid → 45 ∈ u.cates (skipSingle u rounds i)) := by
  induction rounds generalizing i with
  | zero => exact ⟨hinv, Nat.le_refl i, fun hlt => by rw [skipSingle] at hlt; omega⟩
  | succ rounds ih =>
    have hne := (hinv.cate h (j := i) (by omega)).ne_nil
    rw [skipSingle]
    split
    · rename_i hsingle
      obtain ⟨hinv', hle, hhyphen⟩ := ih (hinv.skip (by omega) hne hsingle.2) (by omega)
      exact ⟨hinv', by omega, hhyphen⟩
    · rename_i hsingle
      exact ⟨hinv, Nat.le_refl i, fun _ => by_contra fun hmem => hsingle ⟨hne, hmem⟩⟩

theorem spanFrom_spec {rounds : ℕ} (h : ∀ j, i ≤ j → j < i + rounds → u.cates j ≠ []) :
    ∃ stop, spanFrom P rounds i u = some (u, stop) ∧ i ≤ stop ∧ stop ≤ i + rounds ∧
      (∀ j, i ≤ j → j < stop → IsMulti (u.cates j)) ∧
      (stop = i + rounds ∨ ¬ IsMulti (u.cates stop)) := by
  induction rounds generalizing i with
  | zero => exact ⟨i, rfl, Nat.le_refl i, Nat.le_refl i, fun j hj hlt => by omega, .inl rfl⟩
  | succ rounds ih =>
    rw [spanFrom, if_neg (h i (Nat.le_refl i) (by omega))]
    split
    · rename_i hmulti
      obtain ⟨stop, hstop, hle, hle', hspan, hend⟩ := ih (i := i + 1) fun j hj hlt =>
        h j (by omega) (by omega)
      refine ⟨stop, hstop, by omega, by omega, fun j hj hlt => ?_,
        by rwa [Nat.add_right_comm] at hend⟩
      rcases Nat.eq_or_lt_of_le hj with rfl | hlt'
      · exact hmulti
      · exact hspan j hlt' hlt
    · rename_i hmulti
      exact ⟨i, rfl, Nat.le_refl i, by omega, fun j hj hlt => by omega, .inr hmulti⟩

theorem HasBestTags.congr {s L : ℕ} (h : HasBestTags P u₀ u s L)
    (heq : ∀ j, s ≤ j → j < s + L → u'.cates j = u.cates j) : HasBestTags P u₀ u' s L := by
  intro tags htags
  have hmap : (List.range' s L).map u'.cates = (List.range' s L).map u.cates :=
    List.map_congr_left fun j hj => by
      have hj := List.mem_range'_1.mp hj
      exact heq j hj.1 hj.2
  rw [hmap]
  exact h tags htags

theorem DisambiInv.part {start stop : ℕ} (hinv : DisambiInv P u₀ (u, start)) (hlt : start < stop)
    (hstop : stop ≤ u₀.wid) (hspan : ∀ j, start ≤ j → j < stop → IsMulti (u₀.cates j))
    (hend : stop = u₀.wid ∨ ¬ IsMulti (u₀.cates stop)) (hset : PartSet u u' start stop)
    (hbest : IsSpan u₀ start (stop - start) → stop - start < 48 →
      HasBestTags P u₀ u' start (stop - start)) :
    DisambiInv P u₀ (u', min stop (start + 48)) := by
  have hmulti := hspan start (Nat.le_refl start) hlt
  have hcut := hinv.cut (by dsimp only; omega) hmulti
  dsimp only at hcut
  have hrun : ∀ k, start + k ≤ stop → multiRun u₀ (start + k) = multiRun u₀ start + k :=
    fun k hk => multiRun_add fun j hj hjk => hspan j hj (by omega)
  have hlater : ∀ j, start ≤ j → u.cates j = u₀.cates j := hinv.later
  refine ⟨hset.words.trans hinv.words, hset.wid.trans hinv.wid, by dsimp only; omega,
    fun hi hm => ?_, fun j hj hmem => ?_, fun j hj => ?_, fun j hj hleft => ?_,
    fun j hj hleft => ?_, fun s L hs hL hle => ?_⟩
  all_goals dsimp only at *
  · rcases Nat.le_total stop (start + 48) with h | h
    · rw [Nat.min_eq_left h] at hi hm
      exact absurd hm (hend.resolve_left (by omega))
    · rw [Nat.min_eq_right h, hrun 48 h]
      exact (Nat.dvd_add_right hcut).mpr (Nat.dvd_refl 48)
  · rcases Nat.lt_or_ge j start with h | h
    · exact hinv.passed j h hmem
    · exact hspan j h (by omega)
  · rw [hset.behind j (by omega), hlater j (by omega)]
  · rcases Nat.lt_trichotomy (j + 1) start with h | h | h
    · rw [hset.before j h]
      exact hinv.left j (by omega)
        ⟨hleft.multi, hleft.full, .inr (hleft.ends.resolve_left (by omega))⟩
    · exact absurd hmulti (h ▸ hleft.ends.resolve_left (by omega))
    · obtain ⟨k, rfl⟩ := Nat.exists_eq_add_of_le (Nat.le_of_lt_succ h)
      have hfull := hleft.full
      rw [Nat.add_assoc, hrun (k + 1) (by omega), Nat.dvd_add_right hcut] at hfull
      have hle := Nat.le_of_dvd (Nat.succ_pos k) hfull
      rw [hset.behind _ (by omega), hlater _ (by omega)]
  · rcases Nat.lt_or_ge (j + 1) start with h | h
    · rw [hset.before j h]
      exact hinv.tag j (by omega) fun h' =>
        hleft ⟨h'.multi, h'.full, .inr (h'.ends.resolve_left (by dsimp only; omega))⟩
    · by_cases hj' : j < min stop (start + 47)
      · have hmem := hset.set j h hj'
        rcases Nat.eq_or_lt_of_le h with hstart | hstart
        · -- The word before the part was cut off, or it has its tag and keeps it.
          by_cases hleft' : IsLeft u₀ start j
          · rwa [hinv.left j (by dsimp only; omega) hleft'] at hmem
          · have htag := hinv.tag j (by dsimp only; omega) hleft'
            dsimp only at htag
            rw [splitTags_of_mem htag, List.mem_singleton] at hmem
            exact hmem ▸ htag
        · rwa [hlater j (by omega)] at hmem
      · obtain rfl : j = start + 47 := by omega
        refine absurd ⟨hspan _ (by omega) (by omega), ?_, .inl (by omega)⟩ hleft
        rw [Nat.add_assoc, hrun 48 (by omega)]
        exact (Nat.dvd_add_right hcut).mpr (Nat.dvd_refl 48)
  · rcases Nat.lt_trichotomy (s + L) start with h | h | h
    · exact (hinv.best s L hs hL (Nat.le_of_lt h)).congr fun j _ hj => hset.before j (by omega)
    · exact absurd hmulti (h ▸ hs.behind.resolve_left (by omega))
    · obtain rfl : s = start := by
        rcases Nat.lt_trichotomy s start with hlt' | heq | hgt
        · obtain ⟨k, rfl⟩ := Nat.exists_eq_add_of_le (Nat.le_of_lt hlt')
          rw [multiRun_add fun j hj hjk => hs.multi j hj (by omega), multiRun_eq_zero hs.before,
            Nat.zero_add] at hcut
          have hle := Nat.le_of_dvd (by omega) hcut
          omega
        · exact heq
        · exact absurd (hspan (s - 1) (by omega) (by omega)) (hs.before.resolve_left (by omega))
      obtain rfl : L = stop - s := by
        by_contra hne
        exact hs.behind.elim (fun h => by omega) fun h => h (hspan _ (by omega) (by omega))
      exact hbest hs hL

theorem DisambiInv.cateBefore_eq {start L : ℕ} (h : HasCates u₀) (hinv : DisambiInv P u₀ (u, start))
    (hs : IsSpan u₀ start L) : cateBefore u start = cateBefore u₀ start ∧
      splitTags [] (cateBefore u₀ start) = [cateBefore u₀ start] := by
  unfold cateBefore
  split
  · exact ⟨rfl, rfl⟩
  · have hpos := hs.pos
    have hle := hs.le
    have hmulti := hs.before.resolve_left ‹_›
    have hne := (h.cate (start - 1) (by omega)).ne_nil
    have hsplit := splitTags_single hne fun hmem =>
      hmulti (hinv.passed _ (by dsimp only; omega) hmem)
    refine ⟨?_, hsplit⟩
    have htag := hinv.tag (start - 1) (by dsimp only; omega) fun hleft => hmulti hleft.multi
    rwa [hsplit, List.mem_singleton] at htag

theorem DisambiInv.hasBestTags {start L : ℕ} {tags : List Bytes} {last : Bytes} (h : HasCates u₀)
    (hinv : DisambiInv P u₀ (u, start)) (hs : IsSpan u₀ start L) (hL : L < 48)
    (htags : Tagging (spanCates u start (start + L)) (tags ++ [last]))
    (hlast : (tagsAt (spanCates u start (start + L)) tags.length).head? = some last)
    (hbest : ∀ tags', Tagging (spanCates u start (start + L)) (tags' ++ [last]) →
      pathScore P u.GetWord true (start - 1) (tags' ++ [last]) ≤
        pathScore P u.GetWord true (start - 1) (tags ++ [last]))
    (hset : TagsSet u u' (start - 1) tags) : HasBestTags P u₀ u' start L := by
  obtain ⟨hbefore, hsplit⟩ := hinv.cateBefore_eq h hs
  have hlater : ∀ j, start ≤ j → u.cates j = u₀.cates j := hinv.later
  have hspan : (List.range' start L).map u.cates = (List.range' start L).map u₀.cates :=
    List.map_congr_left fun j hj => hlater j (List.mem_range'_1.mp hj).1
  have hbehind : cateBehind u (start + L) = cateBehind u₀ (start + L) := by
    unfold cateBehind
    rw [hinv.wid, hlater _ (by omega)]
  have hword : u.GetWord = u₀.GetWord := by
    have hwords : u.words = u₀.words := hinv.words
    funext j
    simp only [WordList.GetWord, hwords]
  have hcates : spanCates u start (start + L) =
      cateBefore u₀ start :: (List.range' start L).map u₀.cates ++ [cateBehind u₀ (start + L)] := by
    rw [spanCates_eq (by omega), Nat.add_sub_cancel_left, hspan, hbefore, hbehind]
  have hlen : tags.length = L + 1 := by
    have := htags.length_eq
    simp only [hcates, List.length_append, List.length_cons, List.length_map, List.length_range',
      List.length_nil] at this
    omega
  rw [hcates] at htags hlast hbest
  obtain ⟨tag, hset'⟩ := eq_cons_of_tagsSet hlen hset
  rw [tagsAt, hlen, List.getD_eq_getElem?_getD, List.getElem?_append_right (by simp)] at hlast
  simp only [List.length_cons, List.length_map, List.length_range', Nat.sub_self,
    List.getElem?_cons_zero, Option.getD_some] at hlast
  obtain rfl : tag = cateBefore u₀ start := by
    rw [hset'] at htags
    have hmem := (List.forall₂_cons.mp htags).1
    rwa [hsplit, List.mem_singleton] at hmem
  intro tags' htags'
  rw [hword, hset'] at hbest
  have hle := hbest (cateBefore u₀ start :: tags') (List.Forall₂.cons (by rw [hsplit]; simp)
    (List.rel_append htags' (List.Forall₂.cons (List.mem_of_mem_head? hlast) List.Forall₂.nil)))
  rw [spanScore, spanScore, List.headD_eq_head?_getD, hlast]
  exact hle

theorem DisambiInv.disambiguate {start stop : ℕ} (h : HasCates u₀)
    (hinv : DisambiInv P u₀ (u, start)) (hlt : start < stop) (hstop : stop ≤ u₀.wid)
    (hspan : ∀ j, start ≤ j → j < stop → IsMulti (u.cates j))
    (hend : stop = u₀.wid ∨ ¬ IsMulti (u.cates stop)) :
    Succeeds (disambiguate P u (spanCates u start stop) (start - 1)) fun u' =>
      DisambiInv P u₀ (u', min stop (start + 48)) := by
  have hwid : u.wid = u₀.wid := hinv.wid
  have hlater : ∀ j, start ≤ j → u.cates j = u₀.cates j := hinv.later
  have hmax := h.wid_lt
  have hlen := length_spanCates (u := u) hlt
  have hcates := isCate_spanCates (u := u) (i := start) (j := stop)
    (fun j hj => hinv.cate h (hwid ▸ hj)) (by omega) (by omega)
  have hpos : (-1 : ℤ) ≤ (start : ℤ) - 1 := by omega
  have hrun := disambiguate_isGreatest (P := P) u (List.ne_nil_of_length_pos (by omega))
    (by unfold AMBICHLENG; omega) hcates hpos (by omega)
    (fun hneg => by
      obtain rfl : start = 0 := by omega
      rw [tagsAt, spanCates_getD_zero]
      simp [cateBefore, splitTags])
  refine hrun.mono fun u' hu' => ?_
  obtain ⟨tags, last, htags, hlast, hbest, hset⟩ := hu'
  refine hinv.part hlt hstop (fun j hj hjs => hlater j hj ▸ hspan j hj hjs)
    (hlater stop (by omega) ▸ hend) (partSet_of_tagsSet hlt htags hset) fun hs hL => ?_
  have hadd : start + (stop - start) = stop := by omega
  exact hinv.hasBestTags h hs hL (by rwa [hadd]) (by rwa [hadd]) (by rwa [hadd]) hset

/-- One round goes on behind a part of a span, unless a category with a hyphen is too short. -/
theorem disambiRound_spec {x : WordList × ℕ} (h : HasCates u₀) (hinv : DisambiInv P u₀ x)
    (hlt : x.2 < u₀.wid) : ∃ x', disambiRound P x = .again x' ∧ DisambiInv P u₀ x' ∧ x.2 ≤ x'.2 ∧
      (x'.2 = x.2 → 45 ∈ u₀.cates x.2 ∧ ¬ IsMulti (u₀.cates x.2)) := by
  obtain ⟨u, i⟩ := x
  have hwid : u.wid = u₀.wid := hinv.wid
  dsimp only at hlt
  obtain ⟨hinv', hle, hhyphen⟩ := hinv.skips h (show i + (u₀.wid - i) = u₀.wid by omega)
  unfold disambiRound
  dsimp only
  rw [hwid, if_pos hlt]
  generalize skipSingle u (u₀.wid - i) i = start at hinv' hle hhyphen ⊢
  have hlater : ∀ j, start ≤ j → u.cates j = u₀.cates j := hinv'.later
  have hstart : start ≤ u₀.wid := hinv'.le
  obtain ⟨stop, hrun, hle', hstop, hspan, hend⟩ := spanFrom_spec (P := P) (u := u) (i := start)
    fun j hj (hjs : j < start + (u₀.wid - start)) => (hinv'.cate h (by omega)).ne_nil
  rw [hrun, show start + (u₀.wid - start) = u₀.wid by omega] at *
  dsimp only
  by_cases hpart : start < stop
  · obtain ⟨u', hu', hnext⟩ := hinv'.disambiguate h hpart hstop hspan hend
    rw [if_pos hpart, hu']
    exact ⟨_, rfl, hnext, by dsimp only [AMBICHLENG]; omega, fun heq => by
      dsimp only [AMBICHLENG] at heq
      omega⟩
  · obtain rfl : stop = start := by omega
    rw [if_neg hpart]
    refine ⟨_, rfl, hinv', hle, fun heq => ?_⟩
    dsimp only at heq ⊢
    subst heq
    rw [← hlater _ (Nat.le_refl _)]
    exact ⟨hhyphen hlt, hend.resolve_left (Nat.ne_of_lt hlt)⟩

theorem loop_disambiRound (h : HasCates u₀)
    (hmulti : ∀ j < u₀.wid, 45 ∈ u₀.cates j → IsMulti (u₀.cates j)) :
    ∃ r, loop (disambiRound P) (u₀.wid + 1) (u₀, 0) = some r ∧
      Succeeds r fun u' => DisambiInv P u₀ (u', u₀.wid) := by
  refine loop_of_measure (I := DisambiInv P u₀) (fun x => u₀.wid - x.2) (fun x x' hinv hagain => ?_)
    (fun x r hinv hleave => ?_) DisambiInv.init (Nat.lt_succ_self _)
  · have hlt : x.2 < u₀.wid := by
      by_contra hge
      rw [disambiRound, if_neg (hinv.wid ▸ hge)] at hagain
      cases hagain
    obtain ⟨x'', hround, hinv', hle, hstuck⟩ := disambiRound_spec h hinv hlt
    rw [hagain] at hround
    cases hround
    have hne : x'.2 ≠ x.2 := fun heq => (hstuck heq).2 (hmulti _ hlt (hstuck heq).1)
    exact ⟨hinv', by omega⟩
  · by_cases hlt : x.2 < u₀.wid
    · obtain ⟨x', hround, -⟩ := disambiRound_spec h hinv hlt
      rw [hleave] at hround
      cases hround
    · rw [disambiRound, if_neg (hinv.wid ▸ hlt)] at hleave
      cases hleave
      have hend : x.2 = u₀.wid := Nat.le_antisymm hinv.le (Nat.not_lt.mp hlt)
      exact succeeds_some.mpr (hend ▸ hinv)

/-- Where every word has a category, the loop ends if and only if none with a hyphen is too short to
be looked at. -/
theorem disambiRound_ends_iff (h : HasCates u₀) : Ends (disambiRound P) (u₀, 0) ↔
    ∀ j < u₀.wid, 45 ∈ u₀.cates j → IsMulti (u₀.cates j) := by
  refine ⟨fun hends p hp hhyphen => by_contra fun hmulti => ?_, fun hmulti => ?_⟩
  · refine not_ends (I := fun x => DisambiInv P u₀ x ∧ x.2 ≤ p) (fun x ⟨hinv, hle⟩ => ?_)
      ⟨DisambiInv.init, Nat.zero_le p⟩ hends
    obtain ⟨x', hround, hinv', -⟩ := disambiRound_spec h hinv (by omega)
    exact ⟨x', hround, hinv', Nat.not_lt.mp fun hlt => hmulti (hinv'.passed p hlt hhyphen)⟩
  · obtain ⟨r, hr, -⟩ := loop_disambiRound (P := P) h hmulti
    exact ⟨_, by rw [hr]; rfl⟩

/-- Where every word has a category, it gets one of its tags, but for the last word of a span whose
number of words is a multiple of 48. The tags of a span of fewer words are best. -/
theorem stat_Disambi_tags (h : HasCates u₀)
    (hmulti : ∀ j < u₀.wid, 45 ∈ u₀.cates j → IsMulti (u₀.cates j)) :
    Succeeds (Stat_Disambi P u₀) fun u' => u'.words = u₀.words ∧ u'.wid = u₀.wid ∧
      (∀ j < u₀.wid, ¬ IsLeft u₀ u₀.wid j → u'.cates j ∈ splitTags [] (u₀.cates j)) ∧
      (∀ j < u₀.wid, IsLeft u₀ u₀.wid j → u'.cates j = u₀.cates j) ∧
      ∀ s L, IsSpan u₀ s L → L < 48 → HasBestTags P u₀ u' s L := by
  obtain ⟨r, hr, hsucceeds⟩ := loop_disambiRound (P := P) h hmulti
  rw [Stat_Disambi, if_pos h.wid_lt, hr, Option.join_some]
  exact hsucceeds.mono fun u' hinv => ⟨hinv.words, hinv.wid, hinv.tag, hinv.left,
    fun s L hs hL => hinv.best s L hs hL hs.le⟩

end Score

def threeWords : WordList :=
  ⟨fun _ => [176, 161], fun j => if j = 1 then [110, 45, 118] else [97], 3⟩

theorem hasCates_threeWords : HasCates threeWords := by
  refine ⟨by decide, fun j _ => ?_⟩
  unfold threeWords
  dsimp only
  split
  · exact ⟨⟨by decide, by decide⟩, by decide⟩
  · exact isCate_single

theorem disambiRound_ends_threeWords : Ends (disambiRound .uniform) (threeWords, 0) ↔
    ∀ j < threeWords.wid, 45 ∈ threeWords.cates j → IsMulti (threeWords.cates j) :=
  disambiRound_ends_iff hasCates_threeWords

theorem stat_Disambi_threeWords :
    Succeeds (Stat_Disambi .uniform threeWords) fun u' =>
      u'.words = threeWords.words ∧ u'.wid = threeWords.wid ∧
        (∀ j < threeWords.wid, ¬ IsLeft threeWords threeWords.wid j →
          u'.cates j ∈ splitTags [] (threeWords.cates j)) ∧
        (∀ j < threeWords.wid, IsLeft threeWords threeWords.wid j →
          u'.cates j = threeWords.cates j) ∧
        ∀ s L, IsSpan threeWords s L → L < 48 → HasBestTags .uniform threeWords u' s L :=
  stat_Disambi_tags hasCates_threeWords (by decide)

end YlUtils
