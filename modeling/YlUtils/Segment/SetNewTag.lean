import YlUtils.Segment.Spans

/-! # Writing the tags of a span

The tags are written from the last word but one backwards along the pointers of
the graph. The word behind the span keeps its category, of which the first tag is
taken to judge the tags before it.
-/

namespace YlUtils

/-- `u'` differs from `u` by the tags at the positions from `StWordPos` on. -/
structure TagsSet (u u' : WordList) (StWordPos : ℤ) (tags : List Bytes) : Prop where
  words : u'.words = u.words
  wid : u'.wid = u.wid
  set : ∀ i < tags.length, 0 ≤ i + StWordPos → u'.GetCate (i + StWordPos) = tags.getD i []
  frame : ∀ j, j < StWordPos ∨ tags.length + StWordPos ≤ j → u'.GetCate j = u.GetCate j

section Set

variable {u u' u'' : WordList} {StWordPos wpos : ℤ} {tag : Bytes} {tags : List Bytes}

theorem TagsSet.refl (u : WordList) (StWordPos : ℤ) : TagsSet u u StWordPos [] :=
  ⟨rfl, rfl, by simp, fun _ _ => rfl⟩

theorem getCate_setCate (h : u.setCate wpos tag = some u') (j : ℤ) :
    u'.GetCate j = if 0 ≤ wpos ∧ j = wpos then tag else u.GetCate j := by
  unfold WordList.setCate at h
  split at h
  · split at h
    · cases h
      rw [if_neg (by omega)]
    · cases h
  · split at h
    · cases h
      simp only [WordList.GetCate]
      by_cases hj : j = wpos
      · subst hj
        rw [if_neg ‹_›, if_pos ⟨by omega, rfl⟩, Function.update_self]
      · rw [if_neg (c := 0 ≤ wpos ∧ j = wpos) fun hc => hj hc.2]
        split
        · rfl
        · exact Function.update_of_ne (by omega) _ _
    · cases h

theorem setCate_words (h : u.setCate wpos tag = some u') : u'.words = u.words ∧ u'.wid = u.wid := by
  unfold WordList.setCate at h
  split at h <;> split at h <;> cases h <;> exact ⟨rfl, rfl⟩

theorem isSome_setCate (hneg : wpos < 0 → tag.length ≤ 1) (hpos : wpos < MAX_NumOfWordsPerSentence)
    (hlen : tag.length ≤ MAX_WordCatesLen) : (u.setCate wpos tag).isSome := by
  unfold WordList.setCate
  split
  · rw [if_pos (hneg ‹_›)]
    rfl
  · rw [if_pos ⟨by omega, hlen⟩]
    rfl

theorem TagsSet.concat (h : u.setCate (tags.length + StWordPos) tag = some u')
    (hset : TagsSet u' u'' StWordPos tags) : TagsSet u u'' StWordPos (tags ++ [tag]) := by
  obtain ⟨hwords, hwid⟩ := setCate_words h
  refine ⟨hset.words.trans hwords, hset.wid.trans hwid, fun i hi hpos => ?_, fun j hj => ?_⟩
  · rw [List.length_append, List.length_singleton] at hi
    rcases Nat.lt_or_ge i tags.length with hlt | hge
    · rw [hset.set i hlt hpos]
      simp [List.getD_eq_getElem?_getD, List.getElem?_append_left hlt]
    · obtain rfl : i = tags.length := by omega
      rw [hset.frame _ (.inr (Int.le_refl _)), getCate_setCate h, if_pos ⟨hpos, rfl⟩]
      simp [List.getD_eq_getElem?_getD]
  · rw [List.length_append, List.length_singleton] at hj
    rw [hset.frame j (by omega), getCate_setCate h, if_neg (by omega)]

end Set

section Loop

variable {W : Type} [LinearOrder W] {P : TagStatistics W} {word : ℤ → Bytes} {WFlag : Bool}
  {CateTags : List Bytes} {StWordPos : ℤ} {n : ℕ}

theorem setNewTagLoop_spec (h : ∀ cate ∈ CateTags, IsCate cate) {t : ℕ → ℕ}
    (hthrough : ∀ i ≤ n, t i < (tagsAt CateTags i).length)
    (hback : ∀ i < n, tagBack P word WFlag (graphOf P CateTags StWordPos) (i + 1) (t (i + 1)) = t i)
    (hn : n < CateTags.length) (hpos : -1 ≤ StWordPos)
    (hend : n + StWordPos ≤ MAX_NumOfWordsPerSentence)
    (hfirst : StWordPos < 0 → ∀ tag ∈ tagsAt CateTags 0, tag.length ≤ 1) (u : WordList) :
    Succeeds
      (setNewTagLoop P ((D_project P word WFlag (graphOf P CateTags StWordPos)).take n).reverse
        (n + StWordPos)
        (nodeAt P (D_project P word WFlag (graphOf P CateTags StWordPos)) n (t n)).pathpt u)
      fun u' => TagsSet u u' StWordPos (pathTags CateTags t n) := by
  have hnode : ∀ c ≤ n, t c < ((graphOf P CateTags StWordPos).getD c []).length := fun c hc => by
    rw [length_graphOf_getD]
    exact hthrough c hc
  induction n generalizing u with
  | zero =>
    rw [nodeAt_dproject_zero (hnode 0 (Nat.le_refl 0))]
    exact succeeds_some.mpr (TagsSet.refl u StWordPos)
  | succ n ih =>
    have hlt : n < (D_project P word WFlag (graphOf P CateTags StWordPos)).length := by
      rw [length_dproject, length_graphOf]
      omega
    have hmem : (tagsAt CateTags n).getD (t n) [] ∈ tagsAt CateTags n :=
      getD_mem_of_lt (hthrough n (by omega)) []
    have hcate : IsCate (CateTags.getD n []) := h _ (getD_mem_of_lt (by omega) [])
    have hlen := hcate.tag_length _ hmem
    have htag : (nodeAt P (D_project P word WFlag (graphOf P CateTags StWordPos)) n
        (t n)).singletag = (tagsAt CateTags n).getD (t n) [] := by
      rw [(nodeAt_dproject P word WFlag (hnode n (by omega))).1,
        nodeAt_graphOf (hthrough n (by omega))]
    obtain ⟨u', hu'⟩ : ∃ u', u.setCate (n + StWordPos) ((tagsAt CateTags n).getD (t n) []) =
        some u' := by
      refine Option.isSome_iff_exists.mp (isSome_setCate (fun hneg => ?_) (by omega)
        (by unfold MAX_WordCatesLen; omega))
      obtain rfl : n = 0 := by omega
      exact hfirst (by omega) _ hmem
    have hloop := ih (fun i hi => hthrough i (by omega)) (fun i hi => hback i (by omega)) (by omega)
      (by omega) u' (fun i hi => hnode i (by omega))
    rw [List.take_succ_eq_append_getElem hlt, List.reverse_append, List.reverse_singleton,
      List.singleton_append, setNewTagLoop, pathpt_dproject_succ (hnode (n + 1) (Nat.le_refl _)),
      hback n (by omega), if_neg (by omega), pathTags_succ]
    have hpred : ((n + 1 : ℕ) : ℤ) + StWordPos - 1 = n + StWordPos := by omega
    have he : (D_project P word WFlag (graphOf P CateTags StWordPos))[n].getD (t n) (.zero P) =
        nodeAt P (D_project P word WFlag (graphOf P CateTags StWordPos)) n (t n) := by
      rw [nodeAt, List.getElem_eq_getD []]
    dsimp only
    rw [Int.toNat_natCast, he, hpred, htag, hu', Option.bind_some]
    refine hloop.mono fun u'' hset => TagsSet.concat ?_ hset
    rw [length_pathTags]
    exact hu'

theorem setNewTag_eq {directg : List (List (GRAPHELM W))} (hlen : directg.length = n + 1)
    (u : WordList) : SetNewTag P directg u =
      setNewTagLoop P (directg.take n).reverse (nodeAt P directg n 0).wordpos
        (nodeAt P directg n 0).pathpt u := by
  have hsplit : directg.reverse = directg.getD n [] :: (directg.take n).reverse := by
    rw [← List.getElem_eq_getD (h := by omega) [], ← List.reverse_concat,
      ← List.take_succ_eq_append_getElem, List.take_of_length_le (by omega)]
  rw [SetNewTag, hsplit]
  rfl

variable (P word WFlag StWordPos) in
/-- A path along the pointers that ends at the first tag of the last category is best among the
taggings that end so. -/
theorem exists_best_path (h : ∀ cate ∈ CateTags, IsCate cate) (hn : CateTags.length = n + 1) :
    ∃ (t : ℕ → ℕ) (last : Bytes), (∀ i ≤ n, t i < (tagsAt CateTags i).length) ∧ t n = 0 ∧
      (∀ i < n, tagBack P word WFlag (graphOf P CateTags StWordPos) (i + 1) (t (i + 1)) = t i) ∧
      (tagsAt CateTags n).head? = some last ∧ Tagging CateTags (pathTags CateTags t n ++ [last]) ∧
      ∀ tags', Tagging CateTags (tags' ++ [last]) →
        pathScore P word WFlag StWordPos (tags' ++ [last]) ≤
          pathScore P word WFlag StWordPos (pathTags CateTags t n ++ [last]) := by
  have hsolves := dproject_solves P word WFlag (graphOf_ne_nil P StWordPos h)
  rw [length_graphOf, hn, Nat.add_sub_cancel] at hsolves
  have hwidth : ∀ c, (tagTrellis P word WFlag (graphOf P CateTags StWordPos)).width c =
      (tagsAt CateTags c).length := width_graphOf P word WFlag CateTags StWordPos
  obtain ⟨last, ts, hlast⟩ : ∃ last ts, tagsAt CateTags n = last :: ts :=
    List.exists_cons_of_ne_nil (splitTags_ne_nil (h _ (getD_mem_of_lt (by omega) [])).ne_nil)
  have hb : 0 < (tagTrellis P word WFlag (graphOf P CateTags StWordPos)).width n := by
    rw [hwidth, hlast]
    exact Nat.succ_pos _
  have hpath : ∀ t : ℕ → ℕ, t n = 0 →
      pathTags CateTags t (n + 1) = pathTags CateTags t n ++ [last] := fun t ht => by
    rw [pathTags_succ, ht, hlast]
    rfl
  have hthrough := hsolves.trace_through (Nat.le_refl n) hb
  refine ⟨Trellis.trace (tagBack P word WFlag (graphOf P CateTags StWordPos)) n 0, last,
    fun i hi => hwidth i ▸ hthrough i hi, Trellis.trace_self _ _ _,
    fun i hi => (Trellis.trace_pred _ hi).symm, by rw [hlast, List.head?_cons], ?_,
    fun tags' htags' => ?_⟩
  · rw [← hpath _ (Trellis.trace_self _ _ _), ← hn]
    exact tagging_pathTags fun i hi => hwidth i ▸ hthrough i (by omega)
  · obtain ⟨t', ht', htags⟩ := exists_pathTags htags'
    -- The last tag may be in its category twice.
    have hthrough' : (tagTrellis P word WFlag (graphOf P CateTags StWordPos)).Through
        (Function.update t' n 0) n := fun i hi => by
      rcases Nat.eq_or_lt_of_le hi with rfl | hlt
      · rw [Function.update_self]
        exact hb
      · rw [Function.update_of_ne (by omega), hwidth]
        exact ht' i (by omega)
    have htags'' : pathTags CateTags (Function.update t' n 0) (n + 1) = tags' ++ [last] := by
      rw [hpath _ (Function.update_self ..)]
      rw [hn, pathTags_succ] at htags
      rw [(List.append_inj' htags rfl).1,
        pathTags_congr fun i hi => Function.update_of_ne (Nat.ne_of_lt hi) 0 t']
    rw [← htags'', ← weight_eq_pathScore hthrough', ← hpath _ (Trellis.trace_self _ _ _),
      ← weight_eq_pathScore hthrough, hsolves.weight_trace (Nat.le_refl n) hb]
    simpa using hsolves.weight_le (Nat.le_refl n) hthrough'

theorem disambiguate_isGreatest (u : WordList) (hne : CateTags ≠ [])
    (hlen : CateTags.length ≤ AMBICHLENG) (h : ∀ cate ∈ CateTags, IsCate cate)
    (hpos : -1 ≤ StWordPos) (hend : CateTags.length + StWordPos ≤ MAX_NumOfWordsPerSentence + 1)
    (hfirst : StWordPos < 0 → ∀ tag ∈ tagsAt CateTags 0, tag.length ≤ 1) :
    Succeeds (disambiguate P u CateTags StWordPos) fun u' => ∃ tags last,
      Tagging CateTags (tags ++ [last]) ∧ (tagsAt CateTags tags.length).head? = some last ∧
        (∀ tags', Tagging CateTags (tags' ++ [last]) →
          pathScore P u.GetWord true StWordPos (tags' ++ [last]) ≤
            pathScore P u.GetWord true StWordPos (tags ++ [last])) ∧
        TagsSet u u' StWordPos tags := by
  obtain ⟨n, hn⟩ : ∃ n, CateTags.length = n + 1 :=
    ⟨CateTags.length - 1, by have := List.length_pos_of_ne_nil hne; omega⟩
  obtain ⟨t, last, hthrough, htn, hback, hlast, htags, hbest⟩ :=
    exists_best_path P u.GetWord true StWordPos h hn
  have hset := setNewTagLoop_spec h hthrough hback (by omega) hpos (by omega) hfirst u
  have hnode : 0 < ((graphOf P CateTags StWordPos).getD n []).length := by
    rw [length_graphOf_getD, ← htn]
    exact hthrough n (Nat.le_refl n)
  rw [disambiguate, graphGen_eq hlen fun cate hcate => (h cate hcate).toFitsGraph,
    Option.bind_some, setNewTag_eq (n := n) (by simpa using hn),
    (nodeAt_dproject P u.GetWord true hnode).2,
    nodeAt_graphOf (by rwa [length_graphOf_getD] at hnode)]
  rw [htn] at hset
  refine hset.mono fun u' hu' => ⟨_, last, htags, ?_, hbest, hu'⟩
  rw [length_pathTags]
  exact hlast

end Loop

end YlUtils
