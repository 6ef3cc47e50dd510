import Mathlib.Data.List.Forall2
import YlUtils.Runs.Succeeds
import YlUtils.Segment.Viterbi

/-! # Taggings of a span

A tagging chooses one of the tags of each category. Its score is the product
that the program computes along it. `CountSegPathScore` gives the best score, and
`SetNewTag` writes a best tagging.
-/

namespace YlUtils

/-- The tag is one of the tags of its category, for each word of the span. -/
def Tagging (CateTags tags : List Bytes) : Prop :=
  List.Forall₂ (fun tag cate => tag ∈ splitTags [] cate) tags CateTags

/-- A category, or none, that fits the arrays of the graph. -/
structure FitsGraph (cate : Bytes) : Prop where
  length_le : cate.length ≤ MAX_WordCatesLen
  tag_length : ∀ tag ∈ splitTags [] cate, tag.length < 4

structure IsCate (cate : Bytes) : Prop extends FitsGraph cate where
  ne_nil : cate ≠ []

section Split

variable {tagbuf cate : Bytes}

theorem length_splitTags_le (tagbuf cate : Bytes) :
    (splitTags tagbuf cate).length ≤ cate.length := by
  fun_induction splitTags tagbuf cate with
  | case1 => simp
  | case2 => simp
  | case3 tagbuf c rest ih =>
    simp only [List.length_cons]
    omega
  | case4 tagbuf c d rest hd ih =>
    simp only [List.length_cons] at ih ⊢
    omega

theorem splitTags_ne_nil (h : cate ≠ []) : splitTags tagbuf cate ≠ [] := by
  fun_induction splitTags tagbuf cate with
  | case1 => exact absurd rfl h
  | case2 => simp
  | case3 => simp
  | case4 tagbuf c d rest hd ih => exact ih (by simp)

theorem splitTags_of_notMem (c : UInt8) (h : 45 ∉ cate) :
    splitTags tagbuf (c :: cate) = [tagbuf ++ c :: cate] := by
  induction cate generalizing tagbuf c with
  | nil => rfl
  | cons d rest ih =>
    rw [List.mem_cons, not_or] at h
    rw [splitTags, if_neg (Ne.symm h.1), ih d h.2]
    simp

theorem notMem_tail_of_mem_splitTags {tag : Bytes} (h : tag ∈ splitTags tagbuf cate)
    (hbuf : tagbuf = [] ∨ 45 ∉ tagbuf.tail ∧ cate.head? ≠ some 45) : tag ≠ [] ∧ 45 ∉ tag.tail := by
  have hstep : ∀ (tagbuf : Bytes) (c : UInt8), tagbuf = [] ∨ 45 ∉ tagbuf.tail ∧ c ≠ 45 →
      45 ∉ (tagbuf ++ [c]).tail := by
    rintro (_ | ⟨b, bs⟩) c (h | h) <;> simp_all [Ne.symm]
  fun_induction splitTags tagbuf cate with
  | case1 => cases h
  | case2 tagbuf c =>
    obtain rfl := List.mem_singleton.mp h
    exact ⟨by simp, hstep _ _ (by simpa using hbuf)⟩
  | case3 tagbuf c rest ih =>
    rcases List.mem_cons.mp h with rfl | h
    · exact ⟨by simp, hstep _ _ (by simpa using hbuf)⟩
    · exact ih h (.inl rfl)
  | case4 tagbuf c d rest hd ih =>
    exact ih h (.inr ⟨hstep _ _ (by simpa using hbuf), by simpa using hd⟩)

theorem splitTags_of_mem {tag : Bytes} (h : tag ∈ splitTags [] cate) :
    splitTags [] tag = [tag] := by
  obtain ⟨hne, htail⟩ := notMem_tail_of_mem_splitTags h (.inl rfl)
  obtain ⟨c, cs, rfl⟩ := List.exists_cons_of_ne_nil hne
  exact splitTags_of_notMem c htail

theorem splitTags_single (hne : cate ≠ []) (h : 45 ∉ cate) : splitTags [] cate = [cate] := by
  obtain ⟨c, cs, rfl⟩ := List.exists_cons_of_ne_nil hne
  exact splitTags_of_notMem c fun hc => h (List.mem_cons_of_mem _ hc)

theorem IsCate.of_mem {tag : Bytes} (h : IsCate cate) (hmem : tag ∈ splitTags [] cate) :
    IsCate tag := by
  have hlen := h.tag_length tag hmem
  refine ⟨⟨by unfold MAX_WordCatesLen; omega, fun tag' htag' => ?_⟩,
    (notMem_tail_of_mem_splitTags hmem (.inl rfl)).1⟩
  rw [splitTags_of_mem hmem, List.mem_singleton] at htag'
  exact htag' ▸ hlen

end Split

section Score

variable {W : Type} [LinearOrder W] (P : TagStatistics W) (word : ℤ → Bytes) (WFlag : Bool)

/-- A score after one more tag, for the word at position `pos`. -/
def scoreStep (pos : ℤ) (w : W) (tag tag' : Bytes) : W :=
  let r := P.mul w (P.ConcurP tag tag')
  if WFlag then P.mul r (P.WtagP (word pos) tag') else r

def scoreFrom : ℤ → W → Bytes → List Bytes → W
  | _, w, _, [] => w
  | pos, w, tag, tag' :: tags =>
    scoreFrom (pos + 1) (scoreStep P word WFlag (pos + 1) w tag tag') tag' tags

/-- The score of the tags of the words from position `pos` on. -/
def pathScore (pos : ℤ) : List Bytes → W
  | [] => P.one
  | tag :: tags => scoreFrom P word WFlag pos P.one tag tags

variable {P word WFlag}

theorem scoreFrom_concat (pos : ℤ) (w : W) (tag : Bytes) (tags : List Bytes) (x y : Bytes) :
    scoreFrom P word WFlag pos w tag (tags ++ [x, y]) =
      scoreStep P word WFlag (pos + (tags.length + 2))
        (scoreFrom P word WFlag pos w tag (tags ++ [x])) x y := by
  induction tags generalizing pos w tag with
  | nil =>
    simp only [List.nil_append, scoreFrom, List.length_nil]
    congr 1
    omega
  | cons t tags ih =>
    rw [List.cons_append, scoreFrom, ih, List.cons_append, scoreFrom, List.length_cons]
    congr 1
    omega

theorem pathScore_concat (pos : ℤ) (tags : List Bytes) (x y : Bytes) :
    pathScore P word WFlag pos (tags ++ [x, y]) =
      scoreStep P word WFlag (pos + (tags.length + 1))
        (pathScore P word WFlag pos (tags ++ [x])) x y := by
  cases tags with
  | nil =>
    simp only [List.nil_append, pathScore, scoreFrom, List.length_nil]
    congr 1
  | cons t tags =>
    rw [List.cons_append, pathScore, scoreFrom_concat, List.cons_append, pathScore,
      List.length_cons]
    congr 1

end Score

section Graph

variable {W : Type} [LinearOrder W] (P : TagStatistics W)

def graphOf (CateTags : List Bytes) (StWordPos : ℤ) : List (List (GRAPHELM W)) :=
  CateTags.zipIdx.map fun cate =>
    (splitTags [] cate.1).map fun tag => ⟨cate.2 + StWordPos, tag, 0, P.zero⟩

variable {P} {word : ℤ → Bytes} {WFlag : Bool} {CateTags tags : List Bytes} {StWordPos : ℤ}
  {c b : ℕ}

theorem graphGen_eq (hlen : CateTags.length ≤ AMBICHLENG)
    (h : ∀ cate ∈ CateTags, FitsGraph cate) :
    GraphGen P CateTags StWordPos = some (graphOf P CateTags StWordPos) := by
  rw [GraphGen, if_pos hlen]
  refine mapM_eq_some fun cate hcate => ?_
  have hc := h cate.1 (List.fst_mem_of_mem_zipIdx hcate)
  have htags := length_splitTags_le [] cate.1
  have hle := hc.length_le
  unfold MAX_WordCatesLen at hle
  unfold genColumn
  dsimp only
  rw [if_pos ⟨by omega, by unfold MAXTAGNUM; omega, hc.tag_length⟩]

def tagsAt (CateTags : List Bytes) (c : ℕ) : List Bytes := splitTags [] (CateTags.getD c [])

theorem graphOf_getD (c : ℕ) : (graphOf P CateTags StWordPos).getD c [] =
    (tagsAt CateTags c).map fun tag => ⟨c + StWordPos, tag, 0, P.zero⟩ := by
  simp only [graphOf, tagsAt, List.getD_eq_getElem?_getD, List.getElem?_map, List.getElem?_zipIdx]
  cases CateTags[c]? <;> simp [splitTags]

@[simp] theorem length_graphOf : (graphOf P CateTags StWordPos).length = CateTags.length := by
  simp [graphOf]

theorem nodeAt_graphOf (hb : b < (tagsAt CateTags c).length) :
    nodeAt P (graphOf P CateTags StWordPos) c b =
      ⟨c + StWordPos, (tagsAt CateTags c).getD b [], 0, P.zero⟩ := by
  rw [nodeAt, graphOf_getD, getD_map_of_lt hb []]

theorem length_graphOf_getD (c : ℕ) :
    ((graphOf P CateTags StWordPos).getD c []).length = (tagsAt CateTags c).length := by
  rw [graphOf_getD, List.length_map]

variable (P word WFlag CateTags StWordPos) in
theorem width_graphOf (c : ℕ) :
    (tagTrellis P word WFlag (graphOf P CateTags StWordPos)).width c =
      (tagsAt CateTags c).length :=
  length_graphOf_getD c

variable (P StWordPos) in
theorem graphOf_ne_nil (h : ∀ cate ∈ CateTags, IsCate cate) :
    ∀ col ∈ graphOf P CateTags StWordPos, col ≠ [] := by
  intro col hcol
  obtain ⟨cate, hcate, rfl⟩ := List.mem_map.mp hcol
  simpa using splitTags_ne_nil (h cate.1 (List.fst_mem_of_mem_zipIdx hcate)).ne_nil

/-- The tags along a path. -/
def pathTags (CateTags : List Bytes) (t : ℕ → ℕ) (n : ℕ) : List Bytes :=
  (List.range n).map fun i => (tagsAt CateTags i).getD (t i) []

@[simp] theorem length_pathTags (t : ℕ → ℕ) (n : ℕ) : (pathTags CateTags t n).length = n := by
  simp [pathTags]

theorem pathTags_succ (t : ℕ → ℕ) (n : ℕ) :
    pathTags CateTags t (n + 1) = pathTags CateTags t n ++ [(tagsAt CateTags n).getD (t n) []] := by
  simp [pathTags, List.range_succ]

theorem pathTags_congr {t t' : ℕ → ℕ} {n : ℕ} (h : ∀ i < n, t i = t' i) :
    pathTags CateTags t n = pathTags CateTags t' n := by
  refine List.map_congr_left fun i hi => ?_
  rw [h i (List.mem_range.mp hi)]

theorem weight_eq_pathScore {t : ℕ → ℕ}
    (ht : (tagTrellis P word WFlag (graphOf P CateTags StWordPos)).Through t c) :
    (tagTrellis P word WFlag (graphOf P CateTags StWordPos)).weight t c =
      pathScore P word WFlag StWordPos (pathTags CateTags t (c + 1)) := by
  induction c with
  | zero => rfl
  | succ c ih =>
    have hlt : ∀ i ≤ c + 1, t i < (tagsAt CateTags i).length := fun i hi => by
      rw [← width_graphOf P word WFlag CateTags StWordPos]
      exact ht i hi
    rw [Trellis.weight, ih fun i hi => ht i (by omega), pathTags_succ t (c + 1), pathTags_succ t c,
      List.append_assoc, List.singleton_append, pathScore_concat, length_pathTags]
    simp only [tagTrellis, scoreStep, nodeAt_graphOf (hlt c (by omega)),
      nodeAt_graphOf (hlt (c + 1) (by omega))]
    have hpos : ((c + 1 : ℕ) : ℤ) + StWordPos = StWordPos + ((c : ℤ) + 1) := by omega
    rw [hpos]

theorem Tagging.length_eq (h : Tagging CateTags tags) : tags.length = CateTags.length :=
  List.Forall₂.length_eq h

theorem Tagging.getD_mem (h : Tagging CateTags tags) {i : ℕ} (hi : i < tags.length) :
    tags.getD i [] ∈ tagsAt CateTags i := by
  have hi' : i < CateTags.length := h.length_eq ▸ hi
  simpa [tagsAt, List.getD_eq_getElem?_getD, hi, hi'] using
    (List.forall₂_iff_get.mp h).2 i hi hi'

theorem tagging_pathTags {t : ℕ → ℕ}
    (ht : ∀ i < CateTags.length, t i < (tagsAt CateTags i).length) :
    Tagging CateTags (pathTags CateTags t CateTags.length) := by
  refine List.forall₂_iff_get.mpr ⟨length_pathTags _ _, fun i hi h => ?_⟩
  have hget : tagsAt CateTags i = splitTags [] (CateTags.get ⟨i, h⟩) := by
    simp [tagsAt, List.getD_eq_getElem?_getD, h]
  have hmem := getD_mem_of_lt (ht i h) []
  rw [hget] at hmem
  simpa [pathTags, hget] using hmem

theorem exists_pathTags (h : Tagging CateTags tags) :
    ∃ t : ℕ → ℕ, (∀ i < CateTags.length, t i < (tagsAt CateTags i).length) ∧
      tags = pathTags CateTags t CateTags.length := by
  have hlen := h.length_eq
  have htag : ∀ i < CateTags.length, tags.getD i [] ∈ tagsAt CateTags i := fun i hi =>
    h.getD_mem (hlen ▸ hi)
  refine ⟨fun i => (tagsAt CateTags i).idxOf (tags.getD i []), fun i hi =>
    List.idxOf_lt_length_of_mem (htag i hi), ?_⟩
  refine List.ext_getElem (by simp [hlen]) fun i hi hi' => ?_
  have hm := htag i (hlen ▸ hi)
  have hidx := List.idxOf_lt_length_of_mem hm
  simp only [pathTags, List.getElem_map, List.getElem_range]
  rw [List.getD_eq_getElem?_getD, List.getElem?_eq_getElem hidx, List.getElem_idxOf]
  simp [List.getD_eq_getElem?_getD, hi]

theorem exists_scanMax_opwt {col : List (GRAPHELM W)} (h : col ≠ []) :
    ∃ b < col.length, (scanMax (0, P.zero) 0 (col.map GRAPHELM.opwt)).2 =
      (col.getD b (.zero P)).opwt := by
  rcases scanMax_mem (0, P.zero) 0 (col.map GRAPHELM.opwt) with hzero | hmem
  · have hpos := List.length_pos_of_ne_nil h
    refine ⟨0, hpos, le_antisymm (hzero ▸ P.zero_le _) (le_scanMax_of_mem ?_)⟩
    exact List.mem_map_of_mem (getD_mem_of_lt hpos (.zero P))
  · obtain ⟨e, he, hw⟩ := List.mem_map.mp hmem
    obtain ⟨b, hb, rfl⟩ := List.getElem_of_mem he
    exact ⟨b, hb, by simp [← hw, List.getD_eq_getElem?_getD, hb]⟩

variable (P word) in
theorem countSegPathScore_isGreatest (hne : CateTags ≠ []) (hlen : CateTags.length ≤ AMBICHLENG)
    (h : ∀ cate ∈ CateTags, IsCate cate) :
    ∃ w, CountSegPathScore P word CateTags = some w ∧
      IsGreatest {w | ∃ tags, Tagging CateTags tags ∧ w = pathScore P word false 0 tags} w := by
  have hpos : 0 < CateTags.length := List.length_pos_of_ne_nil hne
  obtain ⟨n, hn⟩ : ∃ n, CateTags.length = n + 1 := ⟨CateTags.length - 1, by omega⟩
  have hsolves := dproject_solves P word false (graphOf_ne_nil P 0 h)
  rw [length_graphOf, hn, Nat.add_sub_cancel] at hsolves
  have hlast : (D_project P word false (graphOf P CateTags 0)).getLast? =
      some ((D_project P word false (graphOf P CateTags 0)).getD n []) := by
    rw [List.getLast?_eq_getElem?, length_dproject, length_graphOf, hn, List.getD_eq_getElem?_getD]
    simp [hn]
  have hwidth : ((D_project P word false (graphOf P CateTags 0)).getD n []).length =
      (tagTrellis P word false (graphOf P CateTags 0)).width n :=
    length_column_dproject P word false (graphOf P CateTags 0) n
  refine ⟨_, by rw [CountSegPathScore,
    graphGen_eq hlen fun cate hcate => (h cate hcate).toFitsGraph, Option.bind_some, hlast,
    Option.map_some],
    ?_, ?_⟩
  · have hcol : (D_project P word false (graphOf P CateTags 0)).getD n [] ≠ [] := by
      refine List.ne_nil_of_length_pos ?_
      rw [hwidth, width_graphOf]
      exact List.length_pos_of_ne_nil
        (splitTags_ne_nil (h _ (getD_mem_of_lt (by omega) [])).ne_nil)
    obtain ⟨b, hb, hw⟩ := exists_scanMax_opwt (P := P) hcol
    obtain ⟨t, ht, -, hweight⟩ := (hsolves.isGreatest (Nat.le_refl n) (hwidth ▸ hb)).1
    refine ⟨pathTags CateTags t CateTags.length, tagging_pathTags fun i hi => ?_, ?_⟩
    · rw [← width_graphOf P word false CateTags 0]
      exact ht i (by omega)
    · rw [hw, ← nodeAt, ← hweight, hn, weight_eq_pathScore ht]
  · rintro w ⟨tags, htags, rfl⟩
    obtain ⟨t, ht, rfl⟩ := exists_pathTags htags
    have hthrough : (tagTrellis P word false (graphOf P CateTags 0)).Through t n := fun i hi => by
      rw [width_graphOf]
      exact ht i (by omega)
    rw [hn, ← weight_eq_pathScore hthrough]
    refine le_trans (hsolves.weight_le (Nat.le_refl n) hthrough) (le_scanMax_of_mem ?_)
    refine List.mem_map.mpr ⟨_, getD_mem_of_lt (hwidth ▸ hthrough n (Nat.le_refl n)) (.zero P), rfl⟩

/-- Behind nodes of no weight all nodes have no weight. -/
theorem opwt_projectFrom_zero {forward : List (GRAPHELM W)} {cols : List (List (GRAPHELM W))}
    (h : ∀ e ∈ forward, e.opwt = P.zero) :
    ∀ col ∈ projectFrom P word false forward cols, ∀ e ∈ col, e.opwt = P.zero := by
  induction cols generalizing forward with
  | nil => simp [projectFrom]
  | cons col cols ih =>
    have hbest : ∀ tag, (bestForward P forward tag).2 = P.zero := by
      intro tag
      by_cases hne : forward = []
      · subst hne
        exact P.zero_mul _
      · obtain ⟨f, hf, hw, -⟩ := bestForward_spec (P := P) tag hne
        rw [hw, h f (List.mem_of_getElem? hf), P.zero_mul]
    have hcol : ∀ e ∈ col.map (projectNode P word false forward), e.opwt = P.zero := by
      intro e he
      obtain ⟨e, -, rfl⟩ := List.mem_map.mp he
      exact hbest e.singletag
    rw [projectFrom]
    intro col' hcol'
    rcases List.mem_cons.mp hcol' with rfl | hcol'
    · exact hcol
    · exact ih hcol col' hcol'

theorem countSegPathScore_nil (hlen : CateTags.length < AMBICHLENG)
    (h : ∀ cate ∈ CateTags, FitsGraph cate) :
    CountSegPathScore P word ([] :: CateTags) = some P.zero := by
  have hfits : ∀ cate ∈ [] :: CateTags, FitsGraph cate := by
    intro cate hcate
    rcases List.mem_cons.mp hcate with rfl | hcate
    · exact ⟨by simp, by simp [splitTags]⟩
    · exact h cate hcate
  rw [CountSegPathScore, graphGen_eq (show ([] :: CateTags).length ≤ AMBICHLENG from hlen) hfits,
    Option.bind_some]
  have hgraph : ∃ cols, graphOf P ([] :: CateTags) 0 = [] :: cols := ⟨_, rfl⟩
  obtain ⟨cols, hcols⟩ := hgraph
  have hzero : ∀ col ∈ D_project P word false ([] :: cols), ∀ e ∈ col, e.opwt = P.zero := by
    intro col hcol
    rcases List.mem_cons.mp hcol with rfl | hcol
    · simp
    · exact opwt_projectFrom_zero (by simp) col hcol
  rw [hcols, List.getLast?_eq_some_getLast (by simp [D_project]), Option.map_some]
  congr 1
  rcases scanMax_mem (0, P.zero) 0 (((D_project P word false ([] :: cols)).getLast
    (by simp [D_project])).map GRAPHELM.opwt) with hw | hw
  · exact hw
  · obtain ⟨e, he, hw⟩ := List.mem_map.mp hw
    rw [← hw, hzero _ (List.getLast_mem _) e he]

end Graph

end YlUtils
