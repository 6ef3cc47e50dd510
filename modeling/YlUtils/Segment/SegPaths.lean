import Mathlib.Tactic.ByContra
import YlUtils.Paths.Offers
import YlUtils.Segment.Spans
import YlUtils.Segment.Stambi

/-! # The best path through an ambiguous string

The search tries exactly the paths that skip at most one position at a time, and
what it keeps scores best among all taggings of all these paths.
-/

namespace YlUtils

/-- The path goes from the first position to the last one and skips no two positions that follow
each other. -/
inductive SegPath : List ℕ → List ℕ → Prop
  | last (p : ℕ) : SegPath [p] [p]
  | next {p q : ℕ} {ps path : List ℕ} : SegPath (q :: ps) path → SegPath (p :: q :: ps) (p :: path)
  | skip {p q r : ℕ} {ps path : List ℕ} :
    SegPath (r :: ps) path → SegPath (p :: q :: r :: ps) (p :: path)

def segPaths : List ℕ → List (List ℕ)
  | [] => []
  | [p] => [[p]]
  | [p, q] => [[p, q]]
  | p :: q :: r :: ps => (segPaths (q :: r :: ps) ++ segPaths (r :: ps)).map (p :: ·)

theorem mem_segPaths {ps path : List ℕ} : path ∈ segPaths ps ↔ SegPath ps path := by
  fun_induction segPaths ps generalizing path with
  | case1 => exact iff_of_false List.not_mem_nil fun h => by cases h
  | case2 p =>
    rw [List.mem_singleton]
    exact ⟨fun h => h ▸ .last p, fun h => by cases h; rfl⟩
  | case3 p q =>
    rw [List.mem_singleton]
    constructor
    · rintro rfl
      exact .next (.last q)
    · rintro (_ | h)
      cases h
      rfl
  | case4 p q r ps ih₂ ih₁ =>
    rw [List.mem_map]
    constructor
    · rintro ⟨path, hpath, rfl⟩
      rcases List.mem_append.mp hpath with h | h
      · exact .next (ih₂.mp h)
      · exact .skip (ih₁.mp h)
    · intro h
      cases h with
      | next h => exact ⟨_, List.mem_append_left _ (ih₂.mpr h), rfl⟩
      | skip h => exact ⟨_, List.mem_append_right _ (ih₁.mpr h), rfl⟩

theorem SegPath.length_le {ps path : List ℕ} (h : SegPath ps path) : path.length ≤ ps.length := by
  induction h with
  | last => exact Nat.le_refl _
  | next h ih => simpa using ih
  | skip h ih =>
    simp only [List.length_cons] at ih ⊢
    omega

section Search

variable {W : Type} [LinearOrder W] {score : List ℕ → Option W} {f : List ℕ → W}
  {SegPosArray before rest pre junk : List ℕ} {p q : ℕ}

theorem sechPossSegPos_append (hs : (before ++ p :: rest).Pairwise (· < ·)) (SFlag : ℕ) :
    SechPossSegPos (before ++ p :: rest) p SFlag = (p :: rest)[SFlag]? := by
  have hidx : (before ++ p :: rest).findIdx (p = ·) = before.length := by
    induction before with
    | nil => simp [List.findIdx_cons]
    | cons b before ih =>
      have hb : b < p := (List.pairwise_cons.mp hs).1 p (by simp)
      rw [List.cons_append, List.findIdx_cons, ih (List.pairwise_cons.mp hs).2]
      simp [Nat.ne_of_gt hb]
  rw [SechPossSegPos, hidx, List.getElem?_append_right (Nat.le_add_right _ _),
    Nat.add_sub_cancel_left]

theorem extend_path {W : Type} {best : List ℕ} {w : W} (hjunk : ∀ x ∈ junk, p < x) :
    (PathSearch.mk (pre ++ p :: junk) best w).extend p q = ⟨pre ++ [p] ++ [q], best, w⟩ := by
  have hdrop : ((pre ++ p :: junk).reverse.dropWhile (p < ·)).reverse = pre ++ [p] := by
    rw [List.reverse_append, List.reverse_cons, List.append_assoc,
      List.dropWhile_append_of_pos (by simpa using hjunk), List.singleton_append,
      List.dropWhile_cons_of_neg (by simp)]
    simp
  rw [PathSearch.extend, hdrop]

/-- The paths through `ps` are offered, each behind the path `pre`. -/
def offerPaths (f : List ℕ → W) (pre ps : List ℕ) (best : List ℕ × W) : List ℕ × W :=
  ((segPaths ps).map (pre ++ ·)).foldl (offer f) best

/-- The search stands at the end of `path`, with the best path so far. -/
def searchAt (path : List ℕ) (best : List ℕ × W) : PathSearch W := ⟨path, best.1, best.2⟩

/-- A step to `q`, with the positions `ps` behind it, offers the paths through `q`. -/
theorem searchStep_eq {search : ℕ → PathSearch W → Option (PathSearch W)} {EndPos SFlag : ℕ}
    {ps : List ℕ} {best : List ℕ × W} (hget : SechPossSegPos SegPosArray p SFlag = some q)
    (hend : q = EndPos ↔ ps = []) (hpq : p < q) (hjunk : ∀ x ∈ junk, p < x)
    (hscore : ∀ path, SegPath (q :: ps) path →
      score (pre ++ [p] ++ path) = some (f (pre ++ [p] ++ path)))
    (hsearch : ps ≠ [] → ∃ junk', (∀ x ∈ junk', q < x) ∧
      search q (searchAt (pre ++ [p] ++ [q]) best) =
        some (searchAt (pre ++ [p] ++ q :: junk') (offerPaths f (pre ++ [p]) (q :: ps) best))) :
    ∃ junk', (∀ x ∈ junk', p < x) ∧
      PathSearch.searchStep score SegPosArray EndPos search p SFlag
          (searchAt (pre ++ p :: junk) best) =
        some (searchAt (pre ++ p :: junk') (offerPaths f (pre ++ [p]) (q :: ps) best)) := by
  unfold PathSearch.searchStep
  rw [hget]
  dsimp only
  rw [searchAt, extend_path hjunk]
  by_cases hps : ps = []
  · subst hps
    have hq := hscore [q] (.last q)
    refine ⟨[q], by simpa using hpq, ?_⟩
    rw [if_pos (hend.mpr rfl), PathSearch.SetBestSegPath, hq]
    simp only [Option.map_some, offerPaths, segPaths, List.map_cons, List.map_nil,
      List.foldl_cons, List.foldl_nil, offer, searchAt, List.append_assoc, List.singleton_append]
    split <;> rfl
  · obtain ⟨junk', hjunk', hrun⟩ := hsearch hps
    refine ⟨q :: junk', fun x hx => ?_, ?_⟩
    · rcases List.mem_cons.mp hx with rfl | hx
      · exact hpq
      · exact Nat.lt_trans hpq (hjunk' x hx)
    · rw [if_neg fun h => hps (hend.mp h)]
      simpa only [searchAt, List.append_assoc, List.singleton_append] using hrun

theorem eq_getLastD_iff {ps : List ℕ} (hs : (before ++ q :: ps).Pairwise (· < ·)) :
    q = (before ++ q :: ps).getLastD 0 ↔ ps = [] := by
  rw [List.getLastD_eq_getLast?, List.getLast?_append_of_ne_nil _ (List.cons_ne_nil q ps),
    ← List.getLastD_eq_getLast?, List.getLastD_cons]
  constructor
  · intro h
    by_contra hne
    have hmem : ps.getLastD q ∈ ps := by
      rw [List.getLastD_eq_getLast?, List.getLast?_eq_some_getLast hne]
      exact List.getLast_mem hne
    have hlt := (List.pairwise_cons.mp (List.pairwise_append.mp hs).2.1).1 _ hmem
    omega
  · rintro rfl
    rfl

/-- The search from `p` on offers the paths from there, each behind the path to `p`. -/
theorem searchBestSegPath_eq (hs : SegPosArray.Pairwise (· < ·))
    (heq : SegPosArray = before ++ p :: rest) (hrest : rest ≠ []) (hjunk : ∀ x ∈ junk, p < x)
    (hscore : ∀ path, SegPath (p :: rest) path → score (pre ++ path) = some (f (pre ++ path)))
    {depth : ℕ} (hdepth : rest.length ≤ depth) (best : List ℕ × W) :
    ∃ junk', (∀ x ∈ junk', p < x) ∧
      PathSearch.SearchBestSegPath score SegPosArray (SegPosArray.getLastD 0) depth p
          (searchAt (pre ++ p :: junk) best) =
        some (searchAt (pre ++ p :: junk') (offerPaths f pre (p :: rest) best)) := by
  induction depth generalizing before p rest pre junk best with
  | zero => exact absurd (List.eq_nil_of_length_eq_zero (Nat.le_zero.mp hdepth)) hrest
  | succ depth ih =>
    obtain ⟨q, ps, rfl⟩ := List.exists_cons_of_ne_nil hrest
    have hget : ∀ SFlag, SechPossSegPos SegPosArray p SFlag =
        (p :: q :: ps)[SFlag]? := fun SFlag => by
      rw [heq, sechPossSegPos_append (heq ▸ hs)]
    -- A step to a position behind `p`, from which the search goes on.
    have hstep : ∀ (SFlag r : ℕ) (skipped rest junk : List ℕ) (best : List ℕ × W),
        (p :: q :: ps)[SFlag]? = some r → q :: ps = skipped ++ r :: rest → (∀ x ∈ junk, p < x) →
        (∀ path, SegPath (r :: rest) path → SegPath (p :: q :: ps) (p :: path)) →
        ∃ junk', (∀ x ∈ junk', p < x) ∧
          PathSearch.searchStep score SegPosArray (SegPosArray.getLastD 0)
              (PathSearch.SearchBestSegPath score SegPosArray (SegPosArray.getLastD 0) depth)
              p SFlag (searchAt (pre ++ p :: junk) best) =
            some (searchAt (pre ++ p :: junk') (offerPaths f (pre ++ [p]) (r :: rest) best)) := by
      intro SFlag r skipped rest junk best hr hsplit hjunk hpath
      have heq' : SegPosArray = (before ++ p :: skipped) ++ r :: rest := by
        rw [heq, hsplit, List.append_assoc, List.cons_append]
      have hpr : p < r := by
        rw [heq, hsplit] at hs
        exact (List.pairwise_cons.mp (List.pairwise_append.mp hs).2.1).1 r (by simp)
      have hscore' : ∀ path, SegPath (r :: rest) path →
          score (pre ++ [p] ++ path) = some (f (pre ++ [p] ++ path)) := fun path h => by
        simpa using hscore (p :: path) (hpath path h)
      refine searchStep_eq ((hget SFlag).trans hr) (heq' ▸ eq_getLastD_iff (heq' ▸ hs)) hpr hjunk
        hscore' fun hrest => ih heq' hrest (fun x hx => by cases hx) hscore' ?_ best
      have hlen := congrArg List.length hsplit
      simp only [List.length_cons, List.length_append] at hlen hdepth
      omega
    obtain ⟨junk₁, hjunk₁, hrun₁⟩ := hstep 1 q [] ps junk best rfl rfl hjunk fun _ => .next
    rw [PathSearch.SearchBestSegPath, hrun₁, Option.bind_some]
    rcases ps with _ | ⟨r, ps⟩
    · refine ⟨junk₁, hjunk₁, ?_⟩
      rw [PathSearch.searchStep, hget]
      simp [offerPaths, segPaths]
    · obtain ⟨junk₂, hjunk₂, hrun₂⟩ := hstep 2 r [q] ps junk₁ _ rfl rfl hjunk₁ fun _ => .skip
      refine ⟨junk₂, hjunk₂, hrun₂.trans ?_⟩
      simp [offerPaths, segPaths, List.map_append, Function.comp_def]

end Search

section Positions

variable {SegPosArray : List ℕ} {x : ℕ}

theorem le_getLastD (hs : SegPosArray.Pairwise (· < ·)) {y : ℕ} (hy : y ∈ SegPosArray) :
    y ≤ SegPosArray.getLastD 0 := by
  rcases List.eq_nil_or_concat SegPosArray with rfl | ⟨l, z, rfl⟩
  · cases hy
  · rw [List.concat_eq_append] at hs hy ⊢
    rw [List.getLastD_concat]
    rcases List.mem_append.mp hy with hy | hy
    · exact Nat.le_of_lt ((List.pairwise_append.mp hs).2.2 y hy z List.mem_cons_self)
    · exact Nat.le_of_eq (List.mem_singleton.mp hy)

theorem segPositions_sorted (positions : List ℕ) : (segPositions positions).Pairwise (· < ·) ∧
    [0] <+: segPositions positions ∧ (segPositions positions).length ≤ positions.length + 1 := by
  induction positions using List.reverseRecOn with
  | nil => exact ⟨List.pairwise_singleton _ 0, List.prefix_rfl, Nat.le_refl 1⟩
  | append_singleton positions x ih =>
    obtain ⟨hs, hprefix, hlen⟩ := ih
    rw [segPositions, List.foldl_append, ← segPositions, List.foldl_cons, List.foldl_nil,
      AddToSegPosArray, List.length_append, List.length_singleton]
    split
    · rename_i hlt
      refine ⟨List.pairwise_append.mpr ⟨hs, List.pairwise_singleton _ x, fun y hy z hz => ?_⟩,
        hprefix.trans (List.prefix_append _ _), by simpa using hlen⟩
      rw [List.mem_singleton.mp hz]
      exact Nat.lt_of_le_of_lt (le_getLastD hs hy) hlt
    · exact ⟨hs, hprefix, by omega⟩

end Positions

section Score

variable {W : Type} [LinearOrder W] {P : TagStatistics W} {u : WordList} {CTArray : List CTRec}
  {EndWCateTags : Bytes} {SegPosArray path : List ℕ}

variable (u CTArray EndWCateTags) in
theorem length_pathCates_le (hne : path ≠ []) :
    (pathCates u CTArray EndWCateTags path).length ≤ path.length + 1 := by
  have hpos := List.length_pos_of_ne_nil hne
  have hle := List.length_filterMap_le (fun s : ℕ × ℕ => GetSegUnitCateTag CTArray s.1 s.2)
    (path.zip path.tail)
  simp only [List.length_zip, List.length_tail] at hle
  simp only [pathCates, List.length_append, List.length_cons, List.length_nil]
  omega

/-- The categories that the search reads: of the word before the string, of its units, and of the
word that ends it. -/
structure HasUnitCates (p : Bytes → Prop) (u : WordList) (CTArray : List CTRec)
    (EndWCateTags : Bytes) : Prop where
  before : p (if u.wid = 0 then [94] else u.cates (u.wid - 1))
  units : ∀ r ∈ CTArray, p r.CateTags
  behind : p EndWCateTags

theorem forall_mem_pathCates {p : Bytes → Prop} (h : HasUnitCates p u CTArray EndWCateTags) :
    ∀ cate ∈ pathCates u CTArray EndWCateTags path, p cate := by
  intro cate hcate
  rcases List.mem_append.mp hcate with hcate | hcate
  · rcases List.mem_cons.mp hcate with rfl | hcate
    · exact h.before
    · obtain ⟨s, -, hs⟩ := List.mem_filterMap.mp hcate
      obtain ⟨r, hr, rfl⟩ := Option.map_eq_some_iff.mp hs
      exact h.units r (List.mem_of_find?_eq_some hr)
  · rw [List.mem_singleton.mp hcate]
    exact h.behind

theorem bestSegPath_eq {positions : List ℕ} {f : List ℕ → W}
    (hne : segPositions positions ≠ [0])
    (hscore : ∀ path, SegPath (segPositions positions) path →
      GetSegPathScore P u CTArray EndWCateTags path = some (f path)) :
    ∃ junk, bestSegPath P u CTArray EndWCateTags (segPositions positions) =
      some (searchAt (0 :: junk) (offerPaths f [] (segPositions positions) ([], P.zero))) := by
  obtain ⟨hs, ⟨rest, hrest⟩, -⟩ := segPositions_sorted positions
  have hcons : 0 :: rest = segPositions positions := hrest
  have hjunk : ∀ x ∈ ([] : List ℕ), 0 < x := fun x hx => by cases hx
  have hdepth : rest.length ≤ (segPositions positions).length := by
    rw [← hcons]
    exact Nat.le_succ _
  obtain ⟨junk, -, hrun⟩ := searchBestSegPath_eq (f := f) hs
    (show _ = [] ++ 0 :: rest from hrest.symm) (fun h => hne (by rw [← hcons, h])) hjunk
    (fun path h =>
      show GetSegPathScore P u CTArray EndWCateTags ([] ++ path) = some (f ([] ++ path)) from
        hscore path (hcons ▸ h)) hdepth ([], P.zero)
  rw [hcons] at hrun
  exact ⟨junk, hrun⟩

theorem SegPath.ne_nil (h : SegPath SegPosArray path) : path ≠ [] := by
  cases h <;> exact List.cons_ne_nil _ _

theorem getSegPathScore_isGreatest (h : HasUnitCates IsCate u CTArray EndWCateTags)
    (hlen : SegPosArray.length ≤ 39) (hpath : SegPath SegPosArray path) :
    ∃ w, GetSegPathScore P u CTArray EndWCateTags path = some w ∧
      IsGreatest {w | ∃ tags, Tagging (pathCates u CTArray EndWCateTags path) tags ∧
        w = pathScore P u.GetWord false 0 tags} w := by
  have hle := length_pathCates_le u CTArray EndWCateTags hpath.ne_nil
  have hpathlen := hpath.length_le
  obtain ⟨w, hw, hgreatest⟩ := countSegPathScore_isGreatest P u.GetWord
    (show pathCates u CTArray EndWCateTags path ≠ [] from List.cons_ne_nil _ _)
    (by unfold AMBICHLENG; omega) (forall_mem_pathCates h)
  exact ⟨w, by rw [GetSegPathScore, if_pos (by omega), hw], hgreatest⟩

/-- Where every category that the search reads has a tag, the path that is found has a tagging that
scores best among all taggings of all paths, unless no tagging has a positive score. -/
theorem bestSegPath_best {positions : List ℕ} (h : HasUnitCates IsCate u CTArray EndWCateTags)
    (hlen : positions.length ≤ 38) (hne : segPositions positions ≠ [0]) :
    Succeeds (bestSegPath P u CTArray EndWCateTags (segPositions positions)) fun st =>
      (∀ path tags, SegPath (segPositions positions) path →
        Tagging (pathCates u CTArray EndWCateTags path) tags →
          pathScore P u.GetWord false 0 tags ≤ st.BestSegPathScore) ∧
      (st.BestSegPath = [] ∧ st.BestSegPathScore = P.zero ∨
        SegPath (segPositions positions) st.BestSegPath ∧ P.zero < st.BestSegPathScore ∧
          ∃ tags, Tagging (pathCates u CTArray EndWCateTags st.BestSegPath) tags ∧
            st.BestSegPathScore = pathScore P u.GetWord false 0 tags) := by
  have hlen' := (segPositions_sorted positions).2.2
  have hscore : ∀ path, SegPath (segPositions positions) path → ∃ w,
      GetSegPathScore P u CTArray EndWCateTags path = some w ∧
        IsGreatest {w | ∃ tags, Tagging (pathCates u CTArray EndWCateTags path) tags ∧
          w = pathScore P u.GetWord false 0 tags} w :=
    fun path hpath => getSegPathScore_isGreatest h (by omega) hpath
  have : Nonempty W := ⟨P.zero⟩
  choose! f hf hgreatest using hscore
  obtain ⟨junk, hrun⟩ := bestSegPath_eq hne hf
  refine ⟨_, hrun, fun path tags hpath htags => ?_, ?_⟩
  · refine le_trans ((hgreatest path hpath).2 ⟨tags, htags, rfl⟩) (score_le_foldl_offer f _ ?_)
    exact List.mem_map.mpr ⟨path, mem_segPaths.mpr hpath, rfl⟩
  · rcases foldl_offer_cases f ([], P.zero) ((segPaths (segPositions positions)).map ([] ++ ·)) with
      hnone | ⟨path, hmem, hkept, hlt⟩
    · left
      rw [searchAt, offerPaths, hnone]
      exact ⟨rfl, rfl⟩
    · obtain ⟨path, hpath, rfl⟩ := List.mem_map.mp hmem
      have hpath := mem_segPaths.mp hpath
      obtain ⟨tags, htags, hscore⟩ := (hgreatest path hpath).1
      rw [searchAt, offerPaths, hkept]
      exact .inr ⟨hpath, hlt, tags, htags, hscore⟩

/-- Behind a word without a category no path is found. -/
theorem bestSegPath_of_undefined {positions : List ℕ}
    (h : HasUnitCates FitsGraph u CTArray EndWCateTags) (hwid : u.wid ≠ 0)
    (hundefined : u.cates (u.wid - 1) = []) (hlen : positions.length ≤ 38)
    (hne : segPositions positions ≠ [0]) :
    Succeeds (bestSegPath P u CTArray EndWCateTags (segPositions positions)) fun st =>
      st.BestSegPath = [] := by
  have hlen' := (segPositions_sorted positions).2.2
  have hzero : ∀ path, SegPath (segPositions positions) path →
      GetSegPathScore P u CTArray EndWCateTags path = some ((fun _ => P.zero) path) := by
    intro path hpath
    have hle := length_pathCates_le u CTArray EndWCateTags hpath.ne_nil
    have hpathlen := hpath.length_le
    have hfits : ∀ cate ∈ pathCates u CTArray EndWCateTags path, FitsGraph cate :=
      forall_mem_pathCates h
    obtain ⟨CateTags, hcates⟩ : ∃ CateTags,
        pathCates u CTArray EndWCateTags path = [] :: CateTags :=
      ⟨_, by rw [pathCates, if_neg hwid, hundefined, List.cons_append]⟩
    rw [GetSegPathScore, if_pos (by omega), hcates]
    rw [hcates] at hle hfits
    exact countSegPathScore_nil (by rw [List.length_cons] at hle; unfold AMBICHLENG; omega)
      fun cate hcate => hfits cate (List.mem_cons_of_mem _ hcate)
  obtain ⟨junk, hrun⟩ := bestSegPath_eq hne hzero
  refine ⟨_, hrun, ?_⟩
  rcases foldl_offer_cases (fun _ : List ℕ => P.zero) ([], P.zero)
    ((segPaths (segPositions positions)).map ([] ++ ·)) with hnone | ⟨path, -, -, hlt⟩
  · rw [searchAt, offerPaths, hnone]
  · exact absurd hlt (lt_irrefl _)

end Score

def twoUnits : List CTRec := [⟨0, 2, [110]⟩, ⟨2, 4, [118]⟩, ⟨0, 4, [110, 45, 118]⟩]

theorem hasUnitCates_twoUnits : HasUnitCates IsCate .init twoUnits [36] := by
  refine ⟨⟨⟨by decide, by decide⟩, by decide⟩, fun r hr => ?_, ⟨⟨by decide, by decide⟩, by decide⟩⟩
  simp only [twoUnits, List.mem_cons, List.not_mem_nil, or_false] at hr
  rcases hr with rfl | rfl | rfl <;> exact ⟨⟨by decide, by decide⟩, by decide⟩

theorem bestSegPath_twoUnits :
    Succeeds (bestSegPath .uniform .init twoUnits [36] (segPositions [2, 4])) fun st =>
      (∀ path tags, SegPath (segPositions [2, 4]) path →
        Tagging (pathCates .init twoUnits [36] path) tags →
          pathScore .uniform WordList.init.GetWord false 0 tags ≤ st.BestSegPathScore) ∧
      (st.BestSegPath = [] ∧ st.BestSegPathScore = 0 ∨
        SegPath (segPositions [2, 4]) st.BestSegPath ∧ 0 < st.BestSegPathScore ∧
          ∃ tags, Tagging (pathCates .init twoUnits [36] st.BestSegPath) tags ∧
            st.BestSegPathScore = pathScore .uniform WordList.init.GetWord false 0 tags) :=
  bestSegPath_best hasUnitCates_twoUnits (by decide) (by decide)

theorem bestSegPath_of_undefined_twoUnits :
    Succeeds (bestSegPath .uniform ⟨fun _ => [65], fun _ => [], 1⟩ twoUnits [36]
      (segPositions [2, 4])) fun st => st.BestSegPath = [] := by
  refine bestSegPath_of_undefined ⟨⟨by decide, by decide⟩, fun r hr => ?_,
    hasUnitCates_twoUnits.behind.toFitsGraph⟩ (by decide) rfl (by decide) (by decide)
  exact (hasUnitCates_twoUnits.units r hr).toFitsGraph

end YlUtils
