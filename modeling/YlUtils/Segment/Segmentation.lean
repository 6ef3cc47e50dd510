import YlUtils.Segment.DoSeg

/-! # The words of a sentence

The segmentation ends. It passes over the sentence in rounds: over characters of
one byte, and over the words that are chosen behind them, or an undefined
character. The list holds the rows that the passes put into it; it is full when
they need more than it has, and else the passes cover the whole sentence and the
list spells it exactly if no word is repeated.
-/

namespace YlUtils

def WordList.listed (u : WordList) : List Bytes := (List.range u.wid).map u.words

theorem WordList.text_eq_flatten (u : WordList) : u.text = u.listed.flatten := by
  rw [text, textFrom, listed, List.flatMap_def, List.range_eq_range']

theorem WordList.length_listed (u : WordList) : u.listed.length = u.wid := by simp [listed]

theorem WordList.addWordCateInfo_spec {u u' : WordList} {word cate : Bytes} {full : Bool}
    (h : u.AddWordCateInfo word cate = (u', full)) :
    if full then u' = u ∧ u.wid = MAX_NumOfWordsPerSentence
    else u'.listed = u.listed ++ [(cstr word).take MAX_WordLen] ∧ u'.wid = u.wid + 1 ∧
      u.wid ≠ MAX_NumOfWordsPerSentence := by
  unfold AddWordCateInfo at h
  split at h
  · rename_i hfull
    obtain ⟨rfl, rfl⟩ := Prod.mk.inj h
    exact ⟨rfl, hfull⟩
  · rename_i hroom
    obtain ⟨rfl, rfl⟩ := Prod.mk.inj h
    refine ⟨?_, rfl, hroom⟩
    simp only [listed, List.range_succ, List.map_append, List.map_cons, List.map_nil,
      Function.update_self]
    congr 1
    refine List.map_congr_left fun i hi => Function.update_of_ne ?_ _ _
    exact Nat.ne_of_lt (List.mem_range.mp hi)

open SegOp

/-- The state that the passes lead to. -/
structure Emits (s : Sentence) (ops : List SegOp) (st : SegState) : Prop where
  fits : FitsFrom s.text 0 ops
  basept : st.basept = (Emission.run s.text ops).basept
  temppt : st.temppt = (Emission.run s.text ops).temppt
  listed : st.units.listed = (Emission.run s.text ops).rows
  room : st.units.wid ≤ MAX_NumOfWordsPerSentence

/-- The last of the passes needs more rows than the list has, which holds the first ones. -/
structure Overflows (s : Sentence) (ops : List SegOp) (st : SegState) : Prop where
  fits : FitsFrom s.text 0 ops
  listed : st.units.listed = (Emission.run s.text ops).rows.take MAX_NumOfWordsPerSentence
  before : (Emission.run s.text ops.dropLast).rows.length ≤ MAX_NumOfWordsPerSentence
  after : MAX_NumOfWordsPerSentence < (Emission.run s.text ops).rows.length

def Leaves (s : Sentence) (ops : List SegOp) (r : SegState × Bool) : Prop :=
  if r.2 then Overflows s ops r.1 else Emits s ops r.1

/-- The passes that take the words which are chosen, each cut to a row, or an undefined
character. -/
def taken (ws : List (ℕ × Bytes)) : List SegOp :=
  if ws = [] then [undef] else ws.map fun w => word (min w.1 MAX_WordLen)

/-- Passes from `p` on over spaces and words of characters of one byte. -/
structure OneByte (s : Sentence) (p : ℕ) (ops : List SegOp) : Prop where
  defined : undef ∉ ops
  positive : ∀ k, p ≤ k → k < p + (ops.map bytes).sum → isPositive (s.char k)

/-- The passes of complete rounds, and the state and the memory of the dictionaries behind them: in
each round the characters of one byte are passed over, and the words are taken that are chosen where
this ends. -/
inductive Course {δ : Type} (s : Sentence) (chooser : Chooser s δ) (d : δ) :
    List SegOp → SegState → δ → Prop where

  | start : Course s chooser d [] .init d

  | round {ops scanned : List SegOp} {st st₁ st₂ : SegState} {d' : δ} :
      Course s chooser d ops st d' → asciiWords s (skipSpace s st) = some (st₁, false) →
      OneByte s (ops.map bytes).sum scanned → Emits s (ops ++ scanned) st₁ →
      takeWords s st₁ (chooser.choose d' st₁).1 = (st₂, false) →
      Course s chooser d (ops ++ scanned ++ taken (chooser.choose d' st₁).1) st₂
        (chooser.choose d' st₁).2

/-- The passes of complete rounds and of the beginning of one more. -/
def InCourse {δ : Type} (s : Sentence) (chooser : Chooser s δ) (d : δ) (ops : List SegOp) : Prop :=
  ∃ before scanned more st d', Course s chooser d before st d' ∧
    OneByte s (before.map bytes).sum scanned ∧ ops = before ++ scanned ++ more ∧
      (more = [] ∨ ∃ st₁, asciiWords s (skipSpace s st) = some (st₁, false) ∧
        Emits s (before ++ scanned) st₁ ∧ more <+: taken (chooser.choose d' st₁).1)

section Words

variable {s : Sentence} {st st' : SegState} {ops : List SegOp} {n : ℕ} {cate : Bytes} {full : Bool}

theorem emits_init (s : Sentence) : Emits s [] .init := ⟨trivial, rfl, rfl, rfl, Nat.zero_le _⟩

theorem Emits.length_rows (h : Emits s ops st) :
    (Emission.run s.text ops).rows.length = st.units.wid := by
  rw [← h.listed, WordList.length_listed]

theorem Emits.basept_eq (h : Emits s ops st) : st.basept = (ops.map bytes).sum := by
  rw [h.basept, basept_run]

theorem Emits.overflows (h : Emits s ops st) {op : SegOp} {rows : List Bytes}
    (hfits : FitsFrom s.text 0 (ops ++ [op]))
    (hrows : (Emission.run s.text (ops ++ [op])).rows = st'.units.listed ++ rows)
    (hfull : st'.units.wid = MAX_NumOfWordsPerSentence) (hne : rows ≠ []) :
    Overflows s (ops ++ [op]) st' := by
  have hlen : st'.units.listed.length = MAX_NumOfWordsPerSentence := by
    rw [WordList.length_listed, hfull]
  constructor
  · exact hfits
  · rw [hrows, List.take_left' hlen]
  · rw [List.dropLast_concat, h.length_rows]
    exact h.room
  · rw [hrows, List.length_append, hlen]
    exact Nat.lt_add_of_pos_right (List.length_pos_iff.mpr hne)

theorem zero_notMem_slice (s : Sentence) (p n : ℕ) : 0 ∉ (s.text.drop p).take n := fun h =>
  s.text_zero (List.mem_of_mem_drop (List.mem_of_mem_take h))

theorem addSlice_spec {u u' : WordList} {p : ℕ} (hn : n ≤ MAX_WordLen)
    (hroom : u.wid ≤ MAX_NumOfWordsPerSentence)
    (h : u.AddWordCateInfo ((s.text.drop p).take n) cate = (u', full)) :
    if full then u' = u ∧ u.wid = MAX_NumOfWordsPerSentence
    else u'.listed = u.listed ++ [(s.text.drop p).take n] ∧
      u'.wid ≤ MAX_NumOfWordsPerSentence := by
  have hadd := WordList.addWordCateInfo_spec h
  cases full with
  | true => exact hadd
  | false =>
    obtain ⟨hlisted, hwid, hne⟩ := hadd
    refine ⟨?_, ?_⟩
    · rw [hlisted, cstr_eq_self (zero_notMem_slice s p n), List.take_take, Nat.min_eq_right hn]
    · rw [hwid]
      exact Nat.lt_of_le_of_ne hroom hne

theorem Emits.fitsFrom_concat (h : Emits s ops st) {op : SegOp} (hop : op.Fits s.text st.basept) :
    FitsFrom s.text 0 (ops ++ [op]) := by
  refine YlUtils.fitsFrom_concat.mpr ⟨h.fits, ?_⟩
  rwa [Nat.zero_add, ← basept_run (s := s.text), ← h.basept]

theorem Emits.skip (h : Emits s ops st) (hspace : s.text[st.basept]? = some 32) (k : ℕ) :
    Emits s (ops ++ [skip]) { st with basept := st.basept + 1, seekpt := k } where
  fits := h.fitsFrom_concat hspace
  basept := by rw [run_concat, basept_step, ← h.basept]; rfl
  temppt := by rw [run_concat]; exact h.temppt
  listed := by rw [run_concat]; exact h.listed
  room := h.room

theorem Emits.undefword (h : Emits s ops st) (hlt : st.basept < s.text.length)
    (hst : undefword s st = (st', full)) :
    Leaves s (ops ++ [undef]) (st', full) ∧ st'.basept = st.basept + 2 ∧
      st'.seekpt = st'.basept := by
  have hfits : FitsFrom s.text 0 (ops ++ [undef]) := h.fitsFrom_concat hlt
  have hrows : (Emission.run s.text (ops ++ [undef])).rows =
      st.units.listed ++ [(s.text.drop st.basept).take 2] := by
    rw [run_concat, Emission.step, ← h.basept, ← h.listed]
    rfl
  unfold YlUtils.undefword at hst
  dsimp only at hst
  cases hadd : st.units.AddWordCateInfo ((s.text.drop st.basept).take 2) [] with
  | mk u full =>
    have hspec := addSlice_spec (by decide) h.room hadd
    rw [hadd] at hst
    obtain ⟨rfl, rfl⟩ := Prod.mk.inj hst
    refine ⟨?_, rfl, rfl⟩
    cases full with
    | true =>
      obtain ⟨rfl, hwid⟩ := hspec
      exact h.overflows hfits hrows hwid (List.cons_ne_nil _ _)
    | false =>
      refine ⟨hfits, ?_, ?_, hspec.1.trans hrows.symm, hspec.2⟩
      · rw [run_concat, basept_step, ← h.basept]
        rfl
      · rw [run_concat, Emission.step, ← h.basept]
        rfl

theorem segMarked_spec (h : Emits s ops st) (hst : segMarked s st = (st', full)) :
    if full then
      st' = st ∧ (Emission.run s.text ops).Stale ∧ st.units.wid = MAX_NumOfWordsPerSentence
    else st'.basept = st.basept ∧ st'.units.wid ≤ MAX_NumOfWordsPerSentence ∧
      if (Emission.run s.text ops).Stale then
        st'.temppt = 0 ∧
          st'.units.listed = st.units.listed ++ [(Emission.run s.text ops).repeated s.text]
      else st'.temppt = st.temppt ∧ st'.units.listed = st.units.listed := by
  have hstale : (Emission.run s.text ops).Stale ↔ st.temppt ≠ 0 ∧ st.temppt < st.basept := by
    rw [Emission.Stale, ← h.temppt, ← h.basept]
  unfold segMarked at hst
  by_cases hs : (Emission.run s.text ops).Stale
  · obtain ⟨m, hm⟩ : ∃ m, m = min (st.basept - st.temppt) MAX_WordLen := ⟨_, rfl⟩
    have hslice : (if st.basept - st.temppt ≤ MAX_WordLen then
        (s.text.drop st.temppt).take (st.basept - st.temppt)
      else (s.text.drop st.temppt).take MAX_WordLen) = (s.text.drop st.temppt).take m := by
      rw [hm]
      split
      · rw [Nat.min_eq_left (by omega)]
      · rw [Nat.min_eq_right (by omega)]
    have hrepeated :
        (Emission.run s.text ops).repeated s.text = (s.text.drop st.temppt).take m := by
      rw [Emission.repeated, ← h.temppt, ← h.basept, List.take_take, hm, Nat.min_comm]
    rw [if_pos (hstale.mp hs)] at hst
    dsimp only at hst
    rw [hslice] at hst
    cases hadd : st.units.AddWordCateInfo ((s.text.drop st.temppt).take m) [] with
    | mk u full =>
      have hspec := addSlice_spec (hm ▸ Nat.min_le_right _ _) h.room hadd
      rw [hadd] at hst
      cases full with
      | true =>
        obtain ⟨rfl, rfl⟩ := Prod.mk.inj hst
        exact ⟨rfl, hs, hspec.2⟩
      | false =>
        obtain ⟨rfl, rfl⟩ := Prod.mk.inj hst
        refine ⟨rfl, hspec.2, ?_⟩
        rw [if_pos hs, hrepeated]
        exact ⟨rfl, hspec.1⟩
  · rw [if_neg (mt hstale.mpr hs)] at hst
    obtain ⟨rfl, rfl⟩ := Prod.mk.inj hst
    refine ⟨rfl, h.room, ?_⟩
    rw [if_neg hs]
    exact ⟨rfl, rfl⟩

theorem Emits.seg_word (h : Emits s ops st) (hn : 0 < n) (hle : st.basept + n ≤ s.text.length)
    (hst : seg_word s st n cate = (st', full)) :
    Leaves s (ops ++ [word (min n MAX_WordLen)]) (st', full) ∧
      (full = false → st'.basept = st.basept + min n MAX_WordLen ∧ st'.seekpt = st'.basept) := by
  obtain ⟨m, hm⟩ : ∃ m, m = min n MAX_WordLen := ⟨_, rfl⟩
  have hcut : (if MAX_WordLen < n then MAX_WordLen else n) = m := by
    rw [hm]
    split <;> omega
  have hpos : 0 < MAX_WordLen := by decide
  rw [← hm]
  have hfits : FitsFrom s.text 0 (ops ++ [word m]) :=
    h.fitsFrom_concat ⟨by omega, by omega, by omega⟩
  unfold YlUtils.seg_word at hst
  cases hmarked : segMarked s st with
  | mk st₁ full₁ =>
    have hspec := segMarked_spec h hmarked
    rw [hmarked] at hst
    dsimp only at hst
    cases full₁ with
    | true =>
      obtain ⟨rfl, rfl⟩ := Prod.mk.inj hst
      obtain ⟨rfl, hs, hwid⟩ := hspec
      have hrows : (Emission.run s.text (ops ++ [word m])).rows = st₁.units.listed ++
          ([(Emission.run s.text ops).repeated s.text] ++
            [piece s.text (Emission.run s.text ops).basept (word m)]) := by
        rw [run_concat, Emission.step_stale hs, h.listed, List.append_assoc]
      exact ⟨h.overflows hfits hrows hwid (List.cons_ne_nil _ _), nofun⟩
    | false =>
      obtain ⟨hbasept, hroom, hrest⟩ := hspec
      rw [if_neg (by decide), if_pos hn, hcut, hbasept] at hst
      have hrun : (Emission.run s.text (ops ++ [word m])).temppt = st₁.temppt ∧
          (Emission.run s.text (ops ++ [word m])).rows =
            st₁.units.listed ++ [(s.text.drop st.basept).take m] := by
        rw [run_concat]
        by_cases hs : (Emission.run s.text ops).Stale
        · rw [if_pos hs] at hrest
          rw [Emission.step_stale hs, hrest.1, hrest.2, h.listed, h.basept]
          exact ⟨rfl, rfl⟩
        · rw [if_neg hs] at hrest
          rw [Emission.step_not_stale hs, hrest.1, hrest.2, h.listed, h.temppt, h.basept]
          exact ⟨rfl, rfl⟩
      cases hadd : st₁.units.AddWordCateInfo ((s.text.drop st.basept).take m) cate with
      | mk u full =>
        have hspec := addSlice_spec (hm ▸ Nat.min_le_right _ _) hroom hadd
        rw [hadd] at hst
        obtain ⟨rfl, rfl⟩ := Prod.mk.inj hst
        refine ⟨?_, fun _ => ⟨rfl, rfl⟩⟩
        cases full with
        | true =>
          obtain ⟨rfl, hwid⟩ := hspec
          exact h.overflows hfits hrun.2 hwid (List.cons_ne_nil _ _)
        | false =>
          refine ⟨hfits, ?_, hrun.1.symm, hspec.1.trans hrun.2.symm, hspec.2⟩
          rw [run_concat, basept_step, ← h.basept]
          rfl

/-- The words are taken one after the other, up to the one that finds the list full. -/
theorem Emits.segWords {ws : List (ℕ × Bytes)} (h : Emits s ops st) (hpos : ∀ w ∈ ws, 0 < w.1)
    (hle : st.basept + (ws.map Prod.fst).sum ≤ s.text.length) (hseekpt : st.seekpt = st.basept)
    (hst : segWords s st ws = (st', full)) :
    ∃ more, more <+: (ws.map fun w => word (min w.1 MAX_WordLen)) ∧
      Leaves s (ops ++ more) (st', full) ∧ (full = false →
        more = (ws.map fun w => word (min w.1 MAX_WordLen)) ∧ st'.seekpt = st'.basept) := by
  induction ws generalizing st ops with
  | nil =>
    obtain ⟨rfl, rfl⟩ := Prod.mk.inj hst
    refine ⟨[], List.nil_prefix, ?_, fun _ => ⟨rfl, hseekpt⟩⟩
    rw [List.append_nil]
    exact h
  | cons w ws ih =>
    obtain ⟨n, cate⟩ := w
    rw [List.map_cons, List.sum_cons] at hle
    unfold YlUtils.segWords at hst
    cases hword : YlUtils.seg_word s st n cate with
    | mk st₁ full₁ =>
      obtain ⟨h₁, hb₁⟩ := h.seg_word (hpos _ List.mem_cons_self) (by omega) hword
      rw [hword] at hst
      cases full₁ with
      | true =>
        obtain ⟨rfl, rfl⟩ := Prod.mk.inj hst
        refine ⟨[word (min n MAX_WordLen)], ?_, h₁, nofun⟩
        exact ⟨ws.map fun w => word (min w.1 MAX_WordLen), rfl⟩
      | false =>
        obtain ⟨hb₁, hs₁⟩ := hb₁ rfl
        have h₁ : Emits s (ops ++ [word (min n MAX_WordLen)]) st₁ := h₁
        have hcut := Nat.min_le_left n MAX_WordLen
        obtain ⟨more, hprefix, hleaves, hdone⟩ :=
          ih h₁ (fun w hw => hpos w (List.mem_cons_of_mem _ hw)) (by omega) hs₁ hst
        refine ⟨word (min n MAX_WordLen) :: more, ?_, ?_, fun hfull => ?_⟩
        · exact List.cons_prefix_cons.mpr ⟨rfl, hprefix⟩
        · rwa [List.append_assoc] at hleaves
        · exact ⟨congrArg _ (hdone hfull).1, (hdone hfull).2⟩

end Words

section Loops

variable {s : Sentence} {st st' : SegState} {r : SegState × Bool} {ops : List SegOp} {full : Bool}
  {q : ℕ}

/-- What the loop over characters of one byte keeps, behind the passes `ops` and with the characters
up to `q` looked at. -/
structure Scanning (s : Sentence) (ops scanned : List SegOp) (q : ℕ) (st : SegState) : Prop where
  emits : Emits s (ops ++ scanned) st
  defined : undef ∉ scanned
  basept_le : st.basept ≤ q
  le_length : q ≤ s.text.length
  positive : ∀ k, (ops.map bytes).sum ≤ k → k < q → isPositive (s.char k)

/-- Each round takes a word, or looks at one more character. -/
def scanMeasure (s : Sentence) (st : SegState) : ℕ :=
  (s.text.length - st.basept) * (s.text.length + 1) + (s.text.length - st.seekpt)

theorem scanMeasure_lt_of_basept (h : st.basept < st'.basept) (hle : st'.basept ≤ s.text.length) :
    scanMeasure s st' < scanMeasure s st := by
  obtain ⟨k, hk⟩ : ∃ k, s.text.length - st.basept = (s.text.length - st'.basept) + 1 + k :=
    ⟨st'.basept - st.basept - 1, by omega⟩
  unfold scanMeasure
  rw [hk, Nat.add_mul, Nat.add_mul]
  omega

theorem Emits.seek (h : Emits s ops st) (k : ℕ) : Emits s ops { st with seekpt := k } :=
  ⟨h.fits, h.basept, h.temppt, h.listed, h.room⟩

namespace Scanning

variable {scanned : List SegOp} {n q' : ℕ} {cate : Bytes}

theorem oneByte (h : Scanning s ops scanned q st) : OneByte s (ops.map bytes).sum scanned := by
  refine ⟨h.defined, fun k hk hlt => h.positive k hk ?_⟩
  have hbasept := h.emits.basept_eq
  rw [List.map_append, List.sum_append] at hbasept
  have := h.basept_le
  omega

theorem seg_word (h : Scanning s ops scanned q st) (hn : 0 < n) (hle : st.basept + n ≤ q)
    (hst : YlUtils.seg_word s st n cate = (st', full)) :
    ∃ m, 1 ≤ m ∧ m ≤ n ∧ OneByte s (ops.map bytes).sum (scanned ++ [word m]) ∧
      Leaves s (ops ++ (scanned ++ [word m])) (st', full) ∧
        (full = false → st'.basept = st.basept + m ∧ st'.seekpt = st'.basept) := by
  have hlen := h.le_length
  have hcut : 1 ≤ min n MAX_WordLen := Nat.le_min.mpr ⟨hn, by decide⟩
  have hbasept := h.emits.basept_eq
  rw [List.map_append, List.sum_append] at hbasept
  obtain ⟨hleaves, hdone⟩ := h.emits.seg_word hn (by omega) hst
  rw [List.append_assoc] at hleaves
  refine ⟨min n MAX_WordLen, hcut, Nat.min_le_left _ _, ⟨?_, fun k hk hlt => ?_⟩, hleaves, hdone⟩
  · simpa using h.defined
  · refine h.positive k hk ?_
    have hmin := Nat.min_le_left n MAX_WordLen
    rw [List.map_append, List.sum_append] at hlt
    simp only [List.map_cons, List.map_nil, List.sum_singleton, bytes] at hlt
    omega

theorem of_emits (h : Scanning s ops scanned q st) {more : List SegOp}
    (he : Emits s (ops ++ more) st') (hone : OneByte s (ops.map bytes).sum more)
    (hle : st'.basept ≤ q') (hq : q' ≤ q) : Scanning s ops more q' st' :=
  ⟨he, hone.defined, hle, hq.trans h.le_length, fun k hk hlt =>
    h.positive k hk (Nat.lt_of_lt_of_le hlt hq)⟩

theorem look (h : Scanning s ops scanned st.seekpt st) (hlt : st.seekpt < s.text.length)
    (hpos : isPositive (s.char st.seekpt)) :
    Scanning s ops scanned (st.seekpt + 1) { st with seekpt := st.seekpt + 1 } := by
  refine ⟨h.emits.seek _, h.defined, Nat.le_succ_of_le h.basept_le, hlt, fun k hk hk' => ?_⟩
  rcases Nat.lt_succ_iff_lt_or_eq.mp hk' with hk' | rfl
  · exact h.positive k hk hk'
  · exact hpos

theorem asciiString_spec (h : Scanning s ops scanned st.seekpt st) (hlt : st.basept < st.seekpt)
    (hr : asciiString s st = (st', full)) :
    ∃ more, OneByte s (ops.map bytes).sum more ∧ Leaves s (ops ++ more) (st', full) ∧
      (full = false → st.basept ≤ st'.basept ∧ st'.basept < st.seekpt) := by
  unfold asciiString at hr
  split at hr
  · obtain ⟨m, hm, hmn, hone, hleaves, hdone⟩ := h.seg_word (by omega) (by omega) hr
    refine ⟨_, hone, hleaves, fun hfull => ?_⟩
    obtain ⟨hb, -⟩ := hdone hfull
    omega
  · obtain ⟨rfl, rfl⟩ := Prod.mk.inj hr
    exact ⟨scanned, h.oneByte, h.emits, fun _ => ⟨Nat.le_refl _, hlt⟩⟩

end Scanning

def Scanned (s : Sentence) (ops : List SegOp) (r : SegState × Bool) : Prop :=
  ∃ scanned, OneByte s (ops.map bytes).sum scanned ∧ Leaves s (ops ++ scanned) r ∧
    (r.2 = false → Scanning s ops scanned r.1.seekpt r.1)

theorem asciiRound_spec {scanned : List SegOp} {o : Round SegState (SegState × Bool)}
    (h : Scanning s ops scanned st.seekpt st) (ho : asciiRound s st = o) :
    match o with
    | .again st' =>
      (∃ scanned, Scanning s ops scanned st'.seekpt st') ∧ scanMeasure s st' < scanMeasure s st
    | .leave r => Scanned s ops r := by
  have hle := h.basept_le
  unfold asciiRound at ho
  split at ho
  · rename_i hcond
    have hlen := hcond.2
    have hnext := h.look hcond.2 hcond.1
    dsimp only at ho
    split at ho
    · cases hstring : asciiString s { st with seekpt := st.seekpt + 1 } with
      | mk st₁ full₁ =>
        obtain ⟨more, hone, hleaves, hdone⟩ :=
          hnext.asciiString_spec (Nat.lt_succ_of_le hle) hstring
        rw [hstring] at ho
        cases full₁ with
        | true =>
          obtain rfl := ho
          exact ⟨more, hone, hleaves, nofun⟩
        | false =>
          obtain ⟨hb₁, hlt₁⟩ := hdone rfl
          dsimp only at hb₁ hlt₁
          have hscan : Scanning s ops more (st.seekpt + 1) st₁ :=
            hnext.of_emits hleaves hone hlt₁.le (Nat.le_refl _)
          cases hword : seg_word s st₁ 1 [119] with
          | mk st₂ full₂ =>
            obtain ⟨m, hm, hmn, hone₂, hleaves₂, hdone₂⟩ :=
              hscan.seg_word Nat.one_pos hlt₁ hword
            simp only [Bool.false_eq_true, if_false, hword] at ho
            cases full₂ with
            | true =>
              obtain rfl := ho
              exact ⟨_, hone₂, hleaves₂, nofun⟩
            | false =>
              obtain ⟨hb₂, hs₂⟩ := hdone₂ rfl
              obtain rfl := ho
              exact ⟨⟨_, hscan.of_emits hleaves₂ hone₂ hs₂.ge (by omega)⟩,
                scanMeasure_lt_of_basept (by omega) (by omega)⟩
    · obtain rfl := ho
      refine ⟨⟨scanned, hnext⟩, ?_⟩
      unfold scanMeasure
      dsimp only
      omega
  · obtain rfl := ho
    exact ⟨scanned, h.oneByte, h.emits, fun _ => h⟩

theorem asciiWords_spec {scanned : List SegOp} (h : Scanning s ops scanned st.seekpt st) :
    ∃ r scanned, asciiWords s st = some r ∧ OneByte s (ops.map bytes).sum scanned ∧
      Leaves s (ops ++ scanned) r ∧
        (r.2 = false → r.1.seekpt = r.1.basept ∧ r.1.basept ≤ s.text.length) := by
  have hmeasure : scanMeasure s st < (s.text.length + 1) * (s.text.length + 1) := by
    have := Nat.mul_le_mul_right (s.text.length + 1) (Nat.sub_le s.text.length st.basept)
    unfold scanMeasure
    rw [Nat.add_mul, Nat.one_mul]
    omega
  obtain ⟨⟨st₁, full₁⟩, hloop, scanned, hone, hleaves, hscan⟩ :=
    loop_of_measure (I := fun st => ∃ scanned, Scanning s ops scanned st.seekpt st)
      (Q := Scanned s ops) (scanMeasure s)
      (fun st st' ⟨scanned, h⟩ hround => asciiRound_spec h hround)
      (fun st r ⟨scanned, h⟩ hround => asciiRound_spec h hround) ⟨scanned, h⟩ hmeasure
  unfold asciiWords
  rw [hloop, Option.map_some]
  cases full₁ with
  | true => exact ⟨_, scanned, rfl, hone, hleaves, nofun⟩
  | false =>
    have hscan := hscan rfl
    have hle := hscan.basept_le
    have hlen := hscan.le_length
    simp only [Bool.false_eq_true, if_false]
    split
    · cases hword : seg_word s st₁ (st₁.seekpt - st₁.basept)
          (asciiCate s st₁.basept st₁.seekpt) with
      | mk st₂ full₂ =>
        obtain ⟨m, hm, hmn, hone₂, hleaves₂, hdone₂⟩ :=
          hscan.seg_word (by omega) (by dsimp only; omega) hword
        refine ⟨_, _, rfl, hone₂, hleaves₂, fun hfull => ?_⟩
        obtain ⟨hb₂, hs₂⟩ := hdone₂ hfull
        dsimp only at hb₂ hle hlen hmn ⊢
        exact ⟨hs₂, by omega⟩
    · refine ⟨_, scanned, rfl, hone, hleaves, fun _ => ?_⟩
      dsimp only at hle hlen ⊢
      exact ⟨by omega, by omega⟩

theorem skipSpace_scanning (h : Emits s ops st) (hseekpt : st.seekpt = st.basept)
    (hlt : st.basept < s.text.length) :
    ∃ scanned, Scanning s ops scanned (skipSpace s st).seekpt (skipSpace s st) := by
  have hbasept := h.basept_eq
  unfold skipSpace
  split
  · rename_i hspace
    have hget : s.text[st.basept]? = some 32 := by
      rw [Sentence.char, if_neg (by omega), Int.toNat_natCast, List.getD_eq_getElem?_getD,
        List.getElem?_eq_getElem hlt, Option.getD_some] at hspace
      rw [List.getElem?_eq_getElem hlt, hspace]
    simp only [hseekpt]
    refine ⟨[.skip], h.skip hget _, by simp, Nat.le_refl _, hlt, fun k hk hlt => ?_⟩
    obtain rfl : k = st.basept := by omega
    rw [hspace]
    rfl
  · refine ⟨[], ?_, by simp, hseekpt.ge, by omega, fun k hk hlt => by omega⟩
    rwa [List.append_nil]

theorem takeWords_spec {ws : List (ℕ × Bytes)} (h : Emits s ops st)
    (hseekpt : st.seekpt = st.basept) (hlt : st.basept < s.text.length) (hpos : ∀ w ∈ ws, 0 < w.1)
    (hle : st.basept + (ws.map Prod.fst).sum ≤ s.text.length ∨ ws = [])
    (hst : takeWords s st ws = (st', full)) :
    ∃ more, more <+: taken ws ∧ Leaves s (ops ++ more) (st', full) ∧
      (full = false → more = taken ws ∧ st'.seekpt = st'.basept) := by
  unfold takeWords at hst
  unfold taken
  split at hst
  · rename_i hws
    obtain ⟨hleaves, hb, hs⟩ := h.undefword hlt hst
    rw [if_pos hws]
    exact ⟨[undef], List.prefix_refl _, hleaves, fun _ => ⟨rfl, hs⟩⟩
  · rename_i hws
    rw [if_neg hws]
    exact h.segWords hpos (hle.resolve_right hws) hseekpt hst

theorem bytes_taken_pos {ws : List (ℕ × Bytes)} (hpos : ∀ w ∈ ws, 0 < w.1) :
    0 < ((taken ws).map bytes).sum := by
  unfold taken
  cases ws with
  | nil => exact Nat.two_pos
  | cons w ws =>
    have hcut : 1 ≤ min w.1 MAX_WordLen :=
      Nat.le_min.mpr ⟨hpos w List.mem_cons_self, by decide⟩
    rw [if_neg (List.cons_ne_nil _ _), List.map_cons, List.map_cons, List.sum_cons]
    exact Nat.add_pos_left hcut _

variable {δ : Type} {chooser : Chooser s δ} {d : δ} {x x' : SegState × δ}

def Segmenting (s : Sentence) (chooser : Chooser s δ) (d : δ) (x : SegState × δ) : Prop :=
  ∃ ops, Course s chooser d ops x.1 x.2 ∧ Emits s ops x.1 ∧ x.1.seekpt = x.1.basept

def Segmented (s : Sentence) (chooser : Chooser s δ) (d : δ) (o : Option (SegState × Bool)) :
    Prop :=
  ∃ r ops, o = some r ∧ InCourse s chooser d ops ∧ Leaves s ops r ∧
    (r.2 = false → s.text.length ≤ r.1.basept)

theorem segRound_spec {o : Round (SegState × δ) (Option (SegState × Bool))}
    (h : Segmenting s chooser d x) (ho : segRound s chooser x = o) :
    match o with
    | .again x' => Segmenting s chooser d x' ∧
        s.text.length - x'.1.basept < s.text.length - x.1.basept
    | .leave r => Segmented s chooser d r := by
  obtain ⟨ops, hcourse, h, hseekpt⟩ := h
  unfold segRound at ho
  split at ho
  · rename_i hlt
    obtain ⟨scanned, hscan⟩ := skipSpace_scanning h hseekpt hlt
    obtain ⟨⟨st₁, full₁⟩, scanned, hascii, hone, hleaves, hdone⟩ := asciiWords_spec hscan
    rw [hascii] at ho
    dsimp only at ho
    cases full₁ with
    | true =>
      rw [if_pos (Or.inl rfl)] at ho
      obtain rfl := ho
      refine ⟨_, ops ++ scanned, rfl, ?_, hleaves, nofun⟩
      exact ⟨ops, scanned, [], _, _, hcourse, hone, (List.append_nil _).symm, .inl rfl⟩
    | false =>
      have hemits : Emits s (ops ++ scanned) st₁ := hleaves
      obtain ⟨hs₁, hlen₁⟩ := hdone rfl
      dsimp only at hs₁ hlen₁
      by_cases hend : st₁.basept = s.text.length
      · rw [if_pos (Or.inr hend)] at ho
        obtain rfl := ho
        refine ⟨_, ops ++ scanned, rfl, ?_, hleaves, fun _ => hend.ge⟩
        exact ⟨ops, scanned, [], _, _, hcourse, hone, (List.append_nil _).symm, .inl rfl⟩
      · rw [if_neg (by simpa using hend)] at ho
        cases htake : takeWords s st₁ (chooser.choose x.2 st₁).1 with
        | mk st₂ full₂ =>
          obtain ⟨more, hprefix, hleaves₂, hdone₂⟩ := takeWords_spec hemits hs₁ (by omega)
            (chooser.pos x.2 st₁) (chooser.fits x.2 st₁) htake
          rw [htake] at ho
          cases full₂ with
          | true =>
            obtain rfl := ho
            refine ⟨_, ops ++ scanned ++ more, rfl, ?_, hleaves₂, nofun⟩
            exact ⟨ops, scanned, more, _, _, hcourse, hone, rfl,
              .inr ⟨st₁, hascii, hemits, hprefix⟩⟩
          | false =>
            obtain ⟨rfl, hs₂⟩ := hdone₂ rfl
            have hemits₂ : Emits s (ops ++ scanned ++ taken (chooser.choose x.2 st₁).1) st₂ :=
              hleaves₂
            obtain rfl := ho
            refine ⟨⟨_, .round hcourse hascii hone hemits htake, hemits₂, hs₂⟩, ?_⟩
            have hb := h.basept_eq
            have hb₂ := hemits₂.basept_eq
            have hpos := bytes_taken_pos (chooser.pos x.2 st₁)
            rw [List.map_append, List.map_append, List.sum_append, List.sum_append] at hb₂
            dsimp only
            omega
  · rename_i hge
    obtain rfl := ho
    refine ⟨_, ops, rfl, ?_, h, fun _ => by dsimp only; omega⟩
    refine ⟨ops, [], [], _, _, hcourse, ⟨by simp, fun k hk hlt => ?_⟩, by simp, .inl rfl⟩
    rw [List.map_nil, List.sum_nil] at hlt
    omega

/-- Two words behind an undefined character: the first of them is in the list twice. -/
def twoWords : Chooser ⟨[176, 161, 176, 162, 176, 163], fun _ => 0, by decide⟩ Unit where
  choose d st := (if 2 ≤ st.basept ∧ st.basept ≤ 4 then [(2, [110])] else [], d)
  pos d st := by
    dsimp only
    split <;> simp
  fits d st := by
    dsimp only
    split
    · left
      simp
      omega
    · exact Or.inr rfl

example : (Segmentation _ twoWords ()).map (fun r => r.1.units.listed) =
    some [[176, 161], [176, 162], [176, 162], [176, 163]] := by decide

end Loops

end YlUtils
