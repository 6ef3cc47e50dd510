import YlUtils.Segment.SegTagString
import YlUtils.Text.Ascii

/-! # The pieces of a mixed text

The automaton cuts the text between its characters, whether they are one byte
or two. Every piece is as long as the automaton makes it, and what is printed
is printed piece by piece.
-/

namespace YlUtils

open DoubleByte

inductive Piece
  | hz (cs : List (DoubleByte UInt8))
  | number (w : Bytes)
  | eword (w : Bytes)
  | other (b : UInt8)

namespace Piece

def chars : Piece → List (DoubleByte UInt8)
  | hz cs => cs
  | number w => w.map one
  | eword w => w.map one
  | other b => [one b]

/-- The words that are made of a piece, and what the segmentation keeps. -/
def words {σ : Type} (seg : SentenceSegmenter σ) (kept : σ) : Piece → List Bytes × σ
  | hz cs => (sentenceWords seg kept (text cs), (seg.SegTagASentence kept (text cs)).2)
  | number w => ([w], kept)
  | eword w => ([w], kept)
  | other _ => ([], kept)

def output (reservstr : Bytes) : Piece → List Bytes → Bytes
  | other b, _ => if b ∈ reservstr then [b, 32] else []
  | _, ws => printWords ws

end Piece

/-- The pieces with their words, which are made one piece after the other. -/
def pieceWords {σ : Type} (seg : SentenceSegmenter σ) (kept : σ) :
    List Piece → List (Piece × List Bytes) × σ
  | [] => ([], kept)
  | x :: ps =>
    let r := pieceWords seg (x.words seg kept).2 ps
    ((x, (x.words seg kept).1) :: r.1, r.2)

/-- What is printed for the pieces. -/
def printPieces (reservstr : Bytes) (rs : List (Piece × List Bytes)) : Bytes :=
  rs.flatMap fun r => r.1.output reservstr r.2

def countWords (rs : List (Piece × List Bytes)) : ℕ := (rs.map fun r => r.2.length).sum

/-! ## The automaton on characters -/

def headByte (cs : List (DoubleByte UInt8)) : UInt8 := (cs.head?.map first).getD 0

/-- A character that goes on with a word is a single byte. -/
def wordAccept (valid : WordCounts → UInt8 → UInt8 → WordCounts × Bool) (q : WordCounts) :
    List (DoubleByte UInt8) → Option WordCounts
  | one c :: cs =>
    if (valid q c (headByte cs)).2 then
      some { (valid q c (headByte cs)).1 with len := (valid q c (headByte cs)).1.len + 1 }
    else none
  | _ => none

def hzAccept (len : ℕ) : List (DoubleByte UInt8) → Option ℕ
  | two _ _ :: _ => if len < MAXHZSTRLEN then some (len + 2) else none
  | _ => none

/-- The pieces that the automaton cuts the characters into. -/
inductive Cut : List (DoubleByte UInt8) → List Piece → Prop
  | nil : Cut [] []
  | hz {b c : UInt8} {cs : List (DoubleByte UInt8)} {ps : List Piece}
    (rest : Cut (munch hzAccept 2 cs).2 ps) :
    Cut (two b c :: cs) (.hz (two b c :: (munch hzAccept 2 cs).1) :: ps)
  | number {b : UInt8} {w : Bytes} {cs r : List (DoubleByte UInt8)} {ps : List Piece}
    (hb : isdigit b = true)
    (hw : munch (wordAccept numberValid) ⟨1, 0, 0, 0⟩ cs = (w.map one, r))
    (rest : Cut r ps) : Cut (one b :: cs) (.number (b :: w) :: ps)
  | eword {b : UInt8} {w : Bytes} {cs r : List (DoubleByte UInt8)} {ps : List Piece}
    (hb : isdigit b = false) (hb' : isalpha b = true)
    (hw : munch (wordAccept ewordValid) ⟨1, 0, 0, 0⟩ cs = (w.map one, r))
    (rest : Cut r ps) : Cut (one b :: cs) (.eword (b :: w) :: ps)
  | other {b : UInt8} {cs : List (DoubleByte UInt8)} {ps : List Piece}
    (hb : isdigit b = false) (hb' : isalpha b = false) (rest : Cut cs ps) :
    Cut (one b :: cs) (.other b :: ps)

section Cut

variable {valid : WordCounts → UInt8 → UInt8 → WordCounts × Bool} {cs : List (DoubleByte UInt8)}
  {ps : List Piece}

theorem exists_munch_wordAccept (valid : WordCounts → UInt8 → UInt8 → WordCounts × Bool)
    (q : WordCounts) (cs : List (DoubleByte UInt8)) :
    ∃ (w : Bytes) (r : List (DoubleByte UInt8)),
      munch (wordAccept valid) q cs = (w.map one, r) := by
  induction cs generalizing q with
  | nil => exact ⟨[], [], rfl⟩
  | cons x cs ih =>
    cases h : wordAccept valid q (x :: cs) with
    | none => exact ⟨[], x :: cs, munch_of_none h⟩
    | some q' =>
      obtain ⟨w, r, hw⟩ := ih q'
      cases x with
      | two b c => cases h
      | one b => exact ⟨b :: w, r, by rw [munch_of_some h, hw]; rfl⟩

theorem exists_cut (cs : List (DoubleByte UInt8)) : ∃ ps, Cut cs ps := by
  induction hn : cs.length using Nat.strong_induction_on generalizing cs with
  | h n ih =>
    cases cs with
    | nil => exact ⟨[], .nil⟩
    | cons x cs =>
      rw [List.length_cons] at hn
      cases x with
      | two b c =>
        have hlen := length_munch_le hzAccept 2 cs
        obtain ⟨ps, hps⟩ := ih (munch hzAccept 2 cs).2.length (by omega) _ rfl
        exact ⟨_, .hz hps⟩
      | one b =>
        cases hb : isdigit b with
        | true =>
          obtain ⟨w, r, hw⟩ := exists_munch_wordAccept numberValid ⟨1, 0, 0, 0⟩ cs
          have hlen := length_munch_le (wordAccept numberValid) ⟨1, 0, 0, 0⟩ cs
          rw [hw] at hlen
          dsimp only at hlen
          obtain ⟨ps, hps⟩ := ih r.length (by omega) r rfl
          exact ⟨_, .number hb hw hps⟩
        | false =>
          cases hb' : isalpha b with
          | true =>
            obtain ⟨w, r, hw⟩ := exists_munch_wordAccept ewordValid ⟨1, 0, 0, 0⟩ cs
            have hlen := length_munch_le (wordAccept ewordValid) ⟨1, 0, 0, 0⟩ cs
            rw [hw] at hlen
            dsimp only at hlen
            obtain ⟨ps, hps⟩ := ih r.length (by omega) r rfl
            exact ⟨_, .eword hb hb' hw hps⟩
          | false =>
            obtain ⟨ps, hps⟩ := ih cs.length (by omega) cs rfl
            exact ⟨_, .other hb hb' hps⟩

theorem Cut.flatMap_chars (h : Cut cs ps) : ps.flatMap Piece.chars = cs := by
  induction h with
  | nil => rfl
  | @hz b c cs ps rest ih =>
    rw [List.flatMap_cons, ih, Piece.chars, List.cons_append, munch_append]
  | @number b w cs r ps hb hw rest ih =>
    have happend := munch_append (wordAccept numberValid) ⟨1, 0, 0, 0⟩ cs
    rw [hw] at happend
    rw [List.flatMap_cons, ih, Piece.chars, List.map_cons, List.cons_append, happend]
  | @eword b w cs r ps hb hb' hw rest ih =>
    have happend := munch_append (wordAccept ewordValid) ⟨1, 0, 0, 0⟩ cs
    rw [hw] at happend
    rw [List.flatMap_cons, ih, Piece.chars, List.map_cons, List.cons_append, happend]
  | @other b cs ps hb hb' rest ih =>
    rw [List.flatMap_cons, ih]
    rfl

end Cut

/-! ## The run of the automaton -/

section Run

variable {σ : Type} {seg : SentenceSegmenter σ} {reservstr s : Bytes} {kept : σ}
  {cs : List (DoubleByte UInt8)} {k : ℕ}

/-- The characters from position `k` to the end of the string. -/
structure StandsAt (s : Bytes) (k : ℕ) (cs : List (DoubleByte UInt8)) : Prop where
  le : k ≤ s.length
  drop : s.drop k = text cs
  reads : Reads IS_GB cs

theorem charAt_add (k i : ℕ) : charAt s (k + i) = (s.drop k).getD i 0 := by
  rw [charAt, List.getD_eq_getElem?_getD, List.getD_eq_getElem?_getD, List.getElem?_drop]

theorem getD_text_zero (cs : List (DoubleByte UInt8)) : (text cs).getD 0 0 = headByte cs := by
  cases cs with
  | nil => rfl
  | cons x cs => cases x <;> rfl

theorem StandsAt.charAt_end (h : StandsAt s k []) : charAt s k = 0 := by
  rw [← Nat.add_zero k, charAt_add, h.drop]
  rfl

theorem StandsAt.length_end (h : StandsAt s k []) : k = s.length := by
  have hlen := congrArg List.length h.drop
  rw [List.length_drop, text_nil, List.length_nil] at hlen
  have := h.le
  omega

theorem StandsAt.tail {x : DoubleByte UInt8} (h : StandsAt s k (x :: cs)) :
    StandsAt s (k + x.bytes.length) cs := by
  have hdrop := h.drop
  rw [text_cons] at hdrop
  have hlen := congrArg List.length hdrop
  rw [List.length_drop, List.length_append] at hlen
  have hpos : 0 < x.bytes.length := by cases x <;> exact Nat.succ_pos _
  refine ⟨by omega, ?_, (reads_cons_iff.mp h.reads).2.2⟩
  rw [← List.drop_drop, hdrop, List.drop_left]

theorem StandsAt.append {cs' : List (DoubleByte UInt8)} (h : StandsAt s k (cs ++ cs')) :
    StandsAt s (k + (text cs).length) cs' := by
  induction cs generalizing k with
  | nil => exact h
  | cons x cs ih =>
    rw [text_cons, List.length_append, ← Nat.add_assoc]
    exact ih h.tail

theorem StandsAt.munch {ρ : Type} (h : StandsAt s k cs)
    (accept : ρ → List (DoubleByte UInt8) → Option ρ) (q : ρ) :
    StandsAt s (k + (text (munch accept q cs).1).length) (munch accept q cs).2 := by
  rw [← munch_append accept q cs] at h
  exact h.append

theorem standsAt_one {b : UInt8} (h : StandsAt s k (one b :: cs)) :
    charAt s k = b ∧ charAt s (k + 1) = headByte cs ∧ IS_GB b (headByte cs) = false ∧
      k < s.length := by
  have hdrop := h.drop
  rw [text_cons] at hdrop
  have hlen := congrArg List.length hdrop
  refine ⟨?_, ?_, ?_, ?_⟩
  · rw [← Nat.add_zero k, charAt_add, hdrop]
    rfl
  · rw [charAt_add, hdrop, ← getD_text_zero]
    rfl
  · cases cs with
    | nil => simp [headByte, IS_GB]
    | cons y cs => exact (reads_cons_iff.mp h.reads).2.1 y rfl
  · rw [List.length_drop, List.length_append] at hlen
    simp only [bytes, List.length_singleton] at hlen
    omega

theorem standsAt_two {b c : UInt8} (h : StandsAt s k (two b c :: cs)) :
    charAt s k = b ∧ charAt s (k + 1) = c ∧ IS_GB b c = true ∧ k < s.length := by
  have hdrop := h.drop
  rw [text_cons] at hdrop
  have hlen := congrArg List.length hdrop
  refine ⟨?_, ?_, ?_, ?_⟩
  · rw [← Nat.add_zero k, charAt_add, hdrop]
    rfl
  · rw [charAt_add, hdrop]
    rfl
  · exact (reads_cons_iff.mp h.reads).1
  · rw [List.length_drop, List.length_append] at hlen
    simp only [bytes, List.length_cons] at hlen
    omega

/-- The rounds lead from one state to the other. -/
def Goes (seg : SentenceSegmenter σ) (reservstr s : Bytes) :
    SegTagState σ → SegTagState σ → Prop :=
  Relation.ReflTransGen fun st st' => segTagRound seg reservstr s st = .again st'

section Word

variable {valid : WordCounts → UInt8 → UInt8 → WordCounts × Bool} {curstate : WORDSTATE}
  {q : WordCounts}

theorem not_IS_GB_of_lt {b c : UInt8} (h : b.toNat < 0x80) : IS_GB b c = false := by
  have hb : ¬ (0x81 : UInt8) ≤ b := fun hle => by
    have := UInt8.le_iff_toNat_le.mp hle
    simp at this
    omega
  simp [IS_GB, hb]

theorem StandsAt.not_valid (h : StandsAt s k cs)
    (hvalid : ∀ q c n, (valid q c n).2 = true → 0 < c.toNat ∧ c.toNat < 0x80)
    (hnone : cs = [] ∨ wordAccept valid q cs = none) :
    (valid q (charAt s k) (charAt s (k + 1))).2 = false := by
  rw [Bool.eq_false_iff]
  intro hv
  have hbounds := hvalid _ _ _ hv
  cases cs with
  | nil =>
    rw [h.charAt_end] at hbounds
    exact Nat.lt_irrefl 0 hbounds.1
  | cons x cs =>
    have hnone := hnone.resolve_left (List.cons_ne_nil x cs)
    cases x with
    | one b =>
      obtain ⟨hb, hnext, -, -⟩ := standsAt_one h
      rw [hb, hnext] at hv
      rw [wordAccept, if_pos hv] at hnone
      cases hnone
    | two b c =>
      obtain ⟨hb, -, hgb, -⟩ := standsAt_two h
      rw [hb] at hbounds
      rw [not_IS_GB_of_lt hbounds.2] at hgb
      cases hgb

/-- Inside a word the rounds take what is accepted, and then print the word. -/
theorem goes_word
    (hround : ∀ st : SegTagState σ, st.curstate = curstate → st.p ≤ s.length →
      segTagRound seg reservstr s st = .again (wordRound s valid st))
    (hvalid : ∀ q c n, (valid q c n).2 = true → 0 < c.toNat ∧ c.toNat < 0x80)
    {w : Bytes} {r : List (DoubleByte UInt8)} {pword n : ℕ} {d : Bytes}
    (h : StandsAt s k cs) (hw : munch (wordAccept valid) q cs = (w.map one, r)) :
    ∃ q', Goes seg reservstr s ⟨curstate, k, pword, q, d, n, kept⟩ ⟨.NONE, k + w.length, pword,
      q', d ++ printWords [(s.drop pword).take (k + w.length - pword)], n + 1, kept⟩ := by
  have hstop {q : WordCounts} {k : ℕ} {cs : List (DoubleByte UInt8)} (h : StandsAt s k cs)
      (hnone : cs = [] ∨ wordAccept valid q cs = none) :
      ∃ q', Goes seg reservstr s ⟨curstate, k, pword, q, d, n, kept⟩
        ⟨.NONE, k, pword, q', d ++ printWords [(s.drop pword).take (k - pword)], n + 1, kept⟩ := by
    refine ⟨(valid q (charAt s k) (charAt s (k + 1))).1, .single ?_⟩
    rw [hround _ rfl h.le, wordRound, if_neg (by simp [h.not_valid hvalid hnone])]
    rfl
  induction cs generalizing w q k with
  | nil =>
    obtain ⟨hnil, rfl⟩ := Prod.mk.inj hw
    obtain rfl : w = [] := List.map_eq_nil_iff.mp hnil.symm
    exact hstop h (.inl rfl)
  | cons x cs ih =>
    cases haccept : wordAccept valid q (x :: cs) with
    | none =>
      rw [munch_of_none haccept] at hw
      obtain ⟨hnil, rfl⟩ := Prod.mk.inj hw
      obtain rfl : w = [] := List.map_eq_nil_iff.mp hnil.symm
      exact hstop h (.inr haccept)
    | some q' =>
      cases x with
      | two b c => cases haccept
      | one b =>
        rw [munch_of_some haccept] at hw
        obtain ⟨hcons, rfl⟩ := Prod.mk.inj hw
        cases w with
        | nil => cases hcons
        | cons b' w =>
          obtain ⟨hb, htail⟩ := List.cons.inj hcons
          obtain ⟨hb', hnext, -, hlt⟩ := standsAt_one h
          obtain ⟨q'', hgoes⟩ := ih h.tail (Prod.ext htail rfl)
          have hk : k + (bytes (one b)).length + w.length = k + (b' :: w).length := by
            simp only [bytes, List.length_cons, List.length_nil]
            omega
          rw [hk] at hgoes
          refine ⟨q'', hgoes.head ?_⟩
          rw [wordAccept] at haccept
          split at haccept
          · rename_i hv
            obtain rfl := Option.some.inj haccept
            rw [hround _ rfl h.le, wordRound]
            dsimp only
            rw [hb', hnext, if_pos hv]
            rfl
          · cases haccept

end Word

theorem goes_hz {pword n mid tail max : ℕ} {d : Bytes} (len : ℕ) (h : StandsAt s k cs) :
    ∃ counts, ∀ t, (s.drop pword).take (k + (text (munch hzAccept len cs).1).length - pword) = t →
      Goes seg reservstr s ⟨.HZSTRING, k, pword, ⟨len, mid, tail, max⟩, d, n, kept⟩
        ⟨.NONE, k + (text (munch hzAccept len cs).1).length, pword, counts,
          d ++ printWords (sentenceWords seg kept t), n + (sentenceWords seg kept t).length,
          (seg.SegTagASentence kept t).2⟩ := by
  induction cs generalizing len k with
  | nil =>
    refine ⟨⟨len, mid, tail, max⟩, ?_⟩
    rintro _ rfl
    refine .single ?_
    rw [segTagRound, if_pos h.le]
    dsimp only
    rw [hzRound, if_pos (.inr (by simp [h.charAt_end, IS_GB]))]
    rfl
  | cons x cs ih =>
    cases haccept : hzAccept len (x :: cs) with
    | none =>
      rw [munch_of_none haccept]
      refine ⟨⟨len, mid, tail, max⟩, ?_⟩
      rintro _ rfl
      refine .single ?_
      rw [segTagRound, if_pos h.le]
      dsimp only
      rw [hzRound, if_pos]
      · rfl
      · cases x with
        | one b =>
          obtain ⟨hb, hnext, hgb, -⟩ := standsAt_one h
          exact .inr (by rw [hb, hnext, hgb])
        | two b c =>
          refine .inl ?_
          rw [hzAccept] at haccept
          split at haccept
          · cases haccept
          · exact Nat.not_lt.mp ‹_›
    | some len' =>
      cases x with
      | one b => cases haccept
      | two b c =>
        rw [hzAccept] at haccept
        split at haccept
        · rename_i hlen
          obtain rfl := Option.some.inj haccept
          rw [munch_of_some (show hzAccept len (two b c :: cs) = some (len + 2) by
            rw [hzAccept, if_pos hlen])]
          obtain ⟨hb, hc, hgb, -⟩ := standsAt_two h
          obtain ⟨counts, hgoes⟩ := ih (len + 2) h.tail
          rw [text_cons, List.length_append, ← Nat.add_assoc]
          refine ⟨counts, fun t ht => (hgoes t ht).head ?_⟩
          rw [segTagRound, if_pos h.le]
          dsimp only
          rw [hzRound, if_neg (by rw [hb, hc, hgb]; simp; exact hlen)]
          rfl
        · cases haccept

theorem isdigit_ascii : ∀ c : UInt8, isdigit c = true → 0 < c.toNat ∧ c.toNat < 0x80 := by
  decide +kernel

theorem isalpha_ascii : ∀ c : UInt8, isalpha c = true → 0 < c.toNat ∧ c.toNat < 0x80 := by
  decide +kernel

theorem numberValid_ascii (q : WordCounts) (c n : UInt8) (h : (numberValid q c n).2 = true) :
    0 < c.toNat ∧ c.toNat < 0x80 := by
  unfold numberValid at h
  by_cases hd : isdigit c = true
  · exact isdigit_ascii c hd
  · by_cases h46 : c = 46
    · subst h46
      decide
    · simp [hd, h46] at h

theorem ewordValid_ascii (q : WordCounts) (c n : UInt8) (h : (ewordValid q c n).2 = true) :
    0 < c.toNat ∧ c.toNat < 0x80 := by
  unfold ewordValid at h
  by_cases hd : isdigit c = true
  · exact isdigit_ascii c hd
  · by_cases ha : isalpha c = true
    · exact isalpha_ascii c ha
    · by_cases hc : c = 45 ∨ c = 38 ∨ c = 43 ∨ c = 35
      · rcases hc with rfl | rfl | rfl | rfl <;> decide
      · simp only [not_or] at hc
        simp [hd, ha, hc] at h

theorem wordAccept_number {q q' : WordCounts} {x : DoubleByte UInt8}
    (h : wordAccept numberValid q (x :: cs) = some q') :
    ∃ c, x = one c ∧ q.len < MAXNUMBERLEN ∧
      (isdigit c = true ∧ q' = { q with len := q.len + 1 } ∨
        c = 46 ∧ q.midcnt = 0 ∧ isdigit (headByte cs) = true ∧
          q' = { q with len := q.len + 1, midcnt := 1 }) := by
  cases x with
  | two b c => cases h
  | one c =>
    rw [wordAccept] at h
    split at h
    · rename_i hv
      obtain rfl := Option.some.inj h
      refine ⟨c, rfl, ?_⟩
      unfold numberValid at hv ⊢
      split at hv
      · rename_i hlen
        refine ⟨hlen, ?_⟩
        split at hv
        · rename_i hd
          exact .inl ⟨hd, by rw [if_pos hlen, if_pos hd]⟩
        · rename_i hd
          split at hv
          · rename_i hdot
            split at hv
            · rename_i hnext
              exact .inr ⟨hdot.2, hdot.1, hnext, by
                rw [if_pos hlen, if_neg hd, if_pos hdot, if_pos hnext]⟩
            · cases hv
          · cases hv
      · cases hv
    · cases h

/-- The digits of an earlier word do not matter in a number. -/
theorem munch_numberValid (len mid tail max : ℕ) (cs : List (DoubleByte UInt8)) :
    munch (wordAccept numberValid) ⟨len, mid, tail, max⟩ cs =
      munch (wordAccept numberValid) ⟨len, mid, tail, 0⟩ cs := by
  induction cs generalizing len mid with
  | nil => rfl
  | cons x cs ih =>
    have hsame : wordAccept numberValid ⟨len, mid, tail, max⟩ (x :: cs) =
        (wordAccept numberValid ⟨len, mid, tail, 0⟩ (x :: cs)).map fun q =>
          { q with maxnumberlen := max } := by
      cases x with
      | two b c => rfl
      | one c =>
        simp only [wordAccept, numberValid]
        grind
    cases h : wordAccept numberValid ⟨len, mid, tail, 0⟩ (x :: cs) with
    | none =>
      rw [h] at hsame
      rw [munch_of_none h, munch_of_none hsame]
    | some q =>
      rw [h] at hsame
      rw [munch_of_some h, munch_of_some hsame]
      obtain ⟨c, -, -, ⟨-, rfl⟩ | ⟨-, -, -, rfl⟩⟩ := wordAccept_number h
      · rw [ih]
      · rw [ih]

theorem StandsAt.take {cs' : List (DoubleByte UInt8)} (h : StandsAt s k (cs ++ cs')) :
    (s.drop k).take (text cs).length = text cs := by
  rw [h.drop, text_append, List.take_left]

theorem StandsAt.ne_zero {b : UInt8} (h : StandsAt s k (one b :: cs)) (hs : 0 ∉ s) : b ≠ 0 := by
  obtain ⟨hb, -, -, hlt⟩ := standsAt_one h
  rintro rfl
  rw [charAt, List.getD_eq_getElem?_getD, List.getElem?_eq_getElem hlt, Option.getD_some] at hb
  exact hs (hb ▸ List.getElem_mem hlt)

section Start

variable {pword n : ℕ} {counts : WordCounts} {d : Bytes} {b c : UInt8}

theorem goes_start_hz (h : StandsAt s k (two b c :: cs)) :
    Goes seg reservstr s ⟨.NONE, k, pword, counts, d, n, kept⟩
      ⟨.HZSTRING, k + 2, k, ⟨2, 0, 0, counts.maxnumberlen⟩, d, n, kept⟩ := by
  obtain ⟨hb, hc, hgb, -⟩ := standsAt_two h
  refine .single ?_
  rw [segTagRound, if_pos h.le]
  dsimp only
  rw [noneRound, hb, hc, if_pos hgb]
  rfl

theorem noneRound_one (h : StandsAt s k (one b :: cs)) (st : SegTagState σ) (hp : st.p = k)
    (hst : st.curstate = .NONE) : segTagRound seg reservstr s st = .again
      { (if isdigit b then st.start .NUMBER
        else if isalpha b then st.start .EWORD
        else if strchr reservstr b then { st with dest := st.dest ++ [b, 32] }
        else st) with p := k + 1 } := by
  obtain ⟨hb, hnext, hgb, -⟩ := standsAt_one h
  obtain ⟨curstate, p, pword, counts, dest, wsum, kept⟩ := st
  dsimp only at hp hst
  subst hp hst
  rw [segTagRound, if_pos h.le]
  dsimp only
  rw [noneRound]
  dsimp only
  rw [hb, hnext, hgb, if_neg Bool.false_ne_true]
  split
  · rfl
  · split
    · rfl
    · split <;> rfl

theorem goes_start_number (h : StandsAt s k (one b :: cs)) (hb : isdigit b = true) :
    Goes seg reservstr s ⟨.NONE, k, pword, counts, d, n, kept⟩
      ⟨.NUMBER, k + 1, k, ⟨1, 0, 0, counts.maxnumberlen⟩, d, n, kept⟩ := by
  refine .single ?_
  rw [noneRound_one h _ rfl rfl, if_pos hb]
  rfl

theorem goes_start_eword (h : StandsAt s k (one b :: cs)) (hb : isdigit b = false)
    (hb' : isalpha b = true) : Goes seg reservstr s ⟨.NONE, k, pword, counts, d, n, kept⟩
      ⟨.EWORD, k + 1, k, ⟨1, 0, 0, 0⟩, d, n, kept⟩ := by
  refine .single ?_
  rw [noneRound_one h _ rfl rfl, if_neg (by simp [hb]), if_pos hb']
  rfl

theorem goes_other (h : StandsAt s k (one b :: cs)) (hb : isdigit b = false)
    (hb' : isalpha b = false) (hs : 0 ∉ s) :
    Goes seg reservstr s ⟨.NONE, k, pword, counts, d, n, kept⟩
      ⟨.NONE, k + 1, pword, counts, d ++ (Piece.other b).output reservstr [], n, kept⟩ := by
  refine .single ?_
  rw [noneRound_one h _ rfl rfl, if_neg (by simp [hb]), if_neg (by simp [hb'])]
  by_cases hr : b ∈ reservstr
  · simp [strchr, hr, Piece.output]
  · simp [strchr, hr, Piece.output, h.ne_zero hs]

/-- The rounds print the piece and go behind it. -/
def Prints (seg : SentenceSegmenter σ) (reservstr s : Bytes) (k : ℕ) (x : Piece) (k' : ℕ) : Prop :=
  ∀ pword counts d n kept, ∃ pword' counts',
    Goes seg reservstr s ⟨.NONE, k, pword, counts, d, n, kept⟩
      ⟨.NONE, k', pword', counts', d ++ x.output reservstr (x.words seg kept).1,
        n + (x.words seg kept).1.length, (x.words seg kept).2⟩

def PrintsAll (seg : SentenceSegmenter σ) (reservstr s : Bytes) (k : ℕ) (ps : List Piece) : Prop :=
  ∀ pword counts d n kept, ∃ pword' counts',
    Goes seg reservstr s ⟨.NONE, k, pword, counts, d, n, kept⟩
      ⟨.NONE, s.length, pword', counts', d ++ printPieces reservstr (pieceWords seg kept ps).1,
        n + countWords (pieceWords seg kept ps).1, (pieceWords seg kept ps).2⟩

theorem Prints.cons {k' : ℕ} {x : Piece} {ps : List Piece} (hx : Prints seg reservstr s k x k')
    (hps : PrintsAll seg reservstr s k' ps) : PrintsAll seg reservstr s k (x :: ps) := by
  intro pword counts d n kept
  obtain ⟨pword₁, counts₁, h₁⟩ := hx pword counts d n kept
  obtain ⟨pword₂, counts₂, h₂⟩ := hps pword₁ counts₁ (d ++ x.output reservstr (x.words seg kept).1)
    (n + (x.words seg kept).1.length) (x.words seg kept).2
  refine ⟨pword₂, counts₂, h₁.trans ?_⟩
  rw [pieceWords, printPieces, countWords, List.flatMap_cons, ← List.append_assoc, List.map_cons,
    List.sum_cons, ← Nat.add_assoc]
  exact h₂

theorem prints_hz (h : StandsAt s k (two b c :: cs)) :
    Prints seg reservstr s k (.hz (two b c :: (munch hzAccept 2 cs).1))
      (k + 2 + (text (munch hzAccept 2 cs).1).length) := by
  intro pword counts d n kept
  have htake : (s.drop k).take (k + 2 + (text (munch hzAccept 2 cs).1).length - k) =
      text (two b c :: (munch hzAccept 2 cs).1) := by
    have hlen : k + 2 + (text (munch hzAccept 2 cs).1).length - k =
        (text (two b c :: (munch hzAccept 2 cs).1)).length := by
      rw [text_cons, List.length_append]
      simp only [bytes, List.length_cons, List.length_nil]
      omega
    rw [hlen]
    have hsplit : StandsAt s k
        ((two b c :: (munch hzAccept 2 cs).1) ++ (munch hzAccept 2 cs).2) := by
      rwa [List.cons_append, munch_append]
    exact hsplit.take
  obtain ⟨counts', hgoes⟩ := goes_hz 2 h.tail
  exact ⟨_, _, (goes_start_hz h).trans (hgoes _ htake)⟩

theorem prints_word {valid : WordCounts → UInt8 → UInt8 → WordCounts × Bool} {curstate : WORDSTATE}
    (hround : ∀ st : SegTagState σ, st.curstate = curstate → st.p ≤ s.length →
      segTagRound seg reservstr s st = .again (wordRound s valid st))
    (hvalid : ∀ q c n, (valid q c n).2 = true → 0 < c.toNat ∧ c.toNat < 0x80)
    {w : Bytes} {r : List (DoubleByte UInt8)} {q : WordCounts} (h : StandsAt s k (one b :: cs))
    (hw : munch (wordAccept valid) q cs = (w.map one, r)) {n : ℕ} {d : Bytes} :
    ∃ q', Goes seg reservstr s ⟨curstate, k + 1, k, q, d, n, kept⟩
      ⟨.NONE, k + 1 + w.length, k, q', d ++ printWords [b :: w], n + 1, kept⟩ := by
  have htake : (s.drop k).take (k + 1 + w.length - k) = b :: w := by
    have hsplit : StandsAt s k ((b :: w).map one ++ r) := by
      have happend := munch_append (wordAccept valid) q cs
      rw [hw] at happend
      rwa [List.map_cons, List.cons_append, happend]
    have hlen : k + 1 + w.length - k = (text ((b :: w).map one)).length := by
      rw [text_map_one, List.length_cons]
      omega
    rw [hlen, hsplit.take, text_map_one]
  have hgoes : ∃ q', Goes seg reservstr s ⟨curstate, k + 1, k, q, d, n, kept⟩
      ⟨.NONE, k + 1 + w.length, k, q',
        d ++ printWords [(s.drop k).take (k + 1 + w.length - k)], n + 1, kept⟩ :=
    goes_word hround hvalid h.tail hw
  rwa [htake] at hgoes

theorem prints_number {w : Bytes} {r : List (DoubleByte UInt8)} (h : StandsAt s k (one b :: cs))
    (hb : isdigit b = true)
    (hw : munch (wordAccept numberValid) ⟨1, 0, 0, 0⟩ cs = (w.map one, r)) :
    Prints seg reservstr s k (.number (b :: w)) (k + 1 + w.length) := by
  intro pword counts d n kept
  rw [← munch_numberValid 1 0 0 counts.maxnumberlen] at hw
  obtain ⟨q', hgoes⟩ := prints_word
    (fun (st : SegTagState σ) (hst : st.curstate = .NUMBER) hp => by
      rw [segTagRound, if_pos hp, hst])
    numberValid_ascii h hw
  exact ⟨_, _, (goes_start_number h hb).trans hgoes⟩

theorem prints_eword {w : Bytes} {r : List (DoubleByte UInt8)} (h : StandsAt s k (one b :: cs))
    (hb : isdigit b = false) (hb' : isalpha b = true)
    (hw : munch (wordAccept ewordValid) ⟨1, 0, 0, 0⟩ cs = (w.map one, r)) :
    Prints seg reservstr s k (.eword (b :: w)) (k + 1 + w.length) := by
  intro pword counts d n kept
  obtain ⟨q', hgoes⟩ := prints_word
    (fun (st : SegTagState σ) (hst : st.curstate = .EWORD) hp => by
      rw [segTagRound, if_pos hp, hst])
    ewordValid_ascii h hw
  exact ⟨_, _, (goes_start_eword h hb hb').trans hgoes⟩

end Start

theorem Cut.printsAll {ps : List Piece} (hcut : Cut cs ps) (hs : 0 ∉ s) (h : StandsAt s k cs) :
    PrintsAll seg reservstr s k ps := by
  induction hcut generalizing k with
  | nil =>
    intro pword counts d n kept
    obtain rfl := h.length_end
    refine ⟨pword, counts, ?_⟩
    rw [pieceWords, printPieces, List.flatMap_nil, List.append_nil]
    exact Relation.ReflTransGen.refl
  | @hz b c cs ps rest ih => exact (prints_hz h).cons (ih (h.tail.munch hzAccept 2))
  | @number b w cs r ps hb hw rest ih =>
    have hr := h.tail.munch (wordAccept numberValid) ⟨1, 0, 0, 0⟩
    rw [hw, text_map_one] at hr
    exact (prints_number h hb hw).cons (ih hr)
  | @eword b w cs r ps hb hb' hw rest ih =>
    have hr := h.tail.munch (wordAccept ewordValid) ⟨1, 0, 0, 0⟩
    rw [hw, text_map_one] at hr
    exact (prints_eword h hb hb' hw).cons (ih hr)
  | @other b cs ps hb hb' rest ih =>
    have hx : Prints seg reservstr s k (.other b) (k + 1) := fun pword counts d n kept =>
      ⟨_, _, goes_other h hb hb' hs⟩
    exact hx.cons (ih h.tail)

end Run

end YlUtils
