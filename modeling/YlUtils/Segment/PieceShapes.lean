import Mathlib.Algebra.BigOperators.Ring.List
import Mathlib.Algebra.Order.BigOperators.Group.List
import Mathlib.Algebra.Order.Ring.Nat
import YlUtils.Runs.Succeeds
import YlUtils.Segment.TextPieces

/-! # The words of a mixed text

The pieces of a text have the shapes that the counters of the automaton allow,
and end where they could not be longer. What is printed for them is the output
of the program, with three bytes behind it.
-/

namespace YlUtils

open DoubleByte

/-- A hyphen or an ampersand, which joins the parts of a word. -/
def isJoint (c : UInt8) : Bool := c = 45 || c = 38

def isTailMark (c : UInt8) : Bool := c = 43 || c = 35

structure NumberWord (w : Bytes) : Prop where
  length_le : w.length ≤ MAXNUMBERLEN
  head : ∃ c ∈ w.head?, isdigit c = true
  bytes : ∀ c ∈ w, isdigit c = true ∨ c = 46
  dots : w.count 46 ≤ 1

/-- A word that begins with a letter, has few digits and is joined once, and may have marks at its
end. -/
structure LetterWord (w : Bytes) : Prop where
  length_le : w.length ≤ MAXEWORDLEN
  head : ∃ c ∈ w.head?, isalpha c = true
  digits : w.countP isdigit < 5
  joints : w.countP isJoint ≤ 1
  marks : ∃ u v, w = u ++ v ∧ (∀ c ∈ u, isalpha c = true ∨ isdigit c = true ∨ isJoint c = true) ∧
    ∀ c ∈ v, isTailMark c = true

namespace Piece

def WellFormed : Piece → Prop
  | hz cs => cs ≠ [] ∧ (∀ x ∈ cs, ∃ b c, x = two b c) ∧ 2 * cs.length ≤ MAXHZSTRLEN
  | number w => NumberWord w
  | eword w => LetterWord w
  | other b => isdigit b = false ∧ isalpha b = false

/-- A piece ends before another one of its kind only if it could not be longer. -/
def Adjacent : Piece → Piece → Prop
  | hz cs, hz _ => 2 * cs.length = MAXHZSTRLEN
  | number w, number _ => w.length = MAXNUMBERLEN
  | _, _ => True

end Piece

section Shape

variable {cs : List (DoubleByte UInt8)} {ps : List Piece} {w : Bytes} {b c : UInt8}

theorem ewordValid_cases {q : WordCounts} {n : UInt8} (h : (ewordValid q c n).2 = true) :
    q.len < MAXEWORDLEN ∧
      ((isalpha c = true ∨ isdigit c = true) ∧ q.tailcnt = 0 ∧
          (ewordValid q c n).1.maxnumberlen < 5 ∧ (ewordValid q c n).1 =
            { q with maxnumberlen := q.maxnumberlen + if isdigit c then 1 else 0 } ∨
        isJoint c = true ∧ isdigit c = false ∧ q.tailcnt = 0 ∧ q.midcnt = 0 ∧
          (ewordValid q c n).1 = { q with midcnt := 1 } ∨
        isTailMark c = true ∧
          (ewordValid q c n).1 = { q with tailcnt := q.tailcnt + 1 }) := by
  unfold ewordValid at h ⊢
  split at h
  · rename_i hlen
    refine ⟨hlen, ?_⟩
    rw [if_pos hlen]
    split at h
    · rename_i hc
      rw [if_pos hc]
      refine .inl ⟨by simpa using hc.2, hc.1, by simpa using h, ?_⟩
      split <;> rfl
    · rename_i hc
      rw [if_neg hc]
      split at h
      · rename_i hjoint
        rw [if_pos hjoint]
        split at h
        · rename_i hnext
          rw [if_pos hnext]
          refine .inr (.inl ⟨by simpa [isJoint] using hjoint.2.2, ?_, hjoint.1, hjoint.2.1, rfl⟩)
          rcases hjoint.2.2 with rfl | rfl <;> rfl
        · cases h
      · rename_i hjoint
        rw [if_neg hjoint]
        split at h
        · rename_i hmark
          rw [if_pos hmark]
          exact .inr (.inr ⟨by simpa [isTailMark] using hmark, rfl⟩)
        · cases h
  · cases h

structure NumberCounts (q : WordCounts) (w : Bytes) : Prop where
  len : q.len = w.length
  le : w.length ≤ MAXNUMBERLEN
  midcnt : q.midcnt = w.count 46
  dots : w.count 46 ≤ 1
  bytes : ∀ c ∈ w, isdigit c = true ∨ c = 46

structure LetterCounts (q : WordCounts) (w : Bytes) : Prop where
  len : q.len = w.length
  le : w.length ≤ MAXEWORDLEN
  midcnt : q.midcnt = w.countP isJoint
  joints : w.countP isJoint ≤ 1
  maxnumberlen : q.maxnumberlen = w.countP isdigit
  digits : w.countP isdigit < 5
  marks : ∃ u v, w = u ++ v ∧ (∀ c ∈ u, isalpha c = true ∨ isdigit c = true ∨ isJoint c = true) ∧
    (∀ c ∈ v, isTailMark c = true) ∧ q.tailcnt = v.length

theorem NumberCounts.step {q q' : WordCounts} {x : DoubleByte UInt8} (h : NumberCounts q w)
    (haccept : wordAccept numberValid q (x :: cs) = some q') :
    ∃ c, x = one c ∧ NumberCounts q' (w ++ [c]) := by
  obtain ⟨c, rfl, hlen, hc⟩ := wordAccept_number haccept
  refine ⟨c, rfl, ?_⟩
  have hlen' := h.len
  have hmid := h.midcnt
  have hdots := h.dots
  rcases hc with ⟨hd, rfl⟩ | ⟨rfl, hzero, -, rfl⟩
  · have hne : c ≠ 46 := by
      rintro rfl
      exact absurd hd (by decide)
    have hcount : (w ++ [c]).count 46 = w.count 46 := by
      rw [List.count_append, List.count_singleton, if_neg (by simpa using hne), Nat.add_zero]
    refine ⟨by simp [hlen'], by simp; omega, by rw [hcount, hmid], by rwa [hcount], ?_⟩
    intro x hx
    rcases List.mem_append.mp hx with hx | hx
    · exact h.bytes x hx
    · exact .inl (List.mem_singleton.mp hx ▸ hd)
  · have hcount : (w ++ [46]).count 46 = w.count 46 + 1 := by
      rw [List.count_append, List.count_singleton_self]
    have hle : (w ++ [46]).length ≤ MAXNUMBERLEN := by
      rw [List.length_append, List.length_singleton]
      omega
    refine ⟨by simp [hlen'], hle, by dsimp only; omega, by omega, ?_⟩
    intro x hx
    rcases List.mem_append.mp hx with hx | hx
    · exact h.bytes x hx
    · exact .inr (List.mem_singleton.mp hx)

theorem isTailMark_of {c : UInt8} (h : isTailMark c = true) :
    isdigit c = false ∧ isJoint c = false := by
  simp only [isTailMark, Bool.or_eq_true, decide_eq_true_eq] at h
  rcases h with rfl | rfl <;> decide

theorem not_isJoint_of {c : UInt8} (h : isalpha c = true ∨ isdigit c = true) :
    isJoint c = false := by
  rw [Bool.eq_false_iff]
  intro hj
  simp only [isJoint, Bool.or_eq_true, decide_eq_true_eq] at hj
  rcases hj with rfl | rfl <;> exact absurd h (by decide)

theorem countP_concat (p : UInt8 → Bool) (w : Bytes) (c : UInt8) :
    (w ++ [c]).countP p = w.countP p + if p c then 1 else 0 := by
  rw [List.countP_append, List.countP_singleton]

theorem LetterCounts.step {q q' : WordCounts} {x : DoubleByte UInt8} (h : LetterCounts q w)
    (haccept : wordAccept ewordValid q (x :: cs) = some q') :
    ∃ c, x = one c ∧ LetterCounts q' (w ++ [c]) := by
  cases x with
  | two b c => cases haccept
  | one c =>
    refine ⟨c, rfl, ?_⟩
    rw [wordAccept] at haccept
    split at haccept
    · rename_i hv
      obtain rfl := Option.some.inj haccept
      obtain ⟨hlen, hc⟩ := ewordValid_cases hv
      have hlen' := h.len
      have hmid := h.midcnt
      have hmax := h.maxnumberlen
      obtain ⟨u, v, rfl, hu, hv', htail⟩ := h.marks
      rcases hc with ⟨hc, h0, hlt, heq⟩ | ⟨hc, hd, h0, hm0, heq⟩ | ⟨hc, heq⟩
      · have hj := not_isJoint_of hc
        obtain rfl : v = [] := List.length_eq_zero_iff.mp (by omega)
        rw [heq] at hlt ⊢
        refine ⟨by simp [hlen'], ?_, ?_, ?_, ?_, ?_, u ++ [c], [], by simp, ?_, by simp, htail⟩
        · rw [List.length_append, List.length_singleton]
          omega
        · rw [countP_concat, hj, if_neg Bool.false_ne_true, Nat.add_zero]
          exact hmid
        · rw [countP_concat, hj, if_neg Bool.false_ne_true, Nat.add_zero]
          exact h.joints
        · rw [countP_concat, ← hmax]
        · rw [countP_concat, ← hmax]
          exact hlt
        · intro x hx
          rcases List.mem_append.mp hx with hx | hx
          · exact hu x hx
          · obtain rfl := List.mem_singleton.mp hx
            exact hc.imp_right .inl
      · obtain rfl : v = [] := List.length_eq_zero_iff.mp (by omega)
        rw [heq]
        refine ⟨by simp [hlen'], ?_, ?_, ?_, ?_, ?_, u ++ [c], [], by simp, ?_, by simp, htail⟩
        · rw [List.length_append, List.length_singleton]
          omega
        · rw [countP_concat, if_pos hc, ← hmid, hm0]
        · rw [countP_concat, if_pos hc, ← hmid, hm0]
        · rw [countP_concat, hd, if_neg Bool.false_ne_true, Nat.add_zero]
          exact hmax
        · rw [countP_concat, hd, if_neg Bool.false_ne_true, Nat.add_zero]
          exact h.digits
        · intro x hx
          rcases List.mem_append.mp hx with hx | hx
          · exact hu x hx
          · obtain rfl := List.mem_singleton.mp hx
            exact .inr (.inr hc)
      · obtain ⟨hd, hj⟩ := isTailMark_of hc
        rw [heq]
        refine ⟨by simp [hlen', Nat.add_assoc], ?_, ?_, ?_, ?_, ?_, u, v ++ [c], by simp, hu, ?_,
          by simp [htail]⟩
        · rw [List.length_append, List.length_singleton]
          omega
        · rw [countP_concat, hj, if_neg Bool.false_ne_true, Nat.add_zero]
          exact hmid
        · rw [countP_concat, hj, if_neg Bool.false_ne_true, Nat.add_zero]
          exact h.joints
        · rw [countP_concat, hd, if_neg Bool.false_ne_true, Nat.add_zero]
          exact hmax
        · rw [countP_concat, hd, if_neg Bool.false_ne_true, Nat.add_zero]
          exact h.digits
        · intro x hx
          rcases List.mem_append.mp hx with hx | hx
          · exact hv' x hx
          · exact List.mem_singleton.mp hx ▸ hc
    · cases haccept

theorem one_injective : Function.Injective (one : UInt8 → DoubleByte UInt8) := fun _ _ h => by
  injection h

theorem munch_word_counts {valid : WordCounts → UInt8 → UInt8 → WordCounts × Bool}
    {C : WordCounts → Bytes → Prop}
    (hstep : ∀ q w x cs q', C q w → wordAccept valid q (x :: cs) = some q' →
      ∃ c, x = one c ∧ C q' (w ++ [c]))
    {q₀ : WordCounts} (h : C q₀ [b]) {r : List (DoubleByte UInt8)}
    (hw : munch (wordAccept valid) q₀ cs = (w.map one, r)) :
    ∃ q, C q (b :: w) ∧ (r = [] ∨ wordAccept valid q r = none) := by
  have hstep' : ∀ q xs x cs q', (∃ w : Bytes, xs = w.map one ∧ C q w) →
      wordAccept valid q (x :: cs) = some q' → ∃ w : Bytes, xs ++ [x] = w.map one ∧ C q' w := by
    rintro q _ x cs q' ⟨w, rfl, hq⟩ haccept
    obtain ⟨c, rfl, hq'⟩ := hstep q w x cs q' hq haccept
    exact ⟨w ++ [c], by simp, hq'⟩
  obtain ⟨q, ⟨w', hw', hq⟩, hend⟩ :=
    munch_invariant hstep' (s := cs) ⟨[b], (rfl : [one b] = [b].map one), h⟩
  rw [hw] at hw' hend
  obtain rfl : b :: w = w' := List.map_injective_iff.mpr one_injective hw'
  exact ⟨q, hq, hend⟩

theorem NumberCounts.single (hb : isdigit b = true) : NumberCounts ⟨1, 0, 0, 0⟩ [b] := by
  have hcount : [b].count 46 = 0 := List.count_eq_zero.mpr fun h => by
    obtain rfl := List.mem_singleton.mp h
    exact absurd hb (by decide)
  refine ⟨rfl, ?_, hcount.symm, by omega, fun c hc => .inl (List.mem_singleton.mp hc ▸ hb)⟩
  rw [List.length_singleton, MAXNUMBERLEN]
  omega

theorem LetterCounts.single (hb : isdigit b = false) (hb' : isalpha b = true) :
    LetterCounts ⟨1, 0, 0, 0⟩ [b] := by
  have hd : [b].countP isdigit = 0 := by simp [hb]
  have hj : [b].countP isJoint = 0 := by simp [not_isJoint_of (.inl hb')]
  refine ⟨rfl, ?_, hj.symm, by omega, hd.symm, by omega, [b], [], rfl, ?_, by simp, rfl⟩
  · rw [List.length_singleton, MAXEWORDLEN]
    omega
  · exact fun c hc => .inl (List.mem_singleton.mp hc ▸ hb')

theorem number_counts {r : List (DoubleByte UInt8)} (hb : isdigit b = true)
    (hw : munch (wordAccept numberValid) ⟨1, 0, 0, 0⟩ cs = (w.map one, r)) :
    ∃ q, NumberCounts q (b :: w) ∧ (r = [] ∨ wordAccept numberValid q r = none) :=
  munch_word_counts (C := NumberCounts) (fun _ _ _ _ _ => NumberCounts.step) (.single hb) hw

theorem letter_counts {r : List (DoubleByte UInt8)} (hb : isdigit b = false)
    (hb' : isalpha b = true)
    (hw : munch (wordAccept ewordValid) ⟨1, 0, 0, 0⟩ cs = (w.map one, r)) :
    ∃ q, LetterCounts q (b :: w) ∧ (r = [] ∨ wordAccept ewordValid q r = none) :=
  munch_word_counts (C := LetterCounts) (fun _ _ _ _ _ => LetterCounts.step) (.single hb hb') hw

theorem hz_counts (b c : UInt8) (cs : List (DoubleByte UInt8)) :
    (∀ x ∈ two b c :: (munch hzAccept 2 cs).1, ∃ b c, x = two b c) ∧
      2 * (two b c :: (munch hzAccept 2 cs).1).length ≤ MAXHZSTRLEN ∧
      ∀ b' c' cs', (munch hzAccept 2 cs).2 = two b' c' :: cs' →
        2 * (two b c :: (munch hzAccept 2 cs).1).length = MAXHZSTRLEN := by
  have hstep : ∀ len xs x cs len',
      ((∀ x ∈ xs, ∃ b c, x = two b c) ∧ len = 2 * xs.length ∧ len ≤ MAXHZSTRLEN) →
      hzAccept len (x :: cs) = some len' →
      (∀ y ∈ xs ++ [x], ∃ b c, y = two b c) ∧ len' = 2 * (xs ++ [x]).length ∧
        len' ≤ MAXHZSTRLEN := by
    rintro len xs x cs len' ⟨htwo, hlen, hle⟩ haccept
    cases x with
    | one b => cases haccept
    | two b c =>
      rw [hzAccept] at haccept
      split at haccept
      · obtain rfl := Option.some.inj haccept
        refine ⟨fun y hy => ?_, ?_, ?_⟩
        · rcases List.mem_append.mp hy with hy | hy
          · exact htwo y hy
          · exact ⟨b, c, List.mem_singleton.mp hy⟩
        · rw [List.length_append, List.length_singleton]
          omega
        · unfold MAXHZSTRLEN at *
          omega
      · cases haccept
  obtain ⟨len, ⟨htwo, hlen, hle⟩, hend⟩ := munch_invariant hstep (s := cs) (q := 2)
    (w := [two b c]) ⟨fun x hx => ⟨b, c, List.mem_singleton.mp hx⟩, rfl, by decide⟩
  rw [List.singleton_append] at htwo hlen
  refine ⟨htwo, by omega, fun b' c' cs' hr => ?_⟩
  rw [hr] at hend
  have hnone := hend.resolve_left (List.cons_ne_nil _ _)
  rw [hzAccept] at hnone
  split at hnone
  · cases hnone
  · omega

theorem Cut.wellFormed (h : Cut cs ps) : ∀ x ∈ ps, x.WellFormed := by
  induction h with
  | nil => simp
  | @hz b c cs ps rest ih =>
    obtain ⟨htwo, hle, -⟩ := hz_counts b c cs
    exact List.forall_mem_cons.mpr ⟨⟨List.cons_ne_nil _ _, htwo, hle⟩, ih⟩
  | @number b w cs r ps hb hw rest ih =>
    obtain ⟨q, hq, -⟩ := number_counts hb hw
    exact List.forall_mem_cons.mpr ⟨⟨hq.le, ⟨b, rfl, hb⟩, hq.bytes, hq.dots⟩, ih⟩
  | @eword b w cs r ps hb hb' hw rest ih =>
    obtain ⟨q, hq, -⟩ := letter_counts hb hb' hw
    obtain ⟨u, v, huv, hu, hv, -⟩ := hq.marks
    exact List.forall_mem_cons.mpr
      ⟨⟨hq.le, ⟨b, rfl, hb'⟩, hq.digits, hq.joints, u, v, huv, hu, hv⟩, ih⟩
  | @other b cs ps hb hb' rest ih => exact List.forall_mem_cons.mpr ⟨⟨hb, hb'⟩, ih⟩

theorem Cut.adjacent (h : Cut cs ps) : ps.IsChain Piece.Adjacent := by
  induction h with
  | nil => exact .nil
  | @hz b c cs ps rest ih =>
    refine List.isChain_cons.mpr ⟨fun y hy => ?_, ih⟩
    obtain ⟨-, -, hend⟩ := hz_counts b c cs
    generalize hr : (munch hzAccept 2 cs).2 = r at rest
    cases rest with
    | nil => cases hy
    | hz rest =>
      obtain rfl := Option.some.inj hy
      exact hend _ _ _ hr
    | number hb hw rest => obtain rfl := Option.some.inj hy; trivial
    | eword hb hb' hw rest => obtain rfl := Option.some.inj hy; trivial
    | other hb hb' rest => obtain rfl := Option.some.inj hy; trivial
  | @number b w cs r ps hb hw rest ih =>
    refine List.isChain_cons.mpr ⟨fun y hy => ?_, ih⟩
    obtain ⟨q, hq, hend⟩ := number_counts hb hw
    cases rest with
    | nil => cases hy
    | hz rest => obtain rfl := Option.some.inj hy; trivial
    | number hb' hw' rest =>
      obtain rfl := Option.some.inj hy
      have hnone := hend.resolve_left (List.cons_ne_nil _ _)
      have hlen := hq.len
      have hle := hq.le
      by_contra hne
      have hlt : q.len < MAXNUMBERLEN := by
        rw [hlen]
        exact Nat.lt_of_le_of_ne hle hne
      simp [wordAccept, numberValid, hlt, hb'] at hnone
    | eword hb hb' hw rest => obtain rfl := Option.some.inj hy; trivial
    | other hb hb' rest => obtain rfl := Option.some.inj hy; trivial
  | @eword b w cs r ps hb hb' hw rest ih =>
    exact List.isChain_cons.mpr ⟨fun _ _ => trivial, ih⟩
  | @other b cs ps hb hb' rest ih => exact List.isChain_cons.mpr ⟨fun _ _ => trivial, ih⟩

end Shape

/-! ## The output -/

section Output

variable {σ : Type} (seg : SentenceSegmenter σ) (reservstr : Bytes) (kept : σ) {s : Bytes}
  {ps : List Piece}

/-- The text is cut between its characters into pieces that have their shapes and could not be
longer. -/
structure CutsText (s : Bytes) (ps : List Piece) : Prop where
  chars : ps.flatMap Piece.chars = chars IS_GB s
  wellFormed : ∀ x ∈ ps, x.WellFormed
  adjacent : ps.IsChain Piece.Adjacent

theorem Cut.cutsText (h : Cut (chars IS_GB s) ps) : CutsText s ps :=
  ⟨h.flatMap_chars, h.wellFormed, h.adjacent⟩

/-- The rounds that are left, if a round that prints a word does not go on in the text. -/
def roundsLeft (s : Bytes) (st : SegTagState σ) : ℕ :=
  2 * (s.length + 1 - st.p) + match st.curstate with
    | .NONE => 0
    | _ => 1

theorem roundsLeft_print (st : SegTagState σ) (ws : List Bytes) :
    roundsLeft s (st.print ws) = 2 * (s.length + 1 - st.p) := rfl

theorem roundsLeft_of_ne {st : SegTagState σ} (h : st.curstate ≠ .NONE) :
    roundsLeft s st = 2 * (s.length + 1 - st.p) + 1 := by
  unfold roundsLeft
  split
  · contradiction
  · rfl

theorem roundsLeft_le (st : SegTagState σ) : roundsLeft s st ≤ 2 * (s.length + 1 - st.p) + 1 := by
  unfold roundsLeft
  split <;> omega

theorem p_lt_noneRound (st : SegTagState σ) : st.p < (noneRound reservstr s st).p := by
  unfold noneRound
  dsimp only
  split
  · exact Nat.lt_add_of_pos_right (Nat.succ_pos 1)
  · refine Nat.lt_succ_of_le (Nat.le_of_eq ?_)
    split
    · rfl
    · split
      · rfl
      · split <;> rfl

theorem roundsLeft_wordRound {valid : WordCounts → UInt8 → UInt8 → WordCounts × Bool}
    {st : SegTagState σ} (hp : st.p ≤ s.length) (hst : st.curstate ≠ .NONE) :
    roundsLeft s (wordRound s valid st) < roundsLeft s st := by
  rw [roundsLeft_of_ne hst]
  unfold wordRound
  dsimp only
  split
  · refine Nat.lt_of_le_of_lt (roundsLeft_le _) ?_
    dsimp only
    omega
  · rw [roundsLeft_print]
    exact Nat.lt_succ_self _

theorem roundsLeft_hzRound {st : SegTagState σ} (hp : st.p ≤ s.length) (hst : st.curstate ≠ .NONE) :
    roundsLeft s (hzRound seg s st) < roundsLeft s st := by
  rw [roundsLeft_of_ne hst]
  unfold hzRound
  split
  · exact Nat.lt_succ_self (2 * (s.length + 1 - st.p))
  · refine Nat.lt_of_le_of_lt (roundsLeft_le _) ?_
    dsimp only
    omega

theorem roundsLeft_lt {st st' : SegTagState σ} (h : segTagRound seg reservstr s st = .again st') :
    roundsLeft s st' < roundsLeft s st := by
  unfold segTagRound at h
  split at h
  · rename_i hp
    obtain rfl := Round.again.inj h
    split
    · rename_i hst
      have hlt := p_lt_noneRound reservstr (s := s) st
      have hle := roundsLeft_le (s := s) (noneRound reservstr s st)
      have hleft : 2 * (s.length + 1 - st.p) ≤ roundsLeft s st := Nat.le_add_right _ _
      omega
    · exact roundsLeft_wordRound hp (by simp [*])
    · exact roundsLeft_wordRound hp (by simp [*])
    · exact roundsLeft_hzRound seg hp (by simp [*])
  · cases h

/-- Behind the text the zero is printed like a byte that is reserved. -/
theorem segTagRound_end {pword n : ℕ} {counts : WordCounts} {d : Bytes} :
    segTagRound seg reservstr s ⟨.NONE, s.length, pword, counts, d, n, kept⟩ =
      .again ⟨.NONE, s.length + 1, pword, counts, d ++ [0, 32], n, kept⟩ := by
  have hend : charAt s s.length = 0 := by
    simp [charAt]
  rw [segTagRound, if_pos (Nat.le_refl _)]
  dsimp only
  rw [noneRound, hend]
  rfl

/-- The text is cut into pieces, and what is printed for them is written to the output, with three
bytes behind it. The words are counted, but not the bytes that are reserved. -/
theorem segTagString_pieces (hs : 0 ∉ s) : ∃ ps, CutsText s ps ∧
    SegTagString seg reservstr s kept =
      some (printPieces reservstr (pieceWords seg kept ps).1 ++ [0, 32, 0],
        countWords (pieceWords seg kept ps).1, (pieceWords seg kept ps).2) := by
  obtain ⟨ps, hcut⟩ := exists_cut (chars IS_GB s)
  refine ⟨ps, hcut.cutsText, ?_⟩
  have hstart : StandsAt s 0 (chars IS_GB s) :=
    ⟨Nat.zero_le _, by rw [List.drop_zero, text_chars], reads_chars IS_GB s⟩
  have hprints : PrintsAll seg reservstr s 0 ps := hcut.printsAll hs hstart
  obtain ⟨pword, counts, hgoes⟩ := hprints 0 ⟨0, 0, 0, 0⟩ [] 0 kept
  have hloop := loop_of_reaches (roundsLeft s) (fun _ _ => roundsLeft_lt seg reservstr)
    (hgoes.tail (segTagRound_end seg reservstr _)) (by
      rw [segTagRound, if_neg (by simp)]) (n := 2 * s.length + 3) (by simp [roundsLeft]; omega)
  rw [SegTagString, hloop, Option.map_some, List.nil_append, List.append_assoc, Nat.zero_add]
  rfl

/-- A segmenter for which a sentence is one word, except for the one behind an odd number of
sentences, whose characters are words. -/
def alternately : SentenceSegmenter Bool :=
  ⟨fun odd t => (if odd then (chars IS_GB t).map bytes else if t = [] then [] else [t], !odd),
    fun _ => false, fun _ _ => 0, fun _ _ _ => 0⟩

/-- Two sentences with `a1,` between them, and the comma reserved. -/
theorem segTagString_pieces_mixed :
    ∃ ps, CutsText [0xD6, 0xD0, 97, 49, 44, 0xB9, 0xFA, 0xC8, 0xCB] ps ∧
      SegTagString alternately [44] [0xD6, 0xD0, 97, 49, 44, 0xB9, 0xFA, 0xC8, 0xCB] false =
        some (printPieces [44] (pieceWords alternately false ps).1 ++ [0, 32, 0],
          countWords (pieceWords alternately false ps).1, (pieceWords alternately false ps).2) :=
  segTagString_pieces alternately [44] false (by decide)

example : SegTagString alternately [44] [0xD6, 0xD0, 97, 49, 44, 0xB9, 0xFA, 0xC8, 0xCB] false =
    some ([0xD6, 0xD0, 32, 97, 49, 32, 44, 32, 0xB9, 0xFA, 32, 0xC8, 0xCB, 32, 0, 32, 0], 4,
      false) := by decide

/-! ## The size of the output -/

theorem one_le_nelen (w : Bytes) (ws : List Bytes) : 1 ≤ nelen seg w ws := by
  unfold nelen
  split
  · split
    · split
      · split <;> omega
      · omega
    · exact Nat.le_refl 1
  · exact Nat.le_refl 1

theorem flatten_nameWords {n : ℕ} {ws : List Bytes} (hn : ws.length ≤ n) :
    (nameWords seg n ws).flatten = ws.flatten := by
  induction n generalizing ws with
  | zero =>
    obtain rfl := List.length_eq_zero_iff.mp (Nat.le_zero.mp hn)
    rfl
  | succ n ih =>
    cases ws with
    | nil => rfl
    | cons w ws =>
      have hpos := one_le_nelen seg w ws
      rw [nameWords, List.flatten_cons, ih (by rw [List.length_drop]; simp at hn ⊢; omega),
        ← List.flatten_append, List.take_append_drop]

theorem nil_notMem_nameWords {n : ℕ} {ws : List Bytes} (h : [] ∉ ws) :
    [] ∉ nameWords seg n ws := by
  induction n generalizing ws with
  | zero => cases ws <;> simp [nameWords]
  | succ n ih =>
    cases ws with
    | nil => simp [nameWords]
    | cons w ws =>
      have hpos := one_le_nelen seg w ws
      obtain ⟨m, hm⟩ : ∃ m, nelen seg w ws = m + 1 := ⟨nelen seg w ws - 1, by omega⟩
      rw [nameWords, List.mem_cons, not_or]
      refine ⟨?_, ih fun hmem => h (List.mem_of_mem_drop hmem)⟩
      rw [hm, List.take_succ_cons, List.flatten_cons]
      intro hnil
      exact h (by rw [(List.append_eq_nil_iff.mp hnil.symm).1]; exact List.mem_cons_self)

theorem length_printWords_le {ws : List Bytes} (h : [] ∉ ws) :
    (printWords ws).length ≤ 2 * ws.flatten.length := by
  induction ws with
  | nil => exact Nat.le_refl 0
  | cons w ws ih =>
    rw [List.mem_cons, not_or] at h
    have hw := List.length_pos_of_ne_nil (Ne.symm h.1)
    have hrest := ih h.2
    have hcons : printWords (w :: ws) = w ++ [32] ++ printWords ws := rfl
    rw [hcons, List.flatten_cons, List.length_append, List.length_append, List.length_append,
      List.length_singleton]
    omega

/-- A sentence is segmented into words that are not empty, with no more text than there is. -/
def Piece.Spells : Piece → Prop
  | hz cs => [] ∉ (seg.SegTagASentence kept (text cs)).1 ∧
      (seg.SegTagASentence kept (text cs)).1.flatten.length ≤ (text cs).length
  | _ => True

def SpellsAll (kept : σ) : List Piece → Prop
  | [] => True
  | x :: ps => x.Spells seg kept ∧ SpellsAll (x.words seg kept).2 ps

variable {seg reservstr kept}

theorem length_printWords_singleton (w : Bytes) : (printWords [w]).length = w.length + 1 := by
  simp [printWords]

theorem Piece.length_output_le {x : Piece} (hseg : x.Spells seg kept) (hx : x.WellFormed) :
    (x.output reservstr (x.words seg kept).1).length ≤ 2 * (text x.chars).length := by
  cases x with
  | hz cs =>
    obtain ⟨hnil, hle⟩ := hseg
    have hlen := length_printWords_le (nil_notMem_nameWords seg
      (n := (seg.SegTagASentence kept (text cs)).1.length) hnil)
    rw [flatten_nameWords seg (Nat.le_refl _)] at hlen
    exact hlen.trans (Nat.mul_le_mul_left 2 hle)
  | number w =>
    obtain ⟨c, hc, -⟩ := hx.head
    have hpos := List.length_pos_of_mem (List.mem_of_mem_head? hc)
    change (printWords [w]).length ≤ 2 * (text (w.map one)).length
    rw [length_printWords_singleton, text_map_one]
    omega
  | eword w =>
    obtain ⟨c, hc, -⟩ := hx.head
    have hpos := List.length_pos_of_mem (List.mem_of_mem_head? hc)
    change (printWords [w]).length ≤ 2 * (text (w.map one)).length
    rw [length_printWords_singleton, text_map_one]
    omega
  | other b =>
    rw [Piece.output]
    split
    · exact Nat.le_refl 2
    · exact Nat.zero_le _

variable (seg) in
theorem map_fst_pieceWords (kept : σ) (ps : List Piece) :
    (pieceWords seg kept ps).1.map Prod.fst = ps := by
  induction ps generalizing kept with
  | nil => rfl
  | cons x ps ih => rw [pieceWords, List.map_cons, ih]

theorem SpellsAll.length_le (h : SpellsAll seg kept ps) (hps : ∀ x ∈ ps, x.WellFormed) :
    ∀ r ∈ (pieceWords seg kept ps).1,
      (r.1.output reservstr r.2).length ≤ 2 * (text r.1.chars).length := by
  induction ps generalizing kept with
  | nil => simp [pieceWords]
  | cons x ps ih =>
    obtain ⟨hx, hrest⟩ := List.forall_mem_cons.mp hps
    exact List.forall_mem_cons.mpr ⟨Piece.length_output_le h.1 hx, ih h.2 hrest⟩

theorem CutsText.text_eq (h : CutsText s ps) : ps.flatMap (fun x => text x.chars) = s := by
  rw [← text_chars IS_GB s, ← h.chars, text, List.flatMap_assoc]
  rfl

theorem CutsText.two_mul_length (h : CutsText s ps) : 2 * s.length =
    ((pieceWords seg kept ps).1.map fun r => 2 * (text r.1.chars).length).sum := by
  rw [List.sum_map_mul_left, ← h.text_eq, List.length_flatMap]
  conv_lhs => rw [← map_fst_pieceWords seg kept ps, List.map_map]
  rfl

variable (seg reservstr kept) in
/-- If the segmentation makes no empty words and no more text than there is, twice the size of the
text with its zero is enough for what is printed, unless every piece is printed in twice its bytes.
Then one more byte is written. -/
theorem segTagString_size (hs : 0 ∉ s) : ∃ ps, CutsText s ps ∧ ∃ out,
    SegTagString seg reservstr s kept =
      some (out, countWords (pieceWords seg kept ps).1, (pieceWords seg kept ps).2) ∧
    out = printPieces reservstr (pieceWords seg kept ps).1 ++ [0, 32, 0] ∧
    (SpellsAll seg kept ps → out.length ≤ 2 * (s.length + 1) + 1 ∧
      (out.length ≤ 2 * (s.length + 1) ↔ ∃ r ∈ (pieceWords seg kept ps).1,
        (r.1.output reservstr r.2).length < 2 * (text r.1.chars).length)) := by
  obtain ⟨ps, hps, hrun⟩ := segTagString_pieces seg reservstr kept hs
  refine ⟨ps, hps, _, hrun, rfl, fun hseg => ?_⟩
  have hle : ∀ r ∈ (pieceWords seg kept ps).1,
      (r.1.output reservstr r.2).length ≤ 2 * (text r.1.chars).length :=
    hseg.length_le hps.wellFormed
  have hsum := List.sum_le_sum hle
  have hlt : ((pieceWords seg kept ps).1.map fun r => (r.1.output reservstr r.2).length).sum <
      ((pieceWords seg kept ps).1.map fun r => 2 * (text r.1.chars).length).sum ↔
      ∃ r ∈ (pieceWords seg kept ps).1,
        (r.1.output reservstr r.2).length < 2 * (text r.1.chars).length :=
    ⟨List.exists_lt_of_sum_lt _ _, List.sum_lt_sum _ _ hle⟩
  have hout : (printPieces reservstr (pieceWords seg kept ps).1 ++ [0, 32, 0]).length =
      ((pieceWords seg kept ps).1.map fun r => (r.1.output reservstr r.2).length).sum + 3 := by
    rw [List.length_append, printPieces, List.length_flatMap]
    rfl
  rw [← hps.two_mul_length] at hlt hsum
  rw [← hlt, hout]
  omega

theorem alternately_spells (odd : Bool) (x : Piece) : x.Spells alternately odd := by
  cases x with
  | hz cs =>
    cases odd with
    | false =>
      change [] ∉ (if text cs = [] then [] else [text cs]) ∧
        (if text cs = [] then [] else [text cs]).flatten.length ≤ (text cs).length
      generalize text cs = t
      split
      · exact ⟨List.not_mem_nil, Nat.zero_le _⟩
      · rename_i hne
        exact ⟨fun hmem => hne (List.mem_singleton.mp hmem).symm, by rw [List.flatten_singleton]⟩
    | true =>
      change [] ∉ (chars IS_GB (text cs)).map bytes ∧
        (text (chars IS_GB (text cs))).length ≤ (text cs).length
      rw [text_chars]
      refine ⟨fun hmem => ?_, Nat.le_refl _⟩
      obtain ⟨x, -, hx⟩ := List.mem_map.mp hmem
      cases x <;> cases hx
  | number w => trivial
  | eword w => trivial
  | other b => trivial

theorem alternately_spellsAll (odd : Bool) (ps : List Piece) : SpellsAll alternately odd ps := by
  induction ps generalizing odd with
  | nil => trivial
  | cons x ps ih => exact ⟨alternately_spells odd x, ih _⟩

theorem segTagString_size_mixed :
    ∃ ps, CutsText [0xD6, 0xD0, 97, 49, 44, 0xB9, 0xFA, 0xC8, 0xCB] ps ∧ ∃ out,
      SegTagString alternately [44] [0xD6, 0xD0, 97, 49, 44, 0xB9, 0xFA, 0xC8, 0xCB] false =
        some (out, countWords (pieceWords alternately false ps).1,
          (pieceWords alternately false ps).2) ∧
      out = printPieces [44] (pieceWords alternately false ps).1 ++ [0, 32, 0] ∧
      out.length ≤ 2 * (9 + 1) + 1 ∧
      (out.length ≤ 2 * (9 + 1) ↔ ∃ r ∈ (pieceWords alternately false ps).1,
        (r.1.output [44] r.2).length < 2 * (text r.1.chars).length) := by
  obtain ⟨ps, hps, out, hrun, hout, hsize⟩ :=
    segTagString_size (s := [0xD6, 0xD0, 97, 49, 44, 0xB9, 0xFA, 0xC8, 0xCB]) alternately [44]
      false (by decide)
  exact ⟨ps, hps, out, hrun, hout, hsize (alternately_spellsAll false ps)⟩

end Output

end YlUtils
