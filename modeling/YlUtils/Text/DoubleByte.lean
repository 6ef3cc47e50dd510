import Mathlib.Data.List.Basic
import Mathlib.Data.List.Chain

/-! # Double-byte texts

In a double-byte encoding a character is one byte or a pair of bytes, and only
reading from the front tells which. A list of characters is read back from its
bytes exactly if its pairs are pairs of the encoding and no single byte forms
a pair with the byte behind it.
-/

namespace YlUtils

variable {α : Type*}

inductive DoubleByte (α : Type*)
  | one (b : α)
  | two (b c : α)

namespace DoubleByte

def bytes : DoubleByte α → List α
  | one b => [b]
  | two b c => [b, c]

def first : DoubleByte α → α
  | one b => b
  | two b _ => b

def mapPair (f : α → α → α × α) : DoubleByte α → DoubleByte α
  | one b => one b
  | two b c => two (f b c).1 (f b c).2

def Fits (p : α → α → Bool) : DoubleByte α → Prop
  | one _ => True
  | two b c => p b c = true

/-- A single byte does not form a pair with the byte behind it. -/
def Apart (p : α → α → Bool) : DoubleByte α → DoubleByte α → Prop
  | one b, x => p b x.first = false
  | two _ _, _ => True

/-- The characters of a text in the encoding whose pairs are those of `p`. -/
def chars (p : α → α → Bool) : List α → List (DoubleByte α)
  | [] => []
  | [b] => [one b]
  | b :: c :: s => if p b c then two b c :: chars p s else one b :: chars p (c :: s)

def text (cs : List (DoubleByte α)) : List α := cs.flatMap bytes

@[simp] theorem text_nil : text ([] : List (DoubleByte α)) = [] := rfl

@[simp] theorem text_cons (x : DoubleByte α) (cs : List (DoubleByte α)) :
    text (x :: cs) = x.bytes ++ text cs := by
  simp [text]

theorem text_append (cs cs' : List (DoubleByte α)) : text (cs ++ cs') = text cs ++ text cs' :=
  List.flatMap_append

@[simp] theorem text_map_one (w : List α) : text (w.map one) = w := by
  induction w with
  | nil => rfl
  | cons b w ih => rw [List.map_cons, text_cons, ih]; rfl

theorem bytes_eq_first_cons (x : DoubleByte α) : ∃ t, x.bytes = x.first :: t := by
  cases x with
  | one b => exact ⟨[], rfl⟩
  | two b c => exact ⟨[c], rfl⟩

theorem length_bytes_mapPair (f : α → α → α × α) (x : DoubleByte α) :
    (x.mapPair f).bytes.length = x.bytes.length := by
  cases x <;> rfl

theorem length_text_map (f : α → α → α × α) (cs : List (DoubleByte α)) :
    (text (cs.map (mapPair f))).length = (text cs).length := by
  induction cs with
  | nil => rfl
  | cons x cs ih => simp [ih, length_bytes_mapPair]

theorem mapPair_mapPair (f g : α → α → α × α) (x : DoubleByte α) :
    (x.mapPair f).mapPair g = x.mapPair fun b c => g (f b c).1 (f b c).2 := by
  cases x <;> rfl

variable {p q : α → α → Bool} {f : α → α → α × α}

theorem text_chars (p : α → α → Bool) (s : List α) : text (chars p s) = s := by
  induction s using chars.induct p with
  | case1 => rfl
  | case2 b => rfl
  | case3 b c s hp ih => rw [chars, if_pos hp, text_cons, ih]; rfl
  | case4 b c s hp ih => rw [chars, if_neg hp, text_cons, ih]; rfl

/-- The characters are ones of the encoding, and none of them was cut. -/
structure Reads (p : α → α → Bool) (cs : List (DoubleByte α)) : Prop where
  fits : ∀ x ∈ cs, x.Fits p
  apart : cs.IsChain (Apart p)

theorem reads_cons_iff {x : DoubleByte α} {cs : List (DoubleByte α)} :
    Reads p (x :: cs) ↔ x.Fits p ∧ (∀ y ∈ cs.head?, Apart p x y) ∧ Reads p cs := by
  constructor
  · intro h
    have hchain := List.isChain_cons.mp h.apart
    exact ⟨h.fits x List.mem_cons_self, hchain.1,
      fun y hy => h.fits y (List.mem_cons_of_mem x hy), hchain.2⟩
  · rintro ⟨hx, hapart, h⟩
    refine ⟨fun y hy => ?_, List.isChain_cons.mpr ⟨hapart, h.apart⟩⟩
    rcases List.mem_cons.mp hy with rfl | hy
    · exact hx
    · exact h.fits y hy

theorem chars_first (p : α → α → Bool) (b : α) (s : List α) :
    ∃ x cs, chars p (b :: s) = x :: cs ∧ x.first = b := by
  cases s with
  | nil => exact ⟨one b, [], rfl, rfl⟩
  | cons c s =>
    rw [chars]
    split
    · exact ⟨_, _, rfl, rfl⟩
    · exact ⟨_, _, rfl, rfl⟩

theorem reads_chars (p : α → α → Bool) (s : List α) : Reads p (chars p s) := by
  induction s using chars.induct p with
  | case1 => exact ⟨by simp [chars], by simp [chars]⟩
  | case2 b => exact ⟨by simp [chars, Fits], by simp [chars]⟩
  | case3 b c s hp ih =>
    rw [chars, if_pos hp]
    exact reads_cons_iff.mpr ⟨hp, fun _ _ => trivial, ih⟩
  | case4 b c s hp ih =>
    rw [chars, if_neg hp]
    refine reads_cons_iff.mpr ⟨trivial, fun x hx => ?_, ih⟩
    obtain ⟨y, cs, hcs, hy⟩ := chars_first p c s
    rw [hcs, List.head?_cons, Option.mem_some_iff] at hx
    subst hx
    rw [Apart, hy]
    exact Bool.eq_false_iff.mpr hp

theorem chars_text {cs : List (DoubleByte α)} (h : Reads p cs) : chars p (text cs) = cs := by
  induction cs with
  | nil => rfl
  | cons x cs ih =>
    obtain ⟨hx, hapart, h⟩ := reads_cons_iff.mp h
    have hrest := ih h
    cases x with
    | two b c =>
      have hp : p b c = true := hx
      rw [text_cons, bytes, List.cons_append, List.singleton_append, chars, if_pos hp, hrest]
    | one b =>
      cases cs with
      | nil => rfl
      | cons y cs =>
        have hp : p b y.first = false := hapart y rfl
        obtain ⟨t, ht⟩ := bytes_eq_first_cons y
        rw [text_cons, bytes, List.singleton_append]
        rw [text_cons, ht, List.cons_append] at hrest ⊢
        rw [chars, if_neg (by simp [hp]), hrest]

theorem chars_text_iff {cs : List (DoubleByte α)} : chars p (text cs) = cs ↔ Reads p cs :=
  ⟨fun h => h ▸ reads_chars p _, chars_text⟩

/-- The pairs of `p` are replaced by pairs of `q`, and their first bytes are alike in `q`. -/
structure Recodes (p q : α → α → Bool) (f : α → α → α × α) : Prop where
  pair : ∀ b c, p b c = true → q b c = true
  image : ∀ b c, p b c = true → q (f b c).1 (f b c).2 = true
  first : ∀ a b c, p b c = true → q a (f b c).1 = q a b

theorem Recodes.apart_mapPair_iff (h : Recodes p q f) {x y : DoubleByte α} (hy : y.Fits p) :
    Apart q (x.mapPair f) (y.mapPair f) ↔ Apart q x y := by
  cases x with
  | two b c => exact Iff.rfl
  | one b =>
    cases y with
    | one c => exact Iff.rfl
    | two c d =>
      change q b (f c d).1 = false ↔ q b c = false
      rw [h.first b c d hy]

theorem Recodes.fits_mapPair (h : Recodes p q f) {x : DoubleByte α} (hx : x.Fits p) :
    (x.mapPair f).Fits q := by
  cases x with
  | one b => trivial
  | two b c => exact h.image b c hx

theorem Recodes.fits (h : Recodes p q f) {x : DoubleByte α} (hx : x.Fits p) : x.Fits q := by
  cases x with
  | one b => trivial
  | two b c => exact h.pair b c hx

theorem Recodes.isChain_map_iff (h : Recodes p q f) {cs : List (DoubleByte α)}
    (hcs : ∀ x ∈ cs, x.Fits p) :
    (cs.map (mapPair f)).IsChain (Apart q) ↔ cs.IsChain (Apart q) := by
  induction cs with
  | nil => simp
  | cons x cs ih =>
    have hrest := ih fun y hy => hcs y (List.mem_cons_of_mem x hy)
    cases cs with
    | nil => simp
    | cons y cs =>
      rw [List.map_cons, List.map_cons, List.isChain_cons_cons, List.isChain_cons_cons,
        h.apart_mapPair_iff (hcs y (by simp)), ← List.map_cons, hrest]

/-- The new text has the new characters in the encoding of `q`, exactly if both encodings cut the
old text into the same characters. -/
theorem Recodes.chars_text_map_iff (h : Recodes p q f) (s : List α) :
    chars q (text ((chars p s).map (mapPair f))) = (chars p s).map (mapPair f) ↔
      chars q s = chars p s := by
  have hfits := (reads_chars p s).fits
  have hold : chars q s = chars p s ↔ Reads q (chars p s) := by
    rw [← chars_text_iff, text_chars]
  rw [chars_text_iff, hold]
  constructor
  · exact fun hnew => ⟨fun x hx => h.fits (hfits x hx), (h.isChain_map_iff hfits).mp hnew.apart⟩
  · refine fun hread => ⟨fun x hx => ?_, (h.isChain_map_iff hfits).mpr hread.apart⟩
    obtain ⟨y, hy, rfl⟩ := List.mem_map.mp hx
    exact h.fits_mapPair (hfits y hy)

end DoubleByte

end YlUtils
