import Mathlib.Algebra.Group.Int.Defs
import Mathlib.Data.List.GetD
import YlUtils.Files.FileSystem
import YlUtils.Maps.UniqueMap
import YlUtils.Text.Lines
import YlUtils.Text.StdString

/-! # The configuration

A file of lines `name=value` is loaded. The grammar says what a line defines; the
code cuts and trims with positions.
-/

namespace YlUtils

structure Config where
  mConfigFile : Bytes
  mNameValue : UniqueMap Bytes Bytes

namespace Config

open StdString

def isBlank (c : UInt8) : Bool := c = 10 || c = 32 || c = 9

def trimBegin (src : Bytes) (begin : ℕ) : ℕ :=
  if begin < src.length ∧ isBlank (src.getD begin 0) then trimBegin src (begin + 1) else begin
termination_by src.length - begin

def trimEnd (src : Bytes) (begin : ℕ) : ℕ → ℕ
  | 0 => 0
  | i + 1 =>
    if i + 1 > begin ∧ isBlank (src.getD (i + 1) 0) then trimEnd src begin i else i + 1

/-- What `trim` makes of the string and returns, if it does not throw. The length is a `size_t`. -/
def trim (src : Bytes) : Option Bytes :=
  if src = [] then some []
  else
    let begin := trimBegin src 0
    let i := trimEnd src begin (src.length - 1)
    substr src begin (some (((i : ℤ) - begin + 1) % 2 ^ 64).toNat)

/-- What `load` does with a line. -/
def loadLine (mNameValue : UniqueMap Bytes Bytes) (line : Bytes) :
    Option (UniqueMap Bytes Bytes) := do
  let line ← substr line 0 (find line [35] 0)
  let line ← trim line
  if line = [] then return mNameValue
  match find line [61] 0 with
  | none => return mNameValue
  | some pos =>
    let name ← substr line 0 (some pos)
    let value ← substr line (pos + 1) none
    let name ← trim name
    let value ← trim value
    if name = [] then return mNameValue
    return mNameValue.insert name value

def loadLines (mNameValue : UniqueMap Bytes Bytes) (text : Bytes) :
    Option (UniqueMap Bytes Bytes) :=
  match _h : Lines.getline 10 text with
  | none => some mNameValue
  | some (line, rest) => (loadLine mNameValue line).bind fun m => loadLines m rest
termination_by text.length
decreasing_by exact (Lines.getline_length _h).2

/-- `load`: the object and what is returned or thrown as an `IOException`; `error` is the text of
`errno`. There is no result if a position lies behind its string. -/
def load (c : Config) (files : Files) (error cfgfile : Bytes) :
    Option (Config × Except Bytes Bool) :=
  let c := if cfgfile ≠ [] then { c with mConfigFile := cfgfile } else c
  match files (cstr c.mConfigFile) with
  | none => some (c, .error ("Config::load(".toUTF8.toList ++ cfgfile ++ ") : ".toUTF8.toList ++
      error))
  | some text => (loadLines .empty text).map fun m => ({ c with mNameValue := m }, .ok true)

def getValue (c : Config) (value name : Bytes) : Bool × Bytes :=
  match c.mNameValue.find name with
  | none => (false, value)
  | some second => (true, second)

/-- `getValue` that returns a C string, unless it returns `NULL`. -/
def getValueCStr (c : Config) (name : Bytes) : Option Bytes :=
  (c.mNameValue.find name).map (· ++ [0])

/-- The line without its comment and the blanks at its ends is a name, a `=` and a value, with
blanks around the name and the value. -/
def Defines (line name value : Bytes) : Prop :=
  name ≠ [] ∧ ∃ a b, Lines.strip isBlank (line.takeWhile (· ≠ 35)) = a ++ 61 :: b ∧ 61 ∉ a ∧
    Lines.strip isBlank a = name ∧ Lines.strip isBlank b = value

/-- The first of the lines that define the name gives it the value. -/
def FirstDefines (text name value : Bytes) : Prop :=
  ∃ before line after, text.splitOn 10 = before ++ line :: after ∧ Defines line name value ∧
    ∀ l ∈ before, ∀ v, ¬ Defines l name v

section Trim

variable {src : Bytes} {begin : ℕ}

theorem trimBegin_eq (src : Bytes) (begin : ℕ) (h : begin ≤ src.length) :
    trimBegin src begin = begin + ((src.drop begin).takeWhile isBlank).length := by
  induction begin using trimBegin.induct src with
  | case1 begin hcond ih =>
    obtain ⟨hlt, hblank⟩ := hcond
    rw [trimBegin, if_pos ⟨hlt, hblank⟩, ih hlt, List.drop_eq_getElem_cons hlt]
    rw [List.getD_eq_getElem _ _ hlt] at hblank
    rw [List.takeWhile_cons_of_pos hblank, List.length_cons]
    omega
  | case2 begin hcond =>
    rw [trimBegin, if_neg hcond]
    by_cases hlt : begin < src.length
    · have hblank : ¬ isBlank src[begin] = true := fun hb =>
        hcond ⟨hlt, by rwa [List.getD_eq_getElem _ _ hlt]⟩
      rw [List.drop_eq_getElem_cons hlt, List.takeWhile_cons_of_neg hblank, List.length_nil,
        Nat.add_zero]
    · rw [List.drop_of_length_le (by omega)]
      rfl

theorem trimEnd_of_le {i : ℕ} (h : i ≤ begin) : trimEnd src begin i = i := by
  cases i with
  | zero => rfl
  | succ i => rw [trimEnd, if_neg fun hc => absurd hc.1 (by omega)]

theorem take_drop_succ {i : ℕ} (hi : i < src.length) (hle : begin ≤ i) :
    (src.drop begin).take (i - begin + 1) =
      (src.drop begin).take (i - begin) ++ [src.getD i 0] := by
  have hlt : i - begin < (src.drop begin).length := by
    rw [List.length_drop]
    omega
  rw [List.take_succ_eq_append_getElem hlt, List.getElem_drop, List.getD_eq_getElem _ _ hi]
  simp only [Nat.add_sub_cancel' hle]

theorem take_trimEnd {i : ℕ} (hle : begin ≤ i) (hi : i < src.length)
    (hfirst : isBlank (src.getD begin 0) = false) :
    begin ≤ trimEnd src begin i ∧ trimEnd src begin i ≤ i ∧
      (src.drop begin).take (trimEnd src begin i - begin + 1) =
        ((src.drop begin).take (i - begin + 1)).rdropWhile isBlank := by
  induction i, hle using Nat.le_induction with
  | base =>
    rw [trimEnd_of_le le_rfl]
    refine ⟨le_rfl, le_rfl, ?_⟩
    rw [take_drop_succ hi le_rfl, List.rdropWhile_concat_neg _ _ _ (by rw [hfirst]; decide)]
  | succ i hle ih =>
    obtain ⟨hlow, hhigh, htake⟩ := ih (by omega)
    have hsucc : i + 1 - begin = i - begin + 1 := by omega
    rw [trimEnd, take_drop_succ hi (by omega)]
    by_cases hblank : isBlank (src.getD (i + 1) 0) = true
    · rw [if_pos ⟨by omega, hblank⟩, List.rdropWhile_concat_pos _ _ _ hblank, hsucc]
      exact ⟨hlow, by omega, htake⟩
    · rw [if_neg fun hc => hblank hc.2, List.rdropWhile_concat_neg _ _ _ hblank,
        take_drop_succ hi (by omega)]
      exact ⟨by omega, le_rfl, rfl⟩

/-- `trim` leaves off the blanks at both ends, also of a string of blanks only. -/
theorem trim_eq (hlen : src.length < 2 ^ 64) : trim src = some (Lines.strip isBlank src) := by
  unfold trim
  by_cases hsrc : src = []
  · rw [if_pos hsrc, hsrc]
    rfl
  have hpos := List.length_pos_iff.mpr hsrc
  have hbegin := trimBegin_eq src 0 (Nat.zero_le _)
  rw [Nat.zero_add, List.drop_zero] at hbegin
  have hdrop : src.drop (trimBegin src 0) = src.dropWhile isBlank := by
    rw [hbegin]
    nth_rewrite 2 [← List.takeWhile_append_dropWhile (p := isBlank) (l := src)]
    rw [List.drop_left]
  have hle : trimBegin src 0 ≤ src.length := by
    rw [hbegin]
    exact (List.takeWhile_prefix _).length_le
  rw [if_neg hsrc]
  dsimp only
  rw [substr_some hle, Lines.strip, Option.some.injEq]
  generalize trimBegin src 0 = begin at *
  rcases hle.eq_or_lt with heq | hlt
  · -- only blanks: the end stays in front of the begin, and the length wraps around to 0
    rw [trimEnd_of_le (by omega), ← hdrop, heq, List.drop_length]
    simp
  · have hfirst : isBlank (src.getD begin 0) = false := by
      have hne : src.dropWhile isBlank ≠ [] := by
        rw [← hdrop]
        exact mt List.drop_eq_nil_iff.mp (by omega)
      have hhead := List.head_dropWhile_not isBlank hne
      simp only [← hdrop, List.head_drop] at hhead
      rw [List.getD_eq_getElem _ _ hlt]
      simpa using hhead
    have hlast : begin ≤ src.length - 1 := by omega
    obtain ⟨hlow, hhigh, htake⟩ := take_trimEnd hlast (by omega) hfirst
    have hcount : (((trimEnd src begin (src.length - 1) : ℕ) : ℤ) - begin + 1) % 2 ^ 64 =
        (trimEnd src begin (src.length - 1) - begin + 1 : ℕ) := by
      rw [Int.emod_eq_of_lt (by omega) (by omega)]
      omega
    rw [hcount, Int.toNat_natCast, htake, ← hdrop, List.take_of_length_le]
    rw [List.length_drop]
    omega

end Trim

section Load

variable {m : UniqueMap Bytes Bytes} {line text name value : Bytes}

def definition (line : Bytes) : Option (Bytes × Bytes) :=
  let s := Lines.strip isBlank (line.takeWhile (· ≠ 35))
  (Search.find [61] s).bind fun pos =>
    if Lines.strip isBlank (s.take pos) = [] then none
    else some (Lines.strip isBlank (s.take pos), Lines.strip isBlank (s.drop (pos + 1)))

/-- The value that a line gives to the name. -/
def valueFor (name line : Bytes) : Option Bytes :=
  (definition line).bind fun e => if e.1 = name then some e.2 else none

theorem length_strip_le (s : Bytes) : (Lines.strip isBlank s).length ≤ s.length :=
  (List.rdropWhile_prefix _ _).length_le.trans (List.dropWhile_suffix _).length_le

theorem loadLine_eq (m : UniqueMap Bytes Bytes) (hlen : line.length < 2 ^ 64) :
    loadLine m line = some ((definition line).elim m fun e => m.insert e.1 e.2) := by
  have hcut := (List.takeWhile_prefix (p := (· ≠ 35)) (l := line)).length_le
  have hstrip := length_strip_le (line.takeWhile (· ≠ 35))
  unfold loadLine definition
  simp only [substr_find_char, Option.bind_eq_bind, Option.bind_some]
  rw [trim_eq (by omega), Option.bind_some]
  generalize Lines.strip isBlank (line.takeWhile (· ≠ 35)) = s at *
  by_cases hs : s = []
  · rw [if_pos hs, hs]
    rfl
  rw [if_neg hs, find_zero]
  cases hfind : Search.find [61] s with
  | none => rfl
  | some pos =>
    have hpos := Search.find_add_le hfind
    simp only [List.length_singleton] at hpos
    have htake : (s.take pos).length < 2 ^ 64 := by
      rw [List.length_take]
      omega
    have hdrop : (s.drop (pos + 1)).length < 2 ^ 64 := by
      rw [List.length_drop]
      omega
    simp only [substr_some (Nat.zero_le _), substr_none hpos, Option.bind_some, List.drop_zero,
      trim_eq htake, trim_eq hdrop]
    split
    · rfl
    · rfl

theorem definition_eq_some_iff :
    definition line = some (name, value) ↔ Defines line name value := by
  unfold definition Defines
  dsimp only
  generalize Lines.strip isBlank (line.takeWhile (· ≠ 35)) = s
  have hdrop : ∀ a b : Bytes, (a ++ 61 :: b).drop (a.length + 1) = b := fun a b => by
    rw [← List.drop_drop, List.drop_left]
    rfl
  constructor
  · intro h
    obtain ⟨pos, hpos, h⟩ := Option.bind_eq_some_iff.mp h
    obtain ⟨a, b, rfl, ha, rfl⟩ := Search.exists_of_find_char hpos
    rw [List.take_left, hdrop] at h
    split at h
    · exact absurd h (by simp)
    · next hname =>
      cases h
      exact ⟨hname, a, b, rfl, ha, rfl, rfl⟩
  · rintro ⟨hname, a, b, rfl, ha, rfl, rfl⟩
    rw [Search.find_char ha, Option.bind_some, List.take_left, hdrop, if_neg hname]

theorem valueFor_eq_some_iff : valueFor name line = some value ↔ Defines line name value := by
  rw [valueFor, Option.bind_eq_some_iff, ← definition_eq_some_iff]
  constructor
  · rintro ⟨e, he, h⟩
    split at h
    · next hname =>
      cases h
      rw [he, ← hname]
    · exact absurd h (by simp)
  · intro h
    exact ⟨_, h, if_pos rfl⟩

theorem valueFor_nil : valueFor name [] = none := rfl

theorem loadLines_find (m : UniqueMap Bytes Bytes) (hlen : text.length < 2 ^ 64) :
    ∃ m', loadLines m text = some m' ∧
      ∀ name, m'.find name = (m.find name).or ((text.splitOn 10).findSome? (valueFor name)) := by
  induction m, text using loadLines.induct with
  | case1 m text hnone =>
    obtain rfl := Lines.getline_eq_none_iff.mp hnone
    refine ⟨m, by rw [loadLines, hnone], fun name => ?_⟩
    simp [valueFor_nil]
  | case2 m text line rest hline ih =>
    have hsizes := Lines.getline_length hline
    have hfirst := loadLine_eq m (show line.length < 2 ^ 64 by omega)
    obtain ⟨m', hm', hfind⟩ := ih ((definition line).elim m fun e => m.insert e.1 e.2) (by omega)
    have hload : loadLines m text = some m' := by
      rw [loadLines, hline]
      dsimp only
      rw [hfirst]
      exact hm'
    refine ⟨m', hload, fun name => ?_⟩
    rw [hfind, Lines.findSome?_of_getline valueFor_nil hline, ← Option.or_assoc]
    congr 1
    rw [valueFor]
    cases definition line with
    | none => simp
    | some e => exact m.find_insert_or e.1 e.2 name

theorem findSome?_valueFor_eq_some_iff :
    (text.splitOn 10).findSome? (valueFor name) = some value ↔ FirstDefines text name value := by
  rw [List.findSome?_eq_some_iff]
  unfold FirstDefines
  simp only [valueFor_eq_some_iff, Option.eq_none_iff_forall_ne_some, ne_eq]

theorem load_eq (c : Config) (files : Files) (error cfgfile : Bytes) :
    c.load files error cfgfile =
      let path := if cfgfile ≠ [] then cfgfile else c.mConfigFile
      match files (cstr path) with
      | none => some (⟨path, c.mNameValue⟩, .error ("Config::load(".toUTF8.toList ++ cfgfile ++
          ") : ".toUTF8.toList ++ error))
      | some text => (loadLines .empty text).map fun m => (⟨path, m⟩, .ok true) := by
  unfold load
  by_cases hcfg : cfgfile ≠ []
  · rw [if_pos hcfg, if_pos hcfg]
  · rw [if_neg hcfg, if_neg hcfg]

theorem load_of_not_open {c : Config} {files : Files} {cfgfile : Bytes} (error : Bytes)
    (hopen : files (cstr (if cfgfile ≠ [] then cfgfile else c.mConfigFile)) = none) :
    ∃ c' msg, c.load files error cfgfile = some (c', .error msg) ∧
      c'.mNameValue = c.mNameValue := by
  rw [load_eq]
  dsimp only
  rw [hopen]
  exact ⟨_, _, rfl, rfl⟩

/-- A file that can be opened is loaded as the grammar says, whatever was there before: a name has
the value of the first line that defines it, and no value if there is none. -/
theorem load_implements_grammar {c : Config} {files : Files} {cfgfile : Bytes} (error : Bytes)
    (hopen : files (cstr (if cfgfile ≠ [] then cfgfile else c.mConfigFile)) = some text)
    (hlen : text.length < 2 ^ 64) :
    ∃ c', c.load files error cfgfile = some (c', .ok true) ∧ ∀ name,
      (∀ old value, c'.getValue old name = (true, value) ↔ FirstDefines text name value) ∧
      (∀ old, (c'.getValue old name).1 = true ↔
        ∃ line ∈ text.splitOn 10, ∃ value, Defines line name value) ∧
      ∀ value, c'.getValueCStr name = some (value ++ [0]) ↔ FirstDefines text name value := by
  obtain ⟨m, hm, hfind⟩ := loadLines_find .empty hlen
  have hvalue : ∀ name value, m.find name = some value ↔ FirstDefines text name value := by
    intro name value
    rw [hfind, ← findSome?_valueFor_eq_some_iff]
    rfl
  have hload : ∃ c', c.load files error cfgfile = some (c', .ok true) ∧ c'.mNameValue = m := by
    rw [load_eq]
    dsimp only
    rw [hopen]
    dsimp only
    rw [hm]
    exact ⟨_, rfl, rfl⟩
  obtain ⟨c', hc', rfl⟩ := hload
  refine ⟨c', hc', fun name => ⟨fun old value => ?_, fun old => ?_, fun value => ?_⟩⟩
  · rw [← hvalue, getValue]
    cases c'.mNameValue.find name <;> simp
  · have hsome : (c'.getValue old name).1 = true ↔ (c'.mNameValue.find name).isSome = true := by
      rw [getValue]
      cases c'.mNameValue.find name <;> simp
    have hnone : UniqueMap.empty.find name = (none : Option Bytes) := rfl
    rw [hsome, hfind, hnone, Option.none_or, List.findSome?_isSome_iff]
    simp only [Option.isSome_iff_exists, valueFor_eq_some_iff]
  · rw [← hvalue, getValueCStr]
    cases c'.mNameValue.find name <;> simp

/-- Of the lines ` a = 1 #` and `a=2` of a file the first one gives `a` its value. -/
theorem load_implements_grammar_lines :
    ∃ c', (⟨[], .empty⟩ : Config).load
        (fun _ => some [32, 97, 32, 61, 32, 49, 32, 35, 10, 97, 61, 50, 10]) [] [99] =
        some (c', .ok true) ∧ c'.getValueCStr [97] = some [49, 0] := by
  obtain ⟨c', hload, hvalue⟩ := @load_implements_grammar
    [32, 97, 32, 61, 32, 49, 32, 35, 10, 97, 61, 50, 10] ⟨[], .empty⟩
    (fun _ => some [32, 97, 32, 61, 32, 49, 32, 35, 10, 97, 61, 50, 10]) [99] [] rfl (by decide)
  refine ⟨c', hload, ((hvalue [97]).2.2 [49]).mpr ⟨[], _, [[97, 61, 50], []], rfl, ?_, by simp⟩⟩
  exact ⟨by decide, [97, 32], [32, 49], by decide, by decide, by decide, by decide⟩

end Load

end Config

end YlUtils
