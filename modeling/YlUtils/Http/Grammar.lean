import YlUtils.Http.Unescape

/-! # The query string grammar

A query string is a list of segments separated by `&`. A segment with a name
before its first `=` binds that name, and the first binding of a name counts.
-/

namespace YlUtils.HttpQuery

/-- The name and the value of a segment, before and after its first `=`. -/
def pairOf (segment : Bytes) : Option (Bytes × Bytes) :=
  match segment.takeWhile (· ≠ 61), segment.dropWhile (· ≠ 61) with
  | c :: name, _ :: value => some (c :: name, value)
  | _, _ => none

/-- The bindings of a query string, in their order. -/
def pairs (q : Bytes) : List (Bytes × Bytes) := (q.splitOn 38).filterMap pairOf

/-- The value that a query string binds to a name. -/
def valueOf (q name : Bytes) : Option Bytes :=
  ((pairs q).find? fun e => SameName e.1 name).map fun e => unescaped e.2

section Pairs

variable {segment name value : Bytes}

theorem pairOf_eq_some (h : pairOf segment = some (name, value)) :
    segment = name ++ 61 :: value ∧ name ≠ [] ∧ 61 ∉ name := by
  have happ := List.takeWhile_append_dropWhile (p := (· ≠ (61 : UInt8))) (l := segment)
  unfold pairOf at h
  split at h
  · next c n d v ht hd =>
    obtain ⟨rfl, rfl⟩ := Prod.mk.inj (Option.some.inj h)
    have hne : segment.dropWhile (· ≠ (61 : UInt8)) ≠ [] := by rw [hd]; simp
    have hd61 : d = 61 := by
      have hhead := List.head_dropWhile_not (· ≠ (61 : UInt8)) hne
      simp only [hd, List.head_cons] at hhead
      simpa using hhead
    rw [ht, hd, hd61] at happ
    refine ⟨happ.symm, by simp, fun hm => ?_⟩
    have := List.mem_takeWhile_imp (ht ▸ hm)
    simp at this
  · exact absurd h (by simp)

theorem pairOf_append (hne : name ≠ []) (h : 61 ∉ name) (value : Bytes) :
    pairOf (name ++ 61 :: value) = some (name, value) := by
  have hall : ∀ c ∈ name, (decide (c ≠ 61)) = true := fun c hc => by
    simpa using fun he : c = 61 => h (he ▸ hc)
  have ht : (name ++ 61 :: value).takeWhile (· ≠ 61) = name := by
    rw [List.takeWhile_append_of_pos hall]
    simp
  have hd : (name ++ 61 :: value).dropWhile (· ≠ 61) = 61 :: value := by
    rw [List.dropWhile_append_of_pos hall]
    simp
  obtain ⟨c, n, rfl⟩ := List.exists_cons_of_ne_nil hne
  unfold pairOf
  rw [ht, hd]

end Pairs

abbrev Entries := List (Bytes × Bytes)

/-- Bind a name, unless it is bound already. -/
def insertEntry (es : Entries) (e : Bytes × Bytes) : Entries :=
  if es.any fun f => SameName f.1 e.1 then es else es ++ [e]

def addSegment (es : Entries) (segment : Bytes) : Entries :=
  match pairOf segment with
  | some e => insertEntry es (e.1, unescaped e.2)
  | none => es

def lookup (es : Entries) (name : Bytes) : Option Bytes :=
  (es.find? fun e => SameName e.1 name).map (·.2)

theorem lookup_insertEntry (es : Entries) (e : Bytes × Bytes) (name : Bytes) :
    lookup (insertEntry es e) name =
      (lookup es name).or (if SameName e.1 name then some e.2 else none) := by
  unfold insertEntry
  split
  · next h =>
    by_cases hn : SameName e.1 name
    · obtain ⟨f, hf, hs⟩ := List.any_eq_true.mp h
      have hs : SameName f.1 e.1 := by simpa using hs
      have hsome : (es.find? fun e => SameName e.1 name).isSome := by
        rw [List.find?_isSome]
        exact ⟨f, hf, decide_eq_true (show SameName f.1 name from hs.trans hn)⟩
      obtain ⟨g, hg⟩ := Option.isSome_iff_exists.mp hsome
      simp [lookup, hg]
    · simp [hn]
  · unfold lookup
    rw [List.find?_append, Option.map_or]
    by_cases hn : SameName e.1 name <;> simp [hn]

/-- The first binding of a name among the segments is the one that is found. -/
theorem lookup_foldl_addSegment (segments : List Bytes) (es : Entries) (name : Bytes) :
    lookup (segments.foldl addSegment es) name = (lookup es name).or
      (((segments.filterMap pairOf).find? fun e => SameName e.1 name).map
        fun e => unescaped e.2) := by
  induction segments generalizing es with
  | nil => simp
  | cons segment segments ih =>
    rw [List.foldl_cons, ih, List.filterMap_cons, addSegment]
    cases pairOf segment with
    | none => rfl
    | some e =>
      simp only [lookup_insertEntry, Option.or_assoc, List.find?_cons]
      by_cases hn : SameName e.1 name <;> simp [hn]

end YlUtils.HttpQuery
