import Mathlib.Data.List.Nodup
import Mathlib.Data.List.Perm.Basic

/-! # Unique maps

A map holds at most one entry for a key, in an order of its own. Insertion keeps
the entry that a key has; an entry can be changed where it is.
-/

namespace YlUtils

structure UniqueMap (κ υ : Type) where
  entries : List (κ × υ)
  nodup : (entries.map Prod.fst).Nodup

namespace UniqueMap

variable {κ υ : Type}

def empty : UniqueMap κ υ := ⟨[], List.nodup_nil⟩

def size (m : UniqueMap κ υ) : ℕ := m.entries.length

theorem entry_unique {m : UniqueMap κ υ} {k : κ} {v v' : υ} (h : (k, v) ∈ m.entries)
    (h' : (k, v') ∈ m.entries) : v = v' := by
  have he := List.inj_on_of_nodup_map m.nodup h h' rfl
  exact (Prod.mk.inj he).2

section Find

variable [DecidableEq κ]

/-- The value of a key. -/
def find (m : UniqueMap κ υ) (k : κ) : Option υ :=
  (m.entries.find? fun e => e.1 = k).map Prod.snd

variable {m : UniqueMap κ υ} {k : κ} {v : υ}

theorem find_eq_some_iff : m.find k = some v ↔ (k, v) ∈ m.entries := by
  unfold find
  constructor
  · intro h
    obtain ⟨⟨k', v'⟩, hf, rfl⟩ := Option.map_eq_some_iff.mp h
    have hk : k' = k := by simpa using List.find?_some hf
    exact hk ▸ List.mem_of_find?_eq_some hf
  · intro h
    have hsome : (m.entries.find? fun e => e.1 = k).isSome := by
      rw [List.find?_isSome]
      exact ⟨(k, v), h, by simp⟩
    obtain ⟨⟨k', v'⟩, hf⟩ := Option.isSome_iff_exists.mp hsome
    have hk : k' = k := by simpa using List.find?_some hf
    have hv : v' = v := entry_unique (hk ▸ List.mem_of_find?_eq_some hf) h
    rw [hf, Option.map_some, hv]

theorem find_eq_none_iff : m.find k = none ↔ k ∉ m.entries.map Prod.fst := by
  unfold find
  simp only [Option.map_eq_none_iff, List.find?_eq_none, decide_eq_true_eq, List.mem_map,
    not_exists, not_and]

/-- Add an entry, unless its key has one. -/
def insert (m : UniqueMap κ υ) (k : κ) (v : υ) : UniqueMap κ υ :=
  if h : k ∈ m.entries.map Prod.fst then m
  else ⟨m.entries ++ [(k, v)], by
    rw [List.map_append, List.map_singleton]
    exact m.nodup.append (List.nodup_singleton k) (by simpa using h)⟩

/-- Change the value of a key. -/
def modify (m : UniqueMap κ υ) (k : κ) (f : υ → υ) : UniqueMap κ υ where
  entries := m.entries.map fun e => if e.1 = k then (e.1, f e.2) else e
  nodup := by
    have h : (Prod.fst ∘ fun e : κ × υ => if e.1 = k then (e.1, f e.2) else e) = Prod.fst := by
      funext e
      rw [Function.comp_apply]
      split <;> rfl
    rw [List.map_map, h]
    exact m.nodup

def erase (m : UniqueMap κ υ) (k : κ) : UniqueMap κ υ where
  entries := m.entries.filter fun e => e.1 ≠ k
  nodup := m.nodup.sublist (List.filter_sublist.map _)

/-- The map of the entries of a list, of which the first counts for each key. -/
def ofList (l : List (κ × υ)) : UniqueMap κ υ := l.foldl (fun m e => m.insert e.1 e.2) empty

theorem insert_entries (h : m.find k = none) (v : υ) :
    (m.insert k v).entries = m.entries ++ [(k, v)] := by
  unfold insert
  rw [dif_neg (find_eq_none_iff.mp h)]

theorem find_insert (h : m.find k = none) (v : υ) (j : κ) :
    (m.insert k v).find j = if j = k then some v else m.find j := by
  ext x
  rw [find_eq_some_iff, insert_entries h, List.mem_append, List.mem_singleton]
  split
  · next hj =>
    subst hj
    have hn := find_eq_none_iff.mp h
    constructor
    · rintro (hm | he)
      · exact absurd (List.mem_map_of_mem hm) hn
      · rw [(Prod.mk.inj he).2]
    · intro he
      exact .inr (by rw [Option.some.inj he])
  · next hj =>
    rw [find_eq_some_iff]
    simp [hj]

theorem find_insert_or (m : UniqueMap κ υ) (k : κ) (v : υ) (j : κ) :
    (m.insert k v).find j = (m.find j).or (if k = j then some v else none) := by
  by_cases h : m.find k = none
  · rw [find_insert h]
    by_cases hj : j = k
    · rw [hj, h, if_pos rfl]
      rfl
    · rw [if_neg hj, if_neg (Ne.symm hj), Option.or_none]
  · have hsame : m.insert k v = m := by
      unfold insert
      rw [dif_pos (not_not.mp (mt find_eq_none_iff.mpr h))]
    rw [hsame]
    by_cases hj : k = j
    · obtain ⟨w, hw⟩ := Option.ne_none_iff_exists'.mp h
      rw [← hj, hw]
      rfl
    · rw [if_neg hj, Option.or_none]

theorem isSome_find_insert (m : UniqueMap κ υ) (k : κ) (v : υ) :
    ((m.insert k v).find k).isSome = true := by
  rw [find_insert_or, if_pos rfl]
  cases m.find k <;> rfl

theorem mem_insert {e : κ × υ} (h : e ∈ (m.insert k v).entries) : e ∈ m.entries ∨ e = (k, v) := by
  unfold insert at h
  split at h
  · exact .inl h
  · exact (List.mem_append.mp h).imp_right List.mem_singleton.mp

theorem find_modify (f : υ → υ) (j : κ) :
    (m.modify k f).find j = if j = k then (m.find j).map f else m.find j := by
  ext x
  rw [find_eq_some_iff]
  unfold modify
  rw [List.mem_map]
  split
  · next hj =>
    subst hj
    rw [Option.map_eq_some_iff]
    constructor
    · rintro ⟨e, he, hx⟩
      split at hx
      · next hk =>
        obtain ⟨-, rfl⟩ := Prod.mk.inj hx
        exact ⟨e.2, find_eq_some_iff.mpr (hk ▸ he), rfl⟩
      · next hk => exact absurd (congrArg Prod.fst hx) hk
    · rintro ⟨v, hv, rfl⟩
      exact ⟨(j, v), find_eq_some_iff.mp hv, by simp⟩
  · next hj =>
    rw [find_eq_some_iff]
    constructor
    · rintro ⟨e, he, hx⟩
      split at hx
      · next hk => exact absurd ((Prod.mk.inj hx).1 ▸ hk) hj
      · exact hx ▸ he
    · intro hx
      exact ⟨(j, x), hx, by simp [hj]⟩

theorem mem_erase {e : κ × υ} : e ∈ (m.erase k).entries ↔ e ∈ m.entries ∧ e.1 ≠ k := by
  rw [erase, List.mem_filter, decide_eq_true_eq]

theorem find_erase (j : κ) : (m.erase k).find j = if j = k then none else m.find j := by
  ext x
  rw [find_eq_some_iff, erase, List.mem_filter, ← find_eq_some_iff]
  by_cases hj : j = k
  · simp [hj]
  · simp [hj]

theorem ofList_entries {l : List (κ × υ)} (h : (l.map Prod.fst).Nodup) :
    (ofList l).entries = l := by
  have hfold : ∀ (l : List (κ × υ)) (m : UniqueMap κ υ),
      ((m.entries ++ l).map Prod.fst).Nodup →
      (l.foldl (fun m e => m.insert e.1 e.2) m).entries = m.entries ++ l := by
    intro l
    induction l with
    | nil => simp
    | cons e l ih =>
      intro m hm
      have hins : (m.insert e.1 e.2).entries = m.entries ++ [e] := by
        apply insert_entries
        rw [find_eq_none_iff]
        intro he
        rw [List.map_append, List.nodup_append] at hm
        exact hm.2.2 e.1 he e.1 (by simp) rfl
      have hm' : (((m.insert e.1 e.2).entries ++ l).map Prod.fst).Nodup := by
        rw [hins, List.append_assoc]
        exact hm
      rw [List.foldl_cons, ih _ hm', hins, List.append_assoc]
      rfl
  simpa [ofList, empty] using hfold l empty (by simpa [empty] using h)

end Find

end UniqueMap

end YlUtils
