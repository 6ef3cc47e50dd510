import YlUtils.Http.Recv
import YlUtils.Http.URLEncoder

/-! # Query strings of encoded values

A query string that is made of names and encoded values gives every value back,
if the values contain nothing that looks like an escape.
-/

namespace YlUtils.HttpQuery

open URLEncoder URLDecoder

def queryString (ps : List (Bytes × Bytes)) : Bytes :=
  [38].intercalate (ps.map fun e => e.1 ++ 61 :: encodeQuery e.2)

/-- No `%` of the text is followed by two hexadecimal digits. -/
def NoEscape (v : Bytes) : Prop :=
  ∀ p a b s, v = p ++ 37 :: a :: b :: s → (isxdigit a && isxdigit b) = false

section Values

variable {c : UInt8} {v : Bytes}

theorem NoEscape.tail (h : NoEscape (c :: v)) : NoEscape v := fun p a b s hv =>
  h (c :: p) a b s (by rw [hv]; rfl)

theorem NoEscape.replaced_eq (h : NoEscape v) : replaced v = v := by
  induction v with
  | nil => rfl
  | cons c v ih =>
    rw [replaced, replacedWith_cons]
    · exact congrArg (c :: ·) (ih h.tail)
    · rintro a b s rfl rfl
      rw [hexByte, h [] a b s rfl]
      exact if_neg fun hd => Bool.false_ne_true hd.1

theorem notMem_encodeQuery (v : Bytes) : 38 ∉ encodeQuery v ∧ 0 ∉ encodeQuery v :=
  ⟨spares_query.notMem_encodeWith (by decide) (by decide +kernel) _, zero_notMem_query _⟩

end Values

section RoundTrip

variable {ps : List (Bytes × Bytes)}

theorem find?_sameName (h : ps.Pairwise fun e f => ¬ SameName e.1 f.1) {e : Bytes × Bytes}
    (he : e ∈ ps) : (ps.find? fun f => SameName f.1 e.1) = some e := by
  induction ps with
  | nil => exact absurd he List.not_mem_nil
  | cons f ps ih =>
    rw [List.pairwise_cons] at h
    rcases List.mem_cons.mp he with rfl | he
    · exact List.find?_cons_of_pos (by simp [SameName])
    · rw [List.find?_cons_of_neg (by simpa using h.1 e he)]
      exact ih h.2 he

theorem notMem_queryString {c : UInt8} (hc : c ≠ 38 ∧ c ≠ 61)
    (h : ∀ e ∈ ps, c ∉ e.1 ∧ c ∉ encodeQuery e.2) : c ∉ queryString ps := by
  unfold queryString
  induction ps with
  | nil => simp
  | cons e ps ih =>
    have he := h e List.mem_cons_self
    have ih := ih fun f hf => h f (List.mem_cons_of_mem e hf)
    cases ps with
    | nil => simp [he, hc.2]
    | cons f ps =>
      rw [List.map_cons, List.map_cons, List.intercalate_cons_cons]
      simp only [List.mem_append, List.mem_cons, List.not_mem_nil, or_false, not_or]
      exact ⟨⟨⟨he.1, hc.2, he.2⟩, hc.1⟩, ih⟩

theorem pairs_queryString (hps : ps ≠ []) (hname : ∀ e ∈ ps, e.1 ≠ [] ∧ 38 ∉ e.1 ∧ 61 ∉ e.1)
    (hvalue : ∀ e ∈ ps, 38 ∉ encodeQuery e.2) :
    pairs (queryString ps) = ps.map fun e => (e.1, encodeQuery e.2) := by
  unfold pairs queryString
  rw [List.splitOn_intercalate]
  · rw [List.filterMap_map]
    clear hps
    induction ps with
    | nil => rfl
    | cons e ps ih =>
      have he := hname e List.mem_cons_self
      have hpair : (pairOf ∘ fun e : Bytes × Bytes => e.1 ++ 61 :: encodeQuery e.2) e =
          some (e.1, encodeQuery e.2) := pairOf_append he.1 he.2.2 _
      rw [List.filterMap_cons_some hpair, List.map_cons,
        ih (fun f hf => hname f (List.mem_cons_of_mem e hf))
          fun f hf => hvalue f (List.mem_cons_of_mem e hf)]
  · intro segment hs
    obtain ⟨e, he, rfl⟩ := List.mem_map.mp hs
    have hn := hname e he
    simp [hn.2.1, hvalue e he]
  · simpa using hps

/-- Every value that is put into a query string comes out of it. -/
theorem recv_queryString (d : HttpQuery) (ps : List (Bytes × Bytes)) (t : Bytes)
    (hname : ∀ e ∈ ps, e.1 ≠ [] ∧ 38 ∉ e.1 ∧ 61 ∉ e.1 ∧ 0 ∉ e.1)
    (hdistinct : ps.Pairwise fun e f => ¬ SameName e.1 f.1)
    (hvalue : ∀ e ∈ ps, 0 ∉ e.2 ∧ NoEscape e.2) :
    Succeeds (d.recv (queryString ps ++ 0 :: t)) fun r => ∀ e ∈ ps, r.get e.1 = some e.2 := by
  have henc : ∀ e ∈ ps, 38 ∉ encodeQuery e.2 ∧ 0 ∉ encodeQuery e.2 := fun e _ =>
    notMem_encodeQuery e.2
  have hq : cstr (queryString ps ++ 0 :: t) = queryString ps :=
    cstr_append_zero (notMem_queryString (by decide) fun e he =>
      ⟨(hname e he).2.2.2, (henc e he).2⟩) t
  apply (recv_succeeds d _).mono
  intro r hr e he
  rw [hq] at hr
  have hps : ps ≠ [] := List.ne_nil_of_mem he
  rw [hr.get_eq_valueOf, cstr_eq_self (hname e he).2.2.2, valueOf, pairs_queryString hps
    (fun e he => ⟨(hname e he).1, (hname e he).2.1, (hname e he).2.2.1⟩) fun e he => (henc e he).1]
  have hfind := find?_sameName hdistinct he
  rw [List.find?_map]
  change ((ps.find? fun f => SameName f.1 e.1).map fun e => (e.1, encodeQuery e.2)).map
    (fun e => unescaped e.2) = some e.2
  rw [hfind, Option.map_some, Option.map_some, encodeQuery, cstr_eq_self (hvalue e he).1,
    unescaped_encodeQuery (hvalue e he).1, (hvalue e he).2.replaced_eq]

/-- A value with a space and a percent sign, and one with both separators. -/
theorem recv_queryString_two :
    Succeeds (empty.recv (queryString [([97], [98, 32, 37]), ([98], [38, 61])] ++ [0])) fun r =>
      r.get [97] = some [98, 32, 37] ∧ r.get [98] = some [38, 61] := by
  have hpercent : NoEscape [98, 32, 37] := by
    intro p a b s h
    have hlen := congrArg List.length h
    simp only [List.length_append, List.length_cons, List.length_nil] at hlen
    obtain rfl : p = [] := List.eq_nil_of_length_eq_zero (by omega)
    simp at h
  have hseparators : NoEscape [38, 61] := by
    intro p a b s h
    have hlen := congrArg List.length h
    simp only [List.length_append, List.length_cons, List.length_nil] at hlen
    omega
  refine (recv_queryString empty [([97], [98, 32, 37]), ([98], [38, 61])] [] (by decide)
    (by decide) ?_).mono fun r hr => ?_
  · rw [List.forall_mem_cons, List.forall_mem_singleton]
    exact ⟨⟨by decide, hpercent⟩, by decide, hseparators⟩
  · exact ⟨hr ([97], [98, 32, 37]) (by simp), hr ([98], [38, 61]) (by simp)⟩

end RoundTrip

end YlUtils.HttpQuery
