import YlUtils.Http.Grammar

/-! # Parsing in place

The scan keeps the segments it has passed, cut and unescaped, in front of the
segment it is in. What it has stored there stays as it is, since all it writes
from then on lies behind it.
-/

namespace YlUtils.HttpQuery

variable {buf pre cur rest tail s name value : Bytes} {p : ℕ} {es : Entries} {c : UInt8}

section Strings

def Holds (pre : Bytes) (p : ℕ) (s : Bytes) : Prop := 0 ∉ s ∧ ∃ t, pre.drop p = s ++ 0 :: t

theorem Holds.append (h : Holds pre p s) (x : Bytes) : Holds (pre ++ x) p s := by
  obtain ⟨hs, t, ht⟩ := h
  have hp : p ≤ pre.length := by
    by_contra hp
    rw [List.drop_eq_nil_of_le (by omega)] at ht
    simp at ht
  refine ⟨hs, t ++ x, ?_⟩
  rw [List.drop_append_of_le_length hp, ht, List.append_assoc]
  rfl

theorem Holds.stringAt (h : Holds pre p s) : stringAt pre p = s := by
  obtain ⟨hs, t, ht⟩ := h
  rw [HttpQuery.stringAt, ht]
  exact cstr_append_zero hs t

theorem holds_append (hs : 0 ∉ s) (a t : Bytes) : Holds (a ++ (s ++ 0 :: t)) a.length s :=
  ⟨hs, t, by rw [List.drop_left]⟩

theorem equivalent_eq {a b : Bytes} (ha : 0 ∉ a) (hb : 0 ∉ b) :
    equivalent a b = decide (SameName a b) := by
  have h := strcasecmp_eq_zero ha hb
  have hs := strcasecmp_antisymm a b
  unfold equivalent strcaselt
  rw [Bool.eq_iff_iff, decide_eq_true_iff, ← h, hs]
  simp only [Bool.and_eq_true, Bool.not_eq_true', decide_eq_false_iff_not]
  omega

/-- The positions point to the names and the values of the entries. -/
abbrev Stored (pre : Bytes) (nameValue : List (ℕ × ℕ)) (es : Entries) : Prop :=
  List.Forall₂ (fun a e => Holds pre a.1 e.1 ∧ Holds pre a.2 e.2) nameValue es

theorem Stored.append {nv : List (ℕ × ℕ)} (h : Stored pre nv es) (x : Bytes) :
    Stored (pre ++ x) nv es :=
  h.imp fun _ _ ha => ⟨ha.1.append x, ha.2.append x⟩

theorem Stored.any_equivalent {nv : List (ℕ × ℕ)} (h : Stored pre nv es) (hs : 0 ∉ s) :
    (nv.any fun a => equivalent (stringAt pre a.1) s) = es.any fun e => SameName e.1 s := by
  induction h with
  | nil => rfl
  | cons ha _ ih => rw [List.any_cons, List.any_cons, ih, ha.1.stringAt, equivalent_eq ha.1.1 hs]

theorem Stored.insert {nv : List (ℕ × ℕ)} {n v : ℕ} (h : Stored pre nv es) (hn : Holds pre n name)
    (hv : Holds pre v value) :
    Stored pre (insert (pre ++ tail) nv n v) (insertEntry es (name, value)) := by
  unfold HttpQuery.insert insertEntry
  rw [(hn.append tail).stringAt, (h.append tail).any_equivalent hn.1]
  split
  · exact h
  · exact List.rel_append h (List.Forall₂.cons ⟨hn, hv⟩ .nil)

theorem Stored.get_eq {nv : List (ℕ × ℕ)} (h : Stored buf nv es) (s : Bytes) :
    get ⟨buf, nv⟩ s = lookup es (cstr s) := by
  have hs := zero_notMem_cstr s
  unfold get lookup
  induction h with
  | nil => rfl
  | cons ha _ ih =>
    simp only [List.find?_cons, ha.1.stringAt, equivalent_eq ha.1.1 hs] at ih ⊢
    split
    · simp only [Option.map_some, ha.2.stringAt]
    · exact ih

end Strings

section Segments

/-- The position in a segment that `pvaluebegin` has: the first `=`, if there is one. -/
def eqPos (cur : Bytes) : ℕ := if 61 ∈ cur then (cur.takeWhile (· ≠ 61)).length else 0

theorem eqPos_append (hn : 61 ∉ name) (value : Bytes) :
    eqPos (name ++ 61 :: value) = name.length := by
  have hall : ∀ c ∈ name, (decide (c ≠ 61)) = true := fun c hc => by
    simpa using fun he : c = 61 => hn (he ▸ hc)
  unfold eqPos
  rw [if_pos (by simp), List.takeWhile_append_of_pos hall]
  simp

/-- A segment that binds no name leaves `pvaluebegin` where the segment begins. -/
theorem eqPos_of_pairOf_eq_none (h : pairOf cur = none) : eqPos cur = 0 := by
  by_cases hm : 61 ∈ cur
  · obtain ⟨name, value, rfl, hn⟩ := List.eq_append_cons_of_mem hm
    have hnil : name = [] := by
      by_contra hne
      rw [pairOf_append hne hn] at h
      exact absurd h (by simp)
    rw [eqPos_append hn, hnil, List.length_nil]
  · rw [eqPos, if_neg hm]

theorem eqPos_append_singleton (cur : Bytes) (c : UInt8) :
    eqPos (cur ++ [c]) = if 61 ∉ cur ∧ c = 61 then cur.length else eqPos cur := by
  by_cases hm : 61 ∈ cur
  · obtain ⟨name, value, rfl, hn⟩ := List.eq_append_cons_of_mem hm
    rw [if_neg fun h => h.1 hm, List.append_assoc, List.cons_append, eqPos_append hn,
      eqPos_append hn]
  · by_cases hc : c = 61
    · subst hc
      rw [if_pos ⟨hm, rfl⟩, eqPos_append hm]
    · have hm' : 61 ∉ cur ++ [c] := by simp [hm, Ne.symm hc]
      rw [if_neg fun h => hc h.2, eqPos, eqPos, if_neg hm, if_neg hm']

/-- The state of the scan: `pre` holds the segments passed and `cur` is the part
of the current segment that was read. -/
structure Scanned (s : Scan) (pre cur rest tail : Bytes) (es : Entries) : Prop where
  buf : s.buf = pre ++ cur ++ (rest ++ 0 :: tail)
  noAmp : 38 ∉ cur
  noZero : 0 ∉ cur ++ rest
  pnamebegin : s.pnamebegin = pre.length
  pvaluebegin : s.pvaluebegin = pre.length + eqPos cur
  p : s.p = pre.length + cur.length
  stored : Stored pre s.nameValue es

variable {st : Scan}

theorem getElem?_segment (a b t : Bytes) (i : ℕ) : (a ++ b ++ t)[a.length + i]? = (b ++ t)[i]? := by
  rw [List.append_assoc, List.getElem?_append_right (by omega), Nat.add_sub_cancel_left]

theorem Scanned.isPair_eq (h : Scanned st pre cur rest tail es) :
    st.isPair = some (pairOf cur).isSome := by
  have hget := getElem?_segment pre cur (rest ++ 0 :: tail)
  unfold Scan.isPair
  rw [h.buf, h.pnamebegin, h.pvaluebegin, ← Nat.add_zero pre.length, hget, Nat.add_zero, hget]
  cases hp : pairOf cur with
  | none =>
    obtain ⟨x, hx⟩ : ∃ x, (cur ++ (rest ++ 0 :: tail))[0]? = some x := by
      rw [← Option.isSome_iff_exists, isSome_getElem?, List.length_append, List.length_append,
        List.length_cons]
      omega
    rw [eqPos_of_pairOf_eq_none hp, hx]
    simp
  | some e =>
    obtain ⟨hcur, hne, hn⟩ := pairOf_eq_some hp
    obtain ⟨x, name, hname⟩ := List.exists_cons_of_ne_nil hne
    have hamp := h.noAmp
    rw [hcur, hname] at hamp
    rw [hname] at hn
    have hx61 : x ≠ 61 := fun he => hn (by simp [he])
    have hx38 : x ≠ 38 := fun he => hamp (by simp [he])
    have hpos : eqPos cur = name.length + 1 := by rw [hcur, hname, eqPos_append hn]; rfl
    rw [hpos, hcur, hname]
    simp [hx61, hx38]

theorem insertPair_succeeds {t : Bytes} (hs : Stored pre st.nameValue es) (hn : 0 ∉ name)
    (hv : 0 ∉ value) (hpn : st.pnamebegin = pre.length)
    (hpv : st.pvaluebegin = pre.length + name.length) :
    Succeeds (st.insertPair (pre ++ (name ++ [0]) ++ (value ++ 0 :: t))) fun r => ∃ pre' : Bytes,
      pre'.length = pre.length + (name.length + 1 + value.length + 1) ∧ r.buf = pre' ++ t ∧
      r.p = st.p ∧ Stored pre' r.nameValue (insertEntry es (name, unescaped value)) := by
  have hpos : st.pvaluebegin + 1 = (pre ++ (name ++ [0])).length := by
    simp only [List.length_append, List.length_singleton]
    omega
  unfold Scan.insertPair
  rw [hpos]
  refine (unescape_succeeds hv (pre ++ (name ++ [0])) t).bind ?_
  rintro b ⟨j, rfl, hj⟩
  rw [succeeds_some]
  refine ⟨pre ++ (name ++ [0]) ++ (unescaped value ++ 0 :: j), ?_, rfl, rfl, ?_⟩
  · rw [List.length_append, List.length_append, List.length_append, hj, List.length_singleton]
    omega
  · have hname : Holds (pre ++ (name ++ [0]) ++ (unescaped value ++ 0 :: j)) pre.length name := by
      have := holds_append hn pre (unescaped value ++ 0 :: j)
      simpa using this
    have hvalue := holds_append (zero_notMem_unescaped hv) (pre ++ (name ++ [0])) j
    have hold : Stored (pre ++ (name ++ [0]) ++ (unescaped value ++ 0 :: j)) st.nameValue es :=
      (hs.append _).append _
    rw [hpn]
    exact hold.insert hname hvalue

theorem Scanned.endSegment_succeeds (h : Scanned st pre cur (38 :: rest) tail es) :
    Succeeds st.endSegment fun r => ∃ pre',
      Scanned { r with p := r.p + 1 } pre' [] rest tail (addSegment es cur) := by
  have hz := h.noZero
  rw [List.mem_append, not_or, List.mem_cons, not_or] at hz
  unfold Scan.endSegment
  rw [h.isPair_eq]
  simp only [Option.bind_eq_bind, Option.bind_some]
  cases hp : pairOf cur with
  | none =>
    simp only [Option.isSome_none, Bool.false_eq_true, if_false, Option.bind_some, succeeds_some]
    have hadd : addSegment es cur = es := by rw [addSegment, hp]
    rw [hadd]
    have hlen : (pre ++ cur ++ [38]).length = st.p + 1 := by
      rw [h.p, List.length_append, List.length_append, List.length_singleton]
    refine ⟨pre ++ cur ++ [38], ?_, by simp, by simpa using hz.2.2, hlen.symm, ?_, ?_, ?_⟩
    · rw [h.buf]
      simp
    · simp [eqPos, h.p, Nat.add_assoc]
    · simp [h.p, Nat.add_assoc]
    · exact (h.stored.append cur).append [38]
  | some e =>
    obtain ⟨hcur, hne, hn⟩ := pairOf_eq_some hp
    have hadd : addSegment es cur = insertEntry es (e.1, unescaped e.2) := by rw [addSegment, hp]
    have hzc := hz.1
    rw [hcur, List.mem_append, not_or, List.mem_cons, not_or] at hzc
    have hpv : st.pvaluebegin = pre.length + e.1.length := by
      rw [h.pvaluebegin, hcur, eqPos_append hn]
    have hcut : (st.buf.set st.pvaluebegin 0).set st.p 0 =
        pre ++ (e.1 ++ [0]) ++ (e.2 ++ 0 :: (rest ++ 0 :: tail)) := by
      rw [h.buf, hpv, h.p, hcur]
      simp
    simp only [Option.isSome_some, if_true]
    rw [hcut, hadd]
    refine (insertPair_succeeds h.stored hzc.1 hzc.2.2 h.pnamebegin hpv).bind ?_
    rintro r ⟨pre', hlen, hbuf, hrp, hst⟩
    have hp' : r.p + 1 = pre'.length := by
      rw [hrp, h.p, hlen, hcur, List.length_append, List.length_cons]
      omega
    refine succeeds_some.mpr ⟨pre', ?_, by simp, by simpa using hz.2.2, hp', ?_, ?_, hst⟩
    · simp [hbuf]
    · simp [eqPos, hp']
    · simp [hp']

theorem Scanned.advance (h : Scanned st pre cur (c :: rest) tail es) (hc : c ≠ 38) :
    Succeeds (do
        let v ← st.buf[st.pvaluebegin]?
        some (if c = 61 ∧ v ≠ 61 then { st with pvaluebegin := st.p } else st)) fun r =>
      Scanned { r with p := r.p + 1 } pre (cur ++ [c]) rest tail es := by
  have hread : ∃ v, st.buf[st.pvaluebegin]? = some v ∧
      (if c = 61 ∧ v ≠ 61 then st.p else st.pvaluebegin) = pre.length + eqPos (cur ++ [c]) := by
    rw [h.buf, h.pvaluebegin, getElem?_segment, eqPos_append_singleton, h.p]
    by_cases hm : 61 ∈ cur
    · obtain ⟨name, value, rfl, hn⟩ := List.eq_append_cons_of_mem hm
      exact ⟨61, by simp [eqPos_append hn], by simp⟩
    · rw [eqPos, if_neg hm]
      cases cur with
      | nil => exact ⟨c, by simp, by simp⟩
      | cons x cur =>
        have hx : x ≠ 61 := fun he => hm (by simp [he])
        refine ⟨x, by simp, ?_⟩
        by_cases h61 : c = 61 <;> simp [h61, hx, hm]
  obtain ⟨v, hv, hpos⟩ := hread
  rw [hv]
  simp only [Option.bind_eq_bind, Option.bind_some, succeeds_some]
  have hr : (if c = 61 ∧ v ≠ 61 then { st with pvaluebegin := st.p } else st) =
      { st with pvaluebegin := pre.length + eqPos (cur ++ [c]) } := by
    rw [← hpos]
    split <;> rfl
  rw [hr]
  refine ⟨?_, ?_, ?_, h.pnamebegin, rfl, ?_, h.stored⟩
  · simp [h.buf]
  · simpa [Ne.symm hc] using h.noAmp
  · simpa using h.noZero
  · simp [h.p, Nat.add_assoc]

/-- The loop reads to the end of the string; the segment it ends in is the last
one, and those before it are bound. -/
theorem Scanned.loop_succeeds {fuel : ℕ} (h : Scanned st pre cur rest tail es)
    (hf : rest.length < fuel) :
    Succeeds (Scan.loop fuel st) fun r => ∃ pre' cur' es', Scanned r pre' cur' [] tail es' ∧
      addSegment es' cur' = ((cur ++ rest).splitOn 38).foldl addSegment es := by
  induction rest generalizing fuel st pre cur es with
  | nil =>
    obtain ⟨n, rfl⟩ := Nat.exists_eq_succ_of_ne_zero (Nat.ne_zero_of_lt hf)
    have h0 : st.buf[st.p]? = some 0 := by
      rw [h.buf, h.p, ← List.length_append, ← Nat.add_zero (pre ++ cur).length]
      simp
    unfold Scan.loop
    rw [h0, Option.bind_eq_bind, Option.bind_some, if_pos rfl, succeeds_some]
    refine ⟨pre, cur, es, h, ?_⟩
    rw [List.append_nil, List.splitOn_eq_singleton h.noAmp]
    rfl
  | cons c rest ih =>
    obtain ⟨n, rfl⟩ := Nat.exists_eq_succ_of_ne_zero (Nat.ne_zero_of_lt hf)
    have hf' : rest.length < n := by simpa using hf
    have h0 : st.buf[st.p]? = some c := by
      rw [h.buf, h.p, ← List.length_append]
      simp
    have hc : c ≠ 0 := fun he => h.noZero (by simp [he])
    unfold Scan.loop
    rw [h0, Option.bind_eq_bind, Option.bind_some, if_neg hc]
    by_cases hamp : c = 38
    · subst hamp
      rw [if_pos rfl]
      refine h.endSegment_succeeds.bind ?_
      rintro r ⟨pre', hr⟩
      refine (ih hr hf').mono ?_
      rintro r ⟨pre'', cur', es', hr, he⟩
      refine ⟨pre'', cur', es', hr, ?_⟩
      rw [he, List.splitOn_append_cons_self_of_not_mem h.noAmp]
      rfl
    · rw [if_neg hamp]
      refine (h.advance hamp).bind fun r hr => ?_
      have hrest := ih hr hf'
      rw [List.append_assoc] at hrest
      exact hrest

theorem Scanned.finish_succeeds (h : Scanned st pre cur [] tail es) :
    Succeeds st.finish fun r => ∃ pre', r.buf = pre' ++ tail ∧
      Stored pre' r.nameValue (addSegment es cur) := by
  have hz := h.noZero
  rw [List.append_nil] at hz
  unfold Scan.finish
  rw [h.isPair_eq]
  simp only [Option.bind_eq_bind, Option.bind_some]
  cases hp : pairOf cur with
  | none =>
    have hadd : addSegment es cur = es := by rw [addSegment, hp]
    rw [Option.isSome_none, if_neg (by simp), succeeds_some, hadd]
    refine ⟨pre ++ cur ++ [0], ?_, (h.stored.append cur).append [0]⟩
    rw [h.buf]
    simp
  | some e =>
    obtain ⟨hcur, hne, hn⟩ := pairOf_eq_some hp
    have hadd : addSegment es cur = insertEntry es (e.1, unescaped e.2) := by rw [addSegment, hp]
    rw [hcur, List.mem_append, not_or, List.mem_cons, not_or] at hz
    have hpv : st.pvaluebegin = pre.length + e.1.length := by
      rw [h.pvaluebegin, hcur, eqPos_append hn]
    have hcut : st.buf.set st.pvaluebegin 0 =
        pre ++ (e.1 ++ [0]) ++ (e.2 ++ 0 :: tail) := by
      rw [h.buf, hpv, hcur]
      simp
    rw [Option.isSome_some, if_pos rfl, hcut, hadd]
    refine (insertPair_succeeds h.stored hz.1 hz.2.2 h.pnamebegin hpv).mono ?_
    rintro r ⟨pre', -, hbuf, -, hst⟩
    exact ⟨pre', hbuf, hst⟩

end Segments

theorem recv_succeeds (d : HttpQuery) (queryString : Bytes) :
    Succeeds (d.recv queryString) fun r => Stored r.httpQueryString r.nameValue
      (((cstr queryString).splitOn 38).foldl addSegment []) := by
  have hz := zero_notMem_cstr queryString
  unfold recv
  generalize d.httpQueryString.drop (strlen queryString + 1) = tail
  generalize cstr queryString = q at hz ⊢
  have hscan : Scanned ⟨q ++ 0 :: tail, [], 0, 0, 0⟩ [] [] q tail [] := by
    constructor <;> simp [eqPos, hz]
  refine (hscan.loop_succeeds (by simp only [List.length_append, List.length_cons]; omega)).bind ?_
  rintro st ⟨pre, cur, es, hst, hes⟩
  refine hst.finish_succeeds.bind ?_
  rintro r ⟨pre', hbuf, hstored⟩
  rw [succeeds_some, hbuf]
  rw [hes] at hstored
  exact hstored.append tail

theorem Stored.get_eq_valueOf {r : HttpQuery} {q : Bytes}
    (h : Stored r.httpQueryString r.nameValue ((q.splitOn 38).foldl addSegment [])) (name : Bytes) :
    r.get name = valueOf q (cstr name) := by
  have hget : r.get name = lookup ((q.splitOn 38).foldl addSegment []) (cstr name) := h.get_eq name
  rw [hget, lookup_foldl_addSegment]
  rfl

/-- After any query string has been taken apart, every name has the value that
the grammar gives it. -/
theorem recv_get (d : HttpQuery) (queryString : Bytes) :
    Succeeds (d.recv queryString) fun r => ∀ name,
      r.get name = valueOf (cstr queryString) (cstr name) :=
  (recv_succeeds d queryString).mono fun _ hr name => hr.get_eq_valueOf name

end YlUtils.HttpQuery
