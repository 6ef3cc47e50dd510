import YlUtils.Dict.Identifiers

/-! # Saving and loading

A saved file is read back as the entries that were written, in any dictionary
that loads it.
-/

namespace YlUtils

namespace TermPair

variable {p : TermPair} {l : List TermPair}

@[simp] theorem bytes_length (p : TermPair) : p.bytes.length = sizeofTermPair := rfl

theorem ofBytes_bytes (h₀ : -2 ^ 31 ≤ p.2.termID) (h : p.2.termID < 2 ^ 31) (t : Bytes) :
    ofBytes (p.bytes ++ t) = p := by
  obtain ⟨⟨s1, s2⟩, id, freq, doc, weight⟩ := p
  have hid : intOf (wordAt (intBytes id ++
      (wordBytes freq ++ wordBytes doc ++ wordBytes weight ++ t))) = id := by
    rw [intBytes, wordAt_wordBytes, intOf_ofInt h₀ h]
  -- each word is read from where the words before it end
  exact congrArg₂ Prod.mk
    (congrArg₂ TSign.mk (wordAt_wordBytes s1 _) (wordAt_wordBytes s2 _))
    (by
      refine congr (congr (congrArg₂ TermInfo.mk hid (wordAt_wordBytes freq _)) ?_) ?_
      · exact wordAt_wordBytes doc _
      · exact wordAt_wordBytes weight _)

theorem array_flatMap (h : ∀ p ∈ l, -2 ^ 31 ≤ p.2.termID ∧ p.2.termID < 2 ^ 31) (t : Bytes) :
    array l.length (l.flatMap bytes ++ t) = l := by
  induction l with
  | nil => rfl
  | cons p l ih =>
    have hp := h p List.mem_cons_self
    rw [List.flatMap_cons, List.append_assoc, List.length_cons, array, ofBytes_bytes hp.1 hp.2,
      List.drop_left' (bytes_length p), ih fun q hq => h q (List.mem_cons_of_mem p hq)]

theorem flatMap_bytes_length (l : List TermPair) :
    (l.flatMap bytes).length = l.length * sizeofTermPair := by
  induction l with
  | nil => rfl
  | cons p l ih =>
    rw [List.flatMap_cons, List.length_append, ih, bytes_length, List.length_cons, Nat.succ_mul,
      Nat.add_comm]

end TermPair

namespace Dict

variable {d : Dict} {dictf : String} {it : Iteration} {file : Bytes}

theorem load_save (h : d.Identified) (hsize : d.size < 2 ^ 31)
    (hsave : d.save dictf it none = .ok file) (d₀ : Dict) (dictf' : String) :
    ∃ m : DictHashMap, m.entries.Perm d.mDictMap.entries ∧
      d₀.load dictf' (.ok file) = (.ok (), ⟨d.mCurrMaxID, m⟩) := by
  have hmax := h.size
  have hperm := it.perm d.mDictMap
  have hlen : (it.order d.mDictMap).length = d.size := hperm.length_eq
  have hids : ∀ p ∈ it.order d.mDictMap, -2 ^ 31 ≤ p.2.termID ∧ p.2.termID < 2 ^ 31 := by
    intro p hp
    have hmem : p.2.termID ∈ d.termIDs := List.mem_map_of_mem (hperm.mem_iff.mp hp)
    have hr := (h.range _).mp hmem
    omega
  have hnodup : ((it.order d.mDictMap).map Prod.fst).Nodup :=
    (hperm.map Prod.fst).nodup_iff.mpr d.mDictMap.nodup
  obtain rfl : intBytes d.mCurrMaxID ++ intBytes d.size ++
      (it.order d.mDictMap).flatMap TermPair.bytes = file := Except.ok.inj hsave
  refine ⟨.ofList (it.order d.mDictMap), ?_, ?_⟩
  · rw [UniqueMap.ofList_entries hnodup]
    exact hperm
  · have hread := overwriteInt_intBytes (n := d₀.mCurrMaxID) (m := d.mCurrMaxID) (by omega)
      (by omega) []
    have hnum : (UInt32.ofInt (d.size : ℤ)).toNat = d.size := ofInt_natCast_toNat (by omega)
    have harray := TermPair.array_flatMap hids []
    have hbytes := TermPair.flatMap_bytes_length (it.order d.mDictMap)
    rw [List.append_nil] at hread harray
    rw [hlen] at harray hbytes
    generalize (it.order d.mDictMap).flatMap TermPair.bytes = rest at harray hbytes
    have htake : (intBytes d.mCurrMaxID ++ intBytes d.size ++ rest).take 4 =
        intBytes d.mCurrMaxID := rfl
    have hword : wordAt ((intBytes d.mCurrMaxID ++ intBytes d.size ++ rest).drop 4) =
        UInt32.ofInt d.size := wordAt_wordBytes _ rest
    have hrest : (intBytes d.mCurrMaxID ++ intBytes d.size ++ rest).drop 8 = rest := rfl
    have hfile : (intBytes d.mCurrMaxID ++ intBytes d.size ++ rest).length =
        8 + d.size * sizeofTermPair := by
      rw [List.length_append, List.length_append, hbytes, intBytes_length, intBytes_length]
    unfold load
    simp only [htake, hread, hword, hrest, hfile, hnum, harray, ← hmax]
    rw [if_neg (by omega), if_neg (UInt32.lt_irrefl _), if_neg (by omega)]

end Dict

end YlUtils
