import Mathlib.Logic.Function.Basic
import YlUtils.Dict.Image
import YlUtils.Runs.Succeeds

/-! # Dictionaries and their files

Any number of dictionaries insert terms, save files and load the files that were
saved. Whatever the order, the identifiers of each are those up to its greatest
one, and a term keeps its identifier until the dictionary loads a file.
-/

namespace YlUtils.Dict

structure World (ι : Type) where
  dicts : ι → Dict
  files : String → Option Bytes

/-- The calls of the dictionaries. Opening a file may fail with an error. -/
inductive Call (ι : Type)
  | insertSign (i : ι) (sign : TSign)
  | insertTerm (i : ι) (term : Bytes)
  | save (i : ι) (dictf : String) (it : Iteration) (openError : Option String)
  | load (i : ι) (dictf : String) (openError : Option String)

namespace Call

variable {ι : Type}

def inserted : Call ι → Option (ι × TSign)
  | insertSign i sign => some (i, sign)
  | insertTerm i term => some (i, YeeSign.getSign term)
  | _ => none

def Loads (i : ι) : Call ι → Prop
  | load j _ _ => j = i
  | _ => False

/-- The number of insertions among the calls. -/
def inserts (cs : List (Call ι)) : ℕ := cs.countP fun c => c.inserted.isSome

/-- The length of a term is an `int`. -/
def Fits : Call ι → Prop
  | insertTerm _ term => strlen term < 2 ^ 31
  | _ => True

end Call

namespace World

variable {ι : Type}

def init : World ι := ⟨fun _ => new, fun _ => none⟩

def openFile (w : World ι) (dictf : String) : Option String → Except String Bytes
  | some e => .error e
  | none => match w.files dictf with
    | none => .error "No such file or directory"
    | some file => .ok file

variable [DecidableEq ι]

def step (w : World ι) : Call ι → Option (World ι)
  | .insertSign i sign =>
    some { w with dicts := Function.update w.dicts i ((w.dicts i).insertSign sign).2 }
  | .insertTerm i term => do
    let r ← (w.dicts i).insertTerm term
    some { w with dicts := Function.update w.dicts i r.2 }
  | .save i dictf it openError =>
    match (w.dicts i).save dictf it openError with
    | .error _ => some w
    | .ok file => some { w with files := Function.update w.files dictf (some file) }
  | .load i dictf openError =>
    some { w with dicts :=
      Function.update w.dicts i ((w.dicts i).load dictf (w.openFile dictf openError)).2 }

def run (w : World ι) (cs : List (Call ι)) : Option (World ι) := cs.foldlM step w

/-- Dictionaries and files hold at most `n` terms, numbered from zero. -/
structure Numbered (n : ℕ) (w : World ι) : Prop where
  dicts : ∀ i, (w.dicts i).Identified ∧ (w.dicts i).size ≤ n
  files : ∀ dictf file, w.files dictf = some file → ∃ (d : Dict) (it : Iteration),
    d.Identified ∧ d.size ≤ n ∧ d.save dictf it none = .ok file

variable {n : ℕ} {w : World ι} {c : Call ι} {cs cs' : List (Call ι)} {i : ι} {sign s : TSign}

omit [DecidableEq ι] in
theorem init_numbered : Numbered 0 (init : World ι) :=
  ⟨fun _ => ⟨new_identified, Nat.le_refl 0⟩, fun _ _ h => absurd h (by simp [init])⟩

omit [DecidableEq ι] in
theorem Numbered.mono {m : ℕ} (h : Numbered n w) (hm : n ≤ m) : Numbered m w := by
  constructor
  · intro i
    exact ⟨(h.dicts i).1, (h.dicts i).2.trans hm⟩
  · intro dictf file hfile
    obtain ⟨d, it, hd, hsize, hsave⟩ := h.files dictf file hfile
    exact ⟨d, it, hd, hsize.trans hm, hsave⟩

theorem Numbered.update (h : Numbered n w) {d : Dict} (hd : d.Identified ∧ d.size ≤ n) :
    Numbered n { w with dicts := Function.update w.dicts i d } := by
  constructor
  · intro j
    by_cases hj : j = i
    · subst hj
      simpa using hd
    · simpa [hj] using h.dicts j
  · exact h.files

theorem Numbered.insert (h : Numbered n w) (hn : n + 1 < 2 ^ 31) (i : ι) (sign : TSign) :
    Numbered (n + 1)
      { w with dicts := Function.update w.dicts i ((w.dicts i).insertSign sign).2 } := by
  obtain ⟨hd, hsize⟩ := h.dicts i
  obtain ⟨hd', hsize'⟩ := hd.insertSign (show (w.dicts i).size + 1 < 2 ^ 31 by omega) sign
  exact (h.mono (Nat.le_succ n)).update ⟨hd', by omega⟩

theorem Numbered.save (h : Numbered n w) (i : ι) (dictf : String) (it : Iteration)
    (openError : Option String) : Succeeds (w.step (.save i dictf it openError)) (Numbered n) := by
  cases openError with
  | some e => exact succeeds_some.mpr h
  | none =>
    refine succeeds_some.mpr ⟨h.dicts, ?_⟩
    intro f file hfile
    by_cases hf : f = dictf
    · subst hf
      obtain ⟨hd, hsize⟩ := h.dicts i
      refine ⟨w.dicts i, it, hd, hsize, ?_⟩
      have hsave : some _ = some file := (Function.update_self f _ w.files).symm.trans hfile
      exact congrArg Except.ok (Option.some.inj hsave)
    · exact h.files f file ((Function.update_of_ne hf _ w.files).symm.trans hfile)

theorem Numbered.load (h : Numbered n w) (hn : n < 2 ^ 31) (i : ι) (dictf : String)
    (openError : Option String) : Succeeds (w.step (.load i dictf openError)) (Numbered n) := by
  apply succeeds_some.mpr
  apply h.update
  unfold openFile
  cases openError with
  | some e => exact h.dicts i
  | none =>
    cases hfile : w.files dictf with
    | none => exact h.dicts i
    | some file =>
      obtain ⟨d, it, hd, hsize, hsave⟩ := h.files dictf file hfile
      obtain ⟨m, hm, hload⟩ := load_save hd (by omega) hsave (w.dicts i) dictf
      dsimp only
      rw [hload]
      exact ⟨hd.of_perm rfl hm, hm.length_eq.trans_le hsize⟩

/-- A term is inserted as its signature. -/
theorem step_insertTerm {term : Bytes} (h : strlen term < 2 ^ 31) :
    w.step (.insertTerm i term) = w.step (.insertSign i (YeeSign.getSign term)) := by
  simp only [World.step, Dict.insertTerm, YeeSign.getSignCStr_eq h, Option.map_some,
    Option.bind_eq_bind, Option.bind_some]

theorem Numbered.step (h : Numbered n w) (hc : c.Fits) (hn : n + Call.inserts [c] < 2 ^ 31) :
    Succeeds (w.step c) (Numbered (n + Call.inserts [c])) := by
  cases c with
  | insertSign i sign => exact succeeds_some.mpr (h.insert hn i sign)
  | insertTerm i term =>
    rw [step_insertTerm hc]
    exact succeeds_some.mpr (h.insert hn i (YeeSign.getSign term))
  | save i dictf it openError => exact h.save i dictf it openError
  | load i dictf openError => exact h.load hn i dictf openError

theorem Numbered.run (h : Numbered n w) (hk : ∀ c ∈ cs, c.Fits)
    (hn : n + Call.inserts cs < 2 ^ 31) :
    Succeeds (w.run cs) (Numbered (n + Call.inserts cs)) := by
  induction cs generalizing n w with
  | nil => exact succeeds_some.mpr h
  | cons c cs ih =>
    have hcons : Call.inserts (c :: cs) = Call.inserts [c] + Call.inserts cs := by
      unfold Call.inserts
      rw [← List.countP_append, List.singleton_append]
    rw [hcons, ← Nat.add_assoc] at hn ⊢
    obtain ⟨hc, hk⟩ := List.forall_mem_cons.mp hk
    exact (h.step hc (by omega)).bind fun w' h' => ih h' hk hn

theorem find_step (hfits : c.Fits) (hc : ¬ c.Loads i) {info : TermInfo}
    (h : (w.dicts i).mDictMap.find s = some info) :
    Succeeds (w.step c) fun w' =>
      ∃ info', (w'.dicts i).mDictMap.find s = some info' ∧ info'.termID = info.termID := by
  have hinsert : ∀ j sign, ∃ info', (Function.update w.dicts j ((w.dicts j).insertSign sign).2 i
      ).mDictMap.find s = some info' ∧ info'.termID = info.termID := by
    intro j sign
    by_cases hj : i = j
    · subst hj
      rw [Function.update_self]
      exact find_insertSign h sign
    · rw [Function.update_of_ne hj]
      exact ⟨info, h, rfl⟩
  cases c with
  | insertSign j sign => exact succeeds_some.mpr (hinsert j sign)
  | insertTerm j term =>
    rw [step_insertTerm hfits]
    exact succeeds_some.mpr (hinsert j (YeeSign.getSign term))
  | save j dictf it openError =>
    cases openError with
    | some e => exact succeeds_some.mpr ⟨info, h, rfl⟩
    | none => exact succeeds_some.mpr ⟨info, h, rfl⟩
  | load j dictf openError =>
    refine succeeds_some.mpr ⟨info, ?_, rfl⟩
    change (Function.update w.dicts j _ i).mDictMap.find s = some info
    rw [Function.update_of_ne fun hj => hc hj.symm]
    exact h

theorem find_run (hk : ∀ c ∈ cs, c.Fits) (hcs : ∀ c ∈ cs, ¬ c.Loads i) {info : TermInfo}
    (h : (w.dicts i).mDictMap.find s = some info) :
    Succeeds (w.run cs) fun w' =>
      ∃ info', (w'.dicts i).mDictMap.find s = some info' ∧ info'.termID = info.termID := by
  induction cs generalizing w info with
  | nil => exact succeeds_some.mpr ⟨info, h, rfl⟩
  | cons c cs ih =>
    obtain ⟨hc, hk⟩ := List.forall_mem_cons.mp hk
    obtain ⟨hload, hcs⟩ := List.forall_mem_cons.mp hcs
    refine (find_step hc hload h).bind ?_
    rintro w' ⟨info', h', hid⟩
    refine (ih hk hcs h').mono ?_
    rintro w'' ⟨info'', h'', hid'⟩
    exact ⟨info'', h'', hid'.trans hid⟩

theorem termFreqOf_step (hfits : c.Fits) (hc : ¬ c.Loads i) :
    Succeeds (w.step c) fun w' => (w'.dicts i).termFreqOf s =
      (w.dicts i).termFreqOf s + if c.inserted = some (i, s) then 1 else 0 := by
  have hinsert : ∀ j sign, (Function.update w.dicts j ((w.dicts j).insertSign sign).2 i
      ).termFreqOf s =
        (w.dicts i).termFreqOf s + if some (j, sign) = some (i, s) then 1 else 0 := by
    intro j sign
    by_cases hj : i = j
    · subst hj
      rw [Function.update_self, termFreqOf_insertSign]
      simp [eq_comm]
    · rw [Function.update_of_ne hj]
      simp [Ne.symm hj]
  cases c with
  | insertSign j sign => exact succeeds_some.mpr (hinsert j sign)
  | insertTerm j term =>
    rw [step_insertTerm hfits]
    exact succeeds_some.mpr (hinsert j (YeeSign.getSign term))
  | save j dictf it openError =>
    cases openError with
    | some e => simp [World.step, Dict.save, Call.inserted]
    | none => simp [World.step, Dict.save, Call.inserted]
  | load j dictf openError =>
    refine succeeds_some.mpr ?_
    change (Function.update w.dicts j _ i).termFreqOf s = _
    rw [Function.update_of_ne fun hj => hc hj.symm]
    simp [Call.inserted]

theorem termFreqOf_run (hk : ∀ c ∈ cs, c.Fits) (hcs : ∀ c ∈ cs, ¬ c.Loads i) :
    Succeeds (w.run cs) fun w' => (w'.dicts i).termFreqOf s =
      (w.dicts i).termFreqOf s + .ofNat (cs.countP fun c => c.inserted = some (i, s)) := by
  induction cs generalizing w with
  | nil => exact succeeds_some.mpr (by simp)
  | cons c cs ih =>
    obtain ⟨hc, hk⟩ := List.forall_mem_cons.mp hk
    obtain ⟨hload, hcs⟩ := List.forall_mem_cons.mp hcs
    refine (termFreqOf_step (s := s) hc hload).bind fun w' hw' =>
      (ih hk hcs).mono fun w'' hw'' => ?_
    rw [hw'', hw', UInt32.add_assoc, List.countP_cons, Nat.add_comm, UInt32.ofNat_add]
    by_cases hins : c.inserted = some (i, s) <;> simp [hins]

/-- After any calls, on terms whose lengths are of type `int`, the identifiers of every dictionary
are those up to its greatest one. What an insertion returns is stored, later lookups and insertions
return it until a file is loaded, and without a load the frequency of a signature is the number of
its insertions. -/
theorem run_identifiers (cs cs' : List (Call ι)) (hk : ∀ c ∈ cs ++ cs', c.Fits)
    (h : Call.inserts (cs ++ cs') < 2 ^ 31) (i : ι) (s : TSign) :
    Succeeds ((init : World ι).run cs) fun w => Succeeds (w.run cs') fun w' =>
      let d := w.dicts i
      let d' := w'.dicts i
      d.Identified ∧ (d.insertSign s).2.idOf s = some (d.insertSign s).1 ∧
        ((∀ c ∈ cs', ¬ c.Loads i) → ∀ id, d.idOf s = some id →
          d'.getSignID s = id ∧ (d'.insertSign s).1 = id) ∧
        ((∀ c ∈ cs, ¬ c.Loads i) →
          (d.termFreqOf s).toNat = cs.countP fun c => c.inserted = some (i, s)) := by
  have hsum : Call.inserts (cs ++ cs') = Call.inserts cs + Call.inserts cs' := List.countP_append
  rw [hsum] at h
  obtain ⟨hk, hk'⟩ := List.forall_mem_append.mp hk
  obtain ⟨w, hw, hnum⟩ := init_numbered.run hk (show 0 + Call.inserts cs < 2 ^ 31 by omega)
  obtain ⟨w', hw', -⟩ := hnum.run hk' (by omega)
  refine ⟨w, hw, w', hw', (hnum.dicts i).1, ?_, ?_, ?_⟩
  · obtain ⟨info, hinfo, hid⟩ := getSignID_insertSign (w.dicts i) s
    rw [idOf, hinfo, ← hid]
    rfl
  · intro hcs' id hd
    obtain ⟨info, hinfo, rfl⟩ := Option.map_eq_some_iff.mp hd
    obtain ⟨info', hinfo', hid'⟩ := (find_run hk' hcs' hinfo).of_eq hw'
    constructor
    · rw [getSignID, hinfo']
      exact hid'
    · rw [insertSign_of_find hinfo']
      exact hid'
  · intro hcs
    have hle : (cs.countP fun c => c.inserted = some (i, s)) ≤ Call.inserts cs :=
      List.countP_mono_left fun c _ hc => by
        rw [decide_eq_true_eq] at hc
        rw [hc]
        rfl
    have hzero : ((init : World ι).dicts i).termFreqOf s = 0 := rfl
    rw [(termFreqOf_run hk hcs).of_eq hw, hzero, UInt32.zero_add,
      UInt32.toNat_ofNat_of_lt' (by change _ < 2 ^ 32; omega)]

/-- A dictionary that loads the file of another one, and inserts a term of it again. -/
theorem run_identifiers_load :
    Succeeds ((init : World Bool).run [.insertSign false ⟨1, 2⟩, .insertTerm false [97],
        .save false "dict.img" ⟨fun m => m.entries, fun _ => .refl _⟩ none,
        .load true "dict.img" none]) fun w =>
      Succeeds (w.run [.insertTerm true [98], .insertTerm true [97]]) fun w' =>
        (w.dicts true).Identified ∧ (w.dicts true).size = 2 ∧
          (w'.dicts true).getSignID (YeeSign.getSign [97]) = 1 := by
  obtain ⟨w, hw, w', hw', hid, -, hkeep, -⟩ := run_identifiers
    [.insertSign false ⟨1, 2⟩, .insertTerm false [97],
      .save false "dict.img" ⟨fun m => m.entries, fun _ => .refl _⟩ none,
      .load true "dict.img" none]
    [.insertTerm true [98], .insertTerm true [97]]
    (by simp [Call.Fits, strlen, cstr]) (by decide) true (YeeSign.getSign [97])
  have hcheck : ((init : World Bool).run [.insertSign false ⟨1, 2⟩, .insertTerm false [97],
      .save false "dict.img" ⟨fun m => m.entries, fun _ => .refl _⟩ none,
      .load true "dict.img" none]).map (fun w => ((w.dicts true).size,
        (w.dicts true).idOf (YeeSign.getSign [97]))) = some (2, some 1) := by decide +kernel
  rw [hw, Option.map_some, Option.some_inj, Prod.mk.injEq] at hcheck
  exact ⟨w, hw, w', hw', hid, hcheck.1, (hkeep (by simp [Call.Loads]) 1 hcheck.2).1⟩

/-- The length of a term of `2 ^ 31` bytes is negative as an `int`. -/
theorem long_term_fails : ¬ Succeeds ((init : World Unit).run
    [.insertTerm () (List.replicate (2 ^ 31) 97)]) fun w => (w.dicts ()).Identified := by
  have hsign : YeeSign.getSignCStr (List.replicate (2 ^ 31) 97) = none :=
    YeeSign.getSignCStr_long (fun h => absurd (List.eq_of_mem_replicate h) (by decide))
      (List.length_replicate ▸ Nat.le_refl _) (by rw [List.length_replicate]; omega)
  rw [run, List.foldlM_cons]
  simp only [World.step, Dict.insertTerm, hsign, Option.map_none, Option.bind_eq_bind,
    Option.bind_none, not_succeeds_none, not_false_eq_true]

end World

end YlUtils.Dict
