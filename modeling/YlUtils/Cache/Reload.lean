import YlUtils.Cache.Lookup
import YlUtils.Cache.Twin

/-! # What is loaded after a save

A cache whose numbers are within `int` comes out of its files as its twin, in any
object that can load at all. An object whose arrays were deleted by an earlier
`load` that failed cannot.
-/

namespace YlUtils

namespace CacheManager

variable {T : Type} {R : PlainData T} {c d : CacheManager T} {o p : Object T} {fs : Files}

theorem Twin.init (c : CacheManager T) (s : UInt32) (fresh : ℤ → T × TSign) :
    Option.Rel Twin (c.init s fresh) (c.init s fresh) := by
  unfold CacheManager.init
  simp only [Option.bind_eq_bind]
  refine rel_bind (Twin.modifyItem ?_ 0 fun it hit => ⟨hit.1, hit.2.1, fits_neg_one⟩) ?_
  · constructor
    · rfl
    · rfl
    · rfl
    · rfl
    · exact fun _ _ => rfl
    · exact fun _ _ => rfl
    · exact ⟨(show Representation.int.Fits 0 by constructor <;> decide), fits_intOf _⟩
    · exact ⟨fits_neg_one, fits_neg_one⟩
    · exact fun _ _ => ⟨⟨fits_neg_one, fits_neg_one⟩, fits_intOf _, fits_intOf _⟩
    · exact fun _ _ => fits_neg_one
  · intro c' d' h'
    exact h'.modifyItem _ fun it hit => ⟨hit.1, fits_neg_one, hit.2.2⟩

namespace Layout

variable {w : View T} {A : Slots T} {n : ℕ}

theorem filter_notMem_drop {l : List ℤ} (h : l.Nodup) (n : ℕ) :
    l.filter (· ∉ l.drop n) = l.take n := by
  have hdisj := (List.nodup_append.mp ((List.take_append_drop n l).symm ▸ h)).2.2
  have htake : (l.take n).filter (· ∉ l.drop n) = l.take n := by
    apply List.filter_eq_self.mpr
    intro x hx
    simpa using fun hd => hdisj x hx x hd rfl
  have hdrop : (l.drop n).filter (· ∉ l.drop n) = [] := by
    apply List.filter_eq_nil_iff.mpr
    intro x hx
    simpa using hx
  calc l.filter (· ∉ l.drop n) = (l.take n ++ l.drop n).filter (· ∉ l.drop n) := by
        rw [List.take_append_drop]
    _ = l.take n := by rw [List.filter_append, htake, hdrop, List.append_nil]

theorem reclaimed_eq (h : Layout w A) (hc : c.view = w) (hn : n ≤ A.busy.length) :
    c.reclaimed n = some ((A.busy.take n).map A.entry) := by
  induction n generalizing c w A with
  | zero => rfl
  | succ n ih =>
    obtain ⟨k, busy, hb⟩ := List.exists_cons_of_length_pos (Nat.zero_lt_of_lt hn)
    have hk : k ∈ A.busy := hb ▸ List.mem_cons_self
    have hhead : c.busyList.next = k := by
      have hhead := h.busy.head_eq
      rw [hb, ← hc] at hhead
      exact hhead
    obtain ⟨d, hd, -, hlayout⟩ := h.reclaimOne_succeeds hc (List.ne_nil_of_mem hk)
    have hrest : (A.evictOne w.size).busy = busy := by
      rw [Slots.evictOne_busy, hb]
      rfl
    have hlen : n ≤ (A.evictOne w.size).busy.length := by
      rw [hrest]
      rw [hb] at hn
      exact Nat.le_of_succ_le_succ hn
    have hentry : ((c.pvalue k).sign, (c.pvalue k).value) = A.entry k := by
      rw [pvalue_sign, pvalue_value, hc, h.entry_eq]
    unfold reclaimed
    rw [hhead, item_of_inRange hc (h.inRange_busy hk), hd]
    simp only [Option.bind_eq_bind, Option.bind_some, ih hlayout rfl hlen, hentry, hrest,
      Slots.evictOne_entry, hb, List.take_succ_cons, List.map_cons]

/-- What a call evicts is what the cache is seen to forget. -/
theorem evictions_eq (h : Layout w A) (hc : c.view = w) {e : Call T} {o : Op T}
    (ho : e.op = some o) : ∃ l, c.evictions e = some l ∧ l.map Prod.fst = c.evicted o := by
  have hnone : A.busy.filter (· ∉ A.busy) = [] := filter_notMem_drop h.busy.nodup 0
  have hsize : c.size = w.size := congrArg View.size hc
  rw [(Laid.layout h).evicted_eq hc]
  cases e with
  | insert key value =>
    obtain ⟨sign, -, rfl⟩ := Option.map_eq_some_iff.mp ho
    change ∃ l, (if c.freeListSize = 0 then c.reclaimed (c.size / 10).toNat else some []) =
      some l ∧ l.map Prod.fst = (A.busy.filter (· ∉ (A.makeRoom w.size).busy)).map _
    by_cases hfree : A.free = []
    · rw [if_pos ((h.freeListSize_eq_zero_iff hc).mpr hfree), hsize,
        h.reclaimed_eq hc (h.quota_le_length_busy hfree), Slots.makeRoom, if_pos hfree,
        Slots.reclaim_busy, filter_notMem_drop h.busy.nodup, Slots.size_div_ten]
      exact ⟨_, rfl, List.map_map⟩
    · rw [if_neg (mt (h.freeListSize_eq_zero_iff hc).mp hfree), Slots.makeRoom, if_neg hfree, hnone]
      exact ⟨[], rfl, rfl⟩
  | remove key =>
    obtain ⟨sign, -, rfl⟩ := Option.map_eq_some_iff.mp ho
    exact ⟨[], rfl, (congrArg (List.map _) hnone).symm⟩
  | find key =>
    obtain ⟨sign, -, rfl⟩ := Option.map_eq_some_iff.mp ho
    exact ⟨[], rfl, (congrArg (List.map _) hnone).symm⟩

end Layout

namespace Object

/-- Objects with their arrays, that hold twins. -/
structure Twin (o p : Object T) : Prop where
  held : o.arrays = .held
  held' : p.arrays = .held
  cache : o.cache.Twin p.cache

theorem Twin.call (h : Twin o p) (e : Call T) :
    Option.Rel (fun r t => Twin r.1 t.1 ∧ t.2 = r.2) (o.call e) (p.call e) := by
  unfold Object.call
  rw [if_pos h.held, if_pos h.held']
  exact rel_bind (h.cache.call e) fun _ _ hr => .some ⟨⟨h.held, h.held', hr.1⟩, hr.2⟩

theorem Twin.run (h : Twin o p) (calls : List (Call T)) :
    Option.Rel Twin (o.run calls) (p.run calls) :=
  rel_foldlM (fun _ _ e h => rel_map (h.call e) fun _ _ hr => hr.1) h calls

theorem Twin.observe (h : Twin o p) (calls : List (Call T)) :
    p.observe calls = o.observe calls := by
  apply eq_of_rel
  induction calls generalizing o p with
  | nil => exact .some rfl
  | cons e es ih =>
    unfold Object.observe
    simp only [Option.bind_eq_bind]
    rw [h.cache.evictions e]
    refine rel_bind (R := fun a b => b = a) ?_ ?_
    · cases o.cache.evictions e with
      | some l => exact .some rfl
      | none => exact .none
    · rintro _ l rfl
      apply rel_bind (h.call e)
      rintro ⟨o', r⟩ ⟨p', _⟩ ⟨h', rfl⟩
      apply rel_bind (ih h')
      rintro _ rest rfl
      exact .some rfl

theorem twin_of_run {s : UInt32} {fresh : ℤ → T × TSign} {calls : List (Call T)} {o₀ : Object T}
    (h : (o₀.init s fresh).bind (·.run calls) = some o) : Twin o o := by
  have hrel : Option.Rel Twin ((o₀.init s fresh).bind (·.run calls))
      ((o₀.init s fresh).bind (·.run calls)) := by
    refine rel_bind (R := Twin) ?_ fun _ _ h => h.run calls
    unfold Object.init
    simp only [Option.bind_eq_bind]
    cases o₀.deleteArrays with
    | none => exact .none
    | some o₁ =>
      rw [Option.bind_some]
      apply rel_bind (CacheManager.Twin.init _ s fresh)
      intro c' d' h'
      exact .some ⟨rfl, rfl, h'⟩
  rw [h] at hrel
  cases hrel with
  | some hrel => exact hrel

theorem headPath_ne_idx1Path (dir : Bytes) : headPath dir ≠ idx1Path dir := by
  intro h
  exact absurd (List.append_cancel_left h) (by decide)

theorem headPath_ne_idx2Path (dir : Bytes) : headPath dir ≠ idx2Path dir := by
  intro h
  exact absurd (List.append_cancel_left h) (by decide)

theorem idx1Path_ne_idx2Path (dir : Bytes) : idx1Path dir ≠ idx2Path dir := by
  intro h
  exact absurd (List.append_cancel_left h) (by decide)

def headInts (c : CacheManager T) : ℤ → ℤ
  | 0 => intOf c.size
  | 1 => intOf c.freeListSize
  | 2 => c.freeList.next
  | 3 => c.freeList.prev
  | 4 => c.busyList.next
  | _ => c.busyList.prev

theorem writeFiles_head (R : PlainData T) (fs : Files) (o : Object T) :
    o.writeFiles R fs (headPath o.dataDir) =
      some (Representation.int.arrayBytes 6 (headInts o.cache)) := by
  have hword : ∀ w, intBytes (intOf w) = wordBytes w := fun w => by rw [intBytes, ofInt_intOf]
  have h1 := headPath_ne_idx1Path o.dataDir
  have h2 := headPath_ne_idx2Path o.dataDir
  unfold writeFiles
  simp only [ne_eq, h1, h2, not_false_eq_true, Files.fwrite_of_ne, Files.openWrite_of_ne,
    Files.fwrite_self, Files.openWrite_self, Option.getD_some, List.nil_append]
  have harray : Representation.int.arrayBytes 6 (headInts o.cache) =
      intBytes (intOf o.cache.size) ++ (intBytes (intOf o.cache.freeListSize) ++
        (intBytes o.cache.freeList.next ++ (intBytes o.cache.freeList.prev ++
          (intBytes o.cache.busyList.next ++ (intBytes o.cache.busyList.prev ++ []))))) := rfl
  rw [harray, hword, hword, List.append_nil, ← List.append_assoc, ← List.append_assoc,
    ← List.append_assoc]
  rfl

theorem writeFiles_idx1 (R : PlainData T) (fs : Files) (o : Object T) :
    o.writeFiles R fs (idx1Path o.dataDir) =
      some (Representation.int.arrayBytes o.cache.size.toNat o.cache.pidx) := by
  have h := idx1Path_ne_idx2Path o.dataDir
  unfold writeFiles
  simp only [ne_eq, h, not_false_eq_true, Files.fwrite_of_ne, Files.openWrite_of_ne,
    Files.fwrite_self, Files.openWrite_self, Option.getD_some, List.nil_append]

theorem writeFiles_idx2 (R : PlainData T) (fs : Files) (o : Object T) :
    o.writeFiles R fs (idx2Path o.dataDir) =
      some ((Item.representation R).arrayBytes o.cache.size.toNat o.cache.pvalue) := by
  unfold writeFiles
  simp only [Files.fwrite_self, Files.openWrite_self, Option.getD_some, List.nil_append]

theorem readHead_headInts (h : c.Twin c) (p : Object T) (b newIdx : ℤ → ℤ) (newValue : ℤ → Item T) :
    let q := p.readHead (Representation.int.overwrite 6
      (Representation.int.arrayBytes 6 (headInts c)) b) newIdx newValue
    q.cache.size = c.size ∧ q.cache.freeListSize = c.freeListSize ∧
      q.cache.freeList = c.freeList ∧ q.cache.busyList = c.busyList := by
  have hbuf : ∀ k, 0 ≤ k → k < 6 → Representation.int.Fits (headInts c k) →
      Representation.int.overwrite 6 (Representation.int.arrayBytes 6 (headInts c)) b k =
        headInts c k :=
    fun k h₀ hk hfits =>
      Representation.overwrite_arrayBytes (n := 6) h₀ (by exact_mod_cast hk) hfits
  have hsize := hbuf 0 (by decide) (by decide) (fits_intOf _)
  have hfree := hbuf 1 (by decide) (by decide) (fits_intOf _)
  have hnext := hbuf 2 (by decide) (by decide) h.freeList_fits.1
  have hprev := hbuf 3 (by decide) (by decide) h.freeList_fits.2
  have hnext' := hbuf 4 (by decide) (by decide) h.busyList_fits.1
  have hprev' := hbuf 5 (by decide) (by decide) h.busyList_fits.2
  refine ⟨?_, ?_, ?_, ?_⟩
  · exact (congrArg UInt32.ofInt hsize).trans (ofInt_intOf _)
  · exact (congrArg UInt32.ofInt hfree).trans (ofInt_intOf _)
  · exact congrArg₂ TLink.mk hnext hprev
  · exact congrArg₂ TLink.mk hnext' hprev'

theorem item_size_pos (R : PlainData T) : 0 < (Item.representation R).size := by
  change 0 < R.size + _ + (4 + 4) + (4 + 4) + (4 + 4) + _
  omega

/-- What was saved is loaded as a twin. -/
theorem load_writeFiles (h : o.cache.Twin o.cache) (R : PlainData T) (fs : Files)
    (hp : p.arrays ≠ .freed) (newIdx : ℤ → ℤ) (newValue : ℤ → Item T) :
    Succeeds ((p.setDataDir o.dataDir).load R (o.writeFiles R fs) newIdx newValue) fun r =>
      r.2 = true ∧ r.1.arrays = .held ∧ o.cache.Twin r.1.cache := by
  obtain ⟨p₁, hp₁, hdir⟩ : ∃ p₁, (p.setDataDir o.dataDir).deleteArrays = some p₁ ∧
      p₁.dataDir = o.dataDir := by
    unfold deleteArrays setDataDir
    cases hold : p.arrays with
    | null => exact ⟨_, rfl, rfl⟩
    | held => exact ⟨_, rfl, rfl⟩
    | freed => exact absurd hold hp
  obtain ⟨hsize, hfreeSize, hfree, hbusy⟩ := readHead_headInts h p₁ (fun _ => 0) newIdx newValue
  have hint : 0 < Representation.int.size := show 0 < 4 by decide
  unfold load
  simp only [hp₁, Option.bind_eq_bind, Option.bind_some, hdir, writeFiles_head,
    Representation.fread_arrayBytes hint, Bool.not_true, Bool.false_eq_true, if_false]
  set buf := Representation.int.overwrite 6 (Representation.int.arrayBytes 6 (headInts o.cache))
    fun _ => 0
  have hqdir : (p₁.readHead buf newIdx newValue).dataDir = o.dataDir := hdir
  have hheld : (p₁.readHead buf newIdx newValue).arrays = .held := rfl
  generalize p₁.readHead buf newIdx newValue = q at *
  simp only [hsize, hqdir, writeFiles_idx1, writeFiles_idx2, Representation.fread_arrayBytes hint,
    Representation.fread_arrayBytes (item_size_pos R), Bool.not_true, Bool.false_eq_true, if_false,
    succeeds_some]
  refine ⟨trivial, hheld, ?_⟩
  constructor
  · rfl
  · exact hfreeSize
  · exact hfree
  · exact hbusy
  · intro k hk
    have hfits := h.pvalue_fits k hk
    exact Representation.overwrite_arrayBytes hk.1 hk.2
      ⟨⟨⟨R.fits _, trivial, trivial⟩, hfits.1⟩, hfits.2⟩
  · exact fun k hk => Representation.overwrite_arrayBytes hk.1 hk.2 (h.pidx_fits k hk)
  · exact h.freeList_fits
  · exact h.busyList_fits
  · exact h.pvalue_fits
  · exact h.pidx_fits

theorem load_freed (hp : p.arrays = .freed) (R : PlainData T) (fs : Files) (dir : Bytes)
    (newIdx : ℤ → ℤ) (newValue : ℤ → Item T) :
    (p.setDataDir dir).load R fs newIdx newValue = none := by
  unfold load deleteArrays setDataDir
  rw [hp]
  rfl

/-- Every cache that is reached by calls after `init` is saved, and loaded into an object it gives
the same results over every later sequence of calls, exactly if the arrays of that object were not
deleted by a `load` before. -/
theorem save_load_observe_iff (R : PlainData T) (o₀ o : Object T) (s : UInt32)
    (fresh : ℤ → T × TSign) (calls : List (Call T))
    (h : (o₀.init s fresh).bind (·.run calls) = some o) (fs : Files) (p : Object T)
    (newIdx : ℤ → ℤ) (newValue : ℤ → Item T) :
    Succeeds (o.save R fs) (fun saved =>
      Succeeds ((p.setDataDir o.dataDir).load R saved newIdx newValue) fun r =>
        r.2 = true ∧ ∀ later, r.1.observe later = o.observe later) ↔ p.arrays ≠ .freed := by
  have htwin := twin_of_run h
  rw [save, if_pos htwin.held, succeeds_some]
  constructor
  · intro hload hfreed
    rw [load_freed hfreed] at hload
    exact not_succeeds_none hload
  · intro hp
    refine (load_writeFiles htwin.cache R fs hp newIdx newValue).mono ?_
    rintro r ⟨htrue, hheld, hr⟩
    exact ⟨htrue, fun later => Twin.observe ⟨htwin.held, hheld, hr⟩ later⟩

/-- A new object, with some contents of its fields that the constructor does not set. -/
def constructed (dir : Bytes) : Object UInt8 where
  cache :=
    { size := 0
      pvalue := fun _ => ⟨0, ⟨0, 0⟩, ⟨0, 0⟩, ⟨0, 0⟩⟩
      pidx := fun _ => 0
      freeList := ⟨0, 0⟩
      busyList := ⟨0, 0⟩
      freeListSize := 0
      visitCnt := 0
      hitCnt := 0
      fstat := [] }
  arrays := .null
  dataDir := dir

theorem save_load_observe_iff_ten :
    ∃ o, ((constructed [46]).init 10 fun _ => (0, ⟨0, 0⟩)).bind (·.run [.insert [97] 1]) = some o ∧
      (Succeeds (o.save .byte fun _ => none) (fun saved =>
        Succeeds (((constructed []).setDataDir o.dataDir).load .byte saved (fun _ => 0) fun _ =>
          ⟨0, ⟨0, 0⟩, ⟨0, 0⟩, ⟨0, 0⟩⟩) fun r =>
            r.2 = true ∧ ∀ later, r.1.observe later = o.observe later) ↔
        (constructed []).arrays ≠ .freed) := by
  obtain ⟨o, ho⟩ : ∃ o, ((constructed [46]).init 10 fun _ => (0, ⟨0, 0⟩)).bind
      (·.run [.insert [97] 1]) = some o := Option.isSome_iff_exists.mp (by decide +kernel)
  exact ⟨o, ho, save_load_observe_iff .byte _ o 10 _ _ ho _ _ _ _⟩

/-- The object of an initialised cache that found no files to load cannot load those that are saved
later. -/
theorem load_after_failed_load :
    Succeeds ((constructed [46]).init 10 fun _ => (0, ⟨0, 0⟩)) fun o =>
      Succeeds (o.load .byte (fun _ => none) (fun _ => 0) fun _ => ⟨0, ⟨0, 0⟩, ⟨0, 0⟩, ⟨0, 0⟩⟩)
        fun p => p.2 = false ∧ ¬Succeeds (o.save .byte fun _ => none) fun saved =>
          Succeeds ((p.1.setDataDir o.dataDir).load .byte saved (fun _ => 0) fun _ =>
            ⟨0, ⟨0, 0⟩, ⟨0, 0⟩, ⟨0, 0⟩⟩) fun r =>
              r.2 = true ∧ ∀ later, r.1.observe later = o.observe later := by
  refine ⟨_, rfl, _, rfl, rfl, ?_⟩
  rintro ⟨saved, -, hload⟩
  rw [load_freed rfl] at hload
  exact not_succeeds_none hload

end Object

end CacheManager

end YlUtils
