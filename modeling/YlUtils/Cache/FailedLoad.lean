import YlUtils.Cache.Reload

/-! # Loads that fail

`load` deletes the arrays of an object and overwrites its fields while it reads.
So an object that has entries keeps its behaviour through a `load` only where
all of the files can be read.
-/

namespace YlUtils

namespace CacheManager

variable {T : Type} {R : PlainData T} {c : CacheManager T} {o p : Object T} {fs : Files}

theorem call_of_size_zero (h : c.size = 0) (e : Call T) : c.call e = none := by
  have hbucket : ∀ d : CacheManager T, d.size = 0 → ∀ i, d.bucket i = none := fun d hd i => by
    refine if_neg fun hi => ?_
    have hlt := hi.2
    rw [hd] at hlt
    exact absurd (Int.lt_of_le_of_lt hi.1 hlt) (by decide)
  have hsearch : ∀ d : CacheManager T, d.size = 0 → ∀ s, d.search s = none := fun d hd s => by
    unfold search
    rw [hbucket d hd]
    rfl
  have hop : ∀ o, c.callOp o = none := fun o => by
    cases o with
    | insert sign value =>
      have hroom : c.makeRoom = some c := by
        unfold makeRoom reclaim
        rw [h]
        exact ite_self _
      simp only [callOp, insertSign, hroom, Option.bind_eq_bind, Option.bind_some,
        hsearch c h, Option.bind_none, Option.map_eq_map, Option.map_none]
    | remove sign =>
      simp only [callOp, removeSign, Option.bind_eq_bind, hsearch c h, Option.bind_none,
        Option.map_eq_map, Option.map_none]
    | find sign =>
      have hnone := hsearch { c with visitCnt := c.visitCnt + 1 } h sign
      simp only [callOp, findSign, Option.bind_eq_bind, hnone, Option.bind_none]
  rw [call_eq_bind]
  cases e.op with
  | none => rfl
  | some o => exact hop o

namespace Object

/-- After `p` replaced `o`, nothing that is done with the object tells them apart. -/
structure SameBehaviour (R : PlainData T) (o p : Object T) : Prop where
  size : p.cache.size = o.cache.size
  observe : ∀ later, p.observe later = o.observe later
  save : ∀ fs, p.save R fs = o.save R fs
  arrays : p.arrays ≠ .freed

/-- Whatever the new arrays hold, a `load` that returns `false` leaves the behaviour as it was. -/
def LoadsAtomically (R : PlainData T) (fs : Files) (o : Object T) : Prop :=
  ∀ newIdx newValue, Succeeds (o.load R fs newIdx newValue) fun r =>
    r.2 = false → o.SameBehaviour R r.1

def HeadReadable (fs : Files) (o : Object T) : Prop :=
  ∃ head, fs (headPath o.dataDir) = some head ∧ 24 ≤ head.length

/-- All of the files can be read, for as many slots as the head says. -/
def Readable (R : PlainData T) (fs : Files) (o : Object T) : Prop :=
  ∃ head idx values, fs (headPath o.dataDir) = some head ∧ fs (idx1Path o.dataDir) = some idx ∧
    fs (idx2Path o.dataDir) = some values ∧ 24 ≤ head.length ∧
    (wordAt head).toNat * 4 ≤ idx.length ∧
    (wordAt head).toNat * (Item.representation R).size ≤ values.length

def HeadMatches (fs : Files) (o : Object T) : Prop :=
  ∃ head, fs (headPath o.dataDir) = some head ∧ 24 ≤ head.length ∧ ∀ k : ℤ, 0 ≤ k → k < 6 →
    intBytes (Representation.int.overwrite 6 head (fun _ => 0) k) = intBytes (headInts o.cache k)

/-- The files that a `load` of the object may find without harm. -/
def Harmless (R : PlainData T) (fs : Files) (o : Object T) : Prop :=
  match o.arrays with
  | .null => Readable R fs o ∨ ¬ HeadReadable fs o
  | .held => Readable R fs o ∨ o.cache.size = 0 ∧ HeadMatches fs o
  | .freed => False

theorem deleteArrays_dataDir {q : Object T} (h : o.deleteArrays = some q) :
    q.dataDir = o.dataDir ∧ q.cache = o.cache := by
  unfold deleteArrays at h
  split at h
  · cases h
    exact ⟨rfl, rfl⟩
  · cases h
    exact ⟨rfl, rfl⟩
  · cases h

theorem headReadable_iff :
    HeadReadable fs o ↔
      (Representation.int.fread 6 (fs (headPath o.dataDir)) fun _ => 0).2 = true :=
  (Representation.fread_true_iff (R := .int) (n := 6) (show 0 < 4 by decide)).symm

theorem load_of_not_headReadable {q : Object T} (hq : o.deleteArrays = some q)
    (h : ¬ HeadReadable fs o) (newIdx : ℤ → ℤ) (newValue : ℤ → Item T) :
    o.load R fs newIdx newValue = some (q, false) := by
  rw [headReadable_iff, Bool.not_eq_true] at h
  unfold load
  simp only [hq, Option.bind_eq_bind, Option.bind_some, (deleteArrays_dataDir hq).1, h,
    Bool.not_false, if_true]

theorem load_of_head {q : Object T} (hq : o.deleteArrays = some q) {head : Bytes}
    (h : fs (headPath o.dataDir) = some head) (hlen : 24 ≤ head.length) (newIdx : ℤ → ℤ)
    (newValue : ℤ → Item T) :
    let n := (wordAt head).toNat
    let idx := Representation.int.fread n (fs (idx1Path o.dataDir)) newIdx
    let values := (Item.representation R).fread n (fs (idx2Path o.dataDir)) newValue
    let p := q.readHead (Representation.int.overwrite 6 head fun _ => 0) newIdx newValue
    o.load R fs newIdx newValue =
      if idx.2 then some ({ p with cache.pidx := idx.1, cache.pvalue := values.1 }, values.2)
      else some ({ p with cache.pidx := idx.1 }, false) := by
  have hread : Representation.int.fread 6 (some head) (fun _ => 0) =
      (Representation.int.overwrite 6 head fun _ => 0, true) := by
    have hmin : min 6 (head.length / 4) = 6 := by omega
    change ((Representation.int.overwrite (min 6 (head.length / 4)) head fun _ => 0),
      min 6 (head.length / 4) == 6) = _
    rw [hmin]
    rfl
  unfold load
  simp only [hq, Option.bind_eq_bind, Option.bind_some, (deleteArrays_dataDir hq).1, h, hread,
    Bool.not_true, Bool.false_eq_true, if_false]
  set buf := Representation.int.overwrite 6 head fun _ => 0
  have hsize : (q.readHead buf newIdx newValue).cache.size = wordAt head := ofInt_intOf _
  have hdir : (q.readHead buf newIdx newValue).dataDir = o.dataDir := (deleteArrays_dataDir hq).1
  have hidx : (q.readHead buf newIdx newValue).cache.pidx = newIdx := rfl
  have hvalue : (q.readHead buf newIdx newValue).cache.pvalue = newValue := rfl
  generalize q.readHead buf newIdx newValue = p at *
  simp only [hsize, hdir, hidx, hvalue]
  cases (Representation.int.fread (wordAt head).toNat (fs (idx1Path o.dataDir)) newIdx).2 with
  | false => rfl
  | true => rfl

theorem exists_deleteArrays (h : o.arrays ≠ .freed) : ∃ q, o.deleteArrays = some q := by
  unfold deleteArrays
  split
  · exact ⟨_, rfl⟩
  · exact ⟨_, rfl⟩
  · next hfreed => exact absurd hfreed h

theorem intBytes_headInts (q : Object T) (buf newIdx : ℤ → ℤ) (newValue : ℤ → Item T) {k : ℤ}
    (h₀ : 0 ≤ k) (hk : k < 6) :
    intBytes (headInts (q.readHead buf newIdx newValue).cache k) = intBytes (buf k) := by
  have hword : ∀ n, intBytes (intOf (.ofInt n)) = intBytes n := fun n => by
    rw [intBytes, ofInt_intOf, intBytes]
  obtain rfl | rfl | rfl | rfl | rfl | rfl :
      k = 0 ∨ k = 1 ∨ k = 2 ∨ k = 3 ∨ k = 4 ∨ k = 5 := by omega
  · exact hword _
  · exact hword _
  · rfl
  · rfl
  · rfl
  · rfl

theorem writeFiles_of_ne {path : Bytes} (h : path ≠ headPath o.dataDir)
    (h₁ : path ≠ idx1Path o.dataDir) (h₂ : path ≠ idx2Path o.dataDir) :
    o.writeFiles R fs path = fs path := by
  unfold writeFiles
  simp only [ne_eq, h, h₁, h₂, not_false_eq_true, Files.fwrite_of_ne, Files.openWrite_of_ne]

theorem writeFiles_eq_iff (hdir : p.dataDir = o.dataDir) (hsize : p.cache.size = o.cache.size) :
    p.writeFiles R fs = o.writeFiles R fs ↔
      (∀ k : ℤ, 0 ≤ k → k < 6 →
        intBytes (headInts p.cache k) = intBytes (headInts o.cache k)) ∧
      (∀ k, o.cache.InRange k → intBytes (p.cache.pidx k) = intBytes (o.cache.pidx k)) ∧
      ∀ k, o.cache.InRange k → (Item.representation R).bytes (p.cache.pvalue k) =
        (Item.representation R).bytes (o.cache.pvalue k) := by
  have hhead := writeFiles_head R fs p
  have hidx := writeFiles_idx1 R fs p
  have hvalue := writeFiles_idx2 R fs p
  rw [hdir] at hhead hidx hvalue
  rw [hsize] at hidx hvalue
  have ihead : Representation.int.arrayBytes 6 (headInts p.cache) =
      Representation.int.arrayBytes 6 (headInts o.cache) ↔ _ := Representation.arrayBytes_eq_iff
  have iidx : Representation.int.arrayBytes o.cache.size.toNat p.cache.pidx =
      Representation.int.arrayBytes o.cache.size.toNat o.cache.pidx ↔ _ :=
    Representation.arrayBytes_eq_iff
  have ivalue : (Item.representation R).arrayBytes o.cache.size.toNat p.cache.pvalue =
      (Item.representation R).arrayBytes o.cache.size.toNat o.cache.pvalue ↔ _ :=
    Representation.arrayBytes_eq_iff
  constructor
  · intro h
    rw [h, writeFiles_head, Option.some_inj] at hhead
    rw [h, writeFiles_idx1, Option.some_inj] at hidx
    rw [h, writeFiles_idx2, Option.some_inj] at hvalue
    refine ⟨ihead.mp hhead.symm, fun k hk => ?_, fun k hk => ?_⟩
    · exact iidx.mp hidx.symm k hk.1 hk.2
    · exact ivalue.mp hvalue.symm k hk.1 hk.2
  · rintro ⟨h, h₁, h₂⟩
    funext path
    by_cases hp : path = headPath o.dataDir
    · rw [hp, hhead, writeFiles_head, ihead.mpr h]
    by_cases hp₁ : path = idx1Path o.dataDir
    · rw [hp₁, hidx, writeFiles_idx1, iidx.mpr fun k h₀ hk => h₁ k ⟨h₀, hk⟩]
    by_cases hp₂ : path = idx2Path o.dataDir
    · rw [hp₂, hvalue, writeFiles_idx2, ivalue.mpr fun k h₀ hk => h₂ k ⟨h₀, hk⟩]
    rw [writeFiles_of_ne hp hp₁ hp₂, writeFiles_of_ne (by rwa [hdir]) (by rwa [hdir])
      (by rwa [hdir])]

theorem readable_iff {head : Bytes} (h : fs (headPath o.dataDir) = some head)
    (hlen : 24 ≤ head.length) (newIdx : ℤ → ℤ) (newValue : ℤ → Item T) :
    Readable R fs o ↔
      (Representation.int.fread (wordAt head).toNat (fs (idx1Path o.dataDir)) newIdx).2 = true ∧
      ((Item.representation R).fread (wordAt head).toNat (fs (idx2Path o.dataDir))
        newValue).2 = true := by
  rw [Representation.fread_true_iff (show 0 < Representation.int.size by decide),
    Representation.fread_true_iff (item_size_pos R)]
  constructor
  · rintro ⟨head', idx, values, hhead, hidx, hvalues, -, hle, hle'⟩
    obtain rfl := Option.some.inj (h.symm.trans hhead)
    exact ⟨⟨idx, hidx, hle⟩, values, hvalues, hle'⟩
  · rintro ⟨⟨idx, hidx, hle⟩, values, hvalues, hle'⟩
    exact ⟨head, idx, values, h, hidx, hvalues, hlen, hle, hle'⟩

theorem load_of_readable (ho : o.arrays ≠ .freed) (h : Readable R fs o) (newIdx : ℤ → ℤ)
    (newValue : ℤ → Item T) : Succeeds (o.load R fs newIdx newValue) fun r => r.2 = true := by
  obtain ⟨q, hq⟩ := exists_deleteArrays ho
  have hread := h
  obtain ⟨head, -, -, hhead, -, -, hlen, -⟩ := h
  obtain ⟨hidx, hvalues⟩ := (readable_iff hhead hlen newIdx newValue).mp hread
  rw [load_of_head hq hhead hlen, if_pos hidx, succeeds_some]
  exact hvalues

theorem load_of_short (ho : o.arrays ≠ .freed) {head : Bytes}
    (h : fs (headPath o.dataDir) = some head) (hlen : 24 ≤ head.length)
    (hshort : ¬ Readable R fs o) (newIdx : ℤ → ℤ) (newValue : ℤ → Item T) :
    Succeeds (o.load R fs newIdx newValue) fun r => r.2 = false ∧ r.1.arrays = .held ∧
      r.1.dataDir = o.dataDir ∧ r.1.cache.size = wordAt head ∧
      (∀ k : ℤ, 0 ≤ k → k < 6 → intBytes (headInts r.1.cache k) =
        intBytes (Representation.int.overwrite 6 head (fun _ => 0) k)) := by
  obtain ⟨q, hq⟩ := exists_deleteArrays ho
  have hdir := (deleteArrays_dataDir hq).1
  rw [load_of_head hq h hlen]
  have hsize : (q.readHead (Representation.int.overwrite 6 head fun _ => 0)
      newIdx newValue).cache.size = wordAt head := ofInt_intOf _
  have hints := fun {k : ℤ} (h₀ : 0 ≤ k) hk => intBytes_headInts q
    (Representation.int.overwrite 6 head fun _ => 0) newIdx newValue h₀ hk
  split
  · next hidx =>
    have hvalues := mt (fun hv => (readable_iff h hlen newIdx newValue).mpr ⟨hidx, hv⟩) hshort
    rw [succeeds_some]
    exact ⟨by simpa using hvalues, rfl, hdir, hsize, fun k h₀ hk => hints h₀ hk⟩
  · rw [succeeds_some]
    exact ⟨rfl, rfl, hdir, hsize, fun k h₀ hk => hints h₀ hk⟩

theorem load_leaves_element (ho : o.arrays ≠ .freed) {head : Bytes}
    (h : fs (headPath o.dataDir) = some head) (hlen : 24 ≤ head.length)
    (hshort : ¬ Readable R fs o) (hn : 0 < (wordAt head).toNat) :
    ∃ k : ℤ, 0 ≤ k ∧ k < (wordAt head).toNat ∧
      ((∀ newIdx newValue, Succeeds (o.load R fs newIdx newValue) fun r =>
          r.1.cache.pidx k = newIdx k) ∨
        ∀ newIdx newValue, Succeeds (o.load R fs newIdx newValue) fun r =>
          r.1.cache.pvalue k = newValue k) := by
  obtain ⟨q, hq⟩ := exists_deleteArrays ho
  by_cases hidx : ∃ b, fs (idx1Path o.dataDir) = some b ∧
      (wordAt head).toNat * Representation.int.size ≤ b.length
  · have hidx := fun newIdx : ℤ → ℤ =>
      (Representation.fread_true_iff (a := newIdx) (show 0 < Representation.int.size by decide)).mpr
        hidx
    have hvalues : ∀ newValue : ℤ → Item T, ((Item.representation R).fread (wordAt head).toNat
        (fs (idx2Path o.dataDir)) newValue).2 = false := fun newValue => by
      simpa using mt (fun hv => (readable_iff h hlen (fun _ => 0) newValue).mpr ⟨hidx _, hv⟩) hshort
    obtain ⟨k, h₀, hk, hrest⟩ := Representation.fread_rest hn (hvalues o.cache.pvalue)
    refine ⟨k, h₀, hk, .inr fun newIdx newValue => ?_⟩
    rw [load_of_head hq h hlen, if_pos (hidx newIdx), succeeds_some]
    exact hrest newValue
  · have hidx := fun newIdx : ℤ → ℤ => Bool.not_eq_true _ ▸
      mt (Representation.fread_true_iff (a := newIdx)
        (show 0 < Representation.int.size by decide)).mp hidx
    obtain ⟨k, h₀, hk, hrest⟩ := Representation.fread_rest hn (hidx fun _ => 0)
    refine ⟨k, h₀, hk, .inl fun newIdx newValue => ?_⟩
    rw [load_of_head hq h hlen, if_neg (by simp [hidx newIdx]), succeeds_some]
    exact hrest newIdx

/-- An item that tells what a new array held before it was read. -/
def filler (o : Object T) (x : ℤ) : Item T :=
  ⟨(o.cache.pvalue 0).value, ⟨0, 0⟩, ⟨0, 0⟩, ⟨0, x⟩⟩

theorem intBytes_zero_ne_one : intBytes 0 ≠ intBytes 1 := by decide

theorem bytes_filler_ne (o : Object T) :
    (Item.representation R).bytes (o.filler 0) ≠ (Item.representation R).bytes (o.filler 1) := by
  have hfits : ∀ x : ℤ, 0 ≤ x → x < 2 → (Item.representation R).Fits (o.filler x) := by
    intro x h₀ hx
    have hint : ∀ y : ℤ, 0 ≤ y → y < 2 → Representation.int.Fits y := fun y hy hy' =>
      ⟨by omega, by omega⟩
    have hzero := hint 0 (by decide) (by decide)
    exact ⟨⟨⟨R.fits _, trivial, trivial⟩, hzero, hzero⟩, hzero, hint x h₀ hx⟩
  intro hbytes
  have heq := (Item.representation R).eq_of_bytes (hfits 0 (by decide) (by decide))
    (hfits 1 (by decide) (by decide)) hbytes
  have hprev : (0 : ℤ) = 1 := congrArg (fun it => it.link.prev) heq
  exact absurd hprev (by decide)

theorem head_zero_of_same_files (ho : o.arrays ≠ .freed) {head : Bytes}
    (h : fs (headPath o.dataDir) = some head) (hlen : 24 ≤ head.length)
    (hshort : ¬ Readable R fs o) {r₀ r₁ : Object T × Bool}
    (hr₀ : o.load R fs (fun _ => 0) (fun _ => o.filler 0) = some r₀)
    (hr₁ : o.load R fs (fun _ => 1) (fun _ => o.filler 1) = some r₁)
    (hsame : r₀.1.writeFiles R fs = r₁.1.writeFiles R fs) : (wordAt head).toNat = 0 := by
  obtain ⟨-, -, hdir₀, hsize₀, -⟩ := (load_of_short ho h hlen hshort _ _).of_eq hr₀
  obtain ⟨-, -, hdir₁, hsize₁, -⟩ := (load_of_short ho h hlen hshort _ _).of_eq hr₁
  obtain ⟨-, hidx, hvalue⟩ := (writeFiles_eq_iff (hdir₀.trans hdir₁.symm)
    (hsize₀.trans hsize₁.symm)).mp hsame
  by_contra hne
  obtain ⟨k, h₀, hk, hfresh⟩ := load_leaves_element ho h hlen hshort (Nat.pos_of_ne_zero hne)
  have hr : r₁.1.cache.InRange k := ⟨h₀, by rw [hsize₁]; exact hk⟩
  rcases hfresh with hfresh | hfresh
  · have hbytes := hidx k hr
    rw [(hfresh _ _).of_eq hr₀, (hfresh _ _).of_eq hr₁] at hbytes
    exact intBytes_zero_ne_one hbytes
  · have hbytes := hvalue k hr
    rw [(hfresh _ _).of_eq hr₀, (hfresh _ _).of_eq hr₁] at hbytes
    exact o.bytes_filler_ne hbytes

/-- A `load` that fails after the head leaves no trace only of a cache without slots. -/
theorem heldEmpty_of_short (ho : o.arrays ≠ .freed) {head : Bytes}
    (h : fs (headPath o.dataDir) = some head) (hlen : 24 ≤ head.length)
    (hshort : ¬ Readable R fs o) (hatomic : o.LoadsAtomically R fs) :
    o.arrays = .held ∧ o.cache.size = 0 ∧ HeadMatches fs o := by
  have hload := fun x : ℤ => load_of_short ho h hlen hshort (fun _ => x) fun _ => o.filler x
  obtain ⟨r₀, hr₀, hfalse₀, hheld₀, -, hsize, hints⟩ := hload 0
  obtain ⟨r₁, hr₁, hfalse₁, hheld₁, -⟩ := hload 1
  have hb₀ := (hatomic _ _).of_eq hr₀ hfalse₀
  have hb₁ := (hatomic _ _).of_eq hr₁ hfalse₁
  have hsave₀ := hb₀.save fs
  have hsave₁ := hb₁.save fs
  unfold save at hsave₀ hsave₁
  rw [if_pos hheld₀] at hsave₀
  rw [if_pos hheld₁] at hsave₁
  have harrays : o.arrays = .held := by
    by_contra hne
    rw [if_neg hne] at hsave₀
    cases hsave₀
  rw [if_pos harrays, Option.some_inj] at hsave₀ hsave₁
  have hzero := head_zero_of_same_files ho h hlen hshort hr₀ hr₁ (hsave₀.trans hsave₁.symm)
  have hsize₀ : o.cache.size = 0 := by
    rw [← hb₀.size, hsize]
    exact UInt32.toNat_inj.mp hzero
  refine ⟨harrays, hsize₀, head, h, hlen, fun k h₀ hk => ?_⟩
  rw [← hints k h₀ hk]
  obtain ⟨-, -, hdir, -⟩ := (hload 0).of_eq hr₀
  exact ((writeFiles_eq_iff hdir hb₀.size).mp hsave₀).1 k h₀ hk

theorem sameBehaviour_of_empty (hdir : p.dataDir = o.dataDir) (ho : o.arrays = .held)
    (hp : p.arrays = .held) (hsize : o.cache.size = 0) (hhead : ∀ k : ℤ, 0 ≤ k → k < 6 →
      intBytes (headInts p.cache k) = intBytes (headInts o.cache k)) : o.SameBehaviour R p := by
  have hsize' : p.cache.size = o.cache.size := by
    have hbytes := Representation.int.eq_of_bytes (fits_intOf _) (fits_intOf _)
      (hhead 0 (by decide) (by decide))
    rw [← ofInt_intOf p.cache.size, hbytes, ofInt_intOf]
  have hempty : ∀ k, ¬ o.cache.InRange k := fun k hk => by
    have hlt := hk.2
    rw [hsize] at hlt
    exact absurd (Int.lt_of_le_of_lt hk.1 hlt) (by decide)
  have hcall : ∀ q : Object T, q.cache.size = 0 → ∀ e, q.call e = none := fun q hq e => by
    unfold Object.call
    rw [call_of_size_zero hq]
    exact ite_self _
  constructor
  · exact hsize'
  · intro later
    cases later with
    | nil => rfl
    | cons e es =>
      simp only [observe, hcall o hsize, hcall p (hsize'.trans hsize), Option.bind_eq_bind,
        Option.bind_none, Option.bind_fun_none]
  · intro fs
    unfold save
    rw [if_pos ho, if_pos hp, (writeFiles_eq_iff hdir hsize').mpr ⟨hhead,
      fun k hk => absurd hk (hempty k), fun k hk => absurd hk (hempty k)⟩]
  · rw [hp]
    decide

theorem Readable.loadsAtomically (h : Readable R fs o) (ho : o.arrays ≠ .freed) :
    o.LoadsAtomically R fs := by
  intro newIdx newValue
  refine (load_of_readable ho h newIdx newValue).mono fun r htrue hfalse => ?_
  rw [htrue] at hfalse
  cases hfalse

theorem LoadsAtomically.arrays_ne_freed (h : o.LoadsAtomically R fs) : o.arrays ≠ .freed := by
  intro ho
  have hload := h o.cache.pidx o.cache.pvalue
  unfold load deleteArrays at hload
  rw [ho] at hload
  exact not_succeeds_none hload

theorem loadsAtomically_iff_null (h : ¬ HeadReadable fs o) :
    o.LoadsAtomically R fs ↔ o.arrays = .null := by
  cases ho : o.arrays with
  | freed => exact iff_of_false (fun hatomic => hatomic.arrays_ne_freed ho) (by decide)
  | null =>
    refine iff_of_true (fun newIdx newValue => ?_) rfl
    have hq : o.deleteArrays = some o := by unfold deleteArrays; rw [ho]
    rw [load_of_not_headReadable hq h, succeeds_some]
    exact fun _ => ⟨rfl, fun _ => rfl, fun _ => rfl, by rw [ho]; decide⟩
  | held =>
    refine iff_of_false (fun hatomic => ?_) (by decide)
    have hq : o.deleteArrays = some { o with arrays := .freed } := by
      unfold deleteArrays
      rw [ho]
    have hload := hatomic o.cache.pidx o.cache.pvalue
    rw [load_of_not_headReadable hq h, succeeds_some] at hload
    exact absurd rfl (hload rfl).arrays

/-- Where just the head can be read, it must say what the fields of an empty object say. -/
theorem loadsAtomically_iff_heldEmpty (ho : o.arrays ≠ .freed) (h : HeadReadable fs o)
    (hshort : ¬ Readable R fs o) :
    o.LoadsAtomically R fs ↔ o.arrays = .held ∧ o.cache.size = 0 ∧ HeadMatches fs o := by
  obtain ⟨head, hhead, hlen⟩ := h
  constructor
  · exact heldEmpty_of_short ho hhead hlen hshort
  · rintro ⟨hheld, hsize, head, hhead, hlen, hints⟩ newIdx newValue
    refine (load_of_short ho hhead hlen hshort newIdx newValue).mono ?_
    rintro r ⟨-, hheld', hdir, -, hints'⟩ -
    exact sameBehaviour_of_empty hdir hheld hheld' hsize fun k h₀ hk =>
      (hints' k h₀ hk).trans (hints k h₀ hk)

/-- A `load` that returns `false` leaves the behaviour of an object as it was exactly if it finds
all of the files, so that it does not return `false`, or the object has no entries and keeps
none. -/
theorem loadsAtomically_iff_harmless (R : PlainData T) (fs : Files) (o : Object T) :
    o.LoadsAtomically R fs ↔ Harmless R fs o := by
  unfold Harmless
  cases ho : o.arrays with
  | freed => exact iff_of_false (fun hatomic => hatomic.arrays_ne_freed ho) id
  | null =>
    have hne : o.arrays ≠ .freed := by rw [ho]; decide
    by_cases hr : Readable R fs o
    · exact iff_of_true (hr.loadsAtomically hne) (.inl hr)
    by_cases hh : HeadReadable fs o
    · rw [loadsAtomically_iff_heldEmpty hne hh hr, ho]
      simp [hr, hh]
    · rw [loadsAtomically_iff_null hh]
      exact iff_of_true ho (.inr hh)
  | held =>
    have hne : o.arrays ≠ .freed := by rw [ho]; decide
    by_cases hr : Readable R fs o
    · exact iff_of_true (hr.loadsAtomically hne) (.inl hr)
    by_cases hh : HeadReadable fs o
    · rw [loadsAtomically_iff_heldEmpty hne hh hr, ho]
      simp [hr]
    · rw [loadsAtomically_iff_null hh, ho]
      refine iff_of_false (by decide) ?_
      rintro (h | ⟨-, head, h, hlen, -⟩)
      · exact hr h
      · exact hh ⟨head, h, hlen⟩

/-- A cache that was initialised has lost its arrays when there were no files to load. -/
theorem load_missing_not_atomic :
    ¬ Succeeds ((constructed [46]).init 10 fun _ => (0, ⟨0, 0⟩)) fun o =>
      o.LoadsAtomically .byte fun _ => none := by
  rintro ⟨o, ho, hatomic⟩
  have hload := hatomic (fun _ => 0) fun _ => ⟨0, ⟨0, 0⟩, ⟨0, 0⟩, ⟨0, 0⟩⟩
  have hq : o.deleteArrays = some { o with arrays := .freed } := by
    cases ho
    rfl
  have hhead : ¬ HeadReadable (fun _ => none) o := by
    rintro ⟨_, h, -⟩
    cases h
  rw [load_of_not_headReadable hq hhead, succeeds_some] at hload
  exact (hload rfl).arrays rfl

end Object

end CacheManager

end YlUtils
