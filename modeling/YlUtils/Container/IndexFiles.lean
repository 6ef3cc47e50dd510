import YlUtils.Container.CommonIndex
import YlUtils.Runs.Succeeds

/-! # The files of an index

A level is deleted before its file is opened, and its size is read before it is
checked; so a file that is rejected leaves a level that is neither the old one
nor an empty one. Files that are accepted are checked one by one, and nothing
relates the slices of the first level to the size of the second one.
-/

namespace YlUtils

variable {α : Type} {R : Representation α}

def Accepted (R : Representation α) (file : Except String Bytes) : Prop :=
  ∃ b, file = .ok b ∧ 8 ≤ b.length ∧ longAt b ≤ maxItemNum ∧
    8 + longAt b * .ofNat R.size = .ofNat b.length

def numberRead (n : UInt64) : Except String Bytes → UInt64
  | .error _ => n
  | .ok b => overwriteLong n (b.take 8)

def itemsRead (R : Representation α) : Except String Bytes → List α
  | .error _ => []
  | .ok b => itemsAt R (longAt b).toNat (b.drop 8)

section LoadData

variable {index errno : String} {file : Except String Bytes} {p q : Pointer α} {n : UInt64}

theorem numberRead_of_accepted (h : Accepted R file) (n m : UInt64) :
    numberRead n file = numberRead m file := by
  obtain ⟨b, rfl, hlen, -⟩ := h
  exact (overwriteLong_take n hlen).trans (overwriteLong_take m hlen).symm

theorem length_itemsRead (h : Accepted R file) (n : UInt64) :
    (itemsRead R file).length = (numberRead n file).toNat := by
  obtain ⟨b, rfl, hlen, -⟩ := h
  rw [numberRead, overwriteLong_take n hlen, itemsRead, itemsAt, List.length_map,
    List.length_range]

theorem loadData_of_accepted (h : Accepted R file) (hp : p ≠ .freed) :
    loadData R index file errno p n maxItemNum =
      some (.ok (), .live (itemsRead R file), numberRead n file) := by
  obtain ⟨q, hq⟩ := Pointer.exists_delete hp
  obtain ⟨b, rfl, hlen, hmax, hsize⟩ := h
  unfold loadData numberRead itemsRead
  simp only [hq, Option.bind_eq_bind, Option.bind_some, overwriteLong_take _ hlen]
  rw [if_neg (Nat.not_lt.mpr hlen), if_neg (UInt64.not_lt.mpr hmax), if_neg (not_not.mpr hsize)]

theorem loadData_of_rejected (index errno : String) (n : UInt64) (h : ¬ Accepted R file)
    (hq : p.delete = some q) :
    ∃ e, loadData R index file errno p n maxItemNum =
      some (.error e, q, numberRead (if p.isNull then n else 0) file) := by
  unfold loadData
  rw [hq]
  cases file with
  | error e => exact ⟨_, rfl⟩
  | ok b =>
    simp only [Option.bind_eq_bind, Option.bind_some, numberRead]
    split
    · exact ⟨_, rfl⟩
    · next hlen =>
      have hlen := Nat.not_lt.mp hlen
      rw [overwriteLong_take _ hlen]
      split
      · exact ⟨_, rfl⟩
      · next hmax =>
        split
        · exact ⟨_, rfl⟩
        · next hsize =>
          exact absurd ⟨b, rfl, hlen, UInt64.not_lt.mp hmax, not_not.mp hsize⟩ h

end LoadData

namespace CommonIndex

/-- Each level is an array of its size, or `NULL` where the size is zero. -/
structure Consistent (s : CommonIndex α) : Prop where
  mIndex1 : s.mIndex1.HasLength s.mSize1.toNat
  mIndex2 : s.mIndex2.HasLength s.mSize2.toNat

/-- An index without items, which come from no load at all. -/
structure Empty (s : CommonIndex α) : Prop extends Consistent s where
  mSize1 : s.mSize1 = 0
  mSize2 : s.mSize2 = 0

/-- A `load` that throws leaves the index as it was, or an empty one. -/
def ThrowsSafely (R : Representation α) (index1 index2 : String) (file1 file2 : Except String Bytes)
    (errno : String) (s : CommonIndex α) : Prop :=
  Succeeds (s.load R index1 index2 file1 file2 errno) fun r =>
    ∀ e, r.1 = .error e → r.2 = s ∨ r.2.Empty

/-- The files that an index may be loaded from without harm. No level was deleted before. A
rejected first file finds a level that is `NULL`, and leaves its size as it is or everything empty.
A rejected second file does so too, and the first file has the items that the first level has, or
none. -/
structure Harmless (R : Representation α) (file1 file2 : Except String Bytes)
    (s : CommonIndex α) : Prop where
  live1 : s.mIndex1 ≠ .freed
  live2 : Accepted Index1.representation file1 → s.mIndex2 ≠ .freed
  rejected1 : ¬ Accepted Index1.representation file1 → s.mIndex1 = .null ∧
    (numberRead s.mSize1 file1 = s.mSize1 ∨
      numberRead s.mSize1 file1 = 0 ∧ s.mSize2 = 0 ∧ s.mIndex2.HasLength 0)
  rejected2 : Accepted Index1.representation file1 → ¬ Accepted R file2 → s.mIndex2 = .null ∧
    (s.mIndex1 = .live (itemsRead Index1.representation file1) ∧
        numberRead s.mSize1 file1 = s.mSize1 ∧ numberRead s.mSize2 file2 = s.mSize2 ∨
      numberRead s.mSize1 file1 = 0 ∧ numberRead s.mSize2 file2 = 0)

variable {index1 index2 errno : String} {file1 file2 : Except String Bytes} {s : CommonIndex α}

theorem load_of_rejected1 (R : Representation α) (index1 index2 errno : String)
    (file2 : Except String Bytes) (h : ¬ Accepted Index1.representation file1)
    {q : Pointer Index1} (hq : s.mIndex1.delete = some q) :
    ∃ e, s.load R index1 index2 file1 file2 errno = some (.error e, { s with
      mIndex1 := q
      mSize1 := numberRead (if s.mIndex1.isNull then s.mSize1 else 0) file1 }) := by
  obtain ⟨e, he⟩ := loadData_of_rejected index1 errno s.mSize1 h hq
  refine ⟨e, ?_⟩
  unfold load
  simp only [he, Option.bind_eq_bind, Option.bind_some]

theorem load_of_rejected2 (index1 index2 errno : String)
    (h1 : Accepted Index1.representation file1) (hp : s.mIndex1 ≠ .freed)
    (h2 : ¬ Accepted R file2) {q : Pointer α} (hq : s.mIndex2.delete = some q) :
    ∃ e, s.load R index1 index2 file1 file2 errno = some (.error e,
      { mIndex1 := .live (itemsRead Index1.representation file1)
        mIndex2 := q
        mSize1 := numberRead s.mSize1 file1
        mSize2 := numberRead (if s.mIndex2.isNull then s.mSize2 else 0) file2 }) := by
  obtain ⟨e, he⟩ := loadData_of_rejected index2 errno s.mSize2 h2 hq
  refine ⟨e, ?_⟩
  unfold load
  simp only [loadData_of_accepted h1 hp, he, Option.bind_eq_bind, Option.bind_some]

theorem load_of_accepted (h1 : Accepted Index1.representation file1) (hp : s.mIndex1 ≠ .freed)
    (h2 : Accepted R file2) (hp2 : s.mIndex2 ≠ .freed) :
    s.load R index1 index2 file1 file2 errno = some (.ok (),
      { mIndex1 := .live (itemsRead Index1.representation file1)
        mIndex2 := .live (itemsRead R file2)
        mSize1 := numberRead s.mSize1 file1
        mSize2 := numberRead s.mSize2 file2 }) := by
  unfold load
  simp only [loadData_of_accepted h1 hp, loadData_of_accepted h2 hp2, Option.bind_eq_bind,
    Option.bind_some]

/-- What deleting a level leaves is consistent with its size only if there was no level. -/
theorem null_of_delete {β : Type} {p q : Pointer β} (hq : p.delete = some q)
    (h : q = p ∨ ∃ n, q.HasLength n) : p = .null ∧ q = .null ∧ p.isNull = true := by
  cases p with
  | null =>
    cases hq
    exact ⟨rfl, rfl, rfl⟩
  | live items =>
    cases hq
    rcases h with h | ⟨n, hn⟩
    · cases h
    · exact hn.elim
  | freed => cases hq

theorem harmless_of_throwsSafely (h : s.ThrowsSafely R index1 index2 file1 file2 errno) :
    s.Harmless R file1 file2 := by
  have hlive1 : s.mIndex1 ≠ .freed := by
    intro hfreed
    unfold ThrowsSafely load at h
    rw [hfreed] at h
    exact not_succeeds_none h
  have hlive2 : Accepted Index1.representation file1 → s.mIndex2 ≠ .freed := by
    intro h1 hfreed
    unfold ThrowsSafely load at h
    rw [loadData_of_accepted h1 hlive1, hfreed] at h
    exact not_succeeds_none h
  constructor
  · exact hlive1
  · exact hlive2
  · intro h1
    obtain ⟨q, hq⟩ := Pointer.exists_delete hlive1
    obtain ⟨e, he⟩ := load_of_rejected1 R index1 index2 errno file2 h1 hq
    have hsafe := (h.of_eq he) e rfl
    obtain ⟨hnull, -, his⟩ := null_of_delete hq
      (hsafe.imp (congrArg mIndex1) fun hempty => ⟨_, hempty.mIndex1⟩)
    rw [if_pos his] at hsafe
    refine ⟨hnull, hsafe.imp (congrArg mSize1) fun hempty => ?_⟩
    have hzero : s.mSize2 = 0 := hempty.mSize2
    have hlength : s.mIndex2.HasLength s.mSize2.toNat := hempty.mIndex2
    rw [hzero] at hlength
    exact ⟨hempty.mSize1, hzero, hlength⟩
  · intro h1 h2
    obtain ⟨q, hq⟩ := Pointer.exists_delete (hlive2 h1)
    obtain ⟨e, he⟩ := load_of_rejected2 index1 index2 errno h1 hlive1 h2 hq
    have hsafe := (h.of_eq he) e rfl
    obtain ⟨hnull, -, his⟩ := null_of_delete hq
      (hsafe.imp (congrArg mIndex2) fun hempty => ⟨_, hempty.mIndex2⟩)
    rw [if_pos his] at hsafe
    refine ⟨hnull, hsafe.imp (fun hsame => ?_) fun hempty => ?_⟩
    · exact ⟨(congrArg mIndex1 hsame).symm, congrArg mSize1 hsame, congrArg mSize2 hsame⟩
    · exact ⟨hempty.mSize1, hempty.mSize2⟩

theorem throwsSafely_of_harmless (index1 index2 errno : String) (h : s.Harmless R file1 file2) :
    s.ThrowsSafely R index1 index2 file1 file2 errno := by
  unfold ThrowsSafely
  by_cases h1 : Accepted Index1.representation file1
  · by_cases h2 : Accepted R file2
    · rw [load_of_accepted h1 h.live1 h2 (h.live2 h1), succeeds_some]
      rintro e ⟨⟩
    · obtain ⟨hnull, hkeep⟩ := h.rejected2 h1 h2
      have hq : s.mIndex2.delete = some .null := by rw [hnull]; rfl
      obtain ⟨e, he⟩ := load_of_rejected2 index1 index2 errno h1 h.live1 h2 hq
      rw [he, succeeds_some]
      intro _ _
      have his : s.mIndex2.isNull = true := by rw [hnull]; rfl
      rw [if_pos his]
      rcases hkeep with ⟨hitems, hn1, hn2⟩ | ⟨hn1, hn2⟩
      · left
        rw [← hitems, hn1, hn2, ← hnull]
      · right
        have hlength := length_itemsRead h1 s.mSize1
        rw [hn1] at hlength
        rw [hn1, hn2]
        exact ⟨⟨hlength, rfl⟩, rfl, rfl⟩
  · obtain ⟨hnull, hkeep⟩ := h.rejected1 h1
    have hq : s.mIndex1.delete = some .null := by rw [hnull]; rfl
    obtain ⟨e, he⟩ := load_of_rejected1 R index1 index2 errno file2 h1 hq
    rw [he, succeeds_some]
    intro _ _
    have his : s.mIndex1.isNull = true := by rw [hnull]; rfl
    rw [if_pos his]
    rcases hkeep with hn1 | ⟨hn1, hn2, hlength⟩
    · left
      rw [hn1, ← hnull]
    · right
      rw [hn1]
      refine ⟨⟨rfl, ?_⟩, rfl, hn2⟩
      change s.mIndex2.HasLength s.mSize2.toNat
      rw [hn2]
      exact hlength

/-- A `load` that throws leaves the old index or an empty one exactly if it finds harmless files. -/
theorem throwsSafely_iff_harmless (R : Representation α) (index1 index2 : String)
    (file1 file2 : Except String Bytes) (errno : String) (s : CommonIndex α) :
    s.ThrowsSafely R index1 index2 file1 file2 errno ↔ s.Harmless R file1 file2 :=
  ⟨harmless_of_throwsSafely, throwsSafely_of_harmless index1 index2 errno⟩

/-- An index with one item on each level is left with a deleted first level where the first file is
missing, so that its destructor deletes it again. -/
theorem load_missing_not_safe :
    let one : Except String Bytes := .ok [1, 0, 0, 0, 0, 0, 0, 0, 0, 0, 0, 0, 1, 0, 0, 0]
    let long : Except String Bytes := .ok [1, 0, 0, 0, 0, 0, 0, 0, 7, 0, 0, 0]
    let missing : Except String Bytes := .error "No such file or directory"
    Succeeds (new.load Representation.word "1" "2" one long "") fun r =>
      r.1 = .ok () ∧ r.2.Consistent ∧
        ¬ r.2.ThrowsSafely Representation.word "1" "2" missing long "" ∧
        Succeeds (r.2.load Representation.word "1" "2" missing long "") fun t =>
          t.2.destroy = none := by
  refine ⟨_, rfl, rfl, ⟨rfl, rfl⟩, ?_, _, rfl, rfl⟩
  rintro ⟨r, hr, hsafe⟩
  cases hr
  rcases hsafe _ rfl with hsame | hempty
  · cases congrArg mIndex1 hsame
  · exact hempty.mIndex1

variable {t : CommonIndex α} {text : α → String}

theorem eq_of_load (h : s.load R index1 index2 file1 file2 errno = some (.ok (), t)) :
    Accepted Index1.representation file1 ∧ Accepted R file2 ∧
      t = { mIndex1 := .live (itemsRead Index1.representation file1)
            mIndex2 := .live (itemsRead R file2)
            mSize1 := numberRead s.mSize1 file1
            mSize2 := numberRead s.mSize2 file2 } := by
  have hlive1 : s.mIndex1 ≠ .freed := by
    intro hfreed
    unfold load at h
    rw [hfreed] at h
    cases h
  by_cases h1 : Accepted Index1.representation file1
  · have hlive2 : s.mIndex2 ≠ .freed := by
      intro hfreed
      unfold load at h
      rw [loadData_of_accepted h1 hlive1, hfreed] at h
      cases h
    by_cases h2 : Accepted R file2
    · rw [load_of_accepted h1 hlive1 h2 hlive2] at h
      cases h
      exact ⟨h1, h2, rfl⟩
    · obtain ⟨q, hq⟩ := Pointer.exists_delete hlive2
      obtain ⟨e, he⟩ := load_of_rejected2 index1 index2 errno h1 hlive1 h2 hq
      rw [he] at h
      cases h
  · obtain ⟨q, hq⟩ := Pointer.exists_delete hlive1
    obtain ⟨e, he⟩ := load_of_rejected1 R index1 index2 errno file2 h1 hq
    rw [he] at h
    cases h

theorem Consistent.destroy (h : s.Consistent) : s.destroy = some () := by
  obtain ⟨p, hp⟩ := Pointer.exists_delete h.mIndex1.ne_freed
  obtain ⟨q, hq⟩ := Pointer.exists_delete h.mIndex2.ne_freed
  unfold CommonIndex.destroy
  rw [hp, hq]
  rfl

/-- Harmless files keep an index consistent, whether it is loaded or not. -/
theorem Consistent.load (hs : s.Consistent) (h : s.Harmless R file1 file2)
    (index1 index2 errno : String) :
    Succeeds (s.load R index1 index2 file1 file2 errno) fun r => r.2.Consistent := by
  obtain ⟨r, hr, hsafe⟩ := throwsSafely_of_harmless index1 index2 errno h
  refine ⟨r, hr, ?_⟩
  obtain ⟨result, t⟩ := r
  cases result with
  | error e =>
    rcases hsafe e rfl with hsame | hempty
    · exact hsame ▸ hs
    · exact hempty.toConsistent
  | ok u =>
    obtain ⟨h1, h2, rfl⟩ := eq_of_load hr
    exact ⟨length_itemsRead h1 _, length_itemsRead h2 _⟩

/-- Loads one after the other, whose exceptions are caught. -/
def loads (R : Representation α) (index1 index2 errno : String) (s : CommonIndex α) :
    List (Except String Bytes × Except String Bytes) → Option (CommonIndex α)
  | [] => some s
  | f :: fs => do
    let r ← s.load R index1 index2 f.1 f.2 errno
    r.2.loads R index1 index2 errno fs

def AlwaysHarmless (R : Representation α) (index1 index2 errno : String) (s : CommonIndex α) :
    List (Except String Bytes × Except String Bytes) → Prop
  | [] => True
  | f :: fs => s.Harmless R f.1 f.2 ∧ ∀ r, s.load R index1 index2 f.1 f.2 errno = some r →
      r.2.AlwaysHarmless R index1 index2 errno fs

theorem Consistent.loads (hs : s.Consistent)
    {files : List (Except String Bytes × Except String Bytes)}
    (h : s.AlwaysHarmless R index1 index2 errno files) :
    Succeeds (s.loads R index1 index2 errno files) fun t =>
      t.Consistent ∧ t.destroy = some () := by
  induction files generalizing s with
  | nil => exact ⟨s, rfl, hs, hs.destroy⟩
  | cons f fs ih =>
    obtain ⟨r, hr, hconsistent⟩ := hs.load h.1 index1 index2 errno
    unfold CommonIndex.loads
    rw [hr]
    exact ih hconsistent (h.2 r hr)

def Inside (s : CommonIndex α) (r : Option ℕ × UInt32) : Prop :=
  ∃ off, r.1 = some off ∧ ∀ pos, off ≤ pos → pos < off + r.2.toNat → pos < s.mSize2.toNat

/-- The slices that are handed out lie inside the second level. -/
structure SlicesInside (text : α → String) (s : CommonIndex α) : Prop where
  subscript : ∀ n < s.mSize1, Succeeds (s.subscript n) s.Inside
  get : ∀ n < s.mSize1, ∀ cnt, Succeeds (s.get cnt n) s.Inside
  print : (s.print text).isSome

/-- The slices of the first file end within the items of the second one. -/
def SlicesFit (file1 file2 : Except String Bytes) : Prop :=
  ∀ e ∈ itemsRead Index1.representation file1,
    e.cnt = 0 ∨ e.off.toNat + e.cnt.toNat ≤ (numberRead 0 file2).toNat

theorem inside_iff {off size : ℕ} {cnt : UInt32} :
    (∀ pos, off ≤ pos → pos < off + cnt.toNat → pos < size) ↔
      cnt = 0 ∨ off + cnt.toNat ≤ size := by
  have hzero : cnt = 0 ↔ cnt.toNat = 0 := by rw [← UInt32.toNat_inj, UInt32.toNat_zero]
  rw [hzero]
  constructor
  · intro h
    by_contra hno
    have := h (off + cnt.toNat - 1) (by omega) (by omega)
    omega
  · rintro (h | h) pos h₁ h₂ <;> omega

theorem isSome_printSlice {items2 : List α} (h2 : t.mIndex2 = .live items2)
    (hsize2 : items2.length = t.mSize2.toNat) {off cnt : ℕ}
    (hin : ∀ pos, off ≤ pos → pos < off + cnt → pos < t.mSize2.toNat) (os : String) :
    (t.printSlice text off cnt os).isSome := by
  refine isSome_foldlM (fun j hj os => ?_) _
  have hlt : off + j < items2.length := by
    rw [hsize2]
    exact hin _ (Nat.le_add_right _ _) (Nat.add_lt_add_left (List.mem_range.mp hj) _)
  have hitem : t.mIndex2.read (off + j) = some items2[off + j] := by
    rw [h2]
    exact List.getElem?_eq_getElem hlt
  rw [hitem]
  rfl

section Slices

variable {items1 : List Index1} {items2 : List α} (h1 : t.mIndex1 = .live items1)
  (h2 : t.mIndex2 = .live items2) (hsize1 : items1.length = t.mSize1.toNat)
  (hsize2 : items2.length = t.mSize2.toNat)
include h1 hsize1

theorem read_first {n : ℕ} (hn : n < t.mSize1.toNat) :
    ∃ e ∈ items1, t.mIndex1.read n = some e := by
  rw [← hsize1] at hn
  refine ⟨items1[n], List.getElem_mem hn, ?_⟩
  rw [h1]
  exact List.getElem?_eq_getElem hn

theorem subscript_eq {n : UInt64} (hn : n < t.mSize1) (cnt : UInt32) :
    ∃ e ∈ items1, t.mIndex1.read n.toNat = some e ∧
      t.subscript n = some (some e.off.toNat, e.cnt) ∧
      t.get cnt n = some (some e.off.toNat, e.cnt) := by
  obtain ⟨e, he, hread⟩ := read_first h1 hsize1 (UInt64.lt_iff_toNat_lt.mp hn)
  refine ⟨e, he, hread, ?_, ?_⟩
  · unfold subscript
    rw [if_neg (UInt64.not_le.mpr hn), hread]
    rfl
  · unfold get
    rw [if_neg (UInt64.not_le.mpr hn), hread]
    rfl

include h2 hsize2

theorem slicesInside_of_fit
    (hfit : ∀ e ∈ items1, e.cnt = 0 ∨ e.off.toNat + e.cnt.toNat ≤ t.mSize2.toNat) :
    t.SlicesInside text := by
  constructor
  · intro n hn
    obtain ⟨e, he, -, hslice, -⟩ := subscript_eq h1 hsize1 hn 0
    rw [hslice, succeeds_some]
    exact ⟨_, rfl, inside_iff.mpr (hfit e he)⟩
  · intro n hn cnt
    obtain ⟨e, he, -, -, hslice⟩ := subscript_eq h1 hsize1 hn cnt
    rw [hslice, succeeds_some]
    exact ⟨_, rfl, inside_iff.mpr (hfit e he)⟩
  · refine isSome_foldlM (fun i hi os => ?_) _
    obtain ⟨e, he, hread⟩ := read_first h1 hsize1 (List.mem_range.mp hi)
    rw [hread]
    simp only [Option.bind_eq_bind, Option.bind_some]
    split
    · have hin := inside_iff.mpr (hfit e he)
      obtain ⟨out, hout⟩ := Option.isSome_iff_exists.mp
        (isSome_printSlice h2 hsize2 hin (os ++ "<" ++ toString i ++ " : "))
      rw [hout]
      rfl
    · rfl

end Slices

/-- The slices of an index that was loaded lie inside its second level exactly if those of the first
file end within the items of the second one. -/
theorem load_slicesInside_iff (h : s.load R index1 index2 file1 file2 errno = some (.ok (), t))
    (text : α → String) : t.SlicesInside text ↔ SlicesFit file1 file2 := by
  obtain ⟨ha1, ha2, ht⟩ := eq_of_load h
  have h1 : t.mIndex1 = .live (itemsRead Index1.representation file1) := by rw [ht]
  have h2 : t.mIndex2 = .live (itemsRead R file2) := by rw [ht]
  have hsize1 : (itemsRead Index1.representation file1).length = t.mSize1.toNat := by
    rw [ht]
    exact length_itemsRead ha1 s.mSize1
  have hsize2 : (itemsRead R file2).length = t.mSize2.toNat := by
    rw [ht]
    exact length_itemsRead ha2 s.mSize2
  have hnumber : numberRead 0 file2 = t.mSize2 := by
    rw [ht]
    exact numberRead_of_accepted ha2 0 s.mSize2
  unfold SlicesFit
  rw [hnumber]
  constructor
  · intro hin e he
    obtain ⟨i, hi, rfl⟩ := List.getElem_of_mem he
    have hlt : i < t.mSize1.toNat := hsize1 ▸ hi
    have hword : (UInt64.ofNat i).toNat = i := by
      rw [UInt64.toNat_ofNat']
      exact Nat.mod_eq_of_lt (Nat.lt_trans hlt (UInt64.toNat_lt _))
    have hn : UInt64.ofNat i < t.mSize1 := UInt64.lt_iff_toNat_lt.mpr (by rwa [hword])
    obtain ⟨e, -, hread, hslice, -⟩ := subscript_eq h1 hsize1 hn 0
    rw [hword, h1] at hread
    have hitem : e = (itemsRead Index1.representation file1)[i] :=
      Option.some.inj (hread.symm.trans (List.getElem?_eq_getElem hi))
    obtain ⟨off, hoff, hpos⟩ := (hin.subscript _ hn).of_eq hslice
    obtain rfl := Option.some.inj hoff
    rw [← hitem]
    exact inside_iff.mp hpos
  · exact fun hfit => slicesInside_of_fit h1 h2 hsize1 hsize2 hfit

theorem load_slicesInside_iff_one :
    ∃ t, new.load Representation.word "1" "2"
        (.ok [1, 0, 0, 0, 0, 0, 0, 0, 0, 0, 0, 0, 1, 0, 0, 0])
        (.ok [1, 0, 0, 0, 0, 0, 0, 0, 7, 0, 0, 0]) "" = some (.ok (), t) ∧
      (t.SlicesInside (fun w => toString w) ↔
        SlicesFit (.ok [1, 0, 0, 0, 0, 0, 0, 0, 0, 0, 0, 0, 1, 0, 0, 0])
          (.ok [1, 0, 0, 0, 0, 0, 0, 0, 7, 0, 0, 0])) := by
  have hload : new.load Representation.word "1" "2"
      (.ok [1, 0, 0, 0, 0, 0, 0, 0, 0, 0, 0, 0, 1, 0, 0, 0])
      (.ok [1, 0, 0, 0, 0, 0, 0, 0, 7, 0, 0, 0]) "" =
        some (.ok (), ⟨.live [⟨0, 1⟩], .live [7], 1, 1⟩) := rfl
  exact ⟨_, hload, load_slicesInside_iff hload _⟩

/-- An accepted pair of files whose only slice begins behind the only item. -/
theorem slice_outside :
    Succeeds (new.load Representation.word "1" "2"
        (.ok [1, 0, 0, 0, 0, 0, 0, 0, 5, 0, 0, 0, 1, 0, 0, 0])
        (.ok [1, 0, 0, 0, 0, 0, 0, 0, 7, 0, 0, 0]) "") fun r =>
      r.1 = .ok () ∧ ¬ r.2.SlicesInside fun w => toString w := by
  refine ⟨_, rfl, rfl, fun h => ?_⟩
  obtain ⟨r, hr, off, hoff, hpos⟩ := h.subscript 0 (by decide)
  cases hr
  cases hoff
  exact absurd (hpos 5 (by decide) (by decide)) (by decide)

end CommonIndex

end YlUtils
