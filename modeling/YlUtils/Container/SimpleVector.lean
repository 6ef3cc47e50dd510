import YlUtils.Concurrency.Schedule
import YlUtils.Machine.Heap

/-! # Vectors of plain data

A vector has room for more items than it shows. It is copied with all of its room,
whatever its items mean. The calls are compared with those of plain arrays, of which
each belongs to one name.
-/

namespace YlUtils

/-- `mData` is the number of an array, or `NULL`. -/
structure SimpleVector where
  mSize : UInt32
  mCapacity : UInt32
  mData : Option ℕ

namespace SimpleVector

section Functions

variable {α : Type}

/-- `new ItemType[n]`: the items are what the memory has. -/
def newItems (mem : ℕ → α) (h : Heap α) (n : ℕ) : ℕ × Heap α := h.alloc ((List.range n).map mem)

def null : SimpleVector := ⟨0, 0, none⟩

def construct (mem : ℕ → α) (h : Heap α) (size : ℕ) : SimpleVector × Heap α :=
  let mSize := UInt32.ofNat size
  if mSize ≠ 0 then
    let (mData, h) := newItems mem h mSize.toNat
    (⟨mSize, mSize, some mData⟩, h)
  else (⟨mSize, mSize, none⟩, h)

def constructFill (mem : ℕ → α) (h : Heap α) (size : ℕ) (value : α) :
    Option (SimpleVector × Heap α) :=
  let mCapacity := UInt32.ofNat size
  if mCapacity ≠ 0 then do
    let (mData, h) := newItems mem h mCapacity.toNat
    let h ← h.fill mData mCapacity.toNat value
    some (⟨mCapacity, mCapacity, some mData⟩, h)
  else some (⟨mCapacity, mCapacity, none⟩, h)

def copyItems (mem : ℕ → α) (h : Heap α) (v other : SimpleVector) :
    Option (SimpleVector × Heap α) :=
  match other.mData with
  | some data =>
    if other.mCapacity ≠ 0 then do
      let (mData, h) := newItems mem h other.mCapacity.toNat
      let h ← h.memcpy mData data other.mCapacity.toNat
      some (⟨other.mSize, other.mCapacity, some mData⟩, h)
    else some (v, h)
  | none => some (v, h)

def copy (mem : ℕ → α) (h : Heap α) (other : SimpleVector) : Option (SimpleVector × Heap α) :=
  copyItems mem h null other

/-- `delete []mData`, unless it is `NULL`. -/
def deleteData (h : Heap α) (v : SimpleVector) : Option (Heap α) :=
  match v.mData with
  | some data => h.free data
  | none => some h

def assign (mem : ℕ → α) (h : Heap α) (v other : SimpleVector) :
    Option (SimpleVector × Heap α) := do
  let h ← v.deleteData h
  copyItems mem h (if v.mData = none then v else null) other

def write (h : Heap α) (v : SimpleVector) (n : ℕ) (x : α) : Option (Heap α) := do
  let data ← v.mData
  h.write data n x

def read (h : Heap α) (v : SimpleVector) (n : ℕ) : Option α := do
  let data ← v.mData
  h.read data n

/-- `memcpy` of all items to the array `ptmp`, if there are any to show. -/
def copyTo (h : Heap α) (v : SimpleVector) (ptmp : ℕ) : Option (Heap α) :=
  if v.mSize ≠ 0 then do
    let data ← v.mData
    h.memcpy ptmp data v.mCapacity.toNat
  else some h

def resize (mem : ℕ → α) (h : Heap α) (v : SimpleVector) (n : ℕ) :
    Option (SimpleVector × Heap α) :=
  if n > v.mCapacity.toNat then do
    let (ptmp, h) := newItems mem h n
    let h ← v.copyTo h ptmp
    let h ← v.deleteData h
    some (⟨UInt32.ofNat n, UInt32.ofNat n, some ptmp⟩, h)
  else some ({ v with mSize := UInt32.ofNat n }, h)

def clear (h : Heap α) (v : SimpleVector) : Option (SimpleVector × Heap α) := do
  let h ← v.deleteData h
  some (null, h)

def array (h : Heap α) (v : SimpleVector) : List α :=
  ((v.mData.bind h.block).getD []).take v.mSize.toNat

structure WellFormed (h : Heap α) (v : SimpleVector) : Prop where
  size_le : v.mSize ≤ v.mCapacity
  data : match v.mData with
    | none => v.mCapacity = 0
    | some b => ∃ items, h.block b = some items ∧ items.length = v.mCapacity.toNat

/-- What a call makes of a vector that had the array `old`: what belongs to others is kept. -/
structure Made (h : Heap α) (old : Option ℕ) (A : List α → Prop) (r : SimpleVector × Heap α) :
    Prop where
  keeps : h.Keeps old r.2
  owns : ∀ b, r.1.mData = some b → old = some b ∨ h.block b = none
  wellFormed : r.1.WellFormed r.2
  array : A (r.1.array r.2)

end Functions

section Specs

variable {α : Type} {h h' : Heap α} {v other : SimpleVector} {b n k : ℕ} {items : List α}
  {old : Option ℕ} {A : List α → Prop}

theorem array_of_block (hv : v.mData = some b) (hb : h.block b = some items) :
    v.array h = items.take v.mSize.toNat := by
  rw [array, hv, Option.bind_some, hb, Option.getD_some]

theorem WellFormed.size_le_toNat (hw : v.WellFormed h) : v.mSize.toNat ≤ v.mCapacity.toNat :=
  UInt32.le_iff_toNat_le.mp hw.size_le

theorem WellFormed.null_or_block (hw : v.WellFormed h) : v = null ∨ ∃ b items,
    v.mData = some b ∧ h.block b = some items ∧ items.length = v.mCapacity.toNat := by
  obtain ⟨mSize, mCapacity, mData⟩ := v
  have hsize := hw.size_le_toNat
  cases mData with
  | none =>
    left
    have hcap : mCapacity = 0 := hw.data
    rw [show SimpleVector.mCapacity ⟨mSize, mCapacity, none⟩ = 0 from hcap] at hsize
    have hzero : mSize = 0 := UInt32.toNat_inj.mp (Nat.le_zero.mp hsize)
    rw [null, hzero, hcap]
  | some b =>
    right
    obtain ⟨items, hb, hlen⟩ := hw.data
    exact ⟨b, items, rfl, hb, hlen⟩

theorem wellFormed_null : null.WellFormed h := ⟨UInt32.le_refl 0, rfl⟩

theorem WellFormed.length_array (hw : v.WellFormed h) : (v.array h).length = v.mSize.toNat := by
  rcases hw.null_or_block with rfl | ⟨b, items, hv, hb, hlen⟩
  · rfl
  · have hle := hw.size_le_toNat
    rw [array_of_block hv hb, List.length_take]
    omega

theorem WellFormed.ne_fresh (hw : v.WellFormed h) (hb : h.block b = none) : v.mData ≠ some b := by
  rcases hw.null_or_block with rfl | ⟨c, items, hv, hc, -⟩
  · exact Option.some_ne_none b ∘ Eq.symm
  · rw [hv]
    exact fun hcb => Heap.ne_of_fresh hc hb (Option.some.inj hcb)

theorem WellFormed.kept (hw : v.WellFormed h) (hk : h.Keeps old h')
    (hne : ∀ b, v.mData = some b → old ≠ some b) :
    v.WellFormed h' ∧ v.array h' = v.array h := by
  rcases hw.null_or_block with rfl | ⟨b, items, hv, hb, hlen⟩
  · exact ⟨wellFormed_null, rfl⟩
  · have hb' := hk b items hb (hne b hv)
    refine ⟨⟨hw.size_le, ?_⟩, ?_⟩
    · rw [hv]
      exact ⟨items, hb', hlen⟩
    · rw [array_of_block hv hb, array_of_block hv hb']

theorem made_of_block (hk : h.Keeps old h') (hold : old = some b ∨ h.block b = none)
    (hb : h'.block b = some items) {mSize mCapacity : UInt32} (hle : mSize ≤ mCapacity)
    (hlen : items.length = mCapacity.toNat) (hA : A (items.take mSize.toNat)) :
    Made h old A (⟨mSize, mCapacity, some b⟩, h') := by
  refine ⟨hk, ?_, ⟨hle, items, hb, hlen⟩, ?_⟩
  · intro c hc
    exact Option.some.inj hc ▸ hold
  · rwa [array_of_block rfl hb]

theorem made_of_fresh (hfresh : h.block b = none)
    (hb : h'.block = Function.update h.block b (some items)) {mSize mCapacity : UInt32}
    (hle : mSize ≤ mCapacity) (hlen : items.length = mCapacity.toNat)
    (hA : A (items.take mSize.toNat)) : Made h none A (⟨mSize, mCapacity, some b⟩, h') := by
  have hk : h.Keeps none h' := (Heap.Keeps.refl h none).update hb (.inr hfresh)
  exact made_of_block hk (.inr hfresh) (by rw [hb, Function.update_self]) hle hlen hA

theorem made_null (hk : h.Keeps old h') (hA : A []) : Made h old A (null, h') :=
  ⟨hk, fun _ hb => (by cases hb), wellFormed_null, hA⟩

theorem newItems_spec (mem : ℕ → α) (h : Heap α) (n : ℕ) : ∃ b h₁ items,
    newItems mem h n = (b, h₁) ∧ items.length = n ∧ h.block b = none ∧
      h₁.block = Function.update h.block b (some items) := by
  refine ⟨_, _, (List.range n).map mem, rfl, by simp, ?_, ?_⟩
  · exact Heap.block_alloc_fresh h ((List.range n).map mem)
  · exact Heap.block_alloc h ((List.range n).map mem)

theorem construct_spec (mem : ℕ → α) (h : Heap α) (hn : n < 4294967296) :
    Made h none (fun l => l.length = n) (construct mem h n) := by
  have hsize := UInt32.toNat_ofNat_of_lt' hn
  unfold construct
  by_cases hzero : UInt32.ofNat n = 0
  · have hn : n = 0 := by rw [← hsize, hzero]; rfl
    rw [hzero]
    exact made_null (Heap.Keeps.refl h none) hn.symm
  · obtain ⟨b, h₁, items, hnew, hlen, hfresh, hb⟩ := newItems_spec mem h n
    simp only [if_pos hzero, ne_eq, hsize, hnew]
    apply made_of_fresh hfresh hb
    · exact UInt32.le_refl _
    · rw [hlen, hsize]
    · rw [hsize, List.length_take, hlen, Nat.min_self]

theorem constructFill_spec (mem : ℕ → α) (h : Heap α) (hn : n < 4294967296) (value : α) :
    Succeeds (constructFill mem h n value)
      (Made h none fun l => l = List.replicate n value) := by
  have hsize := UInt32.toNat_ofNat_of_lt' hn
  unfold constructFill
  by_cases hzero : UInt32.ofNat n = 0
  · have hn : n = 0 := by rw [← hsize, hzero]; rfl
    rw [hzero]
    exact succeeds_some.mpr (made_null (Heap.Keeps.refl h none) (by rw [hn]; rfl))
  · obtain ⟨b, h₁, items, hnew, hlen, hfresh, hb⟩ := newItems_spec mem h n
    simp only [if_pos hzero, ne_eq, hsize, hnew]
    have hb₁ : h₁.block b = some items := by rw [hb, Function.update_self]
    refine (Heap.fill_spec hb₁ (Nat.le_of_eq hlen.symm) value).bind fun h₂ hb₂ => ?_
    rw [hb, Function.update_idem] at hb₂
    refine succeeds_some.mpr (made_of_fresh hfresh hb₂ ?_ ?_ ?_)
    · exact UInt32.le_refl _
    · rw [List.length_append, List.length_replicate, List.length_drop, hlen, hsize]
      omega
    · rw [hsize, List.take_left' (List.length_replicate)]

theorem deleteData_spec (hw : v.WellFormed h) :
    Succeeds (v.deleteData h) (h.Keeps v.mData) := by
  rcases hw.null_or_block with rfl | ⟨b, items, hv, hb, -⟩
  · exact succeeds_some.mpr (Heap.Keeps.refl h none)
  · rw [deleteData, hv]
    exact (Heap.free_spec hb).mono fun h' hb' => (Heap.Keeps.refl h (some b)).update hb' (.inl rfl)

theorem copyItems_spec (mem : ℕ → α) (hw : other.WellFormed h) :
    Succeeds (copyItems mem h null other) (Made h none fun l => l = other.array h) := by
  rcases hw.null_or_block with rfl | ⟨data, items, hv, hd, hlen⟩
  · exact succeeds_some.mpr (made_null (Heap.Keeps.refl h none) rfl)
  · simp only [copyItems, hv]
    by_cases hzero : other.mCapacity = 0
    · simp only [hzero, ne_eq, not_true_eq_false, if_false]
      refine succeeds_some.mpr (made_null (Heap.Keeps.refl h none) ?_)
      rw [hzero] at hlen
      rw [array_of_block hv hd, List.eq_nil_of_length_eq_zero hlen, List.take_nil]
    · obtain ⟨b, h₁, found, hnew, hfound, hfresh, hb⟩ :=
        newItems_spec mem h other.mCapacity.toNat
      simp only [hnew, ne_eq, hzero, not_false_eq_true, if_true]
      have hne := Heap.ne_of_fresh hd hfresh
      have hb₁ : h₁.block b = some found := by rw [hb, Function.update_self]
      have hd₁ : h₁.block data = some items := by rw [hb, Function.update_of_ne hne, hd]
      have hroom := Nat.le_of_eq hfound.symm
      refine (Heap.memcpy_spec hb₁ hd₁ hroom (Nat.le_of_eq hlen.symm)).bind fun h₂ hb₂ => ?_
      have hall : items.take other.mCapacity.toNat ++ found.drop other.mCapacity.toNat = items := by
        rw [← hlen, List.take_length, hlen, ← hfound, List.drop_length, List.append_nil]
      rw [hall, hb, Function.update_idem] at hb₂
      refine succeeds_some.mpr (made_of_fresh hfresh hb₂ ?_ ?_ ?_)
      · exact hw.size_le
      · exact hlen
      · exact (array_of_block hv hd).symm

theorem assign_spec (mem : ℕ → α) (hw : v.WellFormed h) (hw' : other.WellFormed h)
    (hne : ∀ b, other.mData = some b → v.mData ≠ some b) :
    Succeeds (v.assign mem h other) (Made h v.mData fun l => l = other.array h) := by
  refine (deleteData_spec hw).bind fun h₁ hk => ?_
  have hnull : (if v.mData = none then v else null) = null := by
    split
    · next hv =>
      rcases hw.null_or_block with hnull | ⟨b, items, hb, -⟩
      · exact hnull
      · rw [hv] at hb
        cases hb
    · rfl
  obtain ⟨hw₁, harray⟩ := hw'.kept hk hne
  rw [hnull]
  refine (copyItems_spec mem hw₁).mono fun r hr =>
    ⟨hk.trans (hr.keeps.of_none _), ?_, hr.wellFormed, ?_⟩
  · intro b hb
    have hfresh := (hr.owns b hb).resolve_left (by simp)
    exact hk.eq_or_fresh hfresh
  · rw [hr.array, harray]

theorem copyTo_spec {found : List α} (hw : v.WellFormed h) {h₁ : Heap α} {p : ℕ}
    (hfresh : h.block p = none) (hb : h₁.block = Function.update h.block p (some found))
    (hroom : v.mCapacity.toNat ≤ found.length) :
    Succeeds (v.copyTo h₁ p) fun h₂ => ∃ items,
      h₂.block = Function.update h.block p (some items) ∧ items.length = found.length ∧
        items.take v.mSize.toNat = v.array h := by
  apply Succeeds.ite
  · intro hsize
    rcases hw.null_or_block with rfl | ⟨data, items, hv, hd, hlen⟩
    · exact absurd rfl hsize
    · rw [hv]
      have hne := Heap.ne_of_fresh hd hfresh
      have hb₁ : h₁.block p = some found := by rw [hb, Function.update_self]
      have hd₁ : h₁.block data = some items := by rw [hb, Function.update_of_ne hne, hd]
      refine (Heap.memcpy_spec hb₁ hd₁ hroom (Nat.le_of_eq hlen.symm)).mono fun h₂ hb₂ => ?_
      have hle := hw.size_le_toNat
      rw [← hlen, List.take_length] at hb₂
      refine ⟨items ++ found.drop items.length, ?_, ?_, ?_⟩
      · rw [hb₂, hb, Function.update_idem]
      · rw [List.length_append, List.length_drop]
        omega
      · rw [array_of_block hv hd, List.take_append_of_le_length (by omega)]
  · intro hsize
    have hzero : v.mSize.toNat = 0 := congrArg UInt32.toNat (not_not.mp hsize)
    refine succeeds_some.mpr ⟨found, hb, rfl, ?_⟩
    have hempty := hw.length_array
    rw [hzero] at hempty ⊢
    exact (List.eq_nil_of_length_eq_zero hempty).symm

theorem resize_spec (mem : ℕ → α) (hw : v.WellFormed h) (hn : n < 4294967296) :
    Succeeds (v.resize mem h n) (Made h v.mData fun l =>
      l.length = n ∧ l.take (min v.mSize.toNat n) = (v.array h).take (min v.mSize.toNat n)) := by
  have hsize := UInt32.toNat_ofNat_of_lt' hn
  have hle := hw.size_le_toNat
  apply Succeeds.ite
  · intro hgt
    obtain ⟨p, h₁, found, hnew, hfound, hfresh, hb⟩ := newItems_spec mem h n
    simp only [hnew]
    refine (copyTo_spec hw hfresh hb (by omega)).bind fun h₂ hgrown => ?_
    obtain ⟨items, hb₂, hlen, htake⟩ := hgrown
    have hk₂ : h.Keeps none h₂ := (Heap.Keeps.refl h none).update hb₂ (.inr hfresh)
    have hne : ∀ b, v.mData = some b → (none : Option ℕ) ≠ some b := by simp
    refine (deleteData_spec (hw.kept hk₂ hne).1).bind fun h₃ hk₃ => succeeds_some.mpr ?_
    apply made_of_block
    · exact (hk₂.of_none _).trans hk₃
    · exact .inr hfresh
    · exact hk₃ p items (by rw [hb₂, Function.update_self]) (hw.ne_fresh hfresh)
    · exact UInt32.le_refl _
    · rw [hlen, hfound, hsize]
    · rw [hsize, List.take_of_length_le (by omega), ← htake, List.take_take, hlen, hfound]
      refine ⟨rfl, ?_⟩
      congr 1
      omega
  · intro hge
    refine succeeds_some.mpr ?_
    rcases hw.null_or_block with rfl | ⟨b, items, hv, hb, hlen⟩
    · obtain rfl : n = 0 := Nat.le_zero.mp (Nat.not_lt.mp hge)
      exact made_null (Heap.Keeps.refl h none) ⟨rfl, rfl⟩
    · rw [hv]
      apply made_of_block
      · exact Heap.Keeps.refl h _
      · exact .inl rfl
      · exact hb
      · rw [UInt32.le_iff_toNat_le, hsize]
        omega
      · exact hlen
      · rw [hsize, array_of_block hv hb, List.take_take, List.take_take, List.length_take]
        refine ⟨by omega, ?_⟩
        congr 1
        omega

theorem clear_spec (hw : v.WellFormed h) :
    Succeeds (v.clear h) (Made h v.mData fun l => l = []) :=
  (deleteData_spec hw).bind fun _ hk => succeeds_some.mpr (made_null hk rfl)

theorem write_spec (hw : v.WellFormed h) (hk : k < v.mSize.toNat) (x : α) :
    Succeeds (v.write h k x) fun h' =>
      Made h v.mData (fun l => l = (v.array h).set k x) (v, h') := by
  rcases hw.null_or_block with rfl | ⟨b, items, hv, hb, hlen⟩
  · exact absurd hk (Nat.not_lt_zero k)
  · have hlt : k < items.length := by
      have hle := hw.size_le_toNat
      omega
    have harray := array_of_block hv hb
    obtain ⟨mSize, mCapacity, mData⟩ := v
    obtain rfl : mData = some b := hv
    refine (Heap.write_spec hb hlt x).mono fun h' hb' => ?_
    apply made_of_block
    · exact (Heap.Keeps.refl h _).update hb' (.inl rfl)
    · exact .inl rfl
    · rw [hb', Function.update_self]
    · exact hw.size_le
    · rw [List.length_set, hlen]
    · rw [harray, List.take_set]

theorem read_eq (hw : v.WellFormed h) (hk : k < v.mSize.toNat) : v.read h k = (v.array h)[k]? := by
  rcases hw.null_or_block with rfl | ⟨b, items, hv, hb, -⟩
  · exact absurd hk (Nat.not_lt_zero k)
  · rw [array_of_block hv hb, List.getElem?_take_of_lt hk, read, hv, Option.bind_eq_bind,
      Option.bind_some, Heap.read, hb]
    rfl

end Specs

/-- The vectors that have been constructed and not destructed, under the names they have. -/
structure World (ν α : Type) where
  heap : Heap α
  vectors : ν → Option SimpleVector

/-- The calls, with what new memory holds. -/
inductive Act (ν α : Type)
  | construct (i : ν) (size : ℕ) (mem : ℕ → α)
  | constructFill (i : ν) (size : ℕ) (value : α) (mem : ℕ → α)
  | copy (i j : ν) (mem : ℕ → α)
  | assign (i j : ν) (mem : ℕ → α)
  | write (i : ν) (k : ℕ) (x : α)
  | resize (i : ν) (n : ℕ) (mem : ℕ → α)
  | clear (i : ν)
  | destruct (i : ν)

variable {ν α : Type} [DecidableEq ν]

def start : World ν α := ⟨.empty, fun _ => none⟩

def World.put (w : World ν α) (i : ν) (r : Option (SimpleVector × Heap α)) :
    Outcome (World ν α × List Empty) :=
  match r with
  | none => .undefined
  | some (v, h) => .ok (⟨h, Function.update w.vectors i (some v)⟩, [])

/-- A vector is constructed once, and all else is done with vectors that are there. Items are
written below the size. -/
def step (w : World ν α) : Act ν α → Outcome (World ν α × List Empty)
  | .construct i size mem =>
    match w.vectors i with
    | none => w.put i (some (construct mem w.heap size))
    | some _ => .blocked
  | .constructFill i size value mem =>
    match w.vectors i with
    | none => w.put i (constructFill mem w.heap size value)
    | some _ => .blocked
  | .copy i j mem =>
    match w.vectors i, w.vectors j with
    | none, some other => w.put i (copy mem w.heap other)
    | _, _ => .blocked
  | .assign i j mem =>
    match w.vectors i, w.vectors j with
    | some v, some other =>
      if i = j then .ok (w, []) else w.put i (v.assign mem w.heap other)
    | _, _ => .blocked
  | .write i k x =>
    match w.vectors i with
    | some v =>
      if k < v.mSize.toNat then w.put i ((v.write w.heap k x).map fun h => (v, h)) else .blocked
    | none => .blocked
  | .resize i n mem =>
    match w.vectors i with
    | some v => w.put i (v.resize mem w.heap n)
    | none => .blocked
  | .clear i =>
    match w.vectors i with
    | some v => w.put i (v.clear w.heap)
    | none => .blocked
  | .destruct i =>
    match w.vectors i with
    | some v =>
      match v.deleteData w.heap with
      | none => .undefined
      | some h => .ok (⟨h, Function.update w.vectors i none⟩, [])
    | none => .blocked

def Act.Fits : Act ν α → Prop
  | .construct _ size _ => size < 4294967296
  | .constructFill _ size _ _ => size < 4294967296
  | .resize _ n _ => n < 4294967296
  | _ => True

/-- The plain arrays that the vectors stand for. -/
def World.arrays (w : World ν α) (i : ν) : Option (List α) := (w.vectors i).map (array w.heap)

/-- What is called is possible for plain arrays. -/
def Act.Callable (A : ν → Option (List α)) : Act ν α → Prop
  | .construct i _ _ => A i = none
  | .constructFill i _ _ _ => A i = none
  | .copy i j _ => A i = none ∧ (A j).isSome
  | .assign i j _ => (A i).isSome ∧ (A j).isSome
  | .write i k _ => ∃ l, A i = some l ∧ k < l.length
  | .resize i _ _ => (A i).isSome
  | .clear i => (A i).isSome
  | .destruct i => (A i).isSome

/-- What a call does to plain arrays, each of which belongs to one name. -/
def Act.Spec (A A' : ν → Option (List α)) : Act ν α → Prop
  | .construct i size _ => ∃ l, l.length = size ∧ A' = Function.update A i (some l)
  | .constructFill i size value _ => A' = Function.update A i (some (List.replicate size value))
  | .copy i j _ => A' = Function.update A i (A j)
  | .assign i j _ => A' = Function.update A i (A j)
  | .write i k x => A' = Function.update A i ((A i).map fun l => l.set k x)
  | .resize i n _ => ∃ l l', A i = some l ∧ l'.length = n ∧
      l'.take (min l.length n) = l.take (min l.length n) ∧ A' = Function.update A i (some l')
  | .clear i => A' = Function.update A i (some [])
  | .destruct i => A' = Function.update A i none

/-- Each vector has an array of its own. -/
structure Inv (w : World ν α) : Prop where
  wellFormed : ∀ i v, w.vectors i = some v → v.WellFormed w.heap
  apart : ∀ i j v u b, w.vectors i = some v → w.vectors j = some u → v.mData = some b →
    u.mData = some b → i = j

section Runs

variable {w : World ν α} {i : ν} {h' : Heap α} {r : Option (SimpleVector × Heap α)}
  {A : List α → Prop}

omit [DecidableEq ν] in
theorem inv_start : Inv (start : World ν α) := by
  constructor
  · intro i v hv
    cases hv
  · intro i j v u b hv
    cases hv

theorem eq_some_of_update {o : Option SimpleVector} {j : ν} {v : SimpleVector}
    (h : Function.update w.vectors i o j = some v) :
    (j = i ∧ o = some v) ∨ (j ≠ i ∧ w.vectors j = some v) := by
  by_cases hj : j = i
  · subst hj
    rw [Function.update_self] at h
    exact .inl ⟨rfl, h⟩
  · rw [Function.update_of_ne hj] at h
    exact .inr ⟨hj, h⟩

theorem Inv.update (hI : Inv w) {o : Option SimpleVector}
    (hk : w.heap.Keeps ((w.vectors i).bind mData) h')
    (howns : ∀ v b, o = some v → v.mData = some b →
      (w.vectors i).bind mData = some b ∨ w.heap.block b = none)
    (hwf : ∀ v, o = some v → v.WellFormed h') :
    Inv ⟨h', Function.update w.vectors i o⟩ ∧
      World.arrays ⟨h', Function.update w.vectors i o⟩ =
        Function.update w.arrays i (o.map (array h')) := by
  have hothers : ∀ j u, j ≠ i → w.vectors j = some u →
      u.WellFormed h' ∧ u.array h' = u.array w.heap := by
    intro j u hj hu
    refine (hI.wellFormed j u hu).kept hk ?_
    intro b hb hold
    obtain ⟨v, hv, hvb⟩ := Option.bind_eq_some_iff.mp hold
    exact hj (hI.apart j i u v b hu hv hb hvb)
  have hdistinct : ∀ j v u b, j ≠ i → o = some v → w.vectors j = some u → v.mData = some b →
      u.mData ≠ some b := by
    intro j v u b hj hv hu hb hub
    rcases howns v b hv hb with hold | hfresh
    · obtain ⟨v', hv', hvb'⟩ := Option.bind_eq_some_iff.mp hold
      exact hj (hI.apart j i u v' b hu hv' hub hvb')
    · exact (hI.wellFormed j u hu).ne_fresh hfresh hub
  refine ⟨⟨?_, ?_⟩, ?_⟩
  · intro j v hv
    rcases eq_some_of_update hv with ⟨-, hnew⟩ | ⟨hj, hv'⟩
    · exact hwf v hnew
    · exact (hothers j v hj hv').1
  · intro j k v u b hv hu hvb hub
    rcases eq_some_of_update hv with ⟨hji, hnew⟩ | ⟨hj, hv'⟩ <;>
      rcases eq_some_of_update hu with ⟨hki, hnew'⟩ | ⟨hk, hu'⟩
    · exact hji.trans hki.symm
    · exact absurd hub (hdistinct k v u b hk hnew hu' hvb)
    · exact absurd hvb (hdistinct j u v b hj hnew' hv' hub)
    · exact hI.apart j k v u b hv' hu' hvb hub
  · funext j
    by_cases hj : j = i
    · subst hj
      simp only [World.arrays, Function.update_self]
    · simp only [World.arrays, Function.update_of_ne hj]
      cases hu : w.vectors j with
      | none => rfl
      | some u => exact congrArg some (hothers j u hj hu).2

theorem Inv.put (hI : Inv w) {old : Option ℕ} (hold : (w.vectors i).bind mData = old)
    (hr : Succeeds r (Made w.heap old A)) : (w.put i r).Holds fun (w', _) =>
      Inv w' ∧ ∃ l, A l ∧ w'.arrays = Function.update w.arrays i (some l) := by
  obtain ⟨⟨v, h'⟩, rfl, hmade⟩ := hr
  subst hold
  have hw' := hI.update (o := some v) hmade.keeps
    (fun u b hu hb => hmade.owns b (Option.some.inj hu ▸ hb))
    (fun u hu => Option.some.inj hu ▸ hmade.wellFormed)
  exact ⟨hw'.1, v.array h', hmade.array, hw'.2⟩

theorem Inv.put_eq (hI : Inv w) {old : Option ℕ} {l : List α}
    (hold : (w.vectors i).bind mData = old)
    (hr : Succeeds r (Made w.heap old fun l' => l' = l)) : (w.put i r).Holds fun (w', _) =>
      Inv w' ∧ w'.arrays = Function.update w.arrays i (some l) := by
  refine (hI.put hold hr).mono ?_
  rintro ⟨w', _⟩ ⟨hI', l', rfl, hw'⟩
  exact ⟨hI', hw'⟩

omit [DecidableEq ν] in
theorem arrays_eq {v : SimpleVector} (hi : w.vectors i = some v) :
    w.arrays i = some (v.array w.heap) := by
  rw [World.arrays, hi, Option.map_some]

theorem step_construct (hI : Inv w) {size : ℕ} {mem : ℕ → α} (ha : size < 4294967296) :
    (step w (.construct i size mem)).Holds fun (w', _) =>
      Inv w' ∧ (Act.construct i size mem).Spec w.arrays w'.arrays := by
  cases hi : w.vectors i with
  | some v => simp [step, hi]
  | none =>
    simp only [step, hi, Act.Spec]
    apply hI.put (by rw [hi])
    exact succeeds_some.mpr (construct_spec mem w.heap ha)

theorem step_constructFill (hI : Inv w) {size : ℕ} {value : α} {mem : ℕ → α}
    (ha : size < 4294967296) : (step w (.constructFill i size value mem)).Holds fun (w', _) =>
      Inv w' ∧ (Act.constructFill i size value mem).Spec w.arrays w'.arrays := by
  cases hi : w.vectors i with
  | some v => simp [step, hi]
  | none =>
    simp only [step, hi, Act.Spec]
    apply hI.put_eq (by rw [hi])
    exact constructFill_spec mem w.heap ha value

theorem step_copy (hI : Inv w) {j : ν} {mem : ℕ → α} :
    (step w (.copy i j mem)).Holds fun (w', _) =>
      Inv w' ∧ (Act.copy i j mem).Spec w.arrays w'.arrays := by
  cases hi : w.vectors i with
  | some v => simp [step, hi]
  | none =>
    cases hj : w.vectors j with
    | none => simp [step, hi, hj]
    | some other =>
      simp only [step, hi, hj, Act.Spec, arrays_eq hj]
      apply hI.put_eq (by rw [hi])
      exact copyItems_spec mem (hI.wellFormed j other hj)

theorem step_assign (hI : Inv w) {j : ν} {mem : ℕ → α} :
    (step w (.assign i j mem)).Holds fun (w', _) =>
      Inv w' ∧ (Act.assign i j mem).Spec w.arrays w'.arrays := by
  cases hi : w.vectors i with
  | none => simp [step, hi]
  | some v =>
    cases hj : w.vectors j with
    | none => simp [step, hi, hj]
    | some other =>
      by_cases hij : i = j
      · simp only [step, hi, hj, if_pos hij, Act.Spec]
        exact ⟨hI, by rw [← hij, Function.update_eq_self]⟩
      · simp only [step, hi, hj, if_neg hij, Act.Spec, arrays_eq hj]
        apply hI.put_eq (by rw [hi])
        apply assign_spec mem (hI.wellFormed i v hi) (hI.wellFormed j other hj)
        exact fun b hb hv => hij (hI.apart i j v other b hi hj hv hb)

theorem step_write (hI : Inv w) {k : ℕ} {x : α} : (step w (.write i k x)).Holds fun (w', _) =>
    Inv w' ∧ (Act.write i k x).Spec w.arrays w'.arrays := by
  cases hi : w.vectors i with
  | none => simp [step, hi]
  | some v =>
    by_cases hk : k < v.mSize.toNat
    · simp only [step, hi, if_pos hk, Act.Spec, arrays_eq hi, Option.map_some]
      apply hI.put_eq (by rw [hi])
      exact (write_spec (hI.wellFormed i v hi) hk x).map
    · simp only [step, hi, if_neg hk]
      trivial

theorem step_resize (hI : Inv w) {n : ℕ} {mem : ℕ → α} (ha : n < 4294967296) :
    (step w (.resize i n mem)).Holds fun (w', _) =>
      Inv w' ∧ (Act.resize i n mem).Spec w.arrays w'.arrays := by
  cases hi : w.vectors i with
  | none => simp [step, hi]
  | some v =>
    have hw := hI.wellFormed i v hi
    simp only [step, hi, Act.Spec]
    refine (hI.put (by rw [hi]; rfl) (resize_spec mem hw ha)).mono ?_
    rintro ⟨w', _⟩ ⟨hI', l', ⟨hlen, htake⟩, hw'⟩
    refine ⟨hI', v.array w.heap, l', arrays_eq hi, hlen, ?_, hw'⟩
    rw [hw.length_array]
    exact htake

theorem step_clear (hI : Inv w) : (step w (.clear i)).Holds fun (w', _) =>
    Inv w' ∧ (Act.clear i : Act ν α).Spec w.arrays w'.arrays := by
  cases hi : w.vectors i with
  | none => simp [step, hi]
  | some v =>
    simp only [step, hi, Act.Spec]
    apply hI.put_eq (by rw [hi])
    exact clear_spec (hI.wellFormed i v hi)

theorem step_destruct (hI : Inv w) : (step w (.destruct i)).Holds fun (w', _) =>
    Inv w' ∧ (Act.destruct i : Act ν α).Spec w.arrays w'.arrays := by
  cases hi : w.vectors i with
  | none => simp [step, hi]
  | some v =>
    obtain ⟨h', hh', hk⟩ := deleteData_spec (hI.wellFormed i v hi)
    simp only [step, hi, hh', Act.Spec]
    apply hI.update (o := none)
    · rwa [hi]
    · exact fun u b hu => by cases hu
    · exact fun u hu => by cases hu

theorem put_ne_blocked : w.put i r ≠ .blocked := by
  cases r <;> simp [World.put]

omit [DecidableEq ν] in
theorem exists_of_isSome (h : (w.arrays i).isSome = true) : ∃ v, w.vectors i = some v := by
  rwa [World.arrays, Option.isSome_map, Option.isSome_iff_exists] at h

omit [DecidableEq ν] in
theorem eq_none_of_arrays (h : w.arrays i = none) : w.vectors i = none :=
  Option.map_eq_none_iff.mp h

theorem step_ne_blocked (hI : Inv w) {a : Act ν α} (ha : a.Callable w.arrays) :
    step w a ≠ .blocked := by
  cases a with
  | construct i size mem =>
    simp only [step, eq_none_of_arrays ha]
    exact put_ne_blocked
  | constructFill i size value mem =>
    simp only [step, eq_none_of_arrays ha]
    exact put_ne_blocked
  | copy i j mem =>
    obtain ⟨other, hj⟩ := exists_of_isSome ha.2
    simp only [step, eq_none_of_arrays ha.1, hj]
    exact put_ne_blocked
  | assign i j mem =>
    obtain ⟨v, hi⟩ := exists_of_isSome ha.1
    obtain ⟨other, hj⟩ := exists_of_isSome ha.2
    simp only [step, hi, hj]
    split
    · nofun
    · exact put_ne_blocked
  | write i k x =>
    obtain ⟨l, hl, hk⟩ := ha
    obtain ⟨v, hi, rfl⟩ := Option.map_eq_some_iff.mp hl
    rw [(hI.wellFormed i v hi).length_array] at hk
    simp only [step, hi, if_pos hk]
    exact put_ne_blocked
  | resize i n mem =>
    obtain ⟨v, hi⟩ := exists_of_isSome ha
    simp only [step, hi]
    exact put_ne_blocked
  | clear i =>
    obtain ⟨v, hi⟩ := exists_of_isSome ha
    simp only [step, hi]
    exact put_ne_blocked
  | destruct i =>
    obtain ⟨v, hi⟩ := exists_of_isSome ha
    simp only [step, hi]
    split <;> nofun

/-- Each call keeps the vectors well formed, and does what it does to plain arrays. -/
theorem step_spec (hI : Inv w) (a : Act ν α) (ha : a.Fits) : (step w a).Holds fun (w', _) =>
    Inv w' ∧ a.Spec w.arrays w'.arrays := by
  cases a with
  | construct i size mem => exact step_construct hI ha
  | constructFill i size value mem => exact step_constructFill hI ha
  | copy i j mem => exact step_copy hI
  | assign i j mem => exact step_assign hI
  | write i k x => exact step_write hI
  | resize i n mem => exact step_resize hI ha
  | clear i => exact step_clear hI
  | destruct i => exact step_destruct hI

/-- Over every run of calls with sizes below 2^32, each vector is well formed: its size is at most
its capacity, and `mData` points to as many items as the capacity says, or is `NULL` if it is 0.
What it shows is read as the plain array that it stands for; and each further call, if it is
possible for these arrays, is defined and does to them what it does to plain arrays: a copy is the
array of its source, a resized array keeps what is in both, and no other array is touched. -/
theorem run_refines (acts : List (Act ν α)) (hfits : ∀ a ∈ acts, a.Fits) :
    (Schedule.run step (start : World ν α) acts).Holds fun (w, _) =>
      (∀ i v, w.vectors i = some v → v.WellFormed w.heap ∧
        (v.array w.heap).length = v.mSize.toNat ∧
        ∀ k < v.mSize.toNat, v.read w.heap k = (v.array w.heap)[k]?) ∧
      ∀ a : Act ν α, a.Fits → (a.Callable w.arrays → step w a ≠ .blocked) ∧
        (step w a).Holds fun (w', _) => a.Spec w.arrays w'.arrays := by
  have hrun : (Schedule.run step (start : World ν α) acts).Holds fun (w, _) => Inv w := by
    apply Schedule.run_holds_of_meets (P := fun w _ => Inv w) (C := fun _ a => a.Fits)
    · exact fun w _ a hI ha => (step_spec hI a ha).mono fun r hr => hr.1
    · exact inv_start
    · exact Schedule.meets_of_forall hfits
  refine hrun.mono fun r hI => ⟨fun i v hv => ?_, fun a ha => ?_⟩
  · have hw := hI.wellFormed i v hv
    exact ⟨hw, hw.length_array, fun k hk => read_eq hw hk⟩
  · exact ⟨step_ne_blocked hI, (step_spec hI a ha).mono fun r' hr => hr.2⟩

end Runs

/-- A vector is copied, the copy is written, and the source shrinks and grows. -/
theorem run_refines_two :
    (Schedule.run step (start : World (Fin 2) ℕ)
      [.constructFill 0 3 5 fun _ => 0, .copy 1 0 fun _ => 0, .write 1 0 7, .resize 0 2 fun _ => 0,
        .resize 0 4 fun _ => 0]).Holds fun (w, _) =>
      (∀ i v, w.vectors i = some v → v.WellFormed w.heap ∧
        (v.array w.heap).length = v.mSize.toNat ∧
        ∀ k < v.mSize.toNat, v.read w.heap k = (v.array w.heap)[k]?) ∧
      ∀ a : Act (Fin 2) ℕ, a.Fits → (a.Callable w.arrays → step w a ≠ .blocked) ∧
        (step w a).Holds fun (w', _) => a.Spec w.arrays w'.arrays :=
  run_refines _ (by simp [Act.Fits])

end SimpleVector

end YlUtils
