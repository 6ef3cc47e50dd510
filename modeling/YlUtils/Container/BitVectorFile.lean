import YlUtils.Container.BitVector
import YlUtils.Machine.Words

/-! # The file of a bit vector

A file is dumped from a vector and loaded into any other one. A load releases the
array before it opens the file, reads the size into the field, and throws
between the one and the other without closing what it opened.
-/

namespace YlUtils.BitVector

/-- `dump`, with the text of an error if the file cannot be opened. -/
def dump (v : BitVector) (file : String) (fout : Except String Unit) :
    Option (Except String Bytes) :=
  match fout with
  | .error errno => some (.error ("BitVector::dump(\"" ++ file ++ "\") : " ++ errno))
  | .ok () => do
    let buffer ← v.mBuffer
    if bufferSize v.mSize ≤ buffer.length then
      some (.ok (wordBytes v.mSize ++ buffer.take (bufferSize v.mSize)))
    else none

inductive Event
  | opened (fd : ℕ)
  | closed (fd : ℕ)
  deriving DecidableEq, Repr

/-- What the system returns in a `load`: the descriptor or the text of an error, and what is there
to read in each of the calls, unless it fails. -/
structure Calls where
  openFile : Except String ℕ
  readSize : Option Bytes
  readContent : Option Bytes

/-- The calls for a file that holds the bytes. -/
def Calls.ofFile (fd : ℕ) (b : Bytes) : Calls := ⟨.ok fd, some (b.take 4), some (b.drop 4)⟩

/-- What a `load` leaves of the object, the exception that it throws, and the descriptors that it
opened and closed. -/
structure Result where
  object : BitVector
  thrown : Option String
  events : List Event

/-- `load`; the new array holds what the memory holds. -/
def load (v : BitVector) (file : String) (c : Calls) (mem : ℕ → UInt8) : Result :=
  let v := { v with mBuffer := none }
  match c.openFile with
  | .error errno => ⟨v, some ("BitVector::load(\"" ++ file ++ "\") : " ++ errno), []⟩
  | .ok fd =>
    let size := (c.readSize.getD []).take 4
    let v := { v with mSize := overwriteWord v.mSize size }
    if size.length ≠ 4 then
      ⟨v, some ("BitVector::load(\"" ++ file ++ "\") : format error when read size"), [.opened fd]⟩
    else
      let n := bufferSize v.mSize
      let content := (c.readContent.getD []).take n
      let v := { v with mBuffer := some (content ++ (alloc n mem).drop content.length) }
      if content.length ≠ n then
        ⟨v, some ("BitVector::load(\"" ++ file ++ "\") : format error when read content"),
          [.opened fd]⟩
      else ⟨v, none, [.opened fd, .closed fd]⟩

/-- The vectors have one size and, at every position below it, the same bit. -/
def SameBits (o v : BitVector) : Prop :=
  o.size = v.size ∧ ∀ n < v.mSize, ∃ bit, v.get n = some bit ∧ o.get n = some bit

def Readable (v : BitVector) : Prop := ∀ n < v.mSize, (v.get n).isSome

/-- A `load` that throws leaves the vector as it was or empty, and so readable, and has closed the
descriptor that it opened. -/
def LoadsSafely (v : BitVector) (file : String) (c : Calls) (mem : ℕ → UInt8) : Prop :=
  let r := v.load file c mem
  r.thrown.isSome → (r.object = v ∨ r.object.size = 0) ∧ r.object.Readable ∧
    ∀ fd, .opened fd ∈ r.events → .closed fd ∈ r.events

def Calls.Complete (c : Calls) : Prop :=
  ∃ size content, c.readSize = some size ∧ 4 ≤ size.length ∧
    c.readContent = some content ∧ bufferSize (wordAt size) ≤ content.length

/-- A load that fails does no harm if it fails to open the file of a vector without bits. -/
def Harmless (v : BitVector) (c : Calls) : Prop :=
  match c.openFile with
  | .error _ => v.mSize = 0
  | .ok _ => c.Complete

variable {v o : BitVector} {file : String} {c : Calls} {mem : ℕ → UInt8}

theorem Allocated.readable (h : v.Allocated) : v.Readable := by
  intro n hn
  obtain ⟨b, hb, hlen⟩ := h
  exact get_isSome_iff.mpr ⟨b, hb, hlen ▸ div_lt_bufferSize hn⟩

theorem readable_iff_of_null (h : v.mBuffer = none) : v.Readable ↔ v.mSize = 0 := by
  constructor
  · intro hread
    by_contra hne
    obtain ⟨b, hb, -⟩ := get_isSome_iff.mp (hread 0 (UInt32.pos_iff_ne_zero.mpr hne))
    rw [h] at hb
    cases hb
  · intro hsize n hn
    rw [hsize] at hn
    exact absurd hn UInt32.not_lt_zero

section Loads

theorem load_of_error {errno : String} (h : c.openFile = .error errno) :
    v.load file c mem = ⟨{ v with mBuffer := none },
      some ("BitVector::load(\"" ++ file ++ "\") : " ++ errno), []⟩ := by
  unfold load
  rw [h]

theorem load_of_complete {fd : ℕ} {size content : Bytes} (h : c.openFile = .ok fd)
    (hsize : c.readSize = some size) (hlen : 4 ≤ size.length)
    (hcontent : c.readContent = some content)
    (hlen' : bufferSize (wordAt size) ≤ content.length) :
    v.load file c mem = ⟨⟨some (content.take (bufferSize (wordAt size))), wordAt size⟩, none,
      [.opened fd, .closed fd]⟩ := by
  have htake : (size.take 4).length = 4 := List.length_take_of_le hlen
  have htake' : (content.take (bufferSize (wordAt size))).length = bufferSize (wordAt size) :=
    List.length_take_of_le hlen'
  have hdrop : (alloc (bufferSize (wordAt size)) mem).drop (bufferSize (wordAt size)) = [] :=
    List.drop_of_length_le (length_alloc _ _).le
  unfold load
  simp only [h, hsize, hcontent, Option.getD_some, htake, overwriteWord_take _ hlen, htake', hdrop,
    List.append_nil, ne_eq, not_true_eq_false, if_false]

theorem exists_of_length_take {r : Option Bytes} {n : ℕ} (hn : 0 < n)
    (h : ((r.getD []).take n).length = n) : ∃ b, r = some b ∧ n ≤ b.length := by
  cases r with
  | none =>
    rw [Option.getD_none, List.take_nil] at h
    exact absurd h.symm hn.ne'
  | some b =>
    rw [Option.getD_some, List.length_take] at h
    exact ⟨b, rfl, h.ge.trans (Nat.min_le_right _ _)⟩

theorem load_of_not_complete (v : BitVector) (file : String) (mem : ℕ → UInt8) {fd : ℕ}
    (h : c.openFile = .ok fd) (hc : ¬ c.Complete) :
    (v.load file c mem).thrown.isSome ∧ (v.load file c mem).events = [.opened fd] := by
  unfold load
  simp only [h]
  split
  · exact ⟨rfl, rfl⟩
  · next hsize =>
    split
    · exact ⟨rfl, rfl⟩
    · next hcontent =>
      obtain ⟨size, hread, hlen⟩ := exists_of_length_take (by decide) (not_not.mp hsize)
      rw [hread, Option.getD_some, overwriteWord_take _ hlen] at hcontent
      have hpos : 0 < bufferSize (wordAt size) := by
        rw [bufferSize_eq]
        exact Nat.succ_pos _
      obtain ⟨content, hread', hlen'⟩ := exists_of_length_take hpos (not_not.mp hcontent)
      exact absurd ⟨size, content, hread, hlen, hread', hlen'⟩ hc

/-- A `load` that throws leaves a vector that can be trusted, and no file open, exactly if it
fails to open the file of a vector without bits. -/
theorem loadsSafely_iff (v : BitVector) (file : String) (c : Calls) (mem : ℕ → UInt8) :
    v.LoadsSafely file c mem ↔ v.Harmless c := by
  unfold LoadsSafely Harmless
  cases h : c.openFile with
  | error errno =>
    simp only [load_of_error h]
    have hread : ({ v with mBuffer := none } : BitVector).Readable ↔ v.mSize = 0 :=
      readable_iff_of_null rfl
    constructor
    · intro hsafe
      exact hread.mp (hsafe rfl).2.1
    · intro hsize _
      refine ⟨.inr ?_, hread.mpr hsize, fun fd hfd => ?_⟩
      · exact congrArg UInt32.toNat hsize
      · cases hfd
  | ok fd =>
    constructor
    · intro hsafe
      by_contra hc
      obtain ⟨hthrown, hevents⟩ := load_of_not_complete v file mem h hc
      have hclosed := (hsafe hthrown).2.2 fd (by rw [hevents]; exact List.mem_singleton_self _)
      rw [hevents, List.mem_singleton] at hclosed
      cases hclosed
    · rintro ⟨size, content, hsize, hlen, hcontent, hlen'⟩
      simp only [load_of_complete h hsize hlen hcontent hlen']
      intro hthrown
      cases hthrown

/-- The file cannot be opened, and the vector of eight bits is left without its array. -/
theorem not_loadsSafely :
    ¬ ∀ v file c mem, BitVector.LoadsSafely v file c mem := by
  intro h
  have hread := (h (new 8 fun _ => 0) "bits" ⟨.error "No such file or directory", none, none⟩
    (fun _ => 0) rfl).2.1 0 (by decide)
  cases hread

end Loads

section RoundTrip

theorem Allocated.dump (h : v.Allocated) (file : String) :
    ∃ b, v.mBuffer = some b ∧ b.length = bufferSize v.mSize ∧
      v.dump file (.ok ()) = some (.ok (wordBytes v.mSize ++ b)) := by
  obtain ⟨b, hb, hlen⟩ := h
  refine ⟨b, hb, hlen, ?_⟩
  unfold BitVector.dump
  simp only [hb, Option.bind_eq_bind, Option.bind_some]
  rw [if_pos hlen.ge, List.take_of_length_le hlen.le]

theorem load_dumped (o : BitVector) (file : String) (fd : ℕ) (mem : ℕ → UInt8) {w : UInt32}
    {b : Bytes} (hlen : b.length = bufferSize w) :
    o.load file (.ofFile fd (wordBytes w ++ b)) mem =
      ⟨⟨some b, w⟩, none, [.opened fd, .closed fd]⟩ := by
  have hsize : (wordBytes w ++ b).take 4 = wordBytes w := List.take_left' (wordBytes_length w)
  have hcontent : (wordBytes w ++ b).drop 4 = b := List.drop_left' (wordBytes_length w)
  have hw : wordAt (wordBytes w) = w := by simpa using wordAt_wordBytes w []
  rw [load_of_complete rfl (congrArg some hsize) (wordBytes_length w).ge (congrArg some hcontent)
    (by rw [hw]; exact hlen.ge), hw, List.take_of_length_le hlen.le]

/-- After any calls of `set` every position has the value that was set last, and a file that is
dumped then gives any vector the same size and the same bits. -/
theorem sets_dump_load {size : UInt32} (h : 0 < size) (mem : ℕ → UInt8)
    {calls : List (Bool × UInt32)} (hcalls : ∀ c ∈ calls, c.2 < size) :
    Succeeds (calls.foldlM (fun v c => v.set c.1 c.2) (new size mem)) fun v =>
      v.mSize = size ∧ (∀ m bit, lastSet calls m = some bit → v.get m = some bit) ∧
        ∀ file, ∃ b, v.dump file (.ok ()) = some (.ok b) ∧ ∀ (o : BitVector) file fd mem,
          (o.load file (.ofFile fd b) mem).thrown = none ∧
            (o.load file (.ofFile fd b) mem).object.SameBits v := by
  refine ((new_allocated h mem).sets hcalls).mono ?_
  rintro v ⟨hv, hsize, hget⟩
  refine ⟨hsize, fun m bit hlast => ?_, fun file => ?_⟩
  · rw [hget, hlast, Option.some_or]
  · obtain ⟨b, hb, hlen, hdump⟩ := hv.dump file
    refine ⟨_, hdump, fun o file fd mem => ?_⟩
    have hload : (⟨some b, v.mSize⟩ : BitVector) = v := by rw [← hb]
    rw [load_dumped o file fd mem hlen, hload]
    refine ⟨rfl, rfl, fun n hn => ?_⟩
    obtain ⟨bit, hbit⟩ := Option.isSome_iff_exists.mp (hv.readable n hn)
    exact ⟨bit, hbit, hbit⟩

/-- Three neighbours in a byte, of which the middle one is cleared last. -/
theorem sets_dump_load_neighbours :
    let calls := [(true, 2), (true, 3), (true, 4), (false, 3)]
    Succeeds (calls.foldlM (fun v c => v.set c.1 c.2) (new 5 fun _ => 255)) fun v =>
      v.mSize = 5 ∧ (∀ m bit, lastSet calls m = some bit → v.get m = some bit) ∧
        ∀ file, ∃ b, v.dump file (.ok ()) = some (.ok b) ∧ ∀ (o : BitVector) file fd mem,
          (o.load file (.ofFile fd b) mem).thrown = none ∧
            (o.load file (.ofFile fd b) mem).object.SameBits v :=
  sets_dump_load (by decide) _ (by simp)

end RoundTrip

end YlUtils.BitVector
