import Mathlib.Algebra.Ring.Int.Defs
import YlUtils.Net.StdSocket
import YlUtils.Streams.Replies
import YlUtils.Text.Search

/-! # Reading the head of a request

The loop reads into what is left of the buffer and ends what it has by a zero,
until the end of the head is in it. Then the argument is cut out, which lies
between a question mark and a blank.
-/

namespace YlUtils.StdSocket

open Program Search

def headEnd : Bytes := [13, 10, 13, 10]

/-- What follows as the end of the head is there: the argument is ended by a zero. -/
def httpArg (mSocket : ℤ) (mem : Bytes) : Program (ℤ × Bytes) :=
  let msg := "_Std_Socket::safeReadHttpRequest() : http arg format error" ++ ofd mSocket
  match find [63] (cstr mem) with
  | none => .throw msg
  | some i =>
    match find [32] (cstr (mem.drop (i + 1))) with
    | none => .throw msg
    | some j => .ret (wrapInt (i + 1 : ℕ), mem.set (i + 1 + j) 0)

/-- What follows a read as its last byte is in front of `pos`: it is ended by a zero, and the loop
goes on if the end of the head is not there. -/
def behindRead (mSocket : ℤ) (mem : Bytes) (pos : ℕ) (next : Bytes → Program (ℤ × Bytes)) :
    Program (ℤ × Bytes) :=
  match store mem pos [0] with
  | none => .undefined
  | some mem => if (find headEnd (cstr mem)).isSome then httpArg mSocket mem else next mem

/-- The `while` loop of `safeReadHttpRequest`, which makes at most `fuel` rounds, into the memory
`mem` at `pos`. -/
def safeReadHttpRequestLoop (mSocket : ℤ) (isPoll : Bool) :
    ℕ → Bytes → ℕ → ℤ → Program (ℤ × Bytes)
  | 0, _, _, _ => .undefined
  | fuel + 1, mem, pos, count =>
    .wait isPoll false fun result e =>
      if result ≤ 0 then
        .throw ("_Std_Socket::safeReadHttpRequest() _select_fd error :" ++
          (if e.timedOut then "Read Timeout" else e.strerror) ++ ofd mSocket)
      else .read count.toNat fun res b e =>
        match store mem pos b with
        | none => .undefined
        | some mem =>
          if wrapInt res = 0 then
            .throw ("_Std_Socket::safeReadHttpRequest() : read() error : peer shut down" ++
              ofd mSocket)
          else if wrapInt res < 0 then
            .throw ("_Std_Socket::safeReadHttpRequest() : read() error " ++ e.strerror ++
              ofd mSocket)
          else behindRead mSocket mem (pos + (wrapInt res).toNat) fun mem =>
            safeReadHttpRequestLoop mSocket isPoll fuel mem (pos + (wrapInt res).toNat)
              (count - wrapInt res)

def safeReadHttpRequest (mSocket : ℤ) (mem : Bytes) (count : ℤ) (isPoll : Bool) :
    Program (ℤ × Bytes) :=
  safeReadHttpRequestLoop mSocket isPoll (count.toNat + 1) mem 0 count

def readResult : Reply → ℤ
  | .got b _ => wrapInt b.length
  | _ => 0

def readTotal (rs : List Reply) : ℤ := (rs.map readResult).sum

def Positive : Reply → Prop
  | .ready r _ => 0 < r
  | .got b _ => 0 < wrapInt b.length
  | .failed _ => False
  | _ => True

/-- No call of `safeReadHttpRequest` with these replies stores outside of the buffer. -/
def StaysInside (mSocket : ℤ) (isPoll : Bool) (mem : Bytes) (rs : List Reply) : Prop :=
  ∀ s q, (safeReadHttpRequest mSocket mem mem.length isPoll).run rs = some (s, q) →
    q ≠ .undefined

section Replies

variable {rs rs' : List Reply} {r : Reply} {k : ℕ}

@[simp] theorem readTotal_nil : readTotal [] = 0 := rfl

@[simp] theorem readTotal_cons : readTotal (r :: rs) = readResult r + readTotal rs := by
  simp [readTotal]

@[simp] theorem readTotal_interrupted :
    readTotal (List.replicate k .interrupted ++ rs) = readTotal rs := by
  induction k with
  | zero => rfl
  | succ k ih =>
    rw [List.replicate_succ, List.cons_append, readTotal_cons, ih]
    exact Int.zero_add _

end Replies

section Loop

variable {mSocket count : ℤ} {isPoll : Bool} {mem s : Bytes} {pos fuel : ℕ} {rs : List Reply}
  {q : Program (ℤ × Bytes)}

theorem not_calls_httpArg (mSocket : ℤ) (mem : Bytes) : ¬ (httpArg mSocket mem).Calls := by
  unfold httpArg
  dsimp only
  split
  · simp [Calls]
  · split <;> simp [Calls]

theorem httpArg_ne_undefined (mSocket : ℤ) (mem : Bytes) : httpArg mSocket mem ≠ .undefined := by
  unfold httpArg
  dsimp only
  split
  · simp
  · split <;> simp

theorem behindRead_full {next : Bytes → Program (ℤ × Bytes)} (h : mem.length ≤ pos) :
    behindRead mSocket mem pos next = .undefined := by
  rw [behindRead, store_eq_none (by rw [List.length_singleton]; omega)]

/-- The memory after a zero is stored at a position of it. -/
def terminated (mem : Bytes) (pos : ℕ) : Bytes := mem.take pos ++ [0] ++ mem.drop (pos + 1)

theorem behindRead_room {next : Bytes → Program (ℤ × Bytes)} (h : pos < mem.length) :
    behindRead mSocket mem pos next =
      if (find headEnd (cstr (terminated mem pos))).isSome then
        httpArg mSocket (terminated mem pos)
      else next (terminated mem pos) := by
  rw [behindRead, store_eq (by rw [List.length_singleton]; omega)]
  rfl

theorem length_terminated (h : pos < mem.length) : (terminated mem pos).length = mem.length := by
  simp only [terminated, List.length_append, List.length_take, List.length_drop,
    List.length_singleton]
  omega

inductive Reads (mSocket : ℤ) (isPoll : Bool) (fuel : ℕ) (mem : Bytes) (pos : ℕ) (count : ℤ)
    (rs : List Reply) (s : Bytes) (q : Program (ℤ × Bytes)) : Prop
  | ends : q ≠ .undefined → q.Calls ∨ (∃ r ∈ rs, ¬ Positive r) → readTotal rs ≤ 0 →
      Reads mSocket isPoll fuel mem pos count rs s q
  | reads (b : Bytes) (rs' : List Reply) : b.length ≤ count.toNat → 0 < wrapInt b.length →
      received rs = b ++ received rs' → readTotal rs = wrapInt b.length + readTotal rs' →
      (∀ r ∈ rs', r ∈ rs) → (∃ e, .got b e ∈ rs) →
      (behindRead mSocket (mem.take pos ++ b ++ mem.drop (pos + b.length))
        (pos + (wrapInt b.length).toNat) fun mem =>
          safeReadHttpRequestLoop mSocket isPoll fuel mem (pos + (wrapInt b.length).toNat)
            (count - wrapInt b.length)).run rs' = some (s, q) →
      Reads mSocket isPoll fuel mem pos count rs s q

theorem safeReadHttpRequestLoop_reads (hmem : pos + count.toNat ≤ mem.length)
    (h : (safeReadHttpRequestLoop mSocket isPoll (fuel + 1) mem pos count).run rs = some (s, q)) :
    Reads mSocket isPoll fuel mem pos count rs s q := by
  have hpending : ∀ k, readTotal (List.replicate k .interrupted) = 0 := fun k => by
    rw [← List.append_nil (List.replicate k _), readTotal_interrupted, readTotal_nil]
  rw [safeReadHttpRequestLoop] at h
  rcases run_wait h with ⟨rfl, -, k, rfl⟩ | ⟨k, z, e, rs', rfl, hwait⟩
  · exact .ends (by simp) (.inl trivial) (Int.le_of_eq (hpending k))
  · split at hwait
    · next hz =>
      obtain ⟨rfl, -, rfl⟩ := run_of_not_calls (by simp [Calls]) hwait
      refine .ends (by simp) (.inr ⟨.ready z e, by simp, by simpa [Positive] using hz⟩) ?_
      simp [readResult]
    · rcases run_read hwait with ⟨rfl, -, k', rfl⟩ | ⟨k', b, e', rs'', hb, rfl, hread⟩ |
        ⟨k', e', rs'', rfl, hread⟩
      · refine .ends (by simp) (.inl trivial) ?_
        simp [readResult, hpending]
      · have hstore : pos + b.length ≤ mem.length := by omega
        rw [store_eq hstore] at hread
        dsimp only at hread
        split at hread
        · next h0 =>
          obtain ⟨rfl, -, rfl⟩ := run_of_not_calls (by simp [Calls]) hread
          refine .ends (by simp) (.inr ⟨.got b e', by simp, ?_⟩) ?_
          · simp [Positive, h0]
          · simp [readResult, h0]
        · next h0 =>
          split at hread
          · next hneg =>
            obtain ⟨rfl, -, rfl⟩ := run_of_not_calls (by simp [Calls]) hread
            refine .ends (by simp) (.inr ⟨.got b e', by simp, ?_⟩) ?_
            · simp only [Positive]
              omega
            · simp only [readTotal_interrupted, readTotal_cons, readResult, readTotal_nil]
              omega
          · refine .reads b rs'' hb (by omega) (by simp) ?_ (fun r hr => by simp [hr])
              ⟨e', by simp⟩ hread
            simp [readResult]
      · have hfail : wrapInt (-1) = -1 := by decide
        rw [store_eq (show pos + ([] : Bytes).length ≤ mem.length by simp; omega)] at hread
        dsimp only at hread
        rw [hfail, if_neg (by decide), if_pos (by decide)] at hread
        obtain ⟨rfl, -, rfl⟩ := run_of_not_calls (by simp [Calls]) hread
        refine .ends (by simp) (.inr ⟨.failed e', by simp, by simp [Positive]⟩) ?_
        simp [readResult]

/-- What is read never exceeds the buffer, and the store behind it leaves the buffer exactly as all
of it is filled. -/
theorem safeReadHttpRequestLoop_total (hmem : pos + count = mem.length) (hcount : 0 < count)
    (hf : count < fuel)
    (h : (safeReadHttpRequestLoop mSocket isPoll fuel mem pos count).run rs = some (s, q)) :
    readTotal rs ≤ count ∧ (q = .undefined ↔ readTotal rs = count) := by
  induction fuel generalizing mem pos count rs s with
  | zero => omega
  | succ fuel ih =>
    cases safeReadHttpRequestLoop_reads (by omega) h with
    | ends hq _ hle => exact ⟨by omega, fun h => absurd h hq, fun h => by omega⟩
    | reads b rs' hb hpos _ htotal _ _ hrun =>
      have hle := wrapInt_le (Int.natCast_nonneg b.length)
      have hlen : (mem.take pos ++ b ++ mem.drop (pos + b.length)).length = mem.length :=
        length_store (store_eq (by omega))
      rw [htotal]
      generalize wrapInt b.length = k at *
      generalize mem.take pos ++ b ++ mem.drop (pos + b.length) = filled at *
      rcases Int.lt_or_eq_of_le (show k ≤ count by omega) with hroom | rfl
      · have hpos' : pos + k.toNat < filled.length := by omega
        rw [behindRead_room hpos'] at hrun
        split at hrun
        · obtain ⟨rfl, -, rfl⟩ := run_of_not_calls (not_calls_httpArg mSocket _) hrun
          rw [readTotal_nil, Int.add_zero]
          exact ⟨Int.le_of_lt hroom, fun h => absurd h (httpArg_ne_undefined mSocket _),
            fun h => absurd h (Int.ne_of_lt hroom)⟩
        · have hlen' := length_terminated hpos'
          obtain ⟨hsum, hiff⟩ := ih (by omega) (by omega) (by omega) hrun
          refine ⟨by omega, ?_⟩
          rw [hiff]
          omega
      · rw [behindRead_full (by omega)] at hrun
        obtain ⟨rfl, -, rfl⟩ := run_of_not_calls (by simp [Calls]) hrun
        rw [readTotal_nil]
        simp

end Loop

variable {mSocket : ℤ} {isPoll : Bool} {mem s : Bytes} {rs : List Reply}
  {q : Program (ℤ × Bytes)}

/-- A call stays inside of its buffer exactly if the results of `read` do not add up to the whole
of it. -/
theorem staysInside_iff (hmem : 1 ≤ mem.length)
    (h : (safeReadHttpRequest mSocket mem mem.length isPoll).run rs = some (s, q)) :
    StaysInside mSocket isPoll mem rs ↔ readTotal rs < mem.length := by
  obtain ⟨hle, hiff⟩ := safeReadHttpRequestLoop_total (by omega) (by omega) (by omega) h
  constructor
  · intro hin
    have hne := mt hiff.mpr (hin s q h)
    omega
  · intro hlt s' q' h' hq
    obtain ⟨-, rfl⟩ := Prod.mk.inj (Option.some.inj (h.symm.trans h'))
    have heq := hiff.mp hq
    omega

/-- A request that comes in two pieces and leaves room for the zero. -/
theorem staysInside_iff_room : StaysInside 3 false [0, 0, 0]
    [.ready 1 ⟨false, ""⟩, .got [71] ⟨false, ""⟩, .ready 1 ⟨false, ""⟩, .got [69] ⟨false, ""⟩] ↔
      readTotal [.ready 1 ⟨false, ""⟩, .got [71] ⟨false, ""⟩, .ready 1 ⟨false, ""⟩,
        .got [69] ⟨false, ""⟩] < ([0, 0, 0] : Bytes).length :=
  staysInside_iff (s := []) (by decide) rfl

/-- Two bytes fill a buffer of two bytes, and the zero is stored behind it. -/
theorem not_staysInside : ¬ StaysInside 3 false [0, 0]
    [.ready 1 ⟨false, ""⟩, .got [71] ⟨false, ""⟩, .ready 1 ⟨false, ""⟩, .got [69] ⟨false, ""⟩] :=
  fun h => h [] .undefined rfl rfl

end YlUtils.StdSocket
