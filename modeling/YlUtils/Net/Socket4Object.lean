import Mathlib.Algebra.Ring.Nat
import YlUtils.Machine.Words
import YlUtils.Net.StdSocket
import YlUtils.Streams.Pipe

/-! # Objects on a socket

An object is sent as its size and its bytes. However the calls on both sides cut
the stream, every object arrives as it was sent, and nothing is left behind.
-/

namespace YlUtils.Socket4Object

/-- An object that can be sent: its bytes, whose number is an `int`. -/
structure Object where
  bytes : Bytes
  length_lt : bytes.length < 2 ^ 31

namespace Object

def size (o : Object) : ℤ := o.bytes.length

end Object

open StdSocket

def sendObject (mSocket : ℤ) (object : Object) : Program ℤ := do
  let _ ← safeWrite mSocket (intBytes object.size) 4 false
  let _ ← safeWrite mSocket object.bytes object.size false
  pure (object.size + 4)

/-- `recvObject`, with the memory of the object that is received into: what it
returns, and the memory after it. -/
def recvObject (mSocket : ℤ) (object : Bytes) : Program (ℤ × Bytes) := do
  let r ← safeRead mSocket (intBytes 0) 4 false
  let tLen := intOf (wordAt r.2)
  let r ← safeRead mSocket object tLen false
  pure (tLen + 4, r.2)

/-- The bytes that an object is on the stream. -/
def frame (o : Object) : Bytes := intBytes o.size ++ o.bytes

section Calls

variable {mSocket : ℤ} {o : Object} {object : Bytes}

theorem safeWrite_transfers (buf : Bytes) (h31 : buf.length < 2 ^ 31) :
    (safeWrite mSocket buf buf.length false).Transfers .sending buf (2 * buf.length)
      fun _ => True := by
  have h := @safeWriteLoop_transfers mSocket false (buf.length + 1) buf buf.length
    (Nat.le_refl buf.length) h31 (Nat.lt_succ_self _) 0
  rwa [List.take_length] at h

theorem safeRead_transfers (mem s : Bytes) (hs : s.length ≤ mem.length) (h31 : s.length < 2 ^ 31) :
    (safeRead mSocket mem s.length false).Transfers .receiving s (2 * s.length) fun r =>
      r.2 = s ++ mem.drop s.length := by
  have h := @safeReadLoop_transfers mSocket false (s.length + 1) mem s 0 0 (by omega) h31
    (Nat.lt_succ_self _) ⟨Int.le_refl 0, by omega⟩
  apply h.mono (Nat.le_refl _)
  rintro _ rfl
  simp

theorem sendObject_transfers : (sendObject mSocket o).Transfers .sending (frame o)
    (2 * (4 + o.bytes.length)) fun r => r = o.size + 4 := by
  have hsize : (safeWrite mSocket (intBytes o.size) 4 false).Transfers .sending (intBytes o.size)
      (2 * 4) fun _ => True := 
    safeWrite_transfers (intBytes o.size) (by simp)
  have hbytes : (safeWrite mSocket o.bytes o.size false).Transfers .sending o.bytes
      (2 * o.bytes.length) fun _ => True := safeWrite_transfers o.bytes o.length_lt
  have hframe : frame o = intBytes o.size ++ (o.bytes ++ []) := by rw [List.append_nil, frame]
  rw [hframe, Nat.mul_add]
  apply hsize.bind
  intro _ _
  apply hbytes.bind (n := 0)
  intro _ _
  exact Program.Transfers.pure rfl

theorem recvObject_transfers (h : o.bytes.length ≤ object.length) :
    (recvObject mSocket object).Transfers .receiving (frame o) (2 * (4 + o.bytes.length))
      fun r => r = (o.size + 4, o.bytes ++ object.drop o.bytes.length) := by
  have hlt := o.length_lt
  have hsize : (safeRead mSocket (intBytes 0) 4 false).Transfers .receiving (intBytes o.size)
      (2 * 4) fun r => r.2 = intBytes o.size := by
    apply (safeRead_transfers (intBytes 0) (intBytes o.size) (by simp) (by simp)).mono
      (Nat.le_refl _)
    intro r hr
    exact hr
  have hbytes : (safeRead mSocket object o.size false).Transfers .receiving o.bytes
      (2 * o.bytes.length) fun r => r.2 = o.bytes ++ object.drop o.bytes.length :=
    safeRead_transfers object o.bytes h hlt
  have hlen : intOf (wordAt (intBytes o.size)) = o.size := by
    have hword := wordAt_wordBytes (.ofInt o.size) []
    rw [List.append_nil] at hword
    rw [intBytes, hword]
    exact intOf_ofInt (by unfold Object.size; omega) (by unfold Object.size; omega)
  have hframe : frame o = intBytes o.size ++ (o.bytes ++ []) := by rw [List.append_nil, frame]
  rw [hframe, Nat.mul_add]
  apply hsize.bind
  intro r hr
  rw [hr, hlen]
  apply hbytes.bind (n := 0)
  intro r hr
  rw [hr]
  exact Program.Transfers.pure rfl

end Calls

/-- The sender has the objects to send, the receiver the memories to receive them into. -/
def start (sendSocket recvSocket : ℤ) (objects : List Object) (memories : List Bytes) :
    Pipe ℤ (ℤ × Bytes) :=
  ⟨⟨objects.map (sendObject sendSocket), []⟩, [], ⟨memories.map (recvObject recvSocket), []⟩⟩

def received (o : Object) (object : Bytes) : ℤ × Bytes :=
  (o.size + 4, o.bytes ++ object.drop o.bytes.length)

variable {sendSocket recvSocket : ℤ} {objects : List Object} {memories : List Bytes}

def steps (objects : List Object) : ℕ :=
  (objects.map fun o => 2 * (4 + o.bytes.length) + 1).sum

theorem sender_transfer (objects : List Object) :
    Party.Transfer .sending (objects.map (sendObject sendSocket))
      (Party.expects (objects.map fun o => o.size + 4)) (objects.flatMap frame)
      (steps objects) := by
  induction objects with
  | nil => exact .nil
  | cons o objects ih => exact .cons sendObject_transfers ih

theorem receiver_transfer
    (h : List.Forall₂ (fun o b => o.bytes.length ≤ b.length) objects memories) :
    Party.Transfer .receiving (memories.map (recvObject recvSocket))
      (Party.expects (List.zipWith received objects memories)) (objects.flatMap frame)
      (steps objects) := by
  induction h with
  | nil => exact .nil
  | cons hlen _ ih => exact .cons (recvObject_transfers hlen) ih

/-- At the start the receiver still has to read what the sender still has to write. -/
theorem start_owes (h : List.Forall₂ (fun o b => o.bytes.length ≤ b.length) objects memories) :
    (start sendSocket recvSocket objects memories).Owes
      (Party.expects (objects.map fun o => o.size + 4))
      (Party.expects (List.zipWith received objects memories)) (steps objects + steps objects) :=
  ⟨objects.flatMap frame, steps objects, steps objects,
    ⟨[], _, .nil, sender_transfer objects, rfl⟩, ⟨[], _, .nil, receiver_transfer h, rfl⟩, rfl⟩

/-- However the two sides take turns and the stream is cut, the calls return in
order what was sent. Until all have returned a step can be taken, not more than
a bounded number of them, and in the end nothing is left on the stream. -/
theorem run_lossless (h : List.Forall₂ (fun o b => o.bytes.length ≤ b.length) objects memories)
    (es : List Event) (c : Pipe ℤ (ℤ × Bytes))
    (hrun : (start sendSocket recvSocket objects memories).run es = some c) :
    c.sender.results = (objects.map fun o => o.size + 4).take c.sender.results.length ∧
      c.receiver.results = (List.zipWith received objects memories).take
        c.receiver.results.length ∧
      (c.Finished → c.stream = [] ∧ c.sender.results = (objects.map fun o => o.size + 4) ∧
        c.receiver.results = List.zipWith received objects memories) ∧
      (¬ c.Finished → ∃ ev c', ev.act.steps = 1 ∧ c.step ev = some c') ∧
      (es.map fun ev => ev.act.steps).sum ≤ 2 * steps objects := by
  obtain ⟨m, hm, howes⟩ := (start_owes h).run hrun
  have hsteps : (es.map fun ev => ev.act.steps).sum ≤ 2 * steps objects := by omega
  obtain ⟨s, m₁, m₂, hs, hr, -⟩ := id howes
  refine ⟨hs.results, hr.results, ?_, howes.exists_step, hsteps⟩
  intro hc
  obtain ⟨hstream, hsent, hreceived⟩ := howes.finished hc
  rw [Party.expects, List.length_map] at hsent hreceived
  constructor
  · exact hstream
  · constructor
    · rw [hs.results, hsent, List.take_length]
    · rw [hr.results, hreceived, List.take_length]

def two : Object := ⟨[7, 8], by decide⟩

def one : Object := ⟨[9], by decide⟩

def inPieces : List Event :=
  let e : Errno := ⟨false, ""⟩
  [.sender (.ready 1 e), .sender (.transfer 1 e), .receiver (.ready 1 e), .sender (.ready 1 e),
    .sender .interrupted, .receiver (.transfer 1 e), .sender (.transfer 3 e),
    .sender (.ready 1 e), .sender (.transfer 2 e), .sender .returns, .sender (.ready 1 e),
    .sender (.transfer 4 e), .receiver (.ready 1 e), .receiver .interrupted,
    .receiver (.transfer 3 e), .sender (.ready 1 e), .sender (.transfer 1 e), .sender .returns,
    .receiver (.ready 1 e), .receiver (.transfer 2 e), .receiver .returns, .receiver (.ready 1 e),
    .receiver (.transfer 4 e), .receiver (.ready 1 e), .receiver (.transfer 1 e),
    .receiver .returns]

theorem run_lossless_pieces :
    (((start 3 4 [two, one] [[0, 0, 0], [0, 0]]).run inPieces).get (by decide)).receiver.results =
      [received two [0, 0, 0], received one [0, 0]] :=
  ((run_lossless (.cons (by decide) (.cons (by decide) .nil)) inPieces _
    (Option.some_get _).symm).2.2.1 ⟨rfl, rfl⟩).2.2

end YlUtils.Socket4Object
