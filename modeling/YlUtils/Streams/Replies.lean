import YlUtils.Streams.Program

/-! # Runs of a program

A program is run on the replies of its system calls, which may be any that the
calls allow. A call that is interrupted is made again. The rules take a run apart
at its first reply, and a composed program at the end of its first part.
-/

namespace YlUtils

inductive Reply
  | interrupted
  | ready (r : ℤ) (e : Errno)
  | wrote (n : ℕ) (e : Errno)
  | got (b : Bytes) (e : Errno)
  | failed (e : Errno)

namespace Reply

def received : Reply → Bytes
  | got b _ => b
  | _ => []

def written : Reply → Option ℕ
  | wrote n _ => some n
  | _ => none

end Reply

namespace Program

variable {α β : Type}

/-- How the program goes on with a reply to its call, and the bytes that it has written. -/
def answer : Program α → Reply → Option (Bytes × Program α)
  | wait isPoll isWrite next, .interrupted => some ([], wait isPoll isWrite next)
  | wait _ _ next, .ready r e => some ([], next r e)
  | write buf next, .interrupted => some ([], write buf next)
  | write buf next, .wrote n e => if n ≤ buf.length then some (buf.take n, next n e) else none
  | write _ next, .failed e => some ([], next (-1) e)
  | read count next, .interrupted => some ([], read count next)
  | read count next, .got b e => if b.length ≤ count then some ([], next b.length b e) else none
  | read _ next, .failed e => some ([], next (-1) [] e)
  | _, _ => none

/-- The bytes that the program writes as it gets the replies, and what is left of it. -/
def run (p : Program α) : List Reply → Option (Bytes × Program α)
  | [] => some ([], p)
  | r :: rs => (p.answer r).bind fun x => (x.2.run rs).map fun y => (x.1 ++ y.1, y.2)

def received (rs : List Reply) : Bytes := rs.flatMap Reply.received

def Calls : Program α → Prop
  | wait _ _ _ | write _ _ | read _ _ => True
  | _ => False

def firstWritten (rs : List Reply) : Option ℕ := rs.findSome? Reply.written

section Replies

variable {rs rs' : List Reply} {e : Errno} {b : Bytes} {r : Reply} {z : ℤ} {n : ℕ}

@[simp] theorem received_nil : received [] = [] := rfl

@[simp] theorem received_cons : received (r :: rs) = r.received ++ received rs := rfl

@[simp] theorem received_append : received (rs ++ rs') = received rs ++ received rs' :=
  List.flatMap_append

@[simp] theorem received_interrupted : Reply.interrupted.received = [] := rfl

@[simp] theorem received_ready : (Reply.ready z e).received = [] := rfl

@[simp] theorem received_wrote : (Reply.wrote n e).received = [] := rfl

@[simp] theorem received_got : (Reply.got b e).received = b := rfl

@[simp] theorem received_failed : (Reply.failed e).received = [] := rfl

@[simp] theorem received_replicate (k : ℕ) : received (List.replicate k .interrupted) = [] := by
  simp [received]

end Replies

section Runs

variable {p q : Program α} {rs rs' : List Reply} {r : Reply} {s t : Bytes} {isPoll isWrite : Bool}
  {buf : Bytes} {count : ℕ} {nextWait nextWrite : ℤ → Errno → Program α}
  {next : ℤ → Bytes → Errno → Program α}

@[simp] theorem run_nil : p.run [] = some ([], p) := rfl

theorem run_cons_eq_some : p.run (r :: rs) = some (s, q) ↔
    ∃ a p' t, p.answer r = some (a, p') ∧ p'.run rs = some (t, q) ∧ s = a ++ t := by
  rw [run, Option.bind_eq_some_iff]
  constructor
  · rintro ⟨⟨a, p'⟩, ha, hy⟩
    obtain ⟨⟨t, q'⟩, ht, heq⟩ := Option.map_eq_some_iff.mp hy
    obtain ⟨rfl, rfl⟩ := Prod.mk.inj heq
    exact ⟨a, p', t, ha, ht, rfl⟩
  · rintro ⟨a, p', t, ha, ht, rfl⟩
    exact ⟨(a, p'), ha, Option.map_eq_some_iff.mpr ⟨(t, q), ht, rfl⟩⟩

theorem run_of_not_calls (hp : ¬ p.Calls) (h : p.run rs = some (s, q)) :
    rs = [] ∧ s = [] ∧ q = p := by
  cases rs with
  | nil =>
    obtain ⟨rfl, rfl⟩ := Prod.mk.inj (Option.some.inj h)
    exact ⟨rfl, rfl, rfl⟩
  | cons r rs =>
    obtain ⟨a, p', t, ha, -, -⟩ := run_cons_eq_some.mp h
    cases p with
    | wait _ _ _ => exact absurd trivial hp
    | write _ _ => exact absurd trivial hp
    | read _ _ => exact absurd trivial hp
    | _ => exact absurd ha (by simp [answer])

theorem run_of_calls (hp : p.Calls) (h : p.run rs = some (s, q)) :
    (q = p ∧ s = [] ∧ ∃ k, rs = List.replicate k .interrupted) ∨ ∃ k r rs', r ≠ .interrupted ∧
      rs = List.replicate k .interrupted ++ r :: rs' ∧ p.run (r :: rs') = some (s, q) := by
  have hagain : p.answer .interrupted = some ([], p) := by
    cases p with
    | wait _ _ _ => rfl
    | write _ _ => rfl
    | read _ _ => rfl
    | _ => exact absurd hp (by simp [Calls])
  induction rs with
  | nil =>
    obtain ⟨rfl, rfl⟩ := Prod.mk.inj (Option.some.inj h)
    exact .inl ⟨rfl, rfl, 0, rfl⟩
  | cons r rs ih =>
    by_cases hr : r = .interrupted
    · subst hr
      obtain ⟨a, p', t, ha, ht, rfl⟩ := run_cons_eq_some.mp h
      obtain ⟨rfl, rfl⟩ := Prod.mk.inj (Option.some.inj (hagain.symm.trans ha))
      rcases ih ht with ⟨rfl, rfl, k, rfl⟩ | ⟨k, r, rs', hr, rfl, hrun⟩
      · exact .inl ⟨rfl, rfl, k + 1, rfl⟩
      · exact .inr ⟨k + 1, r, rs', hr, rfl, hrun⟩
    · exact .inr ⟨0, r, rs, hr, rfl, h⟩

theorem run_wait (h : (wait isPoll isWrite nextWait).run rs = some (s, q)) :
    (q = wait isPoll isWrite nextWait ∧ s = [] ∧ ∃ k, rs = List.replicate k .interrupted) ∨
    ∃ k z e rs', rs = List.replicate k .interrupted ++ .ready z e :: rs' ∧
      (nextWait z e).run rs' = some (s, q) := by
  rcases run_of_calls (p := wait isPoll isWrite nextWait) trivial h with
    hpending | ⟨k, r, rs', hr, rfl, hrun⟩
  · exact .inl hpending
  · obtain ⟨a, p', t, ha, ht, rfl⟩ := run_cons_eq_some.mp hrun
    cases r with
    | interrupted => exact absurd rfl hr
    | ready z e =>
      obtain ⟨rfl, rfl⟩ := Prod.mk.inj (Option.some.inj ha)
      exact .inr ⟨k, z, e, rs', rfl, ht⟩
    | _ => exact absurd ha (by simp [answer])

theorem run_write (h : (write buf nextWrite).run rs = some (s, q)) :
    (q = write buf nextWrite ∧ s = []) ∨
    (∃ k n e rs' t, n ≤ buf.length ∧ rs = List.replicate k .interrupted ++ .wrote n e :: rs' ∧
      s = buf.take n ++ t ∧ (nextWrite n e).run rs' = some (t, q)) ∨
    ∃ k e rs', rs = List.replicate k .interrupted ++ .failed e :: rs' ∧
      (nextWrite (-1) e).run rs' = some (s, q) := by
  rcases run_of_calls (p := write buf nextWrite) trivial h with
    ⟨hq, hs, -⟩ | ⟨k, r, rs', hr, rfl, hrun⟩
  · exact .inl ⟨hq, hs⟩
  · obtain ⟨a, p', t, ha, ht, rfl⟩ := run_cons_eq_some.mp hrun
    cases r with
    | interrupted => exact absurd rfl hr
    | wrote n e =>
      rw [answer] at ha
      split at ha
      · next hn =>
        obtain ⟨rfl, rfl⟩ := Prod.mk.inj (Option.some.inj ha)
        exact .inr (.inl ⟨k, n, e, rs', t, hn, rfl, rfl, ht⟩)
      · exact absurd ha (by simp)
    | failed e =>
      obtain ⟨rfl, rfl⟩ := Prod.mk.inj (Option.some.inj ha)
      exact .inr (.inr ⟨k, e, rs', rfl, ht⟩)
    | _ => exact absurd ha (by simp [answer])

theorem run_read (h : (read count next).run rs = some (s, q)) :
    (q = read count next ∧ s = [] ∧ ∃ k, rs = List.replicate k .interrupted) ∨
    (∃ k b e rs', b.length ≤ count ∧ rs = List.replicate k .interrupted ++ .got b e :: rs' ∧
      (next b.length b e).run rs' = some (s, q)) ∨
    ∃ k e rs', rs = List.replicate k .interrupted ++ .failed e :: rs' ∧
      (next (-1) [] e).run rs' = some (s, q) := by
  rcases run_of_calls (p := read count next) trivial h with hpending | ⟨k, r, rs', hr, rfl, hrun⟩
  · exact .inl hpending
  · obtain ⟨a, p', t, ha, ht, rfl⟩ := run_cons_eq_some.mp hrun
    cases r with
    | interrupted => exact absurd rfl hr
    | got b e =>
      rw [answer] at ha
      split at ha
      · next hb =>
        obtain ⟨rfl, rfl⟩ := Prod.mk.inj (Option.some.inj ha)
        exact .inr (.inl ⟨k, b, e, rs', hb, rfl, ht⟩)
      · exact absurd ha (by simp)
    | failed e =>
      obtain ⟨rfl, rfl⟩ := Prod.mk.inj (Option.some.inj ha)
      exact .inr (.inr ⟨k, e, rs', rfl, ht⟩)
    | _ => exact absurd ha (by simp [answer])

@[simp] theorem run_ready (z : ℤ) (e : Errno) :
    (wait isPoll isWrite nextWait).run (.ready z e :: rs) = (nextWait z e).run rs := by
  simp [run, answer]

theorem run_got {b : Bytes} (hb : b.length ≤ count) (e : Errno) :
    (read count next).run (.got b e :: rs) = (next b.length b e).run rs := by
  simp [run, answer, hb]

theorem run_append (h : p.run rs = some (s, q)) :
    p.run (rs ++ rs') = (q.run rs').map fun y => (s ++ y.1, y.2) := by
  induction rs generalizing p s with
  | nil =>
    obtain ⟨rfl, rfl⟩ := Prod.mk.inj (Option.some.inj h)
    simp
  | cons r rs ih =>
    obtain ⟨a, p', t, ha, ht, rfl⟩ := run_cons_eq_some.mp h
    rw [List.cons_append, run, ha, Option.bind_some, ih ht, Option.map_map]
    congr 1
    funext y
    simp

variable {f : α → Program β}

theorem answer_bind (hp : p.Calls) :
    (p.bind f).answer r = (p.answer r).map fun x => (x.1, x.2.bind f) := by
  cases p with
  | wait isPoll isWrite next => cases r <;> rfl
  | write buf next =>
    cases r with
    | wrote n e =>
      rw [Program.bind, answer, answer]
      split <;> rfl
    | _ => rfl
  | read count next =>
    cases r with
    | got b e =>
      rw [Program.bind, answer, answer]
      split <;> rfl
    | _ => rfl
  | _ => exact absurd hp (by simp [Calls])

theorem run_bind (h : p.run rs = some (s, q)) : (p >>= f).run rs = some (s, q.bind f) := by
  change (p.bind f).run rs = _
  induction rs generalizing p s with
  | nil =>
    obtain ⟨rfl, rfl⟩ := Prod.mk.inj (Option.some.inj h)
    rfl
  | cons r rs ih =>
    obtain ⟨a, p', t, ha, ht, rfl⟩ := run_cons_eq_some.mp h
    have hp : p.Calls := by
      by_contra hp
      exact absurd (run_of_not_calls hp h).1 (by simp)
    apply run_cons_eq_some.mpr
    exact ⟨a, p'.bind f, t, by rw [answer_bind hp, ha]; rfl, ih ht, rfl⟩

/-- A composed program is in its first part, or in the second one with the first one's result. -/
theorem run_bind_eq_some {q : Program β} (h : (p >>= f).run rs = some (s, q)) :
    (∃ p', p.run rs = some (s, p') ∧ (∀ a, p' ≠ ret a) ∧ q = p'.bind f) ∨
    ∃ rs₁ rs₂ s₁ s₂ a, rs = rs₁ ++ rs₂ ∧ s = s₁ ++ s₂ ∧ p.run rs₁ = some (s₁, ret a) ∧
      (f a).run rs₂ = some (s₂, q) := by
  change (p.bind f).run rs = _ at h
  induction rs generalizing p s with
  | nil =>
    obtain ⟨rfl, rfl⟩ := Prod.mk.inj (Option.some.inj h)
    by_cases hp : ∃ a, p = ret a
    · obtain ⟨a, rfl⟩ := hp
      exact .inr ⟨[], [], [], [], a, rfl, rfl, rfl, rfl⟩
    · exact .inl ⟨p, rfl, fun a ha => hp ⟨a, ha⟩, rfl⟩
  | cons r rs ih =>
    by_cases hp : p.Calls
    · obtain ⟨a, p'', t, ha, ht, rfl⟩ := run_cons_eq_some.mp h
      rw [answer_bind hp] at ha
      obtain ⟨⟨a', p'⟩, ha', heq⟩ := Option.map_eq_some_iff.mp ha
      obtain ⟨rfl, rfl⟩ := Prod.mk.inj heq
      rcases ih ht with ⟨p₁, hrun, hne, rfl⟩ | ⟨rs₁, rs₂, s₁, s₂, x, rfl, rfl, hrun, hnext⟩
      · exact .inl ⟨p₁, run_cons_eq_some.mpr ⟨a', p', t, ha', hrun, rfl⟩, hne, rfl⟩
      · refine .inr ⟨r :: rs₁, rs₂, a' ++ s₁, s₂, x, rfl, by rw [List.append_assoc], ?_, hnext⟩
        exact run_cons_eq_some.mpr ⟨a', p', s₁, ha', hrun, rfl⟩
    · cases p with
      | ret a => exact .inr ⟨[], r :: rs, [], s, a, rfl, rfl, rfl, h⟩
      | throw msg => exact absurd h (by simp [Program.bind, run, answer])
      | undefined => exact absurd h (by simp [Program.bind, run, answer])
      | _ => exact absurd trivial hp

theorem bind_ne_undefined (hp : p ≠ undefined) (hret : ∀ a, p ≠ ret a) : p.bind f ≠ undefined := by
  cases p with
  | ret a => exact absurd rfl (hret a)
  | undefined => exact absurd rfl hp
  | _ => simp [Program.bind]

end Runs

end Program

end YlUtils
