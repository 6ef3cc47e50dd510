import Mathlib.Algebra.Ring.Nat
import Mathlib.Data.List.Forall2
import YlUtils.Runs.Succeeds
import YlUtils.Streams.Program

/-! # Two parties and a stream

A sender and a receiver run their calls one after the other; the bytes that are
written are read in order. The parties take turns in any way, and any part of
what is asked for may be transferred.
-/

namespace YlUtils

/-- A party with the calls it has left, the current one first, and the results it has. -/
structure Party (α : Type) where
  calls : List (Program α)
  results : List α

inductive Act
  | ready (r : ℤ) (e : Errno)
  | transfer (n : ℕ) (e : Errno)
  | interrupted
  | returns

namespace Act

/-- An interrupted call is made again, which is no step. -/
def steps : Act → ℕ
  | interrupted => 0
  | _ => 1

end Act

namespace Party

variable {α : Type}

def ready (p : Party α) (r : ℤ) (e : Errno) : Option (Party α) :=
  match p.calls with
  | .wait _ _ next :: calls => if 0 < r then some { p with calls := next r e :: calls } else none
  | _ => none

def returns (p : Party α) : Option (Party α) :=
  match p.calls with
  | .ret a :: calls => some ⟨calls, p.results ++ [a]⟩
  | _ => none

def interrupted (p : Party α) : Option (Party α) :=
  match p.calls with
  | .write _ _ :: _ => some p
  | .read _ _ :: _ => some p
  | _ => none

def writes (p : Party α) (n : ℕ) (e : Errno) (stream : Bytes) : Option (Party α × Bytes) :=
  match p.calls with
  | .write buf next :: calls =>
    if 0 < n ∧ n ≤ buf.length then
      some ({ p with calls := next n e :: calls }, stream ++ buf.take n)
    else none
  | _ => none

def reads (p : Party α) (n : ℕ) (e : Errno) (stream : Bytes) : Option (Party α × Bytes) :=
  match p.calls with
  | .read count next :: calls =>
    if 0 < n ∧ n ≤ count ∧ n ≤ stream.length then
      some ({ p with calls := next n (stream.take n) e :: calls }, stream.drop n)
    else none
  | _ => none

/-- The calls transfer the bytes `s` one after the other in at most `m` steps, and
their results satisfy `posts`. -/
inductive Transfer (d : Direction) : List (Program α) → List (α → Prop) → Bytes → ℕ → Prop
  | nil : Transfer d [] [] [] 0
  | cons {c : Program α} {P : α → Prop} {s t : Bytes} {m m' : ℕ} {calls : List (Program α)}
      {posts : List (α → Prop)} : c.Transfers d s m P → Transfer d calls posts t m' →
      Transfer d (c :: calls) (P :: posts) (s ++ t) (m + 1 + m')

/-- The results satisfy the first of `posts`, and the calls that are left transfer
the bytes `s` in at most `m` steps and satisfy the others. -/
def Owes (d : Direction) (p : Party α) (posts : List (α → Prop)) (s : Bytes) (m : ℕ) : Prop :=
  ∃ done todo : List (α → Prop), List.Forall₂ (fun P a => P a) done p.results ∧
    Transfer d p.calls todo s m ∧ posts = done ++ todo

variable {d : Direction} {p p' : Party α} {c : Program α} {calls : List (Program α)}
  {posts : List (α → Prop)} {s stream stream' : Bytes} {m n : ℕ} {r : ℤ} {e : Errno}

theorem Owes.cons (h : p.Owes d posts s m) (hc : p.calls = c :: calls) :
    ∃ (done todo : List (α → Prop)) (P : α → Prop) (s₁ s₂ : Bytes) (m₁ m₂ : ℕ),
      List.Forall₂ (fun P a => P a) done p.results ∧ c.Transfers d s₁ m₁ P ∧
      Transfer d calls todo s₂ m₂ ∧ posts = done ++ P :: todo ∧ s = s₁ ++ s₂ ∧
      m = m₁ + 1 + m₂ := by
  obtain ⟨done, todo, hdone, htodo, hposts⟩ := h
  rw [hc] at htodo
  cases htodo with
  | cons hcall hrest => exact ⟨done, _, _, _, _, _, _, hdone, hcall, hrest, hposts, rfl, rfl⟩

theorem Owes.ready (h : p.Owes d posts s m) (hp : p.ready r e = some p') :
    ∃ m' < m, p'.Owes d posts s m' := by
  unfold Party.ready at hp
  split at hp
  · next isPoll isWrite next calls hc =>
    obtain ⟨done, todo, P, s₁, s₂, m₁, m₂, hdone, hcall, hrest, hposts, rfl, rfl⟩ := h.cons hc
    obtain ⟨k, rfl, hnext⟩ := hcall
    split at hp
    · next hr =>
      obtain rfl := Option.some.inj hp
      exact ⟨k + 1 + m₂, by omega, done, P :: todo, hdone, .cons (hnext r e hr) hrest, hposts⟩
    · exact absurd hp (by simp)
  · exact absurd hp (by simp)

theorem Owes.returns (h : p.Owes d posts s m) (hp : p.returns = some p') :
    ∃ m' < m, p'.Owes d posts s m' := by
  unfold Party.returns at hp
  split at hp
  · next a calls hc =>
    obtain ⟨done, todo, P, s₁, s₂, m₁, m₂, hdone, hcall, hrest, hposts, rfl, rfl⟩ := h.cons hc
    obtain ⟨rfl, ha⟩ := hcall
    obtain rfl := Option.some.inj hp
    refine ⟨m₂, by omega, done ++ [P], todo, List.rel_append hdone (.cons ha .nil), hrest, ?_⟩
    rw [hposts, List.append_assoc]
    rfl
  · exact absurd hp (by simp)

theorem Owes.writes (h : p.Owes .sending posts s m)
    (hp : p.writes n e stream = some (p', stream')) :
    ∃ m' < m, p'.Owes .sending posts (s.drop n) m' ∧ stream' ++ s.drop n = stream ++ s := by
  unfold Party.writes at hp
  split at hp
  · next buf next calls hc =>
    obtain ⟨done, todo, P, s₁, s₂, m₁, m₂, hdone, hcall, hrest, hposts, rfl, rfl⟩ := h.cons hc
    obtain ⟨-, hbuf, ⟨b, rfl⟩, k, rfl, hnext⟩ := hcall
    split at hp
    · next hn =>
      obtain ⟨rfl, rfl⟩ := Prod.mk.inj (Option.some.inj hp)
      have hdrop : ((buf ++ b) ++ s₂).drop n = (buf ++ b).drop n ++ s₂ :=
        List.drop_append_of_le_length (by rw [List.length_append]; omega)
      refine ⟨k + 1 + m₂, by omega, ⟨done, P :: todo, hdone, ?_, hposts⟩, ?_⟩
      · rw [hdrop]
        exact .cons (hnext n e hn.1 hn.2) hrest
      · rw [List.append_assoc buf, List.drop_append_of_le_length hn.2, List.append_assoc stream,
          ← List.append_assoc (buf.take n), List.take_append_drop]
    · exact absurd hp (by simp)
  · exact absurd hp (by simp)

theorem Owes.reads {t : Bytes} (h : p.Owes .receiving posts (stream ++ t) m)
    (hp : p.reads n e stream = some (p', stream')) :
    ∃ m' < m, p'.Owes .receiving posts (stream' ++ t) m' := by
  unfold Party.reads at hp
  split at hp
  · next count next calls hc =>
    obtain ⟨done, todo, P, s₁, s₂, m₁, m₂, hdone, hcall, hrest, hposts, hs, rfl⟩ := h.cons hc
    obtain ⟨-, -, hle, k, rfl, hnext⟩ := hcall
    split at hp
    · next hn =>
      obtain ⟨rfl, rfl⟩ := Prod.mk.inj (Option.some.inj hp)
      have htake : stream.take n = s₁.take n := by
        have happ : (stream ++ t).take n = stream.take n :=
          List.take_append_of_le_length hn.2.2
        rw [← happ, hs, List.take_append_of_le_length (hn.2.1.trans hle)]
      have hdrop : stream.drop n ++ t = s₁.drop n ++ s₂ := by
        rw [← List.drop_append_of_le_length hn.2.2, hs,
          List.drop_append_of_le_length (hn.2.1.trans hle)]
      refine ⟨k + 1 + m₂, by omega, done, P :: todo, hdone, ?_, hposts⟩
      rw [hdrop, htake]
      exact .cons (hnext n e hn.1 hn.2.1) hrest
    · exact absurd hp (by simp)
  · exact absurd hp (by simp)

def expects (as : List α) : List (α → Prop) := as.map fun a b => b = a

theorem Owes.results {as : List α} (h : p.Owes d (expects as) s m) :
    p.results = as.take p.results.length := by
  obtain ⟨done, todo, hdone, -, hposts⟩ := h
  have hlen := hdone.length_eq
  have htake : expects (as.take p.results.length) = done := by
    rw [expects, List.map_take, ← hlen]
    change (expects as).take done.length = done
    rw [hposts, List.take_left]
  rw [← htake, expects, List.forall₂_map_left_iff] at hdone
  exact (List.forall₂_eq_eq_eq ▸ hdone.imp fun _ _ h => h.symm : Eq _ _).symm

theorem Owes.finished (h : p.Owes d posts s m) (hc : p.calls = []) :
    s = [] ∧ p.results.length = posts.length := by
  obtain ⟨done, todo, hdone, htodo, rfl⟩ := h
  rw [hc] at htodo
  cases htodo with
  | nil => exact ⟨rfl, by rw [List.append_nil, hdone.length_eq]⟩

end Party

inductive Event
  | sender (a : Act)
  | receiver (a : Act)

def Event.act : Event → Act
  | sender a => a
  | receiver a => a

structure Pipe (α β : Type) where
  sender : Party α
  stream : Bytes
  receiver : Party β

namespace Pipe

variable {α β : Type}

def step (c : Pipe α β) : Event → Option (Pipe α β)
  | .sender (.ready r e) => (c.sender.ready r e).map fun p => { c with sender := p }
  | .sender (.transfer n e) =>
    (c.sender.writes n e c.stream).map fun p => { c with sender := p.1, stream := p.2 }
  | .sender .interrupted => c.sender.interrupted.map fun p => { c with sender := p }
  | .sender .returns => c.sender.returns.map fun p => { c with sender := p }
  | .receiver (.ready r e) => (c.receiver.ready r e).map fun p => { c with receiver := p }
  | .receiver (.transfer n e) =>
    (c.receiver.reads n e c.stream).map fun p => { c with receiver := p.1, stream := p.2 }
  | .receiver .interrupted => c.receiver.interrupted.map fun p => { c with receiver := p }
  | .receiver .returns => c.receiver.returns.map fun p => { c with receiver := p }

def run (c : Pipe α β) (es : List Event) : Option (Pipe α β) := es.foldlM step c

/-- What the receiver still has to read is on its way or still has to be written. -/
def Owes (c : Pipe α β) (sent : List (α → Prop)) (received : List (β → Prop)) (m : ℕ) : Prop :=
  ∃ s m₁ m₂, c.sender.Owes .sending sent s m₁ ∧
    c.receiver.Owes .receiving received (c.stream ++ s) m₂ ∧
    m = m₁ + m₂

def Finished (c : Pipe α β) : Prop := c.sender.calls = [] ∧ c.receiver.calls = []

variable {c c' : Pipe α β} {sent : List (α → Prop)} {received : List (β → Prop)} {m : ℕ}
  {ev : Event} {es : List Event}

theorem interrupted_eq {p p' : Party α} (h : p.interrupted = some p') : p' = p := by
  unfold Party.interrupted at h
  split at h <;> simp_all

/-- Every event keeps what is owed, and takes its steps off the bound. -/
theorem Owes.step (h : c.Owes sent received m) (hc : c.step ev = some c') :
    ∃ m', m' + ev.act.steps ≤ m ∧ c'.Owes sent received m' := by
  obtain ⟨s, m₁, m₂, h₁, h₂, rfl⟩ := h
  rcases ev with a | a <;> cases a <;> obtain ⟨p, hp, rfl⟩ := Option.map_eq_some_iff.mp hc
  case sender.ready r e =>
    obtain ⟨k, hk, hp⟩ := h₁.ready hp
    exact ⟨k + m₂, Nat.add_right_comm k m₂ 1 ▸ Nat.add_le_add_right hk m₂, s, k, m₂, hp, h₂, rfl⟩
  case sender.transfer n e =>
    obtain ⟨k, hk, hp, hstream⟩ := h₁.writes hp
    refine ⟨k + m₂, Nat.add_right_comm k m₂ 1 ▸ Nat.add_le_add_right hk m₂, s.drop n, k, m₂, hp, ?_,
      rfl⟩
    rw [hstream]
    exact h₂
  case sender.interrupted =>
    exact ⟨m₁ + m₂, Nat.le_refl _, s, m₁, m₂, interrupted_eq hp ▸ h₁, h₂, rfl⟩
  case sender.returns =>
    obtain ⟨k, hk, hp⟩ := h₁.returns hp
    exact ⟨k + m₂, Nat.add_right_comm k m₂ 1 ▸ Nat.add_le_add_right hk m₂, s, k, m₂, hp, h₂, rfl⟩
  case receiver.ready r e =>
    obtain ⟨k, hk, hp⟩ := h₂.ready hp
    exact ⟨m₁ + k, Nat.add_le_add_left hk m₁, s, m₁, k, h₁, hp, rfl⟩
  case receiver.transfer n e =>
    obtain ⟨k, hk, hp⟩ := h₂.reads hp
    exact ⟨m₁ + k, Nat.add_le_add_left hk m₁, s, m₁, k, h₁, hp, rfl⟩
  case receiver.interrupted =>
    exact ⟨m₁ + m₂, Nat.le_refl _, s, m₁, m₂, h₁, interrupted_eq hp ▸ h₂, rfl⟩
  case receiver.returns =>
    obtain ⟨k, hk, hp⟩ := h₂.returns hp
    exact ⟨m₁ + k, Nat.add_le_add_left hk m₁, s, m₁, k, h₁, hp, rfl⟩

theorem Owes.run (h : c.Owes sent received m) (hc : c.run es = some c') :
    ∃ m', m' + (es.map fun ev => ev.act.steps).sum ≤ m ∧ c'.Owes sent received m' := by
  induction es generalizing c m with
  | nil =>
    obtain rfl := Option.some.inj hc
    exact ⟨m, Nat.le_refl m, h⟩
  | cons ev es ih =>
    obtain ⟨c₁, hc₁, hc'⟩ := Option.bind_eq_some_iff.mp hc
    obtain ⟨m₁, hm₁, h₁⟩ := h.step hc₁
    obtain ⟨m', hm', h'⟩ := ih h₁ hc'
    refine ⟨m', ?_, h'⟩
    rw [List.map_cons, List.sum_cons]
    omega

theorem exists_step_sender {p : Program α} {calls : List (Program α)} {posts : List (α → Prop)}
    {s : Bytes} (h : c.sender.Owes .sending posts s m) (hc : c.sender.calls = p :: calls) :
    ∃ a c', a.steps = 1 ∧ c.step (.sender a) = some c' := by
  obtain ⟨-, -, P, s₁, -, m₁, -, -, hp, -⟩ := h.cons hc
  cases p with
  | ret a => exact ⟨.returns, _, rfl, by simp only [step, Party.returns, hc]; rfl⟩
  | throw msg => exact absurd hp (by simp [Program.Transfers])
  | undefined => exact absurd hp (by simp [Program.Transfers])
  | wait isPoll isWrite next =>
    exact ⟨.ready 1 ⟨false, ""⟩, _, rfl, by simp only [step, Party.ready, hc]; rfl⟩
  | write buf next =>
    have hbuf : 1 ≤ buf.length := List.length_pos_iff.mpr hp.2.1
    exact ⟨.transfer 1 ⟨false, ""⟩, _, rfl, by simp only [step, Party.writes, hc, hbuf]; rfl⟩
  | read count next => exact absurd hp.1 (by decide)

theorem exists_step_receiver {p : Program β} {calls : List (Program β)} {posts : List (β → Prop)}
    (h : c.receiver.Owes .receiving posts c.stream m) (hc : c.receiver.calls = p :: calls) :
    ∃ a c', a.steps = 1 ∧ c.step (.receiver a) = some c' := by
  obtain ⟨-, -, P, s₁, s₂, m₁, -, -, hp, -, -, hs, -⟩ := h.cons hc
  cases p with
  | ret a => exact ⟨.returns, _, rfl, by simp only [step, Party.returns, hc]; rfl⟩
  | throw msg => exact absurd hp (by simp [Program.Transfers])
  | undefined => exact absurd hp (by simp [Program.Transfers])
  | wait isPoll isWrite next =>
    exact ⟨.ready 1 ⟨false, ""⟩, _, rfl, by simp only [step, Party.ready, hc]; rfl⟩
  | write buf next => exact absurd hp.1 (by decide)
  | read count next =>
    obtain ⟨-, hcount, hle, -⟩ := hp
    have hstream : 1 ≤ c.stream.length := by
      rw [hs, List.length_append]
      omega
    have hcount : 1 ≤ count := hcount
    exact ⟨.transfer 1 ⟨false, ""⟩, _, rfl, by
      simp only [step, Party.reads, hc, hcount, hstream]; rfl⟩

/-- Until all calls have returned, one of the parties can take a step. -/
theorem Owes.exists_step (h : c.Owes sent received m) (hc : ¬ c.Finished) :
    ∃ ev c', ev.act.steps = 1 ∧ c.step ev = some c' := by
  obtain ⟨s, m₁, m₂, h₁, h₂, -⟩ := h
  cases hs : c.sender.calls with
  | cons p calls =>
    obtain ⟨a, c', ha, hstep⟩ := exists_step_sender h₁ hs
    exact ⟨.sender a, c', ha, hstep⟩
  | nil =>
    obtain ⟨rfl, -⟩ := h₁.finished hs
    rw [List.append_nil] at h₂
    cases hr : c.receiver.calls with
    | cons p calls =>
      obtain ⟨a, c', ha, hstep⟩ := exists_step_receiver h₂ hr
      exact ⟨.receiver a, c', ha, hstep⟩
    | nil => exact absurd ⟨hs, hr⟩ hc

theorem Owes.finished (h : c.Owes sent received m) (hc : c.Finished) :
    c.stream = [] ∧ c.sender.results.length = sent.length ∧
      c.receiver.results.length = received.length := by
  obtain ⟨s, m₁, m₂, h₁, h₂, -⟩ := h
  obtain ⟨rfl, hsent⟩ := h₁.finished hc.1
  rw [List.append_nil] at h₂
  obtain ⟨hstream, hreceived⟩ := h₂.finished hc.2
  exact ⟨hstream, hsent, hreceived⟩

end Pipe

end YlUtils
