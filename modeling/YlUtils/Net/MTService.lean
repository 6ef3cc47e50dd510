import Mathlib.Data.Int.Notation
import Mathlib.Data.List.Basic
import YlUtils.Concurrency.Schedule

/-! # The service with threads

The accept loop leaves each descriptor in a variable, creates a thread and waits
until the thread has read it, which it learns from a counter under the lock. Other
uses of the two variables are not under the lock.
-/

namespace YlUtils.MTService

/-- Where the accept loop is: before `accept`, before the counter is reset, before the thread is
created, before the lock, or waiting. -/
inductive Boss
  | accepting
  | resetting
  | creating
  | locking
  | asleep
  | signalled
  | awoken
  | thrown
  deriving DecidableEq

inductive Worker
  | reading
  | sharing (accept_socket : ℤ)
  | serving (accept_socket : ℤ)
  deriving DecidableEq

structure State where
  boss : Boss
  mAcceptSocketfd : ℤ
  mShareCount : ℤ
  workers : List Worker

inductive Act
  | accept (fd : ℤ)
  | acceptThrows
  | reset
  | create
  | lock
  | wake
  | resume
  | read (k : ℕ)
  | share (k : ℕ)

inductive Event
  | accepted (fd : ℤ)
  | read (k : ℕ) (fd : ℤ)

/-- The state as `start` begins its loop; the variables have not been set. -/
def start (mAcceptSocketfd mShareCount : ℤ) : State :=
  ⟨.accepting, mAcceptSocketfd, mShareCount, []⟩

/-- The loop `while(mShareCount == 0)`, and what follows it, up to the next wait or `accept`. -/
def await (s : State) : State :=
  if s.mShareCount = 0 then { s with boss := .asleep }
  else { s with boss := .accepting, mShareCount := s.mShareCount - 1 }

/-- `mThreadFunc` with the lock held: the accept loop is signalled if the counter is zero. -/
def share (s : State) (k : ℕ) (fd : ℤ) : State :=
  { s with
    boss := if s.mShareCount = 0 ∧ s.boss = .asleep then .signalled else s.boss
    mShareCount := s.mShareCount + 1
    workers := s.workers.set k (.serving fd) }

def step (s : State) : Act → Outcome (State × List Event)
  | .accept fd =>
    if s.boss = .accepting then
      .ok ({ s with boss := .resetting, mAcceptSocketfd := fd }, [.accepted fd])
    else .blocked
  | .acceptThrows => if s.boss = .accepting then .ok ({ s with boss := .thrown }, []) else .blocked
  | .reset =>
    if s.boss = .resetting then .ok ({ s with boss := .creating, mShareCount := 0 }, [])
    else .blocked
  | .create =>
    if s.boss = .creating then
      .ok ({ s with boss := .locking, workers := s.workers ++ [.reading] }, [])
    else .blocked
  | .lock => if s.boss = .locking then .ok (await s, []) else .blocked
  | .wake => if s.boss = .asleep then .ok ({ s with boss := .awoken }, []) else .blocked
  | .resume => if s.boss = .signalled ∨ s.boss = .awoken then .ok (await s, []) else .blocked
  | .read k =>
    match s.workers[k]? with
    | some .reading =>
      .ok ({ s with workers := s.workers.set k (.sharing s.mAcceptSocketfd) },
        [.read k s.mAcceptSocketfd])
    | _ => .blocked
  | .share k =>
    match s.workers[k]? with
    | some (.sharing fd) => .ok (share s k fd, [])
    | _ => .blocked

def accepts (h : List Event) : List ℤ := h.filterMap fun | .accepted fd => some fd | _ => none

/-- The descriptors that were read, each with the number of the thread, in order. -/
def reads (h : List Event) : List (ℤ × ℕ) :=
  h.filterMap fun | .read k fd => some (fd, k) | _ => none

@[simp] theorem accepts_append (h h' : List Event) :
    accepts (h ++ h') = accepts h ++ accepts h' := List.filterMap_append

@[simp] theorem reads_append (h h' : List Event) : reads (h ++ h') = reads h ++ reads h' :=
  List.filterMap_append

structure Settled (s : State) (h : List Event) (A : List ℤ) : Prop where
  workers : s.workers = A.map .serving
  reads : reads h = A.zipIdx

/-- The thread of the last descriptor is to read it, to share that it has, or is done with both. -/
inductive Handing (s : State) (h : List Event) (A : List ℤ) : Prop
  | reading : s.workers = A.map .serving ++ [.reading] → reads h = A.zipIdx →
      s.mShareCount = 0 → Handing s h A
  | sharing : s.workers = A.map .serving ++ [.sharing s.mAcceptSocketfd] →
      reads h = (A ++ [s.mAcceptSocketfd]).zipIdx → s.mShareCount = 0 → Handing s h A
  | serving : Settled s h (A ++ [s.mAcceptSocketfd]) → s.mShareCount = 1 → Handing s h A

def Boss.waits : Boss → Bool
  | locking | asleep | signalled | awoken => true
  | _ => false

/-- What holds at the places of the accept loop. -/
inductive Inv (s : State) (h : List Event) : Prop
  | accepting (A : List ℤ) : s.boss = .accepting ∨ s.boss = .thrown → accepts h = A →
      Settled s h A → (A ≠ [] → s.mShareCount = 0) → Inv s h
  | resetting (A : List ℤ) : s.boss = .resetting → accepts h = A ++ [s.mAcceptSocketfd] →
      Settled s h A → (A ≠ [] → s.mShareCount = 0) → Inv s h
  | creating (A : List ℤ) : s.boss = .creating → accepts h = A ++ [s.mAcceptSocketfd] →
      Settled s h A → s.mShareCount = 0 → Inv s h
  | waiting (A : List ℤ) : s.boss.waits = true → accepts h = A ++ [s.mAcceptSocketfd] →
      Handing s h A → Inv s h

section Steps

variable {s : State} {h : List Event} {A : List ℤ} {k : ℕ} {fd : ℤ} {w w' : Worker}

theorem Settled.getElem (hs : Settled s h A) (hk : s.workers[k]? = some w) :
    ∃ fd, w = .serving fd := by
  rw [hs.workers, List.getElem?_map] at hk
  obtain ⟨fd, -, rfl⟩ := Option.map_eq_some_iff.mp hk
  exact ⟨fd, rfl⟩

theorem last_worker (hw : s.workers = A.map .serving ++ [w]) (hk : s.workers[k]? = some w')
    (hne : ∀ fd, w' ≠ .serving fd) : w' = w ∧ k = (A.map Worker.serving).length := by
  rw [hw] at hk
  rcases Nat.lt_or_ge k (A.map Worker.serving).length with hlt | hge
  · rw [List.getElem?_append_left hlt, List.getElem?_map] at hk
    obtain ⟨fd, -, hfd⟩ := Option.map_eq_some_iff.mp hk
    exact absurd hfd.symm (hne fd)
  · rw [List.getElem?_append_right hge] at hk
    obtain ⟨hlt, hget⟩ := List.getElem?_eq_some_iff.mp hk
    rw [List.length_singleton] at hlt
    constructor
    · rw [← hget, List.getElem_singleton]
    · omega

theorem Handing.boss (hs : Handing s h A) {b : Boss} : Handing { s with boss := b } h A := by
  cases hs with
  | reading hw hr hc => exact .reading hw hr hc
  | sharing hw hr hc => exact .sharing hw hr hc
  | serving hw hc => exact .serving ⟨hw.workers, hw.reads⟩ hc

theorem await_inv (hA : accepts h = A ++ [s.mAcceptSocketfd])
    (hs : Handing s h A) : Inv (await s) h := by
  unfold await
  by_cases hzero : s.mShareCount = 0
  · rw [if_pos hzero]
    apply Inv.waiting A
    · rfl
    · exact hA
    · exact hs.boss
  · rw [if_neg hzero]
    cases hs with
    | reading hw hr hc => exact absurd hc hzero
    | sharing hw hr hc => exact absurd hc hzero
    | serving hw hc =>
      have hc : s.mShareCount - 1 = 0 := by omega
      exact .accepting _ (.inl rfl) hA ⟨hw.workers, hw.reads⟩ fun _ => hc

theorem Inv.handing (hs : Inv s h) (hwaits : s.boss.waits = true) :
    ∃ A, accepts h = A ++ [s.mAcceptSocketfd] ∧ Handing s h A := by
  cases hs with
  | accepting A hb => rcases hb with hb | hb <;> simp [hb, Boss.waits] at hwaits
  | resetting A hb => simp [hb, Boss.waits] at hwaits
  | creating A hb => simp [hb, Boss.waits] at hwaits
  | waiting A _ hA hhand => exact ⟨A, hA, hhand⟩

theorem Inv.at_accept (hs : Inv s h) (hb : s.boss = .accepting) :
    ∃ A, accepts h = A ∧ Settled s h A ∧ (A ≠ [] → s.mShareCount = 0) := by
  cases hs with
  | accepting A _ hA hset hc => exact ⟨A, hA, hset, hc⟩
  | resetting A hb' => simp [hb] at hb'
  | creating A hb' => simp [hb] at hb'
  | waiting A hb' => simp [hb, Boss.waits] at hb'

theorem Inv.waits (hs : Inv s h) (hk : s.workers[k]? = some w) (hne : ∀ fd, w ≠ .serving fd) :
    s.boss.waits = true := by
  have hsettled : ∀ A, ¬ Settled s h A := by
    rintro A hset
    obtain ⟨fd, hfd⟩ := hset.getElem hk
    exact hne fd hfd
  cases hs with
  | accepting A _ _ hset => exact absurd hset (hsettled A)
  | resetting A _ _ hset => exact absurd hset (hsettled A)
  | creating A _ _ hset => exact absurd hset (hsettled A)
  | waiting A hb => exact hb

/-- A thread reads the descriptor: it is the last one that was created. -/
theorem read_inv (hs : Inv s h) (hk : s.workers[k]? = some .reading) :
    Inv { s with workers := s.workers.set k (.sharing s.mAcceptSocketfd) }
      (h ++ [.read k s.mAcceptSocketfd]) := by
  have hne : ∀ fd, Worker.reading ≠ .serving fd := fun _ => by simp
  have hb := hs.waits hk hne
  obtain ⟨A, hA, hhand⟩ := hs.handing hb
  apply Inv.waiting A
  · exact hb
  · rw [accepts_append, hA]
    exact List.append_nil _
  · cases hhand with
    | reading hw hr hc =>
      obtain ⟨-, rfl⟩ := last_worker hw hk hne
      apply Handing.sharing
      · rw [hw, List.set_append_right _ _ (Nat.le_refl _), Nat.sub_self]
        rfl
      · rw [reads_append, hr, List.zipIdx_append, List.length_map, Nat.zero_add]
        rfl
      · exact hc
    | sharing hw hr hc => exact absurd (last_worker hw hk hne).1 (by simp)
    | serving hset hc => exact absurd (hset.getElem hk) (by simp)

theorem share_inv (hs : Inv s h) (hk : s.workers[k]? = some (.sharing fd)) :
    Inv (share s k fd) (h ++ []) := by
  have hne : ∀ fd', Worker.sharing fd ≠ .serving fd' := fun _ => by simp
  rw [List.append_nil]
  have hb := hs.waits hk hne
  obtain ⟨A, hA, hhand⟩ := hs.handing hb
  cases hhand with
  | reading hw hr hc => exact absurd (last_worker hw hk hne).1 (by simp)
  | sharing hw hr hc =>
    obtain ⟨hfd, rfl⟩ := last_worker hw hk hne
    obtain rfl := Worker.sharing.inj hfd
    apply Inv.waiting A
    · unfold share
      dsimp only
      split
      · rfl
      · exact hb
    · exact hA
    · apply Handing.serving
      · constructor
        · unfold share
          rw [hw, List.set_append_right _ _ (Nat.le_refl _), Nat.sub_self, List.map_append]
          rfl
        · exact hr
      · unfold share
        rw [hc]
        rfl
  | serving hset hc => exact absurd (hset.getElem hk) (by simp)

theorem step_inv (hs : Inv s h) (a : Act) : (step s a).Holds fun (s', e) => Inv s' (h ++ e) := by
  have hnil : ∀ s' : State, (Outcome.ok (s', [])).Holds (fun (s', e) => Inv s' (h ++ e)) =
      Inv s' h := fun s' => congrArg (Inv s') (List.append_nil h)
  cases a with
  | accept fd =>
    by_cases hb : s.boss = .accepting
    · rw [step, if_pos hb]
      obtain ⟨A, hA, hset, hc⟩ := hs.at_accept hb
      apply Inv.resetting A rfl
      · rw [accepts_append, hA]
        rfl
      · refine ⟨hset.workers, ?_⟩
        rw [reads_append, hset.reads]
        exact List.append_nil _
      · exact hc
    · rw [step, if_neg hb]
      trivial
  | acceptThrows =>
    by_cases hb : s.boss = .accepting
    · rw [step, if_pos hb, hnil]
      obtain ⟨A, hA, hset, hc⟩ := hs.at_accept hb
      exact .accepting A (.inr rfl) hA ⟨hset.workers, hset.reads⟩ hc
    · rw [step, if_neg hb]
      trivial
  | reset =>
    by_cases hb : s.boss = .resetting
    · rw [step, if_pos hb, hnil]
      cases hs with
      | accepting A hb' => simp [hb] at hb'
      | resetting A _ hA hset hc => exact .creating A rfl hA ⟨hset.workers, hset.reads⟩ rfl
      | creating A hb' => simp [hb] at hb'
      | waiting A hb' => simp [hb, Boss.waits] at hb'
    · rw [step, if_neg hb]
      trivial
  | create =>
    by_cases hb : s.boss = .creating
    · rw [step, if_pos hb, hnil]
      cases hs with
      | accepting A hb' => simp [hb] at hb'
      | resetting A hb' => simp [hb] at hb'
      | creating A _ hA hset hc =>
        exact .waiting A rfl hA (.reading (by rw [hset.workers]) hset.reads hc)
      | waiting A hb' => simp [hb, Boss.waits] at hb'
    · rw [step, if_neg hb]
      trivial
  | lock =>
    by_cases hb : s.boss = .locking
    · rw [step, if_pos hb, hnil]
      obtain ⟨A, hA, hhand⟩ := hs.handing (by rw [hb]; rfl)
      exact await_inv hA hhand
    · rw [step, if_neg hb]
      trivial
  | wake =>
    by_cases hb : s.boss = .asleep
    · rw [step, if_pos hb, hnil]
      obtain ⟨A, hA, hhand⟩ := hs.handing (by rw [hb]; rfl)
      exact .waiting A rfl hA hhand.boss
    · rw [step, if_neg hb]
      trivial
  | resume =>
    by_cases hb : s.boss = .signalled ∨ s.boss = .awoken
    · rw [step, if_pos hb, hnil]
      have hwaits : s.boss.waits = true := by
        rcases hb with hb | hb <;>
        · rw [hb]
          rfl
      obtain ⟨A, hA, hhand⟩ := hs.handing hwaits
      exact await_inv hA hhand
    · rw [step, if_neg hb]
      trivial
  | read k =>
    rcases hk : s.workers[k]? with _ | (_ | fd | fd)
    · simp [step, hk]
    · simp only [step, hk]
      exact read_inv hs hk
    · simp [step, hk]
    · simp [step, hk]
  | share k =>
    rcases hk : s.workers[k]? with _ | (_ | fd | fd)
    · simp [step, hk]
    · simp [step, hk]
    · simp only [step, hk]
      exact share_inv hs hk
    · simp [step, hk]

theorem inv_start (fd count : ℤ) : Inv (start fd count) [] :=
  .accepting [] (.inl rfl) rfl ⟨rfl, rfl⟩ fun h => absurd rfl h

theorem Inv.mShareCount (hs : Inv s h) : accepts h = [] ∨
    (s.boss = .resetting ∧ (accepts h).length = 1) ∨ s.mShareCount = 0 ∨ s.mShareCount = 1 := by
  cases hs with
  | accepting A hb hA hset hc =>
    by_cases hnil : A = []
    · exact .inl (hA.trans hnil)
    · exact .inr (.inr (.inl (hc hnil)))
  | resetting A hb hA hset hc =>
    by_cases hnil : A = []
    · exact .inr (.inl ⟨hb, by rw [hA, hnil]; rfl⟩)
    · exact .inr (.inr (.inl (hc hnil)))
  | creating A hb hA hset hc => exact .inr (.inr (.inl hc))
  | waiting A hb hA hhand =>
    cases hhand with
    | reading hw hr hc => exact .inr (.inr (.inl hc))
    | sharing hw hr hc => exact .inr (.inr (.inl hc))
    | serving hset hc => exact .inr (.inr (.inr hc))

theorem Inv.reads_eq (hs : Inv s h) : reads h = (accepts h).zipIdx ∨
    ∃ A fd, accepts h = A ++ [fd] ∧ reads h = A.zipIdx := by
  cases hs with
  | accepting A hb hA hset hc => exact .inl (by rw [hset.reads, hA])
  | resetting A hb hA hset hc => exact .inr ⟨A, _, hA, hset.reads⟩
  | creating A hb hA hset hc => exact .inr ⟨A, _, hA, hset.reads⟩
  | waiting A hb hA hhand =>
    cases hhand with
    | reading hw hr hc => exact .inr ⟨A, _, hA, hr⟩
    | sharing hw hr hc => exact .inl (by rw [hr, hA])
    | serving hset hc => exact .inl (by rw [hset.reads, hA])

theorem Inv.reads (hs : Inv s h) : ∃ r, reads h = (accepts h).zipIdx.take r ∧
    (accepts h).length ≤ r + 1 := by
  rcases hs.reads_eq with hr | ⟨A, fd, hA, hr⟩
  · refine ⟨(accepts h).length, ?_, Nat.le_succ _⟩
    rw [hr, List.take_of_length_le]
    exact Nat.le_of_eq List.length_zipIdx
  · refine ⟨A.length, ?_, ?_⟩
    · rw [hr, hA, List.zipIdx_append, List.take_left' List.length_zipIdx]
    · rw [hA, List.length_append]
      exact Nat.le_refl _

theorem Settled.served (hset : Settled s h A) (hk : s.workers[k]? = some (.serving fd)) :
    A[k]? = some fd := by
  rw [hset.workers, List.getElem?_map] at hk
  obtain ⟨fd', hfd', hserving⟩ := Option.map_eq_some_iff.mp hk
  rw [hfd', Worker.serving.inj hserving]

theorem Inv.served (hs : Inv s h) (hk : s.workers[k]? = some (.serving fd)) :
    (accepts h)[k]? = some fd := by
  have happend : ∀ {A : List ℤ} {x : ℤ}, accepts h = A ++ [x] → A[k]? = some fd →
      (accepts h)[k]? = some fd := by
    intro A x hA hfd
    obtain ⟨hlt, -⟩ := List.getElem?_eq_some_iff.mp hfd
    rw [hA, List.getElem?_append_left hlt, hfd]
  have hlast : ∀ {A : List ℤ} {w : Worker}, s.workers = A.map .serving ++ [w] →
      (∀ fd, w ≠ .serving fd) → A[k]? = some fd := by
    intro A w hw hne
    rcases Nat.lt_or_ge k (A.map Worker.serving).length with hlt | hge
    · rw [hw, List.getElem?_append_left hlt, List.getElem?_map] at hk
      obtain ⟨fd', hfd', hserving⟩ := Option.map_eq_some_iff.mp hk
      rw [hfd', Worker.serving.inj hserving]
    · rw [hw, List.getElem?_append_right hge] at hk
      exact absurd (List.mem_singleton.mp (List.mem_of_getElem? hk)).symm (hne fd)
  cases hs with
  | accepting A hb hA hset hc => exact hA ▸ hset.served hk
  | resetting A hb hA hset hc => exact happend hA (hset.served hk)
  | creating A hb hA hset hc => exact happend hA (hset.served hk)
  | waiting A hb hA hhand =>
    cases hhand with
    | reading hw hr hc => exact happend hA (hlast hw fun _ => by simp)
    | sharing hw hr hc => exact happend hA (hlast hw fun _ => by simp)
    | serving hset hc => exact hA ▸ hset.served hk

theorem Inv.all_read (hs : Inv s h) (hb : s.boss = .accepting) : ∀ w ∈ s.workers, w ≠ .reading := by
  obtain ⟨A, -, hset, -⟩ := hs.at_accept hb
  rintro w hw rfl
  rw [hset.workers] at hw
  simp at hw

end Steps

/-- In every run the accept loop is at `accept` only if all threads that were created have read
their descriptors; the `k`-th thread reads the `k`-th accepted descriptor, and serves it, and all
descriptors but the last one are read; and from the first reset on the counter is 0 or 1. -/
theorem run_rendezvous (fd count : ℤ) (acts : List Act) :
    (Schedule.run step (start fd count) acts).Holds fun (s, h) =>
      (s.boss = .accepting → ∀ w ∈ s.workers, w ≠ .reading) ∧
      (∃ r, reads h = (accepts h).zipIdx.take r ∧ (accepts h).length ≤ r + 1) ∧
      (∀ (k : ℕ) fd, s.workers[k]? = some (.serving fd) → (accepts h)[k]? = some fd) ∧
      (accepts h = [] ∨ (s.boss = .resetting ∧ (accepts h).length = 1) ∨ s.mShareCount = 0 ∨
        s.mShareCount = 1) := by
  have hrun : (Schedule.run step (start fd count) acts).Holds fun (s, h) => Inv s h :=
    Schedule.run_holds (P := Inv) (fun s h a hs => step_inv hs a) (inv_start fd count) acts
  exact hrun.mono fun r hr => ⟨hr.all_read, hr.reads, fun k fd => hr.served, hr.mShareCount⟩

/-- Before the first reset the counter is what it happened to be. -/
theorem run_accept_unset : ¬(Schedule.run step (start 0 7) [.accept 5]).Holds fun (s, h) =>
    accepts h ≠ [] → s.mShareCount = 0 ∨ s.mShareCount = 1 := by
  intro h
  exact absurd (h (by decide)) (by decide)

end YlUtils.MTService
