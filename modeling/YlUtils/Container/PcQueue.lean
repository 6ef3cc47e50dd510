import YlUtils.Concurrency.Cond
import YlUtils.Concurrency.Schedule

/-! # The producer and consumer queue

A getter sleeps on the condition while the queue is empty. What is done with the
lock held is one step; a wait ends by a signal, by itself, or as its time is over.
-/

namespace YlUtils.PcQueue

open Threads Cond

/-- Where a thread is; the flag tells `geto` from `get`. -/
inductive Place
  | idle
  | asleep (timed : Bool)
  | signalled (timed : Bool)
  | awoken (timed : Bool)
  | timedOut
  deriving DecidableEq

def Place.isAsleep : Place → Bool
  | asleep _ => true
  | _ => false

def Place.isSignalled : Place → Bool
  | signalled _ => true
  | _ => false

def Place.wake : Place → Place
  | asleep timed => signalled timed
  | p => p

theorem Place.wake_spec (p : Place) (h : p.isAsleep = true) :
    p.wake.isAsleep = false ∧ p.wake.isSignalled = true := by
  cases p with
  | asleep timed => exact ⟨rfl, rfl⟩
  | _ => exact absurd h Bool.false_ne_true

theorem Place.not_isSignalled (p : Place) (h : p.isAsleep = true) : p.isSignalled = false := by
  cases p with
  | asleep timed => rfl
  | _ => exact absurd h Bool.false_ne_true

structure State (ι α : Type*) where
  mQueue : List α
  place : ι → Place

/-- The steps: the calls up to their first wait, and how waits end. `put` names the thread that
its signal wakes. -/
inductive Act (ι α : Type*)
  | put (i : ι) (t : α) (wakes : Option ι)
  | get (i : ι)
  | geto (i : ι)
  | wake (i : ι)
  | timeout (i : ι)
  | resume (i : ι)

inductive Event (ι α : Type*)
  | put (i : ι) (t : α)
  | returned (i : ι) (t : α)
  | thrown (i : ι) (message : String)

def timeoutMessage : String := "PcQueue::geto timeout"

variable {ι α : Type*} [Fintype ι] [DecidableEq ι]

def init : State ι α := ⟨[], fun _ => .idle⟩

def State.goto (s : State ι α) (i : ι) (p : Place) : State ι α :=
  { s with place := Function.update s.place i p }

/-- The loop `while(mQueue.empty())`, and what follows it, up to the next wait or the return. -/
def takeFront (s : State ι α) (i : ι) (timed : Bool) : Outcome (State ι α × List (Event ι α)) :=
  if s.mQueue.isEmpty then .ok (s.goto i (.asleep timed), [])
  else match s.mQueue with
    | [] => .undefined
    | t :: q => .ok ({ s with mQueue := q }.goto i .idle, [.returned i t])

def put (s : State ι α) (i : ι) (t : α) (wakes : Option ι) :
    Outcome (State ι α × List (Event ι α)) :=
  match signal Place.isAsleep Place.wake s.place wakes with
  | none => .blocked
  | some place => .ok (⟨s.mQueue ++ [t], place⟩, [.put i t])

def step (s : State ι α) : Act ι α → Outcome (State ι α × List (Event ι α))
  | .put i t wakes => if s.place i = .idle then put s i t wakes else .blocked
  | .get i => if s.place i = .idle then takeFront s i false else .blocked
  | .geto i => if s.place i = .idle then takeFront s i true else .blocked
  | .wake i =>
    match s.place i with
    | .asleep timed => .ok (s.goto i (.awoken timed), [])
    | _ => .blocked
  | .timeout i => if s.place i = .asleep true then .ok (s.goto i .timedOut, []) else .blocked
  | .resume i =>
    match s.place i with
    | .signalled timed => takeFront s i timed
    | .awoken timed => takeFront s i timed
    | .timedOut => .ok (s.goto i .idle, [.thrown i timeoutMessage])
    | _ => .blocked

def Act.items : Act ι α → List α
  | .put _ t _ => [t]
  | _ => []

def putItems (h : List (Event ι α)) : List α :=
  h.filterMap fun | .put _ t => some t | _ => none

/-- The items that were returned, in order. -/
def returnedItems (h : List (Event ι α)) : List α :=
  h.filterMap fun | .returned _ t => some t | _ => none

/-- The events of a step and the queue before and after it: an item is put, an item is returned,
or the queue stays as it is. -/
inductive Moves (q q' : List α) (i : ι) : List (Event ι α) → Prop
  | stays : q' = q → Moves q q' i []
  | put (t : α) : q' = q ++ [t] → Moves q q' i [.put i t]
  | returned (t : α) : q = t :: q' → Moves q q' i [.returned i t]
  | thrown (message : String) : q' = q → Moves q q' i [.thrown i message]

/-- The items that were put are those that were returned and those that are queued, in order, and
no wakeup is lost. -/
structure Inv (s : State ι α) (h : List (Event ι α)) : Prop where
  order : putItems h = returnedItems h ++ s.mQueue
  covered : Covered Place.isAsleep Place.isSignalled s.place s.mQueue.length 0

section Steps

variable {s : State ι α} {h e : List (Event ι α)} {q q' : List α} {i : ι}

omit [Fintype ι] [DecidableEq ι] in
theorem Moves.order (hm : Moves q q' i e) (hh : putItems h = returnedItems h ++ q) :
    putItems (h ++ e) = returnedItems (h ++ e) ++ q' := by
  unfold putItems returnedItems at *
  cases hm with
  | stays hq => simp [hq, hh]
  | put t hq => simp [hq, hh]
  | returned t hq => simp [hq, hh]
  | thrown message hq => simp [hq, hh]

theorem takeFront_spec (hs : Covered Place.isAsleep Place.isSignalled s.place s.mQueue.length 0)
    (i : ι) (timed : Bool) : (takeFront s i timed).Holds fun (s', e) =>
      Moves s.mQueue s'.mQueue i e ∧
        Covered Place.isAsleep Place.isSignalled s'.place s'.mQueue.length 0 := by
  unfold takeFront
  rcases hq : s.mQueue with _ | ⟨t, q⟩
  · constructor
    · exact .stays hq
    · rw [State.goto, hq]
      exact covered_zero
  · constructor
    · exact .returned t rfl
    · rw [hq] at hs
      apply hs.update
      · exact fun h => absurd h Bool.false_ne_true
      · have hle := Bool.toNat_le (s.place i).isSignalled
        change q.length + 0 + (s.place i).isSignalled.toNat ≤ q.length + 1 + 0 + 0
        omega

theorem put_spec (hs : Covered Place.isAsleep Place.isSignalled s.place s.mQueue.length 0)
    (i : ι) (t : α) (wakes : Option ι) : (put s i t wakes).Holds fun (s', e) =>
      Moves s.mQueue s'.mQueue i e ∧
        Covered Place.isAsleep Place.isSignalled s'.place s'.mQueue.length 0 := by
  unfold put
  cases hsignal : signal Place.isAsleep Place.wake s.place wakes with
  | none => trivial
  | some place =>
    constructor
    · exact .put t rfl
    · rw [List.length_append, List.length_singleton]
      exact hs.add.signal hsignal Place.wake_spec Place.not_isSignalled

theorem goto_spec (hs : Covered Place.isAsleep Place.isSignalled s.place s.mQueue.length 0)
    {p : Place} (hi : (s.place i).isSignalled = false) (hp : p.isAsleep = false) :
    Covered Place.isAsleep Place.isSignalled (s.goto i p).place (s.goto i p).mQueue.length 0 := by
  apply hs.update
  · rw [hp]
    exact fun h => absurd h Bool.false_ne_true
  · rw [hi, Bool.toNat_false]
    exact Nat.le_add_right _ _

theorem step_spec (hs : Covered Place.isAsleep Place.isSignalled s.place s.mQueue.length 0)
    (a : Act ι α) : (step s a).Holds fun (s', e) => (∃ i, Moves s.mQueue s'.mQueue i e) ∧
      Covered Place.isAsleep Place.isSignalled s'.place s'.mQueue.length 0 := by
  have htake := fun i timed => (takeFront_spec hs i timed).mono fun r ⟨hm, hc⟩ =>
    (⟨⟨i, hm⟩, hc⟩ : (∃ i, Moves s.mQueue r.1.mQueue i r.2) ∧ _)
  cases a with
  | put i t wakes =>
    by_cases hi : s.place i = .idle
    · rw [step, if_pos hi]
      exact (put_spec hs i t wakes).mono fun r ⟨hm, hc⟩ => ⟨⟨i, hm⟩, hc⟩
    · rw [step, if_neg hi]
      trivial
  | get i =>
    by_cases hi : s.place i = .idle
    · rw [step, if_pos hi]
      exact htake i false
    · rw [step, if_neg hi]
      trivial
  | geto i =>
    by_cases hi : s.place i = .idle
    · rw [step, if_pos hi]
      exact htake i true
    · rw [step, if_neg hi]
      trivial
  | wake i =>
    cases hi : s.place i with
    | asleep timed =>
      rw [step, hi]
      exact ⟨⟨i, .stays rfl⟩, goto_spec hs (by rw [hi]; rfl) rfl⟩
    | _ =>
      rw [step, hi]
      trivial
  | timeout i =>
    by_cases hi : s.place i = .asleep true
    · rw [step, if_pos hi]
      exact ⟨⟨i, .stays rfl⟩, goto_spec hs (by rw [hi]; rfl) rfl⟩
    · rw [step, if_neg hi]
      trivial
  | resume i =>
    cases hi : s.place i with
    | signalled timed =>
      rw [step, hi]
      exact htake i timed
    | awoken timed =>
      rw [step, hi]
      exact htake i timed
    | timedOut =>
      rw [step, hi]
      exact ⟨⟨i, .thrown _ rfl⟩, goto_spec hs (by rw [hi]; rfl) rfl⟩
    | _ =>
      rw [step, hi]
      trivial

theorem step_items (s : State ι α) (a : Act ι α) : (step s a).Holds fun (_, e) =>
    putItems e = a.items := by
  have htake : ∀ i timed, (takeFront s i timed).Holds fun (_, e) => putItems e = [] := by
    intro i timed
    unfold takeFront
    cases s.mQueue with
    | nil => rfl
    | cons t q => rfl
  cases a with
  | put i t wakes =>
    rw [step]
    split
    · unfold put
      cases signal Place.isAsleep Place.wake s.place wakes with
      | none => trivial
      | some place => rfl
    · trivial
  | get i =>
    rw [step]
    split
    · exact htake i false
    · trivial
  | geto i =>
    rw [step]
    split
    · exact htake i true
    · trivial
  | wake i =>
    rw [step]
    split
    · rfl
    · trivial
  | timeout i =>
    rw [step]
    split
    · rfl
    · trivial
  | resume i =>
    rw [step]
    split
    · next timed _ => exact htake i timed
    · next timed _ => exact htake i timed
    · rfl
    · trivial

/-- In every run no item is taken from an empty queue. The items of the `put` steps are those that
were returned, each to the caller of its event, and those that are queued, in the order in which
they were put; a call that throws leaves the queue as it is. While a getter is asleep there are
at most as many items in the queue as getters that were signalled and have not yet resumed. -/
theorem run_in_order (acts : List (Act ι α)) : (Schedule.run step init acts).Holds fun (s, h) =>
    acts.flatMap Act.items = returnedItems h ++ s.mQueue ∧
    ((∃ i, (s.place i).isAsleep = true) → s.mQueue.length ≤ count Place.isSignalled s.place) ∧
    ∀ a s' e i message, step s a = .ok (s', e) → .thrown i message ∈ e → s'.mQueue = s.mQueue := by
  have hrun : (Schedule.run step init acts).Holds fun (s, h) =>
      acts.flatMap Act.items = putItems h ∧ Inv s h := by
    refine Schedule.run_holds_steps
      (Q := fun s as h => as.flatMap Act.items = putItems h ∧ Inv s h)
      (fun s as h a ⟨hitems, hs⟩ _ => ?_) ⟨rfl, rfl, covered_zero⟩ acts (Schedule.meets_true acts)
    refine ((step_items s a).and fun r hr => (step_spec hs.covered a).of_eq hr).mono ?_
    rintro r ⟨he, ⟨i, hm⟩, hc⟩
    refine ⟨?_, hm.order hs.order, hc⟩
    rw [List.flatMap_append, hitems, List.flatMap_singleton, ← he]
    exact List.filterMap_append.symm
  refine hrun.mono fun r ⟨hitems, hr⟩ => ⟨hitems.trans hr.order, fun hi => ?_, ?_⟩
  · have hle := hr.covered hi
    omega
  · rintro a s' e i message hs hi
    obtain ⟨⟨j, hm⟩, -⟩ := (step_spec hr.covered a).of_eq hs
    cases hm with
    | thrown message hq => exact hq
    | stays hq => exact hq
    | put t hq => simp at hi
    | returned t hq => simp at hi

end Steps

end YlUtils.PcQueue
