import Mathlib.Data.List.Basic
import Mathlib.Logic.Function.Basic
import YlUtils.Concurrency.Schedule

/-! # The container with semaphores

Each method is a sequence of atomic steps on two semaphores and a deque. A thread
makes one call after the other; what is left of its current call is its code.
-/

namespace YlUtils

inductive End
  | front
  | back
  deriving DecidableEq

namespace Deque

variable {α : Type*}

def push (e : End) (item : α) (d : List α) : List α :=
  match e with
  | .front => item :: d
  | .back => d ++ [item]

/-- The item that is removed and what remains, undefined on an empty deque. -/
def pop (e : End) (d : List α) : Option (α × List α) :=
  match e with
  | .front => d.head?.map fun item => (item, d.tail)
  | .back => d.getLast?.map fun item => (item, d.dropLast)

def putEnd : End := .back

def getEnd : End := .front

variable {e : End} {item : α} {d d' : List α}

theorem length_push (e : End) (item : α) (d : List α) : (push e item d).length = d.length + 1 := by
  cases e <;> simp [push]

theorem push_perm (e : End) (item : α) (d : List α) : (push e item d).Perm (item :: d) := by
  cases e with
  | front => exact .refl _
  | back => exact List.perm_append_singleton _ _

theorem exists_pop (e : End) (h : 0 < d.length) : ∃ item d', pop e d = some (item, d') := by
  have hne : d ≠ [] := List.ne_nil_of_length_pos h
  cases e with
  | front => exact ⟨d.head hne, d.tail, by rw [pop, List.head?_eq_some_head hne]; rfl⟩
  | back => exact ⟨d.getLast hne, d.dropLast, by rw [pop, List.getLast?_eq_some_getLast hne]; rfl⟩

theorem pop_perm (h : pop e d = some (item, d')) : d.Perm (item :: d') := by
  have hne : d ≠ [] := by
    rintro rfl
    cases e <;> exact absurd h (by simp [pop])
  cases e with
  | front =>
    rw [pop, List.head?_eq_some_head hne] at h
    obtain ⟨rfl, rfl⟩ := Prod.mk.inj (Option.some.inj h)
    rw [List.cons_head_tail]
  | back =>
    rw [pop, List.getLast?_eq_some_getLast hne] at h
    obtain ⟨rfl, rfl⟩ := Prod.mk.inj (Option.some.inj h)
    nth_rewrite 1 [← List.dropLast_append_getLast hne]
    exact List.perm_append_singleton _ _

theorem pop_front_eq (h : pop .front d = some (item, d')) : d = item :: d' := by
  cases d with
  | nil => exact absurd h (by simp [pop])
  | cons x d =>
    obtain ⟨rfl, rfl⟩ := Prod.mk.inj (Option.some.inj h)
    rfl

end Deque

namespace SafeContainerBySem

inductive Sem
  | mSizeSem
  | mMutexSem
  deriving DecidableEq

inductive Instr (α : Type*)
  | wait (sem : Sem)
  | post (sem : Sem)
  | push (e : End) (item : α)
  | pop (e : End)
  | getValue
  deriving DecidableEq

abbrev Code (α : Type*) := List (Instr α)

inductive Method (α : Type*)
  | put (item : α)
  | get
  | pushBack (item : α)
  | pushFront (item : α)
  | popBack
  | popFront
  | clear
  deriving DecidableEq

section Methods

variable {α : Type*}

open Sem Instr

def put (item : α) : Code α :=
  [wait mMutexSem, push Deque.putEnd item, post mSizeSem, post mMutexSem]

def get : Code α := [wait mSizeSem, wait mMutexSem, pop Deque.getEnd, post mMutexSem]

def pushBack (item : α) : Code α := [wait mMutexSem, push .back item, post mSizeSem, post mMutexSem]

def popBack : Code α := [wait mSizeSem, wait mMutexSem, pop .back, post mMutexSem]

def pushFront (item : α) : Code α :=
  [wait mMutexSem, push .front item, post mSizeSem, post mMutexSem]

def popFront : Code α := [wait mSizeSem, wait mMutexSem, pop .front, post mMutexSem]

/-- `clear`, whose `while` loop follows as `value` has been read. -/
def clear : Code α := [wait mMutexSem, getValue, post mMutexSem]

/-- The `while` loop of `clear` and what comes behind it. -/
def clearLoop : ℕ → Code α → Code α
  | 0, rest => rest
  | value + 1, rest => wait mSizeSem :: pop .back :: clearLoop value rest

def Method.code : Method α → Code α
  | .put item => SafeContainerBySem.put item
  | .get => SafeContainerBySem.get
  | .pushBack item => SafeContainerBySem.pushBack item
  | .pushFront item => SafeContainerBySem.pushFront item
  | .popBack => SafeContainerBySem.popBack
  | .popFront => SafeContainerBySem.popFront
  | .clear => SafeContainerBySem.clear

end Methods

structure State (ι α : Type*) where
  mContainer : List α
  mSizeSem : ℕ
  mMutexSem : ℕ
  code : ι → Code α

/-- A thread begins a call, or makes the next step of its call. -/
inductive Act (ι α : Type*)
  | call (i : ι) (m : Method α)
  | run (i : ι)

inductive Event (ι α : Type*)
  | pushed (i : ι) (item : α)
  | popped (i : ι) (item : α)
  deriving DecidableEq

variable {ι α : Type*} [DecidableEq ι]

def init : State ι α := ⟨[], 0, 1, fun _ => []⟩

def State.goto (s : State ι α) (i : ι) (c : Code α) : State ι α :=
  { s with code := Function.update s.code i c }

def exec (s : State ι α) (i : ι) (rest : Code α) :
    Instr α → Outcome (State ι α × List (Event ι α))
  | .wait .mSizeSem =>
    if s.mSizeSem = 0 then .blocked
    else .ok ({ s with mSizeSem := s.mSizeSem - 1 }.goto i rest, [])
  | .wait .mMutexSem =>
    if s.mMutexSem = 0 then .blocked
    else .ok ({ s with mMutexSem := s.mMutexSem - 1 }.goto i rest, [])
  | .post .mSizeSem => .ok ({ s with mSizeSem := s.mSizeSem + 1 }.goto i rest, [])
  | .post .mMutexSem => .ok ({ s with mMutexSem := s.mMutexSem + 1 }.goto i rest, [])
  | .push e item =>
    .ok ({ s with mContainer := Deque.push e item s.mContainer }.goto i rest, [.pushed i item])
  | .pop e =>
    match Deque.pop e s.mContainer with
    | none => .undefined
    | some (item, d) => .ok ({ s with mContainer := d }.goto i rest, [.popped i item])
  | .getValue => .ok (s.goto i (clearLoop s.mSizeSem rest), [])

def step (s : State ι α) : Act ι α → Outcome (State ι α × List (Event ι α))
  | .call i m => if s.code i = [] then .ok (s.goto i m.code, []) else .blocked
  | .run i =>
    match s.code i with
    | [] => .blocked
    | instr :: rest => exec s i rest instr

def pushed (h : List (Event ι α)) : List α :=
  h.filterMap fun | .pushed _ item => some item | .popped _ _ => none

def popped (h : List (Event ι α)) : List α :=
  h.filterMap fun | .pushed _ _ => none | .popped _ item => some item

section Events

variable {ι α : Type*} (h h' : List (Event ι α)) (i : ι) (item : α)

@[simp] theorem pushed_append : pushed (h ++ h') = pushed h ++ pushed h' := List.filterMap_append

@[simp] theorem popped_append : popped (h ++ h') = popped h ++ popped h' := List.filterMap_append

@[simp] theorem pushed_nil : pushed ([] : List (Event ι α)) = [] := rfl

@[simp] theorem popped_nil : popped ([] : List (Event ι α)) = [] := rfl

@[simp] theorem pushed_pushed : pushed [Event.pushed i item] = [item] := rfl

@[simp] theorem popped_pushed : popped [Event.pushed i item] = [] := rfl

@[simp] theorem pushed_popped : pushed [Event.popped i item] = [] := rfl

@[simp] theorem popped_popped : popped [Event.popped i item] = [item] := rfl

end Events

end SafeContainerBySem

end YlUtils
