import YlUtils.Concurrency.Cond
import YlUtils.Container.SafeContainerBySem

/-! # The container with a condition

Each method is a sequence of steps under one lock. A call that takes an item
waits on the condition while the container is empty, which gives the lock back,
and takes the lock again before it looks once more.
-/

namespace YlUtils.SafeContainerByCond

open SafeContainerBySem (Method)

/-- What a class of containers does; `pop` may leave the item of its caller as it is, and is not
defined where it reads an item that does not exist. -/
structure Container (α : Type*) where
  push : End → α → List α → List α
  pop : End → List α → Option (Option α × List α)
  getEnd : End

def deque (α : Type*) : Container α where
  push := YlUtils.Deque.push
  pop e d := (YlUtils.Deque.pop e d).map fun r => (some r.1, r.2)
  getEnd := YlUtils.Deque.getEnd

/-- `Vector`, whose methods for the front do nothing. -/
def vector (α : Type*) : Container α where
  push
    | .back, item, d => YlUtils.Deque.push .back item d
    | .front, _, d => d
  pop
    | .back, d => (YlUtils.Deque.pop .back d).map fun r => (some r.1, r.2)
    | .front, d => some (none, d)
  getEnd := .back

inductive Instr (α : Type*)
  | lock
  | signal
  | push (e : End) (item : α)
  | waitWhileEmpty
  | pop (e : End)
  | clear
  | unlock

abbrev Code (α : Type*) := List (Instr α)

section Methods

variable {α : Type*}

open Instr

def pushes (e : End) (item : α) : Code α := [lock, signal, push e item, unlock]

def pops (e : End) : Code α := [lock, waitWhileEmpty, pop e, unlock]

def code (C : Container α) : Method α → Code α
  | .put item => pushes .back item
  | .get => pops C.getEnd
  | .pushBack item => pushes .back item
  | .popBack => pops .back
  | .pushFront item => pushes .front item
  | .popFront => pops .front
  | .clear => [lock, clear, unlock]

end Methods

/-- How a thread stands to the condition. -/
inductive Mode
  | running
  | asleep
  | signalled
  | awoken
  deriving DecidableEq

structure Thread (α : Type*) where
  mode : Mode
  code : Code α

namespace Thread

variable {α : Type*}

def isAsleep (t : Thread α) : Bool := t.mode = .asleep

/-- The place of a thread that is woken by a signal. -/
def wake (t : Thread α) : Thread α := if t.mode = .asleep then { t with mode := .signalled } else t

end Thread

structure State (ι α : Type*) where
  mContainer : List α
  owner : Option ι
  thread : ι → Thread α

/-- A thread begins a call, makes its next step, or wakes without a signal. A step that signals
names the thread that it wakes. -/
inductive Act (ι α : Type*)
  | call (i : ι) (m : Method α)
  | run (i : ι) (wakes : Option ι)
  | wake (i : ι)

inductive Event (ι α : Type*)
  | pushed (i : ι) (e : End) (item : α)
  | popped (i : ι) (e : End) (item : Option α)
  | cleared (i : ι)

section Step

variable {ι α : Type*} [Fintype ι] [DecidableEq ι] (C : Container α)

def init : State ι α := ⟨[], none, fun _ => ⟨.running, []⟩⟩

def State.goto (s : State ι α) (i : ι) (t : Thread α) : State ι α :=
  { s with thread := Function.update s.thread i t }

/-- One step of a call. -/
def exec (s : State ι α) (i : ι) (wakes : Option ι) (rest : Code α) :
    Instr α → Outcome (State ι α × List (Event ι α))
  | .lock => if s.owner = none then .ok ({ s with owner := some i }.goto i ⟨.running, rest⟩, [])
    else .blocked
  | .signal =>
    match Cond.signal Thread.isAsleep Thread.wake s.thread wakes with
    | none => .blocked
    | some thread => .ok ({ s with thread := thread }.goto i ⟨.running, rest⟩, [])
  | .push e item =>
    .ok ({ s with mContainer := C.push e item s.mContainer }.goto i ⟨.running, rest⟩,
      [.pushed i e item])
  | .waitWhileEmpty =>
    if s.mContainer.isEmpty then
      .ok ({ s with owner := none }.goto i ⟨.asleep, .waitWhileEmpty :: rest⟩, [])
    else .ok (s.goto i ⟨.running, rest⟩, [])
  | .pop e =>
    match C.pop e s.mContainer with
    | none => .undefined
    | some (item, d) => .ok ({ s with mContainer := d }.goto i ⟨.running, rest⟩, [.popped i e item])
  | .clear => .ok ({ s with mContainer := [] }.goto i ⟨.running, rest⟩, [.cleared i])
  | .unlock => .ok ({ s with owner := none }.goto i ⟨.running, rest⟩, [])

/-- A thread that was woken takes the lock and goes on with its loop. -/
def retake (s : State ι α) (i : ι) : Outcome (State ι α × List (Event ι α)) :=
  if s.owner = none then
    .ok ({ s with owner := some i }.goto i ⟨.running, (s.thread i).code⟩, [])
  else .blocked

def step (s : State ι α) : Act ι α → Outcome (State ι α × List (Event ι α))
  | .call i m =>
    match s.thread i with
    | ⟨.running, []⟩ => .ok (s.goto i ⟨.running, code C m⟩, [])
    | _ => .blocked
  | .run i wakes =>
    match s.thread i with
    | ⟨.running, []⟩ => .blocked
    | ⟨.running, instr :: rest⟩ => exec C s i wakes rest instr
    | ⟨.asleep, _⟩ => .blocked
    | ⟨.signalled, _⟩ => retake s i
    | ⟨.awoken, _⟩ => retake s i
  | .wake i =>
    match s.thread i with
    | ⟨.asleep, code⟩ => .ok (s.goto i ⟨.awoken, code⟩, [])
    | _ => .blocked

end Step

/-- The events are what the container does one after the other, from `d` to `d'`. -/
def Replays {ι α : Type*} (C : Container α) : List (Event ι α) → List α → List α → Prop
  | [], d, d' => d = d'
  | .pushed _ e item :: h, d, d' => Replays C h (C.push e item d) d'
  | .popped _ e item :: h, d, d' => ∃ d₁, C.pop e d = some (item, d₁) ∧ Replays C h d₁ d'
  | .cleared _ :: h, _, d' => Replays C h [] d'

end YlUtils.SafeContainerByCond
