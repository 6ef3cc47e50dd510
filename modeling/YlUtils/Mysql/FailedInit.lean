import Mathlib.Data.List.TakeWhile
import YlUtils.Mysql.MysqlConnPool

/-! # A pool that fails to connect

The array and the size are set before the first connect, and each connection is
queued as soon as it is connected. If one fails the exception is passed on, and
nothing is undone.
-/

namespace YlUtils.MysqlConnPool

structure Connection where
  array : ℕ
  place : ℕ
  deriving DecidableEq

/-- The pool, and how many arrays were ever allocated: a new one has the next number. -/
structure Pool where
  mysqlQueue : List Connection
  mSize : UInt32
  pMysqlArray : Option ℕ
  arrays : ℕ
  fresh : ∀ a ∈ pMysqlArray, a < arrays

def Pool.new : Pool := ⟨[], 0, none, 0, by simp⟩

def connectLoop (connect : ℕ → Except String Unit) (array : ℕ) :
    List ℕ → List Connection → Except String Unit × List Connection
  | [], q => (.ok (), q)
  | i :: is, q =>
    match connect i with
    | .error e => (.error e, q)
    | .ok () => connectLoop connect array is (q ++ [⟨array, i⟩])

/-- `initConnPool`: what it throws or returns, and the pool it leaves. -/
def Pool.initConnPool (p : Pool) (size : UInt32) (connect : ℕ → Except String Unit) :
    Except String Unit × Pool :=
  let (r, q) := connectLoop connect p.arrays (List.range size.toNat) p.mysqlQueue
  (r, ⟨q, size, some p.arrays, p.arrays + 1, by simp⟩)

def Restores (p : Pool) (size : UInt32) (connect : ℕ → Except String Unit) : Prop :=
  ∀ e p', p.initConnPool size connect = (.error e, p') →
    p'.mysqlQueue = p.mysqlQueue ∧ p'.mSize = p.mSize ∧ p'.pMysqlArray = p.pMysqlArray

/-- If the call throws, a later one that succeeds gives a queue of the connections of its array. -/
def Retries (p : Pool) (size : UInt32) (connect : ℕ → Except String Unit) : Prop :=
  ∀ e p', p.initConnPool size connect = (.error e, p') →
    ∀ (n : UInt32) (connect' : ℕ → Except String Unit) p'',
      p'.initConnPool n connect' = (.ok (), p'') →
        ∃ a, p''.pMysqlArray = some a ∧ p''.mysqlQueue = (List.range n.toNat).map (Connection.mk a)

section Loop

variable {connect : ℕ → Except String Unit} {a : ℕ}

theorem connectLoop_queue (is : List ℕ) (q : List Connection) :
    (connectLoop connect a is q).2 =
      q ++ (is.takeWhile fun i => (connect i).isOk).map (Connection.mk a) := by
  induction is generalizing q with
  | nil => exact (List.append_nil q).symm
  | cons i is ih =>
    unfold connectLoop
    cases hi : connect i with
    | error e => simp [hi, Except.isOk, Except.toBool]
    | ok u => simp [hi, Except.isOk, Except.toBool, ih]

theorem connectLoop_ok_iff (is : List ℕ) (q : List Connection) :
    (connectLoop connect a is q).1 = .ok () ↔ ∀ i ∈ is, (connect i).isOk = true := by
  induction is generalizing q with
  | nil => simp [connectLoop]
  | cons i is ih =>
    unfold connectLoop
    cases hi : connect i with
    | error e => simp [hi, Except.isOk, Except.toBool]
    | ok u => simp [hi, Except.isOk, Except.toBool, ih]

theorem takeWhile_range_eq_nil_iff {f : ℕ → Bool} {n : ℕ} :
    (List.range n).takeWhile f = [] ↔ n = 0 ∨ f 0 = false := by
  cases n with
  | zero => simp
  | succ n =>
    rw [List.range_succ_eq_map, List.takeWhile_cons]
    cases f 0 <;> simp

end Loop

section Init

variable {p : Pool} {size : UInt32} {connect : ℕ → Except String Unit}

theorem initConnPool_ok_iff : (p.initConnPool size connect).1 = .ok () ↔
    ∀ i < size.toNat, (connect i).isOk = true := by
  have h : (p.initConnPool size connect).1 = .ok () ↔
      ∀ i ∈ List.range size.toNat, (connect i).isOk = true := connectLoop_ok_iff _ _
  simpa only [List.mem_range] using h

theorem initConnPool_queue (p : Pool) (size : UInt32) (connect : ℕ → Except String Unit) :
    (p.initConnPool size connect).2.mysqlQueue = p.mysqlQueue ++
    ((List.range size.toNat).takeWhile fun i => (connect i).isOk).map (Connection.mk p.arrays) :=
  connectLoop_queue _ _

theorem initConnPool_queue_of_ok (h : (p.initConnPool size connect).1 = .ok ()) :
    (p.initConnPool size connect).2.mysqlQueue =
      p.mysqlQueue ++ (List.range size.toNat).map (Connection.mk p.arrays) := by
  have hall := initConnPool_ok_iff.mp h
  rw [initConnPool_queue, List.takeWhile_eq_self_iff.mpr fun i hi => hall i (List.mem_range.mp hi)]

theorem initConnPool_new (h : (Pool.new.initConnPool size connect).1 = .ok ()) :
    initConnPool (fun i => (connect i).isOk) size.toNat =
      some ((Pool.new.initConnPool size connect).2.mysqlQueue.map Connection.place) := by
  have hall := initConnPool_ok_iff.mp h
  have hplaces : ((List.range size.toNat).map (Connection.mk 0)).map Connection.place =
      List.range size.toNat := by
    rw [List.map_map]
    exact List.map_id _
  rw [initConnPool_queue_of_ok h]
  refine Eq.trans ?_ (congrArg some hplaces.symm)
  generalize size.toNat = n at hall
  unfold initConnPool
  induction n with
  | zero => rfl
  | succ n ih =>
    rw [List.range_succ, List.foldlM_append, ih fun i hi => hall i (Nat.lt_succ_of_lt hi)]
    simp [hall n (Nat.lt_succ_self n)]

theorem restores_iff : Restores p size connect ↔ ∀ i < size.toNat, (connect i).isOk = true := by
  rw [← initConnPool_ok_iff (p := p)]
  constructor
  · intro h
    rcases hr : p.initConnPool size connect with ⟨e | u, p'⟩
    · obtain ⟨-, -, harray⟩ := h e p' hr
      have hp' : p'.pMysqlArray = some p.arrays :=
        congrArg (fun r : Except String Unit × Pool => r.2.pMysqlArray) hr.symm
      rw [hp'] at harray
      exact absurd (p.fresh p.arrays harray.symm) (Nat.lt_irrefl _)
    · rfl
  · intro hok e p' hr
    rw [hr] at hok
    cases hok

theorem retries_iff : Retries p size connect ↔ (∀ i < size.toNat, (connect i).isOk = true) ∨
    (p.mysqlQueue = [] ∧ (connect 0).isOk = false) := by
  have hqueue := initConnPool_queue p size connect
  rw [← initConnPool_ok_iff (p := p)]
  constructor
  · intro h
    rcases hr : p.initConnPool size connect with ⟨e | u, p'⟩
    · right
      -- a retry with no connections shows what is left
      obtain ⟨a, -, hleft⟩ := h e p' hr 0 (fun _ => .ok ()) _ rfl
      have hnil : p'.mysqlQueue = [] := hleft
      rw [hr, hnil] at hqueue
      obtain ⟨hq, hmap⟩ := List.append_eq_nil_iff.mp hqueue.symm
      rcases takeWhile_range_eq_nil_iff.mp (List.map_eq_nil_iff.mp hmap) with hzero | hfirst
      · have hok : (p.initConnPool size connect).1 = .ok () :=
          initConnPool_ok_iff.mpr fun i hi => absurd (hzero ▸ hi) (Nat.not_lt_zero i)
        rw [hr] at hok
        cases hok
      · exact ⟨hq, hfirst⟩
    · exact .inl rfl
  · rintro (hok | ⟨hq, hfirst⟩) e p' hr
    · rw [hr] at hok
      cases hok
    · intro n connect' p'' hr'
      rw [hr, hq, takeWhile_range_eq_nil_iff.mpr (.inr hfirst)] at hqueue
      have hnil : p'.mysqlQueue = [] := hqueue
      have hqueue' := initConnPool_queue_of_ok (congrArg Prod.fst hr')
      rw [hr', hnil] at hqueue'
      refine ⟨p'.arrays, ?_, hqueue'⟩
      exact congrArg (fun r : Except String Unit × Pool => r.2.pMysqlArray) hr'.symm

/-- No call that throws leaves the pool as it was. A retry gives a queue of the new connections
alone, if the queue was empty and already the first connect failed. -/
theorem initConnPool_restores_iff (p : Pool) (size : UInt32) (connect : ℕ → Except String Unit) :
    (Restores p size connect ∧ Retries p size connect ↔
      ∀ i < size.toNat, (connect i).isOk = true) ∧
    (Retries p size connect ↔ (∀ i < size.toNat, (connect i).isOk = true) ∨
      (p.mysqlQueue = [] ∧ (connect 0).isOk = false)) := by
  refine ⟨⟨fun h => restores_iff.mp h.1, fun hall => ?_⟩, retries_iff⟩
  exact ⟨restores_iff.mpr hall, retries_iff.mpr (.inl hall)⟩

def secondRefused (i : ℕ) : Except String Unit := if i = 1 then .error "refused" else .ok ()

/-- The first connection is left in the queue of a new pool, though the retry replaces its array. -/
theorem initConnPool_leaves_stale :
    ¬ (Restores Pool.new 2 secondRefused ∧ Retries Pool.new 2 secondRefused) ∧
    ¬ Retries Pool.new 2 secondRefused ∧
    ∃ e p' p'', Pool.new.initConnPool 2 secondRefused = (.error e, p') ∧
      p'.initConnPool 1 (fun _ => .ok ()) = (.ok (), p'') ∧
      p''.pMysqlArray = some 1 ∧ p''.mysqlQueue = [⟨0, 0⟩, ⟨1, 0⟩] := by
  have hrefused : ¬ ∀ i < (2 : UInt32).toNat, (secondRefused i).isOk = true :=
    fun hall => absurd (hall 1 (by decide)) (by decide)
  refine ⟨fun h => hrefused (restores_iff.mp h.1), fun h => ?_, _, _, _, rfl, rfl, rfl, rfl⟩
  rcases retries_iff.mp h with hall | ⟨-, hfirst⟩
  · exact hrefused hall
  · exact absurd hfirst (by decide)

end Init

end YlUtils.MysqlConnPool
