import YlUtils.Concurrency.Cond
import YlUtils.Concurrency.Schedule

/-! # The pool of connections

A client takes a connection from the queue, or sleeps until there is one, and puts
it back later. The signal that follows a connection put back is given without the
lock. A connection is the number of its place in the array.
-/

namespace YlUtils.MysqlConnPool

open Threads Cond

inductive Place
  | idle
  | asleep
  | signalled
  | awoken
  | unlocked
  deriving DecidableEq

structure Client where
  place : Place
  held : List ℕ

def Client.isAsleep (c : Client) : Bool := c.place = .asleep

def Client.isSignalled (c : Client) : Bool := c.place = .signalled

def Client.owesSignal (c : Client) : Bool := c.place = .unlocked

def Client.wake (c : Client) : Client := { c with place := .signalled }

structure State (ι : Type*) where
  mysqlQueue : List ℕ
  client : ι → Client

/-- `initConnPool`: the connections are connected and queued one after the other; `none` if one
fails, as an exception is thrown. -/
def initConnPool (connect : ℕ → Bool) (size : ℕ) : Option (List ℕ) :=
  (List.range size).foldlM (fun q i => if connect i then some (q ++ [i]) else none) []

def start {ι : Type*} (mysqlQueue : List ℕ) : State ι := ⟨mysqlQueue, fun _ => ⟨.idle, []⟩⟩

/-- The steps: the calls up to their first wait or to the signal, and what follows. A signal names
the client that it wakes. -/
inductive Act (ι : Type*)
  | get (i : ι)
  | put (i : ι) (conn : ℕ)
  | signal (i : ι) (wakes : Option ι)
  | wake (i : ι)
  | resume (i : ι)

variable {ι : Type*} [Fintype ι] [DecidableEq ι]

def State.goto (s : State ι) (i : ι) (place : Place) (held : List ℕ) : State ι :=
  { s with client := Function.update s.client i ⟨place, held⟩ }

def takeFront (s : State ι) (i : ι) : Outcome (State ι × List Empty) :=
  if s.mysqlQueue.isEmpty then .ok (s.goto i .asleep (s.client i).held, [])
  else match s.mysqlQueue with
    | [] => .undefined
    | conn :: q =>
      .ok ({ s with mysqlQueue := q }.goto i .idle (conn :: (s.client i).held), [])

/-- A client puts back only connections it has. -/
def step (s : State ι) : Act ι → Outcome (State ι × List Empty)
  | .get i => if (s.client i).place = .idle then takeFront s i else .blocked
  | .put i conn =>
    if (s.client i).place = .idle ∧ conn ∈ (s.client i).held then
      .ok ({ s with mysqlQueue := s.mysqlQueue ++ [conn] }.goto i .unlocked
        ((s.client i).held.erase conn), [])
    else .blocked
  | .signal i wakes =>
    if (s.client i).place = .unlocked then
      match Cond.signal Client.isAsleep Client.wake (s.goto i .idle (s.client i).held).client
          wakes with
      | none => .blocked
      | some client => .ok ({ s with client := client }, [])
    else .blocked
  | .wake i =>
    if (s.client i).place = .asleep then .ok (s.goto i .awoken (s.client i).held, [])
    else .blocked
  | .resume i =>
    match (s.client i).place with
    | .signalled => takeFront s i
    | .awoken => takeFront s i
    | _ => .blocked

/-- Each of the `n` connections is queued or held by one client, and no wakeup is lost. -/
structure Inv (n : ℕ) (s : State ι) : Prop where
  conserved : ∀ conn, s.mysqlQueue.count conn + total (fun c => c.held.count conn) s.client =
    if conn < n then 1 else 0
  covered : Covered Client.isAsleep Client.isSignalled s.client s.mysqlQueue.length
    (count Client.owesSignal s.client)

section Steps

variable {n : ℕ} {s : State ι} {i : ι} {q : List ℕ} {place : Place} {held : List ℕ}

theorem initConnPool_eq {connect : ℕ → Bool} (h : initConnPool connect n = some q) :
    q = List.range n := by
  unfold initConnPool at h
  induction n generalizing q with
  | zero => exact (Option.some.inj h).symm
  | succ n ih =>
    rw [List.range_succ, List.foldlM_append] at h
    obtain ⟨q', hq', hlast⟩ := Option.bind_eq_some_iff.mp h
    rw [ih hq', List.foldlM_cons] at hlast
    by_cases hn : connect n = true
    · simp only [hn, if_true, List.foldlM_nil, Option.bind_eq_bind, Option.bind_some,
        Option.pure_def] at hlast
      rw [List.range_succ]
      exact (Option.some.inj hlast).symm
    · simp [hn] at hlast

omit [DecidableEq ι] in
theorem inv_start : Inv n (start (List.range n) : State ι) := by
  constructor
  · intro conn
    have hheld : total (fun c => c.held.count conn) (start (List.range n) : State ι).client = 0 :=
      total_const_zero fun _ => rfl
    rw [hheld]
    by_cases hconn : conn < n
    · rw [if_pos hconn]
      exact List.count_eq_one_of_mem List.nodup_range (List.mem_range.mpr hconn)
    · rw [if_neg hconn]
      exact List.count_eq_zero_of_not_mem (List.mem_range.not.mpr hconn)
  · exact covered_of_awake fun _ => rfl

theorem Inv.goto (h : Inv n s)
    (hheld : ∀ conn, q.count conn + held.count conn =
      s.mysqlQueue.count conn + (s.client i).held.count conn)
    (hplace : place = .asleep → q = [])
    (hn : place ≠ .asleep → q.length + (s.client i).isSignalled.toNat +
      (s.client i).owesSignal.toNat ≤ s.mysqlQueue.length +
        (Client.isSignalled ⟨place, held⟩).toNat + (Client.owesSignal ⟨place, held⟩).toNat) :
    Inv n ({ s with mysqlQueue := q }.goto i place held) := by
  constructor
  · intro conn
    have htotal := total_update (fun c : Client => c.held.count conn) s.client i ⟨place, held⟩
    have hconserved := h.conserved conn
    have hsum := hheld conn
    dsimp only [State.goto] at *
    omega
  · by_cases hasleep : place = .asleep
    · rw [hplace hasleep]
      exact covered_zero
    · have howes := count_update Client.owesSignal s.client i ⟨place, held⟩
      have hle := hn hasleep
      apply h.covered.update
      · intro hy
        exact absurd (of_decide_eq_true hy) hasleep
      · dsimp only [State.goto] at *
        omega

theorem takeFront_inv (h : Inv n s) (hi : (s.client i).owesSignal = false) :
    (takeFront s i).Holds fun (s', _) => Inv n s' := by
  unfold takeFront
  rcases hq : s.mysqlQueue with _ | ⟨conn, q⟩
  · have hgoto : Inv n ({ s with mysqlQueue := s.mysqlQueue }.goto i .asleep (s.client i).held) :=
      h.goto (fun _ => rfl) (fun _ => hq) (fun hne => absurd rfl hne)
    exact hgoto
  · apply h.goto
    · intro conn'
      rw [hq, List.count_cons, List.count_cons]
      omega
    · exact fun hp => absurd hp (by simp)
    · intro _
      have hle := Bool.toNat_le (s.client i).isSignalled
      rw [hi, hq, List.length_cons, Bool.toNat_false]
      omega

theorem Client.isAsleep_iff (c : Client) : c.isAsleep = true ↔ c.place = .asleep :=
  decide_eq_true_iff

theorem signal_inv (h : Inv n s) (hi : (s.client i).place = .unlocked) (wakes : Option ι) :
    (match Cond.signal Client.isAsleep Client.wake (s.goto i .idle (s.client i).held).client
        wakes with
      | none => .blocked
      | some client => .ok ({ s with client := client }, []) : Outcome (State ι × List Empty)).Holds
        fun (s', _) => Inv n s' := by
  cases hsignal : Cond.signal Client.isAsleep Client.wake
      (s.goto i .idle (s.client i).held).client wakes with
  | none => trivial
  | some client =>
    have howes := count_update Client.owesSignal s.client i ⟨.idle, (s.client i).held⟩
    have hi' : (s.client i).owesSignal = true := by rw [Client.owesSignal, hi]; rfl
    have hidle : Client.owesSignal ⟨.idle, (s.client i).held⟩ = false := rfl
    rw [hi', hidle, Bool.toNat_true, Bool.toNat_false] at howes
    constructor
    · intro conn
      have htotal := total_update (fun c : Client => c.held.count conn) s.client i
        ⟨.idle, (s.client i).held⟩
      have hwoken := total_signal (u := fun c : Client => c.held.count conn) hsignal fun _ _ => rfl
      have hconserved := h.conserved conn
      dsimp only [State.goto] at *
      omega
    · have hidle : Covered Client.isAsleep Client.isSignalled
          (s.goto i .idle (s.client i).held).client s.mysqlQueue.length
          (count Client.owesSignal (s.goto i .idle (s.client i).held).client + 1) := by
        apply h.covered.update
        · exact fun hy => absurd hy Bool.false_ne_true
        · have hnot : (s.client i).isSignalled = false := by rw [Client.isSignalled, hi]; rfl
          rw [hnot, Bool.toNat_false]
          dsimp only [State.goto]
          omega
      have hcount := count_signal (u := Client.owesSignal) hsignal fun c hc => by
        rw [Client.isAsleep_iff] at hc
        rw [Client.owesSignal, Client.owesSignal, hc]
        rfl
      rw [hcount]
      apply hidle.signal hsignal
      · exact fun c _ => ⟨rfl, rfl⟩
      · intro c hc
        rw [Client.isAsleep_iff] at hc
        rw [Client.isSignalled, hc]
        rfl

theorem step_inv (h : Inv n s) (a : Act ι) : (step s a).Holds fun (s', _) => Inv n s' := by
  cases a with
  | get i =>
    by_cases hi : (s.client i).place = .idle
    · rw [step, if_pos hi]
      exact takeFront_inv h (by rw [Client.owesSignal, hi]; rfl)
    · rw [step, if_neg hi]
      trivial
  | put i conn =>
    by_cases hi : (s.client i).place = .idle ∧ conn ∈ (s.client i).held
    · rw [step, if_pos hi]
      obtain ⟨hidle, hmem⟩ := hi
      apply h.goto
      · intro conn'
        rw [List.count_append, List.count_singleton, List.count_erase]
        by_cases hconn : conn = conn'
        · have hpos := List.count_pos_iff.mpr hmem
          rw [← hconn, if_pos (beq_self_eq_true conn)]
          omega
        · rw [if_neg (by simpa using hconn)]
          rfl
      · exact fun hp => absurd hp (by simp)
      · intro _
        rw [List.length_append, Client.isSignalled, Client.owesSignal, hidle]
        exact le_rfl
    · rw [step, if_neg hi]
      trivial
  | signal i wakes =>
    by_cases hi : (s.client i).place = .unlocked
    · rw [step, if_pos hi]
      exact signal_inv h hi wakes
    · rw [step, if_neg hi]
      trivial
  | wake i =>
    by_cases hi : (s.client i).place = .asleep
    · rw [step, if_pos hi]
      apply h.goto
      · exact fun _ => rfl
      · exact fun hp => absurd hp (by simp)
      · intro _
        rw [Client.isSignalled, Client.owesSignal, hi]
        exact le_rfl
    · rw [step, if_neg hi]
      trivial
  | resume i =>
    cases hi : (s.client i).place with
    | signalled =>
      simp only [step, hi]
      exact takeFront_inv h (by rw [Client.owesSignal, hi]; rfl)
    | awoken =>
      simp only [step, hi]
      exact takeFront_inv h (by rw [Client.owesSignal, hi]; rfl)
    | _ =>
      simp only [step, hi]
      trivial

/-- After a successful `initConnPool(n)`, in every run no connection is taken from an empty queue;
each of the `n` connections is queued once and held by no client, or not queued and held by exactly
one client, once; and while a getter is asleep, there are at most as many connections in the queue
as signals still to be issued and getters that were signalled and have not yet resumed. -/
theorem run_conserves {connect : ℕ → Bool} {n : ℕ} {q : List ℕ}
    (hq : initConnPool connect n = some q)
    (acts : List (Act ι)) : (Schedule.run step (start q) acts).Holds fun (s, _) =>
      (∀ conn < n, (s.mysqlQueue.count conn = 1 ∧ ∀ i, conn ∉ (s.client i).held) ∨
        (conn ∉ s.mysqlQueue ∧ (∃! i, conn ∈ (s.client i).held) ∧
          ∀ i, (s.client i).held.count conn ≤ 1)) ∧
      ((∃ i, (s.client i).isAsleep = true) → s.mysqlQueue.length ≤
        count Client.owesSignal s.client + count Client.isSignalled s.client) := by
  obtain rfl := initConnPool_eq hq
  have hrun : (Schedule.run step (start (List.range n)) acts).Holds fun (s, _) => Inv n s :=
    Schedule.run_holds (P := fun s _ => Inv n s) (fun s _ a hs => step_inv hs a) inv_start acts
  refine hrun.mono fun r hr => ⟨fun conn hconn => ?_, hr.covered⟩
  have hone := hr.conserved conn
  rw [if_pos hconn] at hone
  have hheld : ∀ i, (r.1.client i).held.count conn ≤
      total (fun c : Client => c.held.count conn) r.1.client := le_total _ _
  rcases Nat.eq_zero_or_pos (r.1.mysqlQueue.count conn) with hzero | hpos
  · right
    have htotal : total (fun c : Client => c.held.count conn) r.1.client = 1 := by omega
    refine ⟨List.count_eq_zero.mp hzero, ?_, fun i => htotal ▸ hheld i⟩
    simpa only [List.count_pos_iff] using existsUnique_of_total_eq_one htotal
  · left
    refine ⟨by omega, fun i hi => ?_⟩
    have hi := List.count_pos_iff.mpr hi
    have hle := hheld i
    omega

end Steps

/-- Two clients share one connection. -/
theorem run_conserves_two :
    (Schedule.run step (start [0] : State (Fin 2)) [.get 0, .get 1, .put 0 0]).Holds fun (s, _) =>
      (∀ conn < 1, (s.mysqlQueue.count conn = 1 ∧ ∀ i, conn ∉ (s.client i).held) ∨
        (conn ∉ s.mysqlQueue ∧ (∃! i, conn ∈ (s.client i).held) ∧
          ∀ i, (s.client i).held.count conn ≤ 1)) ∧
      ((∃ i, (s.client i).isAsleep = true) → s.mysqlQueue.length ≤
        count Client.owesSignal s.client + count Client.isSignalled s.client) :=
  run_conserves (show initConnPool (fun _ => true) 1 = some [0] from rfl) _

end YlUtils.MysqlConnPool
