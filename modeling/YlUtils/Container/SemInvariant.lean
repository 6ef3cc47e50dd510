import YlUtils.Concurrency.Threads
import YlUtils.Container.SafeContainerBySem

/-! # What the semaphores guarantee

The code of a call waits for the mutex around every access to the container, takes
a permit before it pops and gives one after it pushes. From this discipline of
each thread follows what holds of all of them.
-/

namespace YlUtils.SafeContainerBySem

open Threads Sem Instr

section Code

variable {α : Type*} {rest : Code α}

def locked : Code α → Bool
  | wait mMutexSem :: _ => false
  | post mMutexSem :: _ => true
  | _ :: rest => locked rest
  | [] => false

def admitted : Code α → Bool
  | wait mSizeSem :: _ => false
  | pop _ :: _ => true
  | _ :: rest => admitted rest
  | [] => false

def unposted : Code α → Bool
  | push _ _ :: _ => false
  | post mSizeSem :: _ => true
  | _ :: rest => unposted rest
  | [] => false

/-- The discipline of the code. -/
def disciplined : Code α → Bool
  | [] => true
  | wait mSizeSem :: rest => admitted rest && disciplined rest
  | wait mMutexSem :: rest => locked rest && disciplined rest
  | post mSizeSem :: rest => locked rest && !unposted rest && disciplined rest
  | post mMutexSem :: rest => !locked rest && disciplined rest
  | push _ _ :: rest => locked rest && unposted rest && disciplined rest
  | pop _ :: rest => locked rest && !admitted rest && disciplined rest
  | getValue :: rest => locked rest && !admitted rest && disciplined rest

/-- Each method keeps the discipline, and begins with nothing owed. -/
theorem Method.code_disciplined (m : Method α) : disciplined m.code = true ∧
    locked m.code = false ∧ admitted m.code = false ∧ unposted m.code = false := by
  cases m <;> exact ⟨rfl, rfl, rfl, rfl⟩

theorem clearLoop_disciplined (hrest : disciplined rest = true) (hlocked : locked rest = true)
    (hadmitted : admitted rest = false) (value : ℕ) :
    disciplined (clearLoop value rest) = true ∧ locked (clearLoop value rest) = true ∧
      admitted (clearLoop value rest) = false ∧
      unposted (clearLoop value rest) = unposted rest := by
  induction value with
  | zero => exact ⟨hrest, hlocked, hadmitted, rfl⟩
  | succ value ih =>
    obtain ⟨ih, hl, ha, hu⟩ := ih
    simp [clearLoop, disciplined, locked, unposted, admitted, ih, hl, hu, ha]

end Code

/-- The invariant: each thread keeps the discipline, the stored items are those with a permit,
those claimed by a thread and those not yet posted, and the mutex has at most one holder. -/
structure Inv {ι α : Type*} [Fintype ι] (s : State ι α) : Prop where
  code : ∀ i, disciplined (s.code i) = true
  stored : s.mContainer.length = s.mSizeSem + count admitted s.code + count unposted s.code
  mutex : s.mMutexSem + count locked s.code = 1

section Inversion

variable {ι α : Type*} [DecidableEq ι] {s s' : State ι α} {i : ι} {rest : Code α}
  {instr : Instr α} {a : Act ι α} {e : List (Event ι α)}

inductive Executes (s : State ι α) (i : ι) (rest : Code α) :
    Instr α → State ι α → List (Event ι α) → Prop
  | waitSize (h : s.mSizeSem ≠ 0) : Executes s i rest (wait mSizeSem)
      ({ s with mSizeSem := s.mSizeSem - 1 }.goto i rest) []
  | waitMutex (h : s.mMutexSem ≠ 0) : Executes s i rest (wait mMutexSem)
      ({ s with mMutexSem := s.mMutexSem - 1 }.goto i rest) []
  | postSize : Executes s i rest (post mSizeSem)
      ({ s with mSizeSem := s.mSizeSem + 1 }.goto i rest) []
  | postMutex : Executes s i rest (post mMutexSem)
      ({ s with mMutexSem := s.mMutexSem + 1 }.goto i rest) []
  | push (e : End) (item : α) : Executes s i rest (push e item)
      ({ s with mContainer := Deque.push e item s.mContainer }.goto i rest) [.pushed i item]
  | pop (e : End) (item : α) (d : List α) (h : Deque.pop e s.mContainer = some (item, d)) :
      Executes s i rest (pop e) ({ s with mContainer := d }.goto i rest) [.popped i item]
  | getValue : Executes s i rest getValue (s.goto i (clearLoop s.mSizeSem rest)) []

theorem exec_executes (hs : exec s i rest instr = .ok (s', e)) :
    Executes s i rest instr s' e := by
  unfold exec at hs
  split at hs
  · split at hs
    · exact absurd hs (by simp)
    · next hn =>
      cases hs
      exact .waitSize hn
  · split at hs
    · exact absurd hs (by simp)
    · next hm =>
      cases hs
      exact .waitMutex hm
  · cases hs
    exact .postSize
  · cases hs
    exact .postMutex
  · cases hs
    exact .push _ _
  · split at hs
    · exact absurd hs (by simp)
    · next hd =>
      cases hs
      exact .pop _ _ _ hd
  · cases hs
    exact .getValue

inductive Steps (s : State ι α) : Act ι α → State ι α → List (Event ι α) → Prop
  | call (i : ι) (m : Method α) (hi : s.code i = []) : Steps s (.call i m) (s.goto i m.code) []
  | run {i : ι} {instr : Instr α} {rest : Code α} {s' : State ι α} {e : List (Event ι α)}
      (hi : s.code i = instr :: rest) (hs : Executes s i rest instr s' e) : Steps s (.run i) s' e

theorem step_steps (hs : step s a = .ok (s', e)) : Steps s a s' e := by
  cases a with
  | call i m =>
    rw [step] at hs
    split at hs
    · next hi =>
      cases hs
      exact .call i m hi
    · exact absurd hs (by simp)
  | run i =>
    cases hi : s.code i with
    | nil => simp [step, hi] at hs
    | cons instr rest =>
      rw [step, hi] at hs
      exact .run hi (exec_executes hs)

end Inversion

/-- The invariant with `k` permits and `m` holders of the mutex too many. -/
structure Accounts {ι α : Type*} [Fintype ι] (k m : ℕ) (s : State ι α) : Prop where
  code : ∀ i, disciplined (s.code i) = true
  stored : s.mContainer.length + k = s.mSizeSem + count admitted s.code + count unposted s.code
  mutex : s.mMutexSem + count locked s.code = 1 + m

section Steps

variable {ι α : Type*} [Fintype ι] [DecidableEq ι] {s : State ι α} {i : ι} {c rest : Code α}
  {d : List α} {n m k k' l l' : ℕ} {instr : Instr α}

omit [DecidableEq ι] in
theorem inv_iff_accounts : Inv s ↔ Accounts 0 0 s :=
  ⟨fun h => ⟨h.code, h.stored, h.mutex⟩, fun h => ⟨h.code, h.stored, h.mutex⟩⟩

omit [Fintype ι] in
@[simp] theorem goto_code (s : State ι α) (i : ι) (c : Code α) :
    (s.goto i c).code = Function.update s.code i c := rfl

omit [Fintype ι] in
theorem goto_code_self (s : State ι α) (i : ι) (c : Code α) : (s.goto i c).code i = c := by
  rw [goto_code, Function.update_self]

omit [Fintype ι] in
theorem goto_code_of_ne {j : ι} (hj : j ≠ i) (s : State ι α) (c : Code α) :
    (s.goto i c).code j = s.code j := by
  rw [goto_code, Function.update_of_ne hj]

omit [Fintype ι] in
theorem forall_goto {P : Code α → Prop} (h : ∀ j, P (s.code j)) (hrest : P rest) (j : ι) :
    P ((State.goto ⟨d, n, m, s.code⟩ i rest).code j) := by
  by_cases hj : j = i
  · rw [hj, goto_code_self]
    exact hrest
  · rw [goto_code_of_ne hj]
    exact h j

omit [DecidableEq ι] in
theorem inv_init : Inv (init : State ι α) := by
  refine ⟨fun _ => rfl, ?_, ?_⟩
  · rw [count_eq_zero fun _ => rfl, count_eq_zero fun _ => rfl]
    rfl
  · rw [count_eq_zero fun _ => rfl]
    rfl

theorem Accounts.goto (h : Accounts k l s) (hi : s.code i = c) (hrest : disciplined rest = true)
    (hstored : d.length + k' + s.mSizeSem + (admitted c).toNat + (unposted c).toNat =
      s.mContainer.length + k + n + (admitted rest).toNat + (unposted rest).toNat)
    (hmutex : m + l + (locked rest).toNat = s.mMutexSem + l' + (locked c).toNat) :
    Accounts k' l' (State.goto ⟨d, n, m, s.code⟩ i rest) := by
  have hu := count_update unposted s.code i rest
  have ha := count_update admitted s.code i rest
  have hl := count_update locked s.code i rest
  have hs := h.stored
  have hm := h.mutex
  rw [hi] at hu ha hl
  refine ⟨forall_goto (P := fun c => disciplined c = true) h.code hrest, ?_, ?_⟩
  · rw [goto_code]
    simp only [State.goto]
    omega
  · rw [goto_code]
    simp only [State.goto]
    omega

omit [DecidableEq ι] in
theorem Inv.length_pos (h : Inv s) {e : End} (hi : s.code i = pop e :: rest) :
    0 < s.mContainer.length := by
  have hadmitted := count_pos (p := admitted) (show admitted (s.code i) = true by rw [hi]; rfl)
  have hs := h.stored
  omega

/-- What a step does with the container: nothing, or one item enters or leaves it. -/
inductive Moves (d d' : List α) (i : ι) : List (Event ι α) → Prop
  | stays : d' = d → Moves d d' i []
  | enters (e : End) (item : α) : d' = Deque.push e item d → Moves d d' i [.pushed i item]
  | leaves (e : End) (item : α) : Deque.pop e d = some (item, d') → Moves d d' i [.popped i item]

/-- Every step of a call but a pop on an empty deque is defined, and all keep the accounts. -/
theorem exec_accounts (h : Accounts k l s) (hi : s.code i = instr :: rest)
    (hpop : ∀ e, instr = pop e → 0 < s.mContainer.length) :
    (exec s i rest instr).Holds fun (s', e) =>
      Accounts k l s' ∧ Moves s.mContainer s'.mContainer i e := by
  have hc := h.code i
  rw [hi] at hc
  cases instr with
  | wait sem =>
    cases sem with
    | mSizeSem =>
      simp only [disciplined, Bool.and_eq_true] at hc
      by_cases hn : s.mSizeSem = 0
      · rw [exec, if_pos hn]
        trivial
      · rw [exec, if_neg hn]
        refine ⟨h.goto hi hc.2 ?_ ?_, .stays rfl⟩
        · simp only [admitted, unposted, hc.1, Bool.toNat_true, Bool.toNat_false]
          omega
        · simp only [locked]
    | mMutexSem =>
      simp only [disciplined, Bool.and_eq_true] at hc
      by_cases hn : s.mMutexSem = 0
      · rw [exec, if_pos hn]
        trivial
      · rw [exec, if_neg hn]
        refine ⟨h.goto hi hc.2 ?_ ?_, .stays rfl⟩
        · simp only [admitted, unposted]
        · simp only [locked, hc.1, Bool.toNat_true, Bool.toNat_false]
          omega
  | post sem =>
    cases sem with
    | mSizeSem =>
      simp only [disciplined, Bool.and_eq_true, Bool.not_eq_true'] at hc
      refine ⟨h.goto hi hc.2 ?_ ?_, .stays rfl⟩
      · simp only [admitted, unposted, hc.1.2, Bool.toNat_true, Bool.toNat_false]
        omega
      · simp only [locked]
    | mMutexSem =>
      simp only [disciplined, Bool.and_eq_true, Bool.not_eq_true'] at hc
      refine ⟨h.goto hi hc.2 ?_ ?_, .stays rfl⟩
      · simp only [admitted, unposted]
      · simp only [locked, hc.1, Bool.toNat_true, Bool.toNat_false]
        omega
  | push e item =>
    simp only [disciplined, Bool.and_eq_true] at hc
    refine ⟨h.goto hi hc.2 ?_ ?_, .enters e item rfl⟩
    · simp only [admitted, unposted, hc.1.2, Deque.length_push, Bool.toNat_true, Bool.toNat_false]
      omega
    · simp only [locked]
  | pop e =>
    obtain ⟨item, d, hd⟩ := Deque.exists_pop e (hpop e rfl)
    have hlen : s.mContainer.length = d.length + 1 := (Deque.pop_perm hd).length_eq
    simp only [disciplined, Bool.and_eq_true, Bool.not_eq_true'] at hc
    rw [exec, hd]
    refine ⟨h.goto hi hc.2 ?_ ?_, .leaves e item hd⟩
    · simp only [admitted, unposted, hc.1.2, Bool.toNat_true, Bool.toNat_false]
      omega
    · simp only [locked]
  | getValue =>
    simp only [disciplined, Bool.and_eq_true, Bool.not_eq_true'] at hc
    obtain ⟨⟨hl, ha⟩, hrest⟩ := hc
    obtain ⟨hc', hl', ha', hu'⟩ := clearLoop_disciplined hrest hl ha s.mSizeSem
    refine ⟨h.goto hi hc' ?_ ?_, .stays rfl⟩
    · simp only [admitted, unposted, ha, ha', hu']
    · simp only [locked, hl, hl']

theorem exec_inv (h : Inv s) (hi : s.code i = instr :: rest) :
    (exec s i rest instr).Holds fun (s', e) =>
      Inv s' ∧ Moves s.mContainer s'.mContainer i e := by
  have hexec := exec_accounts (inv_iff_accounts.mp h) hi fun e he => h.length_pos (he ▸ hi)
  exact hexec.mono fun r hr => ⟨inv_iff_accounts.mpr hr.1, hr.2⟩

theorem step_inv (h : Inv s) (a : Act ι α) : (step s a).Holds fun (s', e) =>
    Inv s' ∧ ∃ i, Moves s.mContainer s'.mContainer i e := by
  cases a with
  | call i m =>
    by_cases hi : s.code i = []
    · obtain ⟨hc, hl, ha, hu⟩ := m.code_disciplined
      rw [step, if_pos hi]
      refine ⟨inv_iff_accounts.mpr ((inv_iff_accounts.mp h).goto hi hc ?_ ?_), i, .stays rfl⟩
      · simp only [ha, hu, admitted, unposted]
      · simp only [hl, locked]
    · rw [step, if_neg hi]
      trivial
  | run i =>
    cases hi : s.code i with
    | nil =>
      rw [step, hi]
      trivial
    | cons instr rest =>
      rw [step, hi]
      exact (exec_inv h hi).mono fun r hr => ⟨hr.1, i, hr.2⟩

omit [Fintype ι] [DecidableEq ι] in
theorem Moves.perm {d' : List α} {h e : List (Event ι α)} (hm : Moves d d' i e)
    (hh : (pushed h).Perm (popped h ++ d)) :
    (pushed (h ++ e)).Perm (popped (h ++ e) ++ d') := by
  rw [pushed_append, popped_append]
  cases hm with
  | stays hd =>
    rw [hd]
    simpa using hh
  | enters e item hd =>
    have hitem : (d ++ [item]).Perm d' := by
      rw [hd]
      exact (List.perm_append_singleton item d).trans (Deque.push_perm e item d).symm
    have happend := hh.append_right [item]
    rw [List.append_assoc] at happend
    exact happend.trans (by simpa using hitem.append_left _)
  | leaves e item hd =>
    have hitem := hh.trans ((Deque.pop_perm hd).append_left _)
    simpa using hitem

end Steps

def Act.isPutGet {ι α : Type*} : Act ι α → Bool
  | .call _ (.put _) => true
  | .call _ .get => true
  | .call _ _ => false
  | .run _ => true

section Order

variable {ι α : Type*} [DecidableEq ι] {s s' : State ι α} {i : ι} {rest : Code α}
  {instr : Instr α} {a : Act ι α} {h e : List (Event ι α)}

/-- Items enter at the back only and leave at the front only. -/
def inOrder : Instr α → Bool
  | push e _ => e = .back
  | pop e => e = .front
  | getValue => false
  | _ => true

/-- The items left in the order in which they entered, and all code goes on so. -/
def Ordered (s : State ι α) (h : List (Event ι α)) : Prop :=
  (∀ i, (s.code i).all inOrder = true) ∧ pushed h = popped h ++ s.mContainer

theorem Ordered.goto {d : List α} {n m : ℕ} (ho : Ordered s h) (hc : rest.all inOrder = true)
    (hd : pushed (h ++ e) = popped (h ++ e) ++ d) :
    Ordered (State.goto ⟨d, n, m, s.code⟩ i rest) (h ++ e) :=
  ⟨forall_goto (P := fun c => c.all inOrder = true) ho.1 hc, hd⟩

theorem Executes.ordered (hs : Executes s i rest instr s' e) (ho : Ordered s h)
    (hi : s.code i = instr :: rest) : Ordered s' (h ++ e) := by
  have hc := ho.1 i
  have hd := ho.2
  rw [hi, List.all_cons, Bool.and_eq_true] at hc
  obtain ⟨hinstr, hrest⟩ := hc
  cases hs with
  | waitSize | waitMutex | postSize | postMutex => exact ho.goto hrest (by rwa [List.append_nil])
  | push e item =>
    obtain rfl : e = .back := by simpa [inOrder] using hinstr
    exact ho.goto hrest (by simp [hd, Deque.push])
  | pop e item d hpop =>
    obtain rfl : e = .front := by simpa [inOrder] using hinstr
    exact ho.goto hrest (by simp [hd, Deque.pop_front_eq hpop])
  | getValue => simp [inOrder] at hinstr

theorem step_ordered (ho : Ordered s h) (ha : a.isPutGet = true) (hs : step s a = .ok (s', e)) :
    Ordered s' (h ++ e) := by
  cases step_steps hs with
  | call i m hi =>
    refine ho.goto ?_ (by rw [List.append_nil]; exact ho.2)
    cases m with
    | put item => rfl
    | get => rfl
    | _ => simp [Act.isPutGet] at ha
  | run hi hs => exact hs.ordered ho hi

end Order

/-- In every run no pop is made on an empty deque. The stored items are those with a permit,
those of the threads that were admitted and have not popped, and those of the threads that have
pushed and not posted; one thread at most is between `wait` and `post` of the mutex. Every item
that was pushed is stored or was popped, exactly once, and with `put` and `get` only the items
leave in the order in which they were pushed. -/
theorem run_safe {ι α : Type*} [Fintype ι] [DecidableEq ι] (acts : List (Act ι α)) :
    (Schedule.run step init acts).Holds fun (s, h) =>
      s.mContainer.length = s.mSizeSem + count admitted s.code + count unposted s.code ∧
      count locked s.code ≤ 1 ∧ (pushed h).Perm (popped h ++ s.mContainer) ∧
      ((∀ a ∈ acts, a.isPutGet = true) → pushed h = popped h ++ s.mContainer) := by
  have hinv : (Schedule.run step init acts).Holds fun (s, h) =>
      Inv s ∧ (pushed h).Perm (popped h ++ s.mContainer) := by
    refine Schedule.run_holds (P := fun s h => Inv s ∧ (pushed h).Perm (popped h ++ s.mContainer))
      (fun s h a hs => ?_) ⟨inv_init, .refl _⟩ acts
    exact (step_inv hs.1 a).mono fun r ⟨hr, i, hm⟩ => ⟨hr, hm.perm hs.2⟩
  have hordered : (∀ a ∈ acts, a.isPutGet = true) →
      (Schedule.run step init acts).Holds fun (s, h) => Inv s ∧ Ordered s h := by
    intro hacts
    refine Schedule.run_holds_of_meets (P := fun s h => Inv s ∧ Ordered s h)
      (C := fun _ a => a.isPutGet = true) (fun s h a hs ha => ?_)
      ⟨inv_init, fun _ => rfl, rfl⟩ acts (Schedule.meets_of_forall hacts)
    have hstep := (step_inv hs.1 a).and fun r hr => step_ordered hs.2 ha hr
    exact hstep.mono fun r hr => ⟨hr.1.1, hr.2⟩
  refine (hinv.and fun r hr hacts => ((hordered hacts).of_eq hr).2).mono fun r hr => ?_
  obtain ⟨⟨hinv, hperm⟩, horder⟩ := hr
  have hmutex := hinv.mutex
  exact ⟨hinv.stored, by omega, hperm, fun hacts => (horder hacts).2⟩

/-- Between the push and the post an item is stored that has no permit yet. -/
theorem run_put_unposted : ¬(Schedule.run step (init : State (Fin 1) ℕ)
    [.call 0 (.put 7), .run 0, .run 0]).Holds fun (s, _) =>
      (s.mContainer.length : ℤ) = s.mSizeSem + count admitted s.code - count unposted s.code := by
  decide

end YlUtils.SafeContainerBySem
