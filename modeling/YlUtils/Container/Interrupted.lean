import YlUtils.Container.SemInvariant

/-! # When a wait is interrupted

`ThreadSem::wait` returns what `sem_wait` does, and no method looks at it. After a
wait that a signal interrupts the call goes on without a permit, so that there is
one permit or one holder of the mutex too many from then on.
-/

namespace YlUtils.SafeContainerBySem

open Threads Sem Instr

section Model

variable {ι α : Type*} [DecidableEq ι]

/-- A thread makes a step, or a signal interrupts its wait. -/
inductive Turn (ι α : Type*)
  | act (a : Act ι α)
  | signal (i : ι)

/-- The wait fails, and the call goes on. -/
def interrupt (s : State ι α) (i : ι) : Outcome (State ι α × List (Event ι α)) :=
  match s.code i with
  | wait _ :: rest => .ok (s.goto i rest, [])
  | _ => .blocked

def turn (s : State ι α) : Turn ι α → Outcome (State ι α × List (Event ι α))
  | .act a => step s a
  | .signal i => interrupt s i

def Interrupts (s : State ι α) : Turn ι α → Prop
  | .act _ => False
  | .signal i => ∃ sem rest, s.code i = wait sem :: rest

def Turn.isNotClear : Turn ι α → Bool
  | .act (.call _ .clear) => false
  | _ => true

variable [Fintype ι]

/-- One thread at most is between `wait` and `post` of the mutex. -/
def Exclusive (s : State ι α) : Prop := count locked s.code ≤ 1

instance (s : State ι α) : Decidable (Exclusive s) := inferInstanceAs (Decidable (_ ≤ 1))

/-- The run makes no pop on an empty deque, and one thread at most holds the mutex behind it. -/
def Safe (turns : List (Turn ι α)) : Prop :=
  (Schedule.run turn init turns).Holds fun r => Exclusive r.1

/-- Every state of the run is safe, and so is what follows it without signals. -/
def Tolerates (turns : List (Turn ι α)) : Prop :=
  ∀ before, before <+: turns → ∀ acts : List (Act ι α), Safe (before ++ acts.map .act)

end Model

section Code

variable {α : Type*} {instr : Instr α} {rest c : Code α}

/-- The places of a call other than `clear`. -/
inductive Place : Code α → Prop
  | idle : Place []
  | leaves : Place [post mMutexSem]
  | posts : Place [post mSizeSem, post mMutexSem]
  | pushes (e : End) (item : α) : Place [push e item, post mSizeSem, post mMutexSem]
  | put (e : End) (item : α) :
    Place [wait mMutexSem, push e item, post mSizeSem, post mMutexSem]
  | pops (e : End) : Place [pop e, post mMutexSem]
  | admitted (e : End) : Place [wait mMutexSem, pop e, post mMutexSem]
  | get (e : End) : Place [wait mSizeSem, wait mMutexSem, pop e, post mMutexSem]

theorem Place.tail (h : Place (instr :: rest)) : Place rest := by
  cases h <;> constructor

theorem Method.code_place {m : Method α} (hm : m ≠ .clear) : Place m.code := by
  cases m with
  | clear => exact absurd rfl hm
  | _ => constructor

/-- What the steps left of a call are worth, where a step is worth one and a permit five: a call of
`get` gains by its wait and no other step does. -/
def weight : Code α → ℕ
  | [] => 1
  | wait mSizeSem :: _ => 0
  | post mSizeSem :: rest => weight rest + 6
  | _ :: rest => weight rest + 1

end Code

section Fails

variable {ι α : Type*} [Fintype ι] [DecidableEq ι] {s s' : State ι α} {i j : ι} {rest : Code α}
  {instr : Instr α} {a : Act ι α} {e : List (Event ι α)}

/-- Steps without signals can lead to a pop on an empty deque or to two holders of the mutex. -/
def Fails (s : State ι α) : Prop :=
  ∃ acts : List (Act ι α), ¬ (Schedule.run step s acts).Holds fun r => Exclusive r.1

theorem Fails.of_step (ha : step s a = .ok (s', e)) (h : Fails s') : Fails s := by
  obtain ⟨acts, hacts⟩ := h
  refine ⟨a :: acts, fun hrun => hacts ?_⟩
  exact (Schedule.run_cons_holds_iff (Q := Exclusive) ha acts).mp hrun

theorem Fails.of_exec (hi : s.code i = instr :: rest) (hs : exec s i rest instr = .ok (s', e))
    (h : Fails s') : Fails s :=
  .of_step (a := .run i) (by rw [step, hi]; exact hs) h

theorem Fails.of_undefined (ha : step s a = .undefined) : Fails s :=
  ⟨[a], by simp [Schedule.run, ha, Outcome.bind]⟩

theorem Fails.of_locked (hij : i ≠ j) (hi : locked (s.code i) = true)
    (hj : locked (s.code j) = true) : Fails s :=
  ⟨[], fun h => hij (eq_of_count_le_one h hi hj)⟩

end Fails

section Short

variable {ι α : Type*} [Fintype ι] [DecidableEq ι] {s s' : State ι α} {i : ι} {rest : Code α}
  {instr : Instr α} {e : List (Event ι α)}

structure Short (s : State ι α) : Prop where
  accounts : Accounts 1 0 s
  place : ∀ i, Place (s.code i)

/-- What the steps left and the permits are worth. -/
def worth (s : State ι α) : ℕ := total weight s.code + 5 * s.mSizeSem

omit [Fintype ι] in
theorem Executes.eq_goto (hs : Executes s i rest instr s' e) (hp : Place (instr :: rest)) :
    ∃ d n m, s' = State.goto ⟨d, n, m, s.code⟩ i rest ∧
      weight rest + 5 * n < weight (instr :: rest) + 5 * s.mSizeSem := by
  cases hs with
  | waitSize hn =>
    refine ⟨_, _, _, rfl, ?_⟩
    cases hp
    simp only [weight]
    omega
  | waitMutex | postSize | postMutex | push | pop =>
    exact ⟨_, _, _, rfl, by simp only [weight]; omega⟩
  | getValue => cases hp

theorem Short.of_exec (h : Short s) (hi : s.code i = instr :: rest)
    (hs : exec s i rest instr = .ok (s', e)) : Short s' ∧ worth s' < worth s := by
  have hp : Place (instr :: rest) := hi ▸ h.place i
  have hpop : ∀ e, instr = pop e → 0 < s.mContainer.length := by
    rintro e rfl
    refine List.length_pos_iff.mpr fun hnil => ?_
    rw [exec, hnil] at hs
    cases e <;> exact absurd hs (by simp [Deque.pop])
  have haccounts := ((exec_accounts h.accounts hi hpop).of_eq hs).1
  obtain ⟨d, n, m, rfl, hworth⟩ := (exec_executes hs).eq_goto hp
  have htotal := total_update weight s.code i rest
  rw [hi] at htotal
  refine ⟨⟨haccounts, forall_goto h.place hp.tail⟩, ?_⟩
  simp only [worth, State.goto]
  omega

theorem Short.fails_of_exec (h : Short s)
    (ih : ∀ s' : State ι α, Short s' → worth s' < worth s → Fails s')
    (hi : s.code i = instr :: rest) (hne : exec s i rest instr ≠ .blocked) : Fails s := by
  cases hs : exec s i rest instr with
  | blocked => exact absurd hs hne
  | undefined => exact .of_undefined (a := .run i) (by rw [step, hi]; exact hs)
  | ok r =>
    obtain ⟨hshort, hworth⟩ := h.of_exec hi hs
    exact .of_exec hi hs (ih r.1 hshort hworth)

/-- With a permit too many, all calls can be ended and the rest of the items taken, and one more. -/
theorem Short.fails [Nonempty ι] (h : Short s) : Fails s := by
  induction hn : worth s using Nat.strong_induction_on generalizing s with
  | h n ihn =>
  subst hn
  have ih : ∀ s', Short s' → worth s' < worth s → Fails s' := fun s' hs' hlt =>
    ihn (worth s') hlt hs' rfl
  by_cases hl : ∃ i, locked (s.code i) = true
  · -- the holder of the mutex does not wait
    obtain ⟨i, hi⟩ := hl
    have hp := h.place i
    generalize hc : s.code i = c at hp hi
    cases hp with
    | leaves | posts | pushes e item => exact h.fails_of_exec ih hc (by simp [exec])
    | pops e =>
      refine h.fails_of_exec ih hc ?_
      rw [exec]
      split <;> simp
    | _ => exact absurd hi (by simp [locked])
  have hunlocked : ∀ i, locked (s.code i) = false := fun i =>
    Bool.eq_false_iff.mpr fun hi => hl ⟨i, hi⟩
  have hmutex := h.accounts.mutex
  rw [count_eq_zero hunlocked] at hmutex
  by_cases hw : ∃ i rest, s.code i = wait mMutexSem :: rest
  · obtain ⟨i, rest, hi⟩ := hw
    refine h.fails_of_exec ih hi ?_
    rw [exec, if_neg (by omega)]
    simp
  -- all threads are idle or wait for a permit, and there is one more than there are items
  have hrest : ∀ i, s.code i = [] ∨ ∃ e,
      s.code i = [wait mSizeSem, wait mMutexSem, pop e, post mMutexSem] := by
    intro i
    have hp := h.place i
    have hi := hunlocked i
    have hnot : ∀ rest, s.code i ≠ wait mMutexSem :: rest := fun rest hr => hw ⟨i, rest, hr⟩
    generalize s.code i = c at hp hi hnot
    cases hp with
    | idle => exact .inl rfl
    | get e => exact .inr ⟨e, rfl⟩
    | put e item => exact absurd rfl (hnot _)
    | admitted e => exact absurd rfl (hnot _)
    | _ => exact absurd hi (by simp [locked])
  have hstored := h.accounts.stored
  rw [count_eq_zero fun i => by rcases hrest i with hi | ⟨e, hi⟩ <;> rw [hi] <;> rfl,
    count_eq_zero fun i => by rcases hrest i with hi | ⟨e, hi⟩ <;> rw [hi] <;> rfl] at hstored
  obtain ⟨i⟩ := ‹Nonempty ι›
  rcases hrest i with hi | ⟨e, hi⟩
  · have hcall : step s (.call i .get) = .ok (s.goto i get, []) := by rw [step, if_pos hi]; rfl
    have htotal := total_update weight s.code i get
    rw [hi] at htotal
    have hshort : Short (s.goto i get) :=
      ⟨h.accounts.goto hi rfl rfl rfl, forall_goto h.place (.get _)⟩
    refine .of_step hcall (ih _ hshort ?_)
    simp only [worth, State.goto]
    simp only [get, weight] at htotal ⊢
    omega
  · refine h.fails_of_exec ih hi ?_
    rw [exec, if_neg (by omega)]
    simp

end Short

section Doubled

variable {ι α : Type*} [Fintype ι] [DecidableEq ι] {s : State ι α} {i j : ι} {rest : Code α}
  {e : End}

omit [Fintype ι] in
theorem goto_eq_goto {d : List α} {n m : ℕ} {f : ι → Code α} {c : Code α} :
    State.goto ⟨d, n, m, Function.update f i c⟩ i rest = State.goto ⟨d, n, m, f⟩ i rest := by
  rw [State.goto, State.goto, Function.update_idem]

theorem fails_of_holder (hij : i ≠ j) (hi : locked (s.code i) = true) (hm : s.mMutexSem ≠ 0)
    (hn : s.mSizeSem ≠ 0) (hj : Place (s.code j)) (item : α) : Fails s := by
  have hgoto : ∀ (d : List α) (n m : ℕ) (c : Code α), locked c = true →
      Fails (State.goto ⟨d, n, m, s.code⟩ j c) := by
    intro d n m c hc
    refine .of_locked hij ?_ ?_
    · rwa [goto_code_of_ne hij]
    · rwa [goto_code_self]
  -- a wait for the mutex is passed
  have hwait : ∀ (d : List α) (n : ℕ) (c rest : Code α), c = wait mMutexSem :: rest →
      locked rest = true → Fails (State.goto ⟨d, n, s.mMutexSem, s.code⟩ j c) := by
    rintro d n _ rest rfl hrest
    have hcode : (State.goto ⟨d, n, s.mMutexSem, s.code⟩ j (wait mMutexSem :: rest)).code j =
        wait mMutexSem :: rest := goto_code_self _ _ _
    refine .of_exec hcode (if_neg hm) ?_
    rw [goto_code, goto_eq_goto]
    exact hgoto _ _ _ _ hrest
  generalize hc : s.code j = c at hj
  cases hj with
  | idle =>
    have hcall : step s (.call j (.put item)) = .ok (s.goto j (put item), []) := by
      rw [step, if_pos hc]
      rfl
    exact .of_step hcall (hwait _ _ _ _ rfl rfl)
  | put e item => exact .of_exec hc (if_neg hm) (hgoto _ _ _ _ rfl)
  | admitted e => exact .of_exec hc (if_neg hm) (hgoto _ _ _ _ rfl)
  | get e => exact .of_exec hc (if_neg hn) (hwait _ _ _ _ rfl rfl)
  | _ => exact .of_locked hij hi (by rw [hc]; rfl)

theorem fails_of_pushes (e : End) (item : α) (hij : i ≠ j)
    (hi : s.code i = [push e item, post mSizeSem, post mMutexSem]) (hm : s.mMutexSem ≠ 0)
    (hj : Place (s.code j)) : Fails s := by
  refine .of_exec hi rfl (.of_exec (i := i) (goto_code_self _ _ _) rfl ?_)
  refine fails_of_holder hij ?_ hm (Nat.succ_ne_zero _) ?_ item
  · rw [goto_code_self]
    rfl
  · rw [goto_code_of_ne hij.symm, goto_code_of_ne hij.symm]
    exact hj

theorem fails_of_idle (hij : i ≠ j) (hi : s.code i = []) (hm : 2 ≤ s.mMutexSem)
    (hj : Place (s.code j)) (item : α) : Fails s := by
  have hcall : step s (.call i (.put item)) = .ok (s.goto i (put item), []) := by
    rw [step, if_pos hi]
    rfl
  have hcode : (s.goto i (put item)).code i = put item := goto_code_self _ _ _
  have hfree : (s.goto i (put item)).mMutexSem ≠ 0 := show s.mMutexSem ≠ 0 by omega
  refine .of_step hcall (.of_exec hcode (if_neg hfree) ?_)
  refine fails_of_pushes Deque.putEnd item hij ?_ ?_ ?_
  · rw [goto_code_self]
  · exact show s.mMutexSem - 1 ≠ 0 by omega
  · rw [goto_code_of_ne hij.symm, goto_code_of_ne hij.symm]
    exact hj

theorem fails_of_pops (hij : i ≠ j) (hi : s.code i = [pop e, post mMutexSem])
    (hm : s.mMutexSem ≠ 0) (hlen : 0 < s.mContainer.length) (hj : Place (s.code j)) : Fails s := by
  obtain ⟨item, d, hd⟩ := Deque.exists_pop e hlen
  have hpop : exec s i [post mMutexSem] (pop e) =
      .ok ({ s with mContainer := d }.goto i [post mMutexSem], [.popped i item]) := by
    rw [exec, hd]
  refine .of_exec hi hpop (.of_exec (i := i) (goto_code_self _ _ _) rfl ?_)
  refine fails_of_idle hij ?_ ?_ ?_ item
  · rw [goto_code_self]
  · exact show 2 ≤ s.mMutexSem + 1 by omega
  · rw [goto_code_of_ne hij.symm, goto_code_of_ne hij.symm]
    exact hj

end Doubled

section Runs

variable {ι α : Type*} [Fintype ι] [DecidableEq ι] {s s' : State ι α} {i : ι} {sem : Sem}
  {rest : Code α} {t : Turn ι α} {e : List (Event ι α)}

/-- Behind any interrupted wait a run can fail without another signal. -/
theorem interrupt_fails [Nontrivial ι] (h : Inv s) (hplace : ∀ i, Place (s.code i))
    (hi : s.code i = wait sem :: rest) : Fails (s.goto i rest) := by
  have haccounts := inv_iff_accounts.mp h
  have hp : Place (wait sem :: rest) := hi ▸ hplace i
  have hc := h.code i
  rw [hi] at hc
  cases sem with
  | mSizeSem =>
    simp only [disciplined, Bool.and_eq_true] at hc
    refine Short.fails ⟨haccounts.goto hi hc.2 ?_ ?_, forall_goto hplace hp.tail⟩
    · simp only [admitted, unposted, hc.1, Bool.toNat_true, Bool.toNat_false]
      omega
    · simp only [locked]
  | mMutexSem =>
    have hlocked : locked rest = true := by
      simp only [disciplined, Bool.and_eq_true] at hc
      exact hc.1
    have hcode : (s.goto i rest).code i = rest := goto_code_self _ _ _
    by_cases hothers : ∃ j, j ≠ i ∧ locked (s.code j) = true
    · obtain ⟨j, hj, hlj⟩ := hothers
      refine .of_locked hj.symm (by rw [hcode]; exact hlocked) ?_
      rwa [goto_code_of_ne hj]
    obtain ⟨j, hj⟩ := exists_ne i
    have hmutex := h.mutex
    rw [count_eq_zero fun k => ?_] at hmutex
    swap
    · by_cases hk : k = i
      · rw [hk, hi]
        rfl
      · exact Bool.eq_false_iff.mpr fun hlk => hothers ⟨k, hk, hlk⟩
    have hm : (s.goto i rest).mMutexSem ≠ 0 := show s.mMutexSem ≠ 0 by omega
    have hpj : Place ((s.goto i rest).code j) := forall_goto hplace hp.tail j
    cases hp with
    | put e item => exact fails_of_pushes e item hj.symm hcode hm hpj
    | admitted e =>
      have hclaimed := count_pos (p := admitted) (show admitted (s.code i) = true by rw [hi]; rfl)
      have hstored := h.stored
      have hlen : 0 < s.mContainer.length := by omega
      exact fails_of_pops hj.symm hcode hm hlen hpj

theorem turn_inv (h : Inv s) (ht : ¬ Interrupts s t) :
    (turn s t).Holds fun (s', _) => Inv s' := by
  cases t with
  | act a => exact (step_inv h a).mono fun _ hr => hr.1
  | signal i =>
    rw [turn, interrupt]
    split
    · next sem rest hi => exact absurd ⟨sem, rest, hi⟩ ht
    · trivial

omit [Fintype ι] in
theorem turn_place (hplace : ∀ i, Place (s.code i)) (hclear : t.isNotClear = true)
    (ht : ¬ Interrupts s t) (hs : turn s t = .ok (s', e)) (i : ι) : Place (s'.code i) := by
  cases t with
  | signal i =>
    rw [turn, interrupt] at hs
    split at hs
    · next sem rest hi => exact absurd ⟨sem, rest, hi⟩ ht
    · exact absurd hs (by simp)
  | act a =>
    cases step_steps hs with
    | call j m hj =>
      exact forall_goto hplace (m.code_place fun hm => by simp [hm, Turn.isNotClear] at hclear) i
    | @run j instr rest _ _ hj hs =>
      have hp : Place (instr :: rest) := hj ▸ hplace j
      obtain ⟨d, n, m, rfl, -⟩ := hs.eq_goto hp
      exact forall_goto hplace hp.tail i

theorem tolerates_of_meets {turns : List (Turn ι α)}
    (hmeets : Schedule.Meets turn (fun s t => ¬ Interrupts s t) init turns) : Tolerates turns := by
  intro before hbefore acts
  have hacts : ∀ s : State ι α, ∀ t ∈ acts.map Turn.act, ¬ Interrupts s t := by
    intro s t ht
    obtain ⟨a, -, rfl⟩ := List.mem_map.mp ht
    exact id
  have hall := (hmeets.of_prefix hbefore).append hacts
  have hrun := Schedule.run_holds_of_meets (P := fun s _ => Inv s)
    (fun s _ t h ht => turn_inv h ht) inv_init _ hall
  refine hrun.mono fun r h => ?_
  have hmutex := h.mutex
  exact show count locked r.1.code ≤ 1 by omega

theorem meets_of_tolerates [Nontrivial ι] {turns : List (Turn ι α)}
    (hclear : ∀ t ∈ turns, t.isNotClear = true) (h : Inv s) (hplace : ∀ i, Place (s.code i))
    (hsafe : ∀ before, before <+: turns → ∀ acts : List (Act ι α),
      (Schedule.run turn s (before ++ acts.map .act)).Holds fun r => Exclusive r.1) :
    Schedule.Meets turn (fun s t => ¬ Interrupts s t) s turns := by
  induction turns generalizing s with
  | nil => trivial
  | cons t turns ih =>
    have ht : ¬ Interrupts s t := by
      intro hint
      cases t with
      | act a => exact hint
      | signal i =>
        obtain ⟨sem, rest, hi⟩ := hint
        obtain ⟨acts, hacts⟩ := interrupt_fails h hplace hi
        have hturn : turn s (.signal i) = .ok (s.goto i rest, []) := by
          rw [turn, interrupt, hi]
        have hrun := (Schedule.run_cons_holds_iff (Q := Exclusive) hturn _).mp
          (hsafe [.signal i] (by simp) acts)
        rw [List.append_eq, List.nil_append, Schedule.run_map] at hrun
        exact hacts hrun
    refine ⟨ht, ?_⟩
    cases hs : turn s t with
    | ok r =>
      have hrest := List.forall_mem_cons.mp hclear
      refine ih hrest.2 ((turn_inv h ht).of_eq hs) (turn_place hplace hrest.1 ht hs)
        fun before hbefore acts => ?_
      have hrun := hsafe (t :: before) (List.cons_prefix_cons.mpr ⟨rfl, hbefore⟩) acts
      exact (Schedule.run_cons_holds_iff (Q := Exclusive) hs _).mp hrun
    | _ => trivial

/-- A run in which no wait is interrupted is safe in all of its states, and however it goes on
without signals; with two threads no other run of the calls but `clear` is. -/
theorem tolerates_iff_uninterrupted (turns : List (Turn ι α)) :
    (Schedule.Meets turn (fun s t => ¬ Interrupts s t) init turns → Tolerates turns) ∧
      (Nontrivial ι → (∀ t ∈ turns, t.isNotClear = true) → Tolerates turns →
        Schedule.Meets turn (fun s t => ¬ Interrupts s t) init turns) :=
  ⟨tolerates_of_meets, fun _ hclear hsafe =>
    meets_of_tolerates hclear inv_init (fun _ => .idle) hsafe⟩

/-- `get` pops without a permit when its first wait is interrupted; two calls of `put` are between
`wait` and `post` of the mutex when the wait of one of them is. -/
theorem not_safe :
    ¬ Safe ([.act (.call 0 .get), .signal 0, .act (.run 0), .act (.run 0)] :
      List (Turn (Fin 2) ℕ)) ∧
    ¬ Safe ([.act (.call 0 (.put 7)), .act (.call 1 (.put 8)), .signal 0, .act (.run 1)] :
      List (Turn (Fin 2) ℕ)) := by
  unfold Safe
  decide

end Runs

end YlUtils.SafeContainerBySem
