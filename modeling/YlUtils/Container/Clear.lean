import YlUtils.Container.SemInvariant

/-! # When clearing blocks

`clear` reads the permits and takes as many, and holds the mutex meanwhile. No
permit is added then, but a consumer may take one, since it does so before it
waits for the mutex; then `clear` waits for a permit that nobody can give.
-/

namespace YlUtils.SafeContainerBySem

open Threads Sem Instr

section Code

variable {α : Type*} {c rest : Code α} {instr : Instr α} {value : ℕ}

/-- `clear` is in its loop, with `value` permits to take. -/
def Draining (c : Code α) (value : ℕ) : Prop :=
  c = clearLoop value [post mMutexSem] ∨ c = pop .back :: clearLoop value [post mMutexSem]

/-- The thread holds the mutex and has permits to take. -/
def drains (c : Code α) : Bool :=
  locked c && c.any fun | wait mSizeSem => true | _ => false

/-- Outside of the loop of `clear` permits are taken without the mutex. -/
def steady : Code α → Bool
  | [] => true
  | wait mSizeSem :: rest => !locked rest && steady rest
  | post mMutexSem :: rest => rest.isEmpty
  | getValue :: rest => (match rest with | [post mMutexSem] => true | _ => false)
  | _ :: rest => steady rest

theorem Method.code_steady (m : Method α) : steady m.code = true := by
  cases m <;> rfl

theorem steady_tail (h : steady (instr :: rest) = true) : steady rest = true := by
  cases instr with
  | wait sem => cases sem <;> simp_all [steady]
  | post sem => cases sem <;> simp_all [steady]
  | push e item => exact h
  | pop e => exact h
  | getValue =>
    unfold steady at h
    split at h
    · rfl
    · exact absurd h (by simp)

theorem steady_drains (h : steady c = true) : drains c = false := by
  induction c with
  | nil => rfl
  | cons instr rest ih =>
    have ih := ih (steady_tail h)
    cases instr with
    | wait sem => cases sem <;> simp_all [steady, drains, locked]
    | post sem => cases sem <;> simp_all [steady, drains, locked]
    | push e item => simpa [drains, locked] using ih
    | pop e => simpa [drains, locked] using ih
    | getValue => simpa [drains, locked] using ih

theorem locked_clearLoop (value : ℕ) :
    locked (clearLoop value [post mMutexSem] : Code α) = true := by
  induction value with
  | zero => rfl
  | succ value ih => exact ih

theorem Draining.locked (h : Draining c value) : locked c = true := by
  rcases h with rfl | rfl <;> exact locked_clearLoop value

theorem length_clearLoop (value : ℕ) :
    (clearLoop value rest).length = 2 * value + rest.length := by
  induction value with
  | zero => simp [clearLoop]
  | succ value ih =>
    simp only [clearLoop, List.length_cons, ih]
    omega

theorem Draining.unique {value' : ℕ} (h : Draining c value) (h' : Draining c value') :
    value = value' := by
  rcases h with h | h <;> rcases h' with h' | h' <;>
  · have hlen := congrArg List.length (h.symm.trans h')
    simp only [List.length_cons, length_clearLoop, List.length_nil] at hlen
    omega

theorem Draining.drains_iff (h : Draining c value) : drains c = true ↔ 1 ≤ value := by
  have hloop : drains (clearLoop value [post mMutexSem] : Code α) = true ↔ 1 ≤ value := by
    rw [drains, locked_clearLoop, Bool.true_and]
    cases value <;> simp [clearLoop]
  rcases h with rfl | rfl
  · exact hloop
  · rw [← hloop]
    simp [drains, SafeContainerBySem.locked]

end Code

/-- A consumer takes a permit while `clear` has permits to take. -/
def Disturbs {ι α : Type*} (s : State ι α) : Act ι α → Prop
  | .call _ _ => False
  | .run i => (match s.code i with
      | wait mSizeSem :: rest => !locked rest
      | _ => false) = true ∧ ∃ j, drains (s.code j) = true

instance {ι α : Type*} [Fintype ι] (s : State ι α) : DecidablePred (Disturbs s)
  | .call _ _ => inferInstanceAs (Decidable False)
  | .run _ => inferInstanceAs (Decidable (_ ∧ _))

structure Undisturbed {ι α : Type*} (s : State ι α) : Prop where
  place : ∀ i, steady (s.code i) = true ∨ ∃ value, Draining (s.code i) value
  permits : ∀ i value, 1 ≤ value → Draining (s.code i) value → value = s.mSizeSem

section Steps

variable {ι α : Type*} [Fintype ι] [DecidableEq ι] {s s' : State ι α} {i j : ι} {c rest : Code α}
  {d : List α} {n m value : ℕ} {instr : Instr α} {a : Act ι α} {e : List (Event ι α)}

omit [Fintype ι] in
theorem Undisturbed.goto_steady (h : Undisturbed s) (hc : steady c = true)
    (hn : ∀ j value, j ≠ i → 1 ≤ value → Draining (s.code j) value → n = s.mSizeSem) :
    Undisturbed (State.goto ⟨d, n, m, s.code⟩ i c) := by
  have hplace := forall_goto (P := fun c => steady c = true ∨ ∃ value, Draining c value)
    (d := d) (n := n) (m := m) (i := i) h.place (.inl hc)
  refine ⟨hplace, fun j value hvalue hj => ?_⟩
  by_cases hji : j = i
  · rw [hji, goto_code_self] at hj
    have hdrains := hj.drains_iff.mpr hvalue
    rw [steady_drains hc] at hdrains
    exact absurd hdrains (by simp)
  · rw [goto_code_of_ne hji] at hj
    exact (h.permits j value hvalue hj).trans (hn j value hji hvalue hj).symm

omit [Fintype ι] in
theorem Undisturbed.goto_draining (h : Undisturbed s) (hc : Draining c value)
    (hothers : ∀ j, j ≠ i → locked (s.code j) = false) (hvalue : 1 ≤ value → value = n) :
    Undisturbed (State.goto ⟨d, n, m, s.code⟩ i c) := by
  have hplace := forall_goto (P := fun c => steady c = true ∨ ∃ value, Draining c value)
    (d := d) (n := n) (m := m) (i := i) h.place (.inr ⟨value, hc⟩)
  refine ⟨hplace, fun j value' hvalue' hj => ?_⟩
  by_cases hji : j = i
  · rw [hji, goto_code_self] at hj
    obtain rfl := hc.unique hj
    exact hvalue hvalue'
  · rw [goto_code_of_ne hji] at hj
    have hlocked := hj.locked
    rw [hothers j hji] at hlocked
    exact absurd hlocked (by simp)

omit [DecidableEq ι] in
theorem Inv.others_unlocked (h : Inv s) (hi : locked (s.code i) = true) (hj : j ≠ i) :
    locked (s.code j) = false := by
  have hmutex := h.mutex
  by_contra hlocked
  exact hj (eq_of_count_le_one (p := locked) (by omega) (by simpa using hlocked) hi)

theorem Executes.steady (hs : Executes s i rest instr s' e) (hinv : Inv s) (h : Undisturbed s)
    (ha : ¬Disturbs s (.run i)) (hi : s.code i = instr :: rest)
    (hc : steady (instr :: rest) = true) : Undisturbed s' := by
  have hrest := steady_tail hc
  cases hs with
  | waitSize =>
    refine h.goto_steady hrest fun j value _ hvalue hj => ?_
    have hunlocked : (!locked rest) = true := by
      simp only [SafeContainerBySem.steady, Bool.and_eq_true] at hc
      exact hc.1
    exact absurd ⟨by rw [hi]; exact hunlocked, j, hj.drains_iff.mpr hvalue⟩ ha
  | postSize =>
    refine h.goto_steady hrest fun j value hji _ hj => ?_
    -- the thread that posts holds the mutex, so no other one is in the loop
    have hd := hinv.code i
    rw [hi] at hd
    simp only [disciplined, Bool.and_eq_true] at hd
    have hlocked : locked (s.code i) = true := by
      rw [hi]
      exact hd.1.1
    have hunlocked := hinv.others_unlocked hlocked hji
    rw [hj.locked] at hunlocked
    exact absurd hunlocked (by simp)
  | waitMutex | postMutex | push | pop => exact h.goto_steady hrest fun _ _ _ _ _ => rfl
  | getValue =>
    have hend : rest = [post mMutexSem] := by
      unfold SafeContainerBySem.steady at hc
      split at hc
      · rfl
      · exact absurd hc (by simp)
    have hlocked : locked (s.code i) = true := by
      rw [hi, hend]
      rfl
    rw [hend]
    exact h.goto_draining (.inl rfl) (fun j hj => hinv.others_unlocked hlocked hj) fun _ => rfl

theorem Executes.draining (hs : Executes s i rest instr s' e) (hinv : Inv s) (h : Undisturbed s)
    (hi : s.code i = instr :: rest) (hc : Draining (instr :: rest) value) : Undisturbed s' := by
  have hothers : ∀ j, j ≠ i → locked (s.code j) = false := fun j hj =>
    hinv.others_unlocked (by rw [hi]; exact hc.locked) hj
  have hpermits := fun hvalue => h.permits i value hvalue (by rwa [hi])
  rcases hc with hc | hc
  · cases value with
    | zero =>
      cases hc
      cases hs
      exact h.goto_steady rfl fun _ _ _ _ _ => rfl
    | succ value =>
      cases hc
      cases hs
      refine h.goto_draining (.inr rfl) hothers fun _ => ?_
      have := hpermits (by omega)
      omega
  · cases hc
    cases hs
    exact h.goto_draining (.inl rfl) hothers hpermits

theorem step_undisturbed (hinv : Inv s) (h : Undisturbed s) (ha : ¬Disturbs s a)
    (hs : step s a = .ok (s', e)) : Undisturbed s' := by
  cases step_steps hs with
  | call i m hi => exact h.goto_steady m.code_steady fun _ _ _ _ _ => rfl
  | @run i instr rest _ _ hi hs =>
    rcases h.place i with hc | ⟨value, hc⟩
    · exact hs.steady hinv h ha hi (hi ▸ hc)
    · exact hs.draining hinv h hi (hi ▸ hc)

omit [Fintype ι] in
/-- The consumer takes a permit, and the thread in the loop is another one. -/
theorem Disturbs.elim (h : Undisturbed s) (ha : Disturbs s a) (hs : step s a = .ok (s', e)) :
    ∃ j value, 1 ≤ value ∧ Draining (s.code j) value ∧ s'.code j = s.code j ∧
      s'.mSizeSem + 1 = s.mSizeSem := by
  cases step_steps hs with
  | call i m hi => exact ha.elim
  | @run i instr rest _ _ hcode hs =>
    obtain ⟨hi, j, hj⟩ := ha
    rw [hcode] at hi
    cases hs with
    | waitSize hpos =>
      obtain ⟨value, hdraining⟩ := (h.place j).resolve_left fun hc => by
        rw [steady_drains hc] at hj
        exact absurd hj (by simp)
      have hji : j ≠ i := by
        rintro rfl
        have hlocked := hdraining.locked
        rw [hcode] at hlocked
        simp only [locked, Bool.not_eq_true'] at hi hlocked
        simp [hi] at hlocked
      exact ⟨j, value, hdraining.drains_iff.mp hj, hdraining, goto_code_of_ne hji _ _,
        Nat.sub_one_add_one hpos⟩
    | _ => simp at hi

end Steps

/-- For each iteration that `clear` has left as it is about to wait there is a permit. -/
def ClearIsServed {ι α : Type*} (s : State ι α) : Prop :=
  ∀ i value, 1 ≤ value → s.code i = clearLoop value [post mMutexSem] → value ≤ s.mSizeSem

section Runs

variable {ι α : Type*} [Fintype ι] [DecidableEq ι] {s s' : State ι α} {a : Act ι α}
  {e : List (Event ι α)}

omit [Fintype ι] [DecidableEq ι] in
theorem Undisturbed.served (h : Undisturbed s) : ClearIsServed s :=
  fun i value hvalue hi => (h.permits i value hvalue (.inl hi)).le

/-- After a consumer has taken a permit `clear` comes to a wait for which there is none. -/
theorem Disturbs.unserved (hinv : Inv s) (h : Undisturbed s) (ha : Disturbs s a)
    (hs : step s a = .ok (s', e)) : ∃ acts s'' h', Schedule.run step s' acts = .ok (s'', h') ∧
      ¬ClearIsServed s'' := by
  have hinv' : Inv s' := ((step_inv hinv a).of_eq hs).1
  obtain ⟨j, value, hvalue, hj, hcode, hsem⟩ := ha.elim h hs
  have hpermits := h.permits j value hvalue hj
  rcases hj with hj | hj
  · refine ⟨[], s', [], rfl, fun hserved => ?_⟩
    have hle := hserved j value hvalue (hcode.trans hj)
    omega
  · obtain ⟨item, d, hd⟩ := Deque.exists_pop .back (hinv'.length_pos (hcode.trans hj))
    have hstep : step s' (.run j) = .ok (State.goto { s' with mContainer := d } j
        (clearLoop value [post mMutexSem]), [.popped j item]) := by
      rw [step, hcode.trans hj]
      simp only [exec, hd]
    refine ⟨[.run j], _, [.popped j item], by rw [Schedule.run, hstep]; rfl, fun hserved => ?_⟩
    have hle : value ≤ s'.mSizeSem := hserved j value hvalue (Function.update_self _ _ _)
    omega

/-- In every run in which no consumer takes a permit while `clear` is in its loop there is a
permit for each iteration that `clear` has left. If a consumer does so then `clear` comes to wait
for a permit that is not there. -/
theorem run_clear_served (acts : List (Act ι α))
    (hacts : Schedule.Meets step (fun s a => ¬Disturbs s a) init acts) :
    (Schedule.run step init acts).Holds fun (s, _) => ClearIsServed s ∧
      ∀ a s' e, Disturbs s a → step s a = .ok (s', e) →
        ∃ acts' s'' h', Schedule.run step s' acts' = .ok (s'', h') ∧ ¬ClearIsServed s'' := by
  have hrun := Schedule.run_holds_of_meets (P := fun s _ => Inv s ∧ Undisturbed s)
    (fun s h a hs ha => ((step_inv hs.1 a).and fun r hr => step_undisturbed hs.1 hs.2 ha hr).mono
      fun r hr => ⟨hr.1.1, hr.2⟩)
    ⟨inv_init, fun i => .inl rfl, fun i value hvalue hi => ?_⟩ acts hacts
  · exact hrun.mono fun r hr => ⟨hr.2.served, fun a s' e ha hs => ha.unserved hr.1 hr.2 hs⟩
  · have hdrains := hi.drains_iff.mpr hvalue
    exact absurd hdrains Bool.false_ne_true

/-- An item is put, then cleared. -/
theorem run_clear_served_alone : (Schedule.run step (init : State (Fin 1) ℕ) [.call 0 (.put 7),
    .run 0, .run 0, .run 0, .run 0, .call 0 .clear, .run 0, .run 0]).Holds fun (s, _) =>
      ClearIsServed s ∧ ∀ a s' e, Disturbs s a → step s a = .ok (s', e) →
        ∃ acts' s'' h', Schedule.run step s' acts' = .ok (s'', h') ∧ ¬ClearIsServed s'' :=
  run_clear_served _ (by decide)

/-- A `get` takes the permit of the only item after `clear` has read it. -/
theorem run_clear_unserved : ¬(Schedule.run step (init : State (Fin 3) ℕ) [.call 0 (.put 7),
    .run 0, .run 0, .run 0, .run 0, .call 1 .clear, .run 1, .run 1, .call 2 .get, .run 2]).Holds
      fun (s, _) => ClearIsServed s := by
  intro h
  have hle : 1 ≤ 0 := h 1 1 le_rfl rfl
  omega

end Runs

end YlUtils.SafeContainerBySem
