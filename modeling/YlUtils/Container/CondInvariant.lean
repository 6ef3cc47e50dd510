import YlUtils.Container.SafeContainerByCond

/-! # Runs of the container with a condition

The lock admits one thread at a time to the container, no call pops from an empty
one, and what the calls do is what the container does one after the other. No
wakeup is lost if every pop removes an item.
-/

namespace YlUtils.SafeContainerByCond

open SafeContainerBySem (Method)
open Threads Cond Instr

section Places

variable {α : Type*}

inductive Place : Thread α → Prop
  | idle : Place ⟨.running, []⟩
  | beginsPush (e : End) (item : α) : Place ⟨.running, [lock, signal, push e item, unlock]⟩
  | signals (e : End) (item : α) : Place ⟨.running, [signal, push e item, unlock]⟩
  | pushes (e : End) (item : α) : Place ⟨.running, [push e item, unlock]⟩
  | beginsPop (e : End) : Place ⟨.running, [lock, waitWhileEmpty, pop e, unlock]⟩
  | waits (mode : Mode) (e : End) : Place ⟨mode, [waitWhileEmpty, pop e, unlock]⟩
  | pops (e : End) : Place ⟨.running, [pop e, unlock]⟩
  | beginsClear : Place ⟨.running, [lock, clear, unlock]⟩
  | clears : Place ⟨.running, [clear, unlock]⟩
  | unlocks : Place ⟨.running, [unlock]⟩

theorem place_code (C : Container α) (m : Method α) : Place ⟨.running, code C m⟩ := by
  cases m with
  | put item | pushBack item | pushFront item => exact .beginsPush _ item
  | get | popBack | popFront => exact .beginsPop _
  | clear => exact .beginsClear

/-- The thread holds the lock. -/
def Thread.inside : Thread α → Bool
  | ⟨.running, []⟩ => false
  | ⟨.running, lock :: _⟩ => false
  | ⟨.running, _ :: _⟩ => true
  | _ => false

/-- The thread was woken by a signal or has the lock, and is going to look at the container or to
pop. -/
def Thread.isSignalled : Thread α → Bool
  | ⟨.signalled, _⟩ => true
  | ⟨.running, waitWhileEmpty :: _⟩ => true
  | ⟨.running, pop _ :: _⟩ => true
  | _ => false

def Thread.isPushing : Thread α → Bool
  | ⟨.running, push _ _ :: _⟩ => true
  | _ => false

theorem wake_of_asleep {t : Thread α} (h : t.isAsleep = true) : t.wake = ⟨.signalled, t.code⟩ := by
  rw [Thread.isAsleep, decide_eq_true_eq] at h
  rw [Thread.wake, if_pos h]

theorem wake_spec (t : Thread α) (h : t.isAsleep = true) :
    t.wake.isAsleep = false ∧ t.wake.isSignalled = true := by
  rw [wake_of_asleep h]
  exact ⟨rfl, rfl⟩

theorem marks_of_asleep (t : Thread α) (h : t.isAsleep = true) :
    t.inside = false ∧ t.isSignalled = false ∧ t.isPushing = false := by
  obtain ⟨mode, code⟩ := t
  rw [Thread.isAsleep, decide_eq_true_eq] at h
  dsimp only at h
  subst h
  exact ⟨rfl, rfl, rfl⟩

theorem marks_wake (t : Thread α) (h : t.isAsleep = true) :
    t.wake.inside = t.inside ∧ t.wake.isPushing = t.isPushing := by
  obtain ⟨hinside, -, hpushing⟩ := marks_of_asleep t h
  rw [wake_of_asleep h, hinside, hpushing]
  exact ⟨rfl, rfl⟩

end Places

section Invariant

variable {ι α : Type*} [Fintype ι] [DecidableEq ι]

/-- One thread at a time is at the container, and none pops from an empty one. -/
structure Inv (s : State ι α) : Prop where
  place : ∀ i, Place (s.thread i)
  owner : ∀ i, s.owner = some i ↔ (s.thread i).inside = true
  nonempty : ∀ i e rest, s.thread i = ⟨.running, pop e :: rest⟩ → s.mContainer ≠ []

/-- While a thread sleeps, every item that is there or about to be pushed is one for a thread that
is not asleep. -/
def NoLostWakeup (s : State ι α) : Prop :=
  Covered Thread.isAsleep Thread.isSignalled s.thread
    (s.mContainer.length + count Thread.isPushing s.thread) 0

variable {C : Container α} {s : State ι α} {i : ι} {t : Thread α} {d : List α} {o : Option ι}
  {rest : Code α} {instr : Instr α} {wakes : Option ι}

omit [Fintype ι] in
/-- One thread moves; the container is not changed unless by the holder of the lock. -/
theorem Inv.move (h : Inv s) (ht : Place t) (hin : o = some i ↔ t.inside = true)
    (hothers : ∀ j, j ≠ i → (o = some j ↔ s.owner = some j))
    (hd : s.owner = some i ∨ d = s.mContainer)
    (hpop : ∀ e rest, t = ⟨.running, pop e :: rest⟩ → d ≠ []) :
    Inv ⟨d, o, Function.update s.thread i t⟩ := by
  refine ⟨fun j => ?_, fun j => ?_, fun j e rest hj => ?_⟩
  all_goals
    dsimp only at *
    by_cases hji : j = i
  · subst hji
    rwa [Function.update_self]
  · rw [Function.update_of_ne hji]
    exact h.place j
  · subst hji
    rwa [Function.update_self]
  · rw [Function.update_of_ne hji]
    exact (hothers j hji).trans (h.owner j)
  · subst hji
    rw [Function.update_self] at hj
    exact hpop e rest hj
  · rw [Function.update_of_ne hji] at hj
    have howner : s.owner = some j := (h.owner j).mpr (by rw [hj]; rfl)
    rcases hd with hd | rfl
    · exact absurd (Option.some.inj (howner.symm.trans hd)) hji
    · exact h.nonempty j e rest hj

theorem Inv.signal {g : ι → Thread α} (h : Inv s)
    (hg : Cond.signal Thread.isAsleep Thread.wake s.thread wakes = some g) :
    Inv { s with thread := g } ∧ ∀ j, (s.thread j).isAsleep = false → g j = s.thread j := by
  cases wakes with
  | none =>
    rw [Cond.signal] at hg
    split at hg
    · obtain rfl := Option.some.inj hg
      exact ⟨h, fun _ _ => rfl⟩
    · cases hg
  | some k =>
    rw [Cond.signal] at hg
    split at hg
    · rename_i hk
      obtain rfl := Option.some.inj hg
      refine ⟨h.move ?_ ?_ (fun _ _ => Iff.rfl) (.inr rfl) fun e rest he => ?_, fun j hj => ?_⟩
      · have hplace := h.place k
        rw [wake_of_asleep hk]
        generalize s.thread k = t at hk hplace
        cases hplace <;> first | exact .waits _ _ | cases hk
      · rw [(marks_wake _ hk).1]
        exact h.owner k
      · rw [wake_of_asleep hk] at he
        cases he
      · refine Function.update_of_ne (fun hjk => ?_) _ _
        rw [hjk, hk] at hj
        cases hj
    · cases hg

theorem NoLostWakeup.move (h : NoLostWakeup s)
    (hasleep : t.isAsleep = true → (s.thread i).isAsleep = true)
    (hle : d.length + t.isPushing.toNat + (s.thread i).isSignalled.toNat ≤
      s.mContainer.length + (s.thread i).isPushing.toNat + t.isSignalled.toNat) :
    NoLostWakeup ⟨d, o, Function.update s.thread i t⟩ := by
  have hcount := count_update Thread.isPushing s.thread i t
  refine Covered.update h hasleep ?_
  dsimp only
  omega

omit [Fintype ι] in
theorem Inv.takesLock (h : Inv s) (howner : s.owner = none) (ht : Place t) (hin : t.inside = true)
    (hpop : ∀ e rest, t ≠ ⟨.running, pop e :: rest⟩) :
    Inv ({ s with owner := some i }.goto i t) := by
  refine h.move ht (iff_of_true rfl hin) (fun j hj => ?_) (.inr rfl) fun e rest he =>
    absurd he (hpop e rest)
  rw [howner]
  exact iff_of_false (fun he => hj (Option.some.inj he).symm) (by simp)

omit [Fintype ι] in
theorem Inv.givesLock (h : Inv s) (howner : s.owner = some i) (ht : Place t)
    (hin : t.inside = false) : Inv ({ s with owner := none }.goto i t) := by
  refine h.move ht (iff_of_false (by simp) (by simp [hin])) (fun j hj => ?_) (.inr rfl)
    fun e rest he => ?_
  · rw [howner]
    exact iff_of_false (by simp) fun he => hj (Option.some.inj he).symm
  · rw [he] at hin
    cases hin

omit [Fintype ι] in
theorem Inv.goesOn (h : Inv s) (howner : s.owner = some i) (ht : Place t) (hin : t.inside = true)
    (hpop : ∀ e rest, t = ⟨.running, pop e :: rest⟩ → d ≠ []) :
    Inv ({ s with mContainer := d }.goto i t) :=
  h.move ht (iff_of_true howner hin) (fun _ _ => Iff.rfl) (.inl howner) hpop

theorem exec_inv (hC : ∀ e d, d ≠ [] → (C.pop e d).isSome) (h : Inv s)
    (hi : s.thread i = ⟨.running, instr :: rest⟩) :
    (exec C s i wakes rest instr).Holds fun (s', e) =>
      Inv s' ∧ Replays C e s.mContainer s'.mContainer := by
  have hplace := h.place i
  have howner := h.owner i
  rw [hi] at hplace howner
  cases hplace with
  | beginsPush e item =>
    by_cases hlock : s.owner = none
    · rw [exec, if_pos hlock]
      exact ⟨h.takesLock hlock (.signals e item) rfl (by simp), rfl⟩
    · rw [exec, if_neg hlock]
      trivial
  | signals e item =>
    have howner := howner.mpr rfl
    rw [exec]
    cases hg : Cond.signal Thread.isAsleep Thread.wake s.thread wakes with
    | none => trivial
    | some g => exact ⟨(h.signal hg).1.goesOn howner (.pushes e item) rfl (by simp), rfl⟩
  | pushes e item => exact ⟨h.goesOn (howner.mpr rfl) .unlocks rfl (by simp), rfl⟩
  | beginsPop e =>
    by_cases hlock : s.owner = none
    · rw [exec, if_pos hlock]
      exact ⟨h.takesLock hlock (.waits .running e) rfl (by simp), rfl⟩
    · rw [exec, if_neg hlock]
      trivial
  | waits mode e =>
    have howner := howner.mpr rfl
    rw [exec]
    split
    · exact ⟨h.givesLock howner (.waits .asleep e) rfl, rfl⟩
    · rename_i hempty
      refine ⟨h.goesOn howner (.pops e) rfl fun _ _ _ hnil => hempty ?_, rfl⟩
      rw [hnil]
      rfl
  | pops e =>
    obtain ⟨r, hr⟩ := Option.isSome_iff_exists.mp (hC e _ (h.nonempty i e _ hi))
    rw [exec, hr]
    exact ⟨h.goesOn (howner.mpr rfl) .unlocks rfl (by simp), r.2, hr, rfl⟩
  | beginsClear =>
    by_cases hlock : s.owner = none
    · rw [exec, if_pos hlock]
      exact ⟨h.takesLock hlock .clears rfl (by simp), rfl⟩
    · rw [exec, if_neg hlock]
      trivial
  | clears => exact ⟨h.goesOn (howner.mpr rfl) .unlocks rfl (by simp), rfl⟩
  | unlocks => exact ⟨h.givesLock (howner.mpr rfl) .idle rfl, rfl⟩

omit [Fintype ι] [DecidableEq ι] in
theorem not_isPushing_of_owner (h : Inv s) (howner : s.owner = some i) {j : ι} (hj : j ≠ i) :
    (s.thread j).isPushing = false := by
  have hinside : (s.thread j).inside = false := by
    rw [Bool.eq_false_iff]
    intro hin
    exact hj (Option.some.inj (((h.owner j).mpr hin).symm.trans howner))
  have hplace := h.place j
  generalize s.thread j = t at hinside hplace
  cases hplace with
  | pushes e item => cases hinside
  | waits mode e => cases mode <;> rfl
  | _ => rfl

/-- A step under the lock loses no wakeup, if a push adds one item at most and a pop removes one. -/
theorem exec_noLostWakeup (hC : ∀ e d, d ≠ [] → (C.pop e d).isSome)
    (hpush : ∀ e item d, (C.push e item d).length ≤ d.length + 1)
    (hpop : ∀ e d r, instr = pop e → C.pop e d = some r → r.2.length + 1 ≤ d.length)
    (h : Inv s) (hw : NoLostWakeup s) (hi : s.thread i = ⟨.running, instr :: rest⟩) :
    (exec C s i wakes rest instr).Holds fun (s', _) => NoLostWakeup s' := by
  have hplace := h.place i
  have howner := h.owner i
  rw [hi] at hplace howner
  cases hplace with
  | beginsPush e item =>
    by_cases hlock : s.owner = none
    · rw [exec, if_pos hlock]
      refine hw.move (by simp [Thread.isAsleep]) ?_
      rw [hi]
      exact Nat.le_refl _
    · rw [exec, if_neg hlock]
      trivial
  | signals e item =>
    rw [exec]
    cases hg : Cond.signal Thread.isAsleep Thread.wake s.thread wakes with
    | none => trivial
    | some g =>
      obtain ⟨-, hsame⟩ := h.signal hg
      have hcovered := (Covered.add hw).signal hg wake_spec fun t ht => (marks_of_asleep t ht).2.1
      have hcount := count_signal hg fun t ht => (marks_wake t ht).2
      have hupdate := count_update Thread.isPushing g i ⟨.running, [push e item, unlock]⟩
      have hgi : g i = ⟨.running, [signal, push e item, unlock]⟩ :=
        (hsame i (by rw [hi]; rfl)).trans hi
      rw [hgi] at hupdate
      simp only [Thread.isPushing, Bool.toNat_true, Bool.toNat_false] at hupdate
      refine Covered.update hcovered (by simp [Thread.isAsleep]) ?_
      dsimp only [State.goto]
      rw [hgi]
      simp only [Thread.isSignalled, Bool.toNat_false]
      omega
  | pushes e item =>
    refine hw.move (by simp [Thread.isAsleep]) ?_
    rw [hi]
    have := hpush e item s.mContainer
    simp only [Thread.isPushing, Thread.isSignalled, Bool.toNat_true, Bool.toNat_false]
    omega
  | beginsPop e =>
    by_cases hlock : s.owner = none
    · rw [exec, if_pos hlock]
      refine hw.move (by simp [Thread.isAsleep]) ?_
      rw [hi]
      simp only [Thread.isPushing, Thread.isSignalled, Bool.toNat_true, Bool.toNat_false]
      omega
    · rw [exec, if_neg hlock]
      trivial
  | waits mode e =>
    rw [exec]
    split
    · rename_i hempty
      have hpushing : count Thread.isPushing
          (Function.update s.thread i ⟨.asleep, [waitWhileEmpty, pop e, unlock]⟩) = 0 := by
        refine count_eq_zero fun j => ?_
        by_cases hji : j = i
        · rw [hji, Function.update_self]
          rfl
        · rw [Function.update_of_ne hji]
          exact not_isPushing_of_owner h (howner.mpr rfl) hji
      dsimp only [Outcome.Holds, NoLostWakeup, State.goto]
      rw [hpushing, List.isEmpty_iff.mp hempty]
      exact covered_zero
    · refine hw.move (by simp [Thread.isAsleep]) ?_
      rw [hi]
      exact Nat.le_refl _
  | pops e =>
    rw [exec]
    cases hr : C.pop e s.mContainer with
    | none =>
      have hsome := hC e _ (h.nonempty i e _ hi)
      rw [hr] at hsome
      cases hsome
    | some r =>
      have hlen := hpop e _ r rfl hr
      refine hw.move (by simp [Thread.isAsleep]) ?_
      rw [hi]
      simp only [Thread.isPushing, Thread.isSignalled, Bool.toNat_true, Bool.toNat_false]
      omega
  | beginsClear =>
    by_cases hlock : s.owner = none
    · rw [exec, if_pos hlock]
      refine hw.move (by simp [Thread.isAsleep]) ?_
      rw [hi]
      exact Nat.le_refl _
    · rw [exec, if_neg hlock]
      trivial
  | clears =>
    refine hw.move (by simp [Thread.isAsleep]) ?_
    rw [hi]
    simp only [Thread.isPushing, Thread.isSignalled, Bool.toNat_false, List.length_nil]
    omega
  | unlocks =>
    refine hw.move (by simp [Thread.isAsleep]) ?_
    rw [hi]
    exact Nat.le_refl _

theorem retake_spec (h : Inv s) {e : End}
    (hi : (s.thread i).code = [waitWhileEmpty, pop e, unlock]) :
    (retake s i).Holds fun (s', e) => (Inv s' ∧ Replays C e s.mContainer s'.mContainer) ∧
      (NoLostWakeup s → NoLostWakeup s') ∧ ∀ j, (s'.thread j).code = (s.thread j).code := by
  unfold retake
  split
  · rename_i hlock
    rw [hi]
    refine ⟨⟨h.takesLock hlock (.waits .running e) rfl (by simp), rfl⟩, fun hw => ?_, fun j => ?_⟩
    · refine hw.move (by simp [Thread.isAsleep]) ?_
      have hle := Bool.toNat_le (s.thread i).isSignalled
      simp only [Thread.isPushing, Thread.isSignalled, Bool.toNat_true, Bool.toNat_false] at hle ⊢
      omega
    · dsimp only [State.goto]
      by_cases hji : j = i
      · rw [hji, Function.update_self, hi]
      · rw [Function.update_of_ne hji]
  · trivial

omit [Fintype ι] [DecidableEq ι] in
theorem code_of_woken (h : Inv s) {mode : Mode} {code : Code α}
    (hi : s.thread i = ⟨mode, code⟩) (hmode : mode ≠ .running) :
    ∃ e, (s.thread i).code = [waitWhileEmpty, pop e, unlock] := by
  have hplace := h.place i
  rw [hi] at hplace ⊢
  cases hplace with
  | waits mode e => exact ⟨e, rfl⟩
  | _ => exact absurd rfl hmode

theorem step_inv (hC : ∀ e d, d ≠ [] → (C.pop e d).isSome) (h : Inv s) (a : Act ι α) :
    (step C s a).Holds fun (s', e) => Inv s' ∧ Replays C e s.mContainer s'.mContainer := by
  cases a with
  | call i m =>
    rw [step]
    split
    · rename_i hi
      have howner := h.owner i
      rw [hi] at howner
      have hinside : (Thread.mk .running (code C m)).inside = false := by cases m <;> rfl
      refine ⟨h.move (place_code C m) (howner.trans ?_) (fun _ _ => Iff.rfl) (.inr rfl)
        fun e rest he => ?_, rfl⟩
      · rw [hinside]
        exact Iff.rfl
      · rw [he] at hinside
        cases hinside
    · trivial
  | run i wakes =>
    rw [step]
    split
    · trivial
    · rename_i hi
      exact exec_inv hC h hi
    · trivial
    · rename_i hi
      obtain ⟨e, he⟩ := code_of_woken h hi (by simp)
      exact (retake_spec h he).mono fun _ hr => hr.1
    · rename_i hi
      obtain ⟨e, he⟩ := code_of_woken h hi (by simp)
      exact (retake_spec h he).mono fun _ hr => hr.1
  | wake i =>
    rw [step]
    split
    · rename_i hi
      have hplace := h.place i
      have howner := h.owner i
      rw [hi] at hplace howner
      cases hplace with
      | waits mode e =>
        refine ⟨h.move (.waits .awoken e) howner (fun _ _ => Iff.rfl) (.inr rfl) ?_, rfl⟩
        simp
    · trivial

def Thread.PopsAt (p : End → Prop) (t : Thread α) : Prop := ∀ e, pop e ∈ t.code → p e

/-- The act calls no method that pops at another end. -/
def Act.PopsAt (C : Container α) (p : End → Prop) : Act ι α → Prop
  | .call _ m => ∀ e, pop e ∈ code C m → p e
  | _ => True

theorem exec_code {s' : State ι α} {e : List (Event ι α)}
    (hi : s.thread i = ⟨.running, instr :: rest⟩)
    (hs : exec C s i wakes rest instr = .ok (s', e)) (j : ι) :
    ∀ x ∈ (s'.thread j).code, x ∈ (s.thread j).code := by
  -- The threads other than `i` keep their code, and `i` has the rest of it or all of it.
  have hmove : ∀ (g : ι → Thread α) (t : Thread α), (g j).code = (s.thread j).code →
      (∀ x ∈ t.code, x ∈ instr :: rest) →
        ∀ x ∈ (Function.update g i t j).code, x ∈ (s.thread j).code := by
    intro g t hg ht x hx
    by_cases hji : j = i
    · subst hji
      rw [Function.update_self] at hx
      rw [hi]
      exact ht x hx
    · rw [Function.update_of_ne hji, hg] at hx
      exact hx
  have hrest : ∀ x ∈ rest, x ∈ instr :: rest := fun x => List.mem_cons_of_mem instr
  cases instr with
  | lock =>
    rw [exec] at hs
    split at hs
    · cases hs
      exact hmove _ _ rfl hrest
    · cases hs
  | signal =>
    rw [exec] at hs
    split at hs
    · cases hs
    · rename_i g hg
      cases hs
      refine hmove _ _ ?_ hrest
      exact apply_signal hg (fun t ht => by rw [wake_of_asleep ht]) j
  | waitWhileEmpty =>
    rw [exec] at hs
    split at hs
    · cases hs
      exact hmove _ _ rfl fun x hx => hx
    · cases hs
      exact hmove _ _ rfl hrest
  | pop e =>
    rw [exec] at hs
    split at hs
    · cases hs
    · cases hs
      exact hmove _ _ rfl hrest
  | push | clear | unlock =>
    cases hs
    exact hmove _ _ rfl hrest

theorem step_noLostWakeup {p : End → Prop} (hC : ∀ e d, d ≠ [] → (C.pop e d).isSome)
    (hpush : ∀ e item d, (C.push e item d).length ≤ d.length + 1)
    (hpop : ∀ e d r, p e → C.pop e d = some r → r.2.length + 1 ≤ d.length) (h : Inv s)
    (hw : NoLostWakeup s ∧ ∀ i, (s.thread i).PopsAt p) {a : Act ι α} (ha : a.PopsAt C p) :
    (step C s a).Holds fun (s', _) => NoLostWakeup s' ∧ ∀ i, (s'.thread i).PopsAt p := by
  have hmove : ∀ (i : ι) (t : Thread α), t.PopsAt p →
      ∀ j, (Function.update s.thread i t j).PopsAt p := by
    intro i t ht j
    by_cases hji : j = i
    · rw [hji, Function.update_self]
      exact ht
    · rw [Function.update_of_ne hji]
      exact hw.2 j
  have hretake : ∀ i e, (s.thread i).code = [waitWhileEmpty, pop e, unlock] →
      (retake s i).Holds fun (s', _) => NoLostWakeup s' ∧ ∀ i, (s'.thread i).PopsAt p :=
    fun i e he => (retake_spec (C := C) h he).mono fun r hr =>
      ⟨hr.2.1 hw.1, fun j e he => hw.2 j e (hr.2.2 j ▸ he)⟩
  cases a with
  | call i m =>
    rw [step]
    split
    · rename_i hi
      refine ⟨hw.1.move (by simp [Thread.isAsleep]) ?_, hmove _ _ ha⟩
      rw [hi]
      cases m <;> exact Nat.le_refl _
    · trivial
  | run i wakes =>
    rw [step]
    split
    · trivial
    · rename_i instr rest hi
      have hpops : ∀ e d r, instr = pop e → C.pop e d = some r → r.2.length + 1 ≤ d.length :=
        fun e d r he => hpop e d r (hw.2 i e (by rw [hi, he]; exact List.mem_cons_self))
      have hwakes : (exec C s i wakes rest instr).Holds fun r => NoLostWakeup r.1 :=
        exec_noLostWakeup hC hpush hpops h hw.1 hi
      exact hwakes.and fun r hr j e he => hw.2 j e (exec_code hi hr j _ he)
    · trivial
    · rename_i hi
      obtain ⟨e, he⟩ := code_of_woken h hi (by simp)
      exact hretake i e he
    · rename_i hi
      obtain ⟨e, he⟩ := code_of_woken h hi (by simp)
      exact hretake i e he
  | wake i =>
    rw [step]
    split
    · rename_i hi
      refine ⟨hw.1.move (by simp [Thread.isAsleep]) ?_, hmove _ _ ?_⟩
      · rw [hi]
        exact Nat.le_refl _
      · have hpops := hw.2 i
        rw [hi] at hpops
        exact hpops
    · trivial

theorem exists_signal (f : ι → Thread α) :
    ∃ wakes g, Cond.signal Thread.isAsleep Thread.wake f wakes = some g := by
  by_cases hf : ∃ k, (f k).isAsleep = true
  · obtain ⟨k, hk⟩ := hf
    exact ⟨some k, _, by rw [Cond.signal, if_pos hk]⟩
  · have hawake : ∀ k, (f k).isAsleep = false := fun k => Bool.eq_false_iff.mpr fun hk => hf ⟨k, hk⟩
    exact ⟨none, _, by rw [Cond.signal, if_pos hawake]⟩

theorem exists_run_of_inside (hC : ∀ e d, d ≠ [] → (C.pop e d).isSome) (h : Inv s)
    (hi : (s.thread i).inside = true) : ∃ wakes, step C s (.run i wakes) ≠ .blocked := by
  have hplace := h.place i
  cases ht : s.thread i with
  | mk mode code =>
    rw [ht] at hplace hi
    cases hplace with
    | signals e item =>
      obtain ⟨wakes, g, hg⟩ := exists_signal s.thread
      exact ⟨wakes, by simp [step, ht, exec, hg]⟩
    | waits mode e =>
      cases mode with
      | running =>
        refine ⟨none, ?_⟩
        simp only [step, ht, exec]
        split <;> simp
      | _ => cases hi
    | pops e =>
      obtain ⟨r, hr⟩ := Option.isSome_iff_exists.mp (hC e _ (h.nonempty i e _ ht))
      exact ⟨none, by simp [step, ht, exec, hr]⟩
    | pushes | clears | unlocks => exact ⟨none, by simp [step, ht, exec]⟩
    | _ => cases hi

/-- If no thread can go on, each of them is at rest or asleep, and it sleeps at an empty
container. -/
theorem asleep_of_stuck (hC : ∀ e d, d ≠ [] → (C.pop e d).isSome) (h : Inv s) (hw : NoLostWakeup s)
    (hstuck : ∀ i wakes, step C s (.run i wakes) = .blocked) (i : ι) :
    (s.thread i).code = [] ∨ (s.thread i).isAsleep = true ∧ s.mContainer = [] := by
  have hinside : ∀ j, (s.thread j).inside = false := fun j => Bool.eq_false_iff.mpr fun hj => by
    obtain ⟨wakes, hrun⟩ := exists_run_of_inside hC h hj
    exact hrun (hstuck j wakes)
  have hlock : s.owner = none := by
    cases howner : s.owner with
    | none => rfl
    | some j =>
      have hj := (h.owner j).mp howner
      rw [hinside j] at hj
      cases hj
  have hrest : ∀ j, (s.thread j).code = [] ∨ (s.thread j).isAsleep = true := by
    intro j
    have hplace := h.place j
    have hj := hstuck j none
    have hin := hinside j
    cases ht : s.thread j with
    | mk mode code =>
      rw [ht] at hplace hin
      cases hplace with
      | idle => exact .inl rfl
      | waits mode e =>
        cases mode with
        | asleep => exact .inr rfl
        | running => cases hin
        | _ => simp [step, ht, retake, hlock] at hj
      | beginsPush | beginsPop | beginsClear => simp [step, ht, exec, hlock] at hj
      | _ => cases hin
  refine (hrest i).imp id fun hi => ⟨hi, ?_⟩
  have hsignalled : count Thread.isSignalled s.thread = 0 := by
    refine count_eq_zero fun j => ?_
    have hplace := h.place j
    have hin := hinside j
    have hj := hrest j
    generalize s.thread j = t at hplace hin hj
    cases hplace with
    | waits mode e =>
      cases mode with
      | asleep => rfl
      | _ => rcases hj with hj | hj <;> cases hj
    | pops e => cases hin
    | _ => rfl
  have hle := hw ⟨i, hi⟩
  exact List.eq_nil_of_length_eq_zero (by omega)

end Invariant

section Runs

variable {ι α : Type*} [Fintype ι] [DecidableEq ι] {C : Container α}

omit [Fintype ι] [DecidableEq ι] in
theorem Replays.append {h h' : List (Event ι α)} {d d' d'' : List α} (hd : Replays C h d d')
    (hd' : Replays C h' d' d'') : Replays C (h ++ h') d d'' := by
  induction h generalizing d with
  | nil =>
    obtain rfl : d = d' := hd
    exact hd'
  | cons e h ih =>
    cases e with
    | pushed i e item => exact ih hd
    | popped i e item =>
      obtain ⟨d₁, hpop, hd⟩ := hd
      exact ⟨d₁, hpop, ih hd⟩
    | cleared i => exact ih hd

omit [Fintype ι] [DecidableEq ι] in
theorem inv_init : Inv (init : State ι α) :=
  ⟨fun _ => .idle, fun _ => iff_of_false (by simp [init]) (by simp [init, Thread.inside]),
    fun _ _ _ h => by cases h⟩

theorem run_inv (hC : ∀ e d, d ≠ [] → (C.pop e d).isSome) (acts : List (Act ι α)) :
    (Schedule.run (step C) init acts).Holds fun (s, h) => Inv s ∧ Replays C h [] s.mContainer := by
  refine Schedule.run_holds (P := fun s h => Inv s ∧ Replays C h [] s.mContainer)
    (fun s h a hs => ?_) ⟨inv_init, rfl⟩ acts
  exact (step_inv hC hs.1 a).mono fun r hr => ⟨hr.1, hs.2.append hr.2⟩

theorem run_noLostWakeup {p : End → Prop} (hC : ∀ e d, d ≠ [] → (C.pop e d).isSome)
    (hpush : ∀ e item d, (C.push e item d).length ≤ d.length + 1)
    (hpop : ∀ e d r, p e → C.pop e d = some r → r.2.length + 1 ≤ d.length) (acts : List (Act ι α))
    (ha : ∀ a ∈ acts, a.PopsAt C p) :
    (Schedule.run (step C) init acts).Holds fun (s, _) => Inv s ∧ NoLostWakeup s := by
  have hrun : (Schedule.run (step C) init acts).Holds fun (s, _) =>
      Inv s ∧ NoLostWakeup s ∧ ∀ i, (s.thread i).PopsAt p := by
    refine Schedule.run_holds_of_meets
      (P := fun s _ => Inv s ∧ NoLostWakeup s ∧ ∀ i, (s.thread i).PopsAt p)
      (C := fun _ a => a.PopsAt C p) (fun s h a hs ha => ?_)
      ⟨inv_init, covered_of_awake fun _ => rfl, fun _ _ he => by cases he⟩ acts
      (Schedule.meets_of_forall ha)
    have hinv := step_inv hC hs.1 a
    have hwakes := step_noLostWakeup hC hpush hpop hs.1 hs.2 ha
    exact (hinv.and fun r hr => hwakes.of_eq hr).mono fun r hr => ⟨hr.1.1, hr.2⟩
  exact hrun.mono fun r hr => ⟨hr.1, hr.2.1⟩

omit [Fintype ι] [DecidableEq ι] in
theorem isSome_deque_pop {e : End} {d : List α} (hd : d ≠ []) : ((deque α).pop e d).isSome := by
  obtain ⟨item, d', hpop⟩ := Deque.exists_pop e (List.length_pos_of_ne_nil hd)
  simp [deque, hpop]

omit [Fintype ι] [DecidableEq ι] in
theorem isSome_vector_pop {e : End} {d : List α} (hd : d ≠ []) : ((vector α).pop e d).isSome := by
  cases e with
  | front => rfl
  | back => exact isSome_deque_pop hd

omit [Fintype ι] [DecidableEq ι] in
theorem length_deque_pop {e : End} {d : List α} {r : Option α × List α}
    (hpop : (deque α).pop e d = some r) : r.2.length + 1 ≤ d.length := by
  obtain ⟨r, hr, rfl⟩ := Option.map_eq_some_iff.mp hpop
  exact Nat.le_of_eq (Deque.pop_perm hr).length_eq.symm

/-- In every run of a `SafeDequeByCond` no call pops from an empty deque, one thread at a time holds
the lock, and the deque is what the pushes, pops and clears make of it one after the other. While a
call is asleep there are at most as many items as calls that are not asleep and are going to look
for one. If no call can go on, each of them is asleep at an empty deque. -/
theorem deque_run_safe (acts : List (Act ι α)) :
    (Schedule.run (step (deque α)) init acts).Holds fun (s, h) =>
      (∀ i j, (s.thread i).inside = true → (s.thread j).inside = true → i = j) ∧
      Replays (deque α) h [] s.mContainer ∧
      ((∃ i, (s.thread i).isAsleep = true) →
        s.mContainer.length ≤ count Thread.isSignalled s.thread) ∧
      ((∀ i wakes, step (deque α) s (.run i wakes) = .blocked) →
        ∀ i, (s.thread i).code = [] ∨ (s.thread i).isAsleep = true ∧ s.mContainer = []) := by
  have hC : ∀ e d, d ≠ [] → ((deque α).pop e d).isSome := fun e d => isSome_deque_pop
  have hwakes := run_noLostWakeup (p := fun _ => True) hC
    (fun e item d => Nat.le_of_eq (Deque.length_push e item d)) (fun e d r _ => length_deque_pop)
    acts fun a _ => by cases a <;> first | exact fun _ _ => trivial | trivial
  refine ((run_inv hC acts).and fun r hr => hwakes.of_eq hr).mono fun r hr => ?_
  obtain ⟨⟨hinv, hreplays⟩, -, hw⟩ := hr
  refine ⟨fun i j hi hj => ?_, hreplays, fun hi => ?_, asleep_of_stuck hC hinv hw⟩
  · exact Option.some.inj (((hinv.owner i).mpr hi).symm.trans ((hinv.owner j).mpr hj))
  · have hle := hw hi
    omega

/-- A `SafeVectorByCond` does so too, if `pop_front` is not called; of its other methods
`push_front` does not do what it says. -/
theorem vector_run_safe (acts : List (Act ι α)) :
    (Schedule.run (step (vector α)) init acts).Holds fun (s, h) =>
      (∀ i j, (s.thread i).inside = true → (s.thread j).inside = true → i = j) ∧
      Replays (vector α) h [] s.mContainer ∧
      ((∀ i, .call i .popFront ∉ acts) →
        ((∃ i, (s.thread i).isAsleep = true) →
          s.mContainer.length ≤ count Thread.isSignalled s.thread) ∧
        ((∀ i wakes, step (vector α) s (.run i wakes) = .blocked) →
          ∀ i, (s.thread i).code = [] ∨ (s.thread i).isAsleep = true ∧ s.mContainer = [])) := by
  have hC : ∀ e d, d ≠ [] → ((vector α).pop e d).isSome := fun e d => isSome_vector_pop
  have hpush : ∀ e item d, ((vector α).push e item d).length ≤ d.length + 1 := by
    rintro (_ | _) item d
    · exact Nat.le_succ _
    · exact Nat.le_of_eq (Deque.length_push .back item d)
  have hpop : ∀ e d r, e = .back → (vector α).pop e d = some r → r.2.length + 1 ≤ d.length := by
    rintro e d r rfl hr
    exact length_deque_pop hr
  have hback : (∀ i, .call i .popFront ∉ acts) →
      ∀ a ∈ acts, a.PopsAt (vector α) fun e => e = .back := by
    intro hacts a ha
    cases a with
    | call i m =>
      intro e he
      cases m with
      | popFront => exact absurd ha (hacts i)
      | get | popBack => simpa [code, pops, vector] using he
      | put | pushBack | pushFront | clear => simp [code, pushes] at he
    | run i wakes => trivial
    | wake i => trivial
  have hwakes := fun hacts => run_noLostWakeup hC hpush hpop acts (hback hacts)
  refine ((run_inv hC acts).and fun r hr hacts => (hwakes hacts).of_eq hr).mono fun r hr => ?_
  obtain ⟨⟨hinv, hreplays⟩, hw⟩ := hr
  refine ⟨fun i j hi hj => ?_, hreplays, fun hacts => ⟨fun hi => ?_,
    asleep_of_stuck hC hinv (hw hacts).2⟩⟩
  · exact Option.some.inj (((hinv.owner i).mpr hi).symm.trans ((hinv.owner j).mpr hj))
  · have hle := (hw hacts).2 hi
    omega

end Runs

end YlUtils.SafeContainerByCond
