import Mathlib.Data.List.Basic

/-! # Runs of a concurrent system

A system takes one atomic step after the other, in any order. A step may have to
wait, may have no defined meaning, or leads to a state and reports events. What
every step preserves holds after every run.
-/

namespace YlUtils

/-- What a step comes to. -/
inductive Outcome (α : Type*)
  | blocked
  | undefined
  | ok (a : α)
  deriving DecidableEq

namespace Outcome

variable {α β : Type*} {o : Outcome α} {a : α} {P Q : α → Prop}

def bind (o : Outcome α) (f : α → Outcome β) : Outcome β :=
  match o with
  | blocked => blocked
  | undefined => undefined
  | ok a => f a

/-- What the step comes to is defined, and satisfies `P` if it does not have to wait. -/
def Holds (o : Outcome α) (P : α → Prop) : Prop :=
  match o with
  | blocked => True
  | undefined => False
  | ok a => P a

instance [DecidablePred P] : Decidable (o.Holds P) :=
  match o with
  | blocked => inferInstanceAs (Decidable True)
  | undefined => inferInstanceAs (Decidable False)
  | ok a => inferInstanceAs (Decidable (P a))

@[simp] theorem holds_blocked : (blocked : Outcome α).Holds P := trivial

@[simp] theorem not_holds_undefined : ¬(undefined : Outcome α).Holds P := id

@[simp] theorem holds_ok : (ok a).Holds P ↔ P a := Iff.rfl

theorem Holds.mono (h : o.Holds P) (hPQ : ∀ a, P a → Q a) : o.Holds Q := by
  cases o with
  | blocked => trivial
  | undefined => exact h
  | ok a => exact hPQ a h

theorem Holds.of_eq (h : o.Holds P) (ho : o = ok a) : P a := by
  rwa [ho] at h

theorem Holds.and (h : o.Holds P) (hQ : ∀ a, o = ok a → Q a) : o.Holds fun a => P a ∧ Q a := by
  cases o with
  | blocked => trivial
  | undefined => exact h
  | ok a => exact ⟨h, hQ a rfl⟩

end Outcome

namespace Schedule

variable {σ α ε : Type*} (step : σ → α → Outcome (σ × List ε)) (C : σ → α → Prop)

def run (s : σ) : List α → Outcome (σ × List ε)
  | [] => .ok (s, [])
  | a :: as => (step s a).bind fun (s', e) => (run s' as).bind fun (s'', h) => .ok (s'', e ++ h)

/-- Every step of the run meets the condition `C` on the state it is taken in. -/
def Meets (s : σ) : List α → Prop
  | [] => True
  | a :: as => C s a ∧ match step s a with
    | .ok (s', _) => Meets s' as
    | _ => True

instance decidableMeets [∀ s, DecidablePred (C s)] (s : σ) (as : List α) :
    Decidable (Meets step C s as) :=
  match as with
  | [] => inferInstanceAs (Decidable True)
  | a :: as =>
    have : Decidable (match step s a with
        | .ok (s', _) => Meets step C s' as
        | _ => True) :=
      match step s a with
      | .ok (s', _) => decidableMeets s' as
      | .blocked => inferInstanceAs (Decidable True)
      | .undefined => inferInstanceAs (Decidable True)
    inferInstanceAs (Decidable (_ ∧ _))

variable {step C} {s : σ} {P : σ → List ε → Prop}

/-- What steps that meet the condition preserve, of the state, the steps made and the events, holds
after the run. -/
theorem run_holds_steps {Q : σ → List α → List ε → Prop}
    (hstep : ∀ s as h a, Q s as h → C s a →
      (step s a).Holds fun (s', e) => Q s' (as ++ [a]) (h ++ e))
    (h₀ : Q s [] []) (as : List α) (hC : Meets step C s as) :
    (run step s as).Holds fun (s', h) => Q s' as h := by
  suffices ∀ bs h, Q s bs h → (run step s as).Holds fun (s', h') => Q s' (bs ++ as) (h ++ h') by
    simpa using this [] [] h₀
  clear h₀
  induction as generalizing s with
  | nil =>
    intro bs h hs
    simpa [run] using hs
  | cons a as ih =>
    intro bs h hs
    have hfirst := hstep s bs h a hs hC.1
    have hrest := hC.2
    unfold run
    cases ha : step s a with
    | blocked => trivial
    | undefined => rwa [ha] at hfirst
    | ok r =>
      rw [ha] at hfirst hrest
      have hrest := ih hrest _ _ hfirst
      revert hrest
      dsimp only [Outcome.bind]
      cases run step r.1 as with
      | blocked => exact id
      | undefined => exact id
      | ok r' => simp [List.append_assoc]

theorem run_holds_of_meets
    (hstep : ∀ s h a, P s h → C s a → (step s a).Holds fun (s', e) => P s' (h ++ e))
    (h₀ : P s []) (as : List α) (hC : Meets step C s as) :
    (run step s as).Holds fun (s', h) => P s' h :=
  run_holds_steps (Q := fun s _ h => P s h) (fun s _ h a => hstep s h a) h₀ as hC

theorem run_cons_holds_iff {Q : σ → Prop} {a : α} {s' : σ} {e : List ε}
    (ha : step s a = .ok (s', e)) (as : List α) :
    ((run step s (a :: as)).Holds fun r => Q r.1) ↔ (run step s' as).Holds fun r => Q r.1 := by
  rw [run, ha]
  dsimp only [Outcome.bind]
  cases run step s' as with
  | ok r => exact Iff.rfl
  | _ => exact Iff.rfl

theorem run_map {β : Type*} (f : β → α) (as : List β) :
    run step s (as.map f) = run (fun s b => step s (f b)) s as := by
  induction as generalizing s with
  | nil => rfl
  | cons a as ih => simp only [List.map_cons, run, ih]

theorem meets_true (as : List α) : Meets step (fun _ _ => True) s as := by
  induction as generalizing s with
  | nil => trivial
  | cons a as ih =>
    refine ⟨trivial, ?_⟩
    cases step s a with
    | ok r => exact ih
    | _ => trivial

theorem meets_of_forall {C : α → Prop} {as : List α} (h : ∀ a ∈ as, C a) :
    Meets step (fun _ a => C a) s as := by
  induction as generalizing s with
  | nil => trivial
  | cons a as ih =>
    refine ⟨h a List.mem_cons_self, ?_⟩
    cases step s a with
    | ok r => exact ih fun b hb => h b (List.mem_cons_of_mem a hb)
    | _ => trivial

theorem run_holds
    (hstep : ∀ s h a, P s h → (step s a).Holds fun (s', e) => P s' (h ++ e))
    (h₀ : P s []) (as : List α) : (run step s as).Holds fun (s', h) => P s' h :=
  run_holds_of_meets (fun s h a hs _ => hstep s h a hs) h₀ as (meets_true as)

theorem Meets.of_prefix {as bs : List α} (h : Meets step C s as) (hbs : bs <+: as) :
    Meets step C s bs := by
  induction bs generalizing s as with
  | nil => trivial
  | cons b bs ih =>
    obtain ⟨cs, rfl⟩ := hbs
    refine ⟨h.1, ?_⟩
    have hrest := h.2
    cases hb : step s b with
    | ok r =>
      rw [List.append_eq, hb] at hrest
      exact ih hrest ⟨cs, rfl⟩
    | _ => trivial

theorem Meets.append {as bs : List α} (h : Meets step C s as) (hbs : ∀ s, ∀ b ∈ bs, C s b) :
    Meets step C s (as ++ bs) := by
  have htail : ∀ (s : σ) (cs : List α), (∀ c ∈ cs, c ∈ bs) → Meets step C s cs := by
    intro s cs hcs
    induction cs generalizing s with
    | nil => trivial
    | cons c cs ih =>
      refine ⟨hbs s c (hcs c List.mem_cons_self), ?_⟩
      cases step s c with
      | ok r => exact ih r.1 fun d hd => hcs d (List.mem_cons_of_mem c hd)
      | _ => trivial
  induction as generalizing s with
  | nil => exact htail s bs fun _ hb => hb
  | cons a as ih =>
    refine ⟨h.1, ?_⟩
    have hrest := h.2
    cases ha : step s a with
    | ok r =>
      rw [ha] at hrest
      exact ih hrest
    | _ => trivial

/-- If a step preserves a property exactly under the condition, the property holds in every state
of a run exactly if all of its steps meet the condition. -/
theorem forall_prefix_holds_iff
    (hstep : ∀ s h a, P s h → (C s a ↔ (step s a).Holds fun (s', e) => P s' (h ++ e)))
    (h₀ : P s []) (as : List α) :
    (∀ bs, bs <+: as → (run step s bs).Holds fun (s', h) => P s' h) ↔ Meets step C s as := by
  constructor
  · suffices ∀ h, (∀ bs, bs <+: as → (run step s bs).Holds fun (s', h') => P s' (h ++ h')) →
        Meets step C s as by
      simpa using this []
    clear h₀
    induction as generalizing s with
    | nil => exact fun _ _ => trivial
    | cons a as ih =>
      intro h hruns
      have hs : P s h := by simpa [run] using hruns [] List.nil_prefix
      have hfirst := hruns [a] (by simp)
      have hC : (step s a).Holds fun (s', e) => P s' (h ++ e) := by
        cases ha : step s a with
        | blocked => trivial
        | undefined => simp [run, ha, Outcome.bind] at hfirst
        | ok r => simpa [run, ha, Outcome.bind] using hfirst
      refine ⟨(hstep s h a hs).mpr hC, ?_⟩
      cases ha : step s a with
      | ok r =>
        refine ih (h ++ r.2) fun bs hbs => ?_
        have hrest := hruns (a :: bs) (List.cons_prefix_cons.mpr ⟨rfl, hbs⟩)
        rw [run, ha] at hrest
        dsimp only [Outcome.bind] at hrest
        cases hrun : run step r.1 bs with
        | blocked => trivial
        | undefined => rwa [hrun] at hrest
        | ok r' =>
          rw [hrun] at hrest
          simpa [List.append_assoc] using hrest
      | _ => trivial
  · intro hC bs hbs
    exact run_holds_of_meets (fun s h a hs hc => (hstep s h a hs).mp hc) h₀ bs (hC.of_prefix hbs)

end Schedule

end YlUtils
