import Xzmjx.StepSystem

/-!
# Histories of a sequential object

A sequential object answers a request and moves to a new state. A history of requests and answers
is explained by it if the object, performing the requests one after another, gives those answers.
A system whose steps yield answered requests is explained if every step is.
-/
namespace Linearization
open StepSystem

variable {σ α τ β γ : Type*}

/-- The object gives these answers to these requests, one after another, and ends in `t'`. -/
def Explains (spec : τ → β → τ × γ) : τ → List (β × γ) → τ → Prop
  | t, [], t' => t = t'
  | t, e :: h, t' => (spec t e.1).2 = e.2 ∧ Explains spec (spec t e.1).1 h t'

variable {spec : τ → β → τ × γ} {t t' u : τ} {h h' : List (β × γ)}

theorem Explains.append (hh : Explains spec t h u) (hh' : Explains spec u h' t') :
    Explains spec t (h ++ h') t' := by
  induction h generalizing t with
  | nil =>
      subst hh
      exact hh'
  | cons e h ih => exact ⟨hh.1, ih hh.2⟩

/-- An invariant of the object holds behind a history. -/
theorem Explains.invariant (J : τ → Prop) (hstep : ∀ t b, J t → J (spec t b).1) (hJ : J t)
    (hh : Explains spec t h t') : J t' := by
  induction h generalizing t with
  | nil => exact hh ▸ hJ
  | cons e h ih => exact ih (hstep t e.1 hJ) hh.2

/-- What holds of an answer when it is given, and is not undone later, holds at the end. -/
theorem Explains.final (J : τ → Prop) (P : τ → β × γ → Prop)
    (hstep : ∀ t b, J t → J (spec t b).1)
    (hnew : ∀ t b, J t → P (spec t b).1 (b, (spec t b).2))
    (hkeep : ∀ t b e, J t → P t e → P (spec t b).1 e) (hJ : J t)
    (hh : Explains spec t h t') : ∀ e ∈ h, P t' e := by
  induction h generalizing t with
  | nil => exact fun e he => absurd he List.not_mem_nil
  | cons e h ih =>
      obtain ⟨he, hrest⟩ := hh
      have hone := hnew t e.1 hJ
      rw [he] at hone
      intro x hx
      rcases List.mem_cons.mp hx with rfl | hx
      · exact (hrest.invariant (fun t => J t ∧ P t x)
          (fun t b ht => ⟨hstep t b ht.1, hkeep t b x ht.1 ht.2⟩) ⟨hstep t x.1 hJ, hone⟩).2
      · exact ih (hstep t e.1 hJ) hrest x hx

/-- If what every step yields is explained, so is what a run yields. -/
theorem run_explains {step : σ → α → Option σ} {yields : σ → α → List (β × γ)} (I : σ → Prop)
    (abs : σ → τ) (hstep : ∀ s a s', I s → step s a = some s' →
      I s' ∧ Explains spec (abs s) (yields s a) (abs s'))
    {s s' : σ} {as : List α} (hs : I s) (hrun : run step s as = some s') :
    Explains spec (abs s) (collect step yields s as) (abs s') := by
  induction as generalizing s with
  | nil =>
      obtain rfl := Option.some.inj hrun
      rfl
  | cons a as ih =>
      obtain ⟨u, hu, hrest⟩ := run_cons.mp hrun
      obtain ⟨hIu, hone⟩ := hstep s a u hs hu
      rw [collect_cons hu]
      exact hone.append (ih hIu hrest)

end Linearization
