import Mathlib.Data.List.Perm.Basic
import Mathlib.Tactic.Common

/-!
# Runs of a partial step function

A system is a step function that answers `none` when an action is impossible in
a state. A run performs a list of actions. Two ways of speaking about a whole
run are provided: an invariant of the states it reaches, and a property that
every action must have in the state in which it is performed.
-/
namespace StepSystem

variable {σ α : Type*}

/-- Perform the actions in order; `none` as soon as one of them is impossible. -/
def run (step : σ → α → Option σ) : σ → List α → Option σ
  | s, [] => some s
  | s, a :: as => (step s a).bind fun s' => run step s' as

/-- Every action of the run has property `G` in the state in which it is performed. -/
def AllSteps (step : σ → α → Option σ) (G : σ → α → Prop) : σ → List α → Prop
  | _, [] => True
  | s, a :: as => G s a ∧ ∀ s' ∈ step s a, AllSteps step G s' as

instance decidableAllSteps (step : σ → α → Option σ) (G : σ → α → Prop)
    [∀ s a, Decidable (G s a)] : ∀ s as, Decidable (AllSteps step G s as)
  | _, [] => isTrue trivial
  | s, a :: as =>
      haveI := fun s' => decidableAllSteps step G s' as
      inferInstanceAs (Decidable (G s a ∧ ∀ s' ∈ step s a, AllSteps step G s' as))

@[simp] theorem run_nil (step : σ → α → Option σ) (s : σ) : run step s [] = some s := rfl

theorem run_cons {step : σ → α → Option σ} {s t : σ} {a : α} {as : List α} :
    run step s (a :: as) = some t ↔ ∃ s', step s a = some s' ∧ run step s' as = some t := by
  simp [run, Option.bind_eq_some_iff]

theorem run_append {step : σ → α → Option σ} {s t : σ} {as bs : List α} :
    run step s (as ++ bs) = some t ↔ ∃ u, run step s as = some u ∧ run step u bs = some t := by
  induction as generalizing s with
  | nil => simp
  | cons a as ih =>
      simp only [List.cons_append, run_cons, ih]
      constructor
      · rintro ⟨s', hs, u, hu, ht⟩
        exact ⟨u, ⟨s', hs, hu⟩, ht⟩
      · rintro ⟨u, ⟨s', hs, hu⟩, ht⟩
        exact ⟨s', hs, u, hu, ht⟩

/-- Where every action is possible, a run is a fold. -/
theorem run_total (f : σ → α → σ) (s : σ) (as : List α) :
    run (fun s a => some (f s a)) s as = some (as.foldl f s) := by
  induction as generalizing s with
  | nil => rfl
  | cons a as ih => exact ih (f s a)

/-- An invariant kept by every action that meets the guard holds wherever a run
of such actions ends. -/
theorem run_invariant {step : σ → α → Option σ} {G : σ → α → Prop} (I : σ → Prop)
    (hstep : ∀ s a s', I s → G s a → step s a = some s' → I s')
    {s t : σ} {as : List α} (hs : I s) (hG : AllSteps step G s as)
    (hrun : run step s as = some t) : I t := by
  induction as generalizing s with
  | nil =>
      have ht : s = t := by simpa using hrun
      exact ht ▸ hs
  | cons a as ih =>
      obtain ⟨s', hs', ht⟩ := run_cons.mp hrun
      exact ih (hstep s a s' hs hG.1 hs') (hG.2 s' hs') ht

theorem allSteps_of_forall {step : σ → α → Option σ} {G : σ → α → Prop} {s : σ} {as : List α}
    (h : ∀ a ∈ as, ∀ s, G s a) : AllSteps step G s as := by
  induction as generalizing s with
  | nil => trivial
  | cons a as ih =>
      refine ⟨h a List.mem_cons_self s, fun s' _ => ?_⟩
      exact ih fun b hb => h b (List.mem_cons_of_mem _ hb)

/-- An invariant kept by every action holds wherever a run ends. -/
theorem run_preserves {step : σ → α → Option σ} (I : σ → Prop)
    (hstep : ∀ s a s', I s → step s a = some s' → I s')
    {s t : σ} {as : List α} (hs : I s) (hrun : run step s as = some t) : I t := by
  induction as generalizing s with
  | nil => exact Option.some.inj hrun ▸ hs
  | cons a as ih =>
      obtain ⟨s', hs', ht⟩ := run_cons.mp hrun
      exact ih (hstep s a s' hs hs') ht

/-- If every action that meets the guard can be performed and keeps `R` between the
state and an abstract state, then so can a whole run of such actions. -/
theorem run_refines {τ : Type*} {step : σ → α → Option σ} {G : σ → α → Prop} (R : σ → τ → Prop)
    (abs : τ → α → τ)
    (hstep : ∀ s f a, R s f → G s a → ∃ s', step s a = some s' ∧ R s' (abs f a))
    {s : σ} {f : τ} {as : List α} (hs : R s f) (hG : AllSteps step G s as) :
    ∃ t, run step s as = some t ∧ R t (as.foldl abs f) := by
  induction as generalizing s f with
  | nil => exact ⟨s, rfl, hs⟩
  | cons a as ih =>
      obtain ⟨s', hs', hR⟩ := hstep s f a hs hG.1
      obtain ⟨t, ht, hRt⟩ := ih hR (hG.2 s' hs')
      exact ⟨t, run_cons.mpr ⟨s', hs', ht⟩, hRt⟩

/-- Where an invariant makes two properties of an action equivalent, and the
second keeps the invariant, a whole run has the one exactly when it has the other. -/
theorem allSteps_iff {step : σ → α → Option σ} {P Q : σ → α → Prop} (I : σ → Prop)
    (hiff : ∀ s a, I s → (P s a ↔ Q s a))
    (hstep : ∀ s a s', I s → Q s a → step s a = some s' → I s')
    {s : σ} (hs : I s) (as : List α) : AllSteps step P s as ↔ AllSteps step Q s as := by
  induction as generalizing s with
  | nil => exact Iff.rfl
  | cons a as ih =>
      simp only [AllSteps]
      rw [hiff s a hs]
      refine and_congr_right fun hQ => forall₂_congr fun s' hs' => ?_
      exact ih (hstep s a s' hs hQ hs')

theorem allSteps_and {step : σ → α → Option σ} {P Q : σ → α → Prop} {s : σ} {as : List α} :
    AllSteps step (fun s a => P s a ∧ Q s a) s as ↔
      AllSteps step P s as ∧ AllSteps step Q s as := by
  induction as generalizing s with
  | nil => exact ⟨fun _ => ⟨trivial, trivial⟩, fun _ => trivial⟩
  | cons a as ih =>
      simp only [AllSteps, ih]
      constructor
      · rintro ⟨⟨hP, hQ⟩, hrest⟩
        exact ⟨⟨hP, fun s' hs' => (hrest s' hs').1⟩, hQ, fun s' hs' => (hrest s' hs').2⟩
      · rintro ⟨⟨hP, hPs⟩, hQ, hQs⟩
        exact ⟨⟨hP, hQ⟩, fun s' hs' => ⟨hPs s' hs', hQs s' hs'⟩⟩

theorem allSteps_cons {step : σ → α → Option σ} {P : σ → α → Prop} {s s' : σ} {a : α}
    {as : List α} (hs' : step s a = some s') :
    AllSteps step P s (a :: as) ↔ P s a ∧ AllSteps step P s' as := by
  refine and_congr_right fun _ => ⟨fun h => h s' hs', fun h u hu => ?_⟩
  cases hs'.symm.trans hu
  exact h

/-- The rest of a run, from where its first part ends. -/
theorem AllSteps.drop {step : σ → α → Option σ} {P : σ → α → Prop} {s u : σ} {as bs : List α}
    (h : AllSteps step P s (as ++ bs)) (hrun : run step s as = some u) : AllSteps step P u bs := by
  induction as generalizing s with
  | nil => exact Option.some.inj hrun ▸ h
  | cons a as ih =>
      obtain ⟨s', hs', hrest⟩ := run_cons.mp hrun
      exact ih (h.2 s' hs') hrest

/-- Where an invariant makes two properties equivalent of every action that can be performed,
a run that can be performed has the one exactly when it has the other. -/
theorem allSteps_congr_of_run {step : σ → α → Option σ} {P Q : σ → α → Prop} (I : σ → Prop)
    (hiff : ∀ s a s', I s → step s a = some s' → (P s a ↔ Q s a))
    (hstep : ∀ s a s', I s → step s a = some s' → I s')
    {s t : σ} {as : List α} (hs : I s) (hrun : run step s as = some t) :
    AllSteps step P s as ↔ AllSteps step Q s as := by
  induction as generalizing s with
  | nil => exact Iff.rfl
  | cons a as ih =>
      obtain ⟨s', hs', hrest⟩ := run_cons.mp hrun
      rw [allSteps_cons hs', allSteps_cons hs', hiff s a s' hs hs', ih (hstep s a s' hs hs') hrest]

/-! ### What a run yields -/

section Yields
variable {β : Type*} {step : σ → α → Option σ} {s s' t : σ} {a : α} {as : List α}

/-- What the steps of a run yield, in their order. -/
def collect (step : σ → α → Option σ) (f : σ → α → List β) : σ → List α → List β
  | _, [] => []
  | s, a :: as => f s a ++ (step s a).elim [] fun s' => collect step f s' as

theorem collect_cons {f : σ → α → List β} (hs' : step s a = some s') :
    collect step f s (a :: as) = f s a ++ collect step f s' as := by
  rw [collect, hs']
  rfl

theorem collect_append_perm (f g : σ → α → List β) (s : σ) (as : List α) :
    (collect step (fun s a => f s a ++ g s a) s as).Perm
      (collect step f s as ++ collect step g s as) := by
  induction as generalizing s with
  | nil => exact List.Perm.refl _
  | cons a as ih =>
      cases hs' : step s a with
      | none => simp [collect, hs']
      | some s' =>
          rw [collect_cons hs', collect_cons hs', collect_cons hs', List.append_assoc,
            List.append_assoc]
          refine List.Perm.append_left _ (((ih s').append_left _).trans ?_)
          exact List.perm_append_comm_assoc ..

/-- If every step takes in at the back what it takes in and gives out at the front what it
gives out, a whole run is a queue. -/
theorem run_fifo {takes gives : σ → α → List β} (I : σ → Prop) (Holds : σ → List β → Prop)
    (hstep : ∀ s a s' q, I s → Holds s q → step s a = some s' →
      I s' ∧ ∃ q', Holds s' q' ∧ q ++ takes s a = gives s a ++ q')
    {q : List β} (hs : I s) (hq : Holds s q) (hrun : run step s as = some t) :
    ∃ q', Holds t q' ∧ q ++ collect step takes s as = collect step gives s as ++ q' := by
  induction as generalizing s q with
  | nil =>
      obtain rfl := Option.some.inj hrun
      exact ⟨q, hq, List.append_nil q⟩
  | cons a as ih =>
      obtain ⟨s', hs', hrest⟩ := run_cons.mp hrun
      obtain ⟨hi, q₁, hq₁, hone⟩ := hstep s a s' q hs hq hs'
      obtain ⟨q', hq', hmore⟩ := ih hi hq₁ hrest
      refine ⟨q', hq', ?_⟩
      rw [collect_cons hs', collect_cons hs', ← List.append_assoc, hone, List.append_assoc, hmore,
        List.append_assoc]

/-- If every step gives out or keeps what it takes in and what was kept, so does a whole run. -/
theorem run_ledger {takes : σ → α → List β} (gives : σ → α → List β) (I : σ → Prop)
    (kept : σ → List β)
    (hstep : ∀ s a s', I s → step s a = some s' →
      I s' ∧ (kept s ++ takes s a).Perm (gives s a ++ kept s'))
    (hs : I s) (hrun : run step s as = some t) :
    (kept s ++ collect step takes s as).Perm (collect step gives s as ++ kept t) := by
  induction as generalizing s with
  | nil =>
      obtain rfl := Option.some.inj hrun
      rw [collect, collect, List.append_nil, List.nil_append]
  | cons a as ih =>
      obtain ⟨s', hs', hrest⟩ := run_cons.mp hrun
      obtain ⟨hi, hone⟩ := hstep s a s' hs hs'
      rw [collect_cons hs', collect_cons hs', ← List.append_assoc, List.append_assoc (gives s a)]
      exact (hone.append_right _).trans
        (by rw [List.append_assoc]; exact (ih hi hrest).append_left _)

end Yields

end StepSystem
