import Mathlib.Data.Fintype.Basic
import Mathlib.Data.Fin.Basic
import Xzmjx.FiberMutexModel

/-!
# Mutual exclusion and hand-off of the fiber mutex

A fiber holds the mutex from its acquisition to its release. Two branches of the
code do not fit this: `lock` returns at once to the fiber whose id was stored
last, whether or not that fiber still holds the mutex, and `unlock` returns
without a release when nobody waits. Mutual exclusion is a property of the runs
in which the first branch is only taken by a fiber that nobody has replaced, and
the spin lock follows the holders in the runs in which the second branch is never
taken with the spin lock held.
-/
namespace Xzmjx.FiberMutexModel
open Function StepSystem

variable {ι : Type*}

/-- Between the acquisition of the spin lock and its release. -/
def Pc.holds : Pc ι → Bool
  | .record | .critical | .dequeue | .release _ => true
  | .outside | .tryLock _ | .retry _ | .enqueue | .yielding | .parked | .submit _ => false

/-- Between the start of a successful acquisition and the return of `unlock`. -/
def Pc.inside : Pc ι → Bool
  | .submit _ => true
  | pc => pc.holds

namespace State

variable {s s' : State ι} {f : ι}

/-! ### Mutual exclusion -/

/-- The shortcut of `lock` is only taken while the spin lock is held and no other
fiber is between its acquisition and its release. -/
def ShortcutSound (s : State ι) (f : ι) : Prop :=
  s.pc f = .outside → s.fiberId = some f →
    s.locked = true ∧ ∀ g, g ≠ f → (s.pc g).holds = false

instance [Fintype ι] [DecidableEq ι] (s : State ι) (f : ι) : Decidable (s.ShortcutSound f) :=
  inferInstanceAs (Decidable (_ → _ → _ ∧ ∀ g, g ≠ f → (s.pc g).holds = false))

/-- At most one fiber holds the mutex, and then the spin lock is held. -/
structure Exclusive (s : State ι) : Prop where
  unique : ∀ f g, (s.pc f).holds = true → (s.pc g).holds = true → f = g
  locked : ∀ f, (s.pc f).holds = true → s.locked = true

theorem Exclusive.init : Exclusive (init : State ι) := by
  refine ⟨?_, ?_⟩ <;> simp [State.init, Pc.holds]

/-- A fiber that holds the mutex leaves no other one to worry about. -/
theorem Exclusive.alone (h : Exclusive s) (hf : (s.pc f).holds = true) {P : Prop} :
    ∀ g ≠ f, (s.pc g).holds = true → P :=
  fun g hne hg => absurd (h.unique g f hg hf) hne

theorem Exclusive.vacant (h : Exclusive s) (hlock : s.locked = false) {P : Prop} :
    ∀ g ≠ f, (s.pc g).holds = true → P :=
  fun g _ hg => absurd (h.locked g hg) (by simp [hlock])

variable [DecidableEq ι]

/-- The step of a fiber keeps exclusion if the fiber enters or stays only where
no other fiber holds the mutex, and the spin lock is held as long as somebody does. -/
theorem Exclusive.goto {pc : Pc ι} (h : Exclusive s) (hpc : s'.pc = update s.pc f pc)
    (hself : pc.holds = true → s'.locked = true)
    (hothers : ∀ g ≠ f, (s.pc g).holds = true → pc.holds = false ∧ s'.locked = true) :
    Exclusive s' := by
  have hcases (g : ι) (hg : (s'.pc g).holds = true) :
      (g = f ∧ pc.holds = true) ∨ (g ≠ f ∧ (s.pc g).holds = true) := by
    rw [hpc] at hg
    by_cases hgf : g = f
    · subst hgf
      exact Or.inl ⟨rfl, by simpa using hg⟩
    · exact Or.inr ⟨hgf, by simpa [hgf] using hg⟩
  refine ⟨?_, ?_⟩
  · intro a b ha hb
    rcases hcases a ha with ⟨rfl, hpa⟩ | ⟨hne, hpa⟩ <;>
      rcases hcases b hb with ⟨rfl, hpb⟩ | ⟨hne', hpb⟩
    · rfl
    · simp [(hothers b hne' hpb).1] at hpa
    · simp [(hothers a hne hpa).1] at hpb
    · exact h.unique a b hpa hpb
  · intro a ha
    rcases hcases a ha with ⟨-, hpa⟩ | ⟨hne, hpa⟩
    · exact hself hpa
    · exact (hothers a hne hpa).2

theorem Exclusive.step (h : Exclusive s) (hsound : s.ShortcutSound f) (hs : s.step f = some s') :
    Exclusive s' := by
  cases steps_of_step hs with
  | shortcut hpc hid =>
      obtain ⟨hlock, hnone⟩ := hsound hpc hid
      refine h.goto rfl (fun _ => hlock) fun g hne hg => ?_
      simp [hnone g hne] at hg
  | call hpc hid => exact h.goto rfl (by simp [Pc.holds]) fun g _ hg => ⟨rfl, h.locked g hg⟩
  | fail hpc hlock => exact h.goto rfl (fun _ => hlock) fun _ _ _ => ⟨rfl, hlock⟩
  | acquire hpc hlock => exact h.goto rfl (fun _ => rfl) (h.vacant hlock)
  | retryFail hpc hlock => exact h.goto rfl (fun _ => hlock) fun _ _ _ => ⟨rfl, hlock⟩
  | retryLast hpc hlock => exact h.goto rfl (fun _ => hlock) fun _ _ _ => ⟨rfl, hlock⟩
  | retryAcquire hpc hlock => exact h.goto rfl (fun _ => rfl) (h.vacant hlock)
  | record hpc =>
      have hf : (s.pc f).holds = true := by rw [hpc]; rfl
      exact h.goto rfl (fun _ => h.locked f hf) (h.alone hf)
  | enqueue hpc => exact h.goto rfl (by simp [Pc.holds]) fun g _ hg => ⟨rfl, h.locked g hg⟩
  | yield hpc => exact h.goto rfl (by simp [Pc.holds]) fun g _ hg => ⟨rfl, h.locked g hg⟩
  | resume hpc hsub => exact h.goto rfl (by simp [Pc.holds]) fun g _ hg => ⟨rfl, h.locked g hg⟩
  | leave hpc =>
      have hf : (s.pc f).holds = true := by rw [hpc]; rfl
      exact h.goto rfl (fun _ => h.locked f hf) (h.alone hf)
  | nobody hpc hqueue => exact h.goto rfl (by simp [Pc.holds]) fun g _ hg => ⟨rfl, h.locked g hg⟩
  | pop hpc hqueue =>
      have hf : (s.pc f).holds = true := by rw [hpc]; rfl
      exact h.goto rfl (fun _ => h.locked f hf) (h.alone hf)
  | release hpc =>
      have hf : (s.pc f).holds = true := by rw [hpc]; rfl
      exact h.goto rfl (by simp [Pc.holds]) (h.alone hf)
  | submit hpc => exact h.goto rfl (by simp [Pc.holds]) fun g _ hg => ⟨rfl, h.locked g hg⟩

/-- Mutual exclusion. For any number of fibers and every interleaving in which
the shortcut of `lock` is only taken soundly, no two fibers are in their critical
section at once. -/
theorem mutual_exclusion (fs : List ι) {t : State ι}
    (hsound : AllSteps step ShortcutSound init fs) (hrun : run step init fs = some t)
    {f g : ι} (hf : t.pc f = .critical) (hg : t.pc g = .critical) : f = g := by
  have h : Exclusive t := run_invariant Exclusive (fun s a s' hs hG hstep => hs.step hG hstep)
    Exclusive.init hsound hrun
  exact h.unique f g (by rw [hf]; rfl) (by rw [hg]; rfl)

/-- The mutex is handed over to a waiter, and both fibers come back. -/
theorem mutual_exclusion_handover :
    ∃ t : State (Fin 2),
      run step init [0, 0, 1, 1, 1, 1, 1, 1, 1, 1, 0, 0, 0, 0, 1, 1, 0, 0] = some t ∧
      t.pc 1 = .critical ∧ ∀ f, t.pc f = .critical → f = 1 := by
  refine ⟨_, rfl, by decide, fun f hf => ?_⟩
  exact mutual_exclusion [0, 0, 1, 1, 1, 1, 1, 1, 1, 1, 0, 0, 0, 0, 1, 1, 0, 0]
    (by decide) rfl hf (by decide)

/-- Fiber 2 acquires by a retry while the mutex is handed from 0 to 1, hands it to 1
in its turn, and is let in again on its remembered id. -/
theorem mutual_exclusion_fails :
    ¬ ∀ (fs : List (Fin 3)) (t : State (Fin 3)), run step init fs = some t →
      ∀ f g, t.pc f = .critical → t.pc g = .critical → f = g := by
  intro h
  exact absurd (h [0, 0, 1, 1, 1, 1, 1, 1, 1, 1, 2, 2, 0, 0, 0, 2, 2, 0, 1, 1, 1, 1, 1, 1, 1, 1,
    2, 2, 2, 2, 1, 1, 2] _ rfl 1 2 (by decide) (by decide)) (by decide)

/-! ### The spin lock and the wait queue -/

/-- `unlock` does not return early while the spin lock is held. -/
def ReleaseSound (s : State ι) (f : ι) : Prop :=
  s.pc f = .dequeue → s.waitQueue = [] → s.locked = false

instance (s : State ι) (f : ι) : Decidable (s.ReleaseSound f) :=
  inferInstanceAs (Decidable (_ → _ → s.locked = false))

/-- A waiter was taken out of the queue to be submitted and has not tried again. -/
def Pending (s : State ι) : Prop :=
  ∃ w, w ∈ s.submitted ∨ s.pc w = .tryLock true ∨ ∃ f, s.pc f = .submit w

/-- With nobody between acquisition and the return of `unlock` the spin lock is
free, and nobody stays in the queue with the spin lock free and no waiter pending. -/
def FlagTracks (s : State ι) : Prop :=
  ((∀ f, (s.pc f).inside = false) → s.locked = false) ∧
    (s.waitQueue ≠ [] → s.locked = false → s.Pending)

/-- Somebody holds the mutex whenever the spin lock is held. -/
def Held (s : State ι) : Prop := s.locked = true → ∃ f, (s.pc f).holds = true

/-- Nobody has acquired the mutex yet. -/
structure Fresh (s : State ι) : Prop where
  waitQueue : s.waitQueue = []
  fiberId : s.fiberId = none
  pc : ∀ f, s.pc f = .outside ∨ s.pc f = .tryLock false

/-- Once somebody has, a free spin lock has a waiter to go to. -/
def HandedOn (s : State ι) : Prop := s.locked = false → s.Pending ∨ s.Fresh

/-- The fiber holds the mutex after the step. -/
theorem Held.enter {pc : Pc ι} (hpc : s'.pc = update s.pc f pc) (h : pc.holds = true) : Held s' :=
  fun _ => ⟨f, by simpa [hpc] using h⟩

/-- The fiber did not hold the mutex before the step, and the lock is as it was. -/
theorem Held.other {pc : Pc ι} (h : Held s) (hpc : s'.pc = update s.pc f pc)
    (hlock : s'.locked = s.locked) (hf : (s.pc f).holds = false) : Held s' := by
  intro hl
  obtain ⟨g, hg⟩ := h (hlock.symm.trans hl)
  have hne : g ≠ f := by
    rintro rfl
    simp [hf] at hg
  exact ⟨g, by simpa [hpc, hne] using hg⟩

theorem Held.step (h : Held s) (hsound : s.ReleaseSound f) (hs : s.step f = some s') :
    Held s' := by
  cases steps_of_step hs with
  | shortcut hpc hid => exact .enter rfl rfl
  | call hpc hid => exact h.other rfl rfl (by rw [hpc]; rfl)
  | fail hpc hlock => exact h.other rfl rfl (by rw [hpc]; rfl)
  | acquire hpc hlock => exact .enter rfl rfl
  | retryFail hpc hlock => exact h.other rfl rfl (by rw [hpc]; rfl)
  | retryLast hpc hlock => exact h.other rfl rfl (by rw [hpc]; rfl)
  | retryAcquire hpc hlock => exact .enter rfl rfl
  | record hpc => exact .enter rfl rfl
  | enqueue hpc => exact h.other rfl rfl (by rw [hpc]; rfl)
  | yield hpc => exact h.other rfl rfl (by rw [hpc]; rfl)
  | resume hpc hsub => exact h.other rfl rfl (by rw [hpc]; rfl)
  | leave hpc => exact .enter rfl rfl
  | nobody hpc hqueue =>
      intro hl
      simp [hsound hpc hqueue] at hl
  | pop hpc hqueue => exact .enter rfl rfl
  | release hpc =>
      intro hl
      simp at hl
  | submit hpc => exact h.other rfl rfl (by rw [hpc]; rfl)

/-- A pending waiter stays pending while other fibers step. -/
theorem Pending.other {pc : Pc ι} (h : Pending s) (hpc : s'.pc = update s.pc f pc)
    (hsub : s'.submitted = s.submitted) (hwoken : s.pc f ≠ .tryLock true)
    (hsubmit : ∀ w, s.pc f ≠ .submit w) : Pending s' := by
  obtain ⟨w, hw | hw | ⟨g, hg⟩⟩ := h
  · exact ⟨w, Or.inl (hsub ▸ hw)⟩
  · have hne : w ≠ f := by
      rintro rfl
      exact hwoken hw
    exact ⟨w, Or.inr (Or.inl (by simpa [hpc, hne] using hw))⟩
  · have hne : g ≠ f := by
      rintro rfl
      exact hsubmit w hg
    exact ⟨w, Or.inr (Or.inr ⟨g, by simpa [hpc, hne] using hg⟩)⟩

/-- A step of a fiber that is past its first `tryLock` and has not been woken. -/
theorem HandedOn.other {pc : Pc ι} (h : HandedOn s) (hpc : s'.pc = update s.pc f pc)
    (hlock : s'.locked = s.locked) (hsub : s'.submitted = s.submitted)
    (hout : s.pc f ≠ .outside) (htry : ∀ b, s.pc f ≠ .tryLock b)
    (hsubmit : ∀ w, s.pc f ≠ .submit w) : HandedOn s' := by
  intro hl
  rcases h (hlock.symm.trans hl) with hp | hfresh
  · exact Or.inl (hp.other hpc hsub (htry true) hsubmit)
  · rcases hfresh.pc f with hf | hf
    · exact absurd hf hout
    · exact absurd hf (htry false)

omit [DecidableEq ι] in
theorem HandedOn.of_locked (h : s.locked = true) : HandedOn s := by
  intro hl
  simp [h] at hl

omit [DecidableEq ι] in
theorem HandedOn.of_pending (h : Pending s) : HandedOn s := fun _ => Or.inl h

theorem HandedOn.step (h : HandedOn s) (hs : s.step f = some s') : HandedOn s' := by
  cases steps_of_step hs with
  | shortcut hpc hid =>
      intro hl
      rcases h hl with hp | hfresh
      · exact Or.inl (hp.other rfl rfl (by simp [hpc]) (by simp [hpc]))
      · simp [hfresh.fiberId] at hid
  | call hpc hid =>
      intro hl
      rcases h hl with hp | hfresh
      · exact Or.inl (hp.other rfl rfl (by simp [hpc]) (by simp [hpc]))
      · refine Or.inr ⟨hfresh.waitQueue, hfresh.fiberId, fun g => ?_⟩
        by_cases hg : g = f
        · subst hg
          simp
        · simpa [hg] using hfresh.pc g
  | fail hpc hlock => exact .of_locked hlock
  | acquire hpc hlock => exact .of_locked rfl
  | retryFail hpc hlock => exact .of_locked hlock
  | retryLast hpc hlock => exact .of_locked hlock
  | retryAcquire hpc hlock => exact .of_locked rfl
  | record hpc => exact h.other rfl rfl rfl (by simp [hpc]) (by simp [hpc]) (by simp [hpc])
  | enqueue hpc => exact h.other rfl rfl rfl (by simp [hpc]) (by simp [hpc]) (by simp [hpc])
  | yield hpc => exact h.other rfl rfl rfl (by simp [hpc]) (by simp [hpc]) (by simp [hpc])
  | resume hpc hsub => exact .of_pending ⟨f, Or.inr (Or.inl (by simp))⟩
  | leave hpc => exact h.other rfl rfl rfl (by simp [hpc]) (by simp [hpc]) (by simp [hpc])
  | nobody hpc hqueue => exact h.other rfl rfl rfl (by simp [hpc]) (by simp [hpc]) (by simp [hpc])
  | pop hpc hqueue => exact h.other rfl rfl rfl (by simp [hpc]) (by simp [hpc]) (by simp [hpc])
  | @release w hpc => exact .of_pending ⟨w, Or.inr (Or.inr ⟨f, by simp⟩)⟩
  | @submit w hpc => exact .of_pending ⟨w, Or.inl (by simp)⟩

omit [DecidableEq ι] in
theorem FlagTracks.of_invariants (hheld : Held s) (hon : HandedOn s) : FlagTracks s := by
  refine ⟨fun hidle => ?_, fun hqueue hl => ?_⟩
  · by_contra hl
    obtain ⟨f, hf⟩ := hheld (by simpa using hl)
    have hin := hidle f
    cases hpc : s.pc f <;> simp [hpc, Pc.holds, Pc.inside] at hf hin
  · exact (hon hl).resolve_right fun hfresh => hqueue hfresh.waitQueue

/-- The spin lock tracks ownership. For any number of fibers and every
interleaving in which `unlock` never returns early with the spin lock held: with
nobody between acquisition and the return of `unlock` the spin lock is free, and
nobody stays in the queue with the spin lock free and no waiter pending. -/
theorem flag_tracks_ownership (fs : List ι) {t : State ι}
    (hsound : AllSteps step ReleaseSound init fs) (hrun : run step init fs = some t) :
    FlagTracks t := by
  have hinit : Held (init : State ι) ∧ HandedOn (init : State ι) :=
    ⟨by simp [Held, State.init], fun _ => Or.inr ⟨rfl, rfl, fun _ => Or.inl rfl⟩⟩
  obtain ⟨hheld, hon⟩ := run_invariant (fun s => Held s ∧ HandedOn s)
    (fun s a s' hs hG hstep => ⟨hs.1.step hG hstep, hs.2.step hstep⟩) hinit hsound hrun
  exact .of_invariants hheld hon

/-- The spin lock is free in the middle of a hand-over, and the waiter is pending. -/
theorem flag_tracks_ownership_handover :
    ∃ t : State (Fin 2), run step init [0, 0, 1, 1, 1, 1, 1, 1, 1, 1, 0, 0, 0, 0] = some t ∧
      t.locked = false ∧ t.submitted = [1] ∧ FlagTracks t := by
  refine ⟨_, rfl, rfl, rfl, ?_⟩
  exact flag_tracks_ownership [0, 0, 1, 1, 1, 1, 1, 1, 1, 1, 0, 0, 0, 0] (by decide) rfl

/-- One fiber locks and unlocks; nobody waits, and the spin lock stays held. -/
theorem flag_tracks_ownership_fails :
    ¬ ∀ (fs : List (Fin 1)) (t : State (Fin 1)), run step init fs = some t → FlagTracks t := by
  intro h
  exact absurd ((h [0, 0, 0, 0] _ rfl).1 (by decide)) (by decide)

end State

end Xzmjx.FiberMutexModel
