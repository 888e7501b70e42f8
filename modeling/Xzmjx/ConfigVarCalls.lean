import Mathlib.Data.Fin.VecNotation
import Mathlib.Logic.Function.Basic
import Xzmjx.StepSystem

/-!
# Concurrent calls of `ConfigVar::setValue`

`setValue` compares and notifies under the read lock and stores under the write lock,
which it takes after it has released the first. Readers exclude writers and not each
other. Each of `n` calls is where it is in the function (`Pc`); an acquisition of the read
lock with the comparison, one call of a listener, the release of the read lock, and
the store under the write lock are one step each.

`seen` is what each listener was told last, `notices` every call of a listener and
`replaced` the value that a call's store has overwritten. The last two are only
written.
-/
namespace Xzmjx.ConfigModel
open Function StepSystem

/-- Where a call is in `setValue`. -/
inductive Pc
  /-- About to take the read lock. -/
  | start
  /-- Under the read lock, with the listeners that are still to be called. -/
  | notifying (rest : List ℕ)
  /-- Between the locks. -/
  | store
  | done
  deriving DecidableEq, Repr

/-- One call of a listener. -/
structure Notice (n : ℕ) (α : Type) where
  call : Fin n
  listener : ℕ
  old : α
  new : α
  deriving DecidableEq, Repr

structure VarState (n : ℕ) (α : Type) where
  val : α
  pc : Fin n → Pc
  seen : ℕ → α
  notices : List (Notice n α)
  replaced : Fin n → Option α

/-- The call is past its comparison and has not stored its value yet. -/
def Pc.inFlight : Pc → Bool
  | .notifying _ | .store => true
  | .start | .done => false

/-- The call holds the read lock. -/
def Pc.reads : Pc → Bool
  | .notifying _ => true
  | .start | .store | .done => false

namespace VarState

variable {n : ℕ} {α : Type}

/-- No call has begun; every listener has the value it was registered with. -/
def initial (n : ℕ) (val : α) : VarState n α where
  val := val
  pc _ := .start
  seen _ := val
  notices := []
  replaced _ := none

def goto (s : VarState n α) (c : Fin n) (pc : Pc) : VarState n α :=
  { s with pc := update s.pc c pc }

/-- `i->second(m_val, val)`. -/
def tell (s : VarState n α) (c : Fin n) (i : ℕ) (v : α) : VarState n α :=
  { s with seen := update s.seen i v, notices := s.notices ++ [Notice.mk c i s.val v] }

/-- `m_val = val`. -/
def put (s : VarState n α) (c : Fin n) (v : α) : VarState n α :=
  { s with val := v, replaced := update s.replaced c (some s.val) }

/-- The next step of a call that sets the value `arg c`; `none` while the write lock is not to
be had, and after the call has returned. -/
def step [DecidableEq α] (listeners : List ℕ) (arg : Fin n → α) (s : VarState n α) (c : Fin n) :
    Option (VarState n α) :=
  match s.pc c with
  | .start => some (s.goto c (if arg c = s.val then .done else .notifying listeners))
  | .notifying (i :: rest) => some ((s.tell c i (arg c)).goto c (.notifying rest))
  | .notifying [] => some (s.goto c .store)
  | .store =>
      if ∃ c', (s.pc c').reads = true then none else some ((s.put c (arg c)).goto c .done)
  | .done => none

/-- Once all calls have returned every listener was told the stored value last, and an old
value that a listener was told is the one that the call has replaced. -/
structure Agreed (listeners : List ℕ) (s : VarState n α) : Prop where
  last : (∀ c, s.pc c = .done) → ∀ i ∈ listeners, s.seen i = s.val
  old : ∀ notice ∈ s.notices, ∀ v, s.replaced notice.call = some v → notice.old = v

/-- The condition on a step: a call that finds another value goes on only while no other call
is between its comparison and its store. -/
def Alone (arg : Fin n → α) (s : VarState n α) (c : Fin n) : Prop :=
  s.pc c = .start → arg c ≠ s.val → ∀ c', (s.pc c').inFlight = false

/-! ### What a step can do -/

inductive Steps [DecidableEq α] (listeners : List ℕ) (arg : Fin n → α) (s : VarState n α)
    (c : Fin n) : VarState n α → Prop
  | same (hpc : s.pc c = .start) (heq : arg c = s.val) :
      Steps listeners arg s c (s.goto c .done)
  | differs (hpc : s.pc c = .start) (hne : arg c ≠ s.val) :
      Steps listeners arg s c (s.goto c (.notifying listeners))
  | notify {i : ℕ} {rest : List ℕ} (hpc : s.pc c = .notifying (i :: rest)) :
      Steps listeners arg s c ((s.tell c i (arg c)).goto c (.notifying rest))
  | unlock (hpc : s.pc c = .notifying []) : Steps listeners arg s c (s.goto c .store)
  | store (hpc : s.pc c = .store) (hfree : ∀ c', (s.pc c').reads = false) :
      Steps listeners arg s c ((s.put c (arg c)).goto c .done)

variable [DecidableEq α] {listeners : List ℕ} {arg : Fin n → α} {s s' : VarState n α} {c : Fin n}

theorem steps_of_step (h : s.step listeners arg c = some s') : Steps listeners arg s c s' := by
  unfold step at h
  split at h
  · next hpc =>
      by_cases heq : arg c = s.val
      · rw [if_pos heq] at h
        cases h
        exact .same hpc heq
      · rw [if_neg heq] at h
        cases h
        exact .differs hpc heq
  · next hpc => cases h; exact .notify hpc
  · next hpc => cases h; exact .unlock hpc
  · next hpc =>
      split_ifs at h with hread
      cases h
      exact .store hpc fun c' => by simpa using fun hc => hread ⟨c', hc⟩
  · cases h

/-! ### What calls that do not overlap keep -/

omit [DecidableEq α]

@[simp] theorem goto_pc_self (pc : Pc) : (s.goto c pc).pc c = pc := update_self ..

theorem goto_pc_of_ne {c' : Fin n} (h : c' ≠ c) (pc : Pc) : (s.goto c pc).pc c' = s.pc c' :=
  update_of_ne h ..

/-- The listeners that a call in flight has been through know its value. -/
def Informed (listeners : List ℕ) (arg : Fin n → α) (s : VarState n α) (c : Fin n) : Prop :=
  match s.pc c with
  | .notifying rest => ∃ told, told ++ rest = listeners ∧ ∀ i ∈ told, s.seen i = arg c
  | .store => ∀ i ∈ listeners, s.seen i = arg c
  | .start | .done => True

structure Inv (listeners : List ℕ) (arg : Fin n → α) (s : VarState n α) : Prop where
  one : ∀ c c', (s.pc c).inFlight = true → (s.pc c').inFlight = true → c = c'
  idle : (∀ c, (s.pc c).inFlight = false) → ∀ i ∈ listeners, s.seen i = s.val
  informed : ∀ c, Informed listeners arg s c
  notice : ∀ x ∈ s.notices, ((s.pc x.call).inFlight = true ∧ x.old = s.val) ∨
    s.replaced x.call = some x.old
  fresh : ∀ c, s.replaced c ≠ none → s.pc c = .done

namespace Inv

theorem agreed (h : Inv listeners arg s) : Agreed listeners s where
  last hdone := h.idle fun c => by rw [hdone c]; rfl
  old x hx v hv := by
    rcases h.notice x hx with ⟨hflight, -⟩ | hreplaced
    · rw [h.fresh x.call (by simp [hv])] at hflight
      cases hflight
    · exact Option.some.inj (hreplaced.symm.trans hv)

theorem initial (val : α) : Inv listeners arg (VarState.initial n val) where
  one := by simp [VarState.initial, Pc.inFlight]
  idle _ _ _ := rfl
  informed _ := trivial
  notice := by simp [VarState.initial]
  fresh := by simp [VarState.initial]

theorem informed_of_not_inFlight (h : (s.pc c).inFlight = false) : Informed listeners arg s c := by
  unfold Informed
  split
  · next hpc => rw [hpc] at h; cases h
  · next hpc => rw [hpc] at h; cases h
  · trivial
  · trivial

/-- While a call is in flight no other one is. -/
theorem rest_idle (h : Inv listeners arg s) (hc : (s.pc c).inFlight = true) {c' : Fin n}
    (hne : c' ≠ c) : (s.pc c').inFlight = false := by
  by_contra hflight
  exact hne (h.one c' c (by simpa using hflight) hc)

theorem rest_idle_goto (h : Inv listeners arg s) (hc : (s.pc c).inFlight = true) (pc : Pc)
    (c' : Fin n) (hne : c' ≠ c) : ((s.goto c pc).pc c').inFlight = false := by
  rw [goto_pc_of_ne hne]
  exact h.rest_idle hc hne

theorem ne_of_replaced (h : Inv listeners arg s) (hc : s.pc c ≠ .done) {c' : Fin n}
    (hr : s.replaced c' ≠ none) : c' ≠ c := by
  rintro rfl
  exact hc (h.fresh c' hr)

theorem fresh_goto (h : Inv listeners arg s) (hc : s.pc c ≠ .done) (pc : Pc) (c' : Fin n)
    (hr : s.replaced c' ≠ none) : (s.goto c pc).pc c' = .done := by
  rw [goto_pc_of_ne (h.ne_of_replaced hc hr)]
  exact h.fresh c' hr

/-- What a call has told stays as it is while the call is in flight. -/
theorem notice_goto (h : Inv listeners arg s) {pc : Pc} (hpc : pc.inFlight = true)
    (x : Notice n α) (hx : x ∈ s.notices) :
    (((s.goto c pc).pc x.call).inFlight = true ∧ x.old = s.val) ∨
      s.replaced x.call = some x.old := by
  refine (h.notice x hx).imp_left fun hold => ⟨?_, hold.2⟩
  by_cases hxc : x.call = c
  · rw [hxc, goto_pc_self]
    exact hpc
  · rw [goto_pc_of_ne hxc]
    exact hold.1

/-- A call that finds its own value returns. -/
theorem same (h : Inv listeners arg s) (hpc : s.pc c = .start) :
    Inv listeners arg (s.goto c .done) := by
  have hflight (c' : Fin n) : ((s.goto c .done).pc c').inFlight = (s.pc c').inFlight := by
    by_cases hc : c' = c
    · subst hc
      rw [goto_pc_self, hpc]
      rfl
    · rw [goto_pc_of_ne hc]
  refine ⟨?_, ?_, fun c' => ?_, ?_, h.fresh_goto (by simp [hpc]) .done⟩
  · intro c₁ c₂ h₁ h₂
    rw [hflight] at h₁ h₂
    exact h.one c₁ c₂ h₁ h₂
  · intro hidle
    exact h.idle fun c' => (hflight c').symm.trans (hidle c')
  · by_cases hc : c' = c
    · subst hc
      exact informed_of_not_inFlight (by rw [goto_pc_self]; rfl)
    · have hinf := h.informed c'
      unfold Informed at hinf ⊢
      rw [goto_pc_of_ne hc]
      exact hinf
  · intro x hx
    rw [hflight]
    exact h.notice x hx

/-- What is left to show of a step of a call that is in flight afterwards. -/
theorem of_inFlight {s' : VarState n α} (hc : (s'.pc c).inFlight = true)
    (hrest : ∀ c' ≠ c, (s'.pc c').inFlight = false) (hinf : Informed listeners arg s' c)
    (hnotice : ∀ x ∈ s'.notices, ((s'.pc x.call).inFlight = true ∧ x.old = s'.val) ∨
      s'.replaced x.call = some x.old)
    (hfresh : ∀ c, s'.replaced c ≠ none → s'.pc c = .done) : Inv listeners arg s' := by
  refine ⟨?_, fun hidle => ?_, fun c' => ?_, hnotice, hfresh⟩
  · have hone : ∀ c', (s'.pc c').inFlight = true → c' = c := by
      intro c' h'
      by_contra hne
      simp [hrest c' hne] at h'
    exact fun c₁ c₂ h₁ h₂ => (hone c₁ h₁).trans (hone c₂ h₂).symm
  · simp [hidle c] at hc
  · by_cases hcc : c' = c
    · exact hcc ▸ hinf
    · exact informed_of_not_inFlight (hrest c' hcc)

theorem differs (h : Inv listeners arg s) (hpc : s.pc c = .start)
    (halone : ∀ c', (s.pc c').inFlight = false) :
    Inv listeners arg (s.goto c (.notifying listeners)) := by
  refine of_inFlight (by rw [goto_pc_self]; rfl) (fun c' hc => ?_) ?_ ?_
    (h.fresh_goto (by simp [hpc]) _)
  · rw [goto_pc_of_ne hc]
    exact halone c'
  · unfold Informed
    rw [goto_pc_self]
    exact ⟨[], rfl, by simp⟩
  · intro x hx
    rcases h.notice x hx with ⟨hflight, -⟩ | hreplaced
    · simp [halone x.call] at hflight
    · exact Or.inr hreplaced

theorem notify (h : Inv listeners arg s) {i : ℕ} {rest : List ℕ}
    (hpc : s.pc c = .notifying (i :: rest)) :
    Inv listeners arg ((s.tell c i (arg c)).goto c (.notifying rest)) := by
  have hflight : (s.pc c).inFlight = true := by rw [hpc]; rfl
  refine of_inFlight (by rw [goto_pc_self]; rfl) (h.rest_idle_goto hflight _) ?_ ?_
    (h.fresh_goto (by simp [hpc]) _)
  · have hinf := h.informed c
    unfold Informed at hinf ⊢
    rw [hpc] at hinf
    rw [goto_pc_self]
    obtain ⟨told, htold, hseen⟩ := hinf
    refine ⟨told ++ [i], by simpa using htold, fun j hj => ?_⟩
    by_cases hji : j = i
    · rw [hji]
      exact update_self ..
    · have hmem : j ∈ told := by simpa [hji] using hj
      exact (update_of_ne hji _ _).trans (hseen j hmem)
  · intro x hx
    rcases List.mem_append.mp hx with hx | hx
    · exact h.notice_goto rfl x hx
    · obtain rfl := List.mem_singleton.mp hx
      exact Or.inl ⟨by rw [goto_pc_self]; rfl, rfl⟩

theorem unlock (h : Inv listeners arg s) (hpc : s.pc c = .notifying []) :
    Inv listeners arg (s.goto c .store) := by
  have hflight : (s.pc c).inFlight = true := by rw [hpc]; rfl
  refine of_inFlight (by rw [goto_pc_self]; rfl) (h.rest_idle_goto hflight _) ?_ ?_
    (h.fresh_goto (by simp [hpc]) _)
  · have hinf := h.informed c
    unfold Informed at hinf ⊢
    rw [hpc] at hinf
    rw [goto_pc_self]
    obtain ⟨told, htold, hseen⟩ := hinf
    rw [List.append_nil] at htold
    exact fun i hi => hseen i (htold ▸ hi)
  · exact h.notice_goto rfl

theorem store (h : Inv listeners arg s) (hpc : s.pc c = .store) :
    Inv listeners arg ((s.put c (arg c)).goto c .done) := by
  have hflight : (s.pc c).inFlight = true := by rw [hpc]; rfl
  have hidle (c' : Fin n) : (((s.put c (arg c)).goto c .done).pc c').inFlight = false := by
    by_cases hc : c' = c
    · subst hc
      rw [goto_pc_self]
      rfl
    · exact h.rest_idle_goto hflight .done c' hc
  have hinf := h.informed c
  unfold Informed at hinf
  rw [hpc] at hinf
  refine ⟨fun c₁ _ h₁ => ?_, fun _ i hi => hinf i hi,
    fun c' => informed_of_not_inFlight (hidle c'), fun x hx => Or.inr ?_, fun c' hr => ?_⟩
  · simp [hidle c₁] at h₁
  · rcases h.notice x hx with ⟨hx, hold⟩ | hreplaced
    · rw [h.one x.call c hx hflight, hold]
      exact update_self ..
    · have hne : x.call ≠ c := h.ne_of_replaced (by simp [hpc]) (by simp [hreplaced])
      exact (update_of_ne hne _ _).trans hreplaced
  · by_cases hc : c' = c
    · rw [hc, goto_pc_self]
    · rw [goto_pc_of_ne hc]
      exact h.fresh c' (by simpa [VarState.goto, put, hc] using hr)

theorem step [DecidableEq α] (h : Inv listeners arg s) (halone : Alone arg s c)
    (hstep : s.step listeners arg c = some s') : Inv listeners arg s' := by
  cases steps_of_step hstep with
  | same hpc heq => exact h.same hpc
  | differs hpc hne => exact h.differs hpc (halone hpc hne)
  | notify hpc => exact h.notify hpc
  | unlock hpc => exact h.unlock hpc
  | store hpc hfree => exact h.store hpc

end Inv

/-- The listeners agree with the stored value when changes do not overlap: for every number of
calls, every set of listeners and all values, in every run in which a call that finds another
value goes on only while no other call is between its comparison and its store. -/
theorem agreed_of_alone [DecidableEq α] (listeners : List ℕ) (arg : Fin n → α) (val : α)
    (schedule : List (Fin n)) (s : VarState n α)
    (halone : AllSteps (step listeners arg) (Alone arg) (initial n val) schedule)
    (hrun : run (step listeners arg) (initial n val) schedule = some s) : Agreed listeners s :=
  (run_invariant (Inv listeners arg) (fun _ _ _ h hG hs => h.step hG hs) (Inv.initial val)
    halone hrun).agreed

/-- Two calls, one after the other, and a third that finds its own value in between. -/
theorem agreed_of_alone_in_turn :
    ∃ s, run (step [7, 8] ![1, 2, 0]) (initial 3 0) [0, 0, 0, 2, 0, 0, 1, 1, 1, 1, 1] = some s ∧
      (∀ c, s.pc c = .done) ∧ s.val = 2 ∧ Agreed [7, 8] s := by
  refine ⟨_, rfl, by decide, rfl, ?_⟩
  refine agreed_of_alone [7, 8] ![1, 2, 0] 0 [0, 0, 0, 2, 0, 0, 1, 1, 1, 1, 1] _ ?_ rfl
  unfold Alone
  decide

/-- Two calls that overlap: both notify, the second stores first. The listener was told 2, the
variable holds 1, and the 0 that the first call told was not what it replaced. -/
theorem not_agreed_overlapping :
    ∃ s, run (step [7] ![1, 2]) (initial 2 0) [0, 0, 0, 1, 1, 1, 1, 0] = some s ∧
      (∀ c, s.pc c = .done) ∧ s.val = 1 ∧ s.seen 7 = 2 ∧ s.replaced 0 = some 2 ∧
      ¬Agreed [7] s := by
  refine ⟨_, rfl, by decide, rfl, rfl, rfl, fun hagreed => ?_⟩
  have hlast := hagreed.last (by decide) 7 (by simp)
  exact absurd hlast (by decide)

end VarState

end Xzmjx.ConfigModel
