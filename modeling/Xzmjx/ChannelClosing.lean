import Xzmjx.ChannelModel

/-!
# Closing a channel

What a closed channel promises is that no push goes through any more and that nobody is left
waiting. `close` wakes one waiter of each queue, and `push` looks at the flag only after a
wait, so a run keeps the promise exactly when it needs neither more wakeups nor that look.
-/
namespace Xzmjx.ChannelModel
open StepSystem

variable {σ ι α : Type*}

namespace State
variable {s s' : State σ ι α} {a : Action σ ι α} {k : σ} {f : ι} {v : α} {out : Outcome α}

/-! ### What the calls do -/

section Attempts
variable [DecidableEq ι]

theorem isClosed_pushAttempt (h : s.pushAttempt k f v = some (s', out)) :
    s'.isClosed = s.isClosed := by
  unfold pushAttempt at h
  split at h
  · cases h
  · cases h; rfl
  · cases h; rfl

theorem isClosed_popAttempt (h : s.popAttempt k f = (s', out)) : s'.isClosed = s.isClosed := by
  unfold popAttempt at h
  split at h
  · cases h; rfl
  · cases h; rfl

theorem isClosed_resumed (h : s.resumed k f = some (s', out)) : s'.isClosed = s.isClosed := by
  unfold resumed at h
  split at h
  · cases h
  · split_ifs at h
    · cases h; rfl
    · exact isClosed_pushAttempt h
  · split_ifs at h
    · cases h; rfl
    · exact isClosed_popAttempt (Option.some.inj h)

/-- A push is refused by a full buffer only. -/
theorem pushAttempt_refused_iff (h : s.pushAttempt k f v = some (s', out)) :
    out ≠ .pushed true ∧ s'.data = s.data ↔ s.data.full = true := by
  unfold pushAttempt at h
  split at h
  · cases h
  · next data hpush =>
      have hroom : ¬s.data.full = true := by
        rw [CircleBuffer.full_iff_of_push hpush]
        exact Bool.true_eq_false.mp
      cases h
      exact iff_of_false (fun hrefused => hrefused.1 rfl) hroom
  · next data hpush =>
      cases h
      exact iff_of_true ⟨by simp, rfl⟩
        ((CircleBuffer.full_iff_of_push hpush).mpr rfl)

/-- A fiber that is resumed on a closed channel only leaves. -/
theorem resumed_closed (hclosed : s.isClosed = true) (h : s.resumed k f = some (s', out)) :
    out ≠ .pushed true ∧ s'.data = s.data := by
  unfold resumed at h
  split at h
  · cases h
  · rw [if_pos hclosed] at h
    cases h
    exact ⟨by simp, rfl⟩
  · rw [if_pos hclosed] at h
    cases h
    exact ⟨by simp, rfl⟩

end Attempts

theorem isClosed_shut : s.shut.isClosed = true := by
  unfold shut
  split_ifs with h
  · exact h
  · rfl

theorem notify_eq (q submitted : WaitQueue σ ι) :
    notify q submitted = (q.tail, submitted ++ q.take 1) := by
  cases q with
  | nil => rw [List.take_nil, List.append_nil]; rfl
  | cons w ws => rfl

/-- What `close` does on an open channel. -/
theorem shut_open (hopen : ¬s.isClosed = true) :
    s.shut.emptyCond = s.emptyCond.tail ∧ s.shut.fullCond = s.fullCond.tail ∧
      s.shut.submitted = s.submitted ++ s.emptyCond.take 1 ++ s.fullCond.take 1 := by
  rw [shut, if_neg hopen]
  simp [notifyEmpty, notifyFull, notify_eq]

theorem tail_eq_nil_iff (q : WaitQueue σ ι) : q.tail = [] ↔ q.length ≤ 1 := by
  rw [← List.length_eq_zero_iff, List.length_tail]
  omega

/-- `close` wakes everybody where each queue holds one waiter at most. -/
theorem wakes_iff_of_open (hopen : ¬s.isClosed = true) :
    (s.shut.emptyCond = [] ∧ s.shut.fullCond = [] ∧
      ∀ w, w ∈ s.emptyCond ∨ w ∈ s.fullCond → w ∈ s.shut.submitted) ↔
    s.emptyCond.length ≤ 1 ∧ s.fullCond.length ≤ 1 := by
  obtain ⟨hempty, hfull, hsubmitted⟩ := shut_open hopen
  rw [hempty, hfull, hsubmitted, tail_eq_nil_iff, tail_eq_nil_iff]
  constructor
  · rintro ⟨h₁, h₂, -⟩
    exact ⟨h₁, h₂⟩
  · rintro ⟨h₁, h₂⟩
    refine ⟨h₁, h₂, fun w hw => ?_⟩
    rw [List.take_of_length_le h₁, List.take_of_length_le h₂, List.append_assoc]
    exact List.mem_append_right _ (List.mem_append.mpr hw)

theorem wakes_iff_of_closed (hclosed : s.isClosed = true) :
    (s.shut.emptyCond = [] ∧ s.shut.fullCond = [] ∧
      ∀ w, w ∈ s.emptyCond ∨ w ∈ s.fullCond → w ∈ s.shut.submitted) ↔
    s.emptyCond = [] ∧ s.fullCond = [] := by
  rw [shut, if_pos hclosed]
  constructor
  · rintro ⟨h₁, h₂, -⟩
    exact ⟨h₁, h₂⟩
  · rintro ⟨h₁, h₂⟩
    refine ⟨h₁, h₂, ?_⟩
    rintro w (hw | hw)
    · rw [h₁] at hw
      cases hw
    · rw [h₂] at hw
      cases hw

end State

/-! ### What a closed channel promises -/

variable [DecidableEq σ] [DecidableEq ι]

/-- The action goes on with a push. -/
def Pushing (s : State σ ι α) : Action σ ι α → Prop
  | .push _ _ _ => True
  | .resume _ f => ∃ v, s.pc f = .inPush v
  | _ => False

/-- No value is stored by a push, and no push returns true. -/
def Refuses (s : State σ ι α) (a : Action σ ι α) : Prop :=
  Pushing s a → ∀ s' out, s.exec a = some (s', out) → out ≠ .pushed true ∧ s'.data = s.data

/-- After `close` both queues are empty, and their waiters were submitted. -/
def Wakes (s : State σ ι α) : Action σ ι α → Prop
  | .close f => ∀ s' out, s.exec (.close f) = some (s', out) →
      s'.emptyCond = [] ∧ s'.fullCond = [] ∧
        ∀ w, w ∈ s.emptyCond ∨ w ∈ s.fullCond → w ∈ s'.submitted
  | _ => True

/-- Every `close` of the run wakes everybody, and nothing is pushed after it. -/
structure ClosesForGood (s : State σ ι α) (as : List (Action σ ι α)) : Prop where
  wakes : AllSteps State.step Wakes s as
  final : ∀ before f after, as = before ++ .close f :: after →
    ∀ mid, run State.step s (before ++ [.close f]) = some mid →
      AllSteps State.step Refuses mid after

/-- A call of `push` on a closed channel finds the buffer full. -/
def FindsFull (s : State σ ι α) : Action σ ι α → Prop
  | .push _ _ _ => s.isClosed = true → s.data.full = true
  | _ => True

/-- The call that closes the channel finds one waiter in each queue at most, and any other call
of `close` finds none. -/
def FindsFew (s : State σ ι α) : Action σ ι α → Prop
  | .close _ =>
      if s.isClosed then s.emptyCond = [] ∧ s.fullCond = []
      else s.emptyCond.length ≤ 1 ∧ s.fullCond.length ≤ 1
  | _ => True

namespace State
variable {s s' : State σ ι α} {a : Action σ ι α} {k : σ} {f : ι} {v : α} {out : Outcome α}

theorem exec_of_step (h : s.step a = some s') : ∃ out, s.exec a = some (s', out) := by
  obtain ⟨⟨s'', out⟩, hexec, rfl⟩ := Option.map_eq_some_iff.mp h
  exact ⟨out, hexec⟩

theorem exec_push (h : s.exec (.push k f v) = some (s', out)) :
    s.pushAttempt k f v = some (s', out) := by
  unfold exec at h
  dsimp only at h
  split at h
  · exact h
  · cases h

theorem exec_pop (h : s.exec (.pop k f) = some (s', out)) : s.popAttempt k f = (s', out) := by
  unfold exec at h
  dsimp only at h
  split at h
  · exact Option.some.inj h
  · cases h

theorem exec_resume (h : s.exec (.resume k f) = some (s', out)) :
    { s with submitted := s.submitted.erase (k, f) }.resumed k f = some (s', out) := by
  unfold exec at h
  dsimp only at h
  split_ifs at h
  exact h

theorem exec_close (h : s.exec (.close f) = some (s', out)) : s' = s.shut := by
  unfold exec at h
  dsimp only at h
  split at h
  · cases h; rfl
  · cases h

/-- A channel is closed by `close` and never opened again. -/
theorem isClosed_step (h : s.step a = some s') :
    s'.isClosed = true ↔ s.isClosed = true ∨ ∃ f, a = .close f := by
  obtain ⟨out, hexec⟩ := exec_of_step h
  cases a with
  | push k f v => simp [isClosed_pushAttempt (exec_push hexec)]
  | pop k f => simp [isClosed_popAttempt (exec_pop hexec)]
  | resume k f => simp [isClosed_resumed (exec_resume hexec)]
  | close f =>
      rw [exec_close hexec]
      exact iff_of_true isClosed_shut (Or.inr ⟨f, rfl⟩)

/-- On a closed channel only a new call of `push` can go through. -/
theorem refuses_iff (h : s.step a = some s') (hclosed : s.isClosed = true) :
    Refuses s a ↔ FindsFull s a := by
  obtain ⟨out, hexec⟩ := exec_of_step h
  cases a with
  | push k f v =>
      rw [FindsFull, ← pushAttempt_refused_iff (exec_push hexec)]
      constructor
      · intro hrefuses _
        exact hrefuses trivial s' out hexec
      · intro hfull _ s'' out' hexec'
        cases hexec.symm.trans hexec'
        exact hfull hclosed
  | resume k f =>
      refine iff_of_true (fun _ s'' out' hexec' => ?_) trivial
      exact resumed_closed (s := { s with submitted := s.submitted.erase (k, f) }) hclosed
        (exec_resume hexec')
  | pop k f => exact iff_of_true (fun hpushing => hpushing.elim) trivial
  | close f => exact iff_of_true (fun hpushing => hpushing.elim) trivial

theorem wakes_iff (h : s.step a = some s') : Wakes s a ↔ FindsFew s a := by
  obtain ⟨out, hexec⟩ := exec_of_step h
  cases a with
  | push k f v => exact Iff.rfl
  | pop k f => exact Iff.rfl
  | resume k f => exact Iff.rfl
  | close f =>
      have hshut : Wakes s (.close f) ↔ (s.shut.emptyCond = [] ∧ s.shut.fullCond = [] ∧
          ∀ w, w ∈ s.emptyCond ∨ w ∈ s.fullCond → w ∈ s.shut.submitted) := by
        constructor
        · intro hwakes
          rw [← exec_close hexec]
          exact hwakes s' out hexec
        · intro hwakes s'' out' hexec'
          rw [exec_close hexec']
          exact hwakes
      rw [hshut, FindsFew]
      split_ifs with hclosed
      · exact wakes_iff_of_closed hclosed
      · exact wakes_iff_of_open hclosed

end State

/-! ### Whole runs -/

section Runs
variable {s t : State σ ι α} {as : List (Action σ ι α)}

/-- Nothing is pushed from a closed state on. -/
theorem refuses_run_iff (hclosed : s.isClosed = true) (hrun : run State.step s as = some t) :
    AllSteps State.step Refuses s as ↔ AllSteps State.step FindsFull s as := by
  apply allSteps_congr_of_run (fun s => s.isClosed = true) _ _ hclosed hrun
  · intro s a s' hclosed hs'
    exact State.refuses_iff hs' hclosed
  · intro s a s' hclosed hs'
    exact (State.isClosed_step hs').mpr (Or.inl hclosed)

/-- Nothing is pushed after a `close` of the run. -/
def RefusesAfterClose (s : State σ ι α) (as : List (Action σ ι α)) : Prop :=
  ∀ before f after, as = before ++ .close f :: after →
    ∀ mid, run State.step s (before ++ [.close f]) = some mid →
      AllSteps State.step Refuses mid after

theorem refusesAfterClose_of_refuses (h : AllSteps State.step Refuses s as) :
    RefusesAfterClose s as := by
  intro before f after has mid hmid
  have hsplit : as = (before ++ [.close f]) ++ after := by
    rw [has, List.append_assoc]
    rfl
  exact (hsplit ▸ h).drop hmid

/-- The first step counts if it is a `close`; the others are those of the rest of the run. -/
theorem refusesAfterClose_cons {a : Action σ ι α} {s' : State σ ι α} (hs' : s.step a = some s') :
    RefusesAfterClose s (a :: as) ↔
      (∀ f, a = .close f → AllSteps State.step Refuses s' as) ∧ RefusesAfterClose s' as := by
  constructor
  · intro h
    constructor
    · rintro f rfl
      exact h [] f as rfl s' (run_cons.mpr ⟨s', hs', rfl⟩)
    · intro before f after has mid hmid
      exact h (a :: before) f after (by rw [has]; rfl) mid (run_cons.mpr ⟨s', hs', hmid⟩)
  · rintro ⟨hfirst, hrest⟩ before f after has mid hmid
    cases before with
    | nil =>
        obtain ⟨rfl, rfl⟩ := List.cons.inj has
        obtain ⟨u, hu, hmid⟩ := run_cons.mp hmid
        cases hs'.symm.trans hu
        cases hmid
        exact hfirst f rfl
    | cons b before =>
        obtain ⟨rfl, hafter⟩ := List.cons.inj has
        obtain ⟨u, hu, hmid⟩ := run_cons.mp hmid
        cases hs'.symm.trans hu
        exact hrest before f after hafter mid hmid

/-- Only the calls of `push` after a `close` have to find the buffer full. -/
theorem refusesAfterClose_iff (hopen : ¬s.isClosed = true) (hrun : run State.step s as = some t) :
    RefusesAfterClose s as ↔ AllSteps State.step FindsFull s as := by
  induction as generalizing s with
  | nil =>
      refine iff_of_true (fun before f after has => ?_) trivial
      cases before <;> cases has
  | cons a as ih =>
      obtain ⟨s', hs', hrest⟩ := run_cons.mp hrun
      have hfinds : FindsFull s a := by
        cases a with
        | push k f v => exact fun hclosed => absurd hclosed hopen
        | _ => exact trivial
      rw [allSteps_cons hs', and_iff_right hfinds, refusesAfterClose_cons hs']
      by_cases hclose : ∃ f, a = .close f
      · obtain ⟨f, rfl⟩ := hclose
        have hclosed : s'.isClosed = true := (State.isClosed_step hs').mpr (Or.inr ⟨f, rfl⟩)
        rw [← refuses_run_iff hclosed hrest]
        exact ⟨fun h => h.1 f rfl, fun h => ⟨fun _ _ => h, refusesAfterClose_of_refuses h⟩⟩
      · have hopen' : ¬s'.isClosed = true := by
          rw [State.isClosed_step hs', not_or]
          exact ⟨hopen, hclose⟩
        rw [ih hopen' hrest]
        exact and_iff_right fun f hf => absurd ⟨f, hf⟩ hclose

/-- A channel closes for good in exactly the runs whose every step finds what the code takes
for granted. -/
theorem closesForGood_iff (data : CircleBuffer α) (as : List (Action σ ι α)) (t : State σ ι α)
    (hrun : run State.step (State.init data) as = some t) :
    ClosesForGood (State.init data) as ↔
      AllSteps State.step (fun s a => FindsFew s a ∧ FindsFull s a) (State.init data) as := by
  have hopen : ¬(State.init data : State σ ι α).isClosed = true := Bool.false_ne_true
  have hwakes : AllSteps State.step Wakes (State.init data) as ↔
      AllSteps State.step FindsFew (State.init data) as := by
    apply allSteps_congr_of_run (fun _ => True) _ (fun _ _ _ _ _ => trivial) trivial hrun
    intro s a s' _ hs'
    exact State.wakes_iff hs'
  rw [allSteps_and, ← hwakes, ← refusesAfterClose_iff hopen hrun]
  exact ⟨fun h => ⟨h.wakes, h.final⟩, fun h => ⟨h.1, h.2⟩⟩

/-- Two fibers wait for a value when a third closes the channel, and one of them is left in
the queue. On a channel with a free slot a fourth pushes after it was closed. -/
theorem left_waiting_and_pushed :
    (run State.step (State.init CircleBuffer.default : State Unit ℕ ℕ)
        [.pop () 0, .pop () 1, .close 2]).map (fun t => (t.isClosed, t.fullCond, t.submitted)) =
      some (true, [((), 1)], [((), 0)]) ∧
    (run State.step (State.init (CircleBuffer.init [0]) : State Unit ℕ ℕ)
        [.close 2, .push () 3 7]).map (fun t => (t.isClosed, t.data.container)) =
      some (true, [7]) ∧
    ¬ClosesForGood (State.init CircleBuffer.default : State Unit ℕ ℕ)
      [.pop () 0, .pop () 1, .close 2] := by
  refine ⟨rfl, rfl, fun hgood => ?_⟩
  have hwakes := ((hgood.wakes.2 _ rfl).2 _ rfl).1 _ _ rfl
  cases hwakes.2.1

/-- One waiter, woken by the call that closes the channel, and a push that waits. -/
theorem closesForGood_iff_one_waiter :
    ClosesForGood (State.init CircleBuffer.default : State Unit ℕ ℕ)
        [.pop () 0, .close 2, .push () 3 7, .resume () 0] ↔
      AllSteps State.step (fun s a => FindsFew s a ∧ FindsFull s a)
        (State.init CircleBuffer.default : State Unit ℕ ℕ)
        [.pop () 0, .close 2, .push () 3 7, .resume () 0] :=
  closesForGood_iff CircleBuffer.default _ _ rfl

end Runs

end Xzmjx.ChannelModel
