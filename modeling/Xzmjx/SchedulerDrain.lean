import Xzmjx.SchedulerLedger
import Mathlib.Data.Multiset.Range

/-!
# No callback is lost or repeated

The ledger of a tidy run has one entry for each submitted callback, and the slices
that were started are exactly those the entries account for. While the queue is not
empty some thread has yet to look at it again before it leaves, so when all the
threads have left every entry is among those that ended.
-/
namespace Xzmjx.SchedulerModel
open Function StepSystem

/-- The slices that an entry accounts for. -/
def slices (entry : ℕ × ℕ) : Multiset (ℕ × ℕ) :=
  (Multiset.range entry.2).map fun k => (entry.1, k)

theorem slices_succ (c k : ℕ) : slices (c, k + 1) = slices (c, k) + {(c, k)} := by
  simp only [slices, Multiset.range_succ, Multiset.map_cons]
  rw [← Multiset.singleton_add, add_comm]

/-- The thread will scan the queue again before it leaves the loop. -/
def Thread.Stays (th : Thread) : Prop :=
  th.pc ≠ .left ∧ ¬ (th.pc = .wait ∧ th.waitTerm = true)

namespace State
variable {n : ℕ}

structure Accounted (s : State n) : Prop where
  entries : s.ledger.map Prod.fst = Multiset.range s.nextCb
  log : (s.log : Multiset (ℕ × ℕ)) = s.ledger.bind slices

structure Manned (s : State n) : Prop where
  unstopped : s.stopping = false → ∀ t, (s.threads t).waitTerm = false ∧ (s.threads t).pc ≠ .left
  stays : s.queue ≠ [] → ∃ t, (s.threads t).Stays

/-- Callbacks come in one at a time without thread affinity, from outside only before
`stop`, and their slices end by returning, throwing or yielding to `FIBER_READY`. -/
def CallbacksOnly (s : State n) : Label n → Prop
  | .advance _ | .stop => True
  | .submitInside _ threadId => threadId = none
  | .finish _ e => e ≠ .yieldToHold
  | .submit threadId => threadId = none ∧ s.stopping = false
  | .register _ | .spawn _ | .fire _ => False

instance decidableCallbacksOnly (s : State n) : ∀ a, Decidable (s.CallbacksOnly a)
  | .advance _ | .stop => isTrue trivial
  | .submitInside _ threadId => inferInstanceAs (Decidable (threadId = none))
  | .finish _ e => inferInstanceAs (Decidable (e ≠ .yieldToHold))
  | .submit threadId => inferInstanceAs (Decidable (threadId = none ∧ s.stopping = false))
  | .register _ | .spawn _ | .fire _ => isFalse id

theorem accounted_start (n : ℕ) : (start n).Accounted := by
  have hledger : (start n).ledger = 0 := by
    simp [ledger, queueCarries, start, Pc.carries]
  exact ⟨by rw [hledger]; rfl, by rw [hledger]; rfl⟩

theorem Accounted.sameBooks {s s' : State n} (h : s.Accounted) (hb : s.SameBooks s') :
    s'.Accounted := by
  refine ⟨?_, ?_⟩
  · rw [hb.ledger, hb.nextCb]
    exact h.entries
  · rw [hb.ledger, hb.log]
    exact h.log

theorem Accounted.starts {s s' : State n} (h : s.Accounted) {c k : ℕ} (hb : s.Starts s' c k) :
    s'.Accounted := by
  have hfst := congrArg (Multiset.map Prod.fst) hb.ledger
  have hbind := congrArg (fun m => Multiset.bind m slices) hb.ledger
  simp only [Multiset.map_add, Multiset.map_singleton, Multiset.add_bind, Multiset.singleton_bind,
    slices_succ] at hfst hbind
  refine ⟨?_, ?_⟩
  · rw [hb.nextCb, ← h.entries]
    exact add_right_cancel hfst
  · have hlog : s'.ledger.bind slices = s.ledger.bind slices + {(c, k)} := by
      refine add_right_cancel (b := slices (c, k)) (hbind.trans ?_)
      rw [add_assoc, add_comm (slices (c, k))]
    rw [hlog, ← h.log, hb.log]
    rfl

theorem Accounted.submitCb {s s' : State n} (h : s.Accounted)
    (hledger : s'.ledger = s.ledger + {(s.nextCb, 0)}) (hnext : s'.nextCb = s.nextCb + 1)
    (hlog : s'.log = s.log) : s'.Accounted := by
  refine ⟨?_, ?_⟩
  · rw [hledger, hnext, Multiset.map_add, h.entries, Multiset.range_succ, Multiset.map_singleton,
      add_comm]
    rfl
  · rw [hledger, hlog, h.log, Multiset.add_bind, Multiset.singleton_bind]
    simp [slices]

/-- No slice is in the log twice. -/
theorem Accounted.log_nodup {s : State n} (h : s.Accounted) : s.log.Nodup := by
  rw [← Multiset.coe_nodup, h.log, Multiset.nodup_bind]
  have hnodup : (s.ledger.map Prod.fst).Nodup := h.entries ▸ Multiset.nodup_range _
  refine ⟨fun entry _ => ?_, ?_⟩
  · exact Multiset.Nodup.map (fun a b hab => (Prod.mk.inj hab).2) (Multiset.nodup_range _)
  · refine Multiset.Nodup.pairwise (fun a ha b hb hab => ?_) hnodup.of_map
    refine Multiset.disjoint_left.mpr fun hxa hxb => hab ?_
    obtain ⟨_, -, rfl⟩ := Multiset.mem_map.mp hxa
    obtain ⟨_, -, heq⟩ := Multiset.mem_map.mp hxb
    exact Multiset.inj_on_of_nodup_map hnodup a ha b hb (Prod.mk.inj heq).1.symm

theorem manned_start (n : ℕ) : (start n).Manned :=
  ⟨fun _ _ => ⟨rfl, by simp [start]⟩, fun h => absurd rfl h⟩

/-- A step of one thread that leaves it in the loop, or finds the queue empty. -/
theorem Manned.turn {s s' : State n} (h : s.Manned) {t : Fin n} {th : Thread}
    (hthreads : s'.threads = Function.update s.threads t th) (hstop : s'.stopping = s.stopping)
    (hth : s.stopping = false → th.waitTerm = false ∧ th.pc ≠ .left)
    (hstays : th.Stays ∨ s'.queue = [] ∨ (s'.queue = s.queue ∧ ¬ (s.threads t).Stays)) :
    s'.Manned := by
  refine ⟨fun hns t' => ?_, fun hq => ?_⟩
  · rw [hthreads]
    by_cases htt : t' = t
    · subst htt
      rw [update_self]
      exact hth (hstop ▸ hns)
    · rw [update_of_ne htt]
      exact h.unstopped (hstop ▸ hns) t'
  · rcases hstays with hs | hempty | ⟨hsame, hnot⟩
    · exact ⟨t, by rw [hthreads, update_self]; exact hs⟩
    · exact absurd hempty hq
    · obtain ⟨t', ht'⟩ := h.stays (hsame ▸ hq)
      have hne : t' ≠ t := by
        rintro rfl
        exact hnot ht'
      exact ⟨t', by rw [hthreads, update_of_ne hne]; exact ht'⟩

/-- In a tidy state a scan that finds nothing has found the queue empty. -/
theorem Tidy.queue_eq_nil {s : State n} (h : s.Tidy) {self : ℕ}
    (hpick : pick self s.fibers s.queue = none) : s.queue = [] := by
  by_contra hne
  obtain ⟨task, htask⟩ := List.exists_mem_of_ne_nil _ hne
  have hp := h.queue task htask
  have hno := pick_eq_none hpick task htask
  cases hf : task.fiber with
  | none => simp [eligible, hp.threadId, hf] at hno
  | some f => simp [eligible, hp.threadId, hf, hp.ready f hf] at hno

/-- What a step of the loop can do to the thread. -/
theorem advance_thread {s s' : State n} {t : Fin n} (hs : s.advance t = some s') :
    s'.stopping = s.stopping ∧ ∃ th, s'.threads = Function.update s.threads t th ∧
      ((th.waitTerm = (s.threads t).waitTerm ∧ th.pc ≠ .left ∧ th.pc ≠ .wait) ∨
      (th.waitTerm = (s.threads t).waitTerm ∧ th.pc = .wait ∧
        pick t s.fibers s.queue = none ∧ s'.queue = s.queue) ∨
      ((s.threads t).pc = .wait ∧ (s.threads t).waitTerm = true ∧ s'.queue = s.queue) ∨
      (s.stopping = true ∧ th.pc = .pop)) := by
  cases advances_of_advance hs with
  | idle hpc hpick => exact ⟨rfl, _, rfl, .inr (.inl ⟨rfl, rfl, hpick, rfl⟩)⟩
  | leave hpc hterm => exact ⟨rfl, _, rfl, .inr (.inr (.inl ⟨hpc, hterm, rfl⟩))⟩
  | terminate hpc hcan =>
      have hstop : s.stopping = true := by
        simp only [canStop, Bool.and_eq_true] at hcan
        exact hcan.1.1
      exact ⟨rfl, _, rfl, .inr (.inr (.inr ⟨hstop, rfl⟩))⟩
  | notReady => split <;> exact ⟨rfl, _, rfl, .inl ⟨rfl, nofun, nofun⟩⟩
  | checkTerm => split <;> exact ⟨rfl, _, rfl, .inl ⟨rfl, nofun, nofun⟩⟩
  | checkExcept => split <;> exact ⟨rfl, _, rfl, .inl ⟨rfl, nofun, nofun⟩⟩
  -- the other steps stay in the loop and do not touch the wait fiber
  | _ => exact ⟨rfl, _, rfl, .inl ⟨rfl, nofun, nofun⟩⟩

theorem Manned.advance {s s' : State n} (h : s.Manned) (htidy : s.Tidy) {t : Fin n}
    (hs : s.advance t = some s') : s'.Manned := by
  obtain ⟨hstop, th, hthreads, ⟨hterm, hleft, hwait⟩ | ⟨hterm, hwait, hpick, hq⟩ |
    ⟨hpc, hterm, hq⟩ | ⟨hstopping, hpop⟩⟩ := advance_thread hs
  · refine h.turn hthreads hstop (fun hns => ⟨?_, hleft⟩) (.inl ⟨hleft, fun hw => hwait hw.1⟩)
    exact hterm.trans (h.unstopped hns t).1
  · refine h.turn hthreads hstop (fun hns => ⟨hterm.trans (h.unstopped hns t).1, ?_⟩)
      (.inr (.inl (hq.trans (htidy.queue_eq_nil hpick))))
    rw [hwait]
    decide
  · refine h.turn hthreads hstop (fun hns => ?_) (.inr (.inr ⟨hq, fun hst => hst.2 ⟨hpc, hterm⟩⟩))
    exact absurd (hterm.symm.trans (h.unstopped hns t).1) (by decide)
  · refine h.turn hthreads hstop (fun hns => ?_) (.inl ⟨by rw [hpop]; decide, ?_⟩)
    · exact absurd (hstopping.symm.trans hns) (by decide)
    · rw [hpop]
      simp

theorem Manned.finish {s s' : State n} (h : s.Manned) {t : Fin n} {e : Ending}
    (hs : s.finish t e = some s') : s'.Manned := by
  have hgoes : ∀ {s₁ : State n} {j : Job} {k : ℕ}, s₁.threads = s.threads →
      s₁.stopping = s.stopping → (s₁.goto t (.yielding j k)).Manned := by
    intro s₁ j k hthreads hstop
    have hupdate : (s₁.goto t (.yielding j k)).threads =
        Function.update s.threads t { s.threads t with pc := .yielding j k } := by
      simp [State.goto, hthreads]
    exact h.turn hupdate hstop (fun hns => ⟨(h.unstopped hns t).1, by simp⟩)
      (.inl ⟨by simp, by simp⟩)
  cases finishes_of_finish hs with
  | returns hpc | throws hpc | yieldToReady hpc | yieldToHold hpc => exact hgoes rfl rfl

/-- A submission finds a thread that stays in the loop. -/
theorem Manned.submitCb {s : State n} (h : s.Manned) {t : Fin n} (ht : (s.threads t).Stays)
    (threadId : Option ℕ) : (s.submitCb threadId).Manned :=
  ⟨h.unstopped, fun _ => ⟨t, ht⟩⟩

/-- What a run of callbacks keeps. -/
structure Runs (s : State n) : Prop where
  tidy : s.Tidy
  accounted : s.Accounted
  manned : s.Manned

theorem Runs.submitCb {s : State n} (h : s.Runs) {t : Fin n} (ht : (s.threads t).Stays) :
    (s.submitCb none).Runs :=
  ⟨h.tidy.submitCb.1, h.accounted.submitCb h.tidy.submitCb.2 rfl rfl, h.manned.submitCb ht none⟩

theorem Runs.step {s s' : State n} (h : s.Runs) (hn : 0 < n) {a : Label n}
    (ha : s.CallbacksOnly a) (hs : s.step a = some s') : s'.Runs := by
  cases steps_of_step hs with
  | advance hs =>
      obtain ⟨htidy, hsame | ⟨c, k, hstarts⟩⟩ := h.tidy.advance hs
      · exact ⟨htidy, h.accounted.sameBooks hsame, h.manned.advance h.tidy hs⟩
      · exact ⟨htidy, h.accounted.starts hstarts, h.manned.advance h.tidy hs⟩
  | @submitInside t _ _ _ threadId hpc =>
      obtain rfl : threadId = none := ha
      exact h.submitCb (t := t) ⟨by simp [hpc], by simp [hpc]⟩
  | finish hs =>
      obtain ⟨htidy, hsame⟩ := h.tidy.finish ha hs
      exact ⟨htidy, h.accounted.sameBooks hsame, h.manned.finish hs⟩
  | submit threadId =>
      obtain ⟨rfl, hns⟩ := ha
      obtain ⟨hterm, hleft⟩ := h.manned.unstopped hns ⟨0, hn⟩
      exact h.submitCb (t := ⟨0, hn⟩) ⟨hleft, fun hw => absurd (hterm.symm.trans hw.2) (by decide)⟩
  | stop =>
      exact ⟨⟨h.tidy.custody.congr rfl rfl rfl rfl, h.tidy.source, h.tidy.threads, h.tidy.queue⟩,
        ⟨h.accounted.entries, h.accounted.log⟩, ⟨fun hns => absurd hns (by simp), h.manned.stays⟩⟩
  | register hpc => exact absurd ha id
  | spawn threadId => exact absurd ha id
  | fire hf => exact absurd ha id

/-- Every thread has left `run()`. -/
def AllLeft (s : State n) : Prop := ∀ t, (s.threads t).pc = .left

instance decidableAllLeft (s : State n) : Decidable s.AllLeft :=
  inferInstanceAs (Decidable (∀ t, (s.threads t).pc = .left))

/-- The queue is empty and every submitted callback has ended. -/
def Drained (s : State n) : Prop := s.queue = [] ∧ ∀ c < s.nextCb, c ∈ s.ended.map Prod.fst

theorem Runs.drained {s : State n} (h : s.Runs) (hleft : s.AllLeft) : s.Drained := by
  have hq : s.queue = [] := by
    by_contra hne
    obtain ⟨t, ht⟩ := h.manned.stays hne
    exact ht.1 (hleft t)
  have hledger : s.ledger = (s.ended : Multiset (ℕ × ℕ)) := by
    have hthreads : ∑ t, (s.threads t).pc.carries s.fibers = 0 :=
      Finset.sum_eq_zero fun t _ => by rw [hleft t]; rfl
    simp [ledger, queueCarries, hq, hthreads]
  refine ⟨hq, fun c hc => ?_⟩
  have hmem : c ∈ s.ledger.map Prod.fst := by
    rw [h.accounted.entries]
    exact Multiset.mem_range.mpr hc
  rw [hledger] at hmem
  simpa using hmem

/-- With at least one thread, no slice of a callback is run twice, and when all threads
have left the queue is empty and every callback has ended. -/
theorem callbacks_run_once_and_drain (n : ℕ) (hn : 0 < n) (labels : List (Label n)) (s : State n)
    (hcallbacks : AllSteps step CallbacksOnly (start n) labels)
    (hrun : run step (start n) labels = some s) :
    s.log.Nodup ∧ (s.AllLeft → s.Drained) := by
  have h : s.Runs := run_invariant Runs (fun _ _ _ h ha hs => h.step hn ha hs)
    ⟨tidy_start n, accounted_start n, manned_start n⟩ hcallbacks hrun
  exact ⟨h.accounted.log_nodup, h.drained⟩

/-- One thread runs a callback in two slices, and leaves after `stop`. -/
theorem callbacks_run_once_and_drain_two_slices :
    ∃ s : State 1, run step (start 1)
        ([.submit none, .advance 0, .advance 0, .advance 0, .finish 0 .yieldToReady, .stop] ++
          List.replicate 7 (.advance 0) ++ [.finish 0 .returns] ++
          List.replicate 7 (.advance 0)) = some s ∧
      s.log = [(0, 0), (0, 1)] ∧ s.AllLeft ∧ s.Drained := by
  have hrun : ∀ labels : List (Label 1), AllSteps step CallbacksOnly (start 1) labels →
      (run step (start 1) labels).map (fun s => (s.log, (s.threads 0).pc)) =
        some ([(0, 0), (0, 1)], .left) →
      ∃ s, run step (start 1) labels = some s ∧ s.log = [(0, 0), (0, 1)] ∧ s.AllLeft ∧
        s.Drained := by
    intro labels hcallbacks hend
    obtain ⟨s, hs, hfields⟩ := Option.map_eq_some_iff.mp hend
    obtain ⟨hlog, hleft⟩ := Prod.mk.inj hfields
    have hall : s.AllLeft := fun t => (Subsingleton.elim t 0) ▸ hleft
    exact ⟨s, hs, hlog, hall,
      (callbacks_run_once_and_drain 1 (by decide) labels s hcallbacks hs).2 hall⟩
  exact hrun _ (by decide) (by decide)

/-- Without threads a callback stays in the queue for ever. -/
theorem callbacks_not_drained_without_threads :
    ∃ s : State 0, AllSteps step CallbacksOnly (start 0) [.submit none, .stop] ∧
      run step (start 0) [.submit none, .stop] = some s ∧ s.AllLeft ∧ ¬ s.Drained := by
  refine ⟨_, by decide, rfl, fun t => t.elim0, fun h => ?_⟩
  cases h.1

end State

end Xzmjx.SchedulerModel
