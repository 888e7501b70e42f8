import Mathlib.Algebra.BigOperators.Fin
import Mathlib.Algebra.BigOperators.Group.Finset.Basic
import Xzmjx.SchedulerModel

/-!
# Waking the threads of an IO manager

A thread of an IO manager that finds no task raises `m_idle_thread_num` and goes to `epoll_wait`,
for three seconds at the most. Whoever submits to an empty queue, and a scan that leaves a task
behind, call `notify`, which looks at that number and, if it is not zero, writes a byte into the
pipe; `epoll_wait` reports the pipe once for each write, to one thread, which reads it empty.

The scheduler is that of `SchedulerModel`; what is added is where a thread is in the wait fiber
and in `notify`. The look at the number and the write are two steps.
-/
namespace Xzmjx.WakeupModel
open Function StepSystem
open SchedulerModel (Pc Thread Ending eligible pick)

/-- Where a thread is outside of the scheduler's own steps. -/
inductive Phase
  | loop
  /-- `m_idle_thread_num` is raised; about to ask `canStop` and to call `epoll_wait`. -/
  | entering
  | blocked
  /-- `epoll_wait` has returned, with the pipe among the events while `tickled`. -/
  | woken (tickled : Bool)
  /-- The wait fiber has ended; about to lower `m_idle_thread_num`. -/
  | ended
  deriving DecidableEq, Repr

/-- What a thread in this phase adds to `m_idle_thread_num`. -/
def Phase.idle (p : Phase) : ℕ := if p = .loop then 0 else 1

structure IOThread where
  phase : Phase := .loop
  /-- In `notify`: about to look for idle threads, or about to write. -/
  notifying : Option Bool := none
  deriving DecidableEq, Repr

structure State (n : ℕ) where
  sched : SchedulerModel.State n
  /-- `m_idle_thread_num`. -/
  idle : ℕ
  /-- The bytes in the pipe, and whether `epoll_wait` has yet to report it. -/
  bytes : ℕ
  edge : Bool
  threads : Fin n → IOThread
  /-- Calls of `notify` by other threads: about to look, and about to write. -/
  calling : ℕ
  writing : ℕ

inductive Label (n : ℕ)
  /-- A step of the scheduler's model. -/
  | sched (a : SchedulerModel.Label n)
  /-- The wait fiber goes on; `quiet` if there is no timer and no registered event. -/
  | enter (t : Fin n) (quiet : Bool)
  /-- `epoll_wait` returns: with the pipe, or because of a timer, an event or the three seconds. -/
  | wake (t : Fin n) (tickled : Bool)
  /-- The pipe is read empty. -/
  | drain (t : Fin n)
  /-- The callback of a timer or of an event is submitted, or a fiber that waits for an event. -/
  | handOut (t : Fin n) (fiber : Option ℕ)
  /-- The wait fiber yields, or has ended; `--m_idle_thread_num`. -/
  | back (t : Fin n)
  | look (t : Fin n)
  | write (t : Fin n)
  /-- `notify` is called for a timer that came first, or by `stop`. -/
  | notify
  | lookOutside
  | writeOutside
  deriving DecidableEq, Repr

namespace State
variable {n : ℕ}

def start (n : ℕ) : State n where
  sched := .start n
  idle := 0
  bytes := 0
  edge := false
  threads := fun _ => {}
  calling := 0
  writing := 0

def setThread (s : State n) (t : Fin n) (th : IOThread) : State n :=
  { s with threads := update s.threads t th }

/-- The thread calls `notify` if `needNotify`. -/
def notifyBy (s : State n) (t : Fin n) (needNotify : Bool) : State n :=
  if needNotify then s.setThread t { s.threads t with notifying := some false } else s

/-- One step of `Scheduler::run`. What a scan passes over stays in the queue, so that `notify_me`
is set exactly if the queue is not empty behind it. -/
def advance (s : State n) (t : Fin n) : Option (State n) :=
  match (s.sched.threads t).pc with
  | .pop =>
      (s.sched.advance t).map fun sched => { s with sched }.notifyBy t (!sched.queue.isEmpty)
  | .resubmit _ =>
      (s.sched.advance t).map fun sched => { s with sched }.notifyBy t s.sched.queue.isEmpty
  | .wait =>
      if (s.sched.threads t).waitTerm then (s.sched.advance t).map fun sched => { s with sched }
      else some ({ s with idle := s.idle + 1 }.setThread t { s.threads t with phase := .entering })
  | _ => (s.sched.advance t).map fun sched => { s with sched }

/-- A step of the scheduler's model, with the call of `notify` that it makes. -/
def schedStep (s : State n) (a : SchedulerModel.Label n) : Option (State n) :=
  match a with
  | .advance t => if s.threads t = {} then s.advance t else none
  | .submitInside t _ =>
      if s.threads t = {} then
        (s.sched.step a).map fun sched => { s with sched }.notifyBy t s.sched.queue.isEmpty
      else none
  | .register t | .finish t _ =>
      if s.threads t = {} then (s.sched.step a).map fun sched => { s with sched } else none
  | .submit _ | .spawn _ | .fire _ =>
      (s.sched.step a).map fun sched =>
        { s with sched, calling := s.calling + if s.sched.queue.isEmpty then 1 else 0 }
  | .stop => (s.sched.step a).map fun sched => { s with sched }

/-- `IOManager::canStop`, and `epoll_wait` is called. -/
def enter (s : State n) (t : Fin n) (quiet : Bool) : State n :=
  if quiet && s.sched.canStop then
    { s with
      sched := s.sched.setThread t { s.sched.threads t with pc := .pop, waitTerm := true }
    }.setThread t { s.threads t with phase := .ended }
  else s.setThread t { s.threads t with phase := .blocked }

/-- The task that a thread submits behind `epoll_wait`. -/
def handOut (s : State n) (t : Fin n) (fiber : Option ℕ) : Option (State n) :=
  (s.sched.step (fiber.elim (.submit none) .fire)).map fun sched =>
    { s with sched }.notifyBy t s.sched.queue.isEmpty

/-- The end of the wait fiber's turn. -/
def back (s : State n) (t : Fin n) : Option (State n) :=
  match (s.threads t).phase with
  | .woken false =>
      some ({ s with sched := s.sched.goto t .pop, idle := s.idle - 1 }.setThread t {})
  | .ended => some ({ s with idle := s.idle - 1 }.setThread t {})
  | _ => none

/-- The byte is written, and the pipe is to be reported. -/
def tell (s : State n) : State n := { s with bytes := s.bytes + 1, edge := true }

def step (s : State n) : Label n → Option (State n)
  | .sched a => s.schedStep a
  | .enter t quiet => if s.threads t = ⟨.entering, none⟩ then some (s.enter t quiet) else none
  | .wake t true =>
      if s.threads t = ⟨.blocked, none⟩ ∧ s.edge = true ∧ s.bytes ≠ 0 then
        some ({ s with edge := false }.setThread t ⟨.woken true, none⟩)
      else none
  | .wake t false =>
      if s.threads t = ⟨.blocked, none⟩ then some (s.setThread t ⟨.woken false, none⟩) else none
  | .drain t =>
      if s.threads t = ⟨.woken true, none⟩ then
        some ({ s with bytes := 0 }.setThread t ⟨.woken false, none⟩)
      else none
  | .handOut t fiber =>
      match s.threads t with
      | ⟨.woken _, none⟩ => s.handOut t fiber
      | _ => none
  | .back t => if (s.threads t).notifying = none then s.back t else none
  | .look t =>
      if (s.threads t).notifying = some false then
        some (s.setThread t { s.threads t with
          notifying := if s.idle = 0 then none else some true })
      else none
  | .write t =>
      if (s.threads t).notifying = some true then
        some (s.tell.setThread t { s.threads t with notifying := none })
      else none
  | .notify => some { s with calling := s.calling + 1 }
  | .lookOutside =>
      if s.calling = 0 then none
      else some { s with
        calling := s.calling - 1
        writing := s.writing + if s.idle = 0 then 0 else 1 }
  | .writeOutside =>
      if s.writing = 0 then none else some { s.tell with writing := s.writing - 1 }

/-! ### Sleeping and waking -/

/-- The thread has found no task, and is not counted yet. -/
def InWindow (s : State n) (t : Fin n) : Prop :=
  (s.threads t).phase = .loop ∧ (s.sched.threads t).pc = .wait ∧
    (s.sched.threads t).waitTerm = false

/-- The thread is in `epoll_wait`, or will be before it looks at the queue again. -/
def Dozing (s : State n) (t : Fin n) : Prop :=
  s.InWindow t ∨ (s.threads t).phase = .entering ∨ (s.threads t).phase = .blocked

/-- The thread is about to scan the queue. -/
def Scanning (s : State n) (t : Fin n) : Prop :=
  ((s.threads t).phase = .loop ∧ (s.sched.threads t).pc = .pop) ∨
    (∃ tickled, (s.threads t).phase = .woken tickled) ∨ (s.threads t).phase = .ended

/-- Somebody will look at the queue: the pipe is to be reported, a `notify` is under way, or a
thread is about to scan. -/
inductive OnItsWay (s : State n) : Prop
  | pipe (edge : s.edge = true) (bytes : s.bytes ≠ 0)
  | calling (h : s.calling ≠ 0)
  | writing (h : s.writing ≠ 0)
  | notifying (t : Fin n) (h : (s.threads t).notifying ≠ none)
  | scanning (t : Fin n) (h : s.Scanning t)

/-- A look that finds no idle thread is not made while a thread is about to become one, be it the
thread that looks. -/
def Counted (s : State n) : Label n → Prop
  | .look _ | .lookOutside => s.idle = 0 → ∀ t, ¬s.InWindow t
  | _ => True

instance (s : State n) (t : Fin n) : Decidable (s.InWindow t) :=
  inferInstanceAs (Decidable (_ ∧ _ ∧ _))

instance (s : State n) : ∀ a, Decidable (s.Counted a)
  | .look _ | .lookOutside => inferInstanceAs (Decidable (s.idle = 0 → ∀ t, ¬s.InWindow t))
  | .sched _ | .enter _ _ | .wake _ _ | .drain _ | .handOut _ _ | .back _ | .write _ | .notify
  | .writeOutside => isTrue trivial

/-! ### What a step keeps -/

/-- A task in the queue is not forgotten while a thread dozes. -/
def Attended (s : State n) : Prop := s.sched.queue ≠ [] → ∀ t, s.Dozing t → s.OnItsWay

structure Inv (s : State n) : Prop where
  idle : s.idle = ∑ t, (s.threads t).phase.idle
  ended : ∀ t, (s.threads t).phase = .ended → (s.sched.threads t).pc = .pop
  attended : s.Attended

theorem inv_start (n : ℕ) : (start n).Inv where
  idle := (Finset.sum_eq_zero fun _ _ => rfl).symm
  ended t h := by cases h
  attended h := absurd rfl h

theorem sum_idle_update (g : Fin n → IOThread) (t : Fin n) (th : IOThread) :
    ∑ t', (update g t th t').phase.idle + (g t).phase.idle =
      ∑ t', (g t').phase.idle + th.phase.idle := by
  have hrest : ∑ t' ∈ Finset.univ.erase t, (update g t th t').phase.idle =
      ∑ t' ∈ Finset.univ.erase t, (g t').phase.idle := by
    refine Finset.sum_congr rfl fun t' ht' => ?_
    rw [update_of_ne (Finset.ne_of_mem_erase ht')]
  rw [← Finset.add_sum_erase _ _ (Finset.mem_univ t), hrest, update_self,
    ← Finset.add_sum_erase Finset.univ (fun t' => (g t').phase.idle) (Finset.mem_univ t)]
  omega

variable {s s' : State n} {t : Fin n}

theorem idle_pos (h : s.Inv) (hphase : (s.threads t).phase ≠ .loop) : s.idle ≠ 0 := by
  have hone : (s.threads t).phase.idle = 1 := if_neg hphase
  rw [h.idle, ← Finset.add_sum_erase _ _ (Finset.mem_univ t), hone]
  omega

/-- What one thread does is all that changes between the two states. -/
structure Turn (t : Fin n) (s s' : State n) : Prop where
  threads : ∀ t' ≠ t, s'.threads t' = s.threads t'
  sched : ∀ t' ≠ t, s'.sched.threads t' = s.sched.threads t'
  pipe : s.edge = true → s.bytes ≠ 0 → s'.edge = true ∧ s'.bytes ≠ 0
  calling : s.calling ≠ 0 → s'.calling ≠ 0
  writing : s.writing ≠ 0 → s'.writing ≠ 0

namespace Turn

theorem inWindow_iff (h : Turn t s s') {t' : Fin n} (hne : t' ≠ t) :
    s'.InWindow t' ↔ s.InWindow t' := by
  rw [InWindow, InWindow, h.threads t' hne, h.sched t' hne]

theorem dozing_iff (h : Turn t s s') {t' : Fin n} (hne : t' ≠ t) :
    s'.Dozing t' ↔ s.Dozing t' := by
  rw [Dozing, Dozing, h.inWindow_iff hne, h.threads t' hne]

/-- What was on its way still is, unless it was this thread. -/
theorem onItsWay (h : Turn t s s') (hway : s.OnItsWay)
    (ht : (s.threads t).notifying ≠ none ∨ s.Scanning t → s'.OnItsWay) : s'.OnItsWay := by
  cases hway with
  | pipe edge bytes => exact .pipe (h.pipe edge bytes).1 (h.pipe edge bytes).2
  | calling hc => exact .calling (h.calling hc)
  | writing hw => exact .writing (h.writing hw)
  | notifying t' hn =>
      by_cases hne : t' = t
      · subst hne
        exact ht (.inl hn)
      · exact .notifying t' (by rwa [h.threads t' hne])
  | scanning t' hs =>
      by_cases hne : t' = t
      · subst hne
        exact ht (.inr hs)
      · refine .scanning t' ?_
        rwa [Scanning, h.threads t' hne, h.sched t' hne]

/-- A turn that leaves the queue as it is, or behind which the queue is looked at. -/
theorem attended (h : Turn t s s') (ha : s.Attended)
    (hq : s'.sched.queue ≠ [] → s.sched.queue ≠ [] ∨ s'.OnItsWay)
    (hdoze : s'.Dozing t → s.Dozing t ∨ s'.OnItsWay)
    (ht : (s.threads t).notifying ≠ none ∨ s.Scanning t → s'.OnItsWay) : s'.Attended := by
  intro hne t' hd
  rcases hq hne with hold | hway
  · have hdoze' : s.Dozing t' ∨ s'.OnItsWay := by
      by_cases heq : t' = t
      · subst heq
        exact hdoze hd
      · exact .inl ((h.dozing_iff heq).mp hd)
    rcases hdoze' with hd | hway
    · exact h.onItsWay (ha hold t' hd) ht
    · exact hway
  · exact hway

end Turn

/-! ### The scheduler's own steps -/

/-- What the loop does to the queue, and where it leads: only a scan that finds nothing leads to
the wait fiber. -/
theorem advance_spec {s s' : SchedulerModel.State n} {t : Fin n} (hs : s.advance t = some s') :
    (∀ t' ≠ t, s'.threads t' = s.threads t') ∧
      (((s.threads t).pc = .pop ∧ ((pick t s.fibers s.queue = none ∧ s'.queue = s.queue) ∨
          ∃ task, pick t s.fibers s.queue = some (task, s'.queue))) ∨
        ((∃ j, (s.threads t).pc = .resubmit j) ∧ (s'.threads t).pc = .pop) ∨
        ((s.threads t).pc ≠ .pop ∧ (∀ j, (s.threads t).pc ≠ .resubmit j) ∧
          s'.queue = s.queue ∧ (s'.threads t).pc ≠ .wait)) := by
  have hothers : ∀ th, ∀ t' ≠ t, update s.threads t th t' = s.threads t' :=
    fun th t' hne => update_of_ne hne _ _
  cases SchedulerModel.State.advances_of_advance hs with
  | idle hpc hpick => exact ⟨hothers _, .inl ⟨hpc, .inl ⟨hpick, rfl⟩⟩⟩
  | take hpc hpick => exact ⟨hothers _, .inl ⟨hpc, .inr ⟨_, hpick⟩⟩⟩
  | resubmit hpc =>
      exact ⟨hothers _, .inr (.inl ⟨⟨_, hpc⟩, by simp [SchedulerModel.State.goto]⟩)⟩
  -- the other steps leave the queue as it is, and none of them leads to the wait fiber
  | branchFiber hpc | reuse hpc | construct hpc | resume hpc | switch hpc | lower hpc | ready hpc
  | recycle hpc | leave hpc | terminate hpc | again hpc =>
      refine ⟨hothers _, .inr (.inr ⟨by simp [hpc], by simp [hpc], rfl, ?_⟩)⟩
      simp [SchedulerModel.State.goto]
  | notReady hpc | checkTerm hpc | checkExcept hpc =>
      refine ⟨hothers _, .inr (.inr ⟨by simp [hpc], by simp [hpc], rfl, ?_⟩)⟩
      simp only [SchedulerModel.State.goto, SchedulerModel.State.setThread_threads, update_self]
      split_ifs <;> simp

@[simp] theorem setThread_threads (s : State n) (t : Fin n) (th : IOThread) :
    (s.setThread t th).threads = update s.threads t th := rfl
@[simp] theorem setThread_sched (s : State n) (t : Fin n) (th : IOThread) :
    (s.setThread t th).sched = s.sched := rfl
@[simp] theorem setThread_idle (s : State n) (t : Fin n) (th : IOThread) :
    (s.setThread t th).idle = s.idle := rfl

theorem notifyBy_sched (s : State n) (t : Fin n) (b : Bool) : (s.notifyBy t b).sched = s.sched := by
  rw [notifyBy]
  split_ifs <;> rfl

theorem notifyBy_phase (s : State n) (t : Fin n) (b : Bool) (t' : Fin n) :
    ((s.notifyBy t b).threads t').phase = (s.threads t').phase := by
  rw [notifyBy]
  split_ifs
  · by_cases hne : t' = t
    · subst hne
      simp
    · simp [hne]
  · rfl

theorem onItsWay_notifyBy (s : State n) (t : Fin n) : (s.notifyBy t true).OnItsWay :=
  .notifying t (by simp [notifyBy])

/-- The scheduler takes a step in which only `t` can move, and `t` calls `notify` or not. -/
theorem turn_notifyBy {sched : SchedulerModel.State n}
    (hothers : ∀ t' ≠ t, sched.threads t' = s.sched.threads t') (b : Bool) :
    Turn t s ({ s with sched }.notifyBy t b) := by
  refine ⟨fun t' hne => ?_, fun t' hne => ?_, fun he hb => ?_, fun hc => ?_, fun hw => ?_⟩
  · rw [notifyBy]
    split_ifs
    · exact update_of_ne hne _ _
    · rfl
  · rw [notifyBy_sched]
    exact hothers t' hne
  · rw [notifyBy]
    split_ifs <;> exact ⟨he, hb⟩
  · rw [notifyBy]
    split_ifs <;> exact hc
  · rw [notifyBy]
    split_ifs <;> exact hw

/-- A thread in its loop that does not scan has nothing on its way. -/
theorem unseen (ht : s.threads t = {}) (hpop : (s.sched.threads t).pc ≠ .pop) :
    ¬((s.threads t).notifying ≠ none ∨ s.Scanning t) := by
  rw [Scanning, ht]
  rintro (hn | ⟨-, hpc⟩ | ⟨b, hp⟩ | hp)
  · exact hn rfl
  · exact hpop hpc
  · cases hp
  · cases hp

namespace Inv

/-- After the turn of a thread the count is right, and the queue has been seen to. -/
theorem turn (h : s.Inv) (hturn : Turn t s s')
    (hidle : s'.idle + (s.threads t).phase.idle = s.idle + (s'.threads t).phase.idle)
    (hended : (s'.threads t).phase = .ended → (s'.sched.threads t).pc = .pop)
    (ha : s'.Attended) : s'.Inv where
  idle := by
    have hthreads : s'.threads = update s.threads t (s'.threads t) := by
      funext t'
      by_cases hne : t' = t
      · subst hne
        rw [update_self]
      · rw [update_of_ne hne, hturn.threads t' hne]
    have hsum := sum_idle_update s.threads t (s'.threads t)
    rw [← hthreads] at hsum
    have hold := h.idle
    omega
  ended t' ht' := by
    by_cases hne : t' = t
    · subst hne
      exact hended ht'
    · rw [hturn.threads t' hne] at ht'
      rw [hturn.sched t' hne]
      exact h.ended t' ht'
  attended := ha

/-- A step of the scheduler by a thread in its loop or behind `epoll_wait`. -/
theorem notifyBy (h : s.Inv) {sched : SchedulerModel.State n} (b : Bool)
    (hothers : ∀ t' ≠ t, sched.threads t' = s.sched.threads t')
    (hphase : (s.threads t).phase ≠ .ended) (ha : ({ s with sched }.notifyBy t b).Attended) :
    ({ s with sched }.notifyBy t b).Inv := by
  refine h.turn (turn_notifyBy hothers b) ?_ (fun he => ?_) ha
  · rw [notifyBy_phase, State.notifyBy]
    split_ifs <;> rfl
  · rw [notifyBy_phase] at he
    exact absurd he hphase

/-- A step of the scheduler that leaves the queue as it is, by a thread in its loop. -/
theorem sched (h : s.Inv) {sched : SchedulerModel.State n} (ht : s.threads t = {})
    (hothers : ∀ t' ≠ t, sched.threads t' = s.sched.threads t')
    (hqueue : sched.queue = s.sched.queue) (hpop : (s.sched.threads t).pc ≠ .pop)
    (hwait : (sched.threads t).pc ≠ .wait) : ({ s with sched } : State n).Inv := by
  have hphase : (s.threads t).phase = .loop := by rw [ht]
  refine h.notifyBy (t := t) false hothers (by simp [hphase])
    ((turn_notifyBy hothers false).attended h.attended (fun hq => .inl (hqueue ▸ hq))
      (fun hdoze => ?_) ?_)
  · rcases hdoze with ⟨-, hpc, -⟩ | hp | hp
    · exact absurd hpc hwait
    · exact .inl (.inr (.inl hp))
    · exact .inl (.inr (.inr hp))
  · exact fun hway => absurd hway (unseen ht hpop)

theorem advance (h : s.Inv) (ht : s.threads t = {}) (hs : s.advance t = some s') : s'.Inv := by
  have hphase : (s.threads t).phase = .loop := by rw [ht]
  have hplain : ∀ {sched : SchedulerModel.State n}, s.sched.advance t = some sched →
      (s.sched.threads t).pc ≠ .pop → (∀ j, (s.sched.threads t).pc ≠ .resubmit j) →
      ({ s with sched } : State n).Inv := by
    intro sched hadvance hpop hresubmit
    obtain ⟨hothers, ⟨hpc, -⟩ | ⟨⟨j, hpc⟩, -⟩ | ⟨-, -, hqueue, hwait⟩⟩ := advance_spec hadvance
    · exact absurd hpc hpop
    · exact absurd hpc (hresubmit j)
    · exact h.sched ht hothers hqueue hpop hwait
  unfold State.advance at hs
  split at hs
  · next hpc =>
      obtain ⟨sched, hadvance, rfl⟩ := Option.map_eq_some_iff.mp hs
      refine h.notifyBy _ (advance_spec hadvance).1 (by simp [hphase]) ?_
      intro hq
      rw [notifyBy_sched] at hq
      have hfull : (!sched.queue.isEmpty) = true := by simpa using hq
      rw [hfull]
      exact fun _ _ => onItsWay_notifyBy ..
  · next j hpc =>
      obtain ⟨sched, hadvance, rfl⟩ := Option.map_eq_some_iff.mp hs
      obtain ⟨hothers, ⟨hpop, -⟩ | ⟨-, hpop⟩ | ⟨-, hno, -⟩⟩ := advance_spec hadvance
      · rw [hpc] at hpop
        cases hpop
      · refine h.notifyBy _ hothers (by simp [hphase]) fun _ _ _ => .scanning t (.inl ⟨?_, ?_⟩)
        · rw [notifyBy_phase]
          exact hphase
        · rw [notifyBy_sched]
          exact hpop
      · exact absurd hpc (hno j)
  · next hpc =>
      split_ifs at hs with hterm
      · obtain ⟨sched, hadvance, rfl⟩ := Option.map_eq_some_iff.mp hs
        exact hplain hadvance (by simp [hpc]) (by simp [hpc])
      · -- the thread is counted, and dozes as before
        obtain rfl := Option.some.inj hs
        have hturn : Turn t s ({ s with idle := s.idle + 1 }.setThread t
            { s.threads t with phase := .entering }) :=
          ⟨fun t' hne => update_of_ne hne _ _, fun _ _ => rfl, fun he hb => ⟨he, hb⟩, id, id⟩
        refine h.turn hturn ?_ (fun he => ?_) (hturn.attended h.attended .inl
          (fun _ => .inl (.inl ⟨hphase, hpc, by simpa using hterm⟩)) ?_)
        · simp [hphase, Phase.idle]
        · simp at he
        · exact fun hway => absurd hway (unseen ht (by simp [hpc]))
  · next hpop hresubmit hwait =>
      obtain ⟨sched, hadvance, rfl⟩ := Option.map_eq_some_iff.mp hs
      exact hplain hadvance hpop hresubmit

/-- A submission to a queue that is not empty relies on what is on its way. -/
theorem relies (h : s.Inv) {sched : SchedulerModel.State n}
    (hthreads : sched.threads = s.sched.threads) (hqueue : s.sched.queue ≠ []) :
    ({ s with sched } : State n).Attended := by
  intro _ t hd
  have hd' : s.Dozing t := by
    rw [Dozing, InWindow] at hd ⊢
    rwa [← hthreads]
  cases h.attended hqueue t hd' with
  | pipe he hb => exact .pipe he hb
  | calling hc => exact .calling hc
  | writing hw => exact .writing hw
  | notifying t' hn => exact .notifying t' hn
  | scanning t' hs =>
      refine .scanning t' ?_
      rw [Scanning] at hs ⊢
      rwa [hthreads]

/-- A submission by a thread of the scheduler. -/
theorem inside (h : s.Inv) {sched : SchedulerModel.State n}
    (hthreads : sched.threads = s.sched.threads) (hphase : (s.threads t).phase ≠ .ended) :
    ({ s with sched }.notifyBy t s.sched.queue.isEmpty).Inv := by
  refine h.notifyBy _ (fun t' _ => congrFun hthreads t') hphase ?_
  cases hempty : s.sched.queue.isEmpty with
  | true => exact fun _ _ _ => onItsWay_notifyBy ..
  | false => exact h.relies hthreads (by simpa using hempty)

/-- A submission by another thread. -/
theorem outside (h : s.Inv) {sched : SchedulerModel.State n}
    (hthreads : sched.threads = s.sched.threads) :
    ({ s with sched, calling := s.calling + if s.sched.queue.isEmpty then 1 else 0 } :
      State n).Inv where
  idle := h.idle
  ended t ht := (congrArg (fun th => (th t).pc) hthreads).trans (h.ended t ht)
  attended := by
    cases hempty : s.sched.queue.isEmpty with
    | true => exact fun _ _ _ => .calling (Nat.succ_ne_zero _)
    | false => exact h.relies hthreads (by simpa using hempty)

theorem schedStep (h : s.Inv) {a : SchedulerModel.Label n} (hs : s.schedStep a = some s') :
    s'.Inv := by
  cases a with
  | advance t =>
      simp only [State.schedStep] at hs
      split_ifs at hs with ht
      exact h.advance ht hs
  | submitInside t threadId =>
      simp only [State.schedStep] at hs
      split_ifs at hs with ht
      obtain ⟨sched, hsched, rfl⟩ := Option.map_eq_some_iff.mp hs
      cases SchedulerModel.State.steps_of_step hsched with
      | submitInside _ hpc => exact h.inside rfl (by rw [ht]; decide)
  | register t =>
      simp only [State.schedStep] at hs
      split_ifs at hs with ht
      obtain ⟨sched, hsched, rfl⟩ := Option.map_eq_some_iff.mp hs
      cases SchedulerModel.State.steps_of_step hsched with
      | register hpc =>
          refine h.sched ht (fun t' hne => update_of_ne hne _ _) rfl (by simp [hpc]) ?_
          simp [SchedulerModel.State.goto]
  | finish t e =>
      simp only [State.schedStep] at hs
      split_ifs at hs with ht
      obtain ⟨sched, hsched, rfl⟩ := Option.map_eq_some_iff.mp hs
      cases SchedulerModel.State.finishes_of_finish hsched with
      | returns hpc | throws hpc | yieldToReady hpc | yieldToHold hpc =>
          refine h.sched ht (fun t' hne => update_of_ne hne _ _) rfl (by simp [hpc]) ?_
          simp [SchedulerModel.State.goto]
  | submit threadId =>
      simp only [State.schedStep] at hs
      obtain ⟨sched, hsched, rfl⟩ := Option.map_eq_some_iff.mp hs
      obtain rfl := Option.some.inj hsched
      exact h.outside rfl
  | spawn threadId =>
      simp only [State.schedStep] at hs
      obtain ⟨sched, hsched, rfl⟩ := Option.map_eq_some_iff.mp hs
      obtain rfl := Option.some.inj hsched
      exact h.outside rfl
  | fire f =>
      simp only [State.schedStep] at hs
      obtain ⟨sched, hsched, rfl⟩ := Option.map_eq_some_iff.mp hs
      cases SchedulerModel.State.steps_of_step hsched with
      | fire hf => exact h.outside rfl
  | stop =>
      simp only [State.schedStep] at hs
      obtain ⟨sched, hsched, rfl⟩ := Option.map_eq_some_iff.mp hs
      obtain rfl := Option.some.inj hsched
      exact ⟨h.idle, h.ended, fun hq => h.relies rfl hq hq⟩

/-- A look that finds nobody idle has missed nobody, so nobody dozes. -/
theorem not_dozing (h : s.Inv) (hidle : s.idle = 0) (hcounted : ∀ t, ¬s.InWindow t) (t : Fin n) :
    ¬s.Dozing t := by
  rintro (hw | hp | hp)
  · exact hcounted t hw
  · exact idle_pos h (t := t) (by simp [hp]) hidle
  · exact idle_pos h (t := t) (by simp [hp]) hidle

theorem enter (h : s.Inv) (ht : s.threads t = ⟨.entering, none⟩) (quiet : Bool) :
    (s.enter t quiet).Inv := by
  have hphase : (s.threads t).phase = .entering := by rw [ht]
  rw [State.enter]
  split_ifs with hstop
  · -- the queue is empty when the wait fiber ends
    have hempty : s.sched.queue = [] := by
      simp only [SchedulerModel.State.canStop, Bool.and_eq_true, List.isEmpty_iff] at hstop
      exact hstop.2.2
    refine h.turn (t := t) ⟨fun t' hne => update_of_ne hne _ _, fun t' hne => update_of_ne hne _ _,
      fun he hb => ⟨he, hb⟩, id, id⟩ ?_ (fun _ => by simp) fun hq => absurd hempty hq
    simp [hphase, Phase.idle]
  · have hturn : Turn t s (s.setThread t { s.threads t with phase := .blocked }) :=
      ⟨fun t' hne => update_of_ne hne _ _, fun _ _ => rfl, fun he hb => ⟨he, hb⟩, id, id⟩
    refine h.turn hturn ?_ (fun he => by simp at he)
      (hturn.attended h.attended .inl (fun _ => .inl (.inr (.inl hphase))) ?_)
    · simp [hphase, Phase.idle]
    · rw [Scanning, ht]
      simp

/-- A thread that comes out of `epoll_wait`, or reads the pipe, is about to scan. -/
theorem woken (h : s.Inv) (hphase : (s.threads t).phase ≠ .loop) {tickled : Bool}
    (hthreads : s'.threads = update s.threads t ⟨.woken tickled, none⟩)
    (hsched : s'.sched = s.sched) (hidle : s'.idle = s.idle) : s'.Inv where
  idle := by
    have hsum := sum_idle_update s.threads t ⟨.woken tickled, none⟩
    have hone : (s.threads t).phase.idle = 1 := if_neg hphase
    have hold := h.idle
    rw [hthreads, hidle]
    rw [show (⟨.woken tickled, none⟩ : IOThread).phase.idle = 1 from rfl] at hsum
    omega
  ended t' ht' := by
    rw [hthreads] at ht'
    rw [hsched]
    by_cases hne : t' = t
    · subst hne
      simp at ht'
    · exact h.ended t' (by simpa [hne] using ht')
  attended _ _ _ := .scanning t (.inr (.inl ⟨tickled, by rw [hthreads]; simp⟩))

theorem back (h : s.Inv) (hs : s.back t = some s') : s'.Inv := by
  unfold State.back at hs
  split at hs
  · next hphase =>
      obtain rfl := Option.some.inj hs
      refine h.turn (t := t) ⟨fun t' hne => update_of_ne hne _ _,
        fun t' hne => update_of_ne hne _ _, fun he hb => ⟨he, hb⟩, id, id⟩ ?_
        (fun he => by simp at he)
        fun _ _ _ => .scanning t (.inl ⟨by simp, by simp [SchedulerModel.State.goto]⟩)
      have hpos := idle_pos h (t := t) (by simp [hphase])
      simp [hphase, Phase.idle]
      omega
  · next hphase =>
      obtain rfl := Option.some.inj hs
      refine h.turn (t := t) ⟨fun t' hne => update_of_ne hne _ _, fun _ _ => rfl,
        fun he hb => ⟨he, hb⟩, id, id⟩ ?_ (fun he => by simp at he)
        fun _ _ _ => .scanning t (.inl ⟨by simp, h.ended t hphase⟩)
      have hpos := idle_pos h (t := t) (by simp [hphase])
      simp [hphase, Phase.idle]
      omega
  · cases hs

theorem look (h : s.Inv) (hcounted : s.idle = 0 → ∀ t, ¬s.InWindow t) :
    (s.setThread t { s.threads t with
      notifying := if s.idle = 0 then none else some true }).Inv := by
  have hturn : Turn t s (s.setThread t { s.threads t with
      notifying := if s.idle = 0 then none else some true }) :=
    ⟨fun t' hne => update_of_ne hne _ _, fun _ _ => rfl, fun he hb => ⟨he, hb⟩, id, id⟩
  refine h.turn hturn (by simp) (fun he => h.ended t (by simpa using he)) ?_
  by_cases hidle : s.idle = 0
  · intro _ t' hd
    have hsame : s.Dozing t' := by
      by_cases hne : t' = t
      · subst hne
        simpa [Dozing, InWindow] using hd
      · exact (hturn.dozing_iff hne).mp hd
    exact absurd hsame (h.not_dozing hidle (hcounted hidle) t')
  · exact fun _ _ _ => .notifying t (by simp [hidle])

theorem write (h : s.Inv) :
    (s.tell.setThread t { s.threads t with notifying := none }).Inv :=
  h.turn (t := t) ⟨fun t' hne => update_of_ne hne _ _, fun _ _ => rfl,
    fun _ _ => ⟨rfl, Nat.succ_ne_zero _⟩, id, id⟩ (by simp [tell])
    (fun he => h.ended t (by simpa using he)) fun _ _ _ => .pipe rfl (Nat.succ_ne_zero _)

theorem step (h : s.Inv) {a : Label n} (hcounted : s.Counted a) (hs : s.step a = some s') :
    s'.Inv := by
  cases a with
  | sched a => exact h.schedStep hs
  | enter t quiet =>
      simp only [State.step] at hs
      split_ifs at hs with ht
      obtain rfl := Option.some.inj hs
      exact h.enter ht quiet
  | wake t tickled =>
      cases tickled with
      | true =>
          simp only [State.step] at hs
          split_ifs at hs with ht
          obtain rfl := Option.some.inj hs
          exact h.woken (by rw [ht.1]; decide) rfl rfl rfl
      | false =>
          simp only [State.step] at hs
          split_ifs at hs with ht
          obtain rfl := Option.some.inj hs
          exact h.woken (by rw [ht]; decide) rfl rfl rfl
  | drain t =>
      simp only [State.step] at hs
      split_ifs at hs with ht
      obtain rfl := Option.some.inj hs
      exact h.woken (by rw [ht]; decide) rfl rfl rfl
  | handOut t fiber =>
      simp only [State.step] at hs
      split at hs
      · next tickled ht =>
          obtain ⟨sched, hsched, rfl⟩ := Option.map_eq_some_iff.mp hs
          refine h.inside ?_ (by rw [ht]; simp)
          cases fiber with
          | none =>
              obtain rfl := Option.some.inj hsched
              rfl
          | some f =>
              cases SchedulerModel.State.steps_of_step hsched with
              | fire hf => rfl
      · cases hs
  | back t =>
      simp only [State.step] at hs
      split_ifs at hs with ht
      exact h.back hs
  | look t =>
      rw [State.step] at hs
      by_cases ht : (s.threads t).notifying = some false
      · rw [if_pos ht] at hs
        obtain rfl := Option.some.inj hs
        exact h.look hcounted
      · rw [if_neg ht] at hs
        cases hs
  | write t =>
      simp only [State.step] at hs
      split_ifs at hs with ht
      obtain rfl := Option.some.inj hs
      exact h.write
  | notify =>
      obtain rfl := Option.some.inj hs
      exact ⟨h.idle, h.ended, fun _ _ _ => .calling (Nat.succ_ne_zero _)⟩
  | lookOutside =>
      rw [State.step] at hs
      by_cases hcalling : s.calling = 0
      · rw [if_pos hcalling] at hs
        cases hs
      · rw [if_neg hcalling] at hs
        obtain rfl := Option.some.inj hs
        refine ⟨h.idle, h.ended, fun _ t hd => ?_⟩
        by_cases hidle : s.idle = 0
        · exact absurd hd (h.not_dozing hidle (hcounted hidle) t)
        · exact .writing (by simp [hidle])
  | writeOutside =>
      simp only [State.step] at hs
      split_ifs at hs with hwriting
      obtain rfl := Option.some.inj hs
      exact ⟨h.idle, h.ended, fun _ _ _ => .pipe rfl (Nat.succ_ne_zero _)⟩

end Inv

/-- No thread sleeps in `epoll_wait` beside a task without something on its way that makes a
thread look at the queue, whatever the threads and their tasks do, unless a `notify` has found
nobody idle while a thread was about to be. -/
theorem sleepers_are_woken (labels : List (Label n)) (s : State n)
    (hcounted : AllSteps step Counted (start n) labels) (hrun : run step (start n) labels = some s)
    (hq : s.sched.queue ≠ []) (t : Fin n) (hblocked : (s.threads t).phase = .blocked) :
    s.OnItsWay :=
  (run_invariant Inv (fun _ _ _ h hg hs => h.step hg hs) (inv_start n) hcounted hrun).attended hq t
    (.inr (.inr hblocked))

/-- Two threads find nothing and go to sleep; a task is submitted, and the pipe is written. -/
def submitted (t u : Fin n) : List (Label n) :=
  [.sched (.advance t), .sched (.advance u), .sched (.advance t), .sched (.advance u),
    .enter t true, .enter u true, .sched (.submit none), .lookOutside, .writeOutside]

theorem sleepers_are_woken_submitted :
    ∃ s, run step (start 2) (submitted 0 1) = some s ∧ s.sched.queue.length = 1 ∧
      (s.threads 1).phase = .blocked ∧ s.OnItsWay := by
  have hend : (run step (start 2) (submitted 0 1)).map
      (fun s => (s.sched.queue.length, (s.threads 1).phase)) = some (1, .blocked) := by decide
  obtain ⟨s, hs, hfields⟩ := Option.map_eq_some_iff.mp hend
  obtain ⟨hlength, hphase⟩ := Prod.mk.inj hfields
  exact ⟨s, hs, hlength, hphase, sleepers_are_woken (submitted 0 1) s (by decide) hs
    (List.ne_nil_of_length_pos (by omega)) 1 hphase⟩

/-- The look comes between the scan and the count, and nothing is on its way to the task. -/
example : (run step (start 1)
    [.sched (.advance 0), .sched (.submit none), .lookOutside, .sched (.advance 0),
      .enter 0 true]).map (fun s => (s.sched.queue.length, s.threads 0, s.edge,
        s.calling + s.writing)) =
    some (1, ⟨.blocked, none⟩, false, 0) := by decide

end State

end Xzmjx.WakeupModel
