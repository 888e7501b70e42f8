import Mathlib.Logic.Function.Basic
import Mathlib.Data.Fin.Basic
import Mathlib.Tactic.Common
import Xzmjx.StepSystem

/-!
# The scheduler

Each of `n` threads runs the loop of `Scheduler::run`. A thread is where it is
in the loop (`Pc`) together with its locals; queue accesses under `m_mutex` are
one step, and so are the store of `m_state` in a yield, the context switch that
follows it, and each of the state checks after `resume`. A fiber is named by the
number of its construction and a callback by the number of its submission.

A context is modelled by the slice of the callback that it resumes: `resume`
starts the slice that was saved last, the context switch in `yield` saves the
next one. `log` records every slice that was started and `ended` every callback
that ended with the number of slices it took; both are only written.

What runs inside a fiber is up to the labels of a run. A fiber waits by
registering with an event source, which submits it once, and then yielding to
`FIBER_HOLD`.
-/
namespace Xzmjx.SchedulerModel
open Function

inductive FiberState
  | init
  | running
  | hold
  | ready
  | term
  | except
  deriving DecidableEq, Repr

structure Fiber where
  state : FiberState := .init
  cb : Option ℕ := none
  /-- The slice at which the saved context goes on. -/
  slice : ℕ := 0
  deriving DecidableEq, Repr

/-- `Scheduler::Task`; a `threadId` of -1 is `none`. -/
structure Task where
  fiber : Option ℕ := none
  taskCb : Option ℕ := none
  threadId : Option ℕ := none
  deriving DecidableEq, Repr

/-- The fiber that the loop resumes: the one of the task, or `task_fb` (`own`). The
`threadId` is that of the task, which was reset in the second case. -/
structure Job where
  own : Bool
  fiber : ℕ
  threadId : Option ℕ
  deriving DecidableEq, Repr

/-- Where a thread is in `Scheduler::run`. -/
inductive Pc
  /-- About to scan the queue. -/
  | pop
  /-- The scan took a task out of the queue. -/
  | branch (task : Task)
  /-- `m_active_thread_num` is raised; about to call `resume`. -/
  | resume (j : Job)
  /-- Inside the fiber; `waits` if the slice registered with an event source. -/
  | running (j : Job) (slice : ℕ) (waits : Bool)
  /-- In `yield`, `m_state` is stored and the context is not saved yet. -/
  | yielding (j : Job) (slice : ℕ)
  /-- Back from `resume`, before `--m_active_thread_num`. -/
  | switched (j : Job)
  /-- About to compare the state with `FIBER_READY`. -/
  | check (j : Job)
  /-- The state was `FIBER_READY`; about to submit the fiber again. -/
  | resubmit (j : Job)
  /-- About to compare the state of `task_fb` with `FIBER_TERM`. -/
  | checkTerm (j : Job)
  /-- About to compare the state of `task_fb` with `FIBER_EXCEPT`. -/
  | checkExcept (j : Job)
  /-- About to call `task_fb->reset(nullptr)`. -/
  | recycle (j : Job)
  /-- No task was found. -/
  | wait
  | left
  deriving DecidableEq, Repr

structure Thread where
  pc : Pc := .pop
  /-- `task_fb` while no callback runs on it; otherwise it is the fiber of the job. -/
  taskFb : Option ℕ := none
  /-- The wait fiber of the thread is `FIBER_TERM`. -/
  waitTerm : Bool := false
  deriving DecidableEq, Repr

structure State (n : ℕ) where
  fibers : ℕ → Fiber
  nextFiber : ℕ
  queue : List Task
  active : ℕ
  stopping : Bool
  threads : Fin n → Thread
  /-- The fibers that an event source is going to submit. -/
  source : List ℕ
  nextCb : ℕ
  log : List (ℕ × ℕ)
  ended : List (ℕ × ℕ)

/-- How the slice of a callback ends. -/
inductive Ending
  | returns
  | throws
  | yieldToReady
  | yieldToHold
  deriving DecidableEq, Repr

inductive Label (n : ℕ)
  /-- The next step of a thread in `run`, `resume` or `yield`. -/
  | advance (t : Fin n)
  /-- The fiber on the thread submits a new callback. -/
  | submitInside (t : Fin n) (threadId : Option ℕ)
  /-- The fiber on the thread registers with an event source. -/
  | register (t : Fin n)
  /-- The slice on the thread ends: the store of `m_state`. -/
  | finish (t : Fin n) (e : Ending)
  /-- A new callback is submitted from outside. -/
  | submit (threadId : Option ℕ)
  /-- A new fiber is submitted from outside. -/
  | spawn (threadId : Option ℕ)
  /-- The event source submits a fiber that registered with it. -/
  | fire (f : ℕ)
  | stop
  deriving DecidableEq, Repr

/-- The test of the scan, for the thread with the given id. -/
def eligible (self : ℕ) (fibers : ℕ → Fiber) (task : Task) : Bool :=
  (task.threadId.all fun i => i = self) && (task.fiber.all fun f => (fibers f).state ≠ .running)

/-- The scan of the queue: the first task the thread may take, and the rest. -/
def pick (self : ℕ) (fibers : ℕ → Fiber) : List Task → Option (Task × List Task)
  | [] => none
  | task :: tasks =>
      if eligible self fibers task then some (task, tasks)
      else (pick self fibers tasks).map fun p => (p.1, task :: p.2)

/-- The assertion in `Fiber::reset`. -/
def FiberState.resettable (s : FiberState) : Bool := s = .init || s = .except || s = .term

namespace State
variable {n : ℕ}

/-- The state after `start`: every thread at the top of its loop. -/
def start (n : ℕ) : State n where
  fibers := fun _ => {}
  nextFiber := 0
  queue := []
  active := 0
  stopping := false
  threads := fun _ => {}
  source := []
  nextCb := 0
  log := []
  ended := []

def setThread (s : State n) (t : Fin n) (th : Thread) : State n :=
  { s with threads := update s.threads t th }

def goto (s : State n) (t : Fin n) (pc : Pc) : State n :=
  s.setThread t { s.threads t with pc }

def setFiber (s : State n) (f : ℕ) (fb : Fiber) : State n :=
  { s with fibers := update s.fibers f fb }

@[simp] theorem setThread_threads (s : State n) (t : Fin n) (th : Thread) :
    (s.setThread t th).threads = update s.threads t th := rfl
@[simp] theorem setThread_fibers (s : State n) (t : Fin n) (th : Thread) :
    (s.setThread t th).fibers = s.fibers := rfl
@[simp] theorem goto_fibers (s : State n) (t : Fin n) (pc : Pc) :
    (s.goto t pc).fibers = s.fibers := rfl
@[simp] theorem setFiber_threads (s : State n) (f : ℕ) (fb : Fiber) :
    (s.setFiber f fb).threads = s.threads := rfl
@[simp] theorem setFiber_fibers (s : State n) (f : ℕ) (fb : Fiber) :
    (s.setFiber f fb).fibers = update s.fibers f fb := rfl

/-- `submitNoLock` under the mutex; an empty task is not queued. -/
def enqueue (s : State n) (task : Task) : State n :=
  { s with
    queue := s.queue ++ if task.fiber.isSome || task.taskCb.isSome then [task] else [] }

@[simp] theorem enqueue_threads (s : State n) (task : Task) :
    (s.enqueue task).threads = s.threads := rfl
@[simp] theorem enqueue_fibers (s : State n) (task : Task) :
    (s.enqueue task).fibers = s.fibers := rfl

def submitCb (s : State n) (threadId : Option ℕ) : State n :=
  { s.enqueue { taskCb := some s.nextCb, threadId } with nextCb := s.nextCb + 1 }

def canStop (s : State n) : Bool := s.stopping && s.active = 0 && s.queue.isEmpty

/-- `Fiber::reset`. -/
def resetFiber (s : State n) (f : ℕ) (cb : Option ℕ) : Option (State n) :=
  if (s.fibers f).state.resettable then some (s.setFiber f { cb }) else none

/-- The callback branch up to `task.reset()`: the callback goes to `task_fb`, which
is reset or constructed for it. -/
def prepare (s : State n) (t : Fin n) (cb : ℕ) : Option (State n) :=
  match (s.threads t).taskFb with
  | some f =>
      (s.resetFiber f (some cb)).map fun s =>
        s.setThread t { s.threads t with pc := .resume ⟨true, f, none⟩, taskFb := none }
  | none =>
      some ({ s.setFiber s.nextFiber { cb := some cb } with nextFiber := s.nextFiber + 1 }.goto t
        (.resume ⟨true, s.nextFiber, none⟩))

/-- `Fiber::resume` up to the context switch; the slice that was saved starts. -/
def resume (s : State n) (t : Fin n) (j : Job) : Option (State n) :=
  let fb := s.fibers j.fiber
  if fb.state = .running then none
  else some ({ s.setFiber j.fiber { fb with state := .running } with
    log := s.log ++ fb.cb.toList.map fun c => (c, fb.slice) }.goto t (.running j fb.slice false))

/-- One step of the loop of a thread; `none` where an assertion fails, and where the
thread is inside a fiber or has left the loop. -/
def advance (s : State n) (t : Fin n) : Option (State n) :=
  match (s.threads t).pc with
  | .pop =>
      match pick t s.fibers s.queue with
      | none => some (s.goto t .wait)
      | some (task, rest) => some ({ s with queue := rest }.goto t (.branch task))
  | .branch task =>
      match task.fiber, task.taskCb with
      | some f, _ =>
          some ({ s with active := s.active + 1 }.goto t (.resume ⟨false, f, task.threadId⟩))
      | none, some cb => { s with active := s.active + 1 }.prepare t cb
      | none, none => none
  | .resume j => s.resume t j
  | .running .. => none
  | .yielding j k =>
      some ((s.setFiber j.fiber { s.fibers j.fiber with slice := k + 1 }).goto t (.switched j))
  | .switched j => some ({ s with active := s.active - 1 }.goto t (.check j))
  | .check j =>
      if (s.fibers j.fiber).state = .ready then some (s.goto t (.resubmit j))
      else some (s.goto t (if j.own then .checkTerm j else .pop))
  | .resubmit j =>
      some ((s.enqueue { fiber := some j.fiber, threadId := j.threadId }).goto t .pop)
  | .checkTerm j =>
      some (s.goto t (if (s.fibers j.fiber).state = .term then .recycle j else .checkExcept j))
  | .checkExcept j =>
      some (s.goto t (if (s.fibers j.fiber).state = .except then .recycle j else .pop))
  | .recycle j =>
      (s.resetFiber j.fiber none).map fun s =>
        s.setThread t { s.threads t with pc := .pop, taskFb := some j.fiber }
  | .wait =>
      if (s.threads t).waitTerm then some (s.goto t .left)
      else if s.canStop then some (s.setThread t { s.threads t with pc := .pop, waitTerm := true })
      else some (s.goto t .pop)
  | .left => none

/-- The store of `m_state` with which a slice ends. Only a fiber that registered
yields to `FIBER_HOLD`, and such a fiber does nothing else. -/
def finish (s : State n) (t : Fin n) (e : Ending) : Option (State n) :=
  match (s.threads t).pc with
  | .running j k waits =>
      let fb := s.fibers j.fiber
      let done := fb.cb.toList.map fun c => (c, k + 1)
      if waits ≠ decide (e = .yieldToHold) then none
      else some (match e with
        | .returns => { s.setFiber j.fiber { fb with state := .term, cb := none } with
            ended := s.ended ++ done }.goto t (.yielding j k)
        | .throws => { s.setFiber j.fiber { fb with state := .except } with
            ended := s.ended ++ done }.goto t (.yielding j k)
        | .yieldToReady =>
            (s.setFiber j.fiber { fb with state := .ready }).goto t (.yielding j k)
        | .yieldToHold =>
            (s.setFiber j.fiber { fb with state := .hold }).goto t (.yielding j k))
  | _ => none

def step (s : State n) : Label n → Option (State n)
  | .advance t => s.advance t
  | .submitInside t threadId =>
      match (s.threads t).pc with
      | .running .. => some (s.submitCb threadId)
      | _ => none
  | .register t =>
      match (s.threads t).pc with
      | .running j k false =>
          some ({ s with source := j.fiber :: s.source }.goto t (.running j k true))
      | _ => none
  | .finish t e => s.finish t e
  | .submit threadId => some (s.submitCb threadId)
  | .spawn threadId =>
      some ({ s.setFiber s.nextFiber { cb := some s.nextCb } with
        nextFiber := s.nextFiber + 1, nextCb := s.nextCb + 1 }.enqueue
          { fiber := some s.nextFiber, threadId })
  | .fire f =>
      if f ∈ s.source then
        some ({ s with source := s.source.erase f }.enqueue { fiber := some f })
      else none
  | .stop => some { s with stopping := true }

/-! ### What a step can do -/

/-- The steps of a thread in its loop, each with what it has found. -/
inductive Advances (s : State n) (t : Fin n) : State n → Prop
  | idle (hpc : (s.threads t).pc = .pop) (hpick : pick t s.fibers s.queue = none) :
      Advances s t (s.goto t .wait)
  | take {task : Task} {rest : List Task} (hpc : (s.threads t).pc = .pop)
      (hpick : pick t s.fibers s.queue = some (task, rest)) :
      Advances s t ({ s with queue := rest }.goto t (.branch task))
  | branchFiber {task : Task} {f : ℕ} (hpc : (s.threads t).pc = .branch task)
      (hf : task.fiber = some f) :
      Advances s t
        ({ s with active := s.active + 1 }.goto t (.resume ⟨false, f, task.threadId⟩))
  | reuse {task : Task} {cb f : ℕ} (hpc : (s.threads t).pc = .branch task)
      (hnone : task.fiber = none) (hcb : task.taskCb = some cb)
      (hf : (s.threads t).taskFb = some f) (hreset : (s.fibers f).state.resettable = true) :
      Advances s t (({ s with active := s.active + 1 }.setFiber f { cb := some cb }).setThread t
        { s.threads t with pc := .resume ⟨true, f, none⟩, taskFb := none })
  | construct {task : Task} {cb : ℕ} (hpc : (s.threads t).pc = .branch task)
      (hnone : task.fiber = none) (hcb : task.taskCb = some cb)
      (hf : (s.threads t).taskFb = none) :
      Advances s t ({ s.setFiber s.nextFiber { cb := some cb } with
        active := s.active + 1, nextFiber := s.nextFiber + 1 }.goto t
          (.resume ⟨true, s.nextFiber, none⟩))
  | resume {j : Job} (hpc : (s.threads t).pc = .resume j)
      (hstate : (s.fibers j.fiber).state ≠ .running) :
      Advances s t ({ s.setFiber j.fiber { s.fibers j.fiber with state := .running } with
        log := s.log ++ (s.fibers j.fiber).cb.toList.map
          fun c => (c, (s.fibers j.fiber).slice) }.goto t
          (.running j (s.fibers j.fiber).slice false))
  | switch {j : Job} {k : ℕ} (hpc : (s.threads t).pc = .yielding j k) :
      Advances s t
        ((s.setFiber j.fiber { s.fibers j.fiber with slice := k + 1 }).goto t (.switched j))
  | lower {j : Job} (hpc : (s.threads t).pc = .switched j) :
      Advances s t ({ s with active := s.active - 1 }.goto t (.check j))
  | ready {j : Job} (hpc : (s.threads t).pc = .check j)
      (hstate : (s.fibers j.fiber).state = .ready) : Advances s t (s.goto t (.resubmit j))
  | notReady {j : Job} (hpc : (s.threads t).pc = .check j)
      (hstate : (s.fibers j.fiber).state ≠ .ready) :
      Advances s t (s.goto t (if j.own then .checkTerm j else .pop))
  | resubmit {j : Job} (hpc : (s.threads t).pc = .resubmit j) :
      Advances s t
        ((s.enqueue { fiber := some j.fiber, threadId := j.threadId }).goto t .pop)
  | checkTerm {j : Job} (hpc : (s.threads t).pc = .checkTerm j) :
      Advances s t
        (s.goto t (if (s.fibers j.fiber).state = .term then .recycle j else .checkExcept j))
  | checkExcept {j : Job} (hpc : (s.threads t).pc = .checkExcept j) :
      Advances s t (s.goto t (if (s.fibers j.fiber).state = .except then .recycle j else .pop))
  | recycle {j : Job} (hpc : (s.threads t).pc = .recycle j)
      (hreset : (s.fibers j.fiber).state.resettable = true) :
      Advances s t ((s.setFiber j.fiber {}).setThread t
        { s.threads t with pc := .pop, taskFb := some j.fiber })
  | leave (hpc : (s.threads t).pc = .wait) (hterm : (s.threads t).waitTerm = true) :
      Advances s t (s.goto t .left)
  | terminate (hpc : (s.threads t).pc = .wait) (hcan : s.canStop = true) :
      Advances s t (s.setThread t { s.threads t with pc := .pop, waitTerm := true })
  | again (hpc : (s.threads t).pc = .wait) : Advances s t (s.goto t .pop)

theorem resetFiber_eq_some {s s' : State n} {f : ℕ} {cb : Option ℕ}
    (h : s.resetFiber f cb = some s') :
    (s.fibers f).state.resettable = true ∧ s' = s.setFiber f { cb } := by
  unfold resetFiber at h
  split at h
  · next hreset => exact ⟨hreset, (Option.some.inj h).symm⟩
  · cases h

theorem advances_of_prepare {s s' : State n} {t : Fin n} {task : Task} {cb : ℕ}
    (hpc : (s.threads t).pc = .branch task) (hnone : task.fiber = none)
    (hcb : task.taskCb = some cb)
    (hs : State.prepare { s with active := s.active + 1 } t cb = some s') :
    s.Advances t s' := by
  unfold State.prepare at hs
  split at hs
  · next f hf =>
      obtain ⟨s₁, hs₁, rfl⟩ := Option.map_eq_some_iff.mp hs
      obtain ⟨hreset, rfl⟩ := resetFiber_eq_some hs₁
      exact .reuse hpc hnone hcb hf hreset
  · next hf =>
      cases hs
      exact .construct hpc hnone hcb hf

theorem advances_of_advance {s s' : State n} {t : Fin n} (hs : s.advance t = some s') :
    s.Advances t s' := by
  unfold State.advance at hs
  split at hs
  · next hpc =>
      split at hs
      · next hpick => cases hs; exact .idle hpc hpick
      · next hpick => cases hs; exact .take hpc hpick
  · next hpc =>
      split at hs
      · next hf => cases hs; exact .branchFiber hpc hf
      · next hnone hcb => exact advances_of_prepare hpc hnone hcb hs
      · cases hs
  · next hpc =>
      unfold State.resume at hs
      dsimp only at hs
      split at hs
      · cases hs
      · next hstate => cases hs; exact .resume hpc hstate
  · cases hs
  · next hpc => cases hs; exact .switch hpc
  · next hpc => cases hs; exact .lower hpc
  · next hpc =>
      split at hs
      · next hstate => cases hs; exact .ready hpc hstate
      · next hstate => cases hs; exact .notReady hpc hstate
  · next hpc => cases hs; exact .resubmit hpc
  · next hpc => cases hs; exact .checkTerm hpc
  · next hpc => cases hs; exact .checkExcept hpc
  · next hpc =>
      obtain ⟨s₁, hs₁, rfl⟩ := Option.map_eq_some_iff.mp hs
      obtain ⟨hreset, rfl⟩ := resetFiber_eq_some hs₁
      exact .recycle hpc hreset
  · next hpc =>
      split at hs
      · next hterm => cases hs; exact .leave hpc hterm
      · split at hs
        · next hcan => cases hs; exact .terminate hpc hcan
        · cases hs; exact .again hpc
  · cases hs

/-- The ends of a slice: only one that registered yields to hold, and it does nothing else. -/
inductive Finishes (s : State n) (t : Fin n) : Ending → State n → Prop
  | returns {j : Job} {k : ℕ} (hpc : (s.threads t).pc = .running j k false) :
      Finishes s t .returns ({ s.setFiber j.fiber
          { s.fibers j.fiber with state := .term, cb := none } with
        ended := s.ended ++ (s.fibers j.fiber).cb.toList.map fun c => (c, k + 1) }.goto t
          (.yielding j k))
  | throws {j : Job} {k : ℕ} (hpc : (s.threads t).pc = .running j k false) :
      Finishes s t .throws ({ s.setFiber j.fiber { s.fibers j.fiber with state := .except } with
        ended := s.ended ++ (s.fibers j.fiber).cb.toList.map fun c => (c, k + 1) }.goto t
          (.yielding j k))
  | yieldToReady {j : Job} {k : ℕ} (hpc : (s.threads t).pc = .running j k false) :
      Finishes s t .yieldToReady
        ((s.setFiber j.fiber { s.fibers j.fiber with state := .ready }).goto t (.yielding j k))
  | yieldToHold {j : Job} {k : ℕ} (hpc : (s.threads t).pc = .running j k true) :
      Finishes s t .yieldToHold
        ((s.setFiber j.fiber { s.fibers j.fiber with state := .hold }).goto t (.yielding j k))

theorem finishes_of_finish {s s' : State n} {t : Fin n} {e : Ending}
    (hs : s.finish t e = some s') : s.Finishes t e s' := by
  unfold State.finish at hs
  split at hs
  · next j k waits hpc =>
      dsimp only at hs
      split at hs
      · cases hs
      next hwaits =>
      obtain rfl := not_not.mp hwaits
      cases e with
      | returns => cases hs; exact .returns hpc
      | throws => cases hs; exact .throws hpc
      | yieldToReady => cases hs; exact .yieldToReady hpc
      | yieldToHold => cases hs; exact .yieldToHold hpc
  · cases hs

/-- The steps of the system, each with what it has found. -/
inductive Steps (s : State n) : Label n → State n → Prop
  | advance {t : Fin n} {s' : State n} (hs : s.advance t = some s') : Steps s (.advance t) s'
  | submitInside {t : Fin n} {j : Job} {k : ℕ} {waits : Bool} (threadId : Option ℕ)
      (hpc : (s.threads t).pc = .running j k waits) :
      Steps s (.submitInside t threadId) (s.submitCb threadId)
  | register {t : Fin n} {j : Job} {k : ℕ} (hpc : (s.threads t).pc = .running j k false) :
      Steps s (.register t)
        ({ s with source := j.fiber :: s.source }.goto t (.running j k true))
  | finish {t : Fin n} {e : Ending} {s' : State n} (hs : s.finish t e = some s') :
      Steps s (.finish t e) s'
  | submit (threadId : Option ℕ) : Steps s (.submit threadId) (s.submitCb threadId)
  | spawn (threadId : Option ℕ) :
      Steps s (.spawn threadId) ({ s.setFiber s.nextFiber { cb := some s.nextCb } with
        nextFiber := s.nextFiber + 1, nextCb := s.nextCb + 1 }.enqueue
          { fiber := some s.nextFiber, threadId })
  | fire {f : ℕ} (hf : f ∈ s.source) :
      Steps s (.fire f) ({ s with source := s.source.erase f }.enqueue { fiber := some f })
  | stop : Steps s .stop { s with stopping := true }

theorem steps_of_step {s s' : State n} {a : Label n} (hs : s.step a = some s') :
    s.Steps a s' := by
  cases a with
  | advance t => exact .advance hs
  | submitInside t threadId =>
      simp only [State.step] at hs
      split at hs
      · next hpc => cases hs; exact .submitInside threadId hpc
      · cases hs
  | register t =>
      simp only [State.step] at hs
      split at hs
      · next hpc => cases hs; exact .register hpc
      · cases hs
  | finish t e => exact .finish hs
  | submit threadId => cases hs; exact .submit threadId
  | spawn threadId => cases hs; exact .spawn threadId
  | fire f =>
      simp only [State.step] at hs
      split at hs
      · next hf => cases hs; exact .fire hf
      · cases hs
  | stop => cases hs; exact .stop

end State

end Xzmjx.SchedulerModel
