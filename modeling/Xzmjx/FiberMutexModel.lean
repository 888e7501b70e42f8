import Mathlib.Logic.Function.Basic
import Mathlib.Tactic.Common
import Xzmjx.StepSystem

/-!
# The fiber mutex

Any number of fibers, each repeating `lock()`, a critical section and `unlock()`.
A fiber is where it is in this loop (`Pc`); every test of `m_fiber_id`, every
`tryLock`, the store of `m_fiber_id`, the two sections under `m_queue_lock`, the
yield, the release of the spin lock and the submission are one step each. A
waiter that was submitted is resumed once it has yielded, since a scheduler does
not take a running fiber.
-/
namespace Xzmjx.FiberMutexModel
open Function

variable {ι : Type*}

/-- Where a fiber is; `w` is the waiter that `unlock` took out of the queue. -/
inductive Pc (ι : Type*)
  /-- Outside, about to call `lock` and compare its id with `m_fiber_id`. -/
  | outside
  /-- At the condition of the `while`; `woken` if it was resumed as a waiter. -/
  | tryLock (woken : Bool)
  /-- At a `tryLock` of the inner loop, with `left` more to come after it. -/
  | retry (left : ℕ)
  /-- A retry succeeded; about to store `m_fiber_id`. -/
  | record
  /-- All retries failed; about to enter the queue. -/
  | enqueue
  | yielding
  | parked
  /-- `lock` has returned. -/
  | critical
  /-- In `unlock`, about to look at the queue. -/
  | dequeue
  /-- About to call `m_lock.unlock()`. -/
  | release (w : ι)
  | submit (w : ι)
  deriving DecidableEq, Repr

structure State (ι : Type*) where
  /-- `m_lock` is held. -/
  locked : Bool
  /-- `m_fiber_id`; -1 is `none`. -/
  fiberId : Option ι
  waitQueue : List ι
  /-- The waiters that were submitted and not resumed yet. -/
  submitted : List ι
  pc : ι → Pc ι

namespace State

def init : State ι := ⟨false, none, [], [], fun _ => .outside⟩

variable [DecidableEq ι]

def goto (s : State ι) (f : ι) (pc : Pc ι) : State ι := { s with pc := update s.pc f pc }

/-- The next step of a fiber. -/
def step (s : State ι) (f : ι) : Option (State ι) :=
  match s.pc f with
  | .outside => some (s.goto f (if s.fiberId = some f then .critical else .tryLock false))
  | .tryLock _ =>
      if s.locked then some (s.goto f (.retry 3))
      else some ({ s with locked := true }.goto f .critical)
  | .retry left =>
      if s.locked then
        some (s.goto f (match left with | 0 => .enqueue | k + 1 => .retry k))
      else some ({ s with locked := true }.goto f .record)
  | .record => some ({ s with fiberId := some f }.goto f .critical)
  | .enqueue => some ({ s with waitQueue := s.waitQueue ++ [f] }.goto f .yielding)
  | .yielding => some (s.goto f .parked)
  | .parked =>
      if f ∈ s.submitted then
        some ({ s with submitted := s.submitted.erase f }.goto f (.tryLock true))
      else none
  | .critical => some (s.goto f .dequeue)
  | .dequeue =>
      match s.waitQueue with
      -- the early return does not touch `m_lock`
      | [] => some (s.goto f .outside)
      | w :: ws => some ({ s with waitQueue := ws }.goto f (.release w))
  | .release w => some ({ s with locked := false }.goto f (.submit w))
  | .submit w => some ({ s with submitted := s.submitted ++ [w] }.goto f .outside)

@[simp] theorem goto_pc (s : State ι) (f : ι) (pc : Pc ι) : (s.goto f pc).pc = update s.pc f pc :=
  rfl
@[simp] theorem goto_locked (s : State ι) (f : ι) (pc : Pc ι) :
    (s.goto f pc).locked = s.locked := rfl
@[simp] theorem goto_waitQueue (s : State ι) (f : ι) (pc : Pc ι) :
    (s.goto f pc).waitQueue = s.waitQueue := rfl
@[simp] theorem goto_submitted (s : State ι) (f : ι) (pc : Pc ι) :
    (s.goto f pc).submitted = s.submitted := rfl

/-! ### What a step can do -/

/-- The steps of a fiber, each with what it has found. -/
inductive Steps (s : State ι) (f : ι) : State ι → Prop
  | shortcut (hpc : s.pc f = .outside) (hid : s.fiberId = some f) : Steps s f (s.goto f .critical)
  | call (hpc : s.pc f = .outside) (hid : s.fiberId ≠ some f) :
      Steps s f (s.goto f (.tryLock false))
  | fail {woken : Bool} (hpc : s.pc f = .tryLock woken) (hlock : s.locked = true) :
      Steps s f (s.goto f (.retry 3))
  | acquire {woken : Bool} (hpc : s.pc f = .tryLock woken) (hlock : s.locked = false) :
      Steps s f ({ s with locked := true }.goto f .critical)
  | retryFail {left : ℕ} (hpc : s.pc f = .retry (left + 1)) (hlock : s.locked = true) :
      Steps s f (s.goto f (.retry left))
  | retryLast (hpc : s.pc f = .retry 0) (hlock : s.locked = true) : Steps s f (s.goto f .enqueue)
  | retryAcquire {left : ℕ} (hpc : s.pc f = .retry left) (hlock : s.locked = false) :
      Steps s f ({ s with locked := true }.goto f .record)
  | record (hpc : s.pc f = .record) : Steps s f ({ s with fiberId := some f }.goto f .critical)
  | enqueue (hpc : s.pc f = .enqueue) :
      Steps s f ({ s with waitQueue := s.waitQueue ++ [f] }.goto f .yielding)
  | yield (hpc : s.pc f = .yielding) : Steps s f (s.goto f .parked)
  | resume (hpc : s.pc f = .parked) (hsub : f ∈ s.submitted) :
      Steps s f ({ s with submitted := s.submitted.erase f }.goto f (.tryLock true))
  | leave (hpc : s.pc f = .critical) : Steps s f (s.goto f .dequeue)
  | nobody (hpc : s.pc f = .dequeue) (hqueue : s.waitQueue = []) : Steps s f (s.goto f .outside)
  | pop {w : ι} {ws : List ι} (hpc : s.pc f = .dequeue) (hqueue : s.waitQueue = w :: ws) :
      Steps s f ({ s with waitQueue := ws }.goto f (.release w))
  | release {w : ι} (hpc : s.pc f = .release w) :
      Steps s f ({ s with locked := false }.goto f (.submit w))
  | submit {w : ι} (hpc : s.pc f = .submit w) :
      Steps s f ({ s with submitted := s.submitted ++ [w] }.goto f .outside)

theorem steps_of_step {s s' : State ι} {f : ι} (hs : s.step f = some s') : s.Steps f s' := by
  unfold step at hs
  split at hs
  · next hpc =>
      split_ifs at hs with hid
      · cases hs; exact .shortcut hpc hid
      · cases hs; exact .call hpc hid
  · next hpc =>
      split_ifs at hs with hlock
      · cases hs; exact .fail hpc hlock
      · cases hs; exact .acquire hpc (by simpa using hlock)
  · next left hpc =>
      split_ifs at hs with hlock
      · cases left with
        | zero => cases hs; exact .retryLast hpc hlock
        | succ k => cases hs; exact .retryFail hpc hlock
      · cases hs; exact .retryAcquire hpc (by simpa using hlock)
  · next hpc => cases hs; exact .record hpc
  · next hpc => cases hs; exact .enqueue hpc
  · next hpc => cases hs; exact .yield hpc
  · next hpc =>
      split_ifs at hs with hsub
      cases hs; exact .resume hpc hsub
  · next hpc => cases hs; exact .leave hpc
  · next hpc =>
      split at hs
      · next hqueue => cases hs; exact .nobody hpc hqueue
      · next hqueue => cases hs; exact .pop hpc hqueue
  · next hpc => cases hs; exact .release hpc
  · next hpc => cases hs; exact .submit hpc

end State

end Xzmjx.FiberMutexModel
