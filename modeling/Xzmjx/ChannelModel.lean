import Mathlib.Data.List.Basic
import Mathlib.Logic.Function.Basic
import Xzmjx.CircleBuffer
import Xzmjx.StepSystem

/-!
# Channel

Any number of fibers call `push`, `pop` and `close`. A step is what a fiber does from taking
the mutex of the channel until it gives it back, be it by returning or by waiting: a call, or
the rest of a call whose fiber was submitted to its scheduler and resumed. The index of the
buffer may run behind its slots; the run ends there.
-/
namespace Xzmjx.ChannelModel
open Function

/-- The queue of a `FiberCondvar`: each waiter with the scheduler that it waited on. -/
abbrev WaitQueue (σ ι : Type*) := List (σ × ι)

/-- Where a fiber is. -/
inductive Pc (α : Type*)
  | outside
  /-- Waiting on `m_empty_cond` with the value that it pushes. -/
  | inPush (v : α)
  /-- Waiting on `m_full_cond`. -/
  | inPop
  deriving DecidableEq, Repr

/-- What becomes of a call. -/
inductive Outcome (α : Type*)
  | pushed (done : Bool)
  | popped (v : Option α)
  | waits
  | closed
  deriving DecidableEq, Repr

inductive Action (σ ι α : Type*)
  | push (k : σ) (f : ι) (v : α)
  | pop (k : σ) (f : ι)
  /-- The scheduler takes up a fiber that was submitted to it. -/
  | resume (k : σ) (f : ι)
  | close (f : ι)
  deriving DecidableEq, Repr

/-- The fields of `Rep` that the calls use, the fibers that were submitted and not resumed
yet, and where each fiber is. -/
structure State (σ ι α : Type*) where
  isClosed : Bool
  data : CircleBuffer α
  emptyCond : WaitQueue σ ι
  fullCond : WaitQueue σ ι
  submitted : WaitQueue σ ι
  pc : ι → Pc α

variable {σ ι α : Type*}

/-- `FiberCondvar::notify`: the queue and the submitted fibers after it. -/
def notify : WaitQueue σ ι → WaitQueue σ ι → WaitQueue σ ι × WaitQueue σ ι
  | [], submitted => ([], submitted)
  | w :: ws, submitted => (ws, submitted ++ [w])

namespace State

/-- An open channel. -/
def init (data : CircleBuffer α) : State σ ι α := ⟨false, data, [], [], [], fun _ => .outside⟩

def notifyEmpty (s : State σ ι α) : State σ ι α :=
  { s with
    emptyCond := (notify s.emptyCond s.submitted).1
    submitted := (notify s.emptyCond s.submitted).2 }

def notifyFull (s : State σ ι α) : State σ ι α :=
  { s with
    fullCond := (notify s.fullCond s.submitted).1
    submitted := (notify s.fullCond s.submitted).2 }

section Step
variable [DecidableEq σ] [DecidableEq ι]

def goto (s : State σ ι α) (f : ι) (pc : Pc α) : State σ ι α := { s with pc := update s.pc f pc }

/-- The condition of the loop of `push`, then the way out or `m_empty_cond.wait`. -/
def pushAttempt (s : State σ ι α) (k : σ) (f : ι) (v : α) : Option (State σ ι α × Outcome α) :=
  match s.data.push v with
  | .error _ => none
  | .ok (true, data) => some (({ s with data := data }.notifyFull).goto f .outside, .pushed true)
  | .ok (false, _) =>
      some ({ s with emptyCond := s.emptyCond ++ [(k, f)] }.goto f (.inPush v), .waits)

/-- The condition of the loop of `pop`, then the way out or `m_full_cond.wait`. -/
def popAttempt (s : State σ ι α) (k : σ) (f : ι) : State σ ι α × Outcome α :=
  match s.data.pop with
  | (some v, data) => (({ s with data := data }.notifyEmpty).goto f .outside, .popped (some v))
  | (none, _) => ({ s with fullCond := s.fullCond ++ [(k, f)] }.goto f .inPop, .waits)

/-- What follows on the wait: the test for closure, then the next round of the loop. -/
def resumed (s : State σ ι α) (k : σ) (f : ι) : Option (State σ ι α × Outcome α) :=
  match s.pc f with
  | .outside => none
  | .inPush v =>
      if s.isClosed then some (s.goto f .outside, .pushed false) else s.pushAttempt k f v
  | .inPop =>
      if s.isClosed then some (s.goto f .outside, .popped none) else some (s.popAttempt k f)

/-- `close`. -/
def shut (s : State σ ι α) : State σ ι α :=
  if s.isClosed then s else { s with isClosed := true }.notifyEmpty.notifyFull

/-- A step, with what becomes of the call. -/
def exec (s : State σ ι α) : Action σ ι α → Option (State σ ι α × Outcome α)
  | .push k f v => match s.pc f with | .outside => s.pushAttempt k f v | _ => none
  | .pop k f => match s.pc f with | .outside => some (s.popAttempt k f) | _ => none
  | .resume k f =>
      if (k, f) ∈ s.submitted then
        { s with submitted := s.submitted.erase (k, f) }.resumed k f
      else none
  | .close f => match s.pc f with | .outside => some (s.shut, .closed) | _ => none

def step (s : State σ ι α) (a : Action σ ι α) : Option (State σ ι α) := (s.exec a).map Prod.fst

end Step

end State

end Xzmjx.ChannelModel
