import Xzmjx.HookFlags
import Xzmjx.IOManagerRuns
import Xzmjx.TimerModel

/-!
# One call of `do_io`

`do_io` calls the original function until it does not return `EAGAIN`; before each
retry it waits, with a timer of its own, for the event of the descriptor. The state is
that of one call together with the timer manager and the IO manager, on which
everybody else goes on working. The waits of the call are numbered.

A timer callback is followed from `listExpiredCb`, which hands it out, to its end: it
locks `weak_cond`, tests `cancelled`, stores `ETIMEDOUT` and cancels the event, each in
a step of its own.
-/
namespace Xzmjx.DoIoModel
open Function
open Xzmjx.TimerModel (TimerManager exec)
open Xzmjx.IOManagerModel (IOManager Direction)
open Xzmjx.HookModel (FdCtx)

/-- What is registered with the IO manager: the fiber of the call, as it is in its
`k`-th wait, or something else. -/
inductive Party
  | wait (k : ℕ)
  | other (x : ℕ)
  deriving DecidableEq, Repr

/-- The arguments of the call; the timeout is that of the descriptor, `none` is -1. -/
structure Call where
  fd : ℕ
  direction : Direction
  scheduler : ℕ
  timeout : Option ℕ

/-- What the original function returns, with the values of `errno` that are tested. -/
inductive Answer
  | again
  | interrupted
  | done (n : ℤ)
  deriving DecidableEq, Repr

def Answer.value : Answer → ℤ
  | .again | .interrupted => -1
  | .done n => n

inductive Result
  | value (n : ℤ)
  /-- -1 with `EBADF`. -/
  | badFd
  /-- -1 after a failed `addEvent`. -/
  | addEventFailed
  /-- -1 with `errno = t_info->cancelled`. -/
  | timedOut
  deriving DecidableEq, Repr

/-- Where the fiber is in `do_io`. -/
inductive Pc
  | entry
  /-- About to return what the original function returns. -/
  | direct
  /-- At `retry`, or in the loop over `EINTR`. -/
  | call
  /-- The answer was `EAGAIN`; about to add the timer. -/
  | arm
  /-- About to call `addEvent`. -/
  | add (k : ℕ)
  /-- The event is added; until the fiber is resumed. -/
  | hold (k : ℕ)
  /-- About to call `timer->cancel()`. -/
  | woken (k : ℕ)
  /-- About to test `t_info->cancelled`. -/
  | check (k : ℕ)
  /-- `addEvent` failed; about to call `timer->cancel()`. -/
  | failed (k : ℕ)
  | returned (r : Result)
  deriving DecidableEq, Repr

/-- Where the callback of a timer is. -/
inductive Stage
  /-- Not handed out by `listExpiredCb`. -/
  | idle
  /-- Handed out, in the task queue. -/
  | queued
  /-- `weak_cond` is locked. -/
  | locked
  /-- `cancelled` was not `ETIMEDOUT`; about to store it. -/
  | marking
  /-- About to call `cancelEvent`. -/
  | cancelling
  | finished
  deriving DecidableEq, Repr

/-- The callback owns `t_info`. -/
def Stage.owner : Stage → Bool
  | .locked | .marking | .cancelling => true
  | .idle | .queued | .finished => false

structure State where
  timers : TimerManager
  io : IOManager Party
  pc : Pc
  /-- The waits that were begun are `0, …, waits - 1`. -/
  waits : ℕ
  /-- The timer of each wait. -/
  handle : ℕ → Option ℕ
  stage : ℕ → Stage
  /-- `t_info->cancelled`: 0, or `ETIMEDOUT` with the wait whose callback stored it. -/
  cancelled : Option ℕ

inductive Label
  /-- The tests before the first call of the original function. -/
  | enter (hookEnable : Bool) (fdCtx : Option FdCtx)
  | call (answer : Answer)
  /-- `addCondTimerEvent`, at clock reading `now`; the allocator supplies `addr`. -/
  | arm (addr now : ℕ)
  | addEvent (fails : Bool)
  /-- A thread takes the fiber out of the task queue. -/
  | resume
  | cancelTimer
  | check
  /-- A call on the timer manager by somebody else, `listExpiredCb` included. -/
  | timer (op : TimerModel.Op)
  | lock (k : ℕ)
  | test (k : ℕ)
  | mark (k : ℕ)
  | cancelEvent (k : ℕ) (fails : Bool)
  /-- A call on the IO manager by somebody else, the dispatch in `wait` included. -/
  | io (op : IOManagerModel.Op Party)

/-- The tests of `do_io` before `retry`. -/
def enter (hookEnable : Bool) (fdCtx : Option FdCtx) : Pc :=
  if !hookEnable then .direct
  else match fdCtx with
    | none => .direct
    | some ctx =>
        if ctx.isClosed then .returned .badFd
        else if !ctx.isSocket || ctx.userNonblock then .direct
        else .call

/-- A call on the IO manager; `none` where an assertion fails. -/
def ioStep (io : IOManager Party) : IOManagerModel.Op Party → Option (IOManager Party)
  | .addEvent fd event cb self fiber fails =>
      (io.addEvent fd event cb (some self) (some fiber) fails).toOption.map Prod.snd
  | .delEvent fd event fails => (io.delEvent fd event fails).toOption.map Prod.snd
  | .cancelEvent fd event fails => (io.cancelEvent fd event fails).toOption.map Prod.snd
  | .dispatch r fails => (io.dispatch r fails).toOption

def Party.foreign : Party → Bool
  | .wait _ => false
  | .other _ => true

/-- The call does not register the fiber of this call of `do_io`. -/
def foreign : IOManagerModel.Op Party → Bool
  | .addEvent _ _ cb _ fiber _ => cb.all Party.foreign && fiber.foreign
  | .delEvent .. | .cancelEvent .. | .dispatch .. => true

namespace State

/-- Before the call, with managers that nobody has used yet. -/
def start : State where
  timers := TimerManager.new true
  io := IOManager.new
  pc := .entry
  waits := 0
  handle := fun _ => none
  stage := fun _ => .idle
  cancelled := none

/-- The timer is one of this call. -/
def owns (s : State) (t : ℕ) : Bool := (List.range s.waits).any fun k => s.handle k = some t

/-- Somebody still owns `t_info`. -/
def alive (s : State) : Bool :=
  (match s.pc with
    | .returned _ => false
    | _ => true) || (List.range s.waits).any fun k => (s.stage k).owner

def setStage (s : State) (k : ℕ) (x : Stage) : State := { s with stage := update s.stage k x }

/-- The next wait begins: `addCondTimerEvent`, if there is a timeout. -/
def arm (c : Call) (s : State) (addr now : ℕ) : Option State :=
  let k := s.waits
  match c.timeout with
  | none => some { s with pc := .add k, waits := k + 1 }
  | some ms =>
      (exec s.timers (.addTimer addr ms k false now)).map fun r =>
        { s with
          timers := r.1, pc := .add k, waits := k + 1
          handle := update s.handle k (some s.timers.count) }

def addEvent (c : Call) (s : State) (k : ℕ) (fails : Bool) : Option State :=
  match s.io.addEvent c.fd c.direction.event none (some c.scheduler) (some (.wait k)) fails with
  | .error _ => none
  | .ok (rt, io) => some { s with io, pc := if rt = 0 then .hold k else .failed k }

/-- `if (timer) timer->cancel()`, and on to `pc`. -/
def cancelTimer (s : State) (k : ℕ) (pc : Pc) : Option State :=
  match s.handle k with
  | none => some { s with pc }
  | some t => (exec s.timers (.cancel t)).map fun r => { s with timers := r.1, pc }

/-- A call on the timer manager; the callbacks that it hands out are submitted. -/
def timer (s : State) (op : TimerModel.Op) : Option State :=
  if op.target.any s.owns then none
  else (exec s.timers op).map fun r =>
    { s with
      timers := r.1
      stage := fun k =>
        if (s.handle k).any fun t => t ∈ r.2.handedOut then .queued else s.stage k }

/-- The fiber was submitted in its `k`-th wait. -/
def submitted (s : State) (k : ℕ) : Bool :=
  s.io.submitted.any fun sub => sub.fiber = some (.wait k)

/-- What the fiber does with an answer at `retry`. -/
def onAnswer : Answer → Pc
  | .again => .arm
  | .interrupted => .call
  | .done n => .returned (.value n)

def step (c : Call) (s : State) : Label → Option State
  | .enter hookEnable fdCtx =>
      match s.pc with
      | .entry => some { s with pc := enter hookEnable fdCtx }
      | _ => none
  | .call answer =>
      match s.pc with
      | .direct => some { s with pc := .returned (.value answer.value) }
      | .call => some { s with pc := onAnswer answer }
      | _ => none
  | .arm addr now =>
      match s.pc with
      | .arm => s.arm c addr now
      | _ => none
  | .addEvent fails =>
      match s.pc with
      | .add k => s.addEvent c k fails
      | _ => none
  | .resume =>
      match s.pc with
      | .hold k => if s.submitted k then some { s with pc := .woken k } else none
      | _ => none
  | .cancelTimer =>
      match s.pc with
      | .woken k => s.cancelTimer k (.check k)
      | .failed k => s.cancelTimer k (.returned .addEventFailed)
      | _ => none
  | .check =>
      match s.pc with
      | .check _ =>
          some { s with pc := if s.cancelled.isSome then .returned .timedOut else .call }
      | _ => none
  | .timer op => s.timer op
  | .lock k =>
      if s.stage k = .queued then some (s.setStage k (if s.alive then .locked else .finished))
      else none
  | .test k =>
      if s.stage k = .locked then
        some (s.setStage k (if s.cancelled.isSome then .finished else .marking))
      else none
  | .mark k =>
      if s.stage k = .marking then some { s.setStage k .cancelling with cancelled := some k }
      else none
  | .cancelEvent k fails =>
      if s.stage k = .cancelling then
        (ioStep s.io (.cancelEvent c.fd c.direction.event fails)).map fun io =>
          { s.setStage k .finished with io }
      else none
  | .io op => if foreign op then (ioStep s.io op).map fun io => { s with io } else none

end State

end Xzmjx.DoIoModel
