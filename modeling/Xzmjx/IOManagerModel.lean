import Mathlib.Algebra.BigOperators.Group.Finset.Basic
import Mathlib.Tactic.Common

/-!
# The IO manager

`m_fd_contexts` is the function `context` on the indices below `size`. The
kernel's side of the epoll instance is `interest`: the events a descriptor is
registered for, or `none` if it is not registered. Every operation holds the
mutex of the descriptor it works on, so each is one step. Fibers and callbacks
are values of an arbitrary type `ω`; the log `submitted` is what
`Scheduler::submit` received, oldest first.

Whether `epoll_ctl` fails for a reason of its own is an argument of each
operation. The pipe that wakes the waiting threads and the timers are not part
of this model.
-/
namespace Xzmjx.IOManagerModel

/-- `IOManager::Event`, a set of the bits `0x1` and `0x4`. -/
structure Event where
  read : Bool
  write : Bool
  deriving DecidableEq, Repr

def eventNone : Event := ⟨false, false⟩
def eventRead : Event := ⟨true, false⟩
def eventWrite : Event := ⟨false, true⟩

namespace Event

instance : AndOp Event := ⟨fun a b => ⟨a.read && b.read, a.write && b.write⟩⟩
instance : OrOp Event := ⟨fun a b => ⟨a.read || b.read, a.write || b.write⟩⟩
instance : Complement Event := ⟨fun a => ⟨!a.read, !a.write⟩⟩

/-- The conversion of an event mask to `bool`. -/
def any (e : Event) : Bool := e.read || e.write

@[simp] theorem and_read (a b : Event) : (a &&& b).read = (a.read && b.read) := rfl
@[simp] theorem and_write (a b : Event) : (a &&& b).write = (a.write && b.write) := rfl
@[simp] theorem compl_read (a : Event) : (~~~a).read = !a.read := rfl
@[simp] theorem compl_write (a : Event) : (~~~a).write = !a.write := rfl

end Event

/-- How an operation can fail to return: the four assertions, and what is
undefined behaviour in the source. -/
inductive Fault
  /-- `event == Event_READ || event == Event_WRITE` in `getContext`. -/
  | eventKind
  /-- `event & events` in `triggerContext`. -/
  | triggerArmed
  /-- `!(fd_ctx->events & event)` in `addEvent`. -/
  | addUnarmed
  /-- `!event_ctx.scheduler && !event_ctx.fiber && !event_ctx.cb` in `addEvent`. -/
  | contextEmpty
  | nullScheduler
  | outOfBounds
  deriving DecidableEq, Repr

variable {ω : Type*}

structure EventContext (ω : Type*) where
  scheduler : Option ℕ := none
  fiber : Option ω := none
  cb : Option ω := none
  deriving DecidableEq, Repr

structure FdContext (ω : Type*) where
  read : EventContext ω := {}
  write : EventContext ω := {}
  events : Event := eventNone
  deriving DecidableEq, Repr

namespace FdContext

/-- `getContext`, as a read of the reference it returns. -/
def getContext (c : FdContext ω) (event : Event) : Except Fault (EventContext ω) :=
  if event = eventRead then .ok c.read
  else if event = eventWrite then .ok c.write
  else .error .eventKind

/-- A write through the reference that `getContext` returned for `event`. -/
def setContext (c : FdContext ω) (event : Event) (e : EventContext ω) : FdContext ω :=
  if event = eventRead then { c with read := e } else { c with write := e }

/-- `resetContext` on the context of `event`. -/
def resetContext (c : FdContext ω) (event : Event) : FdContext ω := c.setContext event {}

/-- The last lines of `addEvent`: the context of `event` must be empty and is
filled with the scheduler and the callback, or the fiber if there is no callback. -/
def attach (c : FdContext ω) (event : Event) (cb : Option ω) (self : Option ℕ)
    (fiber : Option ω) : Except Fault (FdContext ω) := do
  let e ← c.getContext event
  if e.scheduler.isSome || e.fiber.isSome || e.cb.isSome then throw .contextEmpty
  if cb.isSome then return c.setContext event { e with scheduler := self, cb }
  else return c.setContext event { e with scheduler := self, fiber }

end FdContext

/-- A task handed to a scheduler. -/
structure Submission (ω : Type*) where
  scheduler : ℕ
  fiber : Option ω
  cb : Option ω
  deriving DecidableEq, Repr

structure IOManager (ω : Type*) where
  size : ℕ
  context : ℕ → FdContext ω
  pendingEventCount : ℕ
  interest : ℕ → Option Event
  submitted : List (Submission ω)

inductive EpollCtlOp
  | add
  | mod
  | del
  deriving DecidableEq, Repr

/-- `epoll_ctl` on the interest list; `none` is a non-zero result, which changes
nothing. It refuses to add a registered descriptor and to change or delete an
unregistered one, and `fails` is any further reason the kernel may have. -/
def epollCtl (interest : ℕ → Option Event) (op : EpollCtlOp) (fd : ℕ) (events : Event)
    (fails : Bool) : Option (ℕ → Option Event) :=
  if fails then none
  else match op, interest fd with
    | .add, none => some (Function.update interest fd (some events))
    | .mod, some _ => some (Function.update interest fd (some events))
    | .del, some _ => some (Function.update interest fd none)
    | _, _ => none

/-- An entry of the array that `epoll_wait` fills, with the descriptor of the
context that `data.ptr` leads to. -/
structure Record where
  fd : ℕ
  epollin : Bool
  epollout : Bool
  epollerr : Bool := false
  epollhup : Bool := false
  deriving DecidableEq, Repr

namespace IOManager

/-- `--m_pending_event_count` on `size_t`. -/
def decrement (n : ℕ) : ℕ := if n = 0 then 2 ^ 64 - 1 else n - 1

/-- `contextResize`: the new descriptors get a fresh context each. -/
def contextResize (io : IOManager ω) (size : ℕ) : IOManager ω :=
  { io with size, context := fun i => if i < io.size then io.context i else {} }

/-- The constructor, before any descriptor is registered. -/
def new : IOManager ω :=
  contextResize ⟨0, fun _ => {}, 0, fun _ => none, []⟩ 32

/-- A write through the pointer `m_fd_contexts[fd]`. -/
def setFdContext (io : IOManager ω) (fd : ℕ) (c : FdContext ω) : IOManager ω :=
  { io with context := Function.update io.context fd c }

/-- `scheduler->submit(task)`; a task with neither a fiber nor a callback is not queued. -/
def submit (io : IOManager ω) (task : Submission ω) : IOManager ω :=
  if task.fiber.isSome || task.cb.isSome then { io with submitted := io.submitted ++ [task] }
  else io

/-- `FdContext::triggerContext` on the context of `fd`. The fiber or callback is
moved out of the event context. -/
def triggerContext (io : IOManager ω) (fd : ℕ) (event : Event) : Except Fault (IOManager ω) := do
  if !(event &&& (io.context fd).events).any then throw .triggerArmed
  let c : FdContext ω :=
    { io.context fd with events := (io.context fd).events &&& ~~~event }
  let e ← c.getContext event
  match e.scheduler with
  | none => throw .nullScheduler
  | some scheduler =>
      if e.fiber.isSome then
        return (io.setFdContext fd (c.setContext event ⟨none, none, e.cb⟩)).submit
          ⟨scheduler, e.fiber, none⟩
      else
        return (io.setFdContext fd (c.setContext event ⟨none, e.fiber, none⟩)).submit
          ⟨scheduler, none, e.cb⟩

/-- The first lines of `addEvent`: grow the table so that it has room for `fd`. -/
def ensureContext (io : IOManager ω) (fd : ℕ) : IOManager ω :=
  if io.size ≤ fd then io.contextResize (fd * 3 / 2) else io

/-- `addEvent` on a thread with `Scheduler::Self() = self` and `Fiber::Self() = fiber`. -/
def addEvent (io : IOManager ω) (fd : ℕ) (event : Event) (cb : Option ω) (self : Option ℕ)
    (fiber : Option ω) (fails : Bool) : Except Fault (ℤ × IOManager ω) := do
  let io := io.ensureContext fd
  if io.size ≤ fd then throw .outOfBounds
  let c := io.context fd
  if (c.events &&& event).any then throw .addUnarmed
  let op := if c.events.any then EpollCtlOp.mod else EpollCtlOp.add
  match epollCtl io.interest op fd (c.events ||| event) fails with
  | none => return (-1, io)
  | some interest =>
      let c ← { c with events := c.events ||| event }.attach event cb self fiber
      return (0, { io.setFdContext fd c with
        pendingEventCount := io.pendingEventCount + 1, interest })

/-- The part that `delEvent` and `cancelEvent` share: look the event up, and tell
the kernel what is left. `none` where they return `false`. -/
def leave (io : IOManager ω) (fd : ℕ) (event : Event) (fails : Bool) :
    Option (ℕ → Option Event) :=
  if io.size ≤ fd then none
  else if !((io.context fd).events &&& event).any then none
  else
    let newEvents := (io.context fd).events &&& ~~~event
    let op := if newEvents.any then EpollCtlOp.mod else EpollCtlOp.del
    epollCtl io.interest op fd newEvents fails

def delEvent (io : IOManager ω) (fd : ℕ) (event : Event) (fails : Bool) :
    Except Fault (Bool × IOManager ω) := do
  match io.leave fd event fails with
  | none => return (false, io)
  | some interest =>
      let c : FdContext ω :=
        { io.context fd with events := (io.context fd).events &&& ~~~event }
      let _ ← c.getContext event
      return (true, { io.setFdContext fd (c.resetContext event) with
        pendingEventCount := decrement io.pendingEventCount, interest })

def cancelEvent (io : IOManager ω) (fd : ℕ) (event : Event) (fails : Bool) :
    Except Fault (Bool × IOManager ω) := do
  match io.leave fd event fails with
  | none => return (false, io)
  | some interest =>
      let io ← { io with interest }.triggerContext fd event
      return (true, { io with pendingEventCount := decrement io.pendingEventCount })

/-- The part that `delAll` and `cancelAll` share: the descriptor is removed from
the interest list. `none` where they return `false`. -/
def leaveAll (io : IOManager ω) (fd : ℕ) (fails : Bool) : Option (ℕ → Option Event) :=
  if io.size ≤ fd then none
  else if !(io.context fd).events.any then none
  else epollCtl io.interest .del fd eventNone fails

/-- The body of one `if` of `delAll`. -/
def resetArmed (io : IOManager ω) (fd : ℕ) (event : Event) : IOManager ω :=
  if ((io.context fd).events &&& event).any then
    { io.setFdContext fd ((io.context fd).resetContext event) with
      pendingEventCount := decrement io.pendingEventCount }
  else io

def delAll (io : IOManager ω) (fd : ℕ) (fails : Bool) : Bool × IOManager ω :=
  match io.leaveAll fd fails with
  | none => (false, io)
  | some interest =>
      (true, ({ io with interest }.resetArmed fd eventRead).resetArmed fd eventWrite)

def cancelAll (io : IOManager ω) (fd : ℕ) (fails : Bool) : Except Fault (Bool × IOManager ω) := do
  match io.leaveAll fd fails with
  | none => return (false, io)
  | some interest =>
      let io := { io with interest }
      if ((io.context fd).events &&& eventRead).any then
        let io ← io.triggerContext fd eventRead
        return (true, { io with pendingEventCount := decrement io.pendingEventCount })
      else if ((io.context fd).events &&& eventWrite).any then
        let io ← io.triggerContext fd eventWrite
        return (true, { io with pendingEventCount := decrement io.pendingEventCount })
      else return (true, io)

/-- `real_event`: what a record reports, where an error or a hang-up stands for
everything that is armed. -/
def realEvent (io : IOManager ω) (r : Record) : Event :=
  let armed := (io.context r.fd).events
  let widen := r.epollerr || r.epollhup
  ⟨r.epollin || (widen && armed.read), r.epollout || (widen && armed.write)⟩

/-- One `if` at the end of the dispatch. -/
def triggerReported (io : IOManager ω) (fd : ℕ) (real event : Event) :
    Except Fault (IOManager ω) := do
  if (real &&& event).any then
    let io ← io.triggerContext fd event
    return { io with pendingEventCount := decrement io.pendingEventCount }
  else return io

/-- The body of the loop over the records in `wait`, for a record of a descriptor. -/
def dispatch (io : IOManager ω) (r : Record) (fails : Bool) : Except Fault (IOManager ω) := do
  let real := io.realEvent r
  if (io.context r.fd).events &&& real = eventNone then return io
  let left := (io.context r.fd).events &&& ~~~real
  let op := if left.any then EpollCtlOp.mod else EpollCtlOp.del
  match epollCtl io.interest op r.fd left fails with
  | none => return io
  | some interest =>
      let io ← { io with interest }.triggerReported r.fd real eventRead
      io.triggerReported r.fd real eventWrite

/-- What the hooked `close` does to the IO manager of its thread. -/
def close (io : IOManager ω) (fd : ℕ) (cancelFails delFails : Bool) :
    Except Fault (IOManager ω) := do
  let (_, io) ← io.cancelAll fd cancelFails
  return (io.delAll fd delFails).2

end IOManager

end Xzmjx.IOManagerModel
