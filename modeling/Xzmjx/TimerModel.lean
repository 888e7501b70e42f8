import Mathlib.Algebra.Group.Nat.Defs
import Xzmjx.StepSystem
import Xzmjx.OrderedSet

/-!
# Timers and the timer manager

`m_timers` is a `std::set` of timer pointers whose comparator reads the mutable
`m_next` of the timers it points to. A timer is named by the number of its
construction; the manager holds the fields of every timer constructed so far and
the in-order traversal of the set. Clock readings are arguments. Milliseconds
are 64-bit: sums and differences are taken modulo `2 ^ 64`.
-/
namespace Xzmjx.TimerModel

/-- Callbacks are opaque; a number names one. -/
abbrev Callback := ℕ

structure Timer where
  /-- The address the comparator falls back on. -/
  addr : ℕ
  recurring : Bool := false
  ms : ℕ := 0
  next : ℕ := 0
  cb : Option Callback := none
  deriving DecidableEq, Repr

def wrap (n : ℕ) : ℕ := n % 2 ^ 64

/-- `Timer::Comparator` on two non-null pointers. -/
def comparator (lhs rhs : Timer) : Bool :=
  if lhs.next < rhs.next then true
  else if rhs.next < lhs.next then false
  else decide (lhs.addr < rhs.addr)

structure TimerManager where
  timer : ℕ → Timer
  /-- The timers constructed so far are `0, …, count - 1`. -/
  count : ℕ
  timers : List ℕ
  /-- Whether `m_onTimerInsertAtFrontCb` is set. -/
  insertAtFrontCb : Bool

namespace TimerManager

/-- The constructor. -/
def new (insertAtFrontCb : Bool) : TimerManager :=
  ⟨fun _ => { addr := 0 }, 0, [], insertAtFrontCb⟩

/-- The comparator of the set, reading the fields as they are now. -/
def lt (m : TimerManager) (a b : ℕ) : Bool := comparator (m.timer a) (m.timer b)

def setTimer (m : TimerManager) (t : ℕ) (x : Timer) : TimerManager :=
  { m with timer := Function.update m.timer t x }

/-- `m_timers.insert(timer)`. -/
def insert (m : TimerManager) (t : ℕ) : TimerManager :=
  { m with timers := OrderedSet.insert m.lt t m.timers }

/-- `m_timers.erase(iter)` with the iterator that `find` returned for the timer. -/
def erase (m : TimerManager) (t : ℕ) : TimerManager :=
  { m with timers := OrderedSet.erase m.lt t m.timers }

def find (m : TimerManager) (t : ℕ) : Option ℕ := OrderedSet.find m.lt t m.timers

/-- `Timer::cancel`. -/
def cancel (m : TimerManager) (t : ℕ) : Bool × TimerManager :=
  if (m.timer t).cb = none then (false, m)
  else
    let m := m.setTimer t { m.timer t with cb := none }
    if (m.find t).isSome then (true, m.erase t) else (false, m)

/-- `Timer::refresh` at clock reading `now`. -/
def refresh (m : TimerManager) (t now : ℕ) : Bool × TimerManager :=
  if (m.timer t).cb = none then (false, m)
  else if (m.find t).isSome then
    let m := m.erase t
    let m := m.setTimer t { m.timer t with next := wrap (now + (m.timer t).ms) }
    (true, m.insert t)
  else (false, m)

/-- `TimerManager::addTimer(timer, lock)`: whether the front callback is invoked,
and the manager. The iterator that `insert` returns is where `find` now leads. -/
def addTimerLocked (m : TimerManager) (t : ℕ) : Bool × TimerManager :=
  let m := m.insert t
  (m.timers.head? = m.find t && m.insertAtFrontCb, m)

/-- `Timer::reset`: the result, whether the front callback was invoked, and the
manager. `now` is read only if `fromNow`. -/
def reset (m : TimerManager) (t ms : ℕ) (fromNow : Bool) (now : ℕ) : Bool × Bool × TimerManager :=
  if (m.timer t).cb = none then (false, false, m)
  else if (m.find t).isSome then
    let m := m.erase t
    let start := if fromNow then now else wrap ((m.timer t).next + 2 ^ 64 - (m.timer t).ms)
    let m := m.setTimer t { m.timer t with next := wrap (start + ms), ms := ms }
    (true, m.addTimerLocked t)
  else (false, false, m)

/-- `TimerManager::addTimer(ms, cb, recurring)`; the allocator supplies `addr`. -/
def addTimer (m : TimerManager) (addr ms : ℕ) (cb : Callback) (recurring : Bool) (now : ℕ) :
    Bool × TimerManager :=
  let t := m.count
  let m := { m with count := m.count + 1 }
  let m := m.setTimer t ⟨addr, recurring, ms, wrap (now + ms), some cb⟩
  m.addTimerLocked t

/-- The timers `listExpiredCb` takes out: those before the iterator, which starts
at the lower bound of the temporary timer and is advanced over equal deadlines. -/
def expire (m : TimerManager) (now nowAddr : ℕ) : List ℕ × List ℕ :=
  let nowTimer : Timer := { addr := nowAddr, next := now }
  let before := m.timers.takeWhile fun t => comparator (m.timer t) nowTimer
  let iter := m.timers.dropWhile fun t => comparator (m.timer t) nowTimer
  (before ++ iter.takeWhile (fun t => (m.timer t).next = now),
    iter.dropWhile fun t => (m.timer t).next = now)

/-- The body of the loop over the expired timers, at clock reading `now`. A
callback is handed out together with the timer it was copied from. -/
def fire (m : TimerManager) (t now : ℕ) : List (ℕ × Callback) × TimerManager :=
  let cbs := ((m.timer t).cb.map fun cb => (t, cb)).toList
  if (m.timer t).recurring then
    (cbs, (m.setTimer t { m.timer t with next := wrap (now + (m.timer t).ms) }).insert t)
  else (cbs, m.setTimer t { m.timer t with cb := none })

/-- The loop; `clock i` is the reading taken for the `i`-th of the remaining timers. -/
def fireAll (m : TimerManager) : List ℕ → (ℕ → ℕ) → List (ℕ × Callback) × TimerManager
  | [], _ => ([], m)
  | t :: ts, clock =>
      let (cbs, m) := m.fire t (clock 0)
      let (more, m) := m.fireAll ts fun i => clock (i + 1)
      (cbs ++ more, m)

/-- `TimerManager::listExpiredCb` at reading `now`, with the address of the
temporary timer and the later readings of the loop. -/
def listExpiredCb (m : TimerManager) (now nowAddr : ℕ) (clock : ℕ → ℕ) :
    List (ℕ × Callback) × TimerManager :=
  let (expired, left) := m.expire now nowAddr
  fireAll { m with timers := left } expired clock

end TimerManager

/-! ### Calls -/

inductive Op
  | addTimer (addr ms : ℕ) (cb : Callback) (recurring : Bool) (now : ℕ)
  | cancel (t : ℕ)
  | refresh (t now : ℕ)
  | reset (t ms : ℕ) (fromNow : Bool) (now : ℕ)
  | listExpiredCb (now nowAddr : ℕ) (clock : ℕ → ℕ)

/-- What a call returns to its caller. -/
inductive Output
  | added (t : ℕ)
  | result (ok : Bool)
  | expired (cbs : List (ℕ × Callback))
  deriving DecidableEq, Repr

/-- The timer on which a call is made. -/
def Op.target : Op → Option ℕ
  | .cancel t | .refresh t _ | .reset t _ _ _ => some t
  | .addTimer .. | .listExpiredCb .. => none

/-- The timers whose callback an output hands out. -/
def Output.handedOut : Output → List ℕ
  | .expired cbs => cbs.map Prod.fst
  | .added _ | .result _ => []

/-- One call. A handle comes from an earlier `addTimer`, and the allocator does
not return the address of a timer that the set still owns. -/
def exec (m : TimerManager) : Op → Option (TimerManager × Output)
  | .addTimer addr ms cb recurring now =>
      if addr ∈ m.timers.map fun t => (m.timer t).addr then none
      else some ((m.addTimer addr ms cb recurring now).2, .added m.count)
  | .cancel t =>
      if t < m.count then some ((m.cancel t).2, .result (m.cancel t).1) else none
  | .refresh t now =>
      if t < m.count then some ((m.refresh t now).2, .result (m.refresh t now).1) else none
  | .reset t ms fromNow now =>
      if t < m.count then
        some ((m.reset t ms fromNow now).2.2, .result (m.reset t ms fromNow now).1)
      else none
  | .listExpiredCb now nowAddr clock =>
      some ((m.listExpiredCb now nowAddr clock).2, .expired (m.listExpiredCb now nowAddr clock).1)

def step (m : TimerManager) (op : Op) : Option TimerManager := (exec m op).map Prod.fst

/-- The outputs of the calls of a run, in order. -/
def outputs (m : TimerManager) : List Op → List Output
  | [] => []
  | op :: ops =>
      match exec m op with
      | none => []
      | some (m', out) => out :: outputs m' ops

end Xzmjx.TimerModel
