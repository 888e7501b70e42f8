import Xzmjx.DoIoTimeouts

/-!
# One call of `connect_with_timeout`

The call starts the connection, waits once for the descriptor to become writable, with a timer
of its own, and then asks the socket for its error. Parties, callbacks and the work of everybody
else are those of `do_io`: nobody calls `delAll` or `cancelAll` of the descriptor, as the hooked
`close` does, and nobody else asks for the error. The kernel's side is the state of the
connection; a record of the descriptor is `Honest` if it reports neither room nor an error while
the connection is made.

A yield is two steps: `FIBER_HOLD` is stored, and `swapcontext` saves the context. A thread that
takes the fiber in between runs it on the context of its last yield, while the other thread is
still on its stack; a run ends there.
-/
namespace Xzmjx.ConnectModel
open StepSystem FallibleCalls
open Xzmjx.TimerModel (TimerManager exec exec_spec Good Retired)
open Xzmjx.IOManagerModel (IOManager Direction Record eventWrite)
open Xzmjx.HookModel (FdCtx)
open Xzmjx.DoIoModel (Party Stage foreign Waiting)

inductive Connection
  | idle
  | connecting
  | established
  | failed (e : ℕ)
  deriving DecidableEq, Repr

/-- What `connect_f` returns: 0, or -1 with `EINPROGRESS` or another error. -/
inductive Answer
  | connected
  | inProgress
  | error (e : ℕ)
  deriving DecidableEq, Repr

def Answer.connection : Answer → Connection
  | .connected => .established
  | .inProgress => .connecting
  | .error e => .failed e

/-- The arguments of the call; no timeout is -1. -/
structure Call where
  fd : ℕ
  scheduler : ℕ
  timeout : Option ℕ

/-- The wait, as one for `do_io`. -/
def Call.wait (c : Call) : DoIoModel.Call := ⟨c.fd, .write, c.scheduler, c.timeout⟩

inductive Result
  /-- What `connect_f` returned. -/
  | value (a : Answer)
  /-- -1 with `EBADF`. -/
  | badFd
  /-- -1 with `errno = t_info->cancelled`. -/
  | timedOut
  /-- -1 after a failed `getsockopt`. -/
  | optFailed
  /-- 0, or -1 with the error of the socket. -/
  | socket (error : Option ℕ)
  deriving DecidableEq, Repr

/-- The call returns 0. -/
def Result.zero (r : Result) : Bool := r = .value .connected || r = .socket none

inductive Pc
  | entry
  /-- About to return what `connect_f` returns. -/
  | direct
  | call
  /-- The answer was `EINPROGRESS`; about to add the timer. -/
  | arm
  /-- About to call `addEvent`. -/
  | add
  /-- The event is added; about to store `FIBER_HOLD`. -/
  | hold
  /-- About to save the context. -/
  | holding
  /-- Until the fiber is resumed. -/
  | saved
  /-- About to call `timer->cancel()`. -/
  | woken
  /-- About to test `t_info->cancelled`. -/
  | check
  /-- `addEvent` failed; about to call `timer->cancel()`. -/
  | failed
  /-- About to call `getsockopt`. -/
  | sockopt
  | returned (r : Result)
  deriving DecidableEq, Repr

/-- Where the IO manager sees the fiber. -/
def Pc.wait : Pc → DoIoModel.Pc
  | .entry => .entry
  | .direct => .direct
  | .call => .call
  | .arm => .arm
  | .add => .add 0
  | .hold => .hold 0
  | .holding => .hold 0
  | .saved => .hold 0
  | .woken => .woken 0
  | .check => .check 0
  | .failed => .failed 0
  | .sockopt => .direct
  | .returned _ => .direct

structure State where
  timers : TimerManager
  io : IOManager Party
  pc : Pc
  /-- 1 once the wait was begun. -/
  waits : ℕ
  timer : Option ℕ
  stage : Stage
  /-- `t_info->cancelled` is `ETIMEDOUT`. -/
  cancelled : Bool
  connection : Connection
  /-- `addEvent` failed, or somebody else has cancelled the event of the descriptor. -/
  disturbed : Bool
  /-- The fiber was resumed before its context was saved. -/
  torn : Bool

inductive Label
  /-- The tests before `connect_f`. -/
  | enter (hookEnable : Bool) (fdCtx : Option FdCtx)
  | connect (answer : Answer)
  /-- `addCondTimerEvent`, at clock reading `now`; the allocator supplies `addr`. -/
  | arm (addr now : ℕ)
  | addEvent (fails : Bool)
  /-- The store of `FIBER_HOLD`, and the `swapcontext` behind it. -/
  | yield
  | swapcontext
  /-- A thread takes the fiber out of the task queue. -/
  | resume
  | cancelTimer
  | check
  | getsockopt (fails : Bool)
  /-- The connection is made, or it fails. -/
  | kernel (error : Option ℕ)
  /-- A call on the timer manager by somebody else, `listExpiredCb` included. -/
  | timer (op : TimerModel.Op)
  | lock
  | test
  | mark
  | cancelEvent (fails : Bool)
  /-- A call on the IO manager by somebody else, the dispatch in `wait` included. -/
  | io (op : IOManagerModel.Op Party)

/-- The tests of `connect_with_timeout` before `connect_f`. -/
def enter (hookEnable : Bool) (fdCtx : Option FdCtx) : Pc :=
  if !hookEnable then .direct
  else match fdCtx with
    | none => .returned .badFd
    | some ctx =>
        if ctx.isClosed then .returned .badFd
        else if !ctx.isSocket then .direct
        else if ctx.userNonblock then .direct
        else .call

/-- Somebody else cancels the event that the call waits for. -/
def cancels (c : Call) : IOManagerModel.Op Party → Bool
  | .cancelEvent fd event _ => fd = c.fd && event = eventWrite
  | _ => false

namespace State

def start : State where
  timers := TimerManager.new true
  io := IOManager.new
  pc := .entry
  waits := 0
  timer := none
  stage := .idle
  cancelled := false
  connection := .idle
  disturbed := false
  torn := false

/-- Somebody still owns `t_info`. -/
def alive (s : State) : Bool :=
  (match s.pc with
    | .returned _ => false
    | _ => true) || s.stage.owner

/-- `addCondTimerEvent`, if there is a timeout. -/
def arm (c : Call) (s : State) (addr now : ℕ) : Option State :=
  match c.timeout with
  | none => some { s with pc := .add, waits := 1 }
  | some ms =>
      (exec s.timers (.addTimer addr ms 0 false now)).map fun r =>
        { s with timers := r.1, pc := .add, waits := 1, timer := some s.timers.count }

def addEvent (c : Call) (s : State) (fails : Bool) : Option State :=
  match s.io.addEvent c.fd eventWrite none (some c.scheduler) (some (.wait 0)) fails with
  | .error _ => none
  | .ok (rt, io) =>
      some (if rt = 0 then { s with io, pc := .hold }
        else { s with io, pc := .failed, disturbed := true })

/-- `if (timer) timer->cancel()`, and on to `pc`. -/
def cancelTimer (s : State) (pc : Pc) : Option State :=
  match s.timer with
  | none => some { s with pc }
  | some t => (exec s.timers (.cancel t)).map fun r => { s with timers := r.1, pc }

/-- A call on the timer manager; the callbacks that it hands out are submitted. -/
def onTimer (s : State) (op : TimerModel.Op) : Option State :=
  if op.target.any fun t => s.timer = some t then none
  else (exec s.timers op).map fun r =>
    { s with
      timers := r.1
      stage := if s.timer.any fun t => t ∈ r.2.handedOut then .queued else s.stage }

def submitted (s : State) : Bool := s.io.submitted.any fun sub => sub.fiber = some (.wait 0)

/-- `SO_ERROR`. -/
def sockError (s : State) : Option ℕ :=
  match s.connection with
  | .failed e => some e
  | _ => none

def next (c : Call) (s : State) : Label → Option State
  | .enter hookEnable fdCtx =>
      match s.pc with
      | .entry => some { s with pc := enter hookEnable fdCtx }
      | _ => none
  | .connect answer =>
      match s.pc with
      | .direct => some { s with pc := .returned (.value answer), connection := answer.connection }
      | .call =>
          some { s with
            pc := if answer = .inProgress then .arm else .returned (.value answer)
            connection := answer.connection }
      | _ => none
  | .arm addr now =>
      match s.pc with
      | .arm => s.arm c addr now
      | _ => none
  | .addEvent fails =>
      match s.pc with
      | .add => s.addEvent c fails
      | _ => none
  | .yield =>
      match s.pc with
      | .hold => some { s with pc := .holding }
      | _ => none
  | .swapcontext =>
      match s.pc with
      | .holding => some { s with pc := .saved }
      | _ => none
  | .resume =>
      -- as long as the fiber is running it is passed over
      match s.pc with
      | .holding => if s.submitted then some { s with torn := true } else none
      | .saved => if s.submitted then some { s with pc := .woken } else none
      | _ => none
  | .cancelTimer =>
      match s.pc with
      | .woken => s.cancelTimer .check
      | .failed => s.cancelTimer .sockopt
      | _ => none
  | .check =>
      match s.pc with
      | .check => some { s with pc := if s.cancelled then .returned .timedOut else .sockopt }
      | _ => none
  | .getsockopt fails =>
      match s.pc with
      | .sockopt =>
          some { s with pc := .returned (if fails then .optFailed else .socket s.sockError) }
      | _ => none
  | .kernel error =>
      match s.connection with
      | .connecting => some { s with connection := error.elim .established .failed }
      | _ => none
  | .timer op => s.onTimer op
  | .lock =>
      if s.stage = .queued then
        some { s with stage := if s.alive then .locked else .finished }
      else none
  | .test =>
      if s.stage = .locked then
        some { s with stage := if s.cancelled then .finished else .marking }
      else none
  | .mark =>
      if s.stage = .marking then some { s with stage := .cancelling, cancelled := true } else none
  | .cancelEvent fails =>
      if s.stage = .cancelling then
        (DoIoModel.ioStep s.io (.cancelEvent c.fd eventWrite fails)).map fun io =>
          { s with stage := .finished, io }
      else none
  | .io op =>
      if foreign op then
        (DoIoModel.ioStep s.io op).map fun io =>
          { s with io, disturbed := s.disturbed || cancels c op }
      else none

/-- A torn state is the last one. -/
def step (c : Call) (s : State) (a : Label) : Option State :=
  if s.torn then none else s.next c a

end State

/-! ### At the IO manager -/

/-- Whoever was woken had a reason. -/
def State.Ready (s : State) : Prop :=
  s.connection ≠ .connecting ∨ s.cancelled = true ∨ s.disturbed = true

/-- The fiber was submitted by nobody, or for a reason. -/
def Sound (io : IOManager Party) (reason : Prop) : Prop :=
  ∀ sub ∈ io.submitted, sub.fiber = some (.wait 0) → reason

namespace Sound
variable {c : DoIoModel.Call} {pc : DoIoModel.Pc} {waits : ℕ} {io io' : IOManager Party}
  {reason reason' : Prop}

theorem mono (h : Sound io reason) (himp : reason → reason') : Sound io reason' :=
  fun sub hsub hfiber => himp (h sub hsub hfiber)

/-- Firing an event submits the fiber only if it is the event that the fiber waits for. -/
theorem fire (h : Sound io reason) (hw : Waiting c pc waits io) {fd : ℕ} {d : Direction}
    (hreason : fd = c.fd → d = c.direction → reason) : Sound (io.fire fd d) reason := by
  intro sub hsub hfiber
  rcases List.mem_append.mp hsub with hold | hnew
  · exact h sub hold hfiber
  · obtain ⟨w, hw', rfl⟩ : ∃ w, io.waiter? fd d = some w ∧ w.submission = sub := by
      simpa using hnew
    have hhandle : w.handle = .wait 0 := by
      cases hcb : w.isCb <;> simp_all [IOManagerModel.Waiter.submission]
    obtain ⟨rfl, rfl, -⟩ := hw.slot fd d w 0 hw' hhandle
    exact hreason rfl rfl

theorem ensureContext (h : Sound io reason) (fd : ℕ) : Sound (io.ensureContext fd) reason := by
  intro sub hsub
  rw [io.submitted_ensureContext] at hsub
  exact h sub hsub

/-- A call by somebody else; what it fires for the fiber is a reason. -/
theorem ioStep (h : Sound io reason) (hw : Waiting c pc waits io)
    {op : IOManagerModel.Op Party} (hs : DoIoModel.ioStep io op = some io')
    (hcancel : ∀ fails, op = .cancelEvent c.fd c.direction.event fails → reason)
    (hdispatch : ∀ r fails, op = .dispatch r fails → r.fd = c.fd →
      (io.realEvent r).has c.direction = true → reason) : Sound io' reason := by
  cases op with
  | addEvent fd event cb self fiber fails =>
      obtain ⟨⟨rt, io₁⟩, hx, rfl⟩ := Option.map_eq_some_iff.mp hs
      obtain ⟨-, rfl⟩ | ⟨d, -, -, -, -, rfl⟩ := hw.coherent.addEvent_cases (eq_ok_of_toOption hx)
      · exact h.ensureContext fd
      · exact h.ensureContext fd
  | delEvent fd event fails =>
      obtain ⟨⟨b, io₁⟩, hx, rfl⟩ := Option.map_eq_some_iff.mp hs
      obtain ⟨-, rfl⟩ | ⟨d, -, -, -, rfl⟩ := hw.coherent.delEvent_cases (eq_ok_of_toOption hx)
      · exact h
      · exact h
  | cancelEvent fd event fails =>
      obtain ⟨⟨b, io₁⟩, hx, rfl⟩ := Option.map_eq_some_iff.mp hs
      obtain ⟨-, rfl⟩ | ⟨d, rfl, -, -, rfl⟩ := hw.coherent.cancelEvent_cases (eq_ok_of_toOption hx)
      · exact h
      · refine h.fire hw ?_
        rintro rfl rfl
        exact hcancel fails rfl
  | dispatch r fails =>
      obtain rfl | ⟨hreal, rfl⟩ := hw.coherent.dispatch_cases (eq_ok_of_toOption hs)
      · exact h
      · refine (IOManagerModel.IOManager.fireReported_keeps_reported
          (fun io => Waiting c pc waits io ∧ Sound io reason) ?_ ⟨hw, h⟩ hreal).2
        rintro io₁ d hd ⟨hw₁, hsound⟩ harmed
        refine ⟨hw₁.fire harmed, hsound.fire hw₁ ?_⟩
        rintro hfd rfl
        exact hdispatch r fails rfl hfd hd

end Sound

/-! ### At the timer manager -/

/-- The wait is not begun. -/
def Pc.early : Pc → Bool
  | .entry | .direct | .call | .arm => true
  | _ => false

/-- The call uses its timer no more. -/
def Pc.over : Pc → Bool
  | .check | .sockopt | .returned _ => true
  | _ => false

namespace State

/-- The timer of the call. It is taken back before the call goes on, and only its callback marks
the call. -/
structure Timing (s : State) : Prop where
  good : Good s.timers []
  lt : ∀ t, s.timer = some t → t < s.timers.count
  early : s.pc.early = true → s.timer = none
  retired : s.pc.over = true → ∀ t, s.timer = some t → Retired s.timers t
  stage : s.stage ≠ .idle → s.timer.isSome = true
  marked : s.cancelled = true → s.stage ≠ .idle
  cancelling : s.stage = .cancelling → s.cancelled = true

namespace Timing
variable {s s' : State} {c : Call}

theorem start : Timing State.start where
  good := Good.new true
  lt := by simp [State.start]
  early _ := rfl
  retired := by simp [State.start]
  stage h := absurd rfl h
  marked := by simp [State.start]
  cancelling := by simp [State.start]

/-- The fiber goes on and leaves its timer alone. -/
theorem move (h : Timing s) (io : IOManager Party) (pc : Pc) (connection : Connection)
    (disturbed : Bool) (hearly : pc.early = true → s.pc.early = true)
    (hover : pc.over = true → s.pc.over = true ∨ s.pc.early = true) :
    Timing { s with io, pc, connection, disturbed } where
  good := h.good
  lt := h.lt
  early hpc := h.early (hearly hpc)
  retired hpc t ht := by
    rcases hover hpc with hpc | hpc
    · exact h.retired hpc t ht
    · cases ht.symm.trans (h.early hpc)
  stage := h.stage
  marked := h.marked
  cancelling := h.cancelling

theorem arm (h : Timing s) (hpc : s.pc = .arm) {addr now : ℕ} (hs : s.arm c addr now = some s') :
    Timing s' := by
  have hnone : s.timer = none := h.early (by rw [hpc]; rfl)
  unfold State.arm at hs
  split at hs
  · cases hs
    exact ⟨h.good, h.lt, fun hpc => absurd hpc Bool.false_ne_true,
      fun hpc => absurd hpc Bool.false_ne_true, h.stage, h.marked,
      h.cancelling⟩
  · obtain ⟨⟨m, out⟩, hexec, rfl⟩ := Option.map_eq_some_iff.mp hs
    have hidle : s.stage = .idle := by
      by_contra hne
      have hsome := h.stage hne
      rw [hnone] at hsome
      cases hsome
    refine ⟨(exec_spec h.good hexec).good, ?_, fun hpc => absurd hpc Bool.false_ne_true,
      fun hpc => absurd hpc Bool.false_ne_true,
      fun _ => rfl, h.marked, h.cancelling⟩
    rintro t ⟨⟩
    cases TimerModel.performed_of_exec hexec with
    | addTimer => exact Nat.lt_succ_self _

theorem cancelTimer (h : Timing s) {pc : Pc} (hearly : pc.early = false)
    (hs : s.cancelTimer pc = some s') : Timing s' := by
  have hlate : ¬pc.early = true := by rw [hearly]; exact Bool.false_ne_true
  unfold State.cancelTimer at hs
  split at hs
  · next hnone =>
      cases hs
      exact ⟨h.good, h.lt, fun hpc => absurd hpc hlate,
        fun _ t ht => (by cases hnone.symm.trans ht), h.stage, h.marked, h.cancelling⟩
  · next t ht =>
      obtain ⟨⟨m, out⟩, hexec, rfl⟩ := Option.map_eq_some_iff.mp hs
      have hspec := exec_spec h.good hexec
      refine ⟨hspec.good, fun t ht => lt_of_lt_of_le (h.lt t ht) hspec.count_le,
        fun hpc => absurd hpc hlate, fun _ t' ht' => ?_, h.stage, h.marked, h.cancelling⟩
      cases ht.symm.trans ht'
      exact TimerModel.retired_of_cancel h.good hexec

/-- A call on the timer manager. -/
theorem onTimer (h : Timing s) {op : TimerModel.Op} (hs : s.onTimer op = some s') : Timing s' := by
  unfold State.onTimer at hs
  split at hs
  · cases hs
  · obtain ⟨⟨m, out⟩, hexec, rfl⟩ := Option.map_eq_some_iff.mp hs
    have hspec := exec_spec h.good hexec
    refine ⟨hspec.good, fun t ht => lt_of_lt_of_le (h.lt t ht) hspec.count_le, h.early,
      fun hpc t ht => hspec.stays t (h.retired hpc t ht), fun hstage => ?_, fun hc => ?_,
      fun hstage => ?_⟩
    · by_contra hnone
      rw [Option.not_isSome_iff_eq_none.mp hnone] at hstage
      exact hnone (h.stage hstage)
    · dsimp only
      split
      · decide
      · exact h.marked hc
    · dsimp only at hstage
      split at hstage
      · cases hstage
      · exact h.cancelling hstage

/-- The callback goes on. -/
theorem advance (h : Timing s) (hidle : s.stage ≠ .idle) {x : Stage} (hx : x ≠ .idle)
    {cancelled : Bool} (io : IOManager Party) (hcancelling : x = .cancelling → cancelled = true) :
    Timing { s with stage := x, cancelled, io } where
  good := h.good
  lt := h.lt
  early := h.early
  retired := h.retired
  stage _ := h.stage hidle
  marked _ := hx
  cancelling hstage := hcancelling hstage

end Timing

/-! ### What the result says -/

/-- The wait is begun, or about to be. -/
def waiting : Pc → Bool
  | .arm | .add | .hold | .holding | .saved | .woken | .check | .failed | .sockopt => true
  | _ => false

/-- What a result says of the connection and of the timer. -/
def Justified (s : State) : Result → Prop
  | .value .connected => s.connection = .established
  | .value (.error e) => s.connection = .failed e
  | .socket none => s.connection = .established ∨ s.disturbed = true
  | .socket (some e) => s.connection = .failed e
  | .timedOut => s.stage ≠ .idle
  | .value .inProgress | .badFd | .optFailed => True

/-- No reason is lost. -/
structure Reasons (s : State) : Prop where
  submitted : Sound s.io s.Ready
  ready : s.pc = .woken ∨ s.pc = .check → s.Ready
  failed : s.pc = .failed → s.disturbed = true
  sockopt : s.pc = .sockopt → s.connection ≠ .connecting ∨ s.disturbed = true
  started : waiting s.pc = true → s.connection ≠ .idle
  result : ∀ r, s.pc = .returned r → s.Justified r

namespace Reasons
variable {s s' : State}

theorem start : Reasons State.start where
  submitted sub hsub := by cases hsub
  ready h := by rcases h with h | h <;> cases h
  failed h := by cases h
  sockopt h := by cases h
  started h := absurd h Bool.false_ne_true
  result r h := by cases h

/-- What others do takes no reason back. -/
theorem mono (h : Reasons s) (hpc : s'.pc = s.pc) (hsub : Sound s'.io s'.Ready)
    (hconnection : s'.connection = s.connection ∨
      (s.connection = .connecting ∧ s'.connection ≠ .connecting ∧ s'.connection ≠ .idle))
    (hcancelled : s.cancelled = true → s'.cancelled = true)
    (hdisturbed : s.disturbed = true → s'.disturbed = true)
    (hstage : s.stage ≠ .idle → s'.stage ≠ .idle) : Reasons s' := by
  have hsettled : s.connection ≠ .connecting → s'.connection = s.connection := fun hne =>
    hconnection.resolve_right fun hmade => hne hmade.1
  have hready : s.Ready → s'.Ready := by
    rintro (hne | hc | hd)
    · exact .inl (by rw [hsettled hne]; exact hne)
    · exact .inr (.inl (hcancelled hc))
    · exact .inr (.inr (hdisturbed hd))
  refine ⟨hsub, fun hp => hready (h.ready (hpc ▸ hp)), fun hp => hdisturbed (h.failed (hpc ▸ hp)),
    fun hp => ?_, fun hp => ?_, fun r hr => ?_⟩
  · exact (h.sockopt (hpc ▸ hp)).imp (fun hne => (hsettled hne).symm ▸ hne) hdisturbed
  · rcases hconnection with heq | ⟨-, -, hne⟩
    · rw [heq]
      exact h.started (hpc ▸ hp)
    · exact hne
  · have hold := h.result r (hpc ▸ hr)
    have hkeep : ∀ k, k ≠ .connecting → s.connection = k → s'.connection = k := by
      rintro k hk rfl
      exact hsettled hk
    cases r with
    | value a =>
        cases a with
        | connected => exact hkeep _ (fun he => by cases he) hold
        | inProgress => trivial
        | error e => exact hkeep _ (fun he => by cases he) hold
    | badFd => trivial
    | timedOut => exact hstage hold
    | optFailed => trivial
    | socket error =>
        cases error with
        | none => exact hold.imp (hkeep _ fun he => by cases he) hdisturbed
        | some e => exact hkeep _ (fun he => by cases he) hold

end Reasons

/-! ### Runs -/

/-- A record of the descriptor that reports room or an error comes when the connection is made. -/
def Honest (c : Call) (s : State) : Label → Prop
  | .io (.dispatch r _) =>
      r.fd = c.fd → (r.epollout || r.epollerr || r.epollhup) = true → s.connection ≠ .connecting
  | _ => True

instance decidableHonest (c : Call) (s : State) : ∀ a, Decidable (s.Honest c a)
  | .io (.dispatch r _) => inferInstanceAs (Decidable
      (r.fd = c.fd → (r.epollout || r.epollerr || r.epollhup) = true →
        s.connection ≠ .connecting))
  | .io (.addEvent ..) | .io (.delEvent ..) | .io (.cancelEvent ..) => isTrue trivial
  | .enter .. | .connect _ | .arm .. | .addEvent _ | .yield | .swapcontext | .resume
  | .cancelTimer | .check | .getsockopt _ | .kernel _ | .timer _ | .lock | .test | .mark
  | .cancelEvent _ => isTrue trivial

structure Inv (c : Call) (s : State) : Prop where
  io : Waiting c.wait s.pc.wait s.waits s.io
  early : s.pc.early = true → s.waits = 0
  add : s.pc = .add → s.waits = 1
  timing : Timing s
  reasons : Reasons s

namespace Inv
variable {c : Call} {s s' : State}

theorem start (c : Call) : Inv c start where
  io := Waiting.new c.wait
  early _ := rfl
  add h := by cases h
  timing := Timing.start
  reasons := Reasons.start

/-- Before its wait the fiber was submitted by nobody. -/
theorem sound (h : Inv c s) (hearly : s.pc.early = true) {reason : Prop} : Sound s.io reason := by
  intro sub hsub hfiber
  have hlt := (h.io.submitted sub hsub 0 hfiber).1
  rw [h.early hearly] at hlt
  cases hlt

theorem enter (h : Inv c s) (hpc : s.pc = .entry) (hookEnable : Bool) (fdCtx : Option FdCtx) :
    Inv c { s with pc := enter hookEnable fdCtx } := by
  have hearly : s.pc.early = true := by rw [hpc]; rfl
  have hcases : ConnectModel.enter hookEnable fdCtx = .direct ∨
      ConnectModel.enter hookEnable fdCtx = .returned .badFd ∨
      ConnectModel.enter hookEnable fdCtx = .call := by
    cases hookEnable with
    | false => exact .inl rfl
    | true =>
        cases fdCtx with
        | none => exact .inr (.inl rfl)
        | some ctx =>
            simp only [ConnectModel.enter, Bool.not_true, Bool.false_eq_true, if_false]
            split_ifs <;> simp
  have hmove : ∀ pc : Pc, (pc = .direct ∨ pc = .returned .badFd ∨ pc = .call) →
      Inv c { s with pc } := by
    intro pc hpc'
    refine ⟨h.io.move (by rw [hpc]; simp [Pc.wait]) le_rfl ?_, fun _ => h.early hearly, ?_,
      h.timing.move s.io pc s.connection s.disturbed (fun _ => hearly) fun _ => .inr hearly,
      h.sound hearly, ?_, ?_, ?_, ?_, ?_⟩
    all_goals rcases hpc' with rfl | rfl | rfl <;> simp [Pc.wait, waiting, Justified]
  exact hmove _ hcases

theorem connect (h : Inv c s) {a : Answer} {pc : Pc} (hpc : s.pc = .direct ∨ s.pc = .call)
    (hpc' : pc = .returned (.value a) ∨ (pc = .arm ∧ a = .inProgress)) :
    Inv c { s with pc, connection := a.connection } := by
  have hearly : s.pc.early = true := by rcases hpc with hpc | hpc <;> rw [hpc] <;> rfl
  have hhold : ∀ k, s.pc.wait ≠ .hold k := by
    intro k
    rcases hpc with hpc | hpc <;> rw [hpc] <;> simp [Pc.wait]
  refine ⟨h.io.move hhold le_rfl ?_, fun _ => h.early hearly, ?_,
    h.timing.move s.io pc a.connection s.disturbed (fun _ => hearly) fun _ => .inr hearly,
    h.sound hearly, ?_, ?_, ?_, ?_, ?_⟩
  all_goals rcases hpc' with rfl | ⟨rfl, rfl⟩
  all_goals simp [Pc.wait, waiting]
  · exact fun he => by cases he
  · cases a <;> simp [Justified, Answer.connection]

theorem arm (h : Inv c s) (hpc : s.pc = .arm) {addr now : ℕ} (hs : s.arm c addr now = some s') :
    Inv c s' := by
  have hearly : s.pc.early = true := by rw [hpc]; rfl
  have hio : Waiting c.wait (.add 0) 1 s.io := by
    refine h.io.move (by rw [hpc]; simp [Pc.wait]) (by rw [h.early hearly]; exact Nat.zero_le 1) ?_
    intro k hk
    rw [h.early hearly] at hk
    cases hk
  have htiming := h.timing.arm hpc hs
  have hstarted := h.reasons.started (by rw [hpc]; rfl)
  have hreasons : ∀ m timer, Reasons { s with timers := m, pc := .add, waits := 1, timer } :=
    fun m timer => ⟨h.sound hearly, by simp, by simp, by simp, fun _ => hstarted, by simp⟩
  unfold State.arm at hs
  split at hs
  · cases hs
    exact ⟨hio, fun he => absurd he Bool.false_ne_true, fun _ => rfl, htiming, hreasons _ _⟩
  · obtain ⟨r, -, rfl⟩ := Option.map_eq_some_iff.mp hs
    exact ⟨hio, fun he => absurd he Bool.false_ne_true, fun _ => rfl, htiming, hreasons _ _⟩

theorem addEvent (h : Inv c s) (hpc : s.pc = .add) {fails : Bool}
    (hs : s.addEvent c fails = some s') : Inv c s' := by
  have hio : Waiting c.wait (.add 0) s.waits s.io := by
    have hio := h.io
    rwa [hpc] at hio
  have hwaits := h.add hpc
  have hstarted := h.reasons.started (by rw [hpc]; rfl)
  have hlate : ¬s.pc.early = true := by rw [hpc]; exact Bool.false_ne_true
  unfold State.addEvent at hs
  split at hs
  · cases hs
  next rt io hadd =>
  cases hs
  obtain ⟨rfl, rfl⟩ | ⟨d, hd, rfl, hfd, hfree, rfl⟩ := hio.coherent.addEvent_cases hadd
  · rw [if_neg (by decide)]
    refine ⟨(hio.ensureContext c.fd).move (by simp) le_rfl (by simp [Pc.wait]), by simp [Pc.early],
      by simp, h.timing.move _ .failed s.connection true (by simp [Pc.early]) (by simp [Pc.over]),
      (h.reasons.submitted.ensureContext c.fd).mono fun _ => .inr (.inr rfl), by simp,
      fun _ => rfl, by simp, fun _ => hstarted, by simp⟩
  · obtain rfl : Direction.write = d := by
      cases d with
      | read => cases hd
      | write => rfl
    rw [if_pos rfl]
    exact ⟨(hio.ensureContext c.fd).hold (by omega) hfd hfree rfl, by simp [Pc.early], by simp,
      h.timing.move _ .hold s.connection s.disturbed (by simp [Pc.early]) (by simp [Pc.over]),
      h.reasons.submitted.ensureContext c.fd, by simp, by simp, by simp, fun _ => hstarted, by simp⟩

/-- The fiber goes on in its yield. -/
theorem yield (h : Inv c s) {pc : Pc} (hpc : s.pc = .hold ∧ pc = .holding ∨
    s.pc = .holding ∧ pc = .saved) : Inv c { s with pc } := by
  have hio : Waiting c.wait pc.wait s.waits s.io := by
    have hio := h.io
    rcases hpc with ⟨hpc, rfl⟩ | ⟨hpc, rfl⟩ <;> rwa [hpc] at hio
  have hstarted : s.connection ≠ .idle :=
    h.reasons.started (by rcases hpc with ⟨hpc, -⟩ | ⟨hpc, -⟩ <;> rw [hpc] <;> rfl)
  refine ⟨hio, ?_, ?_, h.timing.move s.io pc s.connection s.disturbed ?_ ?_,
    h.reasons.submitted, ?_, ?_, ?_, fun _ => hstarted, ?_⟩
  all_goals rcases hpc with ⟨-, rfl⟩ | ⟨-, rfl⟩ <;> simp [Pc.early, Pc.over]

theorem tear (h : Inv c s) : Inv c { s with torn := true } where
  io := h.io
  early := h.early
  add := h.add
  timing := ⟨h.timing.good, h.timing.lt, h.timing.early, h.timing.retired, h.timing.stage,
    h.timing.marked, h.timing.cancelling⟩
  reasons := ⟨h.reasons.submitted, h.reasons.ready, h.reasons.failed, h.reasons.sockopt,
    h.reasons.started, h.reasons.result⟩

theorem resume (h : Inv c s) (hpc : s.pc = .saved) (hsub : s.submitted = true) :
    Inv c { s with pc := .woken } := by
  obtain ⟨sub, hmem, hfiber⟩ := List.any_eq_true.mp hsub
  have hfiber' : sub.fiber = some (.wait 0) := by simpa using hfiber
  have hio : Waiting c.wait (.hold 0) s.waits s.io := by
    have hio := h.io
    rwa [hpc] at hio
  have hstarted := h.reasons.started (by rw [hpc]; rfl)
  exact ⟨hio.resume hmem hfiber', by simp [Pc.early], by simp,
    h.timing.move s.io .woken s.connection s.disturbed (by simp [Pc.early]) (by simp [Pc.over]),
    h.reasons.submitted, fun _ => h.reasons.submitted sub hmem hfiber', by simp, by simp,
    fun _ => hstarted, by simp⟩

/-- `timer->cancel()` after the wait, or after a failed `addEvent`. -/
theorem cancelTimer (h : Inv c s) {pc : Pc}
    (hpc : (s.pc = .woken ∧ pc = .check) ∨ (s.pc = .failed ∧ pc = .sockopt))
    (hs : s.cancelTimer pc = some s') : Inv c s' := by
  have hlate : pc.early = false := by rcases hpc with ⟨-, rfl⟩ | ⟨-, rfl⟩ <;> rfl
  have htiming := h.timing.cancelTimer hlate hs
  have hio : Waiting c.wait pc.wait s.waits s.io := by
    refine h.io.move (fun k => ?_) le_rfl (fun k _ => ?_)
    · rcases hpc with ⟨hpc, -⟩ | ⟨hpc, -⟩ <;> rw [hpc] <;> simp [Pc.wait]
    · rcases hpc with ⟨-, rfl⟩ | ⟨-, rfl⟩ <;> simp [Pc.wait]
  have hstarted : s.connection ≠ .idle :=
    h.reasons.started (by rcases hpc with ⟨hpc, -⟩ | ⟨hpc, -⟩ <;> rw [hpc] <;> rfl)
  have hreasons : ∀ m, Reasons { s with timers := m, pc } := by
    intro m
    rcases hpc with ⟨hpc, rfl⟩ | ⟨hpc, rfl⟩
    · exact ⟨h.reasons.submitted, fun _ => h.reasons.ready (.inl hpc), by simp, by simp,
        fun _ => hstarted, by simp⟩
    · exact ⟨h.reasons.submitted, by simp, by simp, fun _ => .inr (h.reasons.failed hpc),
        fun _ => hstarted, by simp⟩
  have hearly : pc.early = true → s.waits = 0 := by
    rcases hpc with ⟨-, rfl⟩ | ⟨-, rfl⟩ <;> simp [Pc.early]
  have hadd : pc = .add → s.waits = 1 := by
    rcases hpc with ⟨-, rfl⟩ | ⟨-, rfl⟩ <;> simp
  unfold State.cancelTimer at hs
  split at hs
  · cases hs
    exact ⟨hio, hearly, hadd, htiming, hreasons _⟩
  · obtain ⟨r, -, rfl⟩ := Option.map_eq_some_iff.mp hs
    exact ⟨hio, hearly, hadd, htiming, hreasons _⟩

theorem check (h : Inv c s) (hpc : s.pc = .check) :
    Inv c { s with pc := if s.cancelled then .returned .timedOut else .sockopt } := by
  have hready := h.reasons.ready (.inr hpc)
  have hstarted := h.reasons.started (by rw [hpc]; rfl)
  have hover : s.pc.over = true := by rw [hpc]; rfl
  have hhold : ∀ k, s.pc.wait ≠ .hold k := by rw [hpc]; simp [Pc.wait]
  by_cases hc : s.cancelled = true
  · rw [if_pos hc]
    refine ⟨h.io.move hhold le_rfl (by simp [Pc.wait]), by simp [Pc.early], by simp,
      h.timing.move s.io _ s.connection s.disturbed (by simp [Pc.early]) fun _ => .inl hover,
      h.reasons.submitted, by simp, by simp, by simp, fun _ => hstarted, ?_⟩
    rintro r ⟨⟩
    exact h.timing.marked hc
  · rw [if_neg hc]
    refine ⟨h.io.move hhold le_rfl (by simp [Pc.wait]), by simp [Pc.early], by simp,
      h.timing.move s.io _ s.connection s.disturbed (by simp [Pc.early]) fun _ => .inl hover,
      h.reasons.submitted, by simp, by simp, fun _ => ?_, fun _ => hstarted, by simp⟩
    exact hready.imp_right fun hor => hor.resolve_left hc

theorem getsockopt (h : Inv c s) (hpc : s.pc = .sockopt) (fails : Bool) :
    Inv c { s with pc := .returned (if fails then .optFailed else .socket s.sockError) } := by
  have hstarted := h.reasons.started (by rw [hpc]; rfl)
  have hmade := h.reasons.sockopt hpc
  have hover : s.pc.over = true := by rw [hpc]; rfl
  have hhold : ∀ k, s.pc.wait ≠ .hold k := by rw [hpc]; simp [Pc.wait]
  refine ⟨h.io.move hhold le_rfl (by simp [Pc.wait]), by simp [Pc.early], by simp,
    h.timing.move s.io _ s.connection s.disturbed (by simp [Pc.early]) fun _ => .inl hover,
    h.reasons.submitted, by simp, by simp, by simp, fun _ => hstarted, ?_⟩
  rintro r ⟨⟩
  cases fails with
  | true => trivial
  | false =>
      unfold sockError
      cases hconnection : s.connection with
      | idle => exact absurd hconnection hstarted
      | connecting => exact .inr (hmade.resolve_left fun hne => hne hconnection)
      | established => exact .inl rfl
      | failed e => exact rfl

/-- A step that leaves the fiber where it is. -/
theorem others (h : Inv c s) (hpc : s'.pc = s.pc) (hwaits : s'.waits = s.waits)
    (hio : Waiting c.wait s.pc.wait s.waits s'.io) (htiming : Timing s')
    (hreasons : Reasons s') : Inv c s' where
  io := by rwa [hpc, hwaits]
  early he := by rw [hwaits]; exact h.early (hpc ▸ he)
  add ha := by rw [hwaits]; exact h.add (hpc ▸ ha)
  timing := htiming
  reasons := hreasons

/-- A step of the callback. -/
theorem advance (h : Inv c s) (hidle : s.stage ≠ .idle) {x : Stage} (hx : x ≠ .idle)
    {cancelled : Bool} (hc : s.cancelled = true → cancelled = true)
    (hcancelling : x = .cancelling → cancelled = true) :
    Inv c { s with stage := x, cancelled } :=
  h.others rfl rfl h.io (h.timing.advance hidle hx s.io hcancelling)
    (h.reasons.mono rfl (h.reasons.submitted.mono fun hready => hready.imp_right (Or.imp_left hc))
      (.inl rfl) hc id fun _ => hx)

theorem cancelEvent (h : Inv c s) (hstage : s.stage = .cancelling) {fails : Bool}
    {io : IOManager Party}
    (hs : DoIoModel.ioStep s.io (.cancelEvent c.fd eventWrite fails) = some io) :
    Inv c { s with stage := .finished, io } := by
  have hcancelled := h.timing.cancelling hstage
  have hready : s.Ready := .inr (.inl hcancelled)
  have hsound := h.reasons.submitted.ioStep h.io hs (fun _ _ => hready) fun _ _ he => by cases he
  refine h.others rfl rfl (h.io.ioStep rfl hs) (h.timing.advance (by rw [hstage]; decide)
    (by decide) io fun he => by cases he) ?_
  exact h.reasons.mono rfl hsound (.inl rfl) id id fun _ he => by cases he

theorem ioStep (h : Inv c s) {op : IOManagerModel.Op Party} (hop : foreign op = true)
    (hg : s.Honest c (.io op)) {io : IOManager Party} (hs : DoIoModel.ioStep s.io op = some io) :
    Inv c { s with io, disturbed := s.disturbed || cancels c op } := by
  have hdisturbed : s.disturbed = true → (s.disturbed || cancels c op) = true := fun hd => by
    rw [hd, Bool.true_or]
  have hsubmitted : Sound s.io
      (State.Ready { s with io, disturbed := s.disturbed || cancels c op }) :=
    h.reasons.submitted.mono fun hready => hready.imp_right (Or.imp_right hdisturbed)
  have hsound := hsubmitted.ioStep h.io hs
    (by
      rintro fails rfl
      refine .inr (.inr ?_)
      simp [cancels, Call.wait, Direction.event])
    (by
      rintro r fails rfl hfd hreal
      refine .inl (hg hfd ?_)
      have hreal' : (r.epollout || ((r.epollerr || r.epollhup) &&
          (s.io.context r.fd).events.write)) = true := hreal
      simp only [Bool.or_eq_true, Bool.and_eq_true] at hreal' ⊢
      tauto)
  exact h.others rfl rfl (h.io.ioStep hop hs)
    (h.timing.move io s.pc s.connection _ id fun hpc => .inl hpc)
    (h.reasons.mono rfl hsound (.inl rfl) id hdisturbed id)

/-- The kernel is done with the connection. -/
theorem kernel (h : Inv c s) (hconnection : s.connection = .connecting) (error : Option ℕ) :
    Inv c { s with connection := error.elim .established .failed } := by
  have hmade : error.elim Connection.established .failed ≠ .connecting ∧
      error.elim Connection.established .failed ≠ .idle := by
    cases error <;> simp
  refine h.others rfl rfl h.io
    (h.timing.move s.io s.pc _ s.disturbed id fun hpc => .inl hpc) ?_
  exact h.reasons.mono rfl (h.reasons.submitted.mono fun _ => .inl hmade.1)
    (.inr ⟨hconnection, hmade⟩) id id id

/-- Somebody works on the timers; the call's own callback may be handed out. -/
theorem onTimer (h : Inv c s) {op : TimerModel.Op} (hs : s.onTimer op = some s') : Inv c s' := by
  have htiming := h.timing.onTimer hs
  unfold State.onTimer at hs
  split at hs
  · cases hs
  · obtain ⟨r, -, rfl⟩ := Option.map_eq_some_iff.mp hs
    refine h.others rfl rfl h.io htiming
      (h.reasons.mono rfl h.reasons.submitted (.inl rfl) id id ?_)
    intro hidle
    dsimp only
    split
    · decide
    · exact hidle

theorem step (h : Inv c s) {a : Label} (hg : s.Honest c a) (hs : s.step c a = some s') :
    Inv c s' := by
  rw [State.step] at hs
  split_ifs at hs
  cases a with
  | enter hookEnable fdCtx =>
      simp only [next] at hs
      split at hs
      · next hpc =>
          cases hs
          exact h.enter hpc hookEnable fdCtx
      · cases hs
  | connect answer =>
      simp only [next] at hs
      split at hs
      · next hpc =>
          cases hs
          exact h.connect (.inl hpc) (.inl rfl)
      · next hpc =>
          cases hs
          refine h.connect (.inr hpc) ?_
          split_ifs with ha
          · exact .inr ⟨rfl, ha⟩
          · exact .inl rfl
      · cases hs
  | arm addr now =>
      simp only [next] at hs
      split at hs
      · next hpc => exact h.arm hpc hs
      · cases hs
  | addEvent fails =>
      simp only [next] at hs
      split at hs
      · next hpc => exact h.addEvent hpc hs
      · cases hs
  | yield =>
      simp only [next] at hs
      split at hs
      · next hpc =>
          cases hs
          exact h.yield (.inl ⟨hpc, rfl⟩)
      · cases hs
  | swapcontext =>
      simp only [next] at hs
      split at hs
      · next hpc =>
          cases hs
          exact h.yield (.inr ⟨hpc, rfl⟩)
      · cases hs
  | resume =>
      simp only [next] at hs
      split at hs
      · split at hs
        · cases hs
          exact h.tear
        · cases hs
      · next hpc =>
          split at hs
          · next hsub =>
              cases hs
              exact h.resume hpc hsub
          · cases hs
      · cases hs
  | cancelTimer =>
      simp only [next] at hs
      split at hs
      · next hpc => exact h.cancelTimer (.inl ⟨hpc, rfl⟩) hs
      · next hpc => exact h.cancelTimer (.inr ⟨hpc, rfl⟩) hs
      · cases hs
  | check =>
      simp only [next] at hs
      split at hs
      · next hpc =>
          cases hs
          exact h.check hpc
      · cases hs
  | getsockopt fails =>
      simp only [next] at hs
      split at hs
      · next hpc =>
          cases hs
          exact h.getsockopt hpc fails
      · cases hs
  | kernel error =>
      simp only [next] at hs
      split at hs
      · next hconnection =>
          cases hs
          exact h.kernel hconnection error
      · cases hs
  | timer op =>
      simp only [next] at hs
      exact h.onTimer hs
  | lock =>
      simp only [next] at hs
      split at hs
      · next hstage =>
          cases hs
          have hx : ∀ b, (if b = true then Stage.locked else .finished) ≠ .idle := by decide
          refine h.advance (by rw [hstage]; decide) (hx _) id ?_
          split <;> exact fun he => by cases he
      · cases hs
  | test =>
      simp only [next] at hs
      split at hs
      · next hstage =>
          cases hs
          have hx : ∀ b, (if b = true then Stage.finished else .marking) ≠ .idle := by decide
          refine h.advance (by rw [hstage]; decide) (hx _) id ?_
          split <;> exact fun he => by cases he
      · cases hs
  | mark =>
      simp only [next] at hs
      split at hs
      · next hstage =>
          cases hs
          exact h.advance (by rw [hstage]; decide) (by decide) (fun _ => rfl) fun _ => rfl
      · cases hs
  | cancelEvent fails =>
      simp only [next] at hs
      split at hs
      · next hstage =>
          obtain ⟨io, hio, rfl⟩ := Option.map_eq_some_iff.mp hs
          exact h.cancelEvent hstage hio
      · cases hs
  | io op =>
      simp only [next] at hs
      split at hs
      · next hop =>
          obtain ⟨io, hio, rfl⟩ := Option.map_eq_some_iff.mp hs
          exact h.ioStep hop hg hio
      · cases hs

end Inv

/-- What the end of a call says. A call that returns 0 has its connection, unless the wait was
disturbed; one that returns an error of the socket has failed with it; one that times out had its
own callback handed out. Nothing of the call is left with the managers. -/
structure Outcome (s : State) : Prop where
  zero : ∀ r, s.pc = .returned r → r.zero = true →
    s.connection = .established ∨ s.disturbed = true
  error : ∀ e, s.pc = .returned (.socket (some e)) → s.connection = .failed e
  timedOut : s.pc = .returned .timedOut → s.timer.isSome = true ∧ s.stage ≠ .idle
  unregistered : ∀ r, s.pc = .returned r →
    ∀ fd d w, s.io.waiter? fd d = some w → w.handle ≠ .wait 0
  retired : ∀ r, s.pc = .returned r → ∀ t, s.timer = some t → Retired s.timers t

theorem Inv.outcome {c : Call} {s : State} (h : Inv c s) : Outcome s where
  zero r hr hzero := by
    have hjust := h.reasons.result r hr
    simp only [Result.zero, Bool.or_eq_true, decide_eq_true_eq] at hzero
    rcases hzero with rfl | rfl
    · exact .inl hjust
    · exact hjust
  error e hr := h.reasons.result _ hr
  timedOut hr := ⟨h.timing.stage (h.reasons.result _ hr), h.reasons.result _ hr⟩
  unregistered r hr fd d w hw hhandle := by
    obtain ⟨-, -, hpc, -⟩ := h.io.slot fd d w 0 hw hhandle
    rw [hr] at hpc
    cases hpc
  retired r hr := h.timing.retired (by rw [hr]; rfl)

/-- Whoever works on the managers meanwhile, and in whatever order; a run in which the fiber is
resumed before its context was saved ends with that and returns nothing. -/
theorem outcome_of_honest (c : Call) (labels : List Label) (s : State)
    (hhonest : AllSteps (step c) (Honest c) start labels)
    (hrun : run (step c) start labels = some s) : Outcome s :=
  (run_invariant (Inv c) (fun _ _ _ h hg hs => h.step hg hs) (Inv.start c) hhonest hrun).outcome

/-- A connection with a timeout of 100 ms on descriptor 3. -/
def slow : Call := ⟨3, 1, some 100⟩

/-- The connection is made, and the descriptor becomes writable. -/
def madeInTime : List Label :=
  [.enter true (some DoIoModel.State.blockingSocket), .connect .inProgress, .arm 16 0,
    .addEvent false, .yield, .swapcontext, .kernel none,
    .io (.dispatch { fd := 3, epollin := false, epollout := true } false), .resume, .cancelTimer,
    .check, .getsockopt false]

theorem outcome_of_honest_madeInTime :
    ∃ s, run (step slow) start madeInTime = some s ∧ s.pc = .returned (.socket none) ∧
      s.connection = .established ∧ s.disturbed = false ∧ Outcome s := by
  have hend : (run (step slow) start madeInTime).map
      (fun s => (s.pc, s.connection, s.disturbed)) =
        some (.returned (.socket none), .established, false) := by decide
  obtain ⟨s, hs, hfields⟩ := Option.map_eq_some_iff.mp hend
  simp only [Prod.mk.injEq] at hfields
  exact ⟨s, hs, hfields.1, hfields.2.1, hfields.2.2,
    outcome_of_honest slow _ s (by decide) hs⟩

/-- `addEvent` fails, and the call returns 0 while the connection is still being made. -/
example : (run (step slow) start
    [.enter true (some DoIoModel.State.blockingSocket), .connect .inProgress, .arm 16 0,
      .addEvent true, .cancelTimer, .getsockopt false]).map (fun s => (s.pc, s.connection)) =
    some (.returned (.socket none), .connecting) := by decide

end State

end Xzmjx.ConnectModel
