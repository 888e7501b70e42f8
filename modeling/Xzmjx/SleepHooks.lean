import Mathlib.Data.List.Count
import Mathlib.Data.List.Perm.Basic
import Xzmjx.SchedulerBatch
import Xzmjx.TimerPunctuality

/-!
# Sleeping fibers

The hooked `sleep`, `usleep` and `nanosleep` add a timer whose callback submits the fiber, and
yield. On its way back the wake-up is in the set of timers, in the batch that `wait` got from
`listExpiredCb`, in the queue as a callback, with the thread that took it from there, and at last
in the queue as the fiber. A batch is submitted with the range overload of `submit`.

Each thread may take its next step at any time. A yield is two steps: `FIBER_HOLD` is stored, and
`swapcontext` saves the context. A thread that takes the fiber in between runs it on the context
of its last yield, while the other thread is still on its stack; a run ends there. The timers and
callbacks of others are there too; what those do to fibers that sleep is nothing, and the hook is
enabled.
-/
namespace Xzmjx.SleepModel
open Function StepSystem
open SchedulerModel (Task FiberOrCb submit submitRange)
open TimerModel (TimerManager)

/-- A call, in the units of its argument. -/
inductive Sleep
  | sleep (seconds : ℕ)
  | usleep (useconds : ℕ)
  | nanosleep (sec nsec : ℕ)
  deriving DecidableEq, Repr

/-- The milliseconds that the timer gets. The products of `sleep` and `usleep` are of unsigned
32-bit numbers; `usleep` multiplies like `sleep`. -/
def Sleep.ms : Sleep → ℕ
  | .sleep seconds => seconds * 1000 % 2 ^ 32
  | .usleep useconds => useconds * 1000 % 2 ^ 32
  | .nanosleep sec nsec => (sec * 1000 + nsec / 1000 / 1000) % 2 ^ 64

/-- The reading at which a call that starts at `start` may return. `usleep` takes its microseconds
for seconds. -/
def Sleep.deadline (start : ℕ) : Sleep → ℕ
  | .sleep seconds => start + 1000 * seconds
  | .usleep useconds => start + 1000 * useconds
  | .nanosleep sec nsec => start + 1000 * sec + nsec / 1000000

/-- Neither the product nor the deadline wraps. -/
def Sleep.Fits (start : ℕ) (call : Sleep) : Prop :=
  call.deadline start < 2 ^ 64 ∧
    match call with
    | .sleep n => 1000 * n < 2 ^ 32
    | .usleep n => 1000 * n < 2 ^ 32
    | .nanosleep _ _ => True

theorem Sleep.Fits.wrap_eq {start : ℕ} {call : Sleep} (h : call.Fits start) :
    TimerModel.wrap (start + call.ms) = call.deadline start := by
  obtain ⟨hlt, hproduct⟩ := h
  have hsum : start + call.ms = call.deadline start := by
    cases call with
    | sleep n =>
        have hsmall : n * 1000 % 2 ^ 32 = n * 1000 :=
          Nat.mod_eq_of_lt ((Nat.mul_comm _ _).trans_lt hproduct)
        rw [Sleep.ms, Sleep.deadline, hsmall, Nat.mul_comm]
    | usleep n =>
        have hsmall : n * 1000 % 2 ^ 32 = n * 1000 :=
          Nat.mod_eq_of_lt ((Nat.mul_comm _ _).trans_lt hproduct)
        rw [Sleep.ms, Sleep.deadline, hsmall, Nat.mul_comm]
    | nanosleep sec nsec =>
        dsimp only [Sleep.ms, Sleep.deadline] at hlt ⊢
        omega
  rw [hsum]
  exact Nat.mod_eq_of_lt hlt

/-- The product of 4294968 wraps, to 704 milliseconds. -/
example : (Sleep.usleep 4294968).ms = 704 := by decide

/-- The number of a timer's callback. -/
def timerCb (t : ℕ) : ℕ := 2 * t

/-- The numbers of all other callbacks. -/
def otherCb (k : ℕ) : ℕ := 2 * k + 1

/-- Where the fiber is in its yield: before it, behind the store of `FIBER_HOLD`, or off its
stack. -/
inductive Stage
  | running
  | holding
  | saved
  deriving DecidableEq, Repr

/-- A call that has not returned: its timer, and the reading that `addTimer` took. -/
structure Pause where
  timer : ℕ
  call : Sleep
  start : ℕ
  stage : Stage
  deriving DecidableEq, Repr

structure State where
  timers : TimerManager
  /-- `m_task`. -/
  queue : List Task
  /-- The vectors between `listExpiredCb` and `submit` in `wait`. -/
  batches : List (List ℕ)
  /-- The callbacks that threads have taken from the queue. -/
  started : List ℕ
  pauses : ℕ → Option Pause
  /-- The fiber that a timer's callback submits. -/
  sleeper : ℕ → Option ℕ
  /-- The reading at which the timer was last taken out by `listExpiredCb`. -/
  expiredAt : ℕ → Option ℕ
  /-- A fiber was resumed before its context was saved. -/
  torn : Bool

inductive Label
  /-- A fiber calls one of the functions, up to the yield. -/
  | sleep (f : ℕ) (call : Sleep) (addr now : ℕ)
  /-- The store of `FIBER_HOLD`, and the `swapcontext` behind it. -/
  | yield (f : ℕ)
  | swapcontext (f : ℕ)
  | expire (now nowAddr : ℕ) (clock : ℕ → ℕ)
  | submitBatch (i : ℕ)
  /-- A thread takes a callback from the queue. -/
  | take (i : ℕ)
  /-- The callback is called. -/
  | call (i : ℕ)
  /-- A thread takes a fiber from the queue and resumes it; its call returns. -/
  | resume (i : ℕ)
  /-- Others add a timer, call functions of their timers, and submit callbacks. -/
  | addTimer (addr ms : ℕ) (recurring : Bool) (now : ℕ)
  | timer (op : TimerModel.Op)
  | submit (k : ℕ)

def init (front : Bool) : State where
  timers := .new front
  queue := []
  batches := []
  started := []
  pauses := fun _ => none
  sleeper := fun _ => none
  expiredAt := fun _ => none
  torn := false

namespace State

/-- The fiber that a callback submits. -/
def wakes (s : State) (c : ℕ) : Option ℕ := if c % 2 = 0 then s.sleeper (c / 2) else none

/-- `addTimerEvent` and what the caller keeps. -/
def sleep (s : State) (f : ℕ) (call : Sleep) (addr now : ℕ) : Option State :=
  let t := s.timers.count
  (TimerModel.step s.timers (.addTimer addr call.ms (timerCb t) false now)).map fun m =>
    { s with
      timers := m
      pauses := update s.pauses f (some ⟨t, call, now, .running⟩)
      sleeper := update s.sleeper t (some f) }

def expire (s : State) (now nowAddr : ℕ) (clock : ℕ → ℕ) : State :=
  let (cbs, m) := s.timers.listExpiredCb now nowAddr clock
  { s with
    timers := m
    batches := s.batches ++ [cbs.map Prod.snd]
    expiredAt := fun t => if t ∈ cbs.map Prod.fst then some now else s.expiredAt t }

def submitBatch (s : State) (i : ℕ) (cbs : List ℕ) : State :=
  { s with
    batches := s.batches.eraseIdx i
    queue := (submitRange s.queue (cbs.map fun c => .cb (some c))).1 }

def call (s : State) (i c : ℕ) : State :=
  { s with
    started := s.started.eraseIdx i
    queue := match s.wakes c with
      | some f => (submit s.queue (.fiber (some f)) none).1
      | none => s.queue }

/-- A fiber that has not stored `FIBER_HOLD` yet is passed over. -/
def resume (s : State) (i f : ℕ) : Option State :=
  match s.pauses f with
  | some p =>
      match p.stage with
      | .running => none
      | .holding => some { s with torn := true }
      | .saved => some { s with queue := s.queue.eraseIdx i, pauses := update s.pauses f none }
  | none => none

/-- A fiber goes on in its yield. -/
def advance (s : State) (f : ℕ) (before after : Stage) : Option State :=
  match s.pauses f with
  | some p =>
      if p.stage = before then
        some { s with pauses := update s.pauses f (some { p with stage := after }) }
      else none
  | none => none

def next (s : State) : Label → Option State
  | .sleep f call addr now => if s.pauses f = none then s.sleep f call addr now else none
  | .yield f => s.advance f .running .holding
  | .swapcontext f => s.advance f .holding .saved
  | .expire now nowAddr clock => some (s.expire now nowAddr clock)
  | .submitBatch i => (s.batches[i]?).map (s.submitBatch i)
  | .take i =>
      match s.queue[i]? with
      | some ⟨none, some c, _⟩ =>
          some { s with queue := s.queue.eraseIdx i, started := s.started ++ [c] }
      | _ => none
  | .call i => (s.started[i]?).map (s.call i)
  | .resume i =>
      match s.queue[i]? with
      | some ⟨some f, none, _⟩ => s.resume i f
      | _ => none
  | .addTimer addr ms recurring now =>
      (TimerModel.step s.timers
        (.addTimer addr ms (timerCb s.timers.count) recurring now)).map fun m =>
          { s with timers := m }
  | .timer op =>
      match op.target with
      | some t =>
          if s.sleeper t = none then
            (TimerModel.step s.timers op).map fun m => { s with timers := m }
          else none
      | none => none
  | .submit k => some { s with queue := (submit s.queue (.cb (some (otherCb k))) none).1 }

/-- A torn state is the last one. -/
def step (s : State) (a : Label) : Option State := if s.torn then none else s.next a

/-- The wake-ups of a timer that have not become a submission of the fiber yet. -/
def pending (s : State) (t : ℕ) : ℕ :=
  (if t ∈ s.timers.timers then 1 else 0) + s.batches.flatten.count (timerCb t) +
    (s.queue.filterMap Task.taskCb).count (timerCb t) + s.started.count (timerCb t)

/-- How often the fiber is in the queue. -/
def submitted (s : State) (f : ℕ) : ℕ := (s.queue.filterMap Task.fiber).count f

/-- A batch goes into the queue as a whole. -/
def Faithful (s : State) : Label → Prop
  | .submitBatch i => s.queue ≠ [] ∨ ∀ cbs ∈ s.batches[i]?, cbs.length ≤ 1
  | _ => True

instance (s : State) : DecidablePred s.Faithful
  | .submitBatch i =>
      inferInstanceAs (Decidable (s.queue ≠ [] ∨ ∀ cbs ∈ s.batches[i]?, cbs.length ≤ 1))
  | .sleep .. | .yield _ | .swapcontext _ | .expire .. | .take _ | .call _ | .resume _
  | .addTimer .. | .timer _ | .submit _ => isTrue trivial

end State

/-! ### Timers -/

section
variable {m m' : TimerManager} {sleeper : ℕ → Option ℕ}

/-- A call on a timer leaves the others alone, and its callback too unless it clears it. -/
theorem timer_of_target {op : TimerModel.Op} {u : ℕ} (htarget : op.target = some u)
    (hstep : TimerModel.step m op = some m') :
    m'.count = m.count ∧ (∀ t, t ≠ u → m'.timer t = m.timer t) ∧
      ((m'.timer u).cb = none ∨ (m'.timer u).cb = (m.timer u).cb) := by
  obtain ⟨out, hperformed⟩ := TimerModel.performed_of_step hstep
  cases hperformed with
  | addTimer hfresh => cases htarget
  | cancel ht =>
      obtain rfl := Option.some.inj htarget
      unfold TimerManager.cancel
      dsimp only
      split_ifs <;> simp +contextual [TimerManager.erase, TimerManager.setTimer]
  | refresh ht =>
      obtain rfl := Option.some.inj htarget
      unfold TimerManager.refresh
      dsimp only
      split_ifs <;>
        simp +contextual [TimerManager.erase, TimerManager.insert, TimerManager.setTimer]
  | reset ht =>
      obtain rfl := Option.some.inj htarget
      unfold TimerManager.reset TimerManager.addTimerLocked
      dsimp only
      split_ifs <;>
        simp +contextual [TimerManager.erase, TimerManager.insert, TimerManager.setTimer]
  | listExpiredCb => cases htarget

/-- `addTimer` makes one timer, and leaves the others alone. -/
theorem addTimer_timer {addr ms cb now : ℕ} {recurring : Bool}
    (hstep : TimerModel.step m (.addTimer addr ms cb recurring now) = some m') :
    m'.count = m.count + 1 ∧
      m'.timer = update m.timer m.count
        ⟨addr, recurring, ms, TimerModel.wrap (now + ms), some cb⟩ := by
  obtain ⟨out, hperformed⟩ := TimerModel.performed_of_step hstep
  cases hperformed with
  | addTimer hfresh => exact ⟨rfl, rfl⟩

/-- The timers between calls: each has its own callback, and that of a sleeping fiber goes off
once. -/
structure Clocked (m : TimerManager) (sleeper : ℕ → Option ℕ) : Prop where
  good : TimerModel.Good m []
  cb : ∀ t < m.count, (m.timer t).cb = none ∨ (m.timer t).cb = some (timerCb t)
  known : ∀ t f, sleeper t = some f → t < m.count
  single : ∀ t f, sleeper t = some f → (m.timer t).recurring = false

namespace Clocked

theorem good_step (h : Clocked m sleeper) {op : TimerModel.Op}
    (hstep : TimerModel.step m op = some m') : TimerModel.Good m' [] := by
  obtain ⟨out, hexec⟩ := TimerModel.step_exec hstep
  exact (TimerModel.exec_spec h.good hexec).good

/-- A timer that has kept its fields is in the set as before. -/
theorem mem_timers_iff (h : Clocked m sleeper) (hgood : TimerModel.Good m' []) {t : ℕ}
    (ht : t < m.count) (hcount : m.count ≤ m'.count) (htimer : m'.timer t = m.timer t) :
    t ∈ m'.timers ↔ t ∈ m.timers := by
  rw [h.good.mem_timers_iff ht, hgood.mem_timers_iff (ht.trans_le hcount), htimer]

/-- What others do on their timers. -/
theorem call (h : Clocked m sleeper) {op : TimerModel.Op} {u : ℕ} (htarget : op.target = some u)
    (hother : sleeper u = none) (hstep : TimerModel.step m op = some m') :
    Clocked m' sleeper ∧ m'.count = m.count ∧ ∀ t f, sleeper t = some f →
      m'.timer t = m.timer t ∧ (t ∈ m'.timers ↔ t ∈ m.timers) := by
  have hgood := h.good_step hstep
  obtain ⟨hcount, hframe, hcb⟩ := timer_of_target htarget hstep
  have hsleeper : ∀ t f, sleeper t = some f → m'.timer t = m.timer t := by
    intro t f hf
    refine hframe t fun he => ?_
    rw [he, hother] at hf
    cases hf
  refine ⟨⟨hgood, fun t ht => ?_, fun t f hf => ?_, fun t f hf => ?_⟩, hcount,
    fun t f hf => ⟨hsleeper t f hf, ?_⟩⟩
  · rw [hcount] at ht
    by_cases hu : t = u
    · subst hu
      obtain hnone | hsame := hcb
      · exact .inl hnone
      · rw [hsame]
        exact h.cb t ht
    · rw [hframe t hu]
      exact h.cb t ht
  · rw [hcount]
    exact h.known t f hf
  · rw [hsleeper t f hf]
    exact h.single t f hf
  · exact h.mem_timers_iff hgood (h.known t f hf) hcount.ge (hsleeper t f hf)

/-- A new timer, of a sleeping fiber if it is not recurring. -/
theorem addTimer (h : Clocked m sleeper) {addr ms now : ℕ} {recurring : Bool}
    (hstep : TimerModel.step m (.addTimer addr ms (timerCb m.count) recurring now) = some m') :
    Clocked m' sleeper ∧ (recurring = false → ∀ f, Clocked m' (update sleeper m.count (some f))) ∧
      m.count ∈ m'.timers ∧ ∀ t < m.count, m'.timer t = m.timer t ∧
        (t ∈ m'.timers ↔ t ∈ m.timers) := by
  have hgood := h.good_step hstep
  obtain ⟨hcount, htimer⟩ := addTimer_timer hstep
  have hlt : ∀ t, t < m'.count → t = m.count ∨ t < m.count := by
    intro t ht
    omega
  have hold : ∀ t < m.count, m'.timer t = m.timer t := by
    intro t ht
    rw [htimer, update_of_ne ht.ne]
  have hcb : ∀ t < m'.count, (m'.timer t).cb = none ∨ (m'.timer t).cb = some (timerCb t) := by
    intro t ht
    obtain rfl | ht := hlt t ht
    · rw [htimer, update_self]
      exact .inr rfl
    · rw [hold t ht]
      exact h.cb t ht
  refine ⟨⟨hgood, hcb, fun t f hf => ?_, fun t f hf => ?_⟩, fun hrec f =>
    ⟨hgood, hcb, fun t g hg => ?_, fun t g hg => ?_⟩, ?_, fun t ht => ⟨hold t ht, ?_⟩⟩
  · exact (h.known t f hf).trans (hcount ▸ Nat.lt_succ_self _)
  · rw [hold t (h.known t f hf)]
    exact h.single t f hf
  · by_cases ht : t = m.count
    · omega
    · rw [update_of_ne ht] at hg
      exact (h.known t g hg).trans (hcount ▸ Nat.lt_succ_self _)
  · by_cases ht : t = m.count
    · rw [ht, htimer, update_self]
      exact hrec
    · rw [update_of_ne ht] at hg
      rw [hold t (h.known t g hg)]
      exact h.single t g hg
  · rw [hgood.mem_timers_iff (hcount ▸ Nat.lt_succ_self _), htimer, update_self]
    exact Option.some_ne_none _
  · exact h.mem_timers_iff hgood ht (hcount ▸ Nat.le_succ _) (hold t ht)

/-- What `listExpiredCb` hands out and leaves of the timers of sleeping fibers. -/
theorem expire (h : Clocked m sleeper) (now nowAddr : ℕ) (clock : ℕ → ℕ) :
    Clocked (m.listExpiredCb now nowAddr clock).2 sleeper ∧
      (m.listExpiredCb now nowAddr clock).2.count = m.count ∧
      ∃ ts : List ℕ, ts.Nodup ∧ (∀ t, t ∈ ts ↔ t ∈ m.timers ∧ (m.timer t).next ≤ now) ∧
        (m.listExpiredCb now nowAddr clock).1.map Prod.fst = ts ∧
        (m.listExpiredCb now nowAddr clock).1.map Prod.snd = ts.map timerCb ∧
        ∀ t f, sleeper t = some f →
          (t ∈ (m.listExpiredCb now nowAddr clock).2.timers ↔ t ∈ m.timers ∧ t ∉ ts) ∧
          (t ∉ ts → (m.listExpiredCb now nowAddr clock).2.timer t = m.timer t) := by
  have hexp := h.good.expire now nowAddr
  obtain ⟨hgood, -, hcount, hother, hrec, -⟩ := TimerModel.fireAll_spec _ clock hexp
  have hfired := (h.good.placed.expire now nowAddr).fireAll _ clock
  have hmem : ∀ t, t ∈ (m.expire now nowAddr).1 ↔ t ∈ m.timers ∧ (m.timer t).next ≤ now := by
    intro t
    rw [TimerModel.expire_eq_filter h.good.ordered, List.mem_filter, decide_eq_true_eq]
  have hcbs : (m.listExpiredCb now nowAddr clock).1 =
      (m.expire now nowAddr).1.map fun t => (t, timerCb t) := by
    refine hfired.handed.trans ?_
    rw [← List.filterMap_eq_map]
    refine List.filterMap_congr fun t ht => ?_
    have hlt := h.good.alloc t (.inr ((hmem t).mp ht).1)
    have hcb := (h.cb t hlt).resolve_left ((h.good.mem_timers_iff hlt).mp ((hmem t).mp ht).1)
    change (m.timer t).cb.map _ = _
    rw [hcb]
    rfl
  refine ⟨⟨hgood, fun t ht => ?_, fun t f hf => ?_, fun t f hf => ?_⟩, hcount, _, hexp.nodup, hmem,
    ?_, ?_, fun t f hf => ⟨?_, hother t⟩⟩
  · by_cases hin : t ∈ (m.expire now nowAddr).1
    · obtain ⟨i, hi⟩ := List.mem_iff_getElem?.mp hin
      have hnew := hfired.fired i t hi
      change (m.listExpiredCb now nowAddr clock).2.timer t = _ at hnew
      rw [hnew, TimerModel.Timer.fired]
      split
      · exact h.cb t (hcount ▸ ht)
      · exact .inl rfl
    · have hsame : (m.listExpiredCb now nowAddr clock).2.timer t = m.timer t := hother t hin
      rw [hsame]
      exact h.cb t (hcount ▸ ht)
  · exact (h.known t f hf).trans_eq hcount.symm
  · exact (hrec t).trans (h.single t f hf)
  · rw [hcbs, List.map_map]
    exact List.map_id _
  · rw [hcbs, List.map_map]
    rfl
  · have hleft : t ∈ (m.expire now nowAddr).2 ↔ t ∈ m.timers ∧ t ∉ (m.expire now nowAddr).1 :=
      TimerModel.mem_expire_right h.good.ordered
    refine (hfired.mem t).trans ?_
    have hsingle := h.single t f hf
    change (m.timer t).recurring = false at hsingle
    rw [← hleft]
    simp [hsingle]

end Clocked

end

/-! ### The queue -/

theorem timerCb_injective : Function.Injective timerCb := fun a b h => by
  unfold timerCb at h
  omega

/-- What of a batch gets into the queue. -/
theorem submitRange_cbs (queue : List Task) (cbs : List ℕ) :
    ∃ kept : List ℕ, kept.Sublist cbs ∧ (queue ≠ [] ∨ cbs.length ≤ 1 → kept = cbs) ∧
      (submitRange queue (cbs.map fun c => FiberOrCb.cb (some c))).1 =
        queue ++ kept.map fun c => (⟨none, some c, none⟩ : Task) := by
  have hcbs : ∀ fc ∈ cbs.map fun c => FiberOrCb.cb (some c), fc.NonNull := by
    intro fc hfc
    obtain ⟨c, -, rfl⟩ := List.mem_map.mp hfc
    rfl
  by_cases hq : queue = []
  · subst hq
    cases cbs with
    | nil => exact ⟨[], List.Sublist.refl _, fun _ => rfl, rfl⟩
    | cons c rest =>
        refine ⟨[c], List.singleton_sublist.mpr List.mem_cons_self, fun h => ?_, ?_⟩
        · have hlength := h.resolve_left (fun hne => hne rfl)
          rw [List.length_cons] at hlength
          rw [List.length_eq_zero_iff.mp (by omega : rest.length = 0)]
        · rw [submitRange, List.map_cons,
            SchedulerModel.submitLoop_nil (hcbs _ List.mem_cons_self)]
          rfl
  · refine ⟨cbs, List.Sublist.refl _, fun _ => rfl, ?_⟩
    rw [submitRange, SchedulerModel.submitLoop_of_ne_nil hq hcbs, List.map_map]
    rfl

@[simp] theorem taskCb_fiber_cons (f : ℕ) (threadId : Option ℕ) (queue : List Task) :
    ((⟨some f, none, threadId⟩ : Task) :: queue).filterMap Task.taskCb =
      queue.filterMap Task.taskCb := rfl

@[simp] theorem fiber_fiber_cons (f : ℕ) (threadId : Option ℕ) (queue : List Task) :
    ((⟨some f, none, threadId⟩ : Task) :: queue).filterMap Task.fiber =
      [f] ++ queue.filterMap Task.fiber := rfl

@[simp] theorem taskCb_cb_cons (c : ℕ) (threadId : Option ℕ) (queue : List Task) :
    ((⟨none, some c, threadId⟩ : Task) :: queue).filterMap Task.taskCb =
      [c] ++ queue.filterMap Task.taskCb := rfl

@[simp] theorem fiber_cb_cons (c : ℕ) (threadId : Option ℕ) (queue : List Task) :
    ((⟨none, some c, threadId⟩ : Task) :: queue).filterMap Task.fiber =
      queue.filterMap Task.fiber := rfl

/-- An element and the others. -/
theorem perm_of_getElem? {α : Type*} {l : List α} {i : ℕ} {a : α} (h : l[i]? = some a) :
    l.Perm (a :: l.eraseIdx i) := by
  obtain ⟨hi, rfl⟩ := List.getElem?_eq_some_iff.mp h
  exact (List.getElem_cons_eraseIdx_perm hi).symm

namespace State
variable {s s' : State} {whole : Prop}

/-- A fiber that sleeps has its timer in the set with the deadline that it asked for, or the timer
was taken out at a reading that had reached it. -/
structure Punctual (s : State) (p : Pause) : Prop where
  armed : p.timer ∈ s.timers.timers →
    (s.timers.timer p.timer).next = TimerModel.wrap (p.start + p.call.ms)
  expired : p.timer ∉ s.timers.timers →
    ∃ r, s.expiredAt p.timer = some r ∧ TimerModel.wrap (p.start + p.call.ms) ≤ r

/-- Every fiber that sleeps is on its way to be woken at most once, and once if batches are
submitted as a `whole`; nobody else is. -/
structure Inv (whole : Prop) (s : State) : Prop where
  clocked : Clocked s.timers s.sleeper
  unused : ∀ t, s.timers.count ≤ t → s.pending t = 0
  owner : ∀ f p, s.pauses f = some p → s.sleeper p.timer = some f
  spent : ∀ t f, s.sleeper t = some f → (∀ p, s.pauses f = some p → p.timer ≠ t) →
    s.pending t = 0
  awake : ∀ f, s.pauses f = none → s.submitted f = 0
  once : ∀ f p, s.pauses f = some p → s.pending p.timer + s.submitted f ≤ 1
  kept : whole → ∀ f p, s.pauses f = some p → 1 ≤ s.pending p.timer + s.submitted f
  punctual : ∀ f p, s.pauses f = some p → s.Punctual p

theorem inv_init (whole : Prop) (front : Bool) : Inv whole (SleepModel.init front) where
  clocked := ⟨TimerModel.Good.new front, by simp [SleepModel.init, TimerManager.new],
    by simp [SleepModel.init], by simp [SleepModel.init]⟩
  unused t _ := by simp [pending, SleepModel.init, TimerManager.new]
  owner := by simp [SleepModel.init]
  spent := by simp [SleepModel.init]
  awake f _ := by simp [submitted, SleepModel.init]
  once := by simp [SleepModel.init]
  kept := by simp [SleepModel.init]
  punctual := by simp [SleepModel.init]

theorem wakes_timerCb (s : State) (t : ℕ) : s.wakes (timerCb t) = s.sleeper t := by
  simp [wakes, timerCb]

theorem exists_timer_of_wakes {c f : ℕ} (h : s.wakes c = some f) :
    ∃ t, c = timerCb t ∧ s.sleeper t = some f := by
  unfold wakes at h
  split_ifs at h with heven
  exact ⟨c / 2, by unfold timerCb; omega, h⟩

/-- A fiber that is resumed sleeps, and its context was saved or the state is torn. -/
theorem exists_pause_of_resume {i f : ℕ} (hs : s.resume i f = some s') :
    ∃ p, s.pauses f = some p ∧ (s' = { s with torn := true } ∨
      s' = { s with queue := s.queue.eraseIdx i, pauses := update s.pauses f none }) := by
  unfold State.resume at hs
  split at hs
  · next p hp =>
      split at hs
      · cases hs
      · exact ⟨p, hp, .inl (Option.some.inj hs).symm⟩
      · exact ⟨p, hp, .inr (Option.some.inj hs).symm⟩
  · cases hs

namespace Inv

/-- Steps between a batch and the queue. -/
theorem relay (h : Inv whole s) (queue : List Task) (batches : List (List ℕ)) (started : List ℕ)
    (hpending : ∀ t, ({ s with queue, batches, started } : State).pending t ≤ s.pending t)
    (hawake : ∀ f, s.pauses f = none →
      ({ s with queue, batches, started } : State).submitted f = 0)
    (hwake : ∀ f p, s.pauses f = some p →
      ({ s with queue, batches, started } : State).pending p.timer +
          ({ s with queue, batches, started } : State).submitted f ≤
        s.pending p.timer + s.submitted f ∧
      (whole → s.pending p.timer + s.submitted f ≤
        ({ s with queue, batches, started } : State).pending p.timer +
          ({ s with queue, batches, started } : State).submitted f)) :
    Inv whole { s with queue, batches, started } where
  clocked := h.clocked
  unused t ht := Nat.eq_zero_of_le_zero ((hpending t).trans_eq (h.unused t ht))
  owner := h.owner
  spent t f hf hne := Nat.eq_zero_of_le_zero ((hpending t).trans_eq (h.spent t f hf hne))
  awake := hawake
  once f p hp := (hwake f p hp).1.trans (h.once f p hp)
  kept hw f p hp := (h.kept hw f p hp).trans ((hwake f p hp).2 hw)
  punctual f p hp := ⟨(h.punctual f p hp).armed, (h.punctual f p hp).expired⟩

theorem submitBatch (h : Inv whole s) {i : ℕ} {cbs : List ℕ} (hbatch : s.batches[i]? = some cbs)
    (hwhole : whole → s.queue ≠ [] ∨ cbs.length ≤ 1) : Inv whole (s.submitBatch i cbs) := by
  obtain ⟨kept, hsub, hall, hqueue⟩ := submitRange_cbs s.queue cbs
  have hflat : ∀ c, s.batches.flatten.count c =
      cbs.count c + (s.batches.eraseIdx i).flatten.count c := by
    intro c
    rw [(perm_of_getElem? hbatch).flatten.count_eq, List.flatten_cons, List.count_append]
  have hcbs : ∀ c, ((s.submitBatch i cbs).queue.filterMap Task.taskCb).count c =
      (s.queue.filterMap Task.taskCb).count c + kept.count c := by
    intro c
    rw [State.submitBatch, hqueue, List.filterMap_append, List.count_append, List.filterMap_map]
    congr 2
    exact List.filterMap_some
  have hfibers : ∀ f, (s.submitBatch i cbs).submitted f = s.submitted f := by
    intro f
    rw [submitted, State.submitBatch, hqueue, List.filterMap_append, List.filterMap_map]
    simp [submitted]
  refine h.relay _ _ _ (fun t => ?_) (fun f hf => ?_) fun f p hp => ⟨?_, fun hw => ?_⟩
  · have := hsub.count_le (timerCb t)
    have := hflat (timerCb t)
    have := hcbs (timerCb t)
    simp only [pending, State.submitBatch] at *
    omega
  · exact (hfibers f).trans (h.awake f hf)
  · have := hsub.count_le (timerCb p.timer)
    have := hflat (timerCb p.timer)
    have := hcbs (timerCb p.timer)
    have := hfibers f
    simp only [pending, State.submitBatch] at *
    omega
  · have := hflat (timerCb p.timer)
    have hcount := hcbs (timerCb p.timer)
    rw [hall (hwhole hw)] at hcount
    have := hfibers f
    simp only [pending, State.submitBatch] at *
    omega

/-- A thread takes a callback. -/
theorem take (h : Inv whole s) {i c : ℕ} {threadId : Option ℕ}
    (htask : s.queue[i]? = some ⟨none, some c, threadId⟩) :
    Inv whole { s with queue := s.queue.eraseIdx i, started := s.started ++ [c] } := by
  have hperm := perm_of_getElem? htask
  have hcbs : ∀ k, (s.queue.filterMap Task.taskCb).count k =
      ([c].count k) + ((s.queue.eraseIdx i).filterMap Task.taskCb).count k := by
    intro k
    rw [(hperm.filterMap _).count_eq, taskCb_cb_cons, List.count_append]
  have hfibers : ∀ f, ((s.queue.eraseIdx i).filterMap Task.fiber).count f = s.submitted f := by
    intro f
    rw [submitted, (hperm.filterMap _).count_eq, fiber_cb_cons]
  have hpending : ∀ t, ({ s with queue := s.queue.eraseIdx i, started := s.started ++ [c] } :
      State).pending t = s.pending t := by
    intro t
    have := hcbs (timerCb t)
    simp only [pending, List.count_append]
    omega
  refine h.relay _ _ _ (fun t => (hpending t).le) (fun f hf => ?_) fun f p hp => ?_
  · exact (hfibers f).trans (h.awake f hf)
  · rw [hpending]
    exact ⟨(congrArg _ (hfibers f)).le, fun _ => (congrArg _ (hfibers f)).ge⟩

/-- Others submit a callback of theirs. -/
theorem submitOther (h : Inv whole s) (k : ℕ) :
    Inv whole { s with queue := (submit s.queue (.cb (some (otherCb k))) none).1 } := by
  have hqueue : (submit s.queue (.cb (some (otherCb k))) none).1 =
      s.queue ++ [⟨none, some (otherCb k), none⟩] := rfl
  have hpending : ∀ t, ({ s with queue := s.queue ++ [⟨none, some (otherCb k), none⟩] } :
      State).pending t = s.pending t := by
    intro t
    have hne : otherCb k ≠ timerCb t := by
      unfold otherCb timerCb
      omega
    simp [pending, List.filterMap_append, List.count_append, hne]
  have hfibers : ∀ f, ({ s with queue := s.queue ++ [⟨none, some (otherCb k), none⟩] } :
      State).submitted f = s.submitted f := by
    intro f
    simp [submitted, List.filterMap_append]
  rw [hqueue]
  refine h.relay _ _ _ (fun t => (hpending t).le) (fun f hf => ?_) fun f p hp => ?_
  · exact (hfibers f).trans (h.awake f hf)
  · rw [hpending, hfibers]
    exact ⟨le_rfl, fun _ => le_rfl⟩

/-- The callback of a timer submits the fiber, which sleeps on this timer. -/
theorem call (h : Inv whole s) {i c : ℕ} (hstarted : s.started[i]? = some c) :
    Inv whole (s.call i c) := by
  have hcount : ∀ k, s.started.count k = [c].count k + (s.started.eraseIdx i).count k := by
    intro k
    rw [(perm_of_getElem? hstarted).count_eq, ← List.singleton_append, List.count_append]
  cases hwakes : s.wakes c with
  | none =>
      have hcall : s.call i c = { s with started := s.started.eraseIdx i } := by
        rw [State.call, hwakes]
      rw [hcall]
      refine h.relay s.queue s.batches _ (fun t => ?_) h.awake fun f p hp => ⟨?_, fun _ => ?_⟩
      · have := hcount (timerCb t)
        simp only [pending]
        omega
      · have := hcount (timerCb p.timer)
        simp only [pending, submitted]
        omega
      · have hne : c ≠ timerCb p.timer := by
          rintro rfl
          rw [wakes_timerCb, h.owner f p hp] at hwakes
          cases hwakes
        have := hcount (timerCb p.timer)
        rw [List.count_singleton, if_neg (by simpa using hne)] at this
        simp only [pending, submitted]
        omega
  | some f =>
      obtain ⟨t, rfl, hf⟩ := exists_timer_of_wakes hwakes
      have hqueue : s.call i (timerCb t) = { s with
          queue := s.queue ++ [⟨some f, none, none⟩], started := s.started.eraseIdx i } := by
        rw [State.call, hwakes]
        rfl
      -- the fiber sleeps on this timer, since nothing is pending for the others that it had
      obtain ⟨p, hp, rfl⟩ : ∃ p, s.pauses f = some p ∧ p.timer = t := by
        by_contra hnone
        have hzero := h.spent t f hf fun p hp he => hnone ⟨p, hp, he⟩
        have := hcount (timerCb t)
        rw [List.count_singleton_self] at this
        simp only [pending] at hzero
        omega
      have hpending : ∀ u, ({ s with
          queue := s.queue ++ [⟨some f, none, none⟩], started := s.started.eraseIdx i } :
          State).pending u + [timerCb p.timer].count (timerCb u) = s.pending u := by
        intro u
        have := hcount (timerCb u)
        simp only [pending, List.filterMap_append, taskCb_fiber_cons, List.filterMap_nil,
          List.append_nil]
        omega
      have hfibers : ∀ g, ({ s with
          queue := s.queue ++ [⟨some f, none, none⟩], started := s.started.eraseIdx i } :
          State).submitted g = s.submitted g + [f].count g := by
        intro g
        simp [submitted, List.filterMap_append, List.count_append]
      rw [hqueue]
      refine h.relay _ s.batches _ (fun u => ?_) (fun g hg => ?_) fun g q hq => ?_
      · exact (Nat.le_add_right _ _).trans_eq (hpending u)
      · have hne : f ≠ g := by
          rintro rfl
          rw [hp] at hg
          cases hg
        rw [hfibers, h.awake g hg, List.count_singleton, if_neg (by simpa using hne)]
      · have hone : [timerCb p.timer].count (timerCb q.timer) = [f].count g := by
          by_cases hfg : f = g
          · subst hfg
            rw [Option.some.inj (hp.symm.trans hq), List.count_singleton_self,
              List.count_singleton_self]
          · have hne : timerCb p.timer ≠ timerCb q.timer := fun he => by
              rw [timerCb_injective he, h.owner g q hq] at hf
              exact hfg (Option.some.inj hf).symm
            rw [List.count_singleton, List.count_singleton, if_neg (by simpa using hne),
              if_neg (by simpa using hfg)]
        have := hpending q.timer
        have := hfibers g
        exact ⟨by omega, fun _ => by omega⟩

theorem tear (h : Inv whole s) : Inv whole { s with torn := true } :=
  ⟨h.clocked, h.unused, h.owner, h.spent, h.awake, h.once, h.kept, fun f p hp =>
    ⟨(h.punctual f p hp).armed, (h.punctual f p hp).expired⟩⟩

/-- A fiber that was woken goes on; it was in the queue once, and nothing more is coming. -/
theorem resume (h : Inv whole s) {i f : ℕ} {threadId : Option ℕ}
    (htask : s.queue[i]? = some ⟨some f, none, threadId⟩) (hs : s.resume i f = some s') :
    Inv whole s' := by
  obtain ⟨p, hp, rfl | rfl⟩ := exists_pause_of_resume hs
  · exact h.tear
  have hperm := perm_of_getElem? htask
  have hpending : ∀ t, ({ s with
      queue := s.queue.eraseIdx i, pauses := update s.pauses f none } : State).pending t =
      s.pending t := by
    intro t
    simp only [pending, (hperm.filterMap Task.taskCb).count_eq, taskCb_fiber_cons]
  have hfibers : ∀ g, s.submitted g = [f].count g + ({ s with
      queue := s.queue.eraseIdx i, pauses := update s.pauses f none } : State).submitted g := by
    intro g
    simp only [submitted, (hperm.filterMap Task.fiber).count_eq, fiber_fiber_cons,
      List.count_append]
  have hone := hfibers f
  rw [List.count_singleton_self] at hone
  have honce := h.once f p hp
  have hother : ∀ g q, update s.pauses f none g = some q → g ≠ f ∧ s.pauses g = some q := by
    intro g q hq
    by_cases hg : g = f
    · rw [hg, update_self] at hq
      cases hq
    · exact ⟨hg, by rwa [update_of_ne hg] at hq⟩
  have hsame : ∀ g, g ≠ f → ({ s with
      queue := s.queue.eraseIdx i, pauses := update s.pauses f none } : State).submitted g =
      s.submitted g := by
    intro g hg
    rw [hfibers g, List.count_singleton, if_neg (by simpa using hg.symm), Nat.zero_add]
  refine ⟨h.clocked, fun t ht => (hpending t).trans (h.unused t ht), fun g q hq =>
    h.owner g q (hother g q hq).2, fun t g hg hne => ?_, fun g hg => ?_, fun g q hq => ?_,
    fun hw g q hq => ?_, fun g q hq => ?_⟩
  · rw [hpending]
    by_cases hgf : g = f
    · subst hgf
      by_cases ht : p.timer = t
      · subst ht
        omega
      · refine h.spent t g hg fun q hq => ?_
        rwa [← Option.some.inj (hp.symm.trans hq)]
    · refine h.spent t g hg fun q hq => hne q ?_
      exact (update_of_ne hgf _ _).trans hq
  · by_cases hgf : g = f
    · subst hgf
      omega
    · rw [hsame g hgf]
      exact h.awake g ((update_of_ne hgf _ _).symm.trans hg)
  · obtain ⟨hgf, hq⟩ := hother g q hq
    rw [hpending, hsame g hgf]
    exact h.once g q hq
  · obtain ⟨hgf, hq⟩ := hother g q hq
    rw [hpending, hsame g hgf]
    exact h.kept hw g q hq
  · obtain ⟨-, hq⟩ := hother g q hq
    exact ⟨(h.punctual g q hq).armed, (h.punctual g q hq).expired⟩

/-- The yield changes nothing that is counted. -/
theorem advance (h : Inv whole s) {f : ℕ} {before after : Stage}
    (hs : s.advance f before after = some s') : Inv whole s' := by
  obtain ⟨p, hp, rfl⟩ : ∃ p, s.pauses f = some p ∧
      s' = { s with pauses := update s.pauses f (some { p with stage := after }) } := by
    unfold State.advance at hs
    split at hs
    · next p hp =>
        split_ifs at hs
        exact ⟨p, hp, (Option.some.inj hs).symm⟩
    · cases hs
  have hback : ∀ g q, update s.pauses f (some { p with stage := after }) g = some q →
      ∃ q', s.pauses g = some q' ∧ q.timer = q'.timer ∧ q.call = q'.call ∧ q.start = q'.start := by
    intro g q hq
    by_cases hg : g = f
    · subst hg
      rw [update_self] at hq
      obtain rfl := Option.some.inj hq
      exact ⟨p, hp, rfl, rfl, rfl⟩
    · rw [update_of_ne hg] at hq
      exact ⟨q, hq, rfl, rfl, rfl⟩
  refine ⟨h.clocked, h.unused, fun g q hq => ?_, fun t g hg hne => ?_, fun g hg => ?_,
    fun g q hq => ?_, fun hw g q hq => ?_, fun g q hq => ?_⟩
  · obtain ⟨q', hq', ht, -⟩ := hback g q hq
    exact ht ▸ h.owner g q' hq'
  · refine h.spent t g hg fun q hq => ?_
    by_cases hgf : g = f
    · subst hgf
      obtain rfl := Option.some.inj (hp.symm.trans hq)
      exact hne { p with stage := after } (update_self ..)
    · exact hne q ((update_of_ne hgf _ _).trans hq)
  · refine h.awake g ?_
    by_cases hgf : g = f
    · subst hgf
      exact absurd ((update_self ..).symm.trans hg) (Option.some_ne_none _)
    · exact (update_of_ne hgf _ _).symm.trans hg
  · obtain ⟨q', hq', ht, -⟩ := hback g q hq
    exact ht ▸ h.once g q' hq'
  · obtain ⟨q', hq', ht, -⟩ := hback g q hq
    exact ht ▸ h.kept hw g q' hq'
  · obtain ⟨q', hq', ht, hc, hst⟩ := hback g q hq
    have := h.punctual g q' hq'
    exact ⟨fun hm => ht ▸ hc ▸ hst ▸ this.armed (ht ▸ hm), fun hm =>
      ht ▸ hc ▸ hst ▸ this.expired (ht ▸ hm)⟩

/-- Others use the timers. -/
theorem withTimers (h : Inv whole s) {m : TimerManager} (hclocked : Clocked m s.sleeper)
    (hcount : s.timers.count ≤ m.count) (hsame : ∀ t f, s.sleeper t = some f →
      m.timer t = s.timers.timer t ∧ (t ∈ m.timers ↔ t ∈ s.timers.timers)) :
    Inv whole { s with timers := m } := by
  have hpending : ∀ t f, s.sleeper t = some f →
      ({ s with timers := m } : State).pending t = s.pending t := by
    intro t f hf
    simp only [pending, (hsame t f hf).2]
  refine ⟨hclocked, fun t ht => ?_, h.owner, fun t f hf hne => ?_, h.awake, fun f p hp => ?_,
    fun hw f p hp => ?_, fun f p hp => ?_⟩
  · have hzero := h.unused t (hcount.trans ht)
    have hout : t ∉ m.timers := fun hin => (hclocked.good.alloc t (.inr hin)).not_ge ht
    simp only [pending, if_neg hout] at hzero ⊢
    omega
  · exact (hpending t f hf).trans (h.spent t f hf hne)
  · rw [hpending p.timer f (h.owner f p hp)]
    exact h.once f p hp
  · rw [hpending p.timer f (h.owner f p hp)]
    exact h.kept hw f p hp
  · obtain ⟨htimer, hmem⟩ := hsame p.timer f (h.owner f p hp)
    refine ⟨fun hin => ?_, fun hout => (h.punctual f p hp).expired fun hin => hout (hmem.mpr hin)⟩
    change (m.timer p.timer).next = _
    rw [htimer]
    exact (h.punctual f p hp).armed (hmem.mp hin)

/-- A fiber that is awake goes to sleep on a new timer. -/
theorem sleep (h : Inv whole s) {f addr now : ℕ} {call : Sleep} (hawake : s.pauses f = none)
    (hs : s.sleep f call addr now = some s') : Inv whole s' := by
  obtain ⟨m, hm, rfl⟩ := Option.map_eq_some_iff.mp hs
  obtain ⟨-, hclocked, hin, hold⟩ := h.clocked.addTimer hm
  obtain ⟨hcount, htimer⟩ := addTimer_timer hm
  have hnew := h.unused s.timers.count le_rfl
  have hpending : ∀ t < s.timers.count, ({ s with
      timers := m, pauses := update s.pauses f (some ⟨s.timers.count, call, now, .running⟩),
      sleeper := update s.sleeper s.timers.count (some f) } : State).pending t = s.pending t := by
    intro t ht
    simp only [pending, (hold t ht).2]
  have hother : ∀ g q, update s.pauses f (some ⟨s.timers.count, call, now, .running⟩) g = some q →
      (g = f ∧ q = ⟨s.timers.count, call, now, .running⟩) ∨
        (g ≠ f ∧ s.pauses g = some q ∧ q.timer < s.timers.count) := by
    intro g q hq
    by_cases hg : g = f
    · rw [hg, update_self] at hq
      exact .inl ⟨hg, (Option.some.inj hq).symm⟩
    · rw [update_of_ne hg] at hq
      exact .inr ⟨hg, hq, h.clocked.known _ g (h.owner g q hq)⟩
  have hone : ({ s with
      timers := m, pauses := update s.pauses f (some ⟨s.timers.count, call, now, .running⟩),
      sleeper := update s.sleeper s.timers.count (some f) } : State).pending s.timers.count =
      1 := by
    simp only [pending, if_pos hin] at hnew ⊢
    omega
  refine ⟨hclocked rfl f, fun t ht => ?_, fun g q hq => ?_, fun t g hg hne => ?_, fun g hg => ?_,
    fun g q hq => ?_, fun hw g q hq => ?_, fun g q hq => ?_⟩
  · have hlt : s.timers.count < t := by
      change m.count ≤ t at ht
      omega
    have hzero := h.unused t hlt.le
    have hout : t ∉ m.timers := fun hmem => ((hclocked rfl f).good.alloc t (.inr hmem)).not_ge ht
    simp only [pending, if_neg hout] at hzero ⊢
    omega
  · obtain ⟨rfl, rfl⟩ | ⟨-, hq, hlt⟩ := hother g q hq
    · exact update_self ..
    · exact (update_of_ne hlt.ne _ _).trans (h.owner g q hq)
  · by_cases ht : t = s.timers.count
    · subst ht
      change update s.sleeper s.timers.count (some f) s.timers.count = some g at hg
      rw [update_self] at hg
      obtain rfl := Option.some.inj hg
      exact absurd rfl (hne ⟨s.timers.count, call, now, .running⟩ (update_self ..))
    · have hg : s.sleeper t = some g := (update_of_ne ht _ _).symm.trans hg
      rw [hpending t (h.clocked.known t g hg)]
      refine h.spent t g hg fun q hq => hne q ?_
      refine (update_of_ne ?_ _ _).trans hq
      rintro rfl
      rw [hawake] at hq
      cases hq
  · refine h.awake g ?_
    by_cases hgf : g = f
    · rw [hgf]
      exact hawake
    · exact (update_of_ne hgf _ _).symm.trans hg
  · obtain ⟨rfl, rfl⟩ | ⟨-, hq, hlt⟩ := hother g q hq
    · exact (congrArg₂ (· + ·) hone (h.awake g hawake)).le
    · exact (congrArg (· + s.submitted g) (hpending q.timer hlt)).trans_le (h.once g q hq)
  · obtain ⟨rfl, rfl⟩ | ⟨-, hq, hlt⟩ := hother g q hq
    · exact (congrArg₂ (· + ·) hone (h.awake g hawake)).ge
    · exact (h.kept hw g q hq).trans_eq (congrArg (· + s.submitted g) (hpending q.timer hlt)).symm
  · obtain ⟨rfl, rfl⟩ | ⟨-, hq, hlt⟩ := hother g q hq
    · refine ⟨fun _ => ?_, fun hout => absurd hin hout⟩
      change (m.timer s.timers.count).next = _
      rw [htimer, update_self]
    · obtain ⟨htimer', hmem⟩ := hold q.timer hlt
      refine ⟨fun hin' => ?_, fun hout =>
        (h.punctual g q hq).expired fun hin' => hout (hmem.mpr hin')⟩
      change (m.timer q.timer).next = _
      rw [htimer']
      exact (h.punctual g q hq).armed (hmem.mp hin')

/-- The expired timers go from the set into a batch. -/
theorem expire (h : Inv whole s) (now nowAddr : ℕ) (clock : ℕ → ℕ) :
    Inv whole (s.expire now nowAddr clock) := by
  obtain ⟨hclocked, hcount, ts, hnodup, hts, hfst, hsnd, hleft⟩ :=
    h.clocked.expire now nowAddr clock
  have hflat : ∀ t, (s.expire now nowAddr clock).batches.flatten.count (timerCb t) =
      s.batches.flatten.count (timerCb t) + ts.count t := by
    intro t
    change ((s.batches ++ [(s.timers.listExpiredCb now nowAddr clock).1.map Prod.snd]).flatten.count
      (timerCb t)) = _
    rw [hsnd, List.flatten_append, List.count_append, List.flatten_singleton,
      List.count_map_of_injective _ _ timerCb_injective]
  have hread : ∀ t, (s.expire now nowAddr clock).expiredAt t =
      if t ∈ ts then some now else s.expiredAt t := by
    intro t
    rw [← hfst]
    rfl
  -- a wake-up goes from the set into the new batch
  have hpending : ∀ t f, s.sleeper t = some f →
      (s.expire now nowAddr clock).pending t = s.pending t := by
    intro t f hf
    have hmem : t ∈ (s.expire now nowAddr clock).timers.timers ↔ t ∈ s.timers.timers ∧ t ∉ ts :=
      (hleft t f hf).1
    have hmoved : (if t ∈ (s.expire now nowAddr clock).timers.timers then 1 else 0) + ts.count t =
        if t ∈ s.timers.timers then 1 else 0 := by
      by_cases hin : t ∈ ts
      · simp [hmem, hin, ((hts t).mp hin).1, hnodup.count]
      · simp [hmem, hin, List.count_eq_zero_of_not_mem hin]
    have := hflat t
    change (if t ∈ (s.expire now nowAddr clock).timers.timers then 1 else 0) +
      (s.expire now nowAddr clock).batches.flatten.count (timerCb t) +
      (s.queue.filterMap Task.taskCb).count (timerCb t) + s.started.count (timerCb t) = _
    simp only [pending]
    omega
  have hback : (s.expire now nowAddr clock).timers.count = s.timers.count := hcount
  refine ⟨hclocked, fun t ht => ?_, h.owner, fun t f hf hne => ?_, h.awake, fun f p hp => ?_,
    fun hw f p hp => ?_, fun f p hp => ⟨fun hin => ?_, fun hout => ?_⟩⟩
  · rw [hback] at ht
    have hzero := h.unused t ht
    have hout : t ∉ (s.expire now nowAddr clock).timers.timers := fun hin =>
      (hclocked.good.alloc t (.inr hin)).not_ge (hback.trans_le ht)
    have hnot : t ∉ ts := fun hin => (h.clocked.good.alloc t (.inr ((hts t).mp hin).1)).not_ge ht
    have := hflat t
    rw [List.count_eq_zero_of_not_mem hnot] at this
    change (if t ∈ (s.expire now nowAddr clock).timers.timers then 1 else 0) +
      (s.expire now nowAddr clock).batches.flatten.count (timerCb t) +
      (s.queue.filterMap Task.taskCb).count (timerCb t) + s.started.count (timerCb t) = 0
    simp only [pending] at hzero
    rw [if_neg hout]
    omega
  · exact (hpending t f hf).trans (h.spent t f hf hne)
  · rw [hpending p.timer f (h.owner f p hp)]
    exact h.once f p hp
  · rw [hpending p.timer f (h.owner f p hp)]
    exact h.kept hw f p hp
  · obtain ⟨hmem, htimer⟩ := hleft p.timer f (h.owner f p hp)
    obtain ⟨hwas, hnot⟩ := hmem.mp hin
    exact (congrArg TimerModel.Timer.next (htimer hnot)).trans ((h.punctual f p hp).armed hwas)
  · rw [hread]
    by_cases hin : p.timer ∈ ts
    · obtain ⟨hwas, hdue⟩ := (hts p.timer).mp hin
      rw [if_pos hin]
      exact ⟨now, rfl, (h.punctual f p hp).armed hwas ▸ hdue⟩
    · rw [if_neg hin]
      refine (h.punctual f p hp).expired fun hwas => hout ?_
      exact (hleft p.timer f (h.owner f p hp)).1.mpr ⟨hwas, hin⟩

theorem step (h : Inv whole s) {a : Label} (hfaithful : whole → s.Faithful a)
    (hs : s.step a = some s') : Inv whole s' := by
  rw [State.step] at hs
  split_ifs at hs
  cases a with
  | sleep f call addr now =>
      simp only [next] at hs
      split_ifs at hs with hawake
      exact h.sleep hawake hs
  | yield f => exact h.advance hs
  | swapcontext f => exact h.advance hs
  | expire now nowAddr clock =>
      obtain rfl := Option.some.inj hs
      exact h.expire now nowAddr clock
  | submitBatch i =>
      obtain ⟨cbs, hcbs, rfl⟩ := Option.map_eq_some_iff.mp hs
      exact h.submitBatch hcbs fun hw => (hfaithful hw).imp_right fun hall => hall cbs hcbs
  | take i =>
      simp only [next] at hs
      split at hs
      · next htask =>
          obtain rfl := Option.some.inj hs
          exact h.take htask
      · cases hs
  | call i =>
      obtain ⟨c, hc, rfl⟩ := Option.map_eq_some_iff.mp hs
      exact h.call hc
  | resume i =>
      simp only [next] at hs
      split at hs
      · next htask => exact h.resume htask hs
      · cases hs
  | addTimer addr ms recurring now =>
      obtain ⟨m, hm, rfl⟩ := Option.map_eq_some_iff.mp hs
      obtain ⟨hclocked, -, -, hold⟩ := h.clocked.addTimer hm
      exact h.withTimers hclocked ((addTimer_timer hm).1 ▸ Nat.le_succ _) fun t f hf =>
        hold t (h.clocked.known t f hf)
  | timer op =>
      simp only [next] at hs
      split at hs
      · next t htarget =>
          split_ifs at hs with hother
          obtain ⟨m, hm, rfl⟩ := Option.map_eq_some_iff.mp hs
          obtain ⟨hclocked, hcount, hsame⟩ := h.clocked.call htarget hother hm
          exact h.withTimers hclocked hcount.ge hsame
      · cases hs
  | submit k =>
      obtain rfl := Option.some.inj hs
      exact h.submitOther k

end Inv

/-- What a fiber that sleeps can rely on. -/
structure Served (s : State) : Prop where
  /-- Its call returns after its timer was taken out at a reading that had reached the deadline,
  and leaves no other wake-up behind, unless the step tears the state. -/
  punctual : ∀ i s', s.step (.resume i) = some s' → s'.torn = false → ∃ f p r,
    s.pauses f = some p ∧ s'.pauses f = none ∧ s'.pending p.timer + s'.submitted f = 0 ∧
    s.expiredAt p.timer = some r ∧ TimerModel.wrap (p.start + p.call.ms) ≤ r ∧
    (p.call.Fits p.start → p.call.deadline p.start ≤ r)
  once : ∀ f p, s.pauses f = some p → s.pending p.timer + s.submitted f ≤ 1
  /-- Nobody is in the queue who does not sleep. -/
  awake : ∀ f, s.pauses f = none → s.submitted f = 0

theorem Inv.served (h : Inv whole s) : s.Served where
  punctual := by
    intro i s' hs hwhole
    have hinv := h.step (a := .resume i) (fun _ => trivial) hs
    rw [State.step] at hs
    split_ifs at hs
    simp only [next] at hs
    split at hs
    · next f threadId htask =>
        obtain ⟨p, hp, rfl | rfl⟩ := exists_pause_of_resume hs
        · cases hwhole
        · have hin : 0 < s.submitted f := by
            refine List.count_pos_iff.mpr (List.mem_filterMap.mpr ?_)
            exact ⟨_, List.mem_of_getElem? htask, rfl⟩
          have honce := h.once f p hp
          have hout : p.timer ∉ s.timers.timers := by
            intro hmem
            simp only [pending, if_pos hmem] at honce
            omega
          obtain ⟨r, hr, hdue⟩ := (h.punctual f p hp).expired hout
          have hgone : update s.pauses f none f = none := update_self ..
          have hspent := hinv.spent p.timer f (h.owner f p hp) fun q hq =>
            absurd (hgone.symm.trans hq) (Option.some_ne_none q).symm
          exact ⟨f, p, r, hp, hgone, by rw [hspent, hinv.awake f hgone], hr, hdue,
            fun hfits => hfits.wrap_eq.ge.trans hdue⟩
    · cases hs
  once := h.once
  awake := h.awake

/-- In whatever order the threads go on, up to the moment in which a fiber is resumed before its
context is saved: no call returns early, no fiber is woken twice, and where every batch went into
the queue as a whole every fiber that sleeps is on its way to be woken. -/
theorem sleepers_wake (front : Bool) (labels : List Label) (s : State)
    (hrun : run step (SleepModel.init front) labels = some s) :
    s.Served ∧ (AllSteps step Faithful (SleepModel.init front) labels →
      ∀ f p, s.pauses f = some p → s.pending p.timer + s.submitted f = 1) := by
  have hany : Inv False s :=
    run_preserves (Inv False) (fun _ _ _ h hs => h.step False.elim hs) (inv_init _ _) hrun
  refine ⟨hany.served, fun hall f p hp => ?_⟩
  have hwhole : Inv True s := run_invariant (Inv True)
    (fun _ _ _ h hfaithful hs => h.step (fun _ => hfaithful) hs) (inv_init _ _) hall hrun
  exact le_antisymm (hwhole.once f p hp) (hwhole.kept trivial f p hp)

/-- A fiber sleeps for a second, and is in the queue after that. -/
theorem sleepers_wake_second :
    ∃ s, run step (SleepModel.init true) [.sleep 0 (.sleep 1) 16 1000, .yield 0,
        .swapcontext 0, .expire 2000 48 fun _ => 2000, .submitBatch 0, .take 0, .call 0] = some s ∧
      s.pauses 0 = some ⟨0, .sleep 1, 1000, .saved⟩ ∧ s.Served ∧
      s.pending 0 + s.submitted 0 = 1 := by
  have hend : (run step (SleepModel.init true) [.sleep 0 (.sleep 1) 16 1000, .yield 0,
      .swapcontext 0, .expire 2000 48 fun _ => 2000, .submitBatch 0, .take 0, .call 0]).map
      (fun s => s.pauses 0) = some (some ⟨0, .sleep 1, 1000, .saved⟩) := by decide
  obtain ⟨s, hs, hp⟩ := Option.map_eq_some_iff.mp hend
  obtain ⟨hserved, hone⟩ := sleepers_wake true _ s hs
  exact ⟨s, hs, hp, hserved, hone (by decide) 0 _ hp⟩

/-- Two fibers with one deadline: the second wake-up of the batch is lost. -/
example : (run step (SleepModel.init true) [.sleep 0 (.sleep 1) 16 1000, .yield 0,
    .sleep 1 (.sleep 1) 32 1000, .yield 1, .expire 2000 48 fun _ => 2000, .submitBatch 0]).map
    (fun s => ((s.pauses 1).isSome, s.pending 1 + s.submitted 1)) = some (true, 0) := by
  decide

end State

end Xzmjx.SleepModel
