import Xzmjx.TimerExpiry

/-!
# When a timer can fire early

A timer is armed at a clock reading with an interval, and its deadline is their sum. The sum
is stored in 64 bits, so an interval that reaches past the end of the clock gives a deadline
before the very reading it was made from. Beside the manager the run keeps, for every timer,
the reading and the interval of its last arming.
-/
namespace Xzmjx.TimerModel
open OrderedSet StepSystem

/-- The clock reading from which a timer counts and the interval it counts. -/
structure Arming where
  start : ℕ
  ms : ℕ
  deriving DecidableEq, Repr

/-- The armings after a call. `reset` not from now keeps the old start, and a recurring timer
that has expired is armed at the reading that its turn in the loop takes. -/
def Op.arm (m : TimerManager) (armed : ℕ → Arming) : Op → ℕ → Arming
  | .addTimer _ ms _ _ now => Function.update armed m.count ⟨now, ms⟩
  | .cancel _ => armed
  | .refresh t now =>
      if (m.refresh t now).1 then Function.update armed t ⟨now, (armed t).ms⟩ else armed
  | .reset t ms fromNow now =>
      if (m.reset t ms fromNow now).1 then
        Function.update armed t ⟨if fromNow then now else (armed t).start, ms⟩
      else armed
  | .listExpiredCb now nowAddr clock => fun t =>
      if t ∈ (m.expire now nowAddr).1 ∧ (m.timer t).recurring = true then
        ⟨clock ((m.expire now nowAddr).1.idxOf t), (armed t).ms⟩
      else armed t

/-- A call together with its armings. -/
def armStep (s : TimerManager × (ℕ → Arming)) (op : Op) :
    Option (TimerManager × (ℕ → Arming)) :=
  (step s.1 op).map fun m' => (m', op.arm s.1 s.2)

/-- The readings and intervals of a call are 64-bit values. -/
def Op.InRange : Op → Prop
  | .addTimer _ ms _ _ now => ms < 2 ^ 64 ∧ now < 2 ^ 64
  | .cancel _ => True
  | .refresh _ now => now < 2 ^ 64
  | .reset _ ms _ now => ms < 2 ^ 64 ∧ now < 2 ^ 64
  | .listExpiredCb now _ clock => now < 2 ^ 64 ∧ ∀ i, clock i < 2 ^ 64

/-- The deadline of the timer is the one of its arming. -/
structure ArmedAt (x : Timer) (a : Arming) : Prop where
  start_lt : a.start < 2 ^ 64
  ms_lt : a.ms < 2 ^ 64
  ms : x.ms = a.ms
  next : x.next = wrap (a.start + a.ms)

/-- Between calls the deadlines in the set are those of the armings. -/
structure Tracked (m : TimerManager) (armed : ℕ → Arming) : Prop where
  good : Good m []
  armed : ∀ t ∈ m.timers, ArmedAt (m.timer t) (armed t)

variable {m m' : TimerManager} {armed : ℕ → Arming}

/-- Calls that give one timer of the set a new deadline. -/
theorem Tracked.putBack (h : Tracked m armed) {t : ℕ} {x : Timer} {a : Arming}
    (ha : ArmedAt x a) {u : ℕ} (hu : u ∈ (((m.erase t).setTimer t x).insert t).timers) :
    ArmedAt ((((m.erase t).setTimer t x).insert t).timer u) (Function.update armed t a u) := by
  by_cases hut : u = t
  · subst hut
    simpa using ha
  · rw [timer_putBack_of_ne hut, Function.update_of_ne hut]
    exact h.armed u ((mem_timers_putBack hu).resolve_left hut)

theorem Tracked.addTimer (h : Tracked m armed) {addr ms now : ℕ} {cb : Callback}
    {recurring : Bool} (hms : ms < 2 ^ 64) (hnow : now < 2 ^ 64) {u : ℕ}
    (hu : u ∈ (m.addTimer addr ms cb recurring now).2.timers) :
    ArmedAt ((m.addTimer addr ms cb recurring now).2.timer u)
      ((Op.addTimer addr ms cb recurring now).arm m armed u) := by
  unfold TimerManager.addTimer TimerManager.addTimerLocked at hu ⊢
  dsimp only [Op.arm] at hu ⊢
  by_cases hut : u = m.count
  · subst hut
    rw [TimerManager.insert_timer, TimerManager.setTimer_self, Function.update_self]
    exact ⟨hnow, hms, rfl, rfl⟩
  · rw [TimerManager.insert_timer, TimerManager.setTimer_of_ne hut, Function.update_of_ne hut]
    exact h.armed u ((mem_of_mem_insert hu).resolve_left hut)

theorem Tracked.cancel (h : Tracked m armed) {t u : ℕ} (hu : u ∈ (m.cancel t).2.timers) :
    ArmedAt ((m.cancel t).2.timer u) (armed u) := by
  cases cancel_keyed hu with
  | kept hmem hnext hms =>
      obtain ⟨hstart, hlt, hms', hnext'⟩ := h.armed u hmem
      exact ⟨hstart, hlt, hms.trans hms', hnext.trans hnext'⟩
  | read now hread _ => simp [Op.readings] at hread
  | restarted ms now hop _ _ _ => cases hop

theorem Tracked.refresh (h : Tracked m armed) {t now : ℕ} (ht : t < m.count)
    (hnow : now < 2 ^ 64) {u : ℕ} (hu : u ∈ (m.refresh t now).2.timers) :
    ArmedAt ((m.refresh t now).2.timer u) ((Op.refresh t now).arm m armed u) := by
  rw [Op.arm]
  unfold TimerManager.refresh at hu ⊢
  by_cases hmem : t ∈ m.timers
  · have hcb := (h.good.mem_timers_iff ht).mp hmem
    obtain ⟨hstart, hlt, hms, hnext⟩ := h.armed t hmem
    simp only [if_neg hcb, h.good.find_eq hmem, Option.isSome_some, if_true] at hu ⊢
    have hnew : ArmedAt { m.timer t with next := wrap (now + (m.timer t).ms) }
        ⟨now, (armed t).ms⟩ :=
      ⟨hnow, hlt, hms, congrArg (fun ms => wrap (now + ms)) hms⟩
    exact h.putBack hnew hu
  · simp only [if_pos (h.good.cb_eq_none ht hmem), Bool.false_eq_true, if_false] at hu ⊢
    exact h.armed u hu

theorem Tracked.reset (h : Tracked m armed) {t ms now : ℕ} {fromNow : Bool} (ht : t < m.count)
    (hms : ms < 2 ^ 64) (hnow : now < 2 ^ 64) {u : ℕ}
    (hu : u ∈ (m.reset t ms fromNow now).2.2.timers) :
    ArmedAt ((m.reset t ms fromNow now).2.2.timer u)
      ((Op.reset t ms fromNow now).arm m armed u) := by
  rw [Op.arm]
  unfold TimerManager.reset TimerManager.addTimerLocked at hu ⊢
  by_cases hmem : t ∈ m.timers
  · have hcb := (h.good.mem_timers_iff ht).mp hmem
    obtain ⟨hstart, hlt, hold, hnext⟩ := h.armed t hmem
    -- not from now, the subtraction finds the start of the last arming again
    have hsub : wrap ((m.timer t).next + 2 ^ 64 - (m.timer t).ms) = (armed t).start := by
      rw [hnext, hold]
      exact wrap_sub_interval hstart hlt
    simp only [if_neg hcb, h.good.find_eq hmem, Option.isSome_some, if_true] at hu ⊢
    refine h.putBack ⟨?_, hms, rfl, ?_⟩ hu
    · dsimp only
      split_ifs
      · exact hnow
      · exact hstart
    · exact congrArg (fun start => wrap ((if fromNow then now else start) + ms)) hsub
  · simp only [if_pos (h.good.cb_eq_none ht hmem), Bool.false_eq_true, if_false] at hu ⊢
    exact h.armed u hu

theorem Tracked.listExpiredCb (h : Tracked m armed) {now nowAddr : ℕ} {clock : ℕ → ℕ}
    (hclock : ∀ i, clock i < 2 ^ 64) {u : ℕ}
    (hu : u ∈ (m.listExpiredCb now nowAddr clock).2.timers) :
    ArmedAt ((m.listExpiredCb now nowAddr clock).2.timer u)
      ((Op.listExpiredCb now nowAddr clock).arm m armed u) := by
  have hexp := h.good.expire now nowAddr
  have hsplit := expire_append m now nowAddr
  dsimp only [Op.arm]
  rcases fireAll_keyed _ clock hexp hu with ⟨hmem, heq⟩ | ⟨i, hi, hr, hms, hnext⟩
  · have hnot : u ∉ (m.expire now nowAddr).1 := fun hc => hexp.apart u hc hmem
    have htimer : (m.listExpiredCb now nowAddr clock).2.timer u = m.timer u := heq
    rw [if_neg fun hc => hnot hc.1, htimer]
    refine h.armed u ?_
    rw [← hsplit]
    exact List.mem_append_right _ hmem
  · have hexpired := List.mem_of_getElem? hi
    have hidx : (m.expire now nowAddr).1.idxOf u = i := by
      obtain ⟨hlt, rfl⟩ := List.getElem?_eq_some_iff.mp hi
      exact hexp.nodup.idxOf_getElem i hlt
    obtain ⟨-, hlt, hms', -⟩ := h.armed u (by
      rw [← hsplit]
      exact List.mem_append_left _ hexpired)
    rw [if_pos ⟨hexpired, hr⟩, hidx]
    refine ⟨hclock i, hlt, hms.trans hms', hnext.trans ?_⟩
    exact congrArg (fun ms => wrap (clock i + ms)) hms'

theorem armStep_tracked (s : TimerManager × (ℕ → Arming)) (op : Op)
    (s' : TimerManager × (ℕ → Arming)) (h : Tracked s.1 s.2) (hrange : op.InRange)
    (hstep : armStep s op = some s') : Tracked s'.1 s'.2 := by
  obtain ⟨m', hm', rfl⟩ := Option.map_eq_some_iff.mp hstep
  obtain ⟨out, hexec⟩ := step_exec hm'
  refine ⟨(exec_spec h.good hexec).good, fun u hu => ?_⟩
  cases performed_of_exec hexec with
  | addTimer hfresh => exact h.addTimer hrange.1 hrange.2 hu
  | cancel ht => exact h.cancel hu
  | refresh ht => exact h.refresh ht hrange hu
  | reset ht => exact h.reset ht hrange.1 hrange.2 hu
  | listExpiredCb => exact h.listExpiredCb hrange.2 hu

theorem run_tracked {front : Bool} {ops : List Op} (hrange : ∀ op ∈ ops, op.InRange)
    (hrun : run armStep (TimerManager.new front, fun _ => ⟨0, 0⟩) ops = some (m, armed)) :
    Tracked m armed := by
  have hnew : Tracked (TimerManager.new front) fun _ => ⟨0, 0⟩ :=
    ⟨Good.new front, by simp [TimerManager.new]⟩
  exact run_invariant (G := fun _ op => op.InRange) (fun s => Tracked s.1 s.2) armStep_tracked
    hnew (allSteps_of_forall fun op hop _ => hrange op hop) hrun

/-- Of a timer in the set `listExpiredCb` hands out the callback exactly when the stored
deadline has been reached. -/
theorem Good.handedOut_iff (h : Good m []) {now nowAddr t : ℕ} {clock : ℕ → ℕ} :
    t ∈ Output.handedOut (.expired (m.listExpiredCb now nowAddr clock).1) ↔
      t ∈ m.timers ∧ (m.timer t).next ≤ now := by
  obtain ⟨-, hcbs, -⟩ := fireAll_spec _ clock (h.expire now nowAddr)
  have hhanded : Output.handedOut (.expired (m.listExpiredCb now nowAddr clock).1) =
      (m.expire now nowAddr).1 := hcbs
  rw [hhanded, expire_eq_filter h.ordered, List.mem_filter, decide_eq_true_eq]

/-- When no timer fires early. In every state that calls with 64-bit readings and intervals
reach, for every timer: from the reading it was last armed at on, its callback is handed out
only after its interval has passed, if and only if the sum of the two fits in 64 bits. -/
theorem never_early_iff (front : Bool) (ops : List Op) (hrange : ∀ op ∈ ops, op.InRange)
    (m : TimerManager) (armed : ℕ → Arming)
    (hrun : run armStep (TimerManager.new front, fun _ => ⟨0, 0⟩) ops = some (m, armed))
    (t : ℕ) :
    (∀ now nowAddr clock, (armed t).start ≤ now → now < 2 ^ 64 →
      t ∈ Output.handedOut (.expired (m.listExpiredCb now nowAddr clock).1) →
      (armed t).start + (armed t).ms ≤ now) ↔
    (t ∈ m.timers → (armed t).start + (armed t).ms < 2 ^ 64) := by
  have h := run_tracked hrange hrun
  simp only [h.good.handedOut_iff]
  constructor
  · intro hpunctual hmem
    obtain ⟨hstart, hms, -, hnext⟩ := h.armed t hmem
    by_contra hover
    -- the wrapped deadline is before the start, and the timer is due as soon as it is armed
    have hpast : (m.timer t).next ≤ (armed t).start := by
      rw [hnext, wrap]
      omega
    have := hpunctual (armed t).start 0 id le_rfl hstart ⟨hmem, hpast⟩
    omega
  · rintro hfits now - - - - ⟨hmem, hdue⟩
    rw [(h.armed t hmem).next, wrap_eq (hfits hmem)] at hdue
    exact hdue

/-- A recurring timer is reset from its old start, expires at 25 and is armed again at 26. -/
theorem never_early_recurring :
    ∃ m armed, run armStep (TimerManager.new true, fun _ => ⟨0, 0⟩)
        [.addTimer 16 50 1 true 10, .reset 0 5 false 0, .listExpiredCb 25 48 fun _ => 26] =
        some (m, armed) ∧
      armed 0 = ⟨26, 5⟩ ∧
      ∀ now nowAddr clock, 26 ≤ now → now < 2 ^ 64 →
        0 ∈ Output.handedOut (.expired (m.listExpiredCb now nowAddr clock).1) → 26 + 5 ≤ now := by
  have hrange : ∀ op ∈ [Op.addTimer 16 50 1 true 10, .reset 0 5 false 0,
      .listExpiredCb 25 48 fun _ => 26], op.InRange := by
    simp [Op.InRange]
  obtain ⟨s, hs⟩ := Option.isSome_iff_exists.mp (show (run armStep
    (TimerManager.new true, fun _ => ⟨0, 0⟩) [.addTimer 16 50 1 true 10, .reset 0 5 false 0,
      .listExpiredCb 25 48 fun _ => 26]).isSome by decide)
  have harmed : s.2 0 = ⟨26, 5⟩ := by
    have := congrArg (Option.map fun s => s.2 0) hs
    exact Option.some.inj (this.symm.trans (by decide))
  have hpunctual := (never_early_iff true _ hrange s.1 s.2 hs 0).mpr fun _ => by
    rw [harmed]
    decide
  rw [harmed] at hpunctual
  exact ⟨s.1, s.2, hs, harmed, hpunctual⟩

/-- Armed at 1000 with the largest interval, a timer has the deadline 999, and is handed out
at 1000 already. -/
theorem fires_early_on_overflow :
    ∃ m armed, run armStep (TimerManager.new true, fun _ => ⟨0, 0⟩)
        [.addTimer 16 (2 ^ 64 - 1) 7 false 1000] = some (m, armed) ∧
      armed 0 = ⟨1000, 2 ^ 64 - 1⟩ ∧ (m.listExpiredCb 1000 48 id).1 = [(0, 7)] ∧
      ¬(armed 0).start + (armed 0).ms ≤ 1000 := by
  refine ⟨_, _, rfl, ?_⟩
  decide

end Xzmjx.TimerModel
