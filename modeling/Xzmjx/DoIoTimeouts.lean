import Xzmjx.DoIoModel
import Xzmjx.TimerRuns

/-!
# Timeouts belong to their wait

All the waits of one call of `do_io` share `t_info`, and `timer->cancel()` cannot take
back a callback that `listExpiredCb` has handed out. `Settled` says that a further wait
begins only when no such callback is left; then each timeout stays with its own wait.
`Waiting` is what the call relies on at the IO manager, `Timing` what it relies on at the
timer manager.
-/
namespace Xzmjx.DoIoModel
open Function StepSystem FallibleCalls
open Xzmjx.TimerModel (TimerManager exec Good Retired CallSpec exec_spec)
open Xzmjx.IOManagerModel (IOManager Direction Waiter waiterOf)

/-! ### At the IO manager -/

/-- The fiber is registered in no wait but the one it holds in, and only for its event.
A wait in which it was submitted is over for the IO manager. -/
structure Waiting (c : Call) (pc : Pc) (waits : ℕ) (io : IOManager Party) : Prop where
  coherent : io.Coherent
  slot : ∀ fd d w k, io.waiter? fd d = some w → w.handle = .wait k →
    fd = c.fd ∧ d = c.direction ∧ pc = .hold k ∧ k < waits
  submitted : ∀ sub ∈ io.submitted, ∀ k, sub.fiber = some (.wait k) →
    k < waits ∧ pc ≠ .add k ∧ ∀ w, io.waiter? c.fd c.direction = some w → w.handle ≠ .wait k

namespace Waiting
variable {c : Call} {pc pc' : Pc} {waits waits' : ℕ} {io : IOManager Party}

theorem new (c : Call) : Waiting c .entry 0 IOManager.new := by
  refine ⟨IOManager.coherent_new, fun fd d w k hw => ?_, fun sub hsub => ?_⟩
  · cases d <;> cases hw
  · cases hsub

theorem ensureContext (h : Waiting c pc waits io) (fd : ℕ) :
    Waiting c pc waits (io.ensureContext fd) := by
  have hsame := h.coherent.waiter?_ensureContext fd
  refine ⟨h.coherent.ensureContext fd, fun fd' d w k hw => ?_, fun sub hsub k hk => ?_⟩
  · rw [hsame] at hw
    exact h.slot fd' d w k hw
  · rw [io.submitted_ensureContext] at hsub
    rw [hsame]
    exact h.submitted sub hsub k hk

theorem drop (h : Waiting c pc waits io) {fd : ℕ} {d : Direction}
    (hd : (io.events fd).has d = true) : Waiting c pc waits (io.drop fd d) := by
  have hput : ∀ fd' d', (io.drop fd d).waiter? fd' d' =
      if fd' = fd ∧ d' = d then none else io.waiter? fd' d' :=
    fun fd' d' => io.waiter?_put fd fd' d d' none
  refine ⟨h.coherent.drop hd, fun fd' d' w k hw => ?_, fun sub hsub k hk => ?_⟩
  · rw [hput] at hw
    split at hw
    · cases hw
    · exact h.slot fd' d' w k hw
  · obtain ⟨hlt, hadd, hslot⟩ := h.submitted sub hsub k hk
    refine ⟨hlt, hadd, fun w hw => ?_⟩
    rw [hput] at hw
    split at hw
    · cases hw
    · exact hslot w hw

/-- Firing submits the fiber only in the wait in which it holds, and then takes its
event out. -/
theorem fire (h : Waiting c pc waits io) {fd : ℕ} {d : Direction}
    (hd : (io.events fd).has d = true) : Waiting c pc waits (io.fire fd d) := by
  have hdrop := h.drop hd
  refine ⟨h.coherent.fire hd, hdrop.slot, fun sub hsub k hk => ?_⟩
  rcases List.mem_append.mp hsub with hold | hnew
  · exact hdrop.submitted sub hold k hk
  · obtain ⟨w, hw, rfl⟩ : ∃ w, io.waiter? fd d = some w ∧ w.submission = sub := by
      simpa using hnew
    have hhandle : w.handle = .wait k := by
      cases hcb : w.isCb <;> simp_all [Waiter.submission]
    obtain ⟨rfl, rfl, rfl, hlt⟩ := h.slot fd d w k hw hhandle
    refine ⟨hlt, by simp, fun w' hw' => ?_⟩
    have hnone : (io.fire c.fd c.direction).waiter? c.fd c.direction = none :=
      (io.waiter?_put c.fd c.fd c.direction c.direction none).trans (by simp)
    rw [hnone] at hw'
    cases hw'

/-- Somebody else registers. -/
theorem arm (h : Waiting c pc waits io) {fd : ℕ} (hfd : fd < io.size) {d : Direction}
    (hd : (io.events fd).has d = false) {w : Waiter Party} (hw : w.handle.foreign = true) :
    Waiting c pc waits (io.arm fd d w) := by
  have hput : ∀ fd' d', (io.arm fd d w).waiter? fd' d' =
      if fd' = fd ∧ d' = d then some w else io.waiter? fd' d' :=
    fun fd' d' => io.waiter?_put fd fd' d d' (some w)
  have hne : ∀ k, w.handle ≠ .wait k := by
    intro k hk
    rw [hk] at hw
    cases hw
  refine ⟨h.coherent.arm hfd hd w, fun fd' d' w' k hw' => ?_, fun sub hsub k hk => ?_⟩
  · rw [hput] at hw'
    split at hw'
    · cases hw'
      exact fun hk => absurd hk (hne k)
    · exact h.slot fd' d' w' k hw'
  · obtain ⟨hlt, hadd, hslot⟩ := h.submitted sub hsub k hk
    refine ⟨hlt, hadd, fun w' hw' => ?_⟩
    rw [hput] at hw'
    split at hw'
    · cases hw'
      exact hne k
    · exact hslot w' hw'

/-- The fiber registers in the wait it has begun. -/
theorem hold {k : ℕ} (h : Waiting c (.add k) waits io) (hk : k < waits) (hfd : c.fd < io.size)
    (hd : (io.events c.fd).has c.direction = false) {w : Waiter Party}
    (hw : w.handle = .wait k) : Waiting c (.hold k) waits (io.arm c.fd c.direction w) := by
  have hput : ∀ fd' d', (io.arm c.fd c.direction w).waiter? fd' d' =
      if fd' = c.fd ∧ d' = c.direction then some w else io.waiter? fd' d' :=
    fun fd' d' => io.waiter?_put c.fd fd' c.direction d' (some w)
  refine ⟨h.coherent.arm hfd hd w, fun fd d w' m hw' hm => ?_, fun sub hsub m hm => ?_⟩
  · rw [hput] at hw'
    split at hw'
    · next heq =>
        cases hw'
        obtain rfl : k = m := by simpa [hw] using hm
        exact ⟨heq.1, heq.2, rfl, hk⟩
    · obtain ⟨-, -, hpc, -⟩ := h.slot fd d w' m hw' hm
      cases hpc
  · obtain ⟨hlt, hadd, -⟩ := h.submitted sub hsub m hm
    refine ⟨hlt, by simp, fun w' hw' => ?_⟩
    rw [hput, if_pos ⟨rfl, rfl⟩] at hw'
    cases hw'
    rw [hw]
    simpa using hadd

/-- The fiber goes on while it is registered nowhere. -/
theorem move (h : Waiting c pc waits io) (hpc : ∀ k, pc ≠ .hold k) (hwaits : waits ≤ waits')
    (hadd : ∀ k < waits, pc' ≠ .add k) : Waiting c pc' waits' io := by
  refine ⟨h.coherent, fun fd d w k hw hk => ?_, fun sub hsub k hk => ?_⟩
  · exact absurd (h.slot fd d w k hw hk).2.2.1 (hpc k)
  · obtain ⟨hlt, -, hslot⟩ := h.submitted sub hsub k hk
    exact ⟨by omega, hadd k hlt, hslot⟩

/-- The fiber is resumed after it was submitted in its wait. -/
theorem resume {k : ℕ} (h : Waiting c (.hold k) waits io) {sub : IOManagerModel.Submission Party}
    (hsub : sub ∈ io.submitted) (hk : sub.fiber = some (.wait k)) :
    Waiting c (.woken k) waits io := by
  refine ⟨h.coherent, fun fd d w m hw hm => ?_, fun sub' hsub' m hm => ?_⟩
  · obtain ⟨rfl, rfl, hpc, -⟩ := h.slot fd d w m hw hm
    cases hpc
    exact absurd hm ((h.submitted sub hsub k hk).2.2 w hw)
  · obtain ⟨hlt, -, hslot⟩ := h.submitted sub' hsub' m hm
    exact ⟨hlt, by simp, hslot⟩

/-- Every call on the IO manager that registers nothing for the fiber. -/
theorem ioStep (h : Waiting c pc waits io) {op : IOManagerModel.Op Party}
    {io' : IOManager Party} (hop : foreign op = true) (hs : DoIoModel.ioStep io op = some io') :
    Waiting c pc waits io' := by
  cases op with
  | addEvent fd event cb self fiber fails =>
      obtain ⟨⟨rt, io₁⟩, hx, rfl⟩ := Option.map_eq_some_iff.mp hs
      obtain ⟨-, rfl⟩ | ⟨d, -, -, hfd, hd, rfl⟩ := h.coherent.addEvent_cases (eq_ok_of_toOption hx)
      · exact h.ensureContext fd
      · refine (h.ensureContext fd).arm hfd hd ?_
        simp only [foreign, Bool.and_eq_true] at hop
        cases cb with
        | none => exact hop.2
        | some x => exact hop.1
  | delEvent fd event fails =>
      obtain ⟨⟨b, io₁⟩, hx, rfl⟩ := Option.map_eq_some_iff.mp hs
      obtain ⟨-, rfl⟩ | ⟨d, -, -, hd, rfl⟩ := h.coherent.delEvent_cases (eq_ok_of_toOption hx)
      · exact h
      · exact h.drop hd
  | cancelEvent fd event fails =>
      obtain ⟨⟨b, io₁⟩, hx, rfl⟩ := Option.map_eq_some_iff.mp hs
      obtain ⟨-, rfl⟩ | ⟨d, -, -, hd, rfl⟩ := h.coherent.cancelEvent_cases (eq_ok_of_toOption hx)
      · exact h
      · exact h.fire hd
  | dispatch r fails =>
      obtain rfl | ⟨hreal, rfl⟩ := h.coherent.dispatch_cases (eq_ok_of_toOption hs)
      · exact h
      · exact IOManager.fireReported_keeps (Waiting c pc waits) (fun _ _ _ h hd => h.fire hd) h
          hreal

end Waiting

/-! ### At the timer manager -/

/-- The callback is not in the task queue and does not run. -/
def Stage.settled (x : Stage) : Bool := x = .idle || x = .finished

/-- The wait the fiber is in. -/
def Pc.wait : Pc → Option ℕ
  | .add k | .hold k | .woken k | .check k | .failed k => some k
  | .entry | .direct | .call | .arm | .returned _ => none

/-- The fiber is in no wait and may still begin one. -/
def Pc.between : Pc → Bool
  | .entry | .call | .arm => true
  | _ => false

/-- A wait of which no callback runs or will be handed out. -/
structure Over (timers : TimerManager) (handle : Option ℕ) (stage : Stage) : Prop where
  settled : stage.settled = true
  retired : ∀ t, handle = some t → Retired timers t

namespace State

structure Timing (s : State) : Prop where
  good : Good s.timers []
  handle : ∀ k t, s.handle k = some t → k < s.waits ∧ t < s.timers.count
  current : ∀ k, s.pc.wait = some k → k + 1 = s.waits
  past : ∀ k, k + 1 < s.waits → Over s.timers (s.handle k) (s.stage k)
  future : ∀ k, s.waits ≤ k → s.stage k = .idle
  between : s.pc.between = true → ∀ k t, s.handle k = some t → Retired s.timers t
  checked : ∀ k, s.pc = .check k → ∀ t, s.handle k = some t → Retired s.timers t
  marked : ∀ k, s.cancelled = some k → k + 1 = s.waits ∧ s.stage k ≠ .idle
  result : s.pc = .returned .timedOut → ∃ k, k + 1 = s.waits ∧ s.stage k ≠ .idle

namespace Timing
variable {s : State}

theorem start : Timing State.start where
  good := Good.new true
  handle := by simp [State.start]
  current := by simp [State.start, Pc.wait]
  past := by simp [State.start]
  future _ _ := rfl
  between := by simp [State.start]
  checked := by simp [State.start]
  marked := by simp [State.start]
  result := by simp [State.start]

/-- A callback that is on its way is that of the latest wait. -/
theorem latest (h : Timing s) {k : ℕ} (hk : (s.stage k).settled = false) : k + 1 = s.waits := by
  by_contra hne
  by_cases hlt : k + 1 < s.waits
  · exact absurd (h.past k hlt).settled (by simp [hk])
  · rw [h.future k (by omega)] at hk
    cases hk

/-- A wait has no timer before it begins. -/
theorem handle_none (h : Timing s) {k : ℕ} (hk : s.waits ≤ k) : s.handle k = none := by
  by_contra hsome
  obtain ⟨t, ht⟩ := Option.ne_none_iff_exists'.mp hsome
  have := (h.handle k t ht).1
  omega

/-- The fiber goes on, but neither ends a wait nor begins one. -/
theorem move (h : Timing s) {pc : Pc} (io : IOManager Party)
    (hwait : ∀ k, pc.wait = some k → s.pc.wait = some k)
    (hbetween : pc.between = true → s.pc.between = true)
    (hcheck : ∀ k, pc ≠ .check k) (hresult : pc ≠ .returned .timedOut) :
    Timing { s with pc, io } where
  good := h.good
  handle := h.handle
  current k hk := h.current k (hwait k hk)
  past := h.past
  future := h.future
  between hpc := h.between (hbetween hpc)
  checked k hk := absurd hk (hcheck k)
  marked := h.marked
  result hpc := absurd hpc hresult

theorem withIo (h : Timing s) (io : IOManager Party) : Timing { s with io } :=
  ⟨h.good, h.handle, h.current, h.past, h.future, h.between, h.checked, h.marked, h.result⟩

/-- A call on the timer manager. What it hands out is queued, and nothing that is over
is handed out. -/
theorem exec (h : Timing s) {op : TimerModel.Op} {m : TimerManager} {out : TimerModel.Output}
    (hexec : TimerModel.exec s.timers op = some (m, out)) :
    Timing { s with
      timers := m
      stage := fun k =>
        if (s.handle k).any fun t => t ∈ out.handedOut then .queued else s.stage k } := by
  have hspec := exec_spec h.good hexec
  have hkeep : ∀ k, Over s.timers (s.handle k) (s.stage k) →
      Over m (s.handle k)
        (if (s.handle k).any fun t => t ∈ out.handedOut then .queued else s.stage k) := by
    intro k hk
    have hnot : ((s.handle k).any fun t => t ∈ out.handedOut) = false := by
      cases ht : s.handle k with
      | none => rfl
      | some t =>
          have hgone := h.good.not_mem_of_retired (hk.retired t ht)
          simpa using fun hmem => hgone (hspec.handed_mem t hmem)
    rw [hnot]
    exact ⟨hk.settled, fun t ht => hspec.stays t (hk.retired t ht)⟩
  have hidle : ∀ k, s.stage k ≠ .idle →
      (if (s.handle k).any fun t => t ∈ out.handedOut then .queued else s.stage k) ≠
        Stage.idle := by
    intro k hk
    split
    · decide
    · exact hk
  refine ⟨hspec.good, fun k t ht => ?_, h.current, fun k hk => hkeep k (h.past k hk),
    fun k hk => ?_, fun hpc => ?_, fun k hk t ht => ?_, fun k hk => ?_, fun hpc => ?_⟩
  · exact ⟨(h.handle k t ht).1, lt_of_lt_of_le (h.handle k t ht).2 hspec.count_le⟩
  · simp only [h.handle_none hk, Option.any_none, Bool.false_eq_true, if_false]
    exact h.future k hk
  · exact fun k t ht => hspec.stays t (h.between hpc k t ht)
  · exact hspec.stays t (h.checked k hk t ht)
  · exact ⟨(h.marked k hk).1, hidle k (h.marked k hk).2⟩
  · obtain ⟨k, hk, hstage⟩ := h.result hpc
    exact ⟨k, hk, hidle k hstage⟩

/-- The next wait begins, when the callbacks of the earlier ones are settled. -/
theorem begin (h : Timing s) (hpc : s.pc.between = true) (hnone : s.cancelled = none)
    (hsettled : ∀ k < s.waits, (s.stage k).settled = true) {m : TimerManager}
    {handle : Option ℕ} (hgood : Good m []) (hcount : s.timers.count ≤ m.count)
    (hstays : ∀ t, Retired s.timers t → Retired m t)
    (hhandle : ∀ t, handle = some t → t < m.count) :
    Timing { s with
      timers := m, pc := .add s.waits, waits := s.waits + 1
      handle := update s.handle s.waits handle } := by
  have hother : ∀ k ≠ s.waits, update s.handle s.waits handle k = s.handle k :=
    fun k hk => update_of_ne hk ..
  refine ⟨hgood, fun k t ht => ?_, fun k hk => ?_, fun k hk => ?_, fun k hk => ?_, ?_, ?_, ?_, ?_⟩
  · by_cases hk : k = s.waits
    · subst hk
      simp only [update_self] at ht
      exact ⟨Nat.lt_succ_self _, hhandle t ht⟩
    · simp only [hother k hk] at ht
      obtain ⟨hlt, hcnt⟩ := h.handle k t ht
      exact ⟨Nat.lt_succ_of_lt hlt, lt_of_lt_of_le hcnt hcount⟩
  · cases hk
    rfl
  · have hlt : k < s.waits := Nat.lt_of_succ_lt_succ hk
    simp only [hother k hlt.ne]
    exact ⟨hsettled k hlt, fun t ht => hstays t (h.between hpc k t ht)⟩
  · exact h.future k (Nat.le_of_succ_le hk)
  · simp [Pc.between]
  · simp
  · simp [hnone]
  · simp

/-- The callback of a wait goes on; it may mark the call. -/
theorem advance (h : Timing s) {k : ℕ} (hk : (s.stage k).settled = false) {x : Stage}
    (hx : x ≠ .idle) {cancelled : Option ℕ} (hc : cancelled = s.cancelled ∨ cancelled = some k) :
    Timing { s.setStage k x with cancelled } := by
  have hlast := h.latest hk
  have hother : ∀ m ≠ k, update s.stage k x m = s.stage m := fun m hm => update_of_ne hm ..
  have hidle : ∀ m, s.stage m ≠ .idle → update s.stage k x m ≠ .idle := by
    intro m hm
    by_cases hmk : m = k
    · rw [hmk, update_self]
      exact hx
    · rw [hother m hmk]
      exact hm
  refine ⟨h.good, h.handle, h.current, fun m hm => ?_, fun m hm => ?_, h.between, h.checked,
    fun m hm => ?_, fun hpc => ?_⟩
  · have hne : m ≠ k := by
      rintro rfl
      exact Nat.lt_irrefl _ (hlast ▸ hm)
    simp only [setStage, hother m hne]
    exact h.past m hm
  · have hle : s.waits ≤ m := hm
    simp only [setStage, hother m (by omega)]
    exact h.future m hle
  · rcases hc with rfl | rfl
    · exact ⟨(h.marked m hm).1, hidle m (h.marked m hm).2⟩
    · cases hm
      exact ⟨hlast, by simpa [setStage] using hx⟩
  · obtain ⟨m, hm, hstage⟩ := h.result hpc
    exact ⟨m, hm, hidle m hstage⟩

/-- `timer->cancel()`. -/
theorem cancelTimer (h : Timing s) {s' : State} {k : ℕ} {pc : Pc}
    (hs : s.cancelTimer k pc = some s') (hwait : ∀ m, pc.wait = some m → m + 1 = s.waits)
    (hbetween : pc.between = false) (hcheck : ∀ m, pc = .check m → m = k)
    (hresult : pc ≠ .returned .timedOut) : Timing s' := by
  unfold State.cancelTimer at hs
  split at hs
  · next hnone =>
      cases hs
      refine ⟨h.good, h.handle, hwait, h.past, h.future, by simp [hbetween], fun m hm t ht => ?_,
        h.marked, fun hpc => absurd hpc hresult⟩
      obtain rfl := hcheck m hm
      exact absurd (hnone.symm.trans ht) (by simp)
  · next t ht =>
      obtain ⟨⟨m, out⟩, hexec, rfl⟩ := Option.map_eq_some_iff.mp hs
      have hspec := exec_spec h.good hexec
      refine ⟨hspec.good, fun k t ht => ?_, hwait, fun k hk => ?_, h.future, by simp [hbetween],
        fun k' hk' t' ht' => ?_, h.marked, fun hpc => absurd hpc hresult⟩
      · exact ⟨(h.handle k t ht).1, lt_of_lt_of_le (h.handle k t ht).2 hspec.count_le⟩
      · exact ⟨(h.past k hk).settled, fun t ht => hspec.stays t ((h.past k hk).retired t ht)⟩
      · obtain rfl := hcheck k' hk'
        obtain rfl : t = t' := Option.some.inj (ht.symm.trans ht')
        exact TimerModel.retired_of_cancel h.good hexec

/-- The wait ends: `cancelled` is tested. -/
theorem check (h : Timing s) {k : ℕ} (hpc : s.pc = .check k) :
    Timing { s with pc := if s.cancelled.isSome then .returned .timedOut else .call } := by
  have hlast : k + 1 = s.waits := h.current k (by rw [hpc]; rfl)
  by_cases hsome : s.cancelled.isSome = true
  · rw [if_pos hsome]
    obtain ⟨m, hm⟩ := Option.isSome_iff_exists.mp hsome
    exact ⟨h.good, h.handle, by simp [Pc.wait], h.past, h.future, by simp [Pc.between], by simp,
      h.marked, fun _ => ⟨m, h.marked m hm⟩⟩
  · rw [if_neg hsome]
    refine ⟨h.good, h.handle, by simp [Pc.wait], h.past, h.future, fun _ m t ht => ?_, by simp,
      h.marked, by simp⟩
    have hlt := (h.handle m t ht).1
    by_cases hmk : m = k
    · subst hmk
      exact h.checked m hpc t ht
    · exact (h.past m (by omega)).retired t ht

end Timing

/-! ### Runs -/

/-- What a timeout may do. The mark was set by the callback of the latest wait; a
callback that is about to cancel the event finds no other wait of the call behind it; and
the call times out only if the timer of its latest wait has expired. -/
structure OwnTimeouts (c : Call) (s : State) : Prop where
  mark : ∀ k, s.cancelled = some k → k + 1 = s.waits
  event : ∀ k m w, s.stage k = .cancelling → s.io.waiter? c.fd c.direction = some w →
    w.handle = .wait m → m = k
  result : s.pc = .returned .timedOut → ∃ k, k + 1 = s.waits ∧ s.stage k ≠ .idle

/-- When a wait begins, no callback of an earlier one is queued or runs, and none has
stored `ETIMEDOUT`. -/
def Settled (s : State) : Label → Prop
  | .arm .. => s.cancelled = none ∧ ∀ k < s.waits, (s.stage k).settled = true
  | _ => True

instance decidableSettled (s : State) : ∀ a, Decidable (s.Settled a)
  | .arm .. => inferInstanceAs
      (Decidable (s.cancelled = none ∧ ∀ k < s.waits, (s.stage k).settled = true))
  | .enter .. | .call _ | .addEvent _ | .resume | .cancelTimer | .check | .timer _ | .lock _
  | .test _ | .mark _ | .cancelEvent .. | .io _ => isTrue trivial

structure Inv (c : Call) (s : State) : Prop where
  waiting : Waiting c s.pc s.waits s.io
  timing : s.Timing

theorem enter_cases (hookEnable : Bool) (fdCtx : Option HookModel.FdCtx) :
    enter hookEnable fdCtx = .direct ∨ enter hookEnable fdCtx = .returned .badFd ∨
      enter hookEnable fdCtx = .call := by
  cases hookEnable with
  | false => exact .inl rfl
  | true =>
      cases fdCtx with
      | none => exact .inl rfl
      | some ctx =>
          simp only [enter, Bool.not_true, Bool.false_eq_true, if_false]
          split_ifs <;> simp

namespace Inv
variable {c : Call} {s : State}

theorem ownTimeouts (h : Inv c s) : s.OwnTimeouts c where
  mark k hk := (h.timing.marked k hk).1
  event k m w hstage hw hm := by
    have hk := h.timing.latest (k := k) (by rw [hstage]; rfl)
    obtain ⟨-, -, hpc, -⟩ := h.waiting.slot _ _ w m hw hm
    have hm := h.timing.current m (by rw [hpc]; rfl)
    omega
  result := h.timing.result

/-- The fiber goes on outside of a wait. -/
theorem move (h : Inv c s) {pc : Pc} (hpc : s.pc.wait = none) (hwait : pc.wait = none)
    (hbetween : pc.between = true → s.pc.between = true) (hresult : pc ≠ .returned .timedOut) :
    Inv c { s with pc } := by
  refine ⟨h.waiting.move ?_ le_rfl ?_, h.timing.move s.io ?_ hbetween ?_ hresult⟩
  · intro k hk
    simp [hk, Pc.wait] at hpc
  · rintro k - rfl
    cases hwait
  · intro k hk
    simp [hwait] at hk
  · rintro k rfl
    cases hwait

theorem arm (h : Inv c s) (hpc : s.pc = .arm) {s' : State} {addr now : ℕ}
    (hg : s.Settled (.arm addr now)) (hs : s.arm c addr now = some s') : Inv c s' := by
  have hbetween : s.pc.between = true := by rw [hpc]; rfl
  have hwaiting : Waiting c (.add s.waits) (s.waits + 1) s.io := by
    refine h.waiting.move (by simp [hpc]) (Nat.le_succ _) ?_
    rintro k hk ⟨⟩
    exact Nat.lt_irrefl _ hk
  unfold State.arm at hs
  dsimp only at hs
  split at hs
  · cases hs
    have hnone : ∀ t, (none : Option ℕ) = some t → t < s.timers.count := by simp
    have htiming := h.timing.begin hbetween hg.1 hg.2 h.timing.good le_rfl (fun _ ht => ht) hnone
    rw [← h.timing.handle_none le_rfl, update_eq_self] at htiming
    exact ⟨hwaiting, htiming⟩
  · obtain ⟨⟨m, out⟩, hexec, rfl⟩ := Option.map_eq_some_iff.mp hs
    have hspec := exec_spec h.timing.good hexec
    refine ⟨hwaiting, h.timing.begin hbetween hg.1 hg.2 hspec.good hspec.count_le hspec.stays ?_⟩
    rintro t ⟨⟩
    cases TimerModel.performed_of_exec hexec with
    | addTimer => exact Nat.lt_succ_self _

theorem addEvent (h : Inv c s) {k : ℕ} (hpc : s.pc = .add k) {s' : State} {fails : Bool}
    (hs : s.addEvent c k fails = some s') : Inv c s' := by
  have hk : k + 1 = s.waits := h.timing.current k (by rw [hpc]; rfl)
  have hwaiting : Waiting c (.add k) s.waits s.io := hpc ▸ h.waiting
  have hwait : s.pc.wait = some k := by rw [hpc]; rfl
  unfold State.addEvent at hs
  split at hs
  · cases hs
  next rt io hadd =>
  cases hs
  obtain ⟨rfl, rfl⟩ | ⟨d, hd, rfl, hfd, hfree, rfl⟩ := hwaiting.coherent.addEvent_cases hadd
  · refine ⟨(hwaiting.ensureContext c.fd).move (by simp) le_rfl (by simp), ?_⟩
    exact h.timing.move _ (fun m hm => hwait.trans hm) (by simp [Pc.between]) (by simp) (by simp)
  · obtain rfl : c.direction = d := by
      cases hc : c.direction <;> cases d <;> simp_all [Direction.event, IOManagerModel.eventRead,
        IOManagerModel.eventWrite]
    refine ⟨(hwaiting.ensureContext c.fd).hold (by omega) hfd hfree rfl, ?_⟩
    exact h.timing.move _ (fun m hm => hwait.trans hm) (by simp [Pc.between]) (by simp) (by simp)

theorem resume (h : Inv c s) {k : ℕ} (hpc : s.pc = .hold k) (hsub : s.submitted k = true) :
    Inv c { s with pc := .woken k } := by
  obtain ⟨sub, hmem, hfiber⟩ := List.any_eq_true.mp hsub
  have hwaiting : Waiting c (.hold k) s.waits s.io := hpc ▸ h.waiting
  have hwait : s.pc.wait = some k := by rw [hpc]; rfl
  refine ⟨hwaiting.resume hmem (by simpa using hfiber), ?_⟩
  exact h.timing.move s.io (fun m hm => hwait.trans hm) (by simp [Pc.between]) (by simp) (by simp)

/-- `timer->cancel()` after the wait, or after a failed `addEvent`. -/
theorem cancelTimer (h : Inv c s) {k : ℕ} {pc : Pc} (hwait : s.pc.wait = some k)
    (hhold : s.pc ≠ .hold k) (hpc : pc = .check k ∨ pc = .returned .addEventFailed) {s' : State}
    (hs : s.cancelTimer k pc = some s') : Inv c s' := by
  have hk : k + 1 = s.waits := h.timing.current k hwait
  have htiming : s'.Timing := by
    refine h.timing.cancelTimer hs (fun m hm => ?_) ?_ (fun m hm => ?_) ?_
    · rcases hpc with rfl | rfl
      · cases hm
        exact hk
      · cases hm
    · rcases hpc with rfl | rfl <;> rfl
    · rcases hpc with rfl | rfl
      · cases hm
        rfl
      · cases hm
    · rcases hpc with rfl | rfl <;> simp
  refine ⟨?_, htiming⟩
  have hwaiting : Waiting c pc s.waits s.io := by
    refine h.waiting.move (fun m hm => ?_) le_rfl (fun m _ => ?_)
    · obtain rfl : m = k := by simpa [hm, Pc.wait] using hwait
      exact hhold hm
    · rcases hpc with rfl | rfl <;> simp
  unfold State.cancelTimer at hs
  split at hs
  · cases hs
    exact hwaiting
  · obtain ⟨r, -, rfl⟩ := Option.map_eq_some_iff.mp hs
    exact hwaiting

theorem check (h : Inv c s) {k : ℕ} (hpc : s.pc = .check k) :
    Inv c { s with pc := if s.cancelled.isSome then .returned .timedOut else .call } := by
  refine ⟨h.waiting.move (by simp [hpc]) le_rfl ?_, h.timing.check hpc⟩
  intro m _
  split <;> simp

/-- A step of the callback of some wait. -/
theorem advance (h : Inv c s) {k : ℕ} (hk : (s.stage k).settled = false) {x : Stage}
    (hx : x ≠ .idle) : Inv c (s.setStage k x) :=
  ⟨h.waiting, h.timing.advance hk hx (.inl rfl)⟩

theorem step (h : Inv c s) {s' : State} {a : Label} (hg : s.Settled a)
    (hs : s.step c a = some s') : Inv c s' := by
  cases a with
  | enter hookEnable fdCtx =>
      simp only [State.step] at hs
      split at hs
      · next hpc =>
          cases hs
          obtain he | he | he := enter_cases hookEnable fdCtx <;> rw [he] <;>
            exact h.move (by rw [hpc]; rfl) rfl (by simp [hpc, Pc.between]) (by simp)
      · cases hs
  | call answer =>
      simp only [State.step] at hs
      split at hs
      · next hpc =>
          cases hs
          exact h.move (by rw [hpc]; rfl) rfl (by simp [Pc.between]) (by simp)
      · next hpc =>
          cases hs
          cases answer <;>
            exact h.move (by rw [hpc]; rfl) rfl (by simp [hpc, Pc.between]) (by simp [onAnswer])
      · cases hs
  | arm addr now =>
      simp only [State.step] at hs
      split at hs
      · next hpc => exact h.arm hpc hg hs
      · cases hs
  | addEvent fails =>
      simp only [State.step] at hs
      split at hs
      · next k hpc => exact h.addEvent hpc hs
      · cases hs
  | resume =>
      simp only [State.step] at hs
      split at hs
      · next k hpc =>
          split at hs
          · next hsub =>
              cases hs
              exact h.resume hpc hsub
          · cases hs
      · cases hs
  | cancelTimer =>
      simp only [State.step] at hs
      split at hs
      · next k hpc =>
          exact h.cancelTimer (k := k) (by rw [hpc]; rfl) (by simp [hpc]) (.inl rfl) hs
      · next k hpc =>
          exact h.cancelTimer (k := k) (by rw [hpc]; rfl) (by simp [hpc]) (.inr rfl) hs
      · cases hs
  | check =>
      simp only [State.step] at hs
      split at hs
      · next k hpc =>
          cases hs
          exact h.check hpc
      · cases hs
  | timer op =>
      simp only [State.step, State.timer] at hs
      split at hs
      · cases hs
      · obtain ⟨⟨m, out⟩, hexec, rfl⟩ := Option.map_eq_some_iff.mp hs
        exact ⟨h.waiting, h.timing.exec hexec⟩
  | lock k =>
      simp only [State.step] at hs
      split at hs
      · next hstage =>
          cases hs
          refine h.advance (by rw [hstage]; rfl) ?_
          split <;> decide
      · cases hs
  | test k =>
      simp only [State.step] at hs
      split at hs
      · next hstage =>
          cases hs
          refine h.advance (by rw [hstage]; rfl) ?_
          split <;> decide
      · cases hs
  | mark k =>
      simp only [State.step] at hs
      split at hs
      · next hstage =>
          cases hs
          exact ⟨h.waiting, h.timing.advance (by rw [hstage]; rfl) (by decide) (.inr rfl)⟩
      · cases hs
  | cancelEvent k fails =>
      simp only [State.step] at hs
      split at hs
      · next hstage =>
          obtain ⟨io, hio, rfl⟩ := Option.map_eq_some_iff.mp hs
          have hadv := h.advance (k := k) (x := .finished) (by rw [hstage]; rfl) (by decide)
          exact ⟨h.waiting.ioStep rfl hio, hadv.timing.withIo io⟩
      · cases hs
  | io op =>
      simp only [State.step] at hs
      split at hs
      · next hop =>
          obtain ⟨io, hio, rfl⟩ := Option.map_eq_some_iff.mp hs
          exact ⟨h.waiting.ioStep hop hio, h.timing.withIo io⟩
      · cases hs

end Inv

theorem inv_start (c : Call) : Inv c start := ⟨Waiting.new c, Timing.start⟩

/-- In every run in which each wait begins after the callbacks of the earlier ones are
settled, the timeouts stay with their own waits. -/
theorem ownTimeouts_of_settled (c : Call) (labels : List Label) (s : State)
    (hsettled : AllSteps (step c) Settled start labels)
    (hrun : run (step c) start labels = some s) : s.OwnTimeouts c :=
  (run_invariant (Inv c) (fun _ _ _ h hg hs => h.step hg hs) (inv_start c) hsettled
    hrun).ownTimeouts

/-- A read on descriptor 3 with a timeout of 100 ms. -/
def readCall : Call := ⟨3, .read, 1, some 100⟩

def blockingSocket : HookModel.FdCtx := { isInit := true, isSocket := true, sysNonblock := true }

/-- The descriptor becomes readable. -/
def readable : Label := .io (.dispatch { fd := 3, epollin := true, epollout := false } false)

/-- The first wait ends with its event, the second with its timer. -/
def secondWaitExpires : List Label :=
  [.enter true (some blockingSocket), .call .again, .arm 16 0, .addEvent false, readable, .resume,
    .cancelTimer, .check, .call .again, .arm 16 50, .addEvent false,
    .timer (.listExpiredCb 150 48 fun _ => 150), .lock 1, .test 1, .mark 1, .cancelEvent 1 false,
    .resume, .cancelTimer, .check]

theorem ownTimeouts_of_settled_second_wait :
    ∃ s, run (step readCall) start secondWaitExpires = some s ∧ s.pc = .returned .timedOut ∧
      s.waits = 2 ∧ s.OwnTimeouts readCall := by
  have hend : (run (step readCall) start secondWaitExpires).map (fun s => (s.pc, s.waits)) =
      some (.returned .timedOut, 2) := by decide
  obtain ⟨s, hs, hfields⟩ := Option.map_eq_some_iff.mp hend
  simp only [Prod.mk.injEq] at hfields
  exact ⟨s, hs, hfields.1, hfields.2, ownTimeouts_of_settled readCall _ s (by decide) hs⟩

/-- The timer of the first wait expires, but the event comes before the callback runs.
The call retries and waits again; then the callback runs. -/
def firstCallbackLate : List Label :=
  [.enter true (some blockingSocket), .call .again, .arm 16 0, .addEvent false,
    .timer (.listExpiredCb 100 48 fun _ => 100), readable, .resume, .cancelTimer, .check,
    .call .again, .arm 32 101, .addEvent false, .lock 0, .test 0, .mark 0]

theorem not_ownTimeouts_late_callback :
    ∃ s s', run (step readCall) start firstCallbackLate = some s ∧
      run (step readCall) s [.cancelEvent 0 false, .resume, .cancelTimer, .check] = some s' ∧
      s.waits = 2 ∧ s.cancelled = some 0 ∧ s.stage 0 = .cancelling ∧
      s.io.waiter? 3 .read = some ⟨1, false, .wait 1⟩ ∧
      s'.pc = .returned .timedOut ∧ s'.waits = 2 ∧ s'.stage 1 = .idle ∧
      ¬ s.OwnTimeouts readCall ∧ ¬ s'.OwnTimeouts readCall := by
  have hend : (run (step readCall) start firstCallbackLate).bind (fun s =>
      (run (step readCall) s [.cancelEvent 0 false, .resume, .cancelTimer, .check]).map
        fun s' => ((s.waits, s.cancelled, s.stage 0, s.io.waiter? 3 .read),
          s'.pc, s'.waits, s'.stage 1)) =
      some ((2, some 0, .cancelling, some ⟨1, false, .wait 1⟩),
        .returned .timedOut, 2, .idle) := rfl
  obtain ⟨s, hs, hrest⟩ := Option.bind_eq_some_iff.mp hend
  obtain ⟨s', hs', hfields⟩ := Option.map_eq_some_iff.mp hrest
  simp only [Prod.mk.injEq] at hfields
  obtain ⟨⟨hwaits, hmark, hstage, hslot⟩, hpc, hwaits', hidle⟩ := hfields
  refine ⟨s, s', hs, hs', hwaits, hmark, hstage, hslot, hpc, hwaits', hidle, fun h => ?_,
    fun h => ?_⟩
  · exact absurd (h.event 0 1 _ hstage hslot rfl) (by decide)
  · obtain ⟨k, hk, hne⟩ := h.result hpc
    obtain rfl : k = 1 := by omega
    exact hne hidle

end State

end Xzmjx.DoIoModel
