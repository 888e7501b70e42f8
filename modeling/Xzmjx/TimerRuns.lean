import Xzmjx.TimerInvariant
import Mathlib.Data.List.Count
import Mathlib.Data.List.Nodup

/-!
# Timer bookkeeping over whole runs

`CallSpec` says what one call does to the bookkeeping, whichever call it is. A
timer is retired once its callback is gone; a retired timer stays retired, is
never handed out, and every call on it returns false and changes nothing.
-/
namespace Xzmjx.TimerModel
open OrderedSet

/-- The timer has been constructed and its callback is gone. -/
def Retired (m : TimerManager) (t : ℕ) : Prop := t < m.count ∧ (m.timer t).cb = none

/-- The effect of one call on the bookkeeping. -/
structure CallSpec (m : TimerManager) (op : Op) (m' : TimerManager) (out : Output) : Prop where
  good : Good m' []
  count_le : m.count ≤ m'.count
  recurring : ∀ u < m.count, (m'.timer u).recurring = (m.timer u).recurring
  stays : ∀ u, Retired m u → Retired m' u
  answer : ∀ t, op.target = some t → out = .result (decide (t ∈ m.timers))
  silent : ∀ t, Retired m t → op.target = some t → m'.timers = m.timers
  handed_nodup : out.handedOut.Nodup
  handed_mem : ∀ t ∈ out.handedOut, t ∈ m.timers
  handed_once : ∀ t ∈ out.handedOut, (m.timer t).recurring = false → Retired m' t
  cancelled : ∀ t, op = .cancel t → out = .result true → Retired m' t

variable {m : TimerManager}

theorem Good.not_mem_of_retired (h : Good m []) {t : ℕ} (ht : Retired m t) : t ∉ m.timers := by
  rw [h.mem_timers_iff ht.1]
  exact not_not.mpr ht.2

/-- Calls that find the callback gone. -/
theorem CallSpec.refused (h : Good m []) {op : Op} {t : ℕ}
    (hop : op.target = some t) (hnot : t ∉ m.timers) :
    CallSpec m op m (.result false) where
  good := h
  count_le := Nat.le_refl _
  recurring _ _ := rfl
  stays _ hu := hu
  answer u hu := by
    obtain rfl := Option.some.inj (hop.symm.trans hu)
    simp [hnot]
  silent _ _ _ := rfl
  handed_nodup := List.nodup_nil
  handed_mem := by simp [Output.handedOut]
  handed_once := by simp [Output.handedOut]
  cancelled := by simp

/-- Calls that give a timer of the set new fields and answer true. -/
theorem CallSpec.updated (h : Good m []) {op : Op} {t : ℕ} {m' : TimerManager} {x : Timer}
    (hop : op.target = some t) (hmem : t ∈ m.timers) (hgood : Good m' [])
    (hcount : m'.count = m.count) (htimer : m'.timer = Function.update m.timer t x)
    (hrec : x.recurring = (m.timer t).recurring) (hcancel : op = .cancel t → x.cb = none) :
    CallSpec m op m' (.result true) where
  good := hgood
  count_le := Nat.le_of_eq hcount.symm
  recurring u _ := by
    rw [htimer]
    by_cases hu : u = t
    · subst hu
      simpa using hrec
    · simp [hu]
  stays u hu := by
    have hne : u ≠ t := fun he => h.not_mem_of_retired hu (he ▸ hmem)
    exact ⟨hcount ▸ hu.1, by rw [htimer, Function.update_of_ne hne]; exact hu.2⟩
  answer u hu := by
    obtain rfl := Option.some.inj (hop.symm.trans hu)
    simp [hmem]
  silent u hu hu' := by
    obtain rfl := Option.some.inj (hop.symm.trans hu')
    exact absurd hmem (h.not_mem_of_retired hu)
  handed_nodup := List.nodup_nil
  handed_mem := by simp [Output.handedOut]
  handed_once := by simp [Output.handedOut]
  cancelled u hu _ := by
    obtain rfl : t = u := by
      rw [hu] at hop
      exact (Option.some.inj hop).symm
    have hlt := h.alloc t (Or.inr hmem)
    exact ⟨hcount ▸ hlt, by rw [htimer, Function.update_self]; exact hcancel hu⟩

theorem cancel_spec (h : Good m []) {t : ℕ} (ht : t < m.count) :
    CallSpec m (.cancel t) (m.cancel t).2 (.result (m.cancel t).1) := by
  unfold TimerManager.cancel
  by_cases hmem : t ∈ m.timers
  · have hcb := (h.mem_timers_iff ht).mp hmem
    have hlt := TimerManager.setTimer_cb_lt (m := m) (t := t) none
    have hfind : (m.setTimer t { m.timer t with cb := none }).find t = some t := by
      unfold TimerManager.find
      rw [hlt]
      exact h.find_eq hmem
    have hswap : (m.setTimer t { m.timer t with cb := none }).erase t =
        (m.erase t).setTimer t { (m.erase t).timer t with cb := none } := by
      simp only [TimerManager.erase, hlt]
      rfl
    simp only [if_neg hcb, hfind, Option.isSome_some, if_true]
    rw [hswap]
    exact CallSpec.updated h rfl hmem (h.take hmem).retire rfl rfl rfl fun _ => rfl
  · rw [if_pos (h.cb_eq_none ht hmem)]
    exact CallSpec.refused h rfl hmem

theorem refresh_spec (h : Good m []) {t : ℕ} (ht : t < m.count) (now : ℕ) :
    CallSpec m (.refresh t now) (m.refresh t now).2 (.result (m.refresh t now).1) := by
  unfold TimerManager.refresh
  by_cases hmem : t ∈ m.timers
  · have hcb := (h.mem_timers_iff ht).mp hmem
    simp only [if_neg hcb, h.find_eq hmem, Option.isSome_some, if_true]
    exact CallSpec.updated h rfl hmem ((h.take hmem).putBack rfl hcb) rfl rfl rfl (by simp)
  · rw [if_pos (h.cb_eq_none ht hmem)]
    exact CallSpec.refused h rfl hmem

theorem reset_spec (h : Good m []) {t : ℕ} (ht : t < m.count) (ms : ℕ) (fromNow : Bool)
    (now : ℕ) :
    CallSpec m (.reset t ms fromNow now) (m.reset t ms fromNow now).2.2
      (.result (m.reset t ms fromNow now).1) := by
  unfold TimerManager.reset
  by_cases hmem : t ∈ m.timers
  · have hcb := (h.mem_timers_iff ht).mp hmem
    simp only [if_neg hcb, h.find_eq hmem, Option.isSome_some, if_true]
    exact CallSpec.updated h rfl hmem ((h.take hmem).putBack rfl hcb) rfl rfl rfl (by simp)
  · rw [if_pos (h.cb_eq_none ht hmem)]
    exact CallSpec.refused h rfl hmem

theorem addTimer_spec (h : Good m []) {addr ms : ℕ} {cb : Callback} {recurring : Bool} {now : ℕ}
    (hfresh : addr ∉ m.timers.map fun t => (m.timer t).addr) :
    CallSpec m (.addTimer addr ms cb recurring now) (m.addTimer addr ms cb recurring now).2
      (.added m.count) where
  good := by
    refine h.enlist (by simp) fun u hu he => hfresh ?_
    exact List.mem_map.mpr ⟨u, hu, he⟩
  count_le := Nat.le_succ _
  recurring u hu := by
    have hne : u ≠ m.count := Nat.ne_of_lt hu
    simp [TimerManager.addTimer, TimerManager.addTimerLocked, hne]
  stays u hu := by
    have hne : u ≠ m.count := Nat.ne_of_lt hu.1
    refine ⟨Nat.lt_succ_of_lt hu.1, ?_⟩
    simpa [TimerManager.addTimer, TimerManager.addTimerLocked, hne] using hu.2
  answer := by simp [Op.target]
  silent := by simp [Op.target]
  handed_nodup := List.nodup_nil
  handed_mem := by simp [Output.handedOut]
  handed_once := by simp [Output.handedOut]
  cancelled := by simp

/-- One round of the loop: the timer's callback is handed out, and the timer goes
back into the set or is retired. -/
theorem fire_spec {t : ℕ} {out : List ℕ} (h : Good m (t :: out)) (now : ℕ) :
    Good (m.fire t now).2 out ∧ (m.fire t now).1.map Prod.fst = [t] ∧
      (m.fire t now).2.count = m.count ∧ (∀ u ≠ t, (m.fire t now).2.timer u = m.timer u) ∧
      ((m.fire t now).2.timer t).recurring = (m.timer t).recurring ∧
      ((m.timer t).recurring = false → ((m.fire t now).2.timer t).cb = none) := by
  have hcb : (m.timer t).cb ≠ none :=
    (h.armed t (h.alloc t (Or.inl List.mem_cons_self))).mp (Or.inl List.mem_cons_self)
  obtain ⟨cb, hsome⟩ := Option.ne_none_iff_exists'.mp hcb
  unfold TimerManager.fire
  cases hrec : (m.timer t).recurring with
  | true =>
      simp only [if_true, hsome]
      refine ⟨h.putBack rfl (by simp), rfl, rfl, fun u hu => ?_, ?_, by simp⟩
      · simp [hu]
      · simp [hrec]
  | false =>
      simp only [Bool.false_eq_true, if_false, hsome]
      refine ⟨h.retire, rfl, rfl, fun u hu => ?_, ?_, fun _ => ?_⟩
      · simp [hu]
      · simp [hrec]
      · simp

/-- The loop hands out the callbacks of exactly the timers it was given, in order. -/
theorem fireAll_spec (ts : List ℕ) (clock : ℕ → ℕ) (h : Good m ts) :
    Good (m.fireAll ts clock).2 [] ∧ (m.fireAll ts clock).1.map Prod.fst = ts ∧
      (m.fireAll ts clock).2.count = m.count ∧
      (∀ u ∉ ts, (m.fireAll ts clock).2.timer u = m.timer u) ∧
      (∀ u, ((m.fireAll ts clock).2.timer u).recurring = (m.timer u).recurring) ∧
      (∀ u ∈ ts, (m.timer u).recurring = false → ((m.fireAll ts clock).2.timer u).cb = none) := by
  induction ts generalizing m clock with
  | nil => exact ⟨h, rfl, rfl, fun _ _ => rfl, fun _ => rfl, by simp⟩
  | cons t ts ih =>
      obtain ⟨hgood, hcbs, hcount, hother, hrec, honce⟩ := fire_spec h (clock 0)
      obtain ⟨ihgood, ihcbs, ihcount, ihother, ihrec, ihonce⟩ := ih (fun i => clock (i + 1)) hgood
      have hnot : t ∉ ts := (List.nodup_cons.mp h.nodup).1
      simp only [TimerManager.fireAll]
      refine ⟨ihgood, ?_, ihcount.trans hcount, ?_, ?_, ?_⟩
      · rw [List.map_append, hcbs, ihcbs]
        rfl
      · intro u hu
        obtain ⟨hut, huts⟩ := not_or.mp (fun hc => hu (List.mem_cons.mpr hc))
        rw [ihother u huts, hother u hut]
      · intro u
        rw [ihrec u]
        by_cases hut : u = t
        · subst hut
          exact hrec
        · rw [hother u hut]
      · intro u hu hfalse
        rcases List.mem_cons.mp hu with rfl | huts
        · rw [ihother u hnot]
          exact honce hfalse
        · have hut : u ≠ t := fun he => hnot (he ▸ huts)
          exact ihonce u huts (by rw [hother u hut]; exact hfalse)

/-- The timers taken out and those left are the set, cut in two. -/
theorem expire_append (m : TimerManager) (now nowAddr : ℕ) :
    (m.expire now nowAddr).1 ++ (m.expire now nowAddr).2 = m.timers := by
  simp [TimerManager.expire, List.takeWhile_append_dropWhile]

theorem Placed.expire (h : Placed m []) (now nowAddr : ℕ) :
    Placed { m with timers := (m.expire now nowAddr).2 } (m.expire now nowAddr).1 := by
  have hsplit := expire_append m now nowAddr
  have hnodup := h.ordered.nodup m.lt_strict
  have hord := h.ordered
  rw [← hsplit] at hnodup
  rw [Ordered, ← hsplit] at hord
  have hall (u : ℕ) (hu : u ∈ (m.expire now nowAddr).1 ∨ u ∈ (m.expire now nowAddr).2) :
      u ∈ ([] : List ℕ) ∨ u ∈ m.timers := by
    rw [← hsplit, List.mem_append]
    exact Or.inr hu
  have hnod := List.nodup_append.mp hnodup
  refine ⟨(List.pairwise_append.mp hord).2.1, hnod.1, ?_, ?_⟩
  · intro t ht hc
    exact hnod.2.2 t ht t hc rfl
  · intro a b ha hb
    exact h.addr a b (hall a ha) (hall b hb)

theorem Good.expire (h : Good m []) (now nowAddr : ℕ) :
    Good { m with timers := (m.expire now nowAddr).2 } (m.expire now nowAddr).1 := by
  have hplaced := h.placed.expire now nowAddr
  have hall (u : ℕ) : (u ∈ (m.expire now nowAddr).1 ∨ u ∈ (m.expire now nowAddr).2) ↔
      (u ∈ ([] : List ℕ) ∨ u ∈ m.timers) := by
    conv_rhs => rw [← expire_append m now nowAddr, List.mem_append]
    simp
  refine ⟨hplaced.ordered, hplaced.nodup, hplaced.apart, hplaced.addr, ?_, ?_⟩
  · exact fun t ht => h.alloc t ((hall t).mp ht)
  · intro t ht
    rw [hall]
    exact h.armed t ht

theorem listExpiredCb_spec (h : Good m []) (now nowAddr : ℕ) (clock : ℕ → ℕ) :
    CallSpec m (.listExpiredCb now nowAddr clock) (m.listExpiredCb now nowAddr clock).2
      (.expired (m.listExpiredCb now nowAddr clock).1) := by
  have hexp := h.expire now nowAddr
  obtain ⟨hgood, hcbs, hcount, hother, hrec, honce⟩ := fireAll_spec _ clock hexp
  have hsub : ∀ u ∈ (m.expire now nowAddr).1, u ∈ m.timers := by
    intro u hu
    rw [← expire_append m now nowAddr]
    exact List.mem_append_left _ hu
  have hhanded : Output.handedOut (.expired (m.listExpiredCb now nowAddr clock).1) =
      (m.expire now nowAddr).1 := hcbs
  refine ⟨hgood, Nat.le_of_eq hcount.symm, fun u _ => hrec u, ?_, by simp [Op.target],
    by simp [Op.target], ?_, ?_, ?_, by simp⟩
  · intro u hu
    have hnot : u ∉ (m.expire now nowAddr).1 :=
      fun hc => h.not_mem_of_retired hu (hsub u hc)
    exact ⟨hcount.symm ▸ hu.1, (congrArg Timer.cb (hother u hnot)).trans hu.2⟩
  · rw [hhanded]
    exact hexp.nodup
  · rw [hhanded]
    exact hsub
  · rw [hhanded]
    intro u hu hfalse
    exact ⟨hcount.symm ▸ hexp.alloc u (Or.inl hu), honce u hu hfalse⟩

/-- What a call does that can be made. -/
inductive Performed (m : TimerManager) : Op → TimerManager → Output → Prop
  | addTimer {addr ms now : ℕ} {cb : Callback} {recurring : Bool}
      (hfresh : addr ∉ m.timers.map fun t => (m.timer t).addr) :
      Performed m (.addTimer addr ms cb recurring now) (m.addTimer addr ms cb recurring now).2
        (.added m.count)
  | cancel {t : ℕ} (ht : t < m.count) :
      Performed m (.cancel t) (m.cancel t).2 (.result (m.cancel t).1)
  | refresh {t now : ℕ} (ht : t < m.count) :
      Performed m (.refresh t now) (m.refresh t now).2 (.result (m.refresh t now).1)
  | reset {t ms now : ℕ} {fromNow : Bool} (ht : t < m.count) :
      Performed m (.reset t ms fromNow now) (m.reset t ms fromNow now).2.2
        (.result (m.reset t ms fromNow now).1)
  | listExpiredCb {now nowAddr : ℕ} {clock : ℕ → ℕ} :
      Performed m (.listExpiredCb now nowAddr clock) (m.listExpiredCb now nowAddr clock).2
        (.expired (m.listExpiredCb now nowAddr clock).1)

theorem performed_of_exec {op : Op} {m' : TimerManager} {out : Output}
    (hexec : exec m op = some (m', out)) : Performed m op m' out := by
  cases op with
  | addTimer addr ms cb recurring now =>
      simp only [exec] at hexec
      split_ifs at hexec with hin
      obtain ⟨rfl, rfl⟩ := Prod.mk.inj (Option.some.inj hexec)
      exact .addTimer hin
  | cancel t =>
      simp only [exec] at hexec
      split_ifs at hexec with ht
      obtain ⟨rfl, rfl⟩ := Prod.mk.inj (Option.some.inj hexec)
      exact .cancel ht
  | refresh t now =>
      simp only [exec] at hexec
      split_ifs at hexec with ht
      obtain ⟨rfl, rfl⟩ := Prod.mk.inj (Option.some.inj hexec)
      exact .refresh ht
  | reset t ms fromNow now =>
      simp only [exec] at hexec
      split_ifs at hexec with ht
      obtain ⟨rfl, rfl⟩ := Prod.mk.inj (Option.some.inj hexec)
      exact .reset ht
  | listExpiredCb now nowAddr clock =>
      obtain ⟨rfl, rfl⟩ := Prod.mk.inj (Option.some.inj hexec)
      exact .listExpiredCb

/-- Every call, from any state between calls. -/
theorem exec_spec (h : Good m []) {op : Op} {m' : TimerManager} {out : Output}
    (hexec : exec m op = some (m', out)) : CallSpec m op m' out := by
  cases performed_of_exec hexec with
  | addTimer hfresh => exact addTimer_spec h hfresh
  | cancel ht => exact cancel_spec h ht
  | refresh ht => exact refresh_spec h ht _
  | reset ht => exact reset_spec h ht _ _ _
  | listExpiredCb => exact listExpiredCb_spec h _ _ _

/-- After `cancel` the callback is gone, whatever the call returned. -/
theorem retired_of_cancel (h : Good m []) {t : ℕ} {m' : TimerManager} {out : Output}
    (hexec : exec m (.cancel t) = some (m', out)) : Retired m' t := by
  have hspec := exec_spec h hexec
  by_cases hmem : t ∈ m.timers
  · exact hspec.cancelled t rfl (by simpa [hmem] using hspec.answer t rfl)
  · cases performed_of_exec hexec with
    | cancel ht => exact hspec.stays t ⟨ht, h.cb_eq_none ht hmem⟩

/-- A call neither hands out the timer's callback nor, when made on the timer,
answers true or changes the set. -/
def SilentFor (t : ℕ) (m : TimerManager) (op : Op) : Prop :=
  ∀ m' out, exec m op = some (m', out) → t ∉ out.handedOut ∧
    (op.target = some t → out = .result false ∧ m'.timers = m.timers)

theorem step_exec {op : Op} {m' : TimerManager} (hstep : step m op = some m') :
    ∃ out, exec m op = some (m', out) := by
  obtain ⟨⟨m₁, out⟩, hexec, rfl⟩ := Option.map_eq_some_iff.mp hstep
  exact ⟨out, hexec⟩

theorem performed_of_step {op : Op} {m' : TimerManager} (hstep : step m op = some m') :
    ∃ out, Performed m op m' out := by
  obtain ⟨out, hexec⟩ := step_exec hstep
  exact ⟨out, performed_of_exec hexec⟩

theorem silentFor_of_retired (h : Good m []) {t : ℕ} (ht : Retired m t) (op : Op) :
    SilentFor t m op := by
  intro m' out hexec
  have hspec := exec_spec h hexec
  have hnot := h.not_mem_of_retired ht
  refine ⟨fun hc => hnot (hspec.handed_mem t hc), fun hop => ⟨?_, hspec.silent t ht hop⟩⟩
  rw [hspec.answer t hop]
  simp [hnot]

/-- Once retired, a timer is silent for the rest of the run. -/
theorem allSteps_silent {t : ℕ} (ops : List Op) (h : Good m []) (ht : Retired m t) :
    StepSystem.AllSteps step (SilentFor t) m ops := by
  induction ops generalizing m with
  | nil => trivial
  | cons op ops ih =>
      refine ⟨silentFor_of_retired h ht op, fun m' hstep => ?_⟩
      obtain ⟨out, hexec⟩ := step_exec hstep
      have hspec := exec_spec h hexec
      exact ih hspec.good (hspec.stays t ht)

theorem run_good {m' : TimerManager} {ops : List Op} (h : Good m [])
    (hrun : StepSystem.run step m ops = some m') : Good m' [] := by
  refine StepSystem.run_preserves (Good · []) (fun m op m₁ h hstep => ?_) h hrun
  obtain ⟨out, hexec⟩ := step_exec hstep
  exact (exec_spec h hexec).good

theorem run_recurring {m' : TimerManager} {ops : List Op} (h : Good m [])
    (hrun : StepSystem.run step m ops = some m') {t : ℕ} (ht : t < m.count) :
    (m'.timer t).recurring = (m.timer t).recurring := by
  induction ops generalizing m with
  | nil => rw [Option.some.inj hrun]
  | cons op ops ih =>
      obtain ⟨m₁, hstep, hrest⟩ := StepSystem.run_cons.mp hrun
      obtain ⟨out, hexec⟩ := step_exec hstep
      have hspec := exec_spec h hexec
      rw [ih hspec.good hrest (Nat.lt_of_lt_of_le ht hspec.count_le), hspec.recurring t ht]

/-- The timers handed out by the calls of a run, in order. -/
def handedOut (m : TimerManager) (ops : List Op) : List ℕ :=
  (outputs m ops).flatMap Output.handedOut

theorem handedOut_cons {op : Op} {ops : List Op} {m' : TimerManager} {out : Output}
    (hexec : exec m op = some (m', out)) :
    handedOut m (op :: ops) = out.handedOut ++ handedOut m' ops := by
  simp [handedOut, outputs, hexec]

theorem handedOut_of_retired {t : ℕ} (ops : List Op) (h : Good m []) (ht : Retired m t) :
    t ∉ handedOut m ops := by
  induction ops generalizing m with
  | nil => simp [handedOut, outputs]
  | cons op ops ih =>
      cases hexec : exec m op with
      | none => simp [handedOut, outputs, hexec]
      | some r =>
          have hspec := exec_spec h hexec
          rw [handedOut_cons hexec, List.mem_append, not_or]
          exact ⟨(silentFor_of_retired h ht op _ _ hexec).1, ih hspec.good (hspec.stays t ht)⟩

/-- A one-shot timer's callback is handed out at most once in a run. -/
theorem handedOut_count_le {m' : TimerManager} {ops : List Op} (h : Good m [])
    (hrun : StepSystem.run step m ops = some m') {t : ℕ}
    (hone : (m'.timer t).recurring = false) : (handedOut m ops).count t ≤ 1 := by
  induction ops generalizing m with
  | nil => simp [handedOut, outputs]
  | cons op ops ih =>
      obtain ⟨m₁, hstep, hrest⟩ := StepSystem.run_cons.mp hrun
      obtain ⟨out, hexec⟩ := step_exec hstep
      have hspec := exec_spec h hexec
      rw [handedOut_cons hexec, List.count_append]
      by_cases hnow : t ∈ out.handedOut
      · have hlt : t < m.count := h.alloc t (Or.inr (hspec.handed_mem t hnow))
        have hrec : (m.timer t).recurring = false := by
          rw [← run_recurring h hrun hlt]
          exact hone
        have hlater := handedOut_of_retired ops hspec.good (hspec.handed_once t hnow hrec)
        rw [List.count_eq_zero_of_not_mem hlater]
        exact List.nodup_iff_count_le_one.mp hspec.handed_nodup t
      · rw [List.count_eq_zero_of_not_mem hnow, Nat.zero_add]
        exact ih hspec.good hrest

theorem comparator_iff (a b : Timer) :
    comparator a b = true ↔ a.next < b.next ∨ a.next = b.next ∧ a.addr < b.addr := by
  unfold comparator
  split_ifs <;> simp <;> omega

/-- Timer bookkeeping over whole runs. After every sequence of calls, with
whatever clock readings: the set is strictly ordered by the current deadlines and
addresses and holds no timer twice; a call on a timer answers true exactly when
the timer is in the set; a one-shot timer was handed out at most once; and from
the call on in which a timer was cancelled, or handed out as a one-shot, it is
never handed out again and no call on it answers true or changes the set. -/
theorem timer_bookkeeping (front : Bool) (ops : List Op) (m : TimerManager)
    (hrun : StepSystem.run step (TimerManager.new front) ops = some m) :
    m.timers.Pairwise (fun a b => (m.timer a).next < (m.timer b).next ∨
      (m.timer a).next = (m.timer b).next ∧ (m.timer a).addr < (m.timer b).addr) ∧
    m.timers.Nodup ∧
    (∀ t < m.count, ((m.cancel t).1 = true ↔ t ∈ m.timers) ∧
      (∀ now, (m.refresh t now).1 = true ↔ t ∈ m.timers) ∧
      ∀ ms fromNow now, (m.reset t ms fromNow now).1 = true ↔ t ∈ m.timers) ∧
    (∀ t, (m.timer t).recurring = false →
      (handedOut (TimerManager.new front) ops).count t ≤ 1) ∧
    (∀ before op after t m₁ m₂ out, ops = before ++ op :: after →
      StepSystem.run step (TimerManager.new front) before = some m₁ →
      exec m₁ op = some (m₂, out) →
      (op = .cancel t ∧ out = .result true ∨
        t ∈ out.handedOut ∧ (m₁.timer t).recurring = false) →
      StepSystem.AllSteps step (SilentFor t) m₂ after) := by
  have h := run_good (Good.new front) hrun
  refine ⟨?_, h.timers_nodup, ?_, fun t => handedOut_count_le (Good.new front) hrun, ?_⟩
  · exact List.Pairwise.imp (fun hab => (comparator_iff _ _).mp hab) h.ordered
  · intro t ht
    have answer {op : Op} {ok : Bool} {m' : TimerManager} (hop : op.target = some t)
        (hspec : CallSpec m op m' (.result ok)) : ok = true ↔ t ∈ m.timers := by
      rw [Output.result.inj (hspec.answer t hop), decide_eq_true_eq]
    exact ⟨answer rfl (cancel_spec h ht), fun now => answer rfl (refresh_spec h ht now),
      fun ms fromNow now => answer rfl (reset_spec h ht ms fromNow now)⟩
  · rintro before op after t m₁ m₂ out rfl hbefore hexec hretire
    have h₁ := run_good (Good.new front) hbefore
    have hspec := exec_spec h₁ hexec
    refine allSteps_silent after hspec.good ?_
    rcases hretire with ⟨rfl, rfl⟩ | ⟨hmem, hone⟩
    · exact hspec.cancelled t rfl rfl
    · exact hspec.handed_once t hmem hone

/-- A one-shot and a recurring timer expire together; the recurring one is then
cancelled, and nothing is left to expire. -/
theorem timer_bookkeeping_two_timers :
    ∃ m, StepSystem.run step (TimerManager.new true)
        [.addTimer 16 5 1 false 0, .addTimer 32 5 2 true 0, .listExpiredCb 5 48 (fun _ => 6),
          .cancel 1, .listExpiredCb 100 48 (fun _ => 100)] = some m ∧
      handedOut (TimerManager.new true)
        [.addTimer 16 5 1 false 0, .addTimer 32 5 2 true 0, .listExpiredCb 5 48 (fun _ => 6),
          .cancel 1, .listExpiredCb 100 48 (fun _ => 100)] = [0, 1] ∧
      m.timers.Nodup ∧ ((m.cancel 1).1 = true ↔ 1 ∈ m.timers) := by
  obtain ⟨m, hrun⟩ : ∃ m, StepSystem.run step (TimerManager.new true)
      [.addTimer 16 5 1 false 0, .addTimer 32 5 2 true 0, .listExpiredCb 5 48 (fun _ => 6),
        .cancel 1, .listExpiredCb 100 48 (fun _ => 100)] = some m := ⟨_, rfl⟩
  have hcount : m.count = 2 := by
    obtain rfl := Option.some.inj hrun
    rfl
  have h := timer_bookkeeping true _ m hrun
  exact ⟨m, hrun, by decide, h.2.1, (h.2.2.1 1 (by omega)).1⟩

end Xzmjx.TimerModel
