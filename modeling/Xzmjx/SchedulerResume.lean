import Xzmjx.SchedulerLedger

/-!
# When the scheduler resumes finished fibers

The scan of the queue passes over fibers that are running and looks at nothing else, and
`resume` asserts no more. A caller who holds a `Fiber::ptr` may submit it at any time and
any number of times, so a fiber can be in the queue when it ends, and is then resumed.

`Orderly` says of each step what keeps this from happening. In runs of such steps no two
threads work on one fiber, and nothing that has ended is pending.
-/
namespace Xzmjx.SchedulerModel
open Function StepSystem

/-- The states in which `resume` goes on with a fiber. -/
def FiberState.live (s : FiberState) : Bool := s = .init || s = .hold || s = .ready

theorem FiberState.live_of_ne {s : FiberState} (hended : s.ended = false) (hne : s ≠ .running) :
    s.live = true := by
  cases s <;> simp_all [FiberState.ended, FiberState.live]

/-- What callers can do: the steps of the scheduler, a submission of any fiber that was ever
constructed, and a slice that ends in any way, registered or not. -/
inductive Action (n : ℕ)
  | step (a : Label n)
  | submitFiber (f : ℕ) (threadId : Option ℕ)
  | finish (t : Fin n) (e : Ending)
  deriving DecidableEq, Repr

namespace State
variable {n : ℕ}

def act (s : State n) : Action n → Option (State n)
  | .step a => s.step a
  | .submitFiber f threadId =>
      if f < s.nextFiber then some (s.enqueue { fiber := some f, threadId }) else none
  | .finish t e =>
      match (s.threads t).pc with
      | .running j k _ => (s.goto t (.running j k (e = .yieldToHold))).finish t e
      | _ => none

/-- `run` calls `resume` on fibers that can go on only. -/
def ResumesLive (s : State n) : Prop :=
  ∀ t j, (s.threads t).pc = .resume j → (s.fibers j.fiber).state.live = true

/-- A slice ends its callback while its fiber is neither queued nor with the event source. -/
def EndsUnqueued (s : State n) (t : Fin n) (e : Ending) : Prop :=
  (e = .returns ∨ e = .throws) → ∀ f ∈ (s.threads t).pc.fiber, f ∉ s.pending

instance (s : State n) (t : Fin n) (e : Ending) : Decidable (s.EndsUnqueued t e) :=
  inferInstanceAs (Decidable (_ → _))

/-- No ended fiber is submitted, no queued fiber ends, and the scan takes a fiber only when
no thread refers to it. -/
def Orderly (s : State n) : Action n → Prop
  | .submitFiber f _ => (s.fibers f).state.ended = false
  | .finish t e | .step (.finish t e) => s.EndsUnqueued t e
  | .step (.advance t) => (s.threads t).pc = .pop → ∀ taken ∈ pick t s.fibers s.queue,
      ∀ f ∈ taken.1.fiber, ∀ t', f ∉ (s.threads t').refs
  | .step _ => True

instance decidableOrderly (s : State n) : ∀ a, Decidable (s.Orderly a)
  | .submitFiber f _ => inferInstanceAs (Decidable ((s.fibers f).state.ended = false))
  | .finish t e | .step (.finish t e) => inferInstanceAs (Decidable (s.EndsUnqueued t e))
  | .step (.advance t) => inferInstanceAs (Decidable ((s.threads t).pc = .pop →
      ∀ taken ∈ pick t s.fibers s.queue, ∀ f ∈ taken.1.fiber, ∀ t', f ∉ (s.threads t').refs))
  | .step (.submitInside ..) | .step (.register _) | .step (.submit _) | .step (.spawn _)
  | .step (.fire _) | .step .stop => isTrue trivial

end State

/-- What the loop knows at this place about the state of its fiber. -/
def Pc.Sound (fibers : ℕ → Fiber) : Pc → Prop
  | .branch task => ∀ f, task.fiber = some f → (fibers f).state.live = true
  | .resume j => (fibers j.fiber).state.live = true
  | .running j _ _ => (fibers j.fiber).state = .running
  | .resubmit j => (fibers j.fiber).state = .ready
  | _ => True

theorem Pc.Sound.congr {fibers fibers' : ℕ → Fiber} {pc : Pc}
    (h : ∀ f, pc.fiber = some f → (fibers' f).state = (fibers f).state) (hs : pc.Sound fibers) :
    pc.Sound fibers' := by
  cases pc with
  | branch task =>
      intro f hf
      rw [h f hf]
      exact hs f hf
  | resume j => exact (congrArg FiberState.live (h _ rfl)).trans hs
  | running j k waits => exact (h _ rfl).trans hs
  | resubmit j => exact (h _ rfl).trans hs
  | pop | yielding | switched | check | checkTerm | checkExcept | recycle | wait | left =>
      exact hs

namespace State
variable {n : ℕ}

/-- No two threads refer to one fiber, and nothing that has ended is pending. -/
structure Clean (s : State n) : Prop where
  exclusive : ∀ t t' f, f ∈ (s.threads t).refs → f ∈ (s.threads t').refs → t = t'
  separate : ∀ t f, (s.threads t).taskFb = some f → (s.threads t).pc.fiber ≠ some f
  allocated : ∀ t, ∀ f ∈ (s.threads t).refs, f < s.nextFiber
  sound : ∀ t, (s.threads t).pc.Sound s.fibers
  pending : ∀ f ∈ s.pending, f < s.nextFiber ∧ (s.fibers f).state.ended = false

theorem clean_start (n : ℕ) : (start n).Clean := by
  refine ⟨?_, ?_, ?_, fun t => trivial, ?_⟩ <;> simp [start, State.pending, Pc.fiber]

theorem Clean.not_mem_refs {s : State n} (h : s.Clean) {t t' : Fin n} (ht : t' ≠ t) {f : ℕ}
    (hf : f ∈ (s.threads t).refs) : f ∉ (s.threads t').refs :=
  fun hf' => ht (h.exclusive t' t f hf' hf)

/-- A step of the environment: the threads and the fibers there are stay as they were. -/
theorem Clean.environment {s s' : State n} (h : s.Clean) (hthreads : s'.threads = s.threads)
    (hnext : s.nextFiber ≤ s'.nextFiber)
    (hstate : ∀ f < s.nextFiber, (s'.fibers f).state = (s.fibers f).state)
    (hpending : ∀ f ∈ s'.pending, f < s'.nextFiber ∧ (s'.fibers f).state.ended = false) :
    s'.Clean := by
  refine ⟨?_, ?_, fun t f hf => ?_, fun t => ?_, hpending⟩
  · rw [hthreads]
    exact h.exclusive
  · rw [hthreads]
    exact h.separate
  · rw [hthreads] at hf
    exact (h.allocated t f hf).trans_le hnext
  · rw [hthreads]
    exact (h.sound t).congr fun f hf => hstate f (h.allocated t f (by simp [hf]))

/-- A step of one thread: it leaves the fibers of the others alone. -/
theorem Clean.update {s s' : State n} (h : s.Clean) {t : Fin n} {th : Thread}
    (hthreads : s'.threads = Function.update s.threads t th)
    (hnext : s.nextFiber ≤ s'.nextFiber)
    (hrefs : ∀ f ∈ th.refs, f < s'.nextFiber ∧ ∀ t' ≠ t, f ∉ (s.threads t').refs)
    (hseparate : ∀ f, th.taskFb = some f → th.pc.fiber ≠ some f)
    (hsound : th.pc.Sound s'.fibers)
    (hstate : ∀ t' ≠ t, ∀ f ∈ (s.threads t').refs, (s'.fibers f).state = (s.fibers f).state)
    (hpending : ∀ f ∈ s'.pending, f < s'.nextFiber ∧ (s'.fibers f).state.ended = false) :
    s'.Clean := by
  have hself : s'.threads t = th := by rw [hthreads, update_self]
  have hothers : ∀ t' ≠ t, s'.threads t' = s.threads t' := by
    intro t' ht'
    rw [hthreads, update_of_ne ht']
  have hcases (P : Fin n → Prop) (ht : P t) (hne : ∀ t' ≠ t, P t') : ∀ t', P t' := fun t' =>
    if he : t' = t then he ▸ ht else hne t' he
  refine ⟨fun a b f ha hb => ?_, ?_, ?_, ?_, hpending⟩
  · by_contra hab
    by_cases hat : a = t
    · subst hat
      rw [hself] at ha
      rw [hothers b (Ne.symm hab)] at hb
      exact (hrefs f ha).2 b (Ne.symm hab) hb
    · rw [hothers a hat] at ha
      by_cases hbt : b = t
      · subst hbt
        rw [hself] at hb
        exact (hrefs f hb).2 a hat ha
      · rw [hothers b hbt] at hb
        exact hab (h.exclusive a b f ha hb)
  · refine hcases _ ?_ fun t' ht' => ?_
    · rw [hself]
      exact hseparate
    · rw [hothers t' ht']
      exact h.separate t'
  · refine hcases _ ?_ fun t' ht' => ?_
    · rw [hself]
      exact fun f hf => (hrefs f hf).1
    · rw [hothers t' ht']
      exact fun f hf => (h.allocated t' f hf).trans_le hnext
  · refine hcases _ ?_ fun t' ht' => ?_
    · rw [hself]
      exact hsound
    · rw [hothers t' ht']
      exact (h.sound t').congr fun f hf => hstate t' ht' f (by simp [hf])

/-- A step of one thread on to another place, with the same fiber or with none; the state of
that fiber may change, and it may have become pending. -/
theorem Clean.goto {s s' : State n} (h : s.Clean) {t : Fin n} {pc : Pc}
    (hthreads : s'.threads = Function.update s.threads t { s.threads t with pc })
    (hnext : s'.nextFiber = s.nextFiber)
    (hfiber : ∀ f, pc.fiber = some f → (s.threads t).pc.fiber = some f)
    (hsound : pc.Sound s'.fibers)
    (hstate : ∀ f, (s.threads t).pc.fiber ≠ some f → (s'.fibers f).state = (s.fibers f).state)
    (hpending : ∀ f ∈ s'.pending, f ∈ s.pending ∨ (s.threads t).pc.fiber = some f)
    (hended : ∀ f ∈ s'.pending, (s.threads t).pc.fiber = some f →
      (s'.fibers f).state.ended = false) : s'.Clean := by
  have hrefs : ∀ f, ({ s.threads t with pc } : Thread).taskFb = some f ∨ pc.fiber = some f →
      f ∈ (s.threads t).refs := fun f hf =>
    (Thread.mem_refs _ _).mpr (hf.imp id (hfiber f))
  refine h.update hthreads hnext.ge ?_ ?_ hsound ?_ ?_
  · intro f hf
    have hf := hrefs f ((Thread.mem_refs _ _).mp hf)
    exact ⟨hnext ▸ h.allocated t f hf, fun t' ht' => h.not_mem_refs ht' hf⟩
  · intro f hf hpc
    exact h.separate t f hf (hfiber f hpc)
  · intro t' ht' f hf
    refine hstate f fun hpc => h.not_mem_refs ht' ?_ hf
    simp [hpc]
  · intro f hf
    by_cases hpc : (s.threads t).pc.fiber = some f
    · exact ⟨hnext ▸ h.allocated t f (by simp [hpc]), hended f hf hpc⟩
    · obtain ⟨hlt, hold⟩ := h.pending f ((hpending f hf).resolve_right hpc)
      exact ⟨hnext ▸ hlt, by rw [hstate f hpc]; exact hold⟩

/-- The fibers and the queue are as they were. -/
theorem Clean.carry {s s' : State n} (h : s.Clean) {t : Fin n} {pc : Pc}
    (hthreads : s'.threads = Function.update s.threads t { s.threads t with pc })
    (hfibers : s'.fibers = s.fibers) (hnext : s'.nextFiber = s.nextFiber)
    (hpending : s'.pending = s.pending)
    (hfiber : ∀ f, pc.fiber = some f → (s.threads t).pc.fiber = some f)
    (hsound : pc.Sound s.fibers) : s'.Clean := by
  refine h.goto hthreads hnext hfiber (hfibers ▸ hsound) ?_ ?_ ?_
  · intro f _
    rw [hfibers]
  · intro f hf
    exact .inl (hpending ▸ hf)
  · intro f hf _
    rw [hfibers]
    exact (h.pending f (hpending ▸ hf)).2

theorem mem_pending_of_pick {s : State n} {t : Fin n} {task : Task} {rest : List Task}
    (hpick : pick t s.fibers s.queue = some (task, rest)) :
    (∀ f, task.fiber = some f → f ∈ s.pending) ∧
      ∀ f ∈ State.pending { s with queue := rest }, f ∈ s.pending := by
  obtain ⟨hmem, hsub⟩ := mem_of_pick hpick
  constructor
  · intro f hf
    exact List.mem_append_left _ (List.mem_filterMap.mpr ⟨task, hmem, hf⟩)
  · intro f hf
    rcases List.mem_append.mp hf with hq | hsrc
    · obtain ⟨x, hx, hxf⟩ := List.mem_filterMap.mp hq
      exact List.mem_append_left _ (List.mem_filterMap.mpr ⟨x, hsub x hx, hxf⟩)
    · exact List.mem_append_right _ hsrc

/-- The scan takes a fiber that is pending, hence has not ended, and that is not running. -/
theorem Clean.take {s : State n} (h : s.Clean) {t : Fin n} {task : Task} {rest : List Task}
    (hpick : pick t s.fibers s.queue = some (task, rest))
    (hfree : ∀ f ∈ task.fiber, ∀ t', f ∉ (s.threads t').refs) :
    ({ s with queue := rest }.goto t (.branch task)).Clean := by
  obtain ⟨htask, hrest⟩ := mem_pending_of_pick hpick
  refine h.update rfl le_rfl ?_ ?_ ?_ (fun _ _ _ _ => rfl) fun f hf => h.pending f (hrest f hf)
  · intro f hf
    rcases (Thread.mem_refs _ _).mp hf with hfb | hfiber
    · have hown : f ∈ (s.threads t).refs := (Thread.mem_refs _ _).mpr (.inl hfb)
      exact ⟨h.allocated t f hown, fun t' ht' => h.not_mem_refs ht' hown⟩
    · exact ⟨(h.pending f (htask f hfiber)).1, fun t' _ => hfree f hfiber t'⟩
  · intro f hfb hfiber
    exact hfree f hfiber t ((Thread.mem_refs _ _).mpr (.inl hfb))
  · intro f hf
    have hne : (s.fibers f).state ≠ .running := by
      obtain ⟨helig, -⟩ := pick_eq_some hpick
      simp only [eligible, hf, Option.all_some, Bool.and_eq_true, decide_eq_true_eq] at helig
      exact helig.2
    exact FiberState.live_of_ne (h.pending f (htask f hf)).2 hne

/-- The callback branch with an idle `task_fb`. -/
theorem Clean.reuse {s : State n} (h : s.Clean) {t : Fin n} {f active : ℕ} (cb : Option ℕ)
    (hf : (s.threads t).taskFb = some f) :
    (({ s with active }.setFiber f { cb }).setThread t
      { s.threads t with pc := .resume ⟨true, f, none⟩, taskFb := none }).Clean := by
  have hown : f ∈ (s.threads t).refs := by simp [hf]
  refine h.update rfl le_rfl ?_ (by simp) ?_ ?_ ?_
  · intro g hg
    obtain rfl : f = g := by simpa [Pc.fiber] using hg
    exact ⟨h.allocated t f hown, fun t' ht' => h.not_mem_refs ht' hown⟩
  · simp [Pc.Sound, FiberState.live]
  · intro t' ht' g hg
    have hne : g ≠ f := fun he => h.not_mem_refs ht' hown (he ▸ hg)
    simp [hne]
  · intro g hg
    obtain ⟨hlt, hended⟩ := h.pending g hg
    refine ⟨hlt, ?_⟩
    by_cases hgf : g = f
    · simp [hgf, FiberState.ended]
    · simpa [hgf] using hended

/-- The callback branch with a new `task_fb`. -/
theorem Clean.construct {s : State n} (h : s.Clean) {t : Fin n} {active : ℕ} (cb : Option ℕ)
    (hf : (s.threads t).taskFb = none) :
    ({ s.setFiber s.nextFiber { cb } with active, nextFiber := s.nextFiber + 1 }.goto t
      (.resume ⟨true, s.nextFiber, none⟩)).Clean := by
  refine h.update rfl (Nat.le_succ _) ?_ ?_ ?_ ?_ ?_
  · intro g hg
    obtain rfl : s.nextFiber = g := by simpa [Pc.fiber, hf] using hg
    refine ⟨Nat.lt_succ_self _, fun t' _ hg' => ?_⟩
    exact lt_irrefl _ (h.allocated t' _ hg')
  · simp [hf]
  · simp [Pc.Sound, FiberState.live]
  · intro t' _ g hg
    have hne : g ≠ s.nextFiber := (h.allocated t' g hg).ne
    simp [hne]
  · intro g hg
    obtain ⟨hlt, hended⟩ := h.pending g hg
    exact ⟨Nat.lt_succ_of_lt hlt, by simpa [hlt.ne] using hended⟩

/-- A step that stores a state in the fiber of the thread. -/
theorem Clean.store {s s' : State n} (h : s.Clean) {t : Fin n} {pc : Pc} {f : ℕ} {fb : Fiber}
    (hpc : (s.threads t).pc.fiber = some f)
    (hthreads : s'.threads = Function.update s.threads t { s.threads t with pc })
    (hnext : s'.nextFiber = s.nextFiber) (hpending : s'.pending = s.pending)
    (hfibers : s'.fibers = Function.update s.fibers f fb)
    (hfiber : pc.fiber = some f) (hsound : pc.Sound s'.fibers)
    (hended : f ∈ s.pending → fb.state.ended = false) : s'.Clean := by
  refine h.goto hthreads hnext ?_ hsound ?_ ?_ ?_
  · intro g hg
    rw [hpc, ← hfiber]
    exact hg
  · intro g hg
    have hne : g ≠ f := by
      rintro rfl
      exact hg hpc
    rw [hfibers, update_of_ne hne]
  · intro g hg
    exact .inl (hpending ▸ hg)
  · intro g hg hgf
    obtain rfl := Option.some.inj (hpc.symm.trans hgf)
    rw [hfibers, update_self]
    exact hended (hpending ▸ hg)

/-- `submit` of a fiber that was found ready. -/
theorem Clean.resubmit {s : State n} (h : s.Clean) {t : Fin n} {j : Job}
    (hpc : (s.threads t).pc = .resubmit j) :
    ((s.enqueue { fiber := some j.fiber, threadId := j.threadId }).goto t .pop).Clean := by
  have hready : (s.fibers j.fiber).state = .ready := by
    have hsound := h.sound t
    rw [hpc] at hsound
    exact hsound
  refine h.goto rfl rfl (by simp [Pc.fiber]) trivial (fun _ _ => rfl) ?_ ?_
  · intro f hf
    have hf : f ∈ (s.enqueue { fiber := some j.fiber, threadId := j.threadId }).pending := hf
    rw [(perm_pending_enqueue _ _).mem_iff] at hf
    rw [hpc]
    simpa [Pc.fiber, or_comm, eq_comm] using hf
  · intro f _ hf
    rw [hpc] at hf
    obtain rfl := Option.some.inj hf
    simp [hready, FiberState.ended]

/-- `task_fb->reset(nullptr)`: the fiber is the idle one again. -/
theorem Clean.recycle {s : State n} (h : s.Clean) {t : Fin n} {j : Job}
    (hpc : (s.threads t).pc = .recycle j) :
    ((s.setFiber j.fiber {}).setThread t
      { s.threads t with pc := .pop, taskFb := some j.fiber }).Clean := by
  have hown : j.fiber ∈ (s.threads t).refs := by simp [hpc, Pc.fiber]
  refine h.update rfl le_rfl ?_ (by simp [Pc.fiber]) trivial ?_ ?_
  · intro g hg
    obtain rfl : j.fiber = g := by simpa [Pc.fiber] using hg
    exact ⟨h.allocated t _ hown, fun t' ht' => h.not_mem_refs ht' hown⟩
  · intro t' ht' g hg
    have hne : g ≠ j.fiber := fun he => h.not_mem_refs ht' hown (he ▸ hg)
    simp [hne]
  · intro g hg
    obtain ⟨hlt, hended⟩ := h.pending g hg
    refine ⟨hlt, ?_⟩
    by_cases hgf : g = j.fiber
    · simp [hgf, FiberState.ended]
    · simpa [hgf] using hended

/-- A step that lets go of the fiber of the thread, if there is one. -/
theorem Clean.drop {s : State n} (h : s.Clean) {t : Fin n} {pc : Pc} (hpc : pc.fiber = none)
    (hsound : pc.Sound s.fibers) : (s.goto t pc).Clean :=
  h.carry rfl rfl rfl rfl (by simp [hpc]) hsound

/-- A step on with the fiber that the thread has. -/
theorem Clean.keep {s : State n} (h : s.Clean) {t : Fin n} {pc pc' : Pc}
    (hpc : (s.threads t).pc = pc) (hfiber : pc'.fiber = pc.fiber) (hsound : pc'.Sound s.fibers) :
    (s.goto t pc').Clean := by
  refine h.carry rfl rfl rfl rfl (fun f hf => ?_) hsound
  rw [hpc, ← hfiber]
  exact hf

theorem Clean.advance {s s' : State n} (h : s.Clean) {t : Fin n}
    (hord : s.Orderly (.step (.advance t))) (hs : s.advance t = some s') : s'.Clean := by
  have hsound := h.sound t
  cases advances_of_advance hs with
  | idle hpc hpick => exact h.drop rfl trivial
  | @take task rest hpc hpick => exact h.take hpick (hord hpc (task, rest) hpick)
  | @branchFiber task f hpc hf =>
      rw [hpc] at hsound
      refine h.carry rfl rfl rfl rfl ?_ (hsound f hf)
      rw [hpc]
      exact fun g hg => hf.trans hg
  | reuse hpc hnone hcb hf hreset => exact h.reuse _ hf
  | construct hpc hnone hcb hf => exact h.construct _ hf
  | @resume j hpc hstate =>
      refine h.store (by rw [hpc]; rfl) rfl rfl rfl rfl rfl ?_ fun _ => rfl
      simp [Pc.Sound, State.goto]
  | @switch j k hpc =>
      refine h.store (by rw [hpc]; rfl) rfl rfl rfl rfl rfl trivial fun hp => ?_
      exact (h.pending _ hp).2
  | lower hpc => exact h.carry rfl rfl rfl rfl (by rw [hpc]; exact fun g hg => hg) trivial
  | ready hpc hstate => exact h.keep hpc rfl hstate
  | notReady hpc hstate =>
      split
      · exact h.keep hpc rfl trivial
      · exact h.drop rfl trivial
  | resubmit hpc => exact h.resubmit hpc
  | checkTerm hpc =>
      split
      · exact h.keep hpc rfl trivial
      · exact h.keep hpc rfl trivial
  | checkExcept hpc =>
      split
      · exact h.keep hpc rfl trivial
      · exact h.drop rfl trivial
  | recycle hpc hreset => exact h.recycle hpc
  | leave hpc hterm => exact h.drop rfl trivial
  | terminate hpc hcan =>
      refine h.update rfl le_rfl ?_ (by simp [Pc.fiber]) trivial (fun _ _ _ _ => rfl) h.pending
      intro f hf
      have hown : f ∈ (s.threads t).refs := by
        simp only [Thread.mem_refs, Pc.fiber, reduceCtorEq, or_false] at hf
        simp [hf]
      exact ⟨h.allocated t f hown, fun t' ht' => h.not_mem_refs ht' hown⟩
  | again hpc => exact h.drop rfl trivial

theorem Clean.finish {s s' : State n} (h : s.Clean) {t : Fin n} {e : Ending}
    (hord : s.EndsUnqueued t e) (hs : s.finish t e = some s') : s'.Clean := by
  have hfiber : ∀ {j : Job} {k : ℕ} {waits : Bool}, (s.threads t).pc = .running j k waits →
      (s.threads t).pc.fiber = some j.fiber := fun hpc => by rw [hpc]; rfl
  cases finishes_of_finish hs with
  | returns hpc =>
      refine h.store (hfiber hpc) rfl rfl rfl rfl rfl trivial fun hp => ?_
      exact absurd hp (hord (.inl rfl) _ (hfiber hpc))
  | throws hpc =>
      refine h.store (hfiber hpc) rfl rfl rfl rfl rfl trivial fun hp => ?_
      exact absurd hp (hord (.inr rfl) _ (hfiber hpc))
  | yieldToReady hpc | yieldToHold hpc =>
      exact h.store (hfiber hpc) rfl rfl rfl rfl rfl trivial fun _ => rfl

/-- The fiber on the thread is handed to an event source, or the flag for it is set. -/
theorem Clean.stay {s s' : State n} (h : s.Clean) {t : Fin n} {j : Job} {k : ℕ} {w w' : Bool}
    (hpc : (s.threads t).pc = .running j k w)
    (hthreads : s'.threads = Function.update s.threads t
      { s.threads t with pc := .running j k w' })
    (hfibers : s'.fibers = s.fibers) (hnext : s'.nextFiber = s.nextFiber)
    (hpending : ∀ f ∈ s'.pending, f ∈ s.pending ∨ f = j.fiber) : s'.Clean := by
  have hrunning : (s.fibers j.fiber).state = .running := by
    have hsound := h.sound t
    rw [hpc] at hsound
    exact hsound
  refine h.goto hthreads hnext (by rw [hpc]; exact fun f hf => hf) (hfibers ▸ hrunning) ?_ ?_ ?_
  · intro f _
    rw [hfibers]
  · intro f hf
    rw [hpc]
    exact (hpending f hf).imp_right fun he => congrArg some he.symm
  · intro f _ hf
    rw [hpc] at hf
    obtain rfl := Option.some.inj hf
    rw [hfibers, hrunning]
    rfl

/-- A task is put into the queue whose fiber, if it has one, has not ended. -/
theorem Clean.enqueue {s : State n} (h : s.Clean) {task : Task}
    (hfiber : ∀ f, task.fiber = some f →
      f < s.nextFiber ∧ (s.fibers f).state.ended = false) : (s.enqueue task).Clean := by
  refine h.environment rfl le_rfl (fun _ _ => rfl) fun f hf => ?_
  rw [(perm_pending_enqueue _ _).mem_iff, List.mem_append, Option.mem_toList] at hf
  exact hf.elim (hfiber f) (h.pending f)

theorem Clean.submitCb {s : State n} (h : s.Clean) (threadId : Option ℕ) :
    (s.submitCb threadId).Clean := by
  have hqueued : (s.enqueue { taskCb := some s.nextCb, threadId }).Clean := h.enqueue (by simp)
  exact hqueued.environment rfl le_rfl (fun _ _ => rfl) hqueued.pending

/-- A fiber is constructed for a new callback and submitted. -/
theorem Clean.spawn {s : State n} (h : s.Clean) (threadId : Option ℕ) :
    ({ s.setFiber s.nextFiber { cb := some s.nextCb } with
      nextFiber := s.nextFiber + 1, nextCb := s.nextCb + 1 }.enqueue
        { fiber := some s.nextFiber, threadId }).Clean := by
  have hnew : ({ s.setFiber s.nextFiber { cb := some s.nextCb } with
      nextFiber := s.nextFiber + 1, nextCb := s.nextCb + 1 } : State n).Clean := by
    refine h.environment rfl (Nat.le_succ _) ?_ ?_
    · intro f hf
      simp [hf.ne]
    · intro f hf
      obtain ⟨hlt, hended⟩ := h.pending f hf
      exact ⟨Nat.lt_succ_of_lt hlt, by simpa [hlt.ne] using hended⟩
  refine hnew.enqueue fun f hf => ?_
  obtain rfl := Option.some.inj hf
  exact ⟨Nat.lt_succ_self _, by simp [FiberState.ended]⟩

/-- An event source submits a fiber that was registered with it. -/
theorem Clean.fire {s : State n} (h : s.Clean) {f : ℕ} (hsource : f ∈ s.source) :
    ({ s with source := s.source.erase f }.enqueue { fiber := some f }).Clean := by
  have hless : ({ s with source := s.source.erase f } : State n).Clean := by
    refine h.environment rfl le_rfl (fun _ _ => rfl) fun g hg => h.pending g ?_
    rcases List.mem_append.mp hg with hq | hg
    · exact List.mem_append_left _ hq
    · exact List.mem_append_right _ (List.mem_of_mem_erase hg)
  refine hless.enqueue fun g hg => ?_
  obtain rfl := Option.some.inj hg
  exact h.pending f (List.mem_append_right _ hsource)

theorem Clean.step {s s' : State n} (h : s.Clean) {a : Label n}
    (hord : s.Orderly (.step a)) (hs : s.step a = some s') : s'.Clean := by
  cases steps_of_step hs with
  | advance hs => exact h.advance hord hs
  | submitInside threadId hpc => exact h.submitCb threadId
  | register hpc =>
      refine h.stay hpc rfl rfl rfl fun f hf => ?_
      simp only [State.pending, State.goto, State.setThread, List.mem_append,
        List.mem_cons] at hf ⊢
      tauto
  | finish hs => exact h.finish hord hs
  | submit threadId => exact h.submitCb threadId
  | spawn threadId => exact h.spawn threadId
  | fire hsource => exact h.fire hsource
  | stop => exact h.environment rfl le_rfl (fun _ _ => rfl) h.pending

theorem act_clean (s : State n) (a : Action n) (s' : State n) (h : s.Clean)
    (hord : s.Orderly a) (hs : s.act a = some s') : s'.Clean := by
  cases a with
  | step a => exact h.step hord hs
  | submitFiber f threadId =>
      simp only [State.act] at hs
      split at hs
      · next hlt =>
          obtain rfl := Option.some.inj hs
          refine h.enqueue fun g hg => ?_
          obtain rfl := Option.some.inj hg
          exact ⟨hlt, hord⟩
      · cases hs
  | finish t e =>
      simp only [State.act] at hs
      split at hs
      · next j k waits hpc =>
          have hstay : (s.goto t (.running j k (e = .yieldToHold))).Clean :=
            h.stay hpc rfl rfl rfl fun f hf => .inl hf
          refine hstay.finish (fun he f hf => ?_) hs
          refine hord he f ?_
          rw [hpc]
          simpa [State.goto, Pc.fiber] using hf
      · cases hs

/-- When no finished fiber is resumed. In every run, with any number of threads and in any
interleaving, in which no ended fiber is submitted, no callback ends while its fiber is
queued, and no fiber is taken from the queue while a thread refers to it: wherever `run` is
about to call `resume`, the fiber is in `FIBER_INIT`, `FIBER_HOLD` or `FIBER_READY`. -/
theorem orderly_runs_resume_live (n : ℕ) (acts : List (Action n))
    (hord : AllSteps State.act State.Orderly (start n) acts) (s : State n)
    (hrun : run State.act (start n) acts = some s) : s.ResumesLive := by
  intro t j hpc
  have hsound := (run_invariant State.Clean act_clean (clean_start n) hord hrun).sound t
  rw [hpc] at hsound
  exact hsound

/-- A fiber that was submitted twice, yields to hold and is about to be resumed again. -/
def twiceToHold : List (Action 1) :=
  [.step (.spawn none), .submitFiber 0 none, .step (.advance 0), .step (.advance 0),
    .step (.advance 0), .finish 0 .yieldToHold, .step (.advance 0), .step (.advance 0),
    .step (.advance 0), .step (.advance 0), .step (.advance 0)]

theorem orderly_runs_resume_live_twice :
    ∃ s, run State.act (start 1) twiceToHold = some s ∧
      (s.threads 0).pc = .resume ⟨false, 0, none⟩ ∧ (s.fibers 0).state = .hold ∧
      s.ResumesLive := by
  have hpc : (run State.act (start 1) twiceToHold).map
      (fun s => ((s.threads 0).pc, (s.fibers 0).state)) =
      some (.resume ⟨false, 0, none⟩, .hold) := by decide
  obtain ⟨s, hs, heq⟩ := Option.map_eq_some_iff.mp hpc
  obtain ⟨hpc, hstate⟩ := Prod.mk.inj heq
  exact ⟨s, hs, hpc, hstate, orderly_runs_resume_live 1 twiceToHold (by decide) s hs⟩

/-- The same fiber, submitted twice, returns at its first turn: the scan takes it out of the
queue again, and `resume` switches to a context that has come to its end. -/
theorem finished_fiber_resumed :
    ∃ s, run State.act (start 1)
        [.step (.spawn none), .submitFiber 0 none, .step (.advance 0), .step (.advance 0),
          .step (.advance 0), .finish 0 .returns, .step (.advance 0), .step (.advance 0),
          .step (.advance 0), .step (.advance 0), .step (.advance 0)] = some s ∧
      (s.threads 0).pc = .resume ⟨false, 0, none⟩ ∧ (s.fibers 0).state = .term ∧
      (s.act (.step (.advance 0))).map (fun s => (s.threads 0).pc) =
        some (.running ⟨false, 0, none⟩ 1 false) ∧
      ¬s.ResumesLive := by
  have hpc : (run State.act (start 1)
      [.step (.spawn none), .submitFiber 0 none, .step (.advance 0), .step (.advance 0),
        .step (.advance 0), .finish 0 .returns, .step (.advance 0), .step (.advance 0),
        .step (.advance 0), .step (.advance 0), .step (.advance 0)]).map
      (fun s => ((s.threads 0).pc, (s.fibers 0).state,
        (s.act (.step (.advance 0))).map fun s => (s.threads 0).pc)) =
      some (.resume ⟨false, 0, none⟩, .term, some (.running ⟨false, 0, none⟩ 1 false)) := by
    decide
  obtain ⟨s, hs, heq⟩ := Option.map_eq_some_iff.mp hpc
  obtain ⟨hpc, heq⟩ := Prod.mk.inj heq
  obtain ⟨hstate, hnext⟩ := Prod.mk.inj heq
  refine ⟨s, hs, hpc, hstate, hnext, fun hlive => ?_⟩
  have := hlive 0 _ hpc
  rw [hstate] at this
  cases this

end State

end Xzmjx.SchedulerModel
