import Xzmjx.SchedulerLedger

/-!
# Thread affinity

A task that was submitted for a thread carries the number of the thread through the
queue and the local `task` of the loop. The fiber branch submits a ready fiber again
with `task.threadId`; the callback branch has called `task.reset()` by then, so the
number is lost there. `Affine` follows one callback through all the places its task
can be in.
-/
namespace Xzmjx.SchedulerModel
open Function StepSystem

/-- The task is the callback `c`, or a fiber that carries it. -/
def Task.Of (c : ℕ) (fibers : ℕ → Fiber) (task : Task) : Prop :=
  match task.fiber with
  | some f => (fibers f).cb = some c
  | none => task.taskCb = some c

/-- The thread is inside a fiber that it runs from the callback branch. -/
def Pc.insideOwn : Pc → Option ℕ
  | .running j _ _ => if j.own then some j.fiber else none
  | _ => none

/-- What the loop of thread `t` keeps about the callback `c` that was submitted for
thread `i`: it is on that thread, and unless it came from the callback branch the number
of the thread is still known. In the callback branch it is not found ready. -/
def Pc.Bound (c i : ℕ) (fibers : ℕ → Fiber) (t : ℕ) : Pc → Prop
  | .branch task => task.Of c fibers → t = i ∧ task.threadId = some i
  | .resume j | .running j _ _ =>
      (fibers j.fiber).cb = some c → t = i ∧ (j.own = false → j.threadId = some i)
  | .yielding j _ | .switched j | .check j =>
      (fibers j.fiber).cb = some c → t = i ∧ (j.own = false → j.threadId = some i) ∧
        (j.own = true → (fibers j.fiber).state ≠ .ready)
  | .resubmit j => (fibers j.fiber).cb = some c → j.threadId = some i
  | .pop | .checkTerm _ | .checkExcept _ | .recycle _ | .wait | .left => True

variable {c i : ℕ}

theorem Task.Of.congr {fibers fibers' : ℕ → Fiber} {task : Task}
    (hf : ∀ f, task.fiber = some f → (fibers' f).cb = some c → (fibers f).cb = some c)
    (h : task.Of c fibers') : task.Of c fibers := by
  unfold Task.Of at h ⊢
  split at h
  · next f hfiber => exact hf f hfiber h
  · exact h

theorem Pc.Bound.congr {fibers fibers' : ℕ → Fiber} {t : ℕ} {pc : Pc}
    (hf : ∀ f, pc.fiber = some f → fibers' f = fibers f) (h : pc.Bound c i fibers t) :
    pc.Bound c i fibers' t := by
  cases pc with
  | branch task => exact fun hof => h (hof.congr fun f hfiber hcb => hf f hfiber ▸ hcb)
  | pop | checkTerm | checkExcept | recycle | wait | left => trivial
  | _ =>
      simp only [Pc.Bound, hf _ rfl]
      exact h

namespace State
variable {n : ℕ}

/-- The callback of the fiber, if there is a fiber. -/
def cbOf (s : State n) (f : Option ℕ) : Option ℕ := f.bind fun f => (s.fibers f).cb

/-- Only thread `i` is inside a fiber with the callback `c`. -/
def ExecutesOn (c i : ℕ) (s : State n) : Prop :=
  ∀ t, s.cbOf (s.threads t).pc.inside = some c → t.val = i

/-- The submission with number `c` is made for thread `i`. -/
def SubmittedFor (c i : ℕ) (s : State n) : Label n → Prop
  | .submit threadId | .spawn threadId | .submitInside _ threadId =>
      s.nextCb = c → threadId = some i
  | _ => True

/-- The callback `c` registers with no event source, so that only the scheduler queues
it again. -/
def RequeuedByScheduler (c : ℕ) (s : State n) : Label n → Prop
  | .register t => s.cbOf (s.threads t).pc.inside ≠ some c
  | _ => True

/-- The callback `c` does not yield to `FIBER_READY` while it runs from the callback
branch. -/
def KeepsTask (c : ℕ) (s : State n) : Label n → Prop
  | .finish t .yieldToReady => s.cbOf (s.threads t).pc.insideOwn ≠ some c
  | _ => True

instance decidableSubmittedFor (c i : ℕ) (s : State n) : ∀ a, Decidable (s.SubmittedFor c i a)
  | .submit threadId | .spawn threadId | .submitInside _ threadId =>
      inferInstanceAs (Decidable (s.nextCb = c → threadId = some i))
  | .advance _ | .register _ | .finish .. | .fire _ | .stop => isTrue trivial

instance decidableRequeued (c : ℕ) (s : State n) : ∀ a, Decidable (s.RequeuedByScheduler c a)
  | .register t => inferInstanceAs (Decidable (s.cbOf (s.threads t).pc.inside ≠ some c))
  | .advance _ | .submitInside .. | .finish .. | .submit _ | .spawn _ | .fire _ | .stop =>
      isTrue trivial

instance decidableKeepsTask (c : ℕ) (s : State n) : ∀ a, Decidable (s.KeepsTask c a)
  | .finish t .yieldToReady =>
      inferInstanceAs (Decidable (s.cbOf (s.threads t).pc.insideOwn ≠ some c))
  | .finish _ .returns | .finish _ .throws | .finish _ .yieldToHold | .advance _
  | .submitInside .. | .register _ | .submit _ | .spawn _ | .fire _ | .stop => isTrue trivial

instance decidableExecutesOn (c i : ℕ) (s : State n) : Decidable (s.ExecutesOn c i) :=
  inferInstanceAs (Decidable (∀ t, s.cbOf (s.threads t).pc.inside = some c → t.val = i))

/-- The callback `c` is submitted for thread `i` and re-queued by the scheduler only; it
does not yield from the callback branch, and the run takes no fiber out of the queue that
another thread still works on. -/
structure Pinned (c i : ℕ) (s : State n) (a : Label n) : Prop where
  submitted : s.SubmittedFor c i a
  requeued : s.RequeuedByScheduler c a
  keeps : s.KeepsTask c a
  released : s.Released a

instance decidablePinned (c i : ℕ) (s : State n) (a : Label n) : Decidable (s.Pinned c i a) :=
  decidable_of_iff
    (s.SubmittedFor c i a ∧ s.RequeuedByScheduler c a ∧ s.KeepsTask c a ∧ s.Released a)
    ⟨fun ⟨h₁, h₂, h₃, h₄⟩ => ⟨h₁, h₂, h₃, h₄⟩, fun ⟨h₁, h₂, h₃, h₄⟩ => ⟨h₁, h₂, h₃, h₄⟩⟩

structure Affine (c i : ℕ) (s : State n) : Prop where
  custody : s.Custody
  queue : ∀ task ∈ s.queue, task.Of c s.fibers → task.threadId = some i
  source : ∀ f ∈ s.source, (s.fibers f).cb ≠ some c
  threads : ∀ t, (s.threads t).pc.Bound c i s.fibers t

theorem affine_start (n : ℕ) : (start n).Affine c i :=
  ⟨custody_start n, by simp [start], by simp [start], fun _ => trivial⟩

theorem Affine.executesOn {s : State n} (h : s.Affine c i) : s.ExecutesOn c i := by
  intro t ht
  obtain ⟨f, hinside, hcb⟩ := Option.bind_eq_some_iff.mp ht
  have hbound := h.threads t
  cases hpc : (s.threads t).pc with
  | running j k waits =>
      rw [hpc] at hinside hbound
      cases hinside
      exact (hbound hcb).1
  | yielding j k =>
      rw [hpc] at hinside hbound
      cases hinside
      exact (hbound hcb).1
  | _ =>
      rw [hpc] at hinside
      cases hinside

theorem Affine.bound_at {s : State n} (h : s.Affine c i) {t : Fin n} {pc : Pc}
    (hpc : (s.threads t).pc = pc) : pc.Bound c i s.fibers t := hpc ▸ h.threads t

/-- A step of one thread: what it puts into the queue keeps the number of the thread, and
the pending fibers get no new callback. -/
theorem Affine.turn {s s' : State n} (h : s.Affine c i) (hc : s'.Custody) {t : Fin n}
    {th : Thread} (hthreads : s'.threads = Function.update s.threads t th)
    (htouch : s.Touches s' t)
    (hcb : ∀ f ∈ s.pending, (s'.fibers f).cb = some c → (s.fibers f).cb = some c)
    (hqueue : ∀ task ∈ s'.queue,
      task ∈ s.queue ∨ (task.Of c s'.fibers → task.threadId = some i))
    (hsource : ∀ f ∈ s'.source, f ∈ s.source ∨ (s'.fibers f).cb ≠ some c)
    (hpc : th.pc.Bound c i s'.fibers t) : s'.Affine c i := by
  refine ⟨hc, fun task ht => ?_, fun f hf => ?_, fun t' => ?_⟩
  · rcases hqueue task ht with hold | hnew
    · intro hof
      exact h.queue task hold (hof.congr fun f hf => hcb f (mem_pending hold hf))
    · exact hnew
  · rcases hsource f hf with hold | hnew
    · exact fun hf' => h.source f hold (hcb f (List.mem_append_right _ hold) hf')
    · exact hnew
  · by_cases htt : t' = t
    · subst htt
      rw [hthreads, update_self]
      exact hpc
    · rw [hthreads, update_of_ne htt]
      refine (h.threads t').congr fun f hf => ?_
      have hr : f ∈ (s.threads t').refs := mem_refs_of_pc hf
      exact htouch f (h.custody.not_mem_refs (Ne.symm htt) hr)
        ((h.custody.threads t').allocated f hr)

/-- A step within the loop that stores in no fiber and leaves the queue alone. -/
theorem Affine.goto {s s' : State n} (h : s.Affine c i) (hc : s'.Custody) {t : Fin n}
    {th : Thread} (hthreads : s'.threads = Function.update s.threads t th)
    (hfibers : s'.fibers = s.fibers) (hqueue : s'.queue = s.queue)
    (hsource : s'.source = s.source) (hpc : th.pc.Bound c i s.fibers t) : s'.Affine c i := by
  refine h.turn hc hthreads (s.touches_rfl t hfibers) ?_ ?_ ?_ (hfibers ▸ hpc)
  · exact fun f _ hf => hfibers ▸ hf
  · exact fun task ht => .inl (hqueue ▸ ht)
  · exact fun f hf => .inl (hsource ▸ hf)

/-- A step that stores in one fiber `f` of the thread, or in a new one. A pending fiber
gets no new callback by it. -/
theorem Affine.store {s s' : State n} (h : s.Affine c i) (hc : s'.Custody) {t : Fin n}
    {th : Thread} {f : ℕ} {fb : Fiber} (hthreads : s'.threads = Function.update s.threads t th)
    (hfibers : s'.fibers = Function.update s.fibers f fb)
    (hf : f ∈ (s.threads t).refs ∨ s.nextFiber ≤ f)
    (hcb : f ∈ s.pending → fb.cb = some c → (s.fibers f).cb = some c)
    (hqueue : s'.queue = s.queue) (hsource : s'.source = s.source)
    (hpc : th.pc.Bound c i s'.fibers t) : s'.Affine c i := by
  refine h.turn hc hthreads (s.touches_setFiber fb hf hfibers) ?_ ?_ ?_ hpc
  · intro g hg hcg
    rw [hfibers] at hcg
    by_cases hgf : g = f
    · subst hgf
      rw [update_self] at hcg
      exact hcb hg hcg
    · rwa [update_of_ne hgf] at hcg
  · exact fun task ht => .inl (hqueue ▸ ht)
  · exact fun g hg => .inl (hsource ▸ hg)

/-- The scan takes a task of `c` on thread `i` only. -/
theorem Affine.take {s : State n} (h : s.Affine c i) {t : Fin n} {task : Task}
    {rest : List Task} (hpick : pick t s.fibers s.queue = some (task, rest))
    (hc : ({ s with queue := rest }.goto t (.branch task)).Custody) :
    ({ s with queue := rest }.goto t (.branch task)).Affine c i := by
  obtain ⟨helig, -⟩ := pick_eq_some hpick
  obtain ⟨hmem, hsub⟩ := mem_of_pick hpick
  refine h.turn hc rfl (s.touches_rfl t rfl) (fun _ _ hf => hf) (fun x hx => .inl (hsub x hx))
    (fun f hf => .inl hf) ?_
  intro hof
  have hid : task.threadId = some i := h.queue task hmem hof
  simp only [eligible, hid, Option.all_some, Bool.and_eq_true, decide_eq_true_eq] at helig
  exact ⟨helig.1.symm, hid⟩

/-- `submit(task.fiber, task.threadId)`. -/
theorem Affine.resubmit {s : State n} (h : s.Affine c i) {t : Fin n} {j : Job}
    (hpc : (s.threads t).pc = .resubmit j)
    (hc : ((s.enqueue { fiber := some j.fiber, threadId := j.threadId }).goto t .pop).Custody) :
    ((s.enqueue { fiber := some j.fiber, threadId := j.threadId }).goto t .pop).Affine c i := by
  refine h.turn hc rfl (s.touches_rfl t rfl) (fun _ _ hf => hf) ?_ (fun f hf => .inl hf) trivial
  intro task ht
  rcases mem_enqueue ht with hold | rfl
  · exact .inl hold
  · exact .inr (h.bound_at hpc)

theorem Affine.advance {s s' : State n} (h : s.Affine c i) {t : Fin n}
    (hg : s.Released (.advance t)) (hs : s.advance t = some s') : s'.Affine c i := by
  have hc : s'.Custody := h.custody.advance hg hs
  cases advances_of_advance hs with
  | idle hpc hpick => exact h.goto hc rfl rfl rfl rfl trivial
  | take hpc hpick => exact h.take hpick hc
  | @branchFiber task f hpc hf =>
      have hb := h.bound_at hpc
      refine h.goto hc rfl rfl rfl rfl fun hcb => ?_
      obtain ⟨ht, hid⟩ := hb (by simpa [Task.Of, hf] using hcb)
      exact ⟨ht, fun _ => hid⟩
  | @reuse task cb f hpc hnone hcb hf hreset =>
      have hb := h.bound_at hpc
      have hparked := (h.custody.threads t).parked f hf
      refine h.store hc rfl rfl (.inl (by simp [hf])) (fun hp => absurd hp hparked) rfl rfl ?_
      intro hcbf
      have hof : task.Of c s.fibers := by simpa [Task.Of, hnone, hcb] using hcbf
      exact ⟨(hb hof).1, by simp⟩
  | @construct task cb hpc hnone hcb hf =>
      have hb := h.bound_at hpc
      refine h.store hc rfl rfl (.inr le_rfl) (fun hp => ?_) rfl rfl ?_
      · exact absurd (h.custody.pending_allocated _ hp) (Nat.lt_irrefl _)
      · intro hcbf
        have hof : task.Of c s.fibers := by simpa [Task.Of, hnone, hcb] using hcbf
        exact ⟨(hb hof).1, by simp⟩
  | @resume j hpc hstate =>
      have hb := h.bound_at hpc
      refine h.store hc rfl rfl (.inl (mem_refs_of_pc (by rw [hpc]; rfl))) (fun _ hcb => hcb)
        rfl rfl ?_
      intro hcb
      exact hb (by simpa using hcb)
  | @switch j k hpc =>
      have hb := h.bound_at hpc
      refine h.store hc rfl rfl (.inl (mem_refs_of_pc (by rw [hpc]; rfl))) (fun _ hcb => hcb)
        rfl rfl ?_
      intro hcb
      simpa using hb (by simpa using hcb)
  | lower hpc =>
      have hb := h.bound_at hpc
      exact h.goto hc rfl rfl rfl rfl hb
  | @ready j hpc hstate =>
      have hb := h.bound_at hpc
      refine h.goto hc rfl rfl rfl rfl fun hcb => ?_
      obtain ⟨-, hid, hready⟩ := hb hcb
      cases hown : j.own with
      | false => exact hid hown
      | true => exact absurd hstate (hready hown)
  | @notReady j hpc hstate =>
      refine h.goto hc rfl rfl rfl rfl ?_
      split <;> trivial
  | resubmit hpc => exact h.resubmit hpc hc
  | checkTerm hpc =>
      refine h.goto hc rfl rfl rfl rfl ?_
      split <;> trivial
  | checkExcept hpc =>
      refine h.goto hc rfl rfl rfl rfl ?_
      split <;> trivial
  | recycle hpc hreset =>
      exact h.store hc rfl rfl (.inl (mem_refs_of_pc (by rw [hpc]; rfl))) (by simp) rfl rfl trivial
  | leave hpc hterm => exact h.goto hc rfl rfl rfl rfl trivial
  | terminate hpc hcan => exact h.goto hc rfl rfl rfl rfl trivial
  | again hpc => exact h.goto hc rfl rfl rfl rfl trivial

theorem Affine.finish {s s' : State n} (h : s.Affine c i) {t : Fin n} {e : Ending}
    (hk : s.KeepsTask c (.finish t e)) (hs : s.finish t e = some s') : s'.Affine c i := by
  have hc : s'.Custody := h.custody.finish hs
  have hmem : ∀ {j : Job} {k : ℕ} {waits : Bool}, (s.threads t).pc = .running j k waits →
      j.fiber ∈ (s.threads t).refs := fun hpc => mem_refs_of_pc (by rw [hpc]; rfl)
  cases finishes_of_finish hs with
  | returns hpc => exact h.store hc rfl rfl (.inl (hmem hpc)) (by simp) rfl rfl (by simp [Pc.Bound])
  | @yieldToReady j k hpc =>
      refine h.store hc rfl rfl (.inl (hmem hpc)) (fun _ hcb => hcb) rfl rfl fun hcb => ?_
      have hcb' : (s.fibers j.fiber).cb = some c := by simpa using hcb
      obtain ⟨ht, hid⟩ := h.bound_at hpc hcb'
      refine ⟨ht, hid, fun hown => absurd ?_ hk⟩
      simpa [cbOf, hpc, Pc.insideOwn, hown] using hcb'
  | throws hpc | yieldToHold hpc =>
      refine h.store hc rfl rfl (.inl (hmem hpc)) (fun _ hcb => hcb) rfl rfl fun hcb => ?_
      obtain ⟨ht, hid⟩ := h.bound_at hpc (by simpa using hcb)
      exact ⟨ht, hid, by simp⟩

theorem Affine.register {s : State n} (h : s.Affine c i) {t : Fin n} {j : Job} {k : ℕ}
    (hpc : (s.threads t).pc = .running j k false)
    (hr : s.RequeuedByScheduler c (.register t))
    (hc : ({ s with source := j.fiber :: s.source }.goto t (.running j k true)).Custody) :
    ({ s with source := j.fiber :: s.source }.goto t (.running j k true)).Affine c i := by
  have hb := h.bound_at hpc
  refine h.turn hc rfl (s.touches_rfl t rfl) (fun _ _ hf => hf) (fun x hx => .inl hx) ?_ hb
  intro f hf
  rcases List.mem_cons.mp hf with rfl | hold
  · exact .inr (by simpa [RequeuedByScheduler, cbOf, hpc, Pc.inside] using hr)
  · exact .inl hold

/-- A step of the environment that stores in no fiber that exists. -/
theorem Affine.environment {s s' : State n} (h : s.Affine c i) (hc : s'.Custody)
    (hthreads : s'.threads = s.threads) (hfibers : ∀ f < s.nextFiber, s'.fibers f = s.fibers f)
    (hqueue : ∀ task ∈ s'.queue,
      task ∈ s.queue ∨ (task.Of c s'.fibers → task.threadId = some i))
    (hsource : ∀ f ∈ s'.source, f ∈ s.source) : s'.Affine c i := by
  refine ⟨hc, fun task ht => ?_, fun f hf => ?_, fun t => ?_⟩
  · rcases hqueue task ht with hold | hnew
    · intro hof
      refine h.queue task hold (hof.congr fun f hf hcb => ?_)
      rwa [hfibers f (h.custody.pending_allocated f (mem_pending hold hf))] at hcb
    · exact hnew
  · have hpend : f ∈ s.pending := List.mem_append_right _ (hsource f hf)
    rw [hfibers f (h.custody.pending_allocated f hpend)]
    exact h.source f (hsource f hf)
  · rw [hthreads]
    refine (h.threads t).congr fun f hf => hfibers f ?_
    exact (h.custody.threads t).allocated f (mem_refs_of_pc hf)

theorem Affine.submitCb {s : State n} (h : s.Affine c i) {threadId : Option ℕ}
    (hid : s.nextCb = c → threadId = some i) : (s.submitCb threadId).Affine c i := by
  refine h.environment (h.custody.submitCb threadId) rfl (fun _ _ => rfl) ?_ (fun _ hf => hf)
  intro task ht
  rcases mem_enqueue ht with hold | rfl
  · exact .inl hold
  · exact .inr fun hof => hid (Option.some.inj hof)

theorem Affine.spawn {s : State n} (h : s.Affine c i) {threadId : Option ℕ}
    (hid : s.nextCb = c → threadId = some i) :
    ({ s.setFiber s.nextFiber { cb := some s.nextCb } with
      nextFiber := s.nextFiber + 1, nextCb := s.nextCb + 1 }.enqueue
        { fiber := some s.nextFiber, threadId }).Affine c i := by
  refine h.environment (h.custody.spawn threadId) rfl ?_ ?_ (fun _ hf => hf)
  · intro f hf
    simp [hf.ne]
  · intro task ht
    rcases mem_enqueue ht with hold | rfl
    · exact .inl hold
    · refine .inr fun hof => hid ?_
      simpa [Task.Of] using hof

/-- The event source submits without a thread; it never holds a fiber of `c`. -/
theorem Affine.fire {s : State n} (h : s.Affine c i) {f : ℕ} (hf : f ∈ s.source) :
    ({ s with source := s.source.erase f }.enqueue { fiber := some f }).Affine c i := by
  refine h.environment (h.custody.fire hf) rfl (fun _ _ => rfl) ?_
    (fun _ hg => List.mem_of_mem_erase hg)
  intro task ht
  rcases mem_enqueue ht with hold | rfl
  · exact .inl hold
  · exact .inr fun hof => absurd hof (h.source f hf)

theorem Affine.step {s s' : State n} (h : s.Affine c i) {a : Label n} (hg : s.Pinned c i a)
    (hs : s.step a = some s') : s'.Affine c i := by
  have hc : s'.Custody := h.custody.step hg.released hs
  cases steps_of_step hs with
  | advance hs => exact h.advance hg.released hs
  | submitInside threadId hpc => exact h.submitCb hg.submitted
  | register hpc => exact h.register hpc hg.requeued hc
  | finish hs => exact h.finish hg.keeps hs
  | submit threadId => exact h.submitCb hg.submitted
  | spawn threadId => exact h.spawn hg.submitted
  | fire hf => exact h.fire hf
  | stop => exact h.environment hc rfl (fun _ _ => rfl) (fun x hx => .inl hx) (fun _ hf => hf)

/-- In every run, a callback that was submitted for thread `i` and re-queued by the
scheduler only is executed on no other thread, as long as it does not yield from the
callback branch. -/
theorem executesOn_of_pinned (n c i : ℕ) (labels : List (Label n)) (s : State n)
    (hpinned : AllSteps step (Pinned c i) (start n) labels)
    (hrun : run step (start n) labels = some s) : s.ExecutesOn c i :=
  (run_invariant (Affine c i) (fun _ _ _ h hg hs => h.step hg hs) (affine_start n) hpinned
    hrun).executesOn

/-- A fiber that was submitted for thread `t` yields to `FIBER_READY` and is taken again;
the other thread finds nothing in the queue each time. -/
def fiberFor (t other : Fin n) : List (Label n) :=
  [.spawn (some t.val), .advance other, .advance t, .advance t, .advance t,
    .finish t .yieldToReady, .advance t, .advance t, .advance t, .advance t, .advance other,
    .advance other, .advance t, .advance t, .advance t]

theorem executesOn_of_pinned_fiber :
    ∃ s : State 2, run step (start 2) (fiberFor 1 0) = some s ∧
      (s.threads 1).pc = .running ⟨false, 0, some 1⟩ 1 false ∧ s.log = [(0, 0), (0, 1)] ∧
      s.ExecutesOn 0 1 := by
  have hend : (run step (start 2) (fiberFor 1 0)).map (fun s => ((s.threads 1).pc, s.log)) =
      some (.running ⟨false, 0, some 1⟩ 1 false, [(0, 0), (0, 1)]) := by decide
  obtain ⟨s, hs, hfields⟩ := Option.map_eq_some_iff.mp hend
  simp only [Prod.mk.injEq] at hfields
  obtain ⟨hpc, hlog⟩ := hfields
  exact ⟨s, hs, hpc, hlog, executesOn_of_pinned 2 0 1 _ s (by decide) hs⟩

/-- A callback that was submitted for thread `t` yields to `FIBER_READY`, and the other
thread scans the queue next. -/
def callbackFor (t other : Fin n) : List (Label n) :=
  [.submit (some t.val), .advance t, .advance t, .advance t, .finish t .yieldToReady,
    .advance t, .advance t, .advance t, .advance t, .advance other, .advance other,
    .advance other]

/-- Its fiber is submitted again without the number of the thread, and the other thread
goes on with it. -/
theorem not_executesOn_callback :
    ∃ s : State 2, run step (start 2) (callbackFor 0 1) = some s ∧
      AllSteps step (fun s a => s.SubmittedFor 0 0 a ∧ s.RequeuedByScheduler 0 a ∧ s.Released a)
        (start 2) (callbackFor 0 1) ∧
      (s.threads 1).pc = .running ⟨false, 0, none⟩ 1 false ∧ s.log = [(0, 0), (0, 1)] ∧
      ¬ s.ExecutesOn 0 0 := by
  have hend : (run step (start 2) (callbackFor 0 1)).map
      (fun s => ((s.threads 1).pc, s.log, decide (s.ExecutesOn 0 0))) =
        some (.running ⟨false, 0, none⟩ 1 false, [(0, 0), (0, 1)], false) := by decide
  obtain ⟨s, hs, hfields⟩ := Option.map_eq_some_iff.mp hend
  simp only [Prod.mk.injEq, decide_eq_false_iff_not] at hfields
  exact ⟨s, hs, by decide, hfields⟩

/-- Thread 0 recycles the fiber of a callback that threads 1 and 2 have both submitted
again, and runs the next callback on it while the fiber is still in the queue. -/
def recycledWhileQueued : List (Label 3) :=
  [.submit none, .advance 0, .advance 0, .advance 0, .register 0, .finish 0 .yieldToHold, .fire 0,
    .advance 0, .advance 0,
    .advance 1, .advance 1, .advance 1, .register 1, .finish 1 .yieldToHold, .fire 0,
    .advance 2, .advance 2, .advance 0, .advance 2, .submit (some 0), .finish 2 .yieldToReady,
    .advance 1, .advance 1, .advance 1, .advance 1, .advance 2, .advance 2, .advance 2, .advance 2,
    .advance 1, .advance 1, .advance 1, .finish 1 .returns, .advance 0, .advance 0,
    .advance 0, .advance 0, .advance 2, .advance 2, .advance 2]

/-- Where fibers are not released, a callback leaves its thread without yielding. -/
theorem not_executesOn_unreleased :
    AllSteps step (fun s a => s.SubmittedFor 1 0 a ∧ s.RequeuedByScheduler 1 a ∧ s.KeepsTask 1 a)
        (start 3) recycledWhileQueued ∧
      ∃ s ∈ run step (start 3) recycledWhileQueued, ¬ s.ExecutesOn 1 0 := by decide

end State

end Xzmjx.SchedulerModel
