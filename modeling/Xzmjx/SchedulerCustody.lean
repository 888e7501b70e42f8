import Xzmjx.SchedulerModel
import Mathlib.Data.List.Nodup
import Mathlib.Data.List.Perm.Basic

/-!
# Custody of fibers

A fiber that a thread refers to is in the custody of that thread: it is the idle
`task_fb`, or the fiber the loop is working on. A fiber in the queue or with the
event source is pending. The two overlap only while the fiber waits: it has
registered, and the thread has not yet dropped it. `Custody` holds as long as
every fiber that is taken out of the queue is in nobody's custody any more.
-/
namespace Xzmjx.SchedulerModel
open Function StepSystem

/-- The fiber the loop is working on. -/
def Pc.fiber : Pc → Option ℕ
  | .branch task => task.fiber
  | .resume j | .running j _ _ | .yielding j _ | .switched j | .check j | .resubmit j
  | .checkTerm j | .checkExcept j | .recycle j => some j.fiber
  | .pop | .wait | .left => none

/-- The thread is between `resume` and the switch back of this fiber. -/
def Pc.inside : Pc → Option ℕ
  | .running j _ _ | .yielding j _ => some j.fiber
  | _ => none

theorem Pc.fiber_of_inside {pc : Pc} {f : ℕ} (h : pc.inside = some f) : pc.fiber = some f := by
  cases pc <;> first | exact h | cases h

/-- The fiber has registered in this slice, and the state checks can still only find
it on hold. -/
def Lent (fibers : ℕ → Fiber) : Pc → Prop
  | .running _ _ waits => waits = true
  | .yielding j _ | .switched j | .check j | .checkTerm j | .checkExcept j =>
      (fibers j.fiber).state = .hold
  | _ => False

namespace Thread

def refs (th : Thread) : List ℕ := th.taskFb.toList ++ th.pc.fiber.toList

@[simp] theorem mem_refs (th : Thread) (f : ℕ) :
    f ∈ th.refs ↔ th.taskFb = some f ∨ th.pc.fiber = some f := by
  simp [refs]

/-- What a thread has to respect about the fibers it refers to. -/
structure Respects (fibers : ℕ → Fiber) (pending : List ℕ) (nextFiber : ℕ) (th : Thread) :
    Prop where
  separate : ∀ f, th.taskFb = some f → th.pc.fiber ≠ some f
  parked : ∀ f, th.taskFb = some f → f ∉ pending
  current : ∀ f, th.pc.fiber = some f → f ∈ pending → Lent fibers th.pc
  allocated : ∀ f ∈ th.refs, f < nextFiber

end Thread

/-- The scan takes one task out of the queue and keeps the order of the rest. -/
theorem pick_eq_some {self : ℕ} {fibers : ℕ → Fiber} {queue rest : List Task} {task : Task}
    (h : pick self fibers queue = some (task, rest)) :
    eligible self fibers task = true ∧ ∃ l r, queue = l ++ task :: r ∧ rest = l ++ r := by
  induction queue generalizing rest with
  | nil => cases h
  | cons x xs ih =>
      unfold pick at h
      split at h
      · next hx =>
          cases h
          exact ⟨hx, [], xs, rfl, rfl⟩
      · obtain ⟨⟨task', rest'⟩, hp, he⟩ := Option.map_eq_some_iff.mp h
        cases he
        obtain ⟨helig, l, r, rfl, rfl⟩ := ih hp
        exact ⟨helig, x :: l, r, rfl, rfl⟩

theorem mem_of_pick {self : ℕ} {fibers : ℕ → Fiber} {queue rest : List Task} {task : Task}
    (h : pick self fibers queue = some (task, rest)) :
    task ∈ queue ∧ ∀ x ∈ rest, x ∈ queue := by
  obtain ⟨-, l, r, rfl, rfl⟩ := pick_eq_some h
  refine ⟨by simp, fun x hx => ?_⟩
  simp only [List.mem_append, List.mem_cons] at hx ⊢
  tauto

theorem pick_eq_none {self : ℕ} {fibers : ℕ → Fiber} {queue : List Task}
    (h : pick self fibers queue = none) : ∀ task ∈ queue, eligible self fibers task = false := by
  induction queue with
  | nil => simp
  | cons x xs ih =>
      unfold pick at h
      split at h
      · cases h
      · next hx =>
          intro task htask
          rcases List.mem_cons.mp htask with rfl | hmem
          · simpa using hx
          · exact ih (by simpa using h) task hmem

namespace State
variable {n : ℕ}

/-- The fibers in the queue and with the event source. -/
def pending (s : State n) : List ℕ := s.queue.filterMap Task.fiber ++ s.source

structure Custody (s : State n) : Prop where
  exclusive : ∀ t t' f, f ∈ (s.threads t).refs → f ∈ (s.threads t').refs → t = t'
  threads : ∀ t, (s.threads t).Respects s.fibers s.pending s.nextFiber
  pending_nodup : s.pending.Nodup
  pending_allocated : ∀ f ∈ s.pending, f < s.nextFiber

theorem custody_start (n : ℕ) : (start n).Custody := by
  refine ⟨?_, fun t => ⟨?_, ?_, ?_, ?_⟩, ?_, ?_⟩ <;> simp [start, pending, Pc.fiber]

theorem Lent.congr {fibers fibers' : ℕ → Fiber} {pc : Pc}
    (h : ∀ f, pc.fiber = some f → (fibers' f).state = (fibers f).state) (hl : Lent fibers pc) :
    Lent fibers' pc := by
  cases pc <;> first | exact hl | exact (h _ rfl).trans hl

/-- A step of the environment: the threads are as they were, and what is new among
the pending fibers belongs to no thread. -/
theorem Custody.environment {s s' : State n} (h : s.Custody) (hthreads : s'.threads = s.threads)
    (hstate : ∀ f < s.nextFiber, (s'.fibers f).state = (s.fibers f).state)
    (hpend : ∀ f ∈ s'.pending, f ∈ s.pending ∨ s.nextFiber ≤ f)
    (hnext : s.nextFiber ≤ s'.nextFiber) (hnodup : s'.pending.Nodup)
    (halloc : ∀ f ∈ s'.pending, f < s'.nextFiber) : s'.Custody := by
  refine ⟨?_, fun t => ?_, hnodup, halloc⟩
  · rw [hthreads]
    exact h.exclusive
  · rw [hthreads]
    have hold : ∀ f ∈ (s.threads t).refs, f ∈ s'.pending → f ∈ s.pending := by
      intro f hf hp
      have := (h.threads t).allocated f hf
      exact (hpend f hp).resolve_right (by omega)
    refine ⟨(h.threads t).separate, fun f hf hp => ?_, fun f hf hp => ?_, fun f hf => ?_⟩
    · exact (h.threads t).parked f hf (hold f (by simp [hf]) hp)
    · have hlent := (h.threads t).current f hf (hold f (by simp [hf]) hp)
      refine Lent.congr (fun g hg => hstate g ?_) hlent
      exact (h.threads t).allocated g (by simp [hg])
    · exact lt_of_lt_of_le ((h.threads t).allocated f hf) hnext

/-- A step of one thread: it touches the fibers of no other thread. -/
theorem Custody.update {s s' : State n} (h : s.Custody) {t : Fin n} {th : Thread}
    (hthreads : s'.threads = Function.update s.threads t th)
    (hrefs : ∀ f ∈ th.refs, ∀ t' ≠ t, f ∉ (s.threads t').refs)
    (hstate : ∀ t' ≠ t, ∀ f ∈ (s.threads t').refs, (s'.fibers f).state = (s.fibers f).state)
    (hpend : ∀ t' ≠ t, ∀ f ∈ (s.threads t').refs, f ∈ s'.pending → f ∈ s.pending)
    (hnext : s.nextFiber ≤ s'.nextFiber)
    (hthread : th.Respects s'.fibers s'.pending s'.nextFiber)
    (hnodup : s'.pending.Nodup) (halloc : ∀ f ∈ s'.pending, f < s'.nextFiber) : s'.Custody := by
  have hself : s'.threads t = th := by rw [hthreads, update_self]
  have hothers : ∀ t' ≠ t, s'.threads t' = s.threads t' := by
    intro t' ht'
    rw [hthreads, update_of_ne ht']
  refine ⟨fun a b f ha hb => ?_, fun a => ?_, hnodup, halloc⟩
  · by_cases hat : a = t
    · subst hat
      by_contra hab
      rw [hself] at ha
      rw [hothers b (Ne.symm hab)] at hb
      exact hrefs f ha b (Ne.symm hab) hb
    · rw [hothers a hat] at ha
      by_cases hbt : b = t
      · subst hbt
        rw [hself] at hb
        exact absurd ha (hrefs f hb a hat)
      · rw [hothers b hbt] at hb
        exact h.exclusive a b f ha hb
  · by_cases hat : a = t
    · rw [hat, hself]
      exact hthread
    · rw [hothers a hat]
      refine ⟨(h.threads a).separate, fun f hf hp => ?_, fun f hf hp => ?_, fun f hf => ?_⟩
      · exact (h.threads a).parked f hf (hpend a hat f (by simp [hf]) hp)
      · refine Lent.congr (fun g hg => hstate a hat g (by simp [hg])) ?_
        exact (h.threads a).current f hf (hpend a hat f (by simp [hf]) hp)
      · exact lt_of_lt_of_le ((h.threads a).allocated f hf) hnext

theorem Custody.not_mem_refs {s : State n} (h : s.Custody) {t t' : Fin n} (ht : t' ≠ t) {f : ℕ}
    (hf : f ∈ (s.threads t).refs) : f ∉ (s.threads t').refs :=
  fun hf' => ht (h.exclusive t' t f hf' hf)

/-- A step of one thread within its own references, with the pending fibers unchanged. -/
theorem Custody.move {s s' : State n} (h : s.Custody) {t : Fin n} {th : Thread}
    (hthreads : s'.threads = Function.update s.threads t th)
    (hpending : s'.pending = s.pending) (hnext : s'.nextFiber = s.nextFiber)
    (hrefs : ∀ f ∈ th.refs, f ∈ (s.threads t).refs)
    (hstate : ∀ f, f ∉ (s.threads t).refs → (s'.fibers f).state = (s.fibers f).state)
    (hseparate : ∀ f, th.taskFb = some f → th.pc.fiber ≠ some f)
    (hparked : ∀ f, th.taskFb = some f → f ∉ s.pending)
    (hcurrent : ∀ f, th.pc.fiber = some f → f ∈ s.pending → Lent s'.fibers th.pc) :
    s'.Custody := by
  refine h.update hthreads ?_ ?_ ?_ hnext.ge ?_ ?_ ?_
  · intro f hf t' ht'
    exact h.not_mem_refs ht' (hrefs f hf)
  · intro t' ht' f hf
    exact hstate f fun hf' => h.not_mem_refs ht' hf' hf
  · intro t' _ f _ hp
    exact hpending ▸ hp
  · rw [hpending, hnext]
    exact ⟨hseparate, hparked, hcurrent, fun f hf => (h.threads t).allocated f (hrefs f hf)⟩
  · rw [hpending]
    exact h.pending_nodup
  · rw [hpending, hnext]
    exact h.pending_allocated

/-- A step that moves on with the same fiber, or with none, and keeps `task_fb`. -/
theorem Custody.goto {s s' : State n} (h : s.Custody) {t : Fin n} {pc : Pc}
    (hthreads : s'.threads = Function.update s.threads t { s.threads t with pc })
    (hpending : s'.pending = s.pending) (hnext : s'.nextFiber = s.nextFiber)
    (hfiber : ∀ f, pc.fiber = some f → (s.threads t).pc.fiber = some f)
    (hstate : ∀ f, (s.threads t).pc.fiber ≠ some f → (s'.fibers f).state = (s.fibers f).state)
    (hlent : Lent s.fibers (s.threads t).pc → pc.fiber = none ∨ Lent s'.fibers pc) :
    s'.Custody := by
  have ht := h.threads t
  refine h.move hthreads hpending hnext ?_ ?_ ?_ ht.parked ?_
  · intro f hf
    simp only [Thread.mem_refs] at hf ⊢
    exact hf.imp id (hfiber f)
  · intro f hf
    exact hstate f fun hpc => hf (by simp [hpc])
  · intro f hf hpc
    exact ht.separate f hf (hfiber f hpc)
  · intro f hpc hp
    refine (hlent (ht.current f (hfiber f hpc) hp)).resolve_left ?_
    simp only at hpc
    simp [hpc]

theorem pending_enqueue (s : State n) (task : Task) :
    (s.enqueue task).pending = s.queue.filterMap Task.fiber ++ task.fiber.toList ++ s.source := by
  unfold enqueue pending
  cases hf : task.fiber with
  | some f => simp [hf]
  | none => cases task.taskCb <;> simp [hf]

theorem mem_enqueue {s : State n} {task x : Task} (hx : x ∈ (s.enqueue task).queue) :
    x ∈ s.queue ∨ x = task := by
  rcases List.mem_append.mp hx with hold | hnew
  · exact .inl hold
  · split at hnew
    · exact .inr (List.mem_singleton.mp hnew)
    · cases hnew

/-- A fiber enters the queue when it is in nobody's custody. -/
theorem perm_pending_enqueue (s : State n) (task : Task) :
    (s.enqueue task).pending.Perm (task.fiber.toList ++ s.pending) := by
  rw [pending_enqueue, pending, ← List.append_assoc]
  exact List.Perm.append_right _ List.perm_append_comm

/-- Every fiber that is taken out of the queue has been released: the thread that ran
it last has switched away from it and has made its state checks. -/
def Released (s : State n) : Label n → Prop
  | .advance t => (s.threads t).pc = .pop → ∀ taken ∈ pick t s.fibers s.queue,
      ∀ f ∈ taken.1.fiber, ∀ t', (s.threads t').pc.fiber ≠ some f
  | _ => True

instance decidableReleased (s : State n) : ∀ a, Decidable (s.Released a)
  | .advance t => inferInstanceAs (Decidable ((s.threads t).pc = .pop →
      ∀ taken ∈ pick t s.fibers s.queue, ∀ f ∈ taken.1.fiber,
        ∀ t', (s.threads t').pc.fiber ≠ some f))
  | .submitInside .. | .register _ | .finish .. | .submit _ | .spawn _ | .fire _ | .stop =>
      isTrue trivial

theorem Custody.pop {s : State n} (h : s.Custody) {t : Fin n}
    {task : Task} {rest : List Task} (hpick : pick t s.fibers s.queue = some (task, rest))
    (hreleased : ∀ f, task.fiber = some f → ∀ t', (s.threads t').pc.fiber ≠ some f) :
    ({ s with queue := rest }.goto t (.branch task)).Custody := by
  obtain ⟨-, l, r, hq, rfl⟩ := pick_eq_some hpick
  have hperm : s.pending.Perm
      (task.fiber.toList ++ State.pending { s with queue := l ++ r }) := by
    simp only [pending, hq, List.filterMap_append, List.filterMap_cons]
    cases task.fiber with
    | none => simp
    | some f => simp [List.perm_middle]
  have hnodup := hperm.nodup_iff.mp h.pending_nodup
  have hsub : ∀ f ∈ State.pending { s with queue := l ++ r }, f ∈ s.pending := by
    intro f hf
    exact hperm.mem_iff.mpr (List.mem_append_right _ hf)
  have htaken : ∀ f, task.fiber = some f → f ∈ s.pending := by
    intro f hf
    exact hperm.mem_iff.mpr (by simp [hf])
  have ht := h.threads t
  refine h.update rfl ?_ (fun _ _ _ _ => rfl) (fun _ _ f _ hp => hsub f hp) le_rfl ?_
    (List.Nodup.of_append_right hnodup) (fun f hf => h.pending_allocated f (hsub f hf))
  · intro f hf t' ht' hf'
    simp only [Thread.mem_refs, Pc.fiber] at hf
    rcases hf with hf | hf
    · exact h.not_mem_refs ht' (by simp [hf]) hf'
    · rcases (Thread.mem_refs _ _).mp hf' with hp | hc
      · exact (h.threads t').parked f hp (htaken f hf)
      · exact hreleased f hf t' hc
  · refine ⟨fun f hf hc => ?_, fun f hf hp => ?_, fun f hc hp => ?_, fun f hf => ?_⟩
    · exact ht.parked f hf (htaken f hc)
    · exact ht.parked f hf (hsub f hp)
    · simp only [Pc.fiber] at hc
      simp only [hc, Option.toList_some, List.singleton_append, List.nodup_cons] at hnodup
      exact absurd hp hnodup.1
    · simp only [Thread.mem_refs, Pc.fiber] at hf
      rcases hf with hf | hf
      · exact ht.allocated f (by simp [hf])
      · exact h.pending_allocated f (htaken f hf)

/-- The callback branch with an idle `task_fb`. -/
theorem Custody.reuse {s : State n} (h : s.Custody) {t : Fin n} {f active : ℕ} (fb : Fiber)
    (hf : (s.threads t).taskFb = some f) :
    (({ s with active }.setFiber f fb).setThread t
      { s.threads t with pc := .resume ⟨true, f, none⟩, taskFb := none }).Custody := by
  refine h.move rfl rfl rfl ?_ ?_ (by simp) (by simp) ?_
  · intro g hg
    have hgf : f = g := by simpa [Pc.fiber] using hg
    simp [hf, hgf]
  · intro g hg
    have hne : g ≠ f := by
      rintro rfl
      exact hg (by simp [hf])
    simp [hne]
  · intro g hg hp
    have hgf : f = g := by simpa [Pc.fiber] using hg
    exact absurd hp (hgf ▸ (h.threads t).parked f hf)

/-- The callback branch with a new `task_fb`, a fiber nobody knows of yet. -/
theorem Custody.construct {s : State n} (h : s.Custody) {t : Fin n} {active : ℕ} (fb : Fiber)
    (hf : (s.threads t).taskFb = none) :
    ({ s.setFiber s.nextFiber fb with active, nextFiber := s.nextFiber + 1 }.goto t
      (.resume ⟨true, s.nextFiber, none⟩)).Custody := by
  refine h.update rfl ?_ ?_ (fun _ _ _ _ hp => hp) (Nat.le_succ _) ?_ h.pending_nodup
    (fun f hp => Nat.lt_succ_of_lt (h.pending_allocated f hp))
  · intro g hg t' _ hg'
    have hgn : s.nextFiber = g := by simpa [Pc.fiber, hf] using hg
    have := (h.threads t').allocated g hg'
    omega
  · intro t' _ g hg
    have hne : g ≠ s.nextFiber := ((h.threads t').allocated g hg).ne
    simp [hne]
  · refine ⟨?_, ?_, ?_, ?_⟩
    · simp [hf]
    · simp [hf]
    · intro g hg hp
      have hgn : s.nextFiber = g := by simpa [Pc.fiber] using hg
      have := h.pending_allocated g hp
      omega
    · intro g hg
      have hgn : s.nextFiber = g := by simpa [Pc.fiber, hf] using hg
      exact hgn ▸ Nat.lt_succ_self _

/-- The fiber of a thread that is not lent is not pending. -/
theorem Custody.not_pending {s : State n} (h : s.Custody) {t : Fin n} {f : ℕ}
    (hf : (s.threads t).pc.fiber = some f) (hl : ¬ Lent s.fibers (s.threads t).pc) :
    f ∉ s.pending := fun hp => hl ((h.threads t).current f hf hp)

/-- `submit` of a fiber that was found ready. -/
theorem Custody.resubmit {s : State n} (h : s.Custody) {t : Fin n} {j : Job}
    (hpc : (s.threads t).pc = .resubmit j) :
    ((s.enqueue { fiber := some j.fiber, threadId := j.threadId }).goto t .pop).Custody := by
  have ht := h.threads t
  have hfib : (s.threads t).pc.fiber = some j.fiber := by rw [hpc]; rfl
  have hnot : j.fiber ∉ s.pending := h.not_pending hfib (by rw [hpc]; exact id)
  have hperm := s.perm_pending_enqueue { fiber := some j.fiber, threadId := j.threadId }
  have hmem : ∀ f, f ∈ (s.enqueue { fiber := some j.fiber, threadId := j.threadId }).pending ↔
      f = j.fiber ∨ f ∈ s.pending := by
    intro f
    simp [hperm.mem_iff]
  refine h.update rfl ?_ (fun _ _ _ _ => rfl) ?_ le_rfl ?_ ?_ ?_
  · intro f hf t' ht'
    have hfb : (s.threads t).taskFb = some f := by simpa [Pc.fiber] using hf
    exact h.not_mem_refs ht' (by simp [hfb])
  · intro t' ht' f hf hp
    rcases (hmem f).mp hp with rfl | hp
    · exact absurd hf (h.not_mem_refs ht' (by simp [hfib]))
    · exact hp
  · refine ⟨?_, fun f hf hp => ?_, ?_, fun f hf => ?_⟩
    · simp [Pc.fiber]
    · rcases (hmem f).mp hp with rfl | hp
      · exact ht.separate _ hf hfib
      · exact ht.parked f hf hp
    · simp [Pc.fiber]
    · have hfb : (s.threads t).taskFb = some f := by simpa [Pc.fiber] using hf
      exact ht.allocated f (by simp [hfb])
  · exact hperm.nodup_iff.mpr (by simpa using ⟨hnot, h.pending_nodup⟩)
  · intro f hp
    rcases (hmem f).mp hp with rfl | hp
    · exact ht.allocated _ (by simp [hfib])
    · exact h.pending_allocated f hp

theorem Custody.congr {s s' : State n} (h : s.Custody) (hthreads : s'.threads = s.threads)
    (hfibers : s'.fibers = s.fibers) (hpending : s'.pending = s.pending)
    (hnext : s'.nextFiber = s.nextFiber) : s'.Custody := by
  refine ⟨?_, ?_, ?_, ?_⟩
  · rw [hthreads]
    exact h.exclusive
  · rw [hthreads, hfibers, hpending, hnext]
    exact h.threads
  · rw [hpending]
    exact h.pending_nodup
  · rw [hpending, hnext]
    exact h.pending_allocated

/-- `task_fb->reset(nullptr)`: the fiber goes back to being the idle one. -/
theorem Custody.recycle {s : State n} (h : s.Custody) {t : Fin n} {j : Job} (fb : Fiber)
    (hpc : (s.threads t).pc = .recycle j) :
    ((s.setFiber j.fiber fb).setThread t
      { s.threads t with pc := .pop, taskFb := some j.fiber }).Custody := by
  have hfib : (s.threads t).pc.fiber = some j.fiber := by rw [hpc]; rfl
  refine h.move rfl rfl rfl ?_ ?_ (by simp [Pc.fiber]) ?_ (by simp [Pc.fiber])
  · intro f hf
    have hfj : j.fiber = f := by simpa [Pc.fiber] using hf
    simp [hfib, hfj]
  · intro f hf
    have hne : f ≠ j.fiber := by
      rintro rfl
      exact hf (by simp [hfib])
    simp [hne]
  · intro f hf
    have hfj : j.fiber = f := by simpa using hf
    exact hfj ▸ h.not_pending hfib (by rw [hpc]; exact id)

/-- A step that lets go of the fiber of the thread, if there is one. -/
theorem Custody.drop {s : State n} (h : s.Custody) {t : Fin n} {pc : Pc} (hpc : pc.fiber = none) :
    (s.goto t pc).Custody :=
  h.goto rfl rfl rfl (by simp [hpc]) (fun _ _ => rfl) (fun _ => .inl hpc)

/-- A step on to a place with the same fiber, which is lent there if it was lent before. -/
theorem Custody.carry {s : State n} (h : s.Custody) {t : Fin n} {pc pc' : Pc} {active : ℕ}
    (hpc : (s.threads t).pc = pc) (hfiber : pc'.fiber = pc.fiber)
    (hlent : Lent s.fibers pc → Lent s.fibers pc') : ({ s with active }.goto t pc').Custody := by
  refine h.goto rfl rfl rfl ?_ (fun _ _ => rfl) ?_
  · intro f hf
    rw [hpc, ← hfiber]
    exact hf
  · rw [hpc]
    exact fun hl => .inr (hlent hl)

theorem Custody.advance {s s' : State n} (h : s.Custody) {t : Fin n}
    (hg : s.Released (.advance t)) (hs : s.advance t = some s') : s'.Custody := by
  cases advances_of_advance hs with
  | idle hpc hpick => exact h.drop rfl
  | @take task rest hpc hpick => exact h.pop hpick (hg hpc (task, rest) hpick)
  | branchFiber hpc hf => exact h.carry hpc hf.symm False.elim
  | reuse hpc hnone hcb hf hreset => exact h.reuse _ hf
  | construct hpc hnone hcb hf => exact h.construct _ hf
  | @resume j hpc hstate =>
      refine h.goto rfl rfl rfl ?_ ?_ ?_
      · intro g hg
        rw [hpc]
        exact hg
      · intro f hf
        have hne : f ≠ j.fiber := by
          rintro rfl
          exact hf (by rw [hpc]; rfl)
        simp [hne]
      · rw [hpc]
        exact False.elim
  | @switch j k hpc =>
      refine h.goto rfl rfl rfl ?_ ?_ ?_
      · intro g hg
        rw [hpc]
        exact hg
      · intro f _
        by_cases hne : f = j.fiber
        · simp [hne]
        · simp [hne]
      · rw [hpc]
        intro hl
        exact .inr (by simpa [Lent] using hl)
  | lower hpc => exact h.carry hpc rfl id
  | ready hpc hstate =>
      exact h.carry hpc rfl fun hl => absurd (hl.symm.trans hstate) (by decide)
  | notReady hpc hstate =>
      split
      · exact h.carry hpc rfl id
      · exact h.drop rfl
  | resubmit hpc => exact h.resubmit hpc
  | checkTerm hpc =>
      split
      · next hterm => exact h.carry hpc rfl fun hl => absurd (hl.symm.trans hterm) (by decide)
      · exact h.carry hpc rfl id
  | checkExcept hpc =>
      split
      · next hexcept => exact h.carry hpc rfl fun hl => absurd (hl.symm.trans hexcept) (by decide)
      · exact h.drop rfl
  | recycle hpc hreset => exact h.recycle _ hpc
  | leave hpc hterm => exact h.drop rfl
  | terminate hpc hcan =>
      exact h.move rfl rfl rfl (by simp [Pc.fiber]; tauto) (fun _ _ => rfl)
        (by simp [Pc.fiber]) (h.threads t).parked (by simp [Pc.fiber])
  | again hpc => exact h.drop rfl

/-- The store at the end of a slice hits the fiber of the thread; a lent one is put on hold. -/
theorem Custody.store {s : State n} (h : s.Custody) {t : Fin n} {j : Job} {k : ℕ} {waits : Bool}
    (hpc : (s.threads t).pc = .running j k waits) {fb : Fiber}
    (hfb : waits = true → fb.state = .hold) (ended : List (ℕ × ℕ)) :
    ({ s.setFiber j.fiber fb with ended }.goto t (.yielding j k)).Custody := by
  have hfib : (s.threads t).pc.fiber = some j.fiber := by rw [hpc]; rfl
  refine h.goto rfl rfl rfl (fun g hg => hfib.trans hg) ?_ ?_
  · intro f hf
    have hne : f ≠ j.fiber := by
      rintro rfl
      exact hf hfib
    simp [hne]
  · rw [hpc]
    intro hl
    exact .inr (by simpa [Lent] using hfb hl)

theorem Custody.finish {s s' : State n} (h : s.Custody) {t : Fin n} {e : Ending}
    (hs : s.finish t e = some s') : s'.Custody := by
  cases finishes_of_finish hs with
  | returns hpc => exact h.store hpc (by simp) _
  | throws hpc => exact h.store hpc (by simp) _
  | yieldToReady hpc => exact h.store hpc (by simp) s.ended
  | yieldToHold hpc => exact h.store hpc (fun _ => rfl) s.ended

theorem Custody.register {s : State n} (h : s.Custody) {t : Fin n} {j : Job} {k : ℕ}
    (hpc : (s.threads t).pc = .running j k false) :
    ({ s with source := j.fiber :: s.source }.goto t (.running j k true)).Custody := by
  have hfib : (s.threads t).pc.fiber = some j.fiber := by rw [hpc]; rfl
  have hnot : j.fiber ∉ s.pending := h.not_pending hfib (by rw [hpc]; exact Bool.false_ne_true)
  have hperm : (State.pending { s with source := j.fiber :: s.source }).Perm
      (j.fiber :: s.pending) := List.perm_middle
  have ht := h.threads t
  refine h.update rfl ?_ (fun _ _ _ _ => rfl) ?_ le_rfl ⟨?_, ?_, fun _ _ _ => rfl, ?_⟩ ?_ ?_
  · intro f hf t' ht'
    refine h.not_mem_refs ht' ?_
    rw [Thread.mem_refs] at hf ⊢
    exact hf.imp id fun hf => hfib.trans hf
  · intro t' ht' f hf hp
    rcases List.mem_cons.mp (hperm.mem_iff.mp hp) with rfl | hp
    · exact absurd hf (h.not_mem_refs ht' (by simp [hfib]))
    · exact hp
  · intro f hf hc
    exact ht.separate f hf (hfib.trans hc)
  · intro f hf hp
    rcases List.mem_cons.mp (hperm.mem_iff.mp hp) with rfl | hp
    · exact ht.separate _ hf hfib
    · exact ht.parked f hf hp
  · intro f hf
    refine ht.allocated f ?_
    rw [Thread.mem_refs] at hf ⊢
    exact hf.imp id fun hf => hfib.trans hf
  · exact hperm.nodup_iff.mpr (List.nodup_cons.mpr ⟨hnot, h.pending_nodup⟩)
  · intro f hp
    rcases List.mem_cons.mp (hperm.mem_iff.mp hp) with rfl | hp
    · exact ht.allocated _ (by simp [hfib])
    · exact h.pending_allocated f hp

theorem Custody.submitCb {s : State n} (h : s.Custody) (threadId : Option ℕ) :
    (s.submitCb threadId).Custody := by
  refine h.congr rfl rfl ?_ rfl
  exact (pending_enqueue s { taskCb := some s.nextCb, threadId }).trans (by simp [pending])

theorem Custody.spawn {s : State n} (h : s.Custody) (threadId : Option ℕ) :
    ({ s.setFiber s.nextFiber { cb := some s.nextCb } with
      nextFiber := s.nextFiber + 1, nextCb := s.nextCb + 1 }.enqueue
        { fiber := some s.nextFiber, threadId }).Custody := by
  have hperm := perm_pending_enqueue
    { s.setFiber s.nextFiber { cb := some s.nextCb } with
      nextFiber := s.nextFiber + 1, nextCb := s.nextCb + 1 } { fiber := some s.nextFiber, threadId }
  have hmem : ∀ f, f ∈ s.nextFiber :: s.pending → f = s.nextFiber ∨ f ∈ s.pending :=
    fun f hf => List.mem_cons.mp hf
  refine h.environment rfl ?_ ?_ (Nat.le_succ _) ?_ ?_
  · intro f hf
    have hne : f ≠ s.nextFiber := hf.ne
    simp [enqueue, hne]
  · intro f hf
    rcases hmem f (hperm.mem_iff.mp hf) with rfl | hf
    · exact .inr le_rfl
    · exact .inl hf
  · refine hperm.nodup_iff.mpr (List.nodup_cons.mpr ⟨?_, h.pending_nodup⟩)
    exact fun hp => Nat.lt_irrefl _ (h.pending_allocated _ hp)
  · intro f hf
    rcases hmem f (hperm.mem_iff.mp hf) with rfl | hf
    · exact Nat.lt_succ_self _
    · exact Nat.lt_succ_of_lt (h.pending_allocated f hf)

/-- The event source hands a fiber over to the queue. -/
theorem Custody.fire {s : State n} (h : s.Custody) {f : ℕ} (hf : f ∈ s.source) :
    ({ s with source := s.source.erase f }.enqueue { fiber := some f }).Custody := by
  have hperm : State.pending ({ s with source := s.source.erase f }.enqueue
      { fiber := some f }) |>.Perm s.pending := by
    rw [pending_enqueue, pending, List.append_assoc]
    exact List.Perm.append_left _ (List.perm_cons_erase hf).symm
  refine h.environment rfl (fun _ _ => rfl) ?_ le_rfl ?_ ?_
  · intro g hg
    exact .inl (hperm.mem_iff.mp hg)
  · exact hperm.nodup_iff.mpr h.pending_nodup
  · intro g hg
    exact h.pending_allocated g (hperm.mem_iff.mp hg)

theorem Custody.step {s s' : State n} (h : s.Custody) {a : Label n} (hg : s.Released a)
    (hs : s.step a = some s') : s'.Custody := by
  cases steps_of_step hs with
  | advance hs => exact h.advance hg hs
  | submitInside threadId hpc => exact h.submitCb threadId
  | register hpc => exact h.register hpc
  | finish hs => exact h.finish hs
  | submit threadId => exact h.submitCb threadId
  | spawn threadId => exact h.spawn threadId
  | fire hf => exact h.fire hf
  | stop => exact h.congr rfl rfl rfl rfl

/-- No two threads are inside one fiber, a fiber about to be resumed has been switched
out by everybody, and no fiber is in the queue twice. -/
structure OneAtATime (s : State n) : Prop where
  inside : ∀ t t' f, (s.threads t).pc.inside = some f → (s.threads t').pc.inside = some f → t = t'
  resume : ∀ t j, (s.threads t).pc = .resume j → ∀ t', (s.threads t').pc.inside ≠ some j.fiber
  queue : (s.queue.filterMap Task.fiber).Nodup

theorem Custody.oneAtATime {s : State n} (h : s.Custody) : s.OneAtATime := by
  have hrefs : ∀ t f, (s.threads t).pc.inside = some f → f ∈ (s.threads t).refs := by
    intro t f hf
    simp [Pc.fiber_of_inside hf]
  have hqueue := List.Nodup.of_append_left h.pending_nodup
  refine ⟨fun t t' f hf hf' => ?_, fun t j hpc t' hf => ?_, hqueue⟩
  · exact h.exclusive t t' f (hrefs t f hf) (hrefs t' f hf')
  · have hfib : (s.threads t).pc.fiber = some j.fiber := by rw [hpc]; rfl
    have heq : t = t' := h.exclusive t t' j.fiber (by simp [hfib]) (hrefs t' _ hf)
    rw [← heq, hpc] at hf
    cases hf

/-- In every run that takes a fiber out of the queue only after it was released, a
fiber is executed by one thread at a time and queued at most once. -/
theorem fiber_runs_on_one_thread (n : ℕ) (labels : List (Label n)) (s : State n)
    (hreleased : AllSteps step Released (start n) labels)
    (hrun : run step (start n) labels = some s) : s.OneAtATime :=
  (run_invariant Custody (fun _ _ _ h hg hs => h.step hg hs) (custody_start n) hreleased
    hrun).oneAtATime

/-- A callback registers and yields to `FIBER_HOLD` on thread 0, which then goes through
its state checks. -/
def waitAndDrop : List (Label 2) :=
  [.submit none, .advance 0, .advance 0, .advance 0, .register 0, .finish 0 .yieldToHold,
    .advance 0, .advance 0, .advance 0, .advance 0, .advance 0]

theorem fiber_runs_on_one_thread_resumed_later :
    ∃ s : State 2, run step (start 2)
        (waitAndDrop ++ [.fire 0, .advance 1, .advance 1, .advance 1]) = some s ∧
      (s.threads 1).pc = .running ⟨false, 0, none⟩ 1 false ∧ s.OneAtATime := by
  have hpc : (run step (start 2)
      (waitAndDrop ++ [.fire 0, .advance 1, .advance 1, .advance 1])).map
        (fun s => (s.threads 1).pc) = some (.running ⟨false, 0, none⟩ 1 false) := by decide
  obtain ⟨s, hs, hpc⟩ := Option.map_eq_some_iff.mp hpc
  exact ⟨s, hs, hpc, fiber_runs_on_one_thread 2 _ s (by decide) hs⟩

/-- The same callback is fired between the store of `FIBER_HOLD` and the context switch;
the state is no longer `FIBER_RUNNING`, so thread 1 takes the fiber and resumes it. -/
theorem fiber_runs_on_two_threads :
    ∃ s : State 2, run step (start 2)
        [.submit none, .advance 0, .advance 0, .advance 0, .register 0, .finish 0 .yieldToHold,
          .fire 0, .advance 1, .advance 1, .advance 1] = some s ∧
      (s.threads 0).pc.inside = some 0 ∧ (s.threads 1).pc.inside = some 0 ∧
      s.log = [(0, 0), (0, 0)] ∧ ¬ s.OneAtATime := by
  have hend : (run step (start 2)
      [.submit none, .advance 0, .advance 0, .advance 0, .register 0, .finish 0 .yieldToHold,
        .fire 0, .advance 1, .advance 1, .advance 1]).map
      (fun s => ((s.threads 0).pc.inside, (s.threads 1).pc.inside, s.log)) =
        some (some 0, some 0, [(0, 0), (0, 0)]) := by decide
  obtain ⟨s, hs, hfields⟩ := Option.map_eq_some_iff.mp hend
  simp only [Prod.mk.injEq] at hfields
  obtain ⟨h₀, h₁, hlog⟩ := hfields
  exact ⟨s, hs, h₀, h₁, hlog, fun h => absurd (h.inside 0 1 0 h₀ h₁) (by decide)⟩

end State

end Xzmjx.SchedulerModel
