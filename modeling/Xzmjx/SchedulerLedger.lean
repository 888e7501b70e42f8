import Xzmjx.SchedulerCustody
import Mathlib.Algebra.BigOperators.Group.Finset.Basic
import Mathlib.Algebra.BigOperators.Fin
import Mathlib.Data.Multiset.Bind
import Mathlib.Algebra.Order.Group.Multiset
import Mathlib.Tactic.Abel

/-!
# A ledger of the callbacks

In a run whose fibers come from submitted callbacks and never wait, each callback
is in one place: a task in the queue, the task or fiber a thread is working on, or
the list of those that ended. The ledger collects these places, each with the
number of slices that were started. `Tidy` is what such runs know about the fiber
states at each point of the loop.
-/
namespace Xzmjx.SchedulerModel
open Function StepSystem

def FiberState.ended (s : FiberState) : Bool := s = .term || s = .except

/-- The states in which a thread can find its fiber. -/
def Pc.allows : Pc → FiberState → Bool
  | .branch _, s => s = .ready
  | .resume _, s => s = .init || s = .ready
  | .running .., s => s = .running
  | .yielding .., s | .switched _, s | .check _, s => s = .ready || s.ended
  | .resubmit _, s => s = .ready
  | .checkTerm _, s | .recycle _, s => s.ended
  | .checkExcept _, s => s = .except
  | .pop, _ | .wait, _ | .left, _ => true

/-- The thread a task is meant for, while it is known. -/
def Pc.threadId : Pc → Option ℕ
  | .branch task => task.threadId
  | .resume j | .running j _ _ | .yielding j _ | .switched j | .check j | .resubmit j
  | .checkTerm j | .checkExcept j | .recycle j => j.threadId
  | .pop | .wait | .left => none

def Pc.waits : Pc → Bool
  | .running _ _ waits => waits
  | _ => false

structure Pc.Plain (fibers : ℕ → Fiber) (pc : Pc) : Prop where
  threadId : pc.threadId = none
  waits : pc.waits = false
  allows : ∀ f, pc.fiber = some f → pc.allows (fibers f).state = true

structure Task.Plain (fibers : ℕ → Fiber) (task : Task) : Prop where
  threadId : task.threadId = none
  ready : ∀ f, task.fiber = some f → (fibers f).state = .ready

/-- The callback that goes on with the fiber, and how many slices of it were started. -/
def Fiber.carries (fb : Fiber) : Multiset (ℕ × ℕ) :=
  if fb.state.ended then 0 else ↑(fb.cb.toList.map fun c => (c, fb.slice))

def Task.carries (fibers : ℕ → Fiber) (task : Task) : Multiset (ℕ × ℕ) :=
  match task.fiber with
  | some f => (fibers f).carries
  | none => ↑(task.taskCb.toList.map fun c => (c, 0))

/-- Inside a slice the context that was saved last is the one before it. -/
def Pc.carries (fibers : ℕ → Fiber) : Pc → Multiset (ℕ × ℕ)
  | .branch task => task.carries fibers
  | .running j k _ | .yielding j k => Fiber.carries { fibers j.fiber with slice := k + 1 }
  | .resume j | .switched j | .check j | .resubmit j | .checkTerm j | .checkExcept j | .recycle j =>
      (fibers j.fiber).carries
  | .pop | .wait | .left => 0

theorem Pc.Plain.congr {fibers fibers' : ℕ → Fiber} {pc : Pc} (h : pc.Plain fibers)
    (hf : ∀ f, pc.fiber = some f → fibers' f = fibers f) : pc.Plain fibers' := by
  refine ⟨h.threadId, h.waits, fun f hpc => ?_⟩
  rw [hf f hpc]
  exact h.allows f hpc

theorem Task.carries_congr {fibers fibers' : ℕ → Fiber} {task : Task}
    (hf : ∀ f, task.fiber = some f → fibers' f = fibers f) :
    task.carries fibers' = task.carries fibers := by
  unfold Task.carries
  split
  · next f h => rw [hf f h]
  · rfl

theorem Pc.carries_congr {fibers fibers' : ℕ → Fiber} {pc : Pc}
    (hf : ∀ f, pc.fiber = some f → fibers' f = fibers f) :
    pc.carries fibers' = pc.carries fibers := by
  cases pc with
  | branch task => exact Task.carries_congr hf
  | pop | wait | left => rfl
  | _ => simp only [Pc.carries, hf _ rfl]

/-- A plain thread never lends its fiber. -/
theorem Pc.Plain.not_lent {fibers : ℕ → Fiber} {pc : Pc} (h : pc.Plain fibers) :
    ¬ Lent fibers pc := by
  intro hl
  cases pc with
  | running j k waits => exact absurd (h.waits.symm.trans hl) (by decide)
  | yielding | switched | check | checkTerm | checkExcept =>
      have ha := h.allows _ rfl
      rw [show (fibers _).state = .hold from hl] at ha
      cases ha
  | _ => exact hl

theorem Pc.plain_of_job {fibers : ℕ → Fiber} {pc : Pc} {j : Job} (hfiber : pc.fiber = some j.fiber)
    (hthread : pc.threadId = none) (hwaits : pc.waits = false)
    (hallows : pc.allows (fibers j.fiber).state = true) : pc.Plain fibers := by
  refine ⟨hthread, hwaits, fun f hf => ?_⟩
  rw [← Option.some.inj (hfiber.symm.trans hf)]
  exact hallows

theorem Pc.plain_of_idle {fibers : ℕ → Fiber} {pc : Pc} (hfiber : pc.fiber = none)
    (hthread : pc.threadId = none) (hwaits : pc.waits = false) : pc.Plain fibers :=
  ⟨hthread, hwaits, by simp [hfiber]⟩

namespace State
variable {n : ℕ}

def queueCarries (s : State n) : Multiset (ℕ × ℕ) := (s.queue.map (Task.carries s.fibers)).sum

def ledger (s : State n) : Multiset (ℕ × ℕ) :=
  s.queueCarries + ∑ t, (s.threads t).pc.carries s.fibers + s.ended

structure Tidy (s : State n) : Prop where
  custody : s.Custody
  source : s.source = []
  threads : ∀ t, (s.threads t).pc.Plain s.fibers
  queue : ∀ task ∈ s.queue, task.Plain s.fibers

/-- The same callbacks have started the same slices. -/
structure SameBooks (s s' : State n) : Prop where
  nextCb : s'.nextCb = s.nextCb
  log : s'.log = s.log
  ledger : s'.ledger = s.ledger

/-- One more slice of one callback was started. -/
structure Starts (s s' : State n) (c k : ℕ) : Prop where
  nextCb : s'.nextCb = s.nextCb
  log : s'.log = s.log ++ [(c, k)]
  ledger : s'.ledger + {(c, k)} = s.ledger + {(c, k + 1)}

theorem tidy_start (n : ℕ) : (start n).Tidy :=
  ⟨custody_start n, rfl, fun _ => ⟨rfl, rfl, by simp [start, Pc.fiber]⟩, by simp [start]⟩

theorem mem_pending {s : State n} {task : Task} (ht : task ∈ s.queue) {f : ℕ}
    (hf : task.fiber = some f) : f ∈ s.pending :=
  List.mem_append_left _ (List.mem_filterMap.mpr ⟨task, ht, hf⟩)

/-- In a tidy state a queued fiber is in nobody's custody. -/
theorem Tidy.not_mem_refs {s : State n} (h : s.Tidy) {f : ℕ} (hf : f ∈ s.pending) (t : Fin n) :
    f ∉ (s.threads t).refs := by
  intro hr
  rcases (Thread.mem_refs _ _).mp hr with hp | hc
  · exact (h.custody.threads t).parked f hp hf
  · exact (h.threads t).not_lent ((h.custody.threads t).current f hc hf)

theorem Tidy.released {s : State n} (h : s.Tidy) (t : Fin n) : s.Released (.advance t) := by
  intro _ taken htaken f hf t' hpc
  have hmem : f ∈ s.pending := mem_pending (mem_of_pick htaken).1 hf
  exact h.not_mem_refs hmem t' (by simp [hpc])

/-- Only fibers of the thread, or new ones, are touched. -/
def Touches (s s' : State n) (t : Fin n) : Prop :=
  ∀ f, f ∉ (s.threads t).refs → f < s.nextFiber → s'.fibers f = s.fibers f

theorem Tidy.frame_thread {s s' : State n} (h : s.Tidy) {t t' : Fin n} (ht : t' ≠ t)
    (htouch : s.Touches s' t) {f : ℕ} (hf : (s.threads t').pc.fiber = some f) :
    s'.fibers f = s.fibers f := by
  have hr : f ∈ (s.threads t').refs := by simp [hf]
  exact htouch f (h.custody.not_mem_refs ht.symm hr) ((h.custody.threads t').allocated f hr)

theorem Tidy.frame_queue {s s' : State n} (h : s.Tidy) {t : Fin n} (htouch : s.Touches s' t)
    {task : Task} (ht : task ∈ s.queue) {f : ℕ} (hf : task.fiber = some f) :
    s'.fibers f = s.fibers f :=
  htouch f (h.not_mem_refs (mem_pending ht hf) t)
    (h.custody.pending_allocated f (mem_pending ht hf))

/-- The ledger after a step of one thread differs in its place, the queue and the end. -/
theorem Tidy.ledger_turn {s s' : State n} (h : s.Tidy) {t : Fin n} {th : Thread}
    (hthreads : s'.threads = Function.update s.threads t th) (htouch : s.Touches s' t) :
    s'.ledger + (s.queueCarries + (s.threads t).pc.carries s.fibers + s.ended) =
      s.ledger + (s'.queueCarries + th.pc.carries s'.fibers + s'.ended) := by
  have hrest : ∑ t' ∈ Finset.univ.erase t, (s'.threads t').pc.carries s'.fibers =
      ∑ t' ∈ Finset.univ.erase t, (s.threads t').pc.carries s.fibers := by
    refine Finset.sum_congr rfl fun t' ht' => ?_
    have hne := Finset.ne_of_mem_erase ht'
    rw [hthreads, update_of_ne hne]
    exact Pc.carries_congr fun f hf => h.frame_thread hne htouch hf
  have hself : s'.threads t = th := by rw [hthreads, update_self]
  unfold ledger
  rw [← Finset.add_sum_erase _ _ (Finset.mem_univ t),
    ← Finset.add_sum_erase _ _ (Finset.mem_univ t),
    hrest, hself]
  abel

theorem Tidy.queueCarries_eq {s s' : State n} (h : s.Tidy) {t : Fin n} (htouch : s.Touches s' t)
    (hqueue : s'.queue = s.queue) : s'.queueCarries = s.queueCarries := by
  unfold queueCarries
  rw [hqueue]
  refine congrArg _ (List.map_congr_left fun task ht => ?_)
  exact Task.carries_congr fun f hf => h.frame_queue htouch ht hf

/-- A step of one thread that keeps a run tidy. -/
theorem Tidy.turn {s s' : State n} (h : s.Tidy) (hc : s'.Custody) {t : Fin n} {th : Thread}
    (hthreads : s'.threads = Function.update s.threads t th) (htouch : s.Touches s' t)
    (hsource : s'.source = s.source) (hpc : th.pc.Plain s'.fibers)
    (hqueue : ∀ task ∈ s'.queue, task ∈ s.queue ∨ task.Plain s'.fibers) : s'.Tidy := by
  refine ⟨hc, hsource.trans h.source, fun t' => ?_, fun task ht => ?_⟩
  · by_cases htt : t' = t
    · subst htt
      rw [hthreads, update_self]
      exact hpc
    · rw [hthreads, update_of_ne htt]
      exact (h.threads t').congr fun f hf => h.frame_thread htt htouch hf
  · rcases hqueue task ht with hold | hnew
    · have hp := h.queue task hold
      refine ⟨hp.threadId, fun f hf => ?_⟩
      rw [h.frame_queue htouch hold hf]
      exact hp.ready f hf
    · exact hnew

/-- A step of one thread that moves entries of the ledger between places. -/
theorem Tidy.sameBooks {s s' : State n} (h : s.Tidy) {t : Fin n} {th : Thread}
    (hthreads : s'.threads = Function.update s.threads t th) (htouch : s.Touches s' t)
    (hnext : s'.nextCb = s.nextCb) (hlog : s'.log = s.log)
    (hmoved : s'.queueCarries + th.pc.carries s'.fibers + s'.ended =
      s.queueCarries + (s.threads t).pc.carries s.fibers + s.ended) : s.SameBooks s' := by
  have hturn := h.ledger_turn hthreads htouch
  rw [hmoved] at hturn
  exact ⟨hnext, hlog, add_right_cancel hturn⟩

/-- A step of one thread that keeps the queue and what has ended. -/
theorem Tidy.goto {s s' : State n} (h : s.Tidy) (hc : s'.Custody) {t : Fin n} {th : Thread}
    (hthreads : s'.threads = Function.update s.threads t th) (htouch : s.Touches s' t)
    (hsource : s'.source = s.source) (hnext : s'.nextCb = s.nextCb) (hlog : s'.log = s.log)
    (hqueue : s'.queue = s.queue) (hended : s'.ended = s.ended) (hpc : th.pc.Plain s'.fibers)
    (hcarries : th.pc.carries s'.fibers = (s.threads t).pc.carries s.fibers) :
    s'.Tidy ∧ s.SameBooks s' := by
  refine ⟨h.turn hc hthreads htouch hsource hpc fun task ht => .inl (hqueue ▸ ht), ?_⟩
  refine h.sameBooks hthreads htouch hnext hlog ?_
  rw [h.queueCarries_eq htouch hqueue, hcarries, hended]

theorem touches_rfl (s : State n) (t : Fin n) {s' : State n} (h : s'.fibers = s.fibers) :
    s.Touches s' t := fun f _ _ => by rw [h]

theorem touches_setFiber (s : State n) {t : Fin n} {f : ℕ} (fb : Fiber) {s' : State n}
    (hf : f ∈ (s.threads t).refs ∨ s.nextFiber ≤ f)
    (h : s'.fibers = Function.update s.fibers f fb) : s.Touches s' t := by
  intro g hg hlt
  have hne : g ≠ f := by
    rintro rfl
    exact hf.elim hg (by omega)
  rw [h, update_of_ne hne]

theorem queueCarries_pop {s s' : State n} {l r : List Task} {task : Task}
    (hq : s.queue = l ++ task :: r) (hq' : s'.queue = l ++ r) (hf : s'.fibers = s.fibers) :
    s'.queueCarries + task.carries s.fibers = s.queueCarries := by
  simp only [queueCarries, hq, hq', hf, List.map_append, List.map_cons, List.sum_append,
    List.sum_cons]
  abel

theorem Tidy.pop {s : State n} (h : s.Tidy) {t : Fin n} (hpc : (s.threads t).pc = .pop)
    {task : Task} {rest : List Task} (hpick : pick t s.fibers s.queue = some (task, rest))
    (hc : ({ s with queue := rest }.goto t (.branch task)).Custody) :
    ({ s with queue := rest }.goto t (.branch task)).Tidy ∧
      s.SameBooks ({ s with queue := rest }.goto t (.branch task)) := by
  obtain ⟨-, l, r, hq, rfl⟩ := pick_eq_some hpick
  obtain ⟨hmem, hsub⟩ := mem_of_pick hpick
  have htask := h.queue task hmem
  refine ⟨h.turn hc rfl (s.touches_rfl t rfl) rfl ⟨htask.threadId, rfl, fun f hf => ?_⟩
    fun x hx => .inl (hsub x hx), ?_⟩
  · exact decide_eq_true (htask.ready f hf)
  · have hcar : ({ s with queue := l ++ r }.goto t (.branch task)).queueCarries +
        task.carries s.fibers = s.queueCarries := queueCarries_pop hq rfl rfl
    refine h.sameBooks rfl (s.touches_rfl t rfl) rfl rfl ?_
    rw [hpc, ← hcar]
    simp only [Pc.carries, add_zero]
    rfl

theorem Tidy.plain_at {s : State n} (h : s.Tidy) {t : Fin n} {pc : Pc}
    (hpc : (s.threads t).pc = pc) : pc.Plain s.fibers := hpc ▸ h.threads t

theorem mem_refs_of_pc {s : State n} {t : Fin n} {f : ℕ} (h : (s.threads t).pc.fiber = some f) :
    f ∈ (s.threads t).refs := by simp [h]

/-- A task with a callback carries its first slice. -/
theorem carries_branch {s : State n} {t : Fin n} {task : Task} {cb : ℕ}
    (hpc : (s.threads t).pc = .branch task) (hnone : task.fiber = none)
    (hcb : task.taskCb = some cb) : (s.threads t).pc.carries s.fibers = ↑[(cb, 0)] := by
  simp [hpc, Pc.carries, Task.carries, hnone, hcb]

/-- The callback branch takes the callback of the task to the fiber `f`. -/
theorem Tidy.branchCb {s s' : State n} (h : s.Tidy) (hc : s'.Custody) {t : Fin n} {th : Thread}
    {task : Task} {cb f : ℕ} (hpc : (s.threads t).pc = .branch task)
    (hnone : task.fiber = none) (hcb : task.taskCb = some cb)
    (hf : f ∈ (s.threads t).refs ∨ s.nextFiber ≤ f)
    (hthreads : s'.threads = Function.update s.threads t th)
    (hfibers : s'.fibers = Function.update s.fibers f { cb := some cb })
    (hsource : s'.source = s.source) (hnext : s'.nextCb = s.nextCb) (hlog : s'.log = s.log)
    (hqueue : s'.queue = s.queue) (hended : s'.ended = s.ended)
    (hth : th.pc = .resume ⟨true, f, none⟩) : s'.Tidy ∧ s.SameBooks s' := by
  refine h.goto hc hthreads (s.touches_setFiber _ hf hfibers) hsource hnext hlog hqueue hended
    ?_ ?_
  · rw [hth]
    refine ⟨rfl, rfl, fun g hg => ?_⟩
    have hgf : f = g := by simpa [Pc.fiber] using hg
    simp [← hgf, hfibers, Pc.allows]
  · rw [carries_branch hpc hnone hcb, hth]
    simp [Pc.carries, Fiber.carries, FiberState.ended, hfibers]

/-- `resume` starts the slice that was saved, if the fiber has a callback. -/
theorem Tidy.resume {s s' : State n} (h : s.Tidy) (hc : s'.Custody) {t : Fin n} {j : Job}
    (hpc : (s.threads t).pc = .resume j)
    (hthreads : s'.threads = Function.update s.threads t
      { s.threads t with pc := .running j (s.fibers j.fiber).slice false })
    (hfibers : s'.fibers =
      Function.update s.fibers j.fiber { s.fibers j.fiber with state := .running })
    (hqueue : s'.queue = s.queue) (hsource : s'.source = s.source) (hended : s'.ended = s.ended)
    (hnext : s'.nextCb = s.nextCb)
    (hlog : s'.log = s.log ++ (s.fibers j.fiber).cb.toList.map fun c =>
      (c, (s.fibers j.fiber).slice)) :
    s'.Tidy ∧ (s.SameBooks s' ∨ ∃ c k, s.Starts s' c k) := by
  have hp := h.plain_at hpc
  have hlive : (s.fibers j.fiber).state.ended = false := by
    have ha := hp.allows _ rfl
    cases hst : (s.fibers j.fiber).state <;> simp_all [Pc.allows, FiberState.ended]
  have htouch : s.Touches s' t :=
    s.touches_setFiber _ (.inl (mem_refs_of_pc (by rw [hpc]; rfl))) hfibers
  refine ⟨h.turn hc hthreads htouch hsource ⟨hp.threadId, rfl, fun f hf => ?_⟩
    fun task ht => .inl (hqueue ▸ ht), ?_⟩
  · have hfj : j.fiber = f := by simpa [Pc.fiber] using hf
    simp [hfibers, ← hfj, Pc.allows]
  have hbefore : Pc.carries s.fibers (.resume j) =
      ↑((s.fibers j.fiber).cb.toList.map fun c => (c, (s.fibers j.fiber).slice)) := by
    simp [Pc.carries, Fiber.carries, hlive]
  have hafter : Pc.carries s'.fibers (.running j (s.fibers j.fiber).slice false) =
      ↑((s.fibers j.fiber).cb.toList.map fun c => (c, (s.fibers j.fiber).slice + 1)) := by
    simp [Pc.carries, Fiber.carries, hfibers, FiberState.ended]
  have hturn := h.ledger_turn hthreads htouch
  rw [h.queueCarries_eq htouch hqueue, hpc, hended, hbefore, hafter] at hturn
  cases hcb : (s.fibers j.fiber).cb with
  | none =>
      refine .inl ⟨hnext, by simp [hlog, hcb], ?_⟩
      simpa [hcb] using hturn
  | some c =>
      refine .inr ⟨c, (s.fibers j.fiber).slice, hnext, by simp [hlog, hcb], ?_⟩
      simp only [hcb, Option.toList_some, List.map_cons, List.map_nil, Multiset.coe_singleton]
        at hturn
      refine add_right_cancel (b := s.queueCarries + s.ended) ?_
      calc s'.ledger + {(c, (s.fibers j.fiber).slice)} + (s.queueCarries + s.ended)
          = s'.ledger + (s.queueCarries + {(c, (s.fibers j.fiber).slice)} + s.ended) := by abel
        _ = s.ledger + (s.queueCarries + {(c, (s.fibers j.fiber).slice + 1)} + s.ended) := hturn
        _ = s.ledger + {(c, (s.fibers j.fiber).slice + 1)} + (s.queueCarries + s.ended) := by abel

/-- A fiber that was found ready goes back to the queue. -/
theorem Tidy.resubmit {s : State n} (h : s.Tidy) {t : Fin n} {j : Job}
    (hpc : (s.threads t).pc = .resubmit j) :
    let s' := (s.enqueue { fiber := some j.fiber, threadId := j.threadId }).goto t .pop
    s'.Tidy ∧ s.SameBooks s' := by
  have hp := h.plain_at hpc
  have hcarry : Task.carries s.fibers { fiber := some j.fiber, threadId := j.threadId } =
      (s.threads t).pc.carries s.fibers := by rw [hpc]; rfl
  refine ⟨h.turn (h.custody.resubmit hpc) rfl (s.touches_rfl t rfl) rfl
    ⟨rfl, rfl, by simp [Pc.fiber]⟩ fun task ht => ?_,
    h.sameBooks rfl (s.touches_rfl t rfl) rfl rfl ?_⟩
  · refine (mem_enqueue ht).imp id ?_
    rintro rfl
    refine ⟨hp.threadId, fun f hf => ?_⟩
    have hfj : j.fiber = f := by simpa using hf
    have ha := hp.allows _ rfl
    simpa [Pc.allows, hfj] using ha
  · simp only [queueCarries, State.goto, setThread, enqueue, Option.isSome_some, Bool.true_or,
      if_true, List.map_append, List.map_cons, List.map_nil, List.sum_append, List.sum_cons,
      List.sum_nil, add_zero, hcarry, Pc.carries]

/-- A step that only moves the thread on, in the table of places too. -/
theorem Tidy.keep {s : State n} (h : s.Tidy) {t : Fin n} {pc : Pc} (hpc : (s.threads t).pc = pc)
    {pc' : Pc} {active : ℕ} (hc : ({ s with active }.goto t pc').Custody)
    (hplain : pc'.Plain s.fibers) (hcarries : pc'.carries s.fibers = pc.carries s.fibers) :
    ({ s with active }.goto t pc').Tidy ∧ s.SameBooks ({ s with active }.goto t pc') :=
  h.goto hc rfl (s.touches_rfl t rfl) rfl rfl rfl rfl rfl hplain (hpc ▸ hcarries)

theorem Fiber.carries_of_ended {fb : Fiber} (h : fb.state.ended = true) : fb.carries = 0 := by
  simp [Fiber.carries, h]

/-- A step of the loop moves entries between places, apart from `resume`. -/
theorem Tidy.advance {s s' : State n} (h : s.Tidy) {t : Fin n} (hs : s.advance t = some s') :
    s'.Tidy ∧ (s.SameBooks s' ∨ ∃ c k, s.Starts s' c k) := by
  have hc := h.custody.advance (h.released t) hs
  cases advances_of_advance hs with
  | idle hpc hpick =>
      exact (h.keep hpc hc (Pc.plain_of_idle rfl rfl rfl) rfl).imp id .inl
  | take hpc hpick => exact (h.pop hpc hpick hc).imp id .inl
  | @branchFiber task f hpc hf =>
      have hp := h.plain_at hpc
      refine (h.keep hpc hc ⟨hp.threadId, rfl, fun g hg => ?_⟩ ?_).imp id .inl
      · have hg' := hp.allows g (hf.trans hg)
        simp only [Pc.allows, decide_eq_true_eq] at hg'
        simp [Pc.allows, hg']
      · simp [Pc.carries, Task.carries, hf]
  | reuse hpc hnone hcb hf hreset =>
      exact (h.branchCb hc hpc hnone hcb (.inl (by simp [hf])) rfl rfl rfl rfl rfl rfl rfl
        rfl).imp id .inl
  | construct hpc hnone hcb hf =>
      exact (h.branchCb hc hpc hnone hcb (.inr le_rfl) rfl rfl rfl rfl rfl rfl rfl
        rfl).imp id .inl
  | resume hpc hstate => exact h.resume hc hpc rfl rfl rfl rfl rfl rfl rfl
  | @switch j k hpc =>
      have hp := h.plain_at hpc
      refine (h.goto hc rfl (s.touches_setFiber _ (.inl (mem_refs_of_pc (by rw [hpc]; rfl))) rfl)
        rfl rfl rfl rfl rfl (Pc.plain_of_job rfl hp.threadId rfl ?_) ?_).imp id .inl
      · simpa [Pc.allows] using hp.allows _ rfl
      · simp [hpc, Pc.carries]
  | lower hpc =>
      have hp := h.plain_at hpc
      exact (h.keep hpc hc (Pc.plain_of_job rfl hp.threadId rfl (hp.allows _ rfl)) rfl).imp id .inl
  | ready hpc hstate =>
      have hp := h.plain_at hpc
      exact (h.keep hpc hc (Pc.plain_of_job rfl hp.threadId rfl (decide_eq_true hstate))
        rfl).imp id .inl
  | @notReady j hpc hstate =>
      have hp := h.plain_at hpc
      have hend : (s.fibers j.fiber).state.ended = true := by
        simpa [Pc.allows, hstate] using hp.allows _ rfl
      by_cases hown : j.own
      · rw [if_pos hown] at hc ⊢
        exact (h.keep hpc hc (Pc.plain_of_job rfl hp.threadId rfl hend) rfl).imp id .inl
      · rw [if_neg hown] at hc ⊢
        exact (h.keep hpc hc (Pc.plain_of_idle rfl rfl rfl)
          (Fiber.carries_of_ended hend).symm).imp id .inl
  | resubmit hpc => exact (h.resubmit hpc).imp id .inl
  | @checkTerm j hpc =>
      have hp := h.plain_at hpc
      have hend : (s.fibers j.fiber).state.ended = true := hp.allows _ rfl
      by_cases hterm : (s.fibers j.fiber).state = .term
      · rw [if_pos hterm] at hc ⊢
        exact (h.keep hpc hc (Pc.plain_of_job rfl hp.threadId rfl hend) rfl).imp id .inl
      · have hexcept : (s.fibers j.fiber).state = .except := by
          simpa [FiberState.ended, hterm] using hend
        rw [if_neg hterm] at hc ⊢
        exact (h.keep hpc hc (Pc.plain_of_job rfl hp.threadId rfl (decide_eq_true hexcept))
          rfl).imp id .inl
  | @checkExcept j hpc =>
      have hp := h.plain_at hpc
      have hexcept : (s.fibers j.fiber).state = .except := of_decide_eq_true (hp.allows _ rfl)
      rw [if_pos hexcept] at hc ⊢
      refine (h.keep hpc hc (Pc.plain_of_job rfl hp.threadId rfl ?_) rfl).imp id .inl
      simp [Pc.allows, FiberState.ended, hexcept]
  | @recycle j hpc hreset =>
      have hend : (s.fibers j.fiber).state.ended = true := (h.plain_at hpc).allows _ rfl
      refine (h.goto hc rfl
        (s.touches_setFiber _ (.inl (mem_refs_of_pc (by rw [hpc]; rfl))) rfl)
        rfl rfl rfl rfl rfl (Pc.plain_of_idle rfl rfl rfl) ?_).imp id .inl
      rw [hpc]
      exact (Fiber.carries_of_ended hend).symm
  | leave hpc hterm =>
      exact (h.keep hpc hc (Pc.plain_of_idle rfl rfl rfl) rfl).imp id .inl
  | terminate hpc hcan =>
      exact (h.goto hc rfl (s.touches_rfl t rfl) rfl rfl rfl rfl rfl
        (Pc.plain_of_idle rfl rfl rfl) (by rw [hpc]; rfl)).imp id .inl
  | again hpc => exact (h.keep hpc hc (Pc.plain_of_idle rfl rfl rfl) rfl).imp id .inl

/-- What the store at the end of a slice must provide: a state that the checks can meet, and
the entry kept. -/
theorem Tidy.store {s : State n} (h : s.Tidy) {t : Fin n} {j : Job} {k : ℕ} {waits : Bool}
    (hpc : (s.threads t).pc = .running j k waits) {fb : Fiber} {ended : List (ℕ × ℕ)}
    (hc : ({ s.setFiber j.fiber fb with ended }.goto t (.yielding j k)).Custody)
    (hst : fb.state = .ready ∨ fb.state.ended = true)
    (hentry : Fiber.carries { fb with slice := k + 1 } + ↑ended =
      ↑((s.fibers j.fiber).cb.toList.map fun c => (c, k + 1)) + (s.ended : Multiset (ℕ × ℕ))) :
    ({ s.setFiber j.fiber fb with ended }.goto t (.yielding j k)).Tidy ∧
      s.SameBooks ({ s.setFiber j.fiber fb with ended }.goto t (.yielding j k)) := by
  have hp := h.plain_at hpc
  have hrunning : (s.fibers j.fiber).state = .running := of_decide_eq_true (hp.allows _ rfl)
  have hcarries : (s.threads t).pc.carries s.fibers =
      ↑((s.fibers j.fiber).cb.toList.map fun c => (c, k + 1)) := by
    simp [hpc, Pc.carries, Fiber.carries, hrunning, FiberState.ended]
  have htouch : s.Touches ({ s.setFiber j.fiber fb with ended }.goto t (.yielding j k)) t :=
    s.touches_setFiber _ (.inl (mem_refs_of_pc (by rw [hpc]; rfl))) rfl
  refine ⟨h.turn hc rfl htouch rfl (Pc.plain_of_job rfl hp.threadId rfl ?_)
    fun _ ht => .inl ht, h.sameBooks rfl htouch rfl rfl ?_⟩
  · simpa [Pc.allows] using hst
  · rw [h.queueCarries_eq htouch rfl, hcarries, add_assoc, add_assoc]
    refine congrArg _ (Eq.trans ?_ hentry)
    simp [Pc.carries]
    rfl

/-- The end of a slice: the callback goes on later, or it is among those that ended. -/
theorem Tidy.finish {s s' : State n} (h : s.Tidy) {t : Fin n} {e : Ending}
    (he : e ≠ .yieldToHold) (hs : s.finish t e = some s') : s'.Tidy ∧ s.SameBooks s' := by
  have hc := h.custody.finish hs
  cases finishes_of_finish hs with
  | returns hpc =>
      refine h.store hpc hc (.inr rfl) ?_
      simp [Fiber.carries, FiberState.ended, ← Multiset.coe_add, add_comm]
  | throws hpc =>
      refine h.store hpc hc (.inr rfl) ?_
      simp [Fiber.carries, FiberState.ended, ← Multiset.coe_add, add_comm]
  | yieldToReady hpc =>
      refine h.store hpc hc (.inl rfl) ?_
      simp [Fiber.carries, FiberState.ended]
  | yieldToHold hpc => exact absurd rfl he

/-- A new callback gets an entry of its own. -/
theorem Tidy.submitCb {s : State n} (h : s.Tidy) :
    (s.submitCb none).Tidy ∧ (s.submitCb none).ledger = s.ledger + {(s.nextCb, 0)} := by
  refine ⟨⟨h.custody.submitCb none, h.source, h.threads, fun task ht => ?_⟩, ?_⟩
  · rcases mem_enqueue ht with hold | rfl
    · exact h.queue task hold
    · exact ⟨rfl, by simp⟩
  · simp only [ledger, queueCarries, State.submitCb, enqueue, Option.isSome_none,
      Option.isSome_some, Bool.or_true, if_true, List.map_append, List.sum_append, List.map_cons,
      List.map_nil, List.sum_cons, List.sum_nil, add_zero, Task.carries, Option.toList_some,
      Multiset.coe_singleton]
    abel

end State

end Xzmjx.SchedulerModel
