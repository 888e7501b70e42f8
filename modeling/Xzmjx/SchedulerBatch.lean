import Mathlib.Data.List.Basic
import Mathlib.Tactic.Common
import Xzmjx.SchedulerModel

/-!
# Batch submission

`submit` for one task and `submit` for a range, as functions of `m_task`. The
loop over the range writes the decision to notify and the insertion as one
expression, `needNotify || submitNoLock(..)`, whose right side is skipped as soon
as the left side is true.
-/
namespace Xzmjx.SchedulerModel

/-- What is submitted: a fiber pointer or a `std::function`, either of which may be null. -/
inductive FiberOrCb
  | fiber (f : Option ℕ)
  | cb (c : Option ℕ)
  deriving DecidableEq, Repr

/-- The constructors of `Task`. -/
def FiberOrCb.task (threadId : Option ℕ) : FiberOrCb → Task
  | .fiber f => { fiber := f, threadId }
  | .cb c => { taskCb := c, threadId }

/-- `Task::operator bool`. -/
def Task.toBool (task : Task) : Bool := task.fiber.isSome || task.taskCb.isSome

def FiberOrCb.NonNull (fc : FiberOrCb) : Prop := (fc.task none).toBool = true

/-- `submitNoLock`: the queue afterwards, and whether it was empty before. -/
def submitNoLock (queue : List Task) (fc : FiberOrCb) (threadId : Option ℕ) : List Task × Bool :=
  let task := fc.task threadId
  (if task.toBool then queue ++ [task] else queue, queue.isEmpty)

/-- `submit` for one task: the queue afterwards, and whether `notify` is called. -/
def submit (queue : List Task) (fc : FiberOrCb) (threadId : Option ℕ) : List Task × Bool :=
  submitNoLock queue fc threadId

/-- The loop of `submit(begin, end)` under the mutex. -/
def submitLoop (queue : List Task) (needNotify : Bool) : List FiberOrCb → List Task × Bool
  | [] => (queue, needNotify)
  | fc :: rest =>
      if needNotify then submitLoop queue true rest
      else
        let (queue, empty) := submitNoLock queue fc none
        submitLoop queue empty rest

/-- `submit(begin, end)`: the queue afterwards, and whether `notify` is called. -/
def submitRange (queue : List Task) (fcs : List FiberOrCb) : List Task × Bool :=
  submitLoop queue false fcs

theorem submitNoLock_of_nonNull {fc : FiberOrCb} (h : fc.NonNull) (queue : List Task) :
    submitNoLock queue fc none = (queue ++ [fc.task none], queue.isEmpty) := by
  simp only [submitNoLock, show (fc.task none).toBool = true from h, if_true]

/-- Once `notify` is due, the rest of the range is passed over. -/
theorem submitLoop_true (queue : List Task) (fcs : List FiberOrCb) :
    submitLoop queue true fcs = (queue, true) := by
  induction fcs with
  | nil => rfl
  | cons fc rest ih => simpa [submitLoop] using ih

/-- On a queue that is not empty the whole range is queued. -/
theorem submitLoop_of_ne_nil {queue : List Task} (hq : queue ≠ []) {fcs : List FiberOrCb}
    (h : ∀ fc ∈ fcs, fc.NonNull) :
    submitLoop queue false fcs = (queue ++ fcs.map (FiberOrCb.task none), false) := by
  induction fcs generalizing queue with
  | nil => simp [submitLoop]
  | cons fc rest ih =>
      have hfc : fc.NonNull := h fc (by simp)
      have hrest : ∀ fc ∈ rest, fc.NonNull := fun fc hm => h fc (by simp [hm])
      have hempty : queue.isEmpty = false := by simpa using hq
      simp only [submitLoop, Bool.false_eq_true, if_false, submitNoLock_of_nonNull hfc, hempty]
      rw [ih (by simp) hrest]
      simp

/-- On an empty queue the first task of the range is queued and no other. -/
theorem submitLoop_nil {fc : FiberOrCb} (h : fc.NonNull) (rest : List FiberOrCb) :
    submitLoop [] false (fc :: rest) = ([fc.task none], true) := by
  simp only [submitLoop, Bool.false_eq_true, if_false, submitNoLock_of_nonNull h]
  exact submitLoop_true _ rest

theorem foldl_submit {fcs : List FiberOrCb} (h : ∀ fc ∈ fcs, fc.NonNull) (queue : List Task) :
    fcs.foldl (fun q fc => (submit q fc none).1) queue =
      queue ++ fcs.map (FiberOrCb.task none) := by
  induction fcs generalizing queue with
  | nil => simp
  | cons fc rest ih =>
      have hfc : fc.NonNull := h fc (by simp)
      rw [List.foldl_cons, submit, submitNoLock_of_nonNull hfc,
        ih (fun fc hm => h fc (by simp [hm]))]
      simp

/-- A batch submission queues the whole range behind the old tasks, as submitting the
tasks one by one does, and notifies if the queue was empty and the range is not. -/
structure BatchFaithful (queue : List Task) (fcs : List FiberOrCb) : Prop where
  appended : (submitRange queue fcs).1 = queue ++ fcs.map (FiberOrCb.task none)
  oneByOne :
    (submitRange queue fcs).1 = fcs.foldl (fun q fc => (submit q fc none).1) queue
  notifies : (submitRange queue fcs).2 = true ↔ queue = [] ∧ fcs ≠ []

theorem BatchFaithful.of_ne_nil {queue : List Task} (hq : queue ≠ []) {fcs : List FiberOrCb}
    (h : ∀ fc ∈ fcs, fc.NonNull) : BatchFaithful queue fcs := by
  have hloop := submitLoop_of_ne_nil hq h
  exact {
    appended := by rw [submitRange, hloop]
    oneByOne := by rw [submitRange, hloop, foldl_submit h]
    notifies := by rw [submitRange, hloop]; simp [hq] }

theorem BatchFaithful.of_length_le_one {fcs : List FiberOrCb} (hl : fcs.length ≤ 1)
    (h : ∀ fc ∈ fcs, fc.NonNull) : BatchFaithful [] fcs := by
  match fcs with
  | [] => exact ⟨rfl, rfl, by simp [submitRange, submitLoop]⟩
  | [fc] =>
      have hloop := submitLoop_nil (h fc (by simp)) []
      exact {
        appended := by rw [submitRange, hloop]; rfl
        oneByOne := by rw [submitRange, hloop, foldl_submit h]; rfl
        notifies := by rw [submitRange, hloop]; simp }
  | _ :: _ :: _ => simp at hl

/-- A batch submission does what it should exactly when the queue is not empty or the
range has at most one task. -/
theorem batchFaithful_iff (queue : List Task) (fcs : List FiberOrCb)
    (h : ∀ fc ∈ fcs, fc.NonNull) :
    BatchFaithful queue fcs ↔ queue ≠ [] ∨ fcs.length ≤ 1 := by
  constructor
  · intro hb
    by_contra hcon
    obtain ⟨hq, hl⟩ := not_or.mp hcon
    obtain rfl : queue = [] := not_not.mp hq
    match fcs with
    | [] => simp at hl
    | fc :: rest =>
        -- One task is in the queue, and the range has more.
        have happ := hb.appended
        rw [submitRange, submitLoop_nil (h fc (by simp))] at happ
        have hlen := congrArg List.length happ
        simp only [List.length_cons, List.length_nil, List.nil_append, List.map_cons,
          List.length_map] at hlen
        simp only [List.length_cons] at hl
        omega
  · rintro (hq | hl)
    · exact .of_ne_nil hq h
    · by_cases hq : queue = []
      · subst hq
        exact .of_length_le_one hl h
      · exact .of_ne_nil hq h

theorem batchFaithful_iff_busy :
    (∀ fc ∈ [FiberOrCb.cb (some 1), .cb (some 2)], fc.NonNull) ∧
      BatchFaithful [{ taskCb := some 0 }] [.cb (some 1), .cb (some 2)] := by
  have h : ∀ fc ∈ [FiberOrCb.cb (some 1), .cb (some 2)], fc.NonNull := by
    simp [FiberOrCb.NonNull, FiberOrCb.task, Task.toBool]
  exact ⟨h, (batchFaithful_iff _ _ h).mpr (.inl (by simp))⟩

/-- Two callbacks submitted together to an idle scheduler: the second one is lost. -/
theorem not_batchFaithful_idle :
    (∀ fc ∈ [FiberOrCb.cb (some 0), .cb (some 1)], fc.NonNull) ∧
      (submitRange [] [.cb (some 0), .cb (some 1)]).1 = [{ taskCb := some 0 }] ∧
      ¬BatchFaithful [] [.cb (some 0), .cb (some 1)] := by
  refine ⟨by simp [FiberOrCb.NonNull, FiberOrCb.task, Task.toBool], rfl, ?_⟩
  intro hb
  have happ : [({ taskCb := some 0 } : Task)] = [{ taskCb := some 0 }, { taskCb := some 1 }] :=
    hb.appended
  simp at happ

end Xzmjx.SchedulerModel
