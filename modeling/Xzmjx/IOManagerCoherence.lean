import Xzmjx.IOManagerModel
import Mathlib.Algebra.BigOperators.Group.Finset.Basic
import Mathlib.Algebra.Order.BigOperators.Group.Finset

/-!
# Coherence of the IO manager

The mask of a descriptor, its two event contexts, the kernel's interest and the
pending count describe one thing: which directions of which descriptors have a
waiter. `Coherent` says that they agree. In a coherent state every operation on
single events is one of three changes to that thing: `arm`, `drop` and `fire`.
-/
namespace Xzmjx.IOManagerModel
open Function

variable {ω : Type*}

inductive Direction
  | read
  | write
  deriving DecidableEq, Repr

def Direction.event : Direction → Event
  | .read => eventRead
  | .write => eventWrite

namespace Event

def has (e : Event) : Direction → Bool
  | .read => e.read
  | .write => e.write

/-- The number of bits set. -/
def bits (e : Event) : ℕ := e.read.toNat + e.write.toNat

/-- The registration that a mask calls for. -/
def registered (e : Event) : Option Event := if e.any then some e else none

theorem any_eq_false {e : Event} : e.any = false ↔ e = eventNone := by
  rcases e with ⟨_ | _, _ | _⟩ <;> decide

end Event

/-- A fiber or a callback together with the scheduler it belongs to. -/
structure Waiter (ω : Type*) where
  scheduler : ℕ
  isCb : Bool
  handle : ω
  deriving DecidableEq, Repr

namespace Waiter

/-- The event context that holds a waiter. -/
def context (w : Waiter ω) : EventContext ω :=
  if w.isCb then ⟨some w.scheduler, none, some w.handle⟩
  else ⟨some w.scheduler, some w.handle, none⟩

def submission (w : Waiter ω) : Submission ω :=
  if w.isCb then ⟨w.scheduler, none, some w.handle⟩ else ⟨w.scheduler, some w.handle, none⟩

end Waiter

/-- The waiter that an event context holds: a scheduler and exactly one of a
fiber and a callback. -/
def EventContext.waiter? (e : EventContext ω) : Option (Waiter ω) :=
  match e.scheduler, e.fiber, e.cb with
  | some s, some f, none => some ⟨s, false, f⟩
  | some s, none, some c => some ⟨s, true, c⟩
  | _, _, _ => none

/-- The event context of a direction with or without a waiter. -/
def occupant : Option (Waiter ω) → EventContext ω
  | none => {}
  | some w => w.context

@[simp] theorem waiter?_occupant (o : Option (Waiter ω)) : (occupant o).waiter? = o := by
  rcases o with _ | ⟨s, b, h⟩
  · rfl
  · cases b <;> rfl

theorem waiter?_isSome_iff (e : EventContext ω) :
    e.waiter?.isSome ↔ e.scheduler.isSome ∧ (e.fiber.isSome ^^ e.cb.isSome) := by
  rcases e with ⟨_ | s, _ | f, _ | c⟩ <;> simp [EventContext.waiter?]

namespace FdContext

def side (c : FdContext ω) : Direction → EventContext ω
  | .read => c.read
  | .write => c.write

/-- Change one direction: its bit in the mask and its event context. -/
def put (c : FdContext ω) (d : Direction) (o : Option (Waiter ω)) : FdContext ω :=
  match d with
  | .read => { c with read := occupant o, events := ⟨o.isSome, c.events.write⟩ }
  | .write => { c with write := occupant o, events := ⟨c.events.read, o.isSome⟩ }

@[simp] theorem side_put (c : FdContext ω) (d d' : Direction) (o : Option (Waiter ω)) :
    (c.put d o).side d' = if d' = d then occupant o else c.side d' := by
  cases d <;> cases d' <;> rfl

@[simp] theorem has_put (c : FdContext ω) (d d' : Direction) (o : Option (Waiter ω)) :
    (c.put d o).events.has d' = if d' = d then o.isSome else c.events.has d' := by
  cases d <;> cases d' <;> rfl

theorem bits_put (c : FdContext ω) (d : Direction) (o : Option (Waiter ω)) :
    (c.put d o).events.bits + (c.events.has d).toNat = c.events.bits + o.isSome.toNat := by
  cases d <;> simp only [put, Event.bits, Event.has] <;> omega

/-- The mask and the two event contexts agree. -/
def Coherent (c : FdContext ω) : Prop :=
  ∀ d, c.side d = occupant (c.side d).waiter? ∧ c.events.has d = (c.side d).waiter?.isSome

theorem Coherent.put {c : FdContext ω} (hc : c.Coherent) (d : Direction)
    (o : Option (Waiter ω)) : (c.put d o).Coherent := by
  intro d'
  by_cases h : d' = d
  · simp [h]
  · simpa [h] using hc d'

theorem coherent_empty : ({} : FdContext ω).Coherent := by
  intro d
  cases d <;> exact ⟨rfl, rfl⟩

end FdContext

namespace IOManager

/-- The mask of a descriptor. -/
abbrev events (io : IOManager ω) (fd : ℕ) : Event := (io.context fd).events

/-- The waiter of a direction of a descriptor. -/
def waiter? (io : IOManager ω) (fd : ℕ) (d : Direction) : Option (Waiter ω) :=
  ((io.context fd).side d).waiter?

structure Coherent (io : IOManager ω) : Prop where
  context : ∀ fd, (io.context fd).Coherent
  beyond : ∀ fd, io.size ≤ fd → io.events fd = eventNone
  pending : io.pendingEventCount = ∑ fd ∈ Finset.range io.size, (io.events fd).bits
  interest : ∀ fd, io.interest fd = (io.events fd).registered

/-- Change one direction of a descriptor everywhere but in the pending count. -/
def put (io : IOManager ω) (fd : ℕ) (d : Direction) (o : Option (Waiter ω)) : IOManager ω :=
  let c := (io.context fd).put d o
  { io with
    context := update io.context fd c
    interest := update io.interest fd c.events.registered }

def arm (io : IOManager ω) (fd : ℕ) (d : Direction) (w : Waiter ω) : IOManager ω :=
  { io.put fd d (some w) with pendingEventCount := io.pendingEventCount + 1 }

def drop (io : IOManager ω) (fd : ℕ) (d : Direction) : IOManager ω :=
  { io.put fd d none with pendingEventCount := decrement io.pendingEventCount }

def fire (io : IOManager ω) (fd : ℕ) (d : Direction) : IOManager ω :=
  { io.drop fd d with
    submitted := io.submitted ++ ((io.waiter? fd d).map Waiter.submission).toList }

@[simp] theorem context_put (io : IOManager ω) (fd : ℕ) (d : Direction) (o : Option (Waiter ω)) :
    (io.put fd d o).context = update io.context fd ((io.context fd).put d o) := rfl

theorem waiter?_put (io : IOManager ω) (fd fd' : ℕ) (d d' : Direction) (o : Option (Waiter ω)) :
    (io.put fd d o).waiter? fd' d' = if fd' = fd ∧ d' = d then o else io.waiter? fd' d' := by
  by_cases hf : fd' = fd
  · subst hf
    by_cases hd : d' = d
    · simp [waiter?, hd]
    · simp [waiter?, hd]
  · simp [waiter?, hf]

/-- The one way in which the operations keep coherence: a direction of a
descriptor within the table changes, and the count moves with its bit. -/
theorem Coherent.put {io : IOManager ω} (hc : io.Coherent) {fd : ℕ} (hfd : fd < io.size)
    (d : Direction) (o : Option (Waiter ω)) {n : ℕ}
    (hn : n + ((io.events fd).has d).toNat = io.pendingEventCount + o.isSome.toNat)
    (submitted : List (Submission ω)) :
    Coherent { io.put fd d o with pendingEventCount := n, submitted } := by
  refine ⟨fun fd' => ?_, fun fd' h => ?_, ?_, fun fd' => ?_⟩
  · by_cases h : fd' = fd
    · subst h
      simpa using (hc.context fd').put d o
    · simpa [h] using hc.context fd'
  · have hne : fd' ≠ fd := by
      rintro rfl
      exact absurd hfd (not_lt.mpr h)
    simpa [events, hne] using hc.beyond fd' h
  · have hmem : fd ∈ Finset.range io.size := Finset.mem_range.mpr hfd
    have hsum := hc.pending
    rw [← Finset.add_sum_erase _ _ hmem] at hsum
    have hrest : ∑ x ∈ (Finset.range io.size).erase fd, ((io.put fd d o).events x).bits =
        ∑ x ∈ (Finset.range io.size).erase fd, (io.events x).bits := by
      refine Finset.sum_congr rfl fun x hx => ?_
      simp [events, Finset.ne_of_mem_erase hx]
    have hnew : ((io.put fd d o).events fd).bits + ((io.events fd).has d).toNat =
        (io.events fd).bits + o.isSome.toNat := by
      simpa [events] using (io.context fd).bits_put d o
    show n = ∑ x ∈ Finset.range io.size, ((io.put fd d o).events x).bits
    rw [← Finset.add_sum_erase _ _ hmem, hrest]
    omega
  · by_cases h : fd' = fd
    · subst h
      simp [IOManager.put, events]
    · simpa [IOManager.put, events, h] using hc.interest fd'

/-- An armed direction is counted. -/
theorem Coherent.pending_pos {io : IOManager ω} (hc : io.Coherent) {fd : ℕ} {d : Direction}
    (h : (io.events fd).has d = true) : fd < io.size ∧ 0 < io.pendingEventCount := by
  have hfd : fd < io.size := by
    by_contra hle
    rw [hc.beyond fd (by omega)] at h
    cases d <;> cases h
  refine ⟨hfd, ?_⟩
  have hbits : 0 < (io.events fd).bits := by
    cases d <;> simp only [Event.has] at h <;> simp [Event.bits, h]
  rw [hc.pending]
  exact lt_of_lt_of_le hbits (Finset.single_le_sum (f := fun x => (io.events x).bits)
    (fun _ _ => Nat.zero_le _) (Finset.mem_range.mpr hfd))

theorem Coherent.arm {io : IOManager ω} (hc : io.Coherent) {fd : ℕ} (hfd : fd < io.size)
    {d : Direction} (h : (io.events fd).has d = false) (w : Waiter ω) :
    (io.arm fd d w).Coherent :=
  hc.put hfd d (some w) (by simp [h]) io.submitted

theorem Coherent.drop_submitted {io : IOManager ω} (hc : io.Coherent) {fd : ℕ} {d : Direction}
    (h : (io.events fd).has d = true) (submitted : List (Submission ω)) :
    Coherent { io.drop fd d with submitted } := by
  obtain ⟨hfd, hpos⟩ := hc.pending_pos h
  refine hc.put hfd d none ?_ submitted
  simp only [h, IOManager.drop, decrement, Bool.toNat_true, Option.isSome_none,
    Bool.toNat_false]
  split <;> omega

theorem Coherent.drop {io : IOManager ω} (hc : io.Coherent) {fd : ℕ} {d : Direction}
    (h : (io.events fd).has d = true) : (io.drop fd d).Coherent :=
  hc.drop_submitted h io.submitted

theorem Coherent.fire {io : IOManager ω} (hc : io.Coherent) {fd : ℕ} {d : Direction}
    (h : (io.events fd).has d = true) : (io.fire fd d).Coherent :=
  hc.drop_submitted h _

/-- Fresh descriptors have no waiters, so growing the table changes nothing else. -/
theorem Coherent.contextResize {io : IOManager ω} (hc : io.Coherent) {n : ℕ} (hn : io.size ≤ n) :
    (io.contextResize n).Coherent := by
  have hev : ∀ fd, (io.contextResize n).events fd = io.events fd := by
    intro fd
    by_cases h : fd < io.size
    · simp [IOManager.contextResize, events, h]
    · simp only [IOManager.contextResize, events, h, if_false]
      exact (hc.beyond fd (by omega)).symm
  refine ⟨fun fd => ?_, fun fd h => ?_, ?_, fun fd => ?_⟩
  · by_cases h : fd < io.size
    · simpa [IOManager.contextResize, h] using hc.context fd
    · simpa [IOManager.contextResize, h] using FdContext.coherent_empty
  · rw [hev]
    exact hc.beyond fd (le_trans hn h)
  · show io.pendingEventCount = ∑ fd ∈ Finset.range n, ((io.contextResize n).events fd).bits
    rw [hc.pending]
    simp only [hev]
    refine Finset.sum_subset (by simpa using hn) fun fd _ h => ?_
    rw [hc.beyond fd (by simpa using h)]
    rfl
  · rw [hev]
    exact hc.interest fd

theorem coherent_new : (new : IOManager ω).Coherent := by
  refine Coherent.contextResize ⟨fun _ => FdContext.coherent_empty, fun _ _ => rfl, ?_,
    fun _ => rfl⟩ (Nat.zero_le _)
  rfl

end IOManager

end Xzmjx.IOManagerModel
