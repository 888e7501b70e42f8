import Mathlib.Data.List.Basic
import Mathlib.Tactic.Common

/-!
# Circle buffer

The buffer writes and reads through two indices that it only ever advances. It is compared
with a bounded queue, step by step over a whole sequence of calls.
-/

namespace BoundedFifo

variable {α : Type*}

inductive Op (α : Type*)
  | push (v : α)
  | pop
  deriving DecidableEq, Repr

inductive Answer (α : Type*)
  | pushed (done : Bool)
  | popped (v : Option α)
  deriving DecidableEq, Repr

/-- A queue that takes a value while it holds fewer than `c`, and gives the oldest first. -/
def step (c : ℕ) : List α → Op α → Answer α × List α
  | q, .push v => if q.length < c then (.pushed true, q ++ [v]) else (.pushed false, q)
  | [], .pop => (.popped none, [])
  | x :: q, .pop => (.popped (some x), q)

/-- The number of values that the queue takes over a sequence of calls. -/
def accepted (c : ℕ) : List α → List (Op α) → ℕ
  | _, [] => 0
  | q, .push v :: ops =>
      if q.length < c then 1 + accepted c (q ++ [v]) ops else accepted c q ops
  | q, .pop :: ops => accepted c q.tail ops

theorem accepted_cons (c : ℕ) (q : List α) (op : Op α) (ops : List (Op α)) :
    accepted c q (op :: ops) = accepted c q [op] + accepted c (step c q op).2 ops := by
  cases op with
  | push v =>
      by_cases hroom : q.length < c
      · simp [accepted, step, hroom]
      · simp [accepted, step, hroom]
  | pop =>
      cases q with
      | nil => simp [accepted, step]
      | cons x q => simp [accepted, step]

end BoundedFifo

namespace Xzmjx
open BoundedFifo

/-- The state of a buffer: what lies between the indices is as long as the size says. -/
structure CircleBuffer (α : Type*) where
  container : List α
  rIdx : ℕ
  wIdx : ℕ
  size : ℕ
  capacity : ℕ
  wIdx_eq : wIdx = rIdx + size
  wIdx_le : wIdx ≤ container.length

namespace CircleBuffer

inductive Fault
  | indexOutOfRange
  deriving DecidableEq, Repr

variable {α : Type*}

/-- A buffer with slots to write to. -/
def init (slots : List α) : CircleBuffer α where
  container := slots
  rIdx := 0
  wIdx := 0
  size := 0
  capacity := slots.length
  wIdx_eq := rfl
  wIdx_le := Nat.zero_le _

/-- `CircleBuffer()`. -/
def default : CircleBuffer α := init []

def empty (b : CircleBuffer α) : Bool := b.rIdx == b.wIdx

def full (b : CircleBuffer α) : Bool := b.size == b.capacity

/-- `push`, which leaves the vector when the index has reached its end. -/
def push (b : CircleBuffer α) (v : α) : Except Fault (Bool × CircleBuffer α) :=
  if b.full then .ok (false, b)
  else if h : b.wIdx < b.container.length then
    .ok (true, { b with
      container := b.container.set b.wIdx v
      wIdx := b.wIdx + 1
      size := b.size + 1
      wIdx_eq := congrArg Nat.succ b.wIdx_eq
      wIdx_le := by rwa [List.length_set] })
  else .error .indexOutOfRange

/-- A call of `push` that returns is refused by a full buffer only. -/
theorem full_iff_of_push {b b' : CircleBuffer α} {v : α} {done : Bool}
    (h : b.push v = .ok (done, b')) : b.full = true ↔ done = false := by
  unfold push at h
  split_ifs at h with hfull hslot
  · cases h
    exact iff_of_true hfull rfl
  · cases h
    exact iff_of_false hfull Bool.true_eq_false.mp

theorem pos_of_not_empty {b : CircleBuffer α} (h : ¬b.empty) : 0 < b.size := by
  have hne : b.rIdx ≠ b.wIdx := fun heq => h (beq_iff_eq.mpr heq)
  have heq := b.wIdx_eq
  omega

theorem rIdx_lt {b : CircleBuffer α} (h : 0 < b.size) : b.rIdx < b.container.length := by
  have heq := b.wIdx_eq
  have hle := b.wIdx_le
  omega

/-- `pop`. What it reads lies before the write index. -/
def pop (b : CircleBuffer α) : Option α × CircleBuffer α :=
  if h : b.empty then (none, b)
  else
    (some (b.container.get ⟨b.rIdx, rIdx_lt (pos_of_not_empty h)⟩), { b with
      rIdx := b.rIdx + 1
      size := b.size - 1
      wIdx_eq := by
        have hpos := pos_of_not_empty h
        have heq := b.wIdx_eq
        omega })

def apply (b : CircleBuffer α) : Op α → Except Fault (Answer α × CircleBuffer α)
  | .push v => (b.push v).map fun r => (.pushed r.1, r.2)
  | .pop => .ok (.popped b.pop.1, b.pop.2)

/-- The tests and the size tell what a queue of capacity `c` holds. -/
structure Observes (c : ℕ) (b : CircleBuffer α) (q : List α) : Prop where
  empty_iff : b.empty = true ↔ q = []
  full_iff : b.full = true ↔ q.length = c
  size_eq : b.size = q.length

/-- Every call stays within the vector and answers as the bounded queue does, and the
observations agree before and after it. -/
def Agrees (c : ℕ) : CircleBuffer α → List α → List (Op α) → Prop
  | b, q, [] => Observes c b q
  | b, q, op :: ops =>
      Observes c b q ∧ ∃ b', b.apply op = .ok ((step c q op).1, b') ∧
        Agrees c b' (step c q op).2 ops

/-! ### Contents -/

/-- The values between the indices are those of the queue. -/
structure Represents (b : CircleBuffer α) (q : List α) : Prop where
  length_eq : b.container.length = b.capacity
  contents : (b.container.drop b.rIdx).take b.size = q

section Contents
variable {b : CircleBuffer α} {q : List α} {v x : α}

theorem Represents.length (h : Represents b q) : q.length = b.size := by
  have heq := b.wIdx_eq
  have hle := b.wIdx_le
  rw [← h.contents, List.length_take, List.length_drop]
  omega

theorem Represents.wIdx_le_capacity (h : Represents b q) : b.wIdx ≤ b.capacity := by
  rw [← h.length_eq]
  exact b.wIdx_le

theorem empty_iff : b.empty = true ↔ b.size = 0 := by
  have heq := b.wIdx_eq
  rw [empty, beq_iff_eq]
  omega

theorem full_iff : b.full = true ↔ b.size = b.capacity := beq_iff_eq

theorem Represents.observes (h : Represents b q) : Observes b.capacity b q where
  empty_iff := by rw [CircleBuffer.empty_iff, ← h.length, List.length_eq_zero_iff]
  full_iff := by rw [CircleBuffer.full_iff, h.length]
  size_eq := h.length.symm

theorem Represents.length_le (h : Represents b q) : q.length ≤ b.capacity := by
  have heq := b.wIdx_eq
  have hle := h.wIdx_le_capacity
  rw [h.length]
  omega

theorem push_full (h : Represents b q) (hfull : ¬q.length < b.capacity) :
    b.push v = .ok (false, b) := by
  have hle := h.length_le
  rw [push, if_pos (full_iff.mpr (by rw [← h.length]; omega))]

theorem not_full (h : Represents b q) (hroom : q.length < b.capacity) : ¬b.full = true := by
  rw [full_iff, ← h.length]
  exact Nat.ne_of_lt hroom

theorem push_room (h : Represents b q) (hroom : q.length < b.capacity)
    (hidx : b.wIdx < b.capacity) :
    ∃ b', b.push v = .ok (true, b') ∧ b'.capacity = b.capacity ∧ b'.wIdx = b.wIdx + 1 ∧
      Represents b' (q ++ [v]) := by
  have heq := b.wIdx_eq
  have hslot : b.wIdx < b.container.length := h.length_eq ▸ hidx
  rw [push, if_neg (not_full h hroom), dif_pos hslot]
  refine ⟨_, rfl, rfl, rfl, ?_, ?_⟩
  · show (b.container.set b.wIdx v).length = b.capacity
    rw [List.length_set, h.length_eq]
  · show ((b.container.set b.wIdx v).drop b.rIdx).take (b.size + 1) = q ++ [v]
    have hoffset : b.wIdx - b.rIdx = b.size := by omega
    have hlen : b.size < (b.container.drop b.rIdx).length := by
      rw [List.length_drop]
      omega
    rw [List.drop_set, if_neg (by omega), hoffset, List.take_add_one,
      List.take_set_of_le (Nat.le_refl _), h.contents, List.getElem?_set_self hlen]
    rfl

/-- A call that would store a value behind the last slot. -/
theorem push_fault (h : Represents b q) (hroom : q.length < b.capacity)
    (hidx : ¬b.wIdx < b.capacity) : b.push v = .error .indexOutOfRange := by
  have hslot : ¬b.wIdx < b.container.length := h.length_eq ▸ hidx
  rw [push, if_neg (not_full h hroom), dif_neg hslot]

theorem pop_nil (h : Represents b []) : b.pop = (none, b) := by
  have hempty : b.empty = true := empty_iff.mpr h.length.symm
  rw [pop, dif_pos hempty]

theorem pop_cons (h : Represents b (x :: q)) :
    ∃ b', b.pop = (some x, b') ∧ b'.capacity = b.capacity ∧ b'.wIdx = b.wIdx ∧
      Represents b' q := by
  have hsize : b.size = q.length + 1 := h.length.symm
  have hne : ¬b.empty = true := by
    rw [empty_iff]
    omega
  have hcell := rIdx_lt (pos_of_not_empty hne)
  have hdrop := List.drop_eq_getElem_cons hcell
  have hcontents := h.contents
  rw [hsize, hdrop, List.take_succ_cons] at hcontents
  obtain ⟨hhead, htail⟩ := List.cons.inj hcontents
  rw [pop, dif_neg hne]
  refine ⟨_, Prod.ext (congrArg some hhead) rfl, rfl, rfl, h.length_eq, ?_⟩
  show (b.container.drop (b.rIdx + 1)).take (b.size - 1) = q
  rw [hsize, Nat.add_sub_cancel, htail]

end Contents

/-! ### Runs -/

section Runs
variable {b b' : CircleBuffer α} {q : List α} {v : α} {ops : List (Op α)}

theorem agrees_cons {c : ℕ} {op : Op α} (hobs : Observes c b q)
    (hcall : b.apply op = .ok ((step c q op).1, b')) :
    Agrees c b q (op :: ops) ↔ Agrees c b' (step c q op).2 ops := by
  constructor
  · rintro ⟨-, b'', hcall', hrest⟩
    cases hcall.symm.trans hcall'
    exact hrest
  · intro hrest
    exact ⟨hobs, b', hcall, hrest⟩

/-- A call for which there is a slot, if it needs one, is a step of the queue. -/
theorem apply_spec (h : Represents b q) {op : Op α}
    (hidx : b.wIdx + accepted b.capacity q [op] ≤ b.capacity) :
    ∃ b', b.apply op = .ok ((step b.capacity q op).1, b') ∧ b'.capacity = b.capacity ∧
      b'.wIdx = b.wIdx + accepted b.capacity q [op] ∧
      Represents b' (step b.capacity q op).2 := by
  cases op with
  | pop =>
      cases q with
      | nil => exact ⟨b, by rw [apply, pop_nil h]; rfl, rfl, rfl, h⟩
      | cons x q =>
          obtain ⟨b', hpop, hcapacity, hwrite, hrep⟩ := pop_cons h
          exact ⟨b', by rw [apply, hpop]; rfl, hcapacity, hwrite, hrep⟩
  | push v =>
      by_cases hroom : q.length < b.capacity
      · have hone : accepted b.capacity q [.push v] = 1 := if_pos hroom
        have hstep : step b.capacity q (.push v) = (.pushed true, q ++ [v]) := if_pos hroom
        rw [hone] at hidx ⊢
        obtain ⟨b', hpush, hcapacity, hwrite, hrep⟩ := push_room (v := v) h hroom hidx
        rw [hstep]
        exact ⟨b', by rw [apply, hpush]; rfl, hcapacity, hwrite, hrep⟩
      · have hnone : accepted b.capacity q [.push v] = 0 := if_neg hroom
        have hstep : step b.capacity q (.push v) = (.pushed false, q) := if_neg hroom
        rw [hnone, hstep]
        exact ⟨b, by rw [apply, push_full h hroom]; rfl, rfl, rfl, h⟩

/-- Only a push can lack a slot, and it does not return. -/
theorem apply_fault (h : Represents b q) {op : Op α}
    (hidx : ¬b.wIdx + accepted b.capacity q [op] ≤ b.capacity) :
    b.apply op = .error .indexOutOfRange := by
  have hle := h.wIdx_le_capacity
  cases op with
  | pop => exact absurd hle hidx
  | push v =>
      have hroom : q.length < b.capacity := by
        by_contra hfull
        rw [show accepted b.capacity q [.push v] = 0 from if_neg hfull] at hidx
        exact hidx hle
      rw [show accepted b.capacity q [.push v] = 1 from if_pos hroom] at hidx
      rw [apply, push_fault h hroom hidx]
      rfl

/-- From any state on, the slots behind the write index are all that the buffer can take. -/
theorem agrees_iff (h : Represents b q) (ops : List (Op α)) :
    Agrees b.capacity b q ops ↔ b.wIdx + accepted b.capacity q ops ≤ b.capacity := by
  induction ops generalizing b q with
  | nil => exact iff_of_true h.observes h.wIdx_le_capacity
  | cons op ops ih =>
      rw [accepted_cons]
      by_cases hidx : b.wIdx + accepted b.capacity q [op] ≤ b.capacity
      · obtain ⟨b', hcall, hcapacity, hwrite, hrep⟩ := apply_spec h hidx
        rw [agrees_cons h.observes hcall, ← Nat.add_assoc, ← hwrite]
        rw [← hcapacity] at hrep ⊢
        exact ih hrep
      · refine iff_of_false ?_ (by omega)
        rintro ⟨-, b', hcall, -⟩
        cases (apply_fault h hidx).symm.trans hcall

theorem represents_init (slots : List α) : Represents (init slots) [] := ⟨rfl, rfl⟩

/-- A new buffer is a bounded queue for as long as the queue takes no more values than there
are slots, counted over the whole run. -/
theorem bounded_fifo_iff (slots : List α) (ops : List (Op α)) :
    Agrees slots.length (init slots) [] ops ↔
      accepted slots.length [] ops ≤ slots.length := by
  have hiff := agrees_iff (represents_init slots) ops
  rwa [show (init slots).wIdx = 0 from rfl, Nat.zero_add] at hiff

/-- One slot, filled, emptied and to be filled again. -/
theorem second_round :
    ∃ b, (init [0]).push 1 = .ok (true, b) ∧ b.pop.1 = some 1 ∧ b.pop.2.empty = true ∧
      b.pop.2.push 2 = .error .indexOutOfRange ∧
      ¬Agrees 1 (init [0]) [] [.push 1, .pop, .push 2] := by
  refine ⟨_, rfl, rfl, rfl, rfl, ?_⟩
  rintro ⟨-, b₁, hpush, -, b₂, hpop, -, b₃, hcall, -⟩
  cases hpush
  cases hpop
  cases hcall

end Runs

end CircleBuffer

end Xzmjx
