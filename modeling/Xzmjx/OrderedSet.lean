import Mathlib.Data.List.Basic
import Mathlib.Tactic.Common

/-!
# A set ordered by a comparison function

The set is its in-order traversal: a list in which every element compares less
than those behind it. The comparison is an argument of each operation and may be
another one at the next operation, as it is when it reads mutable keys. Two
elements are equivalent when neither compares less than the other; an insertion
next to an equivalent element does nothing.
-/
namespace OrderedSet

variable {α : Type*}

structure StrictOrder (lt : α → α → Bool) : Prop where
  asymm : ∀ a b, lt a b = true → lt b a = false
  trans : ∀ a b c, lt a b = true → lt b c = true → lt a c = true

/-- In-order traversals. -/
def Ordered (lt : α → α → Bool) (xs : List α) : Prop := xs.Pairwise fun a b => lt a b = true

def find (lt : α → α → Bool) (x : α) : List α → Option α
  | [] => none
  | y :: ys => if lt y x then find lt x ys else if lt x y then none else some y

/-- Remove the element equivalent to `x`. -/
def erase (lt : α → α → Bool) (x : α) : List α → List α
  | [] => []
  | y :: ys => if lt y x then y :: erase lt x ys else if lt x y then y :: ys else ys

def insert (lt : α → α → Bool) (x : α) : List α → List α
  | [] => [x]
  | y :: ys => if lt y x then y :: insert lt x ys else if lt x y then x :: y :: ys else y :: ys

variable {lt : α → α → Bool}

theorem StrictOrder.irrefl (h : StrictOrder lt) (a : α) : lt a a = false := by
  cases hlt : lt a a with
  | false => rfl
  | true => exact absurd (h.asymm a a hlt) (by simp [hlt])

theorem Ordered.nodup (ho : StrictOrder lt) {xs : List α} (h : Ordered lt xs) : xs.Nodup := by
  refine List.Pairwise.imp ?_ h
  rintro a b hab rfl
  simp [ho.irrefl] at hab

/-- The order of a list depends on the comparison of its own elements only. -/
theorem Ordered.congr {lt' : α → α → Bool} {xs : List α} (h : Ordered lt xs)
    (heq : ∀ a ∈ xs, ∀ b ∈ xs, lt' a b = lt a b) : Ordered lt' xs := by
  refine List.Pairwise.imp_of_mem ?_ h
  intro a b ha hb hab
  rw [heq a ha b hb]
  exact hab

/-- Where an iterator stops that skips a downward closed part of the set, that part
has ended. -/
theorem not_of_mem_dropWhile {p : α → Bool} {xs : List α} {x : α}
    (h : xs.Pairwise fun a b => p b = true → p a = true) (hx : x ∈ xs.dropWhile p) :
    p x = false := by
  induction xs with
  | nil => simp at hx
  | cons y ys ih =>
      obtain ⟨hy, hys⟩ := List.pairwise_cons.mp h
      by_cases hpy : p y = true
      · rw [List.dropWhile_cons_of_pos hpy] at hx
        exact ih hys hx
      · rw [List.dropWhile_cons_of_neg hpy] at hx
        rcases List.mem_cons.mp hx with rfl | hx
        · simpa using hpy
        · simpa using fun hpx => hpy (hy x hx hpx)

theorem find_eq_self (ho : StrictOrder lt) {x : α} {xs : List α} (h : Ordered lt xs)
    (hx : x ∈ xs) : find lt x xs = some x := by
  induction xs with
  | nil => simp at hx
  | cons y ys ih =>
      obtain ⟨hy, hys⟩ := List.pairwise_cons.mp h
      rcases List.mem_cons.mp hx with rfl | hx
      · simp [find, ho.irrefl]
      · simp only [find, hy x hx, if_true]
        exact ih hys hx

theorem erase_eq (ho : StrictOrder lt) [DecidableEq α] {x : α} {xs : List α}
    (h : Ordered lt xs) (hx : x ∈ xs) : erase lt x xs = xs.erase x := by
  induction xs with
  | nil => simp at hx
  | cons y ys ih =>
      obtain ⟨hy, hys⟩ := List.pairwise_cons.mp h
      rcases List.mem_cons.mp hx with rfl | hx
      · simp [erase, ho.irrefl]
      · have hne : y ≠ x := by
          rintro rfl
          simpa [ho.irrefl] using hy y hx
        simp only [erase, hy x hx, if_true, ih hys hx]
        rw [List.erase_cons_tail (by simpa using hne)]

theorem mem_of_mem_erase {x z : α} {xs : List α} (hz : z ∈ erase lt x xs) : z ∈ xs := by
  induction xs with
  | nil => simp [erase] at hz
  | cons y ys ih =>
      simp only [erase] at hz
      split_ifs at hz
      · rcases List.mem_cons.mp hz with rfl | hz
        · exact List.mem_cons_self
        · exact List.mem_cons_of_mem y (ih hz)
      · exact hz
      · exact List.mem_cons_of_mem y hz

theorem mem_of_mem_insert {x z : α} {xs : List α} (hz : z ∈ insert lt x xs) :
    z = x ∨ z ∈ xs := by
  induction xs with
  | nil => simpa [insert] using hz
  | cons y ys ih =>
      simp only [insert] at hz
      split_ifs at hz
      · rcases List.mem_cons.mp hz with rfl | hz
        · exact Or.inr List.mem_cons_self
        · exact (ih hz).imp_right (List.mem_cons_of_mem y)
      · exact List.mem_cons.mp hz
      · exact Or.inr hz

/-- An element that is comparable with all of the set is really inserted. -/
theorem mem_insert {x z : α} {xs : List α} (hx : ∀ y ∈ xs, lt x y = true ∨ lt y x = true) :
    z ∈ insert lt x xs ↔ z = x ∨ z ∈ xs := by
  induction xs with
  | nil => simp [insert]
  | cons y ys ih =>
      have ih' := ih fun u hu => hx u (List.mem_cons_of_mem _ hu)
      simp only [insert]
      split_ifs with hyx hxy
      · simp only [List.mem_cons, ih']
        tauto
      · simp
      · rcases hx y List.mem_cons_self with h | h
        · exact absurd h hxy
        · exact absurd h hyx

theorem Ordered.insert (ho : StrictOrder lt) {x : α} {xs : List α} (h : Ordered lt xs)
    (hx : ∀ y ∈ xs, lt x y = true ∨ lt y x = true) : Ordered lt (insert lt x xs) := by
  induction xs with
  | nil => exact List.pairwise_singleton _ _
  | cons y ys ih =>
      obtain ⟨hy, hys⟩ := List.pairwise_cons.mp h
      have hx' : ∀ u ∈ ys, lt x u = true ∨ lt u x = true :=
        fun u hu => hx u (List.mem_cons_of_mem _ hu)
      simp only [OrderedSet.insert]
      split_ifs with hyx hxy
      · refine List.pairwise_cons.mpr ⟨?_, ih hys hx'⟩
        intro z hz
        rcases (mem_insert hx').mp hz with rfl | hz
        · exact hyx
        · exact hy z hz
      · refine List.pairwise_cons.mpr ⟨?_, h⟩
        intro z hz
        rcases List.mem_cons.mp hz with rfl | hz
        · exact hxy
        · exact ho.trans x y z hxy (hy z hz)
      · exact h

end OrderedSet
