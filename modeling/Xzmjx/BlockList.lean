import Mathlib.Data.List.Basic
import Mathlib.Tactic.Common

/-!
# Overwriting a segment of a list

`overlay xs i ys` is what a block copy of `ys` to offset `i` leaves in `xs`. The
lemmas follow a copy that is carried out block by block: a segment that fits in
the first of two adjoining lists, and one that runs over into the second.
-/
namespace BlockList

variable {α : Type*}

/-- Copy `ys` over the cells of `xs` from offset `i` on. -/
def overlay (xs : List α) (i : ℕ) (ys : List α) : List α :=
  xs.take i ++ (ys ++ xs.drop (i + ys.length))

@[simp] theorem overlay_length {xs ys : List α} {i : ℕ} (h : i + ys.length ≤ xs.length) :
    (overlay xs i ys).length = xs.length := by
  simp only [overlay, List.length_append, List.length_take, List.length_drop]
  omega

theorem getElem?_overlay {xs ys : List α} {i k : ℕ} (h : i + ys.length ≤ xs.length) :
    (overlay xs i ys)[k]? = if i ≤ k ∧ k < i + ys.length then ys[k - i]? else xs[k]? := by
  have hlen : (xs.take i).length = i := by simp; omega
  unfold overlay
  by_cases hk : k < i
  · rw [List.getElem?_append_left (by omega), List.getElem?_take_of_lt hk, if_neg (by omega)]
  · rw [List.getElem?_append_right (by omega), hlen]
    by_cases hk' : k < i + ys.length
    · rw [List.getElem?_append_left (by omega), if_pos ⟨by omega, hk'⟩]
    · rw [List.getElem?_append_right (by omega), List.getElem?_drop, if_neg (by omega)]
      congr 1
      omega

/-- The copied segment lies in the first list. -/
theorem overlay_append_left {xs ys zs : List α} {i : ℕ} (h : i + ys.length ≤ xs.length) :
    overlay (xs ++ zs) i ys = overlay xs i ys ++ zs := by
  unfold overlay
  rw [List.take_append_of_le_length (by omega), List.drop_append_of_le_length h]
  simp

/-- The copied segment begins in the first list and runs over into the second. -/
theorem overlay_append_across {xs ys zs : List α} {i : ℕ} (hi : i ≤ xs.length)
    (h : xs.length ≤ i + ys.length) :
    overlay (xs ++ zs) i ys =
      overlay xs i (ys.take (xs.length - i)) ++ overlay zs 0 (ys.drop (xs.length - i)) := by
  unfold overlay
  have hd : xs.drop (i + (ys.take (xs.length - i)).length) = [] := by
    apply List.drop_eq_nil_of_le
    simp only [List.length_take]
    omega
  have hz : (xs ++ zs).drop (i + ys.length) = zs.drop (0 + (ys.drop (xs.length - i)).length) := by
    rw [List.drop_append, List.drop_eq_nil_of_le h, List.nil_append]
    simp only [List.length_drop]
    congr 1
    omega
  rw [hd, hz, List.take_append_of_le_length hi]
  simp only [List.append_nil, List.take_zero, List.nil_append, List.append_assoc]
  rw [← List.append_assoc (ys.take _), List.take_append_drop]

/-- The copied segment lies in the second list. -/
theorem overlay_append_right (xs ys zs : List α) (i : ℕ) :
    overlay (xs ++ zs) (xs.length + i) ys = xs ++ overlay zs i ys := by
  unfold overlay
  have hd : (xs ++ zs).drop (xs.length + i + ys.length) = zs.drop (i + ys.length) := by
    rw [Nat.add_assoc, List.drop_append, List.drop_eq_nil_of_le (by omega)]
    simp
  rw [hd, List.take_append, List.take_of_length_le (by omega)]
  simp

/-- Two copies that adjoin are one. -/
theorem overlay_overlay {xs ys zs : List α} {i : ℕ}
    (h : i + ys.length + zs.length ≤ xs.length) :
    overlay (overlay xs i ys) (i + ys.length) zs = overlay xs i (ys ++ zs) := by
  have hy : i + ys.length ≤ xs.length := by omega
  apply List.ext_getElem?
  intro k
  rw [getElem?_overlay (by rwa [overlay_length hy]), getElem?_overlay hy,
    getElem?_overlay (by rw [List.length_append]; omega), List.length_append]
  by_cases hz : i + ys.length ≤ k ∧ k < i + ys.length + zs.length
  · rw [if_pos hz, if_pos (by omega), List.getElem?_append_right (by omega)]
    congr 1
    omega
  · rw [if_neg hz]
    by_cases hin : i ≤ k ∧ k < i + ys.length
    · rw [if_pos hin, if_pos (by omega), List.getElem?_append_left (by omega)]
    · rw [if_neg hin, if_neg (by omega)]

/-- The same where the list grows between the two copies. -/
theorem overlay_append_overlay {xs ys zs ws : List α} {i : ℕ} (hys : i + ys.length ≤ xs.length)
    (hzs : i + ys.length + zs.length ≤ (xs ++ ws).length) :
    overlay (overlay xs i ys ++ ws) (i + ys.length) zs = overlay (xs ++ ws) i (ys ++ zs) := by
  rw [← overlay_append_left hys, overlay_overlay hzs]

@[simp] theorem overlay_nil (xs : List α) (i : ℕ) : overlay xs i [] = xs := by
  simp [overlay]

end BlockList
