import Xzmjx.HttpParams

/-!
# Trimming

The three trims look for the first and the last character that is no delimiter and take the
substring up to there. `find_last_not_of` answers an index and `substr` takes a count:
`Trim` adds the one between them, and `TrimRight` does not.
-/
namespace Xzmjx.StringUtil
open HttpParserModel HttpRequestModel

/-- `std::string::find_first_not_of`; `npos` is `none`. -/
def findFirstNotOf (str delimit : Bytes) : Option ℕ := str.findIdx? (· ∉ delimit)

/-- `std::string::find_last_not_of`. -/
def findLastNotOf (str delimit : Bytes) : Option ℕ :=
  (str.reverse.findIdx? (· ∉ delimit)).map (str.length - 1 - ·)

/-- `StringUtil::Trim`; the last index is `npos` only where the first one is. -/
def trim (str delimit : Bytes) : Bytes :=
  match findFirstNotOf str delimit, findLastNotOf str delimit with
  | some first, some last => substr str first (last - first + 1)
  | _, _ => []

/-- `StringUtil::TrimLeft`. -/
def trimLeft (str delimit : Bytes) : Bytes :=
  match findFirstNotOf str delimit with
  | none => []
  | some first => str.drop first

/-- `StringUtil::TrimRight`. -/
def trimRight (str delimit : Bytes) : Bytes :=
  match findLastNotOf str delimit with
  | none => []
  | some last => substr str 0 last

variable {str delimit : Bytes}

/-! ### What is found -/

theorem findFirstNotOf_eq_none : findFirstNotOf str delimit = none ↔ ∀ c ∈ str, c ∈ delimit := by
  simp [findFirstNotOf, List.findIdx?_eq_none_iff]

theorem findLastNotOf_eq_none : findLastNotOf str delimit = none ↔ ∀ c ∈ str, c ∈ delimit := by
  simp [findLastNotOf, List.findIdx?_eq_none_iff]

theorem drop_of_findFirstNotOf {first : ℕ} (h : findFirstNotOf str delimit = some first) :
    str.drop first = str.dropWhile (· ∈ delimit) := by
  obtain ⟨-, rfl⟩ := List.findIdx?_eq_some_iff_findIdx_eq.mp h
  rw [List.dropWhile_eq_drop_findIdx_not]
  simp

theorem take_of_findLastNotOf {last : ℕ} (h : findLastNotOf str delimit = some last) :
    last < str.length ∧ str.take (last + 1) = str.rdropWhile (· ∈ delimit) := by
  obtain ⟨i, hi, rfl⟩ := Option.map_eq_some_iff.mp h
  have hdrop : str.reverse.drop i = str.reverse.dropWhile (· ∈ delimit) :=
    drop_of_findFirstNotOf hi
  obtain ⟨hlt, -⟩ := List.findIdx?_eq_some_iff_findIdx_eq.mp hi
  rw [List.length_reverse] at hlt
  refine ⟨by omega, ?_⟩
  rw [List.rdropWhile, ← hdrop, List.drop_reverse, List.reverse_reverse]
  congr 1
  omega

/-! ### What is kept -/

theorem dropWhile_eq_nil : str.dropWhile (· ∈ delimit) = [] ↔ ∀ c ∈ str, c ∈ delimit := by
  simp [List.dropWhile_eq_nil_iff]

theorem rdropWhile_eq_nil : str.rdropWhile (· ∈ delimit) = [] ↔ ∀ c ∈ str, c ∈ delimit := by
  simp [List.rdropWhile_eq_nil_iff]

/-- What is dropped at one end does not depend on what is dropped at the other. -/
theorem dropWhile_rdropWhile {α : Type} (p : α → Bool) (l : List α) :
    (l.rdropWhile p).dropWhile p = (l.dropWhile p).rdropWhile p := by
  induction l using List.reverseRecOn with
  | nil => simp
  | append_singleton l x ih =>
      by_cases hx : p x
      · rw [List.rdropWhile_concat_pos _ _ _ hx, ih, List.dropWhile_append]
        split_ifs with hl
        · rw [List.isEmpty_iff.mp hl]
          simp [hx]
        · rw [List.rdropWhile_concat_pos _ _ _ hx]
      · rw [List.rdropWhile_concat_neg _ _ _ hx, List.dropWhile_append]
        split_ifs with hl
        · simp [hx, List.rdropWhile_singleton]
        · rw [List.rdropWhile_concat_neg _ _ _ hx]

theorem trimLeft_eq (str delimit : Bytes) :
    trimLeft str delimit = str.dropWhile (· ∈ delimit) := by
  unfold trimLeft
  cases h : findFirstNotOf str delimit with
  | none => exact (dropWhile_eq_nil.mpr (findFirstNotOf_eq_none.mp h)).symm
  | some first => exact drop_of_findFirstNotOf h

/-- The first of all characters that are no delimiters comes no later than the last one. -/
theorem findFirstNotOf_rdropWhile {first : ℕ} (h : findFirstNotOf str delimit = some first) :
    findFirstNotOf (str.rdropWhile (· ∈ delimit)) delimit = some first := by
  cases hkept : findFirstNotOf (str.rdropWhile (· ∈ delimit)) delimit with
  | none =>
      have hnil := rdropWhile_eq_nil.mpr (findFirstNotOf_eq_none.mp hkept)
      rw [List.rdropWhile_idempotent] at hnil
      rw [findFirstNotOf_eq_none.mpr (rdropWhile_eq_nil.mp hnil)] at h
      cases h
  | some first' =>
      have hstr := (List.rdropWhile_prefix (· ∈ delimit) (l := str)).findIdx?_eq_some hkept
      exact hstr.symm.trans h

theorem trim_eq (str delimit : Bytes) :
    trim str delimit = (str.dropWhile (· ∈ delimit)).rdropWhile (· ∈ delimit) := by
  rw [← dropWhile_rdropWhile]
  unfold trim
  cases hfirst : findFirstNotOf str delimit with
  | none =>
      rw [rdropWhile_eq_nil.mpr (findFirstNotOf_eq_none.mp hfirst), List.dropWhile_nil]
  | some first =>
      have hkept := findFirstNotOf_rdropWhile hfirst
      rw [← drop_of_findFirstNotOf hkept]
      cases hlast : findLastNotOf str delimit with
      | none =>
          rw [findFirstNotOf_eq_none.mpr (findLastNotOf_eq_none.mp hlast)] at hfirst
          cases hfirst
      | some last =>
          rw [← (take_of_findLastNotOf hlast).2] at hkept ⊢
          obtain ⟨hlt, -⟩ := List.findIdx?_eq_some_iff_findIdx_eq.mp hkept
          have hle : first < last + 1 := hlt.trans_le (List.length_take_le _ _)
          rw [List.drop_take, Nat.succ_sub (Nat.le_of_lt_succ hle)]
          rfl

/-- `TrimRight` drops the last character that is no delimiter, too. -/
theorem trimRight_eq (str delimit : Bytes) :
    trimRight str delimit = (str.rdropWhile (· ∈ delimit)).dropLast := by
  unfold trimRight
  cases h : findLastNotOf str delimit with
  | none => rw [rdropWhile_eq_nil.mpr (findLastNotOf_eq_none.mp h), List.dropLast_nil]
  | some last =>
      obtain ⟨hlt, htake⟩ := take_of_findLastNotOf h
      rw [← htake, List.dropLast_eq_take, List.take_take, List.length_take]
      show str.take last = _
      congr 1
      omega

/-! ### The laws -/

/-- `kept` is what is left of `str` without all delimiters in front. -/
def RemovesFront (delimit str kept : Bytes) : Prop :=
  ∃ removed, str = removed ++ kept ∧ (∀ c ∈ removed, c ∈ delimit) ∧ ∀ c ∈ kept.head?, c ∉ delimit

/-- `kept` is what is left of `str` without all delimiters at the end. -/
def RemovesBack (delimit str kept : Bytes) : Prop :=
  ∃ removed, str = kept ++ removed ∧ (∀ c ∈ removed, c ∈ delimit) ∧
    ∀ c ∈ kept.getLast?, c ∉ delimit

/-- What the three trims should have to do with each other on `str`. -/
structure TrimLaws (str delimit : Bytes) : Prop where
  left_right : trimLeft (trimRight str delimit) delimit = trim str delimit
  right_left : trimRight (trimLeft str delimit) delimit = trim str delimit
  left_left : trimLeft (trimLeft str delimit) delimit = trimLeft str delimit
  right_right : trimRight (trimRight str delimit) delimit = trimRight str delimit
  left_removes : RemovesFront delimit str (trimLeft str delimit)
  right_removes : RemovesBack delimit str (trimRight str delimit)

/-- `TrimLeft` keeps its laws on every string. -/
theorem removesFront_trimLeft (str delimit : Bytes) :
    RemovesFront delimit str (trimLeft str delimit) ∧
      trimLeft (trimLeft str delimit) delimit = trimLeft str delimit := by
  simp only [trimLeft_eq]
  refine ⟨⟨str.takeWhile (· ∈ delimit), List.takeWhile_append_dropWhile.symm, ?_, ?_⟩, ?_⟩
  · intro c hc
    simpa using List.mem_takeWhile_imp hc
  · intro c hc
    have hhead := List.head?_dropWhile_not (· ∈ delimit) str
    rw [Option.mem_def.mp hc] at hhead
    simpa using hhead
  · exact List.dropWhile_idempotent _ _

theorem trimLaws_of_delimiters (h : ∀ c ∈ str, c ∈ delimit) : TrimLaws str delimit := by
  have hleft : trimLeft str delimit = [] := by rw [trimLeft_eq, dropWhile_eq_nil.mpr h]
  have hright : trimRight str delimit = [] := by
    rw [trimRight_eq, rdropWhile_eq_nil.mpr h, List.dropLast_nil]
  have htrim : trim str delimit = [] := by
    rw [trim_eq, dropWhile_eq_nil.mpr h, List.rdropWhile_nil]
  constructor
  · rw [hright, htrim]; rfl
  · rw [hleft, htrim]; rfl
  · exact (removesFront_trimLeft str delimit).2
  · rw [hright]; rfl
  · exact (removesFront_trimLeft str delimit).1
  · rw [hright]; exact ⟨str, by simp, h, by simp⟩

/-- The trims keep their laws exactly on strings of delimiters. -/
theorem trimLaws_iff (str delimit : Bytes) :
    TrimLaws str delimit ↔ ∀ c ∈ str, c ∈ delimit := by
  refine ⟨fun h => ?_, trimLaws_of_delimiters⟩
  -- `Trim` is one character longer unless it is empty
  have hlen := congrArg List.length h.right_left
  rw [trimRight_eq, trimLeft_eq, trim_eq, List.length_dropLast] at hlen
  have hnil : (str.dropWhile (· ∈ delimit)).rdropWhile (· ∈ delimit) = [] :=
    List.eq_nil_of_length_eq_zero (by omega)
  have hall := dropWhile_eq_nil.mpr (rdropWhile_eq_nil.mp hnil)
  rw [List.dropWhile_idempotent] at hall
  exact dropWhile_eq_nil.mp hall

/-- The one character of `"a"` is trimmed away on the right, and of `"ab"` the second
application takes what the first has left. -/
theorem trimRight_takes_a_letter :
    ¬TrimLaws (bytes "a") (bytes " ") ∧
      trimRight (bytes "a") (bytes " ") = [] ∧ trim (bytes "a") (bytes " ") = bytes "a" ∧
      trimRight (bytes "ab") (bytes " ") = bytes "a" ∧
      trimRight (trimRight (bytes "ab") (bytes " ")) (bytes " ") = [] := by
  have hright : trimRight (bytes "a") (bytes " ") = [] := by decide
  have htrim : trim (bytes "a") (bytes " ") = bytes "a" := by decide
  refine ⟨fun h => ?_, hright, htrim, by decide, by decide⟩
  have hlaw := h.left_right
  rw [hright, htrim] at hlaw
  exact absurd hlaw (by decide)

end Xzmjx.StringUtil
