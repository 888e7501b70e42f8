import Mathlib.Data.List.Perm.Basic
import Xzmjx.HttpParams

/-!
# The maps of a request

A `std::map` keeps its entries in the order of the comparator, with no two equivalent keys.
`insert` leaves an equivalent key alone, so after a sequence of bindings a lookup finds what
was there before, else the first binding of the key.
-/
namespace Xzmjx.HttpRequestModel

namespace MapType

/-- The entries stand in the order of `CaseInsensitiveLess`. -/
def Ordered (m : MapType) : Prop := m.Pairwise fun a b => caseKey a.1 < caseKey b.1

instance (m : MapType) : Decidable m.Ordered := inferInstanceAs (Decidable (List.Pairwise _ _))

/-- Two keys are in order one way or the other, or equivalent. -/
theorem less_cases (a b : Bytes) :
    (caseInsensitiveLess a b = true ∧ caseKey a < caseKey b) ∨
      (caseInsensitiveLess a b = false ∧ caseInsensitiveLess b a = true ∧
        caseKey b < caseKey a) ∨
      (caseInsensitiveLess a b = false ∧ caseInsensitiveLess b a = false ∧
        caseKey a = caseKey b) := by
  by_cases hab : caseKey a < caseKey b
  · exact .inl ⟨decide_eq_true hab, hab⟩
  · by_cases hba : caseKey b < caseKey a
    · exact .inr (.inl ⟨decide_eq_false hab, decide_eq_true hba, hba⟩)
    · refine .inr (.inr ⟨decide_eq_false hab, decide_eq_false hba, ?_⟩)
      exact List.le_antisymm (List.not_lt.mp hba) (List.not_lt.mp hab)

theorem find_cons_of_eq {k key v : Bytes} {m : MapType} (h : caseKey k = caseKey key) :
    find key ((k, v) :: m) = some v := by
  have hirrefl : ¬caseKey key < caseKey key := List.lt_irrefl _
  simp [find, caseInsensitiveLess, h, hirrefl]

theorem find_cons_of_ne {k key v : Bytes} {m : MapType} (h : caseKey k ≠ caseKey key) :
    find key ((k, v) :: m) = find key m := by
  rw [find]
  rcases less_cases k key with ⟨hless, -⟩ | ⟨-, hless, -⟩ | ⟨-, -, heq⟩
  · rw [if_pos (.inl hless)]
  · rw [if_pos (.inr hless)]
  · exact absurd heq h

theorem find_eq_none {key : Bytes} {m : MapType} :
    find key m = none ↔ ∀ p ∈ m, caseKey p.1 ≠ caseKey key := by
  induction m with
  | nil => simp [find]
  | cons p m ih =>
      by_cases h : caseKey p.1 = caseKey key
      · rw [find_cons_of_eq h]
        simp [h]
      · rw [find_cons_of_ne h, ih]
        simp [h]

/-- What `m[key] = val` has stored is found. -/
theorem find_set (key val : Bytes) (m : MapType) : find key (m.set key val) = some val := by
  induction m with
  | nil => exact find_cons_of_eq rfl
  | cons p m ih =>
      obtain ⟨k, v⟩ := p
      rw [set]
      rcases less_cases k key with ⟨hless, hlt⟩ | ⟨hnot, hless, -⟩ | ⟨hnot, hnot', heq⟩
      · have hne : caseKey k ≠ caseKey key := fun he => List.lt_irrefl _ (he ▸ hlt)
        rw [if_pos hless, find_cons_of_ne hne, ih]
      · rw [if_neg (by simp [hnot]), if_pos hless, find_cons_of_eq rfl]
      · rw [if_neg (by simp [hnot]), if_neg (by simp [hnot']), find_cons_of_eq heq]

/-- An insertion goes past a smaller key, stands before a greater one and leaves an equivalent
one alone. -/
theorem insert_cons_cases (k v key val : Bytes) (m : MapType) :
    (caseKey k < caseKey key ∧ MapType.insert key val ((k, v) :: m) = (k, v) :: m.insert key val) ∨
      (caseKey key < caseKey k ∧
        MapType.insert key val ((k, v) :: m) = (key, val) :: (k, v) :: m) ∨
      (caseKey k = caseKey key ∧ MapType.insert key val ((k, v) :: m) = (k, v) :: m) := by
  rw [MapType.insert]
  rcases less_cases k key with ⟨hless, hlt⟩ | ⟨hnot, hless, hlt⟩ | ⟨hnot, hnot', heq⟩
  · rw [if_pos hless]
    exact .inl ⟨hlt, rfl⟩
  · rw [if_neg (by simp [hnot]), if_pos hless]
    exact .inr (.inl ⟨hlt, rfl⟩)
  · rw [if_neg (by simp [hnot]), if_neg (by simp [hnot'])]
    exact .inr (.inr ⟨heq, rfl⟩)

theorem Ordered.insert {m : MapType} (hm : m.Ordered) (key val : Bytes) :
    (m.insert key val).Ordered := by
  induction m with
  | nil => exact List.pairwise_singleton _ _
  | cons p m ih =>
      obtain ⟨k, v⟩ := p
      obtain ⟨hfirst, hrest⟩ := List.pairwise_cons.mp hm
      rcases insert_cons_cases k v key val m with ⟨hlt, hins⟩ | ⟨hlt, hins⟩ | ⟨-, hins⟩
      · rw [hins]
        refine List.pairwise_cons.mpr ⟨fun q hq => ?_, ih hrest⟩
        rcases mem_of_mem_insert hq with rfl | hq
        · exact hlt
        · exact hfirst q hq
      · rw [hins]
        refine List.pairwise_cons.mpr ⟨fun q hq => ?_, hm⟩
        rcases List.mem_cons.mp hq with rfl | hq
        · exact hlt
        · exact List.lt_trans hlt (hfirst q hq)
      · rw [hins]
        exact hm

/-- An insertion of a key that is not there adds the entry. -/
theorem perm_insert {key : Bytes} {m : MapType} (h : ∀ p ∈ m, caseKey p.1 ≠ caseKey key)
    (val : Bytes) : (m.insert key val).Perm ((key, val) :: m) := by
  induction m with
  | nil => exact List.Perm.refl _
  | cons p m ih =>
      obtain ⟨k, v⟩ := p
      rcases insert_cons_cases k v key val m with ⟨-, hins⟩ | ⟨-, hins⟩ | ⟨heq, -⟩
      · rw [hins]
        have hrest := ih fun q hq => h q (List.mem_cons_of_mem _ hq)
        exact (hrest.cons _).trans (List.Perm.swap _ _ _)
      · rw [hins]
      · exact absurd heq (h _ List.mem_cons_self)

/-- After an insertion an equivalent key is bound to what it was bound to before, else to the
new value; no other key is affected. -/
theorem find_insert {m : MapType} (hm : m.Ordered) (key val k : Bytes) :
    find k (m.insert key val) =
      if caseKey key = caseKey k then some ((find k m).getD val) else find k m := by
  induction m with
  | nil =>
      rw [MapType.insert]
      split_ifs with h
      · rw [find_cons_of_eq h]
        rfl
      · rw [find_cons_of_ne h]
  | cons p m ih =>
      obtain ⟨x, v⟩ := p
      obtain ⟨hfirst, hrest⟩ := List.pairwise_cons.mp hm
      rcases insert_cons_cases x v key val m with ⟨hlt, hins⟩ | ⟨hlt, hins⟩ | ⟨heq, hins⟩
      · rw [hins]
        by_cases hx : caseKey x = caseKey k
        · have hne : caseKey key ≠ caseKey k := fun he => List.lt_irrefl _ (he ▸ hx ▸ hlt)
          rw [find_cons_of_eq hx, find_cons_of_eq hx, if_neg hne]
        · rw [find_cons_of_ne hx, find_cons_of_ne hx, ih hrest]
      · rw [hins]
        by_cases hk : caseKey key = caseKey k
        · have hnone : find k ((x, v) :: m) = none := by
            apply find_eq_none.mpr
            intro q hq he
            rw [hk, ← he] at hlt
            rcases List.mem_cons.mp hq with rfl | hq
            · exact List.lt_irrefl _ hlt
            · exact List.lt_asymm hlt (hfirst q hq)
          rw [find_cons_of_eq hk, if_pos hk, hnone]
          rfl
        · rw [find_cons_of_ne hk, if_neg hk]
      · rw [hins]
        split_ifs with hk
        · rw [find_cons_of_eq (heq.trans hk)]
          rfl
        · rfl

/-! ### Sequences of bindings -/

theorem Ordered.bindAll {m : MapType} (hm : m.Ordered) (trimKey : Bytes → Bytes)
    (ps : List (Bytes × Bytes)) : (m.bindAll trimKey ps).Ordered := by
  induction ps generalizing m with
  | nil => exact hm
  | cons p ps ih => exact ih (hm.insert _ _)

/-- The value of the first binding of a key. -/
def firstBinding (ps : List (Bytes × Bytes)) (k : Bytes) : Option Bytes :=
  (ps.find? fun p => caseKey p.1 = caseKey k).map fun p => urlDecode p.2

theorem firstBinding_cons_of_eq {p : Bytes × Bytes} {k : Bytes} (h : caseKey p.1 = caseKey k)
    (ps : List (Bytes × Bytes)) : firstBinding (p :: ps) k = some (urlDecode p.2) := by
  rw [firstBinding, List.find?_cons_of_pos (by simpa using h)]
  rfl

theorem firstBinding_cons_of_ne {p : Bytes × Bytes} {k : Bytes} (h : caseKey p.1 ≠ caseKey k)
    (ps : List (Bytes × Bytes)) : firstBinding (p :: ps) k = firstBinding ps k := by
  rw [firstBinding, List.find?_cons_of_neg (by simpa using h), firstBinding]

theorem find_bindAll {m : MapType} (hm : m.Ordered) (ps : List (Bytes × Bytes)) (k : Bytes) :
    find k (m.bindAll id ps) = (find k m).or (firstBinding ps k) := by
  induction ps generalizing m with
  | nil => exact (Option.or_none).symm
  | cons p ps ih =>
      show find k (MapType.bindAll id (m.insert p.1 (urlDecode p.2)) ps) = _
      rw [ih (hm.insert _ _), find_insert hm]
      split_ifs with h
      · rw [firstBinding_cons_of_eq h]
        cases find k m <;> rfl
      · rw [firstBinding_cons_of_ne h]

/-- Bindings of pairwise inequivalent keys that are not there yet are all added. -/
theorem perm_bindAll (trimKey : Bytes → Bytes) (ps : List (Bytes × Bytes)) (m : MapType)
    (hps : ps.Pairwise fun p q => caseKey (trimKey p.1) ≠ caseKey (trimKey q.1))
    (hm : ∀ p ∈ ps, ∀ q ∈ m, caseKey q.1 ≠ caseKey (trimKey p.1)) :
    (m.bindAll trimKey ps).Perm (m ++ ps.map fun p => (trimKey p.1, urlDecode p.2)) := by
  induction ps generalizing m with
  | nil => simp [bindAll]
  | cons p ps ih =>
      obtain ⟨hfirst, hrest⟩ := List.pairwise_cons.mp hps
      have hp := perm_insert (hm p List.mem_cons_self) (urlDecode p.2)
      have hnext : ∀ q ∈ ps, ∀ x ∈ m.insert (trimKey p.1) (urlDecode p.2),
          caseKey x.1 ≠ caseKey (trimKey q.1) := by
        intro q hq x hx
        rcases mem_of_mem_insert hx with rfl | hx
        · exact hfirst q hq
        · exact hm q (List.mem_cons_of_mem _ hq) x hx
      have hih := ih _ hrest hnext
      refine hih.trans ((hp.append_right _).trans ?_)
      rw [List.map_cons]
      exact List.perm_middle.symm

end MapType

end Xzmjx.HttpRequestModel
