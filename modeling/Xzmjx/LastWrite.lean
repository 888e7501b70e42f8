import Mathlib.Data.List.Basic
import Mathlib.Tactic.Common

/-!
# What is live after a history of writes and deletions

Each operation of a history does one of three things to a key: nothing (`none`),
delete it (`some none`) or write a value to it (`some (some v)`). A value is live
since the position of the operation that wrote it, if no later operation touched
its key. `Tracks` says that a list of entries holds the live values in the order of
those positions, and one lemma for each kind of operation how the list follows.
-/
namespace LastWrite

variable {Op κ σ : Type*} {effect : Op → κ → Option (Option σ)} {ops : List Op} {op : Op}
  {k : κ} {i j : ℕ} {v w : σ}

structure LiveSince (effect : Op → κ → Option (Option σ)) (ops : List Op) (k : κ) (i : ℕ)
    (v : σ) : Prop where
  written : ∃ op, ops[i]? = some op ∧ effect op k = some (some v)
  untouched : ∀ j op, i < j → ops[j]? = some op → effect op k = none

theorem LiveSince.lt_length (h : LiveSince effect ops k i v) : i < ops.length := by
  obtain ⟨op, hop, -⟩ := h.written
  exact (List.getElem?_eq_some_iff.mp hop).1

theorem not_liveSince_nil : ¬LiveSince effect [] k i v := by
  intro h
  simpa using h.lt_length

/-- A key has one live value. -/
theorem LiveSince.unique (h : LiveSince effect ops k i v) (h' : LiveSince effect ops k j w) :
    i = j ∧ v = w := by
  obtain ⟨op, hop, hv⟩ := h.written
  obtain ⟨op', hop', hw⟩ := h'.written
  rcases Nat.lt_trichotomy i j with hlt | rfl | hlt
  · simp [h.untouched j op' hlt hop'] at hw
  · obtain rfl : op = op' := Option.some.inj (hop.symm.trans hop')
    rw [hv] at hw
    exact ⟨rfl, Option.some.inj (Option.some.inj hw)⟩
  · simp [h'.untouched i op hlt hop] at hv

/-- The last operation decides, or leaves what was live before it. -/
theorem liveSince_append_singleton :
    LiveSince effect (ops ++ [op]) k i v ↔
      (i = ops.length ∧ effect op k = some (some v)) ∨
        (effect op k = none ∧ LiveSince effect ops k i v) := by
  constructor
  · intro h
    obtain ⟨op', hop', hv⟩ := h.written
    have hlt : i < ops.length + 1 := by simpa using h.lt_length
    by_cases hi : i = ops.length
    · subst hi
      obtain rfl : op = op' := by simpa using hop'
      exact Or.inl ⟨rfl, hv⟩
    · have hi : i < ops.length := by omega
      refine Or.inr ⟨h.untouched ops.length op hi (by simp), ⟨op', ?_, hv⟩, ?_⟩
      · rwa [List.getElem?_append_left hi] at hop'
      · intro j op'' hj hop''
        have hjlt := (List.getElem?_eq_some_iff.mp hop'').1
        exact h.untouched j op'' hj (by rwa [List.getElem?_append_left hjlt])
  · rintro (⟨rfl, hv⟩ | ⟨hnone, h⟩)
    · refine ⟨⟨op, by simp, hv⟩, fun j op' hj hop' => ?_⟩
      have hjlt := (List.getElem?_eq_some_iff.mp hop').1
      simp only [List.length_append, List.length_singleton] at hjlt
      omega
    · have hi := h.lt_length
      refine ⟨?_, fun j op' hj hop' => ?_⟩
      · obtain ⟨op', hop', hv⟩ := h.written
        exact ⟨op', by rwa [List.getElem?_append_left hi], hv⟩
      · by_cases hjl : j < ops.length
        · rw [List.getElem?_append_left hjl] at hop'
          exact h.untouched j op' hj hop'
        · have hjlt := (List.getElem?_eq_some_iff.mp hop').1
          obtain rfl : j = ops.length := by
            simp only [List.length_append, List.length_singleton] at hjlt
            omega
          obtain rfl : op = op' := by simpa using hop'
          exact hnone

/-! ### A list of the live values -/

/-- The entries are the live values, each under its key and with its position. -/
structure Tracks (effect : Op → κ → Option (Option σ)) (ops : List Op)
    (entries : List (ℕ × κ × σ)) : Prop where
  increasing : entries.Pairwise fun a b => a.1 < b.1
  mem : ∀ i k v, (i, k, v) ∈ entries ↔ LiveSince effect ops k i v

variable {entries : List (ℕ × κ × σ)}

theorem Tracks.nil : Tracks effect [] [] :=
  ⟨List.Pairwise.nil, by simp [not_liveSince_nil]⟩

theorem Tracks.keys_nodup (h : Tracks effect ops entries) : (entries.map fun e => e.2.1).Nodup := by
  refine List.pairwise_map.mpr (h.increasing.imp_of_mem ?_)
  rintro ⟨i, k, v⟩ ⟨j, k', w⟩ ha hb hlt hk
  obtain rfl : k = k' := hk
  obtain ⟨rfl, -⟩ := ((h.mem i k v).mp ha).unique ((h.mem j k w).mp hb)
  exact Nat.lt_irrefl _ hlt

/-- An operation that touches no key. -/
theorem Tracks.skip (h : Tracks effect ops entries) (hop : ∀ k, effect op k = none) :
    Tracks effect (ops ++ [op]) entries := by
  refine ⟨h.increasing, fun i k v => ?_⟩
  rw [h.mem, liveSince_append_singleton, hop]
  simp

/-- The first entry that satisfies a test is the one that has been live longest among
those that do. -/
theorem Tracks.find?_first (h : Tracks effect ops entries) {p : ℕ × κ × σ → Bool}
    (hfind : entries.find? p = some (i, k, v)) :
    LiveSince effect ops k i v ∧ p (i, k, v) = true ∧
      ∀ j k' w, LiveSince effect ops k' j w → p (j, k', w) = true → i ≤ j := by
  obtain ⟨hp, before, after, rfl, hbefore⟩ := List.find?_eq_some_iff_append.mp hfind
  refine ⟨(h.mem i k v).mp (by simp), hp, fun j k' w hlive hpj => ?_⟩
  rcases List.mem_append.mp ((h.mem j k' w).mpr hlive) with hmem | hmem
  · simpa [hpj] using hbefore _ hmem
  · rcases List.mem_cons.mp hmem with heq | hmem
    · exact Nat.le_of_eq (congrArg Prod.fst heq).symm
    · have hord := (List.pairwise_append.mp h.increasing).2.1
      exact Nat.le_of_lt ((List.pairwise_cons.mp hord).1 _ hmem)

variable [DecidableEq κ]

/-- An operation that deletes one key. -/
theorem Tracks.delete (h : Tracks effect ops entries)
    (hop : ∀ k', effect op k' = if k' = k then some none else none) :
    Tracks effect (ops ++ [op]) (entries.filter fun e => e.2.1 ≠ k) := by
  refine ⟨h.increasing.sublist List.filter_sublist, fun i k' v => ?_⟩
  rw [List.mem_filter, h.mem, liveSince_append_singleton, hop]
  by_cases hk : k' = k <;> simp [hk]

/-- An operation that writes one key: its entry moves to the end. -/
theorem Tracks.write (h : Tracks effect ops entries)
    (hop : ∀ k', effect op k' = if k' = k then some (some v) else none) :
    Tracks effect (ops ++ [op])
      ((entries.filter fun e => e.2.1 ≠ k) ++ [(ops.length, k, v)]) := by
  refine ⟨?_, fun i k' w => ?_⟩
  · refine List.pairwise_append.mpr
      ⟨h.increasing.sublist List.filter_sublist, List.pairwise_singleton _ _, ?_⟩
    rintro ⟨i, k', w⟩ hmem e he
    obtain rfl := List.mem_singleton.mp he
    exact ((h.mem i k' w).mp (List.mem_filter.mp hmem).1).lt_length
  · rw [List.mem_append, List.mem_filter, h.mem, liveSince_append_singleton, hop]
    by_cases hk : k' = k
    · subst hk
      simp [eq_comm]
    · simp [hk]

/-- The erasure of the first entry under a key, when keys are unique. -/
theorem eraseP_eq_filter {l : List (κ × σ)} (h : (l.map Prod.fst).Nodup) :
    l.eraseP (fun e => e.1 = k) = l.filter fun e => e.1 ≠ k := by
  induction l with
  | nil => rfl
  | cons e l ih =>
      obtain ⟨hnot, hl⟩ := List.nodup_cons.mp h
      by_cases hk : e.1 = k
      · have hrest : l.filter (fun e => e.1 ≠ k) = l := by
          refine List.filter_eq_self.mpr fun e' he' => ?_
          have hne : e'.1 ≠ k := fun hk' => hnot (List.mem_map.mpr ⟨e', he', hk'.trans hk.symm⟩)
          simpa using hne
        rw [List.eraseP_cons_of_pos (by simpa using hk),
          List.filter_cons_of_neg (by simpa using hk), hrest]
      · rw [List.eraseP_cons_of_neg (by simpa using hk),
          List.filter_cons_of_pos (by simpa using hk), ih hl]

end LastWrite
