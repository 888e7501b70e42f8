import Mathlib.Data.List.Nodup
import Mathlib.Tactic.Common

/-!
# One-shot registrations

A registry keeps at most one waiter under each key. Arming a key registers a
waiter and gives the registration the next ticket; a registration ends when its
key is dropped, or when its key is fired, which delivers the waiter. The
history records the registration of every ticket together with its fate.
-/
namespace OneShot

variable {κ ω : Type*}

inductive Fate
  | armed
  | dropped
  | fired
  deriving DecidableEq, Repr

structure Registration (κ ω : Type*) where
  key : κ
  waiter : ω
  fate : Fate
  deriving DecidableEq, Repr

structure Registry (κ ω : Type*) where
  slot : κ → Option (ℕ × ω)
  history : List (Registration κ ω)
  delivered : List (ℕ × ω)

namespace Registry

def empty : Registry κ ω := ⟨fun _ => none, [], []⟩

/-- What holds of every registry built by arming free keys, dropping and firing. -/
structure Sound (r : Registry κ ω) : Prop where
  slot_iff : ∀ k t w, r.slot k = some (t, w) ↔ r.history[t]? = some ⟨k, w, .armed⟩
  delivered_nodup : (r.delivered.map Prod.fst).Nodup
  delivered_iff : ∀ t w, (t, w) ∈ r.delivered ↔ ∃ k, r.history[t]? = some ⟨k, w, .fired⟩

theorem sound_empty : (empty : Registry κ ω).Sound :=
  ⟨by simp [empty], by simp [empty], by simp [empty]⟩

/-- How often the waiter of a ticket was delivered. -/
def deliveries (r : Registry κ ω) (t : ℕ) : ℕ := (r.delivered.map Prod.fst).count t

/-- The waiter of a ticket is delivered once if it was fired, else never. -/
theorem Sound.deliveries_eq {r : Registry κ ω} (hr : r.Sound) {t : ℕ} {x : Registration κ ω}
    (hx : r.history[t]? = some x) : r.deliveries t = if x.fate = .fired then 1 else 0 := by
  have hmem : t ∈ r.delivered.map Prod.fst ↔ x.fate = .fired := by
    simp only [List.mem_map, Prod.exists, exists_and_right, exists_eq_right, hr.delivered_iff, hx,
      Option.some.injEq]
    constructor
    · rintro ⟨w, k, rfl⟩
      rfl
    · intro hf
      exact ⟨x.waiter, x.key, by rw [← hf]⟩
  unfold deliveries
  by_cases hf : x.fate = .fired
  · rw [if_pos hf]
    exact List.count_eq_one_of_mem hr.delivered_nodup (hmem.mpr hf)
  · rw [if_neg hf]
    exact List.count_eq_zero_of_not_mem (hmem.not.mpr hf)

section
variable [DecidableEq κ]

def arm (r : Registry κ ω) (k : κ) (w : ω) : Registry κ ω :=
  { r with
    slot := Function.update r.slot k (some (r.history.length, w))
    history := r.history ++ [⟨k, w, .armed⟩] }

/-- End the registration under a key, if there is one, with the given fate. -/
def settle (r : Registry κ ω) (k : κ) (fate : Fate) : Registry κ ω :=
  match r.slot k with
  | none => r
  | some (t, _) =>
      { r with
        slot := Function.update r.slot k none
        history := r.history.modify t fun x => { x with fate } }

def drop (r : Registry κ ω) (k : κ) : Registry κ ω := r.settle k .dropped

def fire (r : Registry κ ω) (k : κ) : Registry κ ω :=
  { r.settle k .fired with delivered := r.delivered ++ (r.slot k).toList }

@[simp] theorem settle_slot (r : Registry κ ω) (k : κ) (fate : Fate) :
    (r.settle k fate).slot = Function.update r.slot k none := by
  unfold settle
  cases h : r.slot k with
  | none => exact (Function.update_eq_self_iff.mpr h.symm).symm
  | some p => rfl

@[simp] theorem settle_delivered (r : Registry κ ω) (k : κ) (fate : Fate) :
    (r.settle k fate).delivered = r.delivered := by
  unfold settle
  cases r.slot k <;> rfl

theorem Sound.arm {r : Registry κ ω} (hr : r.Sound) {k : κ} (hk : r.slot k = none) (w : ω) :
    (r.arm k w).Sound := by
  have hlast : ∀ t x, (r.arm k w).history[t]? = some x ↔
      r.history[t]? = some x ∨ (t = r.history.length ∧ x = ⟨k, w, .armed⟩) := by
    intro t x
    simp only [Registry.arm, List.getElem?_append, List.getElem?_singleton]
    by_cases ht : t < r.history.length
    · simp [ht, show t ≠ r.history.length by omega]
    · by_cases he : t = r.history.length
      · simp [he, eq_comm]
      · simp [ht, he, show t - r.history.length ≠ 0 by omega]
  refine ⟨fun k' t v => ?_, hr.delivered_nodup, fun t v => ?_⟩
  · rw [hlast, ← hr.slot_iff]
    by_cases hkk : k' = k
    · subst hkk
      simp [Registry.arm, hk, eq_comm]
    · simp [Registry.arm, hkk]
  · simp only [hlast]
    simpa [Registry.arm] using hr.delivered_iff t v

/-- After a settlement the history differs in the one ticket, which was armed. -/
theorem Sound.settle_history {r : Registry κ ω} (hr : r.Sound) {k : κ} {t : ℕ} {w : ω}
    (hk : r.slot k = some (t, w)) (fate : Fate) (t' : ℕ) :
    (r.settle k fate).history[t']? = if t' = t then some ⟨k, w, fate⟩ else r.history[t']? := by
  have ht := (hr.slot_iff k t w).mp hk
  unfold settle
  rw [hk]
  by_cases h : t' = t
  · subst h
    simp [ht]
  · simp [Ne.symm h, h]

/-- A settled key is free, and the other keys are as they were. -/
theorem Sound.settle_slot_iff {r : Registry κ ω} (hr : r.Sound) (k : κ) {fate : Fate}
    (hf : fate ≠ .armed) (k' : κ) (t : ℕ) (v : ω) :
    (r.settle k fate).slot k' = some (t, v) ↔
      (r.settle k fate).history[t]? = some ⟨k', v, .armed⟩ := by
  cases hk : r.slot k with
  | none =>
      have : r.settle k fate = r := by simp [settle, hk]
      rw [this]
      exact hr.slot_iff k' t v
  | some p =>
      obtain ⟨t₀, w⟩ := p
      rw [settle_slot, hr.settle_history hk]
      by_cases ht : t = t₀
      · subst ht
        -- the ticket belonged to `k` and to no other key
        have hother : k' ≠ k → r.slot k' ≠ some (t, v) := by
          intro hne h
          have h₁ := (hr.slot_iff k' t v).mp h
          rw [(hr.slot_iff k t w).mp hk] at h₁
          exact hne (by simp_all)
        by_cases hkk : k' = k
        · simp [hkk, hf]
        · simp [hkk, hf, hother hkk]
      · by_cases hkk : k' = k
        · subst hkk
          have : r.history[t]? ≠ some ⟨k', v, .armed⟩ := by
            rw [Ne, ← hr.slot_iff, hk]
            simp [Ne.symm ht]
          simp [ht, this]
        · simp [hkk, ht, hr.slot_iff]

/-- A registration that has ended keeps its fate when a key is armed. -/
theorem arm_keeps {r : Registry κ ω} {t : ℕ} {x : Registration κ ω}
    (hx : r.history[t]? = some x) (k : κ) (w : ω) : (r.arm k w).history[t]? = some x := by
  have ht := (List.getElem?_eq_some_iff.mp hx).1
  simpa [Registry.arm, List.getElem?_append_left ht] using hx

/-- A registration that has ended keeps its fate when a key is settled. -/
theorem Sound.settle_keeps {r : Registry κ ω} (hr : r.Sound) {t : ℕ} {x : Registration κ ω}
    (hx : r.history[t]? = some x) (hf : x.fate ≠ .armed) (k : κ) (fate : Fate) :
    (r.settle k fate).history[t]? = some x := by
  cases hk : r.slot k with
  | none => simpa [settle, hk] using hx
  | some p =>
      have ht := (hr.slot_iff k p.1 p.2).mp hk
      have hne : t ≠ p.1 := by
        rintro rfl
        rw [hx] at ht
        exact hf (by rw [Option.some.inj ht])
      rw [hr.settle_history hk, if_neg hne]
      exact hx

theorem Sound.drop {r : Registry κ ω} (hr : r.Sound) (k : κ) : (r.drop k).Sound := by
  refine ⟨fun k' t v => hr.settle_slot_iff k (by decide) k' t v, ?_, fun t v => ?_⟩
  · simpa [Registry.drop] using hr.delivered_nodup
  · cases hk : r.slot k with
    | none => simpa [Registry.drop, settle, hk] using hr.delivered_iff t v
    | some p =>
        have ht := (hr.slot_iff k p.1 p.2).mp hk
        simp only [Registry.drop, settle_delivered, hr.delivered_iff, hr.settle_history hk]
        by_cases h : t = p.1
        · subst h
          simp [ht]
        · simp [h]

theorem Sound.fire {r : Registry κ ω} (hr : r.Sound) (k : κ) : (r.fire k).Sound := by
  cases hk : r.slot k with
  | none =>
      have : r.fire k = r := by simp [Registry.fire, settle, hk]
      rwa [this]
  | some p =>
      obtain ⟨t₀, w⟩ := p
      have ht := (hr.slot_iff k t₀ w).mp hk
      have hfresh : ∀ v, (t₀, v) ∉ r.delivered := by
        intro v
        simp [hr.delivered_iff, ht]
      refine ⟨fun k' t v => hr.settle_slot_iff k (by decide) k' t v, ?_, fun t v => ?_⟩
      · simp only [Registry.fire, hk, Option.toList, List.map_append, List.map_cons, List.map_nil]
        refine List.nodup_append.mpr ⟨hr.delivered_nodup, by simp, ?_⟩
        intro a ha b hb hab
        obtain ⟨q, hq, rfl⟩ := List.mem_map.mp ha
        have hb' : b = t₀ := by simpa using hb
        exact hfresh q.2 (by rw [← hb', ← hab]; exact hq)
      · simp only [Registry.fire, hk, Option.toList, List.mem_append, List.mem_singleton,
          hr.delivered_iff, hr.settle_history hk]
        by_cases h : t = t₀
        · subst h
          simp [ht, eq_comm]
        · simp [h]

end

end Registry

end OneShot
