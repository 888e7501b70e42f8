import Xzmjx.TimerModel

/-!
# What every timer operation preserves

`Good m out` is the invariant while the timers in `out` have been taken out of
the set and are about to be put back or retired; between calls `out` is empty.
Every operation is a composition of three moves on it: take a timer out of the
set, put it back under a new key, retire it by clearing its callback.
-/
namespace Xzmjx.TimerModel
open OrderedSet

theorem comparator_strict : ∀ a b : Timer, comparator a b = true → comparator b a = false := by
  intro a b h
  unfold comparator at h ⊢
  split_ifs at h ⊢ <;> first | rfl | omega | (simp only [decide_eq_true_eq] at h; simp; omega)

theorem comparator_trans (a b c : Timer) (hab : comparator a b = true)
    (hbc : comparator b c = true) : comparator a c = true := by
  unfold comparator at hab hbc ⊢
  split_ifs at hab hbc ⊢ <;>
    first | rfl | omega | (simp only [decide_eq_true_eq] at hab hbc ⊢; omega)

/-- Timers at different addresses are never equivalent. -/
theorem comparator_total {a b : Timer} (h : a.addr ≠ b.addr) :
    comparator a b = true ∨ comparator b a = true := by
  unfold comparator
  split_ifs <;> simp
  omega

theorem TimerManager.lt_strict (m : TimerManager) : StrictOrder m.lt :=
  ⟨fun a b => comparator_strict (m.timer a) (m.timer b),
    fun a b c => comparator_trans (m.timer a) (m.timer b) (m.timer c)⟩

structure Good (m : TimerManager) (out : List ℕ) : Prop where
  ordered : Ordered m.lt m.timers
  nodup : out.Nodup
  apart : ∀ t ∈ out, t ∉ m.timers
  addr : ∀ a b, (a ∈ out ∨ a ∈ m.timers) → (b ∈ out ∨ b ∈ m.timers) →
    (m.timer a).addr = (m.timer b).addr → a = b
  alloc : ∀ t, (t ∈ out ∨ t ∈ m.timers) → t < m.count
  armed : ∀ t, t < m.count → ((t ∈ out ∨ t ∈ m.timers) ↔ (m.timer t).cb ≠ none)

/-- The part of the invariant that the comparator needs. -/
structure Placed (m : TimerManager) (out : List ℕ) : Prop where
  ordered : Ordered m.lt m.timers
  nodup : out.Nodup
  apart : ∀ t ∈ out, t ∉ m.timers
  addr : ∀ a b, (a ∈ out ∨ a ∈ m.timers) → (b ∈ out ∨ b ∈ m.timers) →
    (m.timer a).addr = (m.timer b).addr → a = b

namespace TimerManager

variable {m : TimerManager} {t u : ℕ} {x : Timer}

@[simp] theorem setTimer_self : (m.setTimer t x).timer t = x := Function.update_self ..

@[simp] theorem setTimer_of_ne (h : u ≠ t) : (m.setTimer t x).timer u = m.timer u :=
  Function.update_of_ne h ..

@[simp] theorem setTimer_timers : (m.setTimer t x).timers = m.timers := rfl
@[simp] theorem insert_timer : (m.insert t).timer = m.timer := rfl

theorem setTimer_lt (ha : u ≠ t) {v : ℕ} (hb : v ≠ t) : (m.setTimer t x).lt u v = m.lt u v := by
  simp [lt, ha, hb]

/-- Clearing the callback leaves the comparator as it was. -/
theorem setTimer_cb_lt (cb : Option Callback) :
    (m.setTimer t { m.timer t with cb := cb }).lt = m.lt := by
  have hkey : ∀ v, ((m.setTimer t { m.timer t with cb := cb }).timer v).next = (m.timer v).next ∧
      ((m.setTimer t { m.timer t with cb := cb }).timer v).addr = (m.timer v).addr := by
    intro v
    by_cases hv : v = t
    · subst hv
      simp
    · simp [hv]
  funext a b
  simp only [lt, comparator, hkey]

end TimerManager

namespace Placed

variable {m : TimerManager} {out : List ℕ} {t : ℕ} {x : Timer}

theorem comparable (h : Placed m (t :: out)) (haddr : x.addr = (m.timer t).addr) :
    ∀ u ∈ m.timers, (m.setTimer t x).lt t u = true ∨ (m.setTimer t x).lt u t = true := by
  intro u hu
  have hne : u ≠ t := fun he => h.apart t List.mem_cons_self (he ▸ hu)
  refine comparator_total ?_
  rw [TimerManager.setTimer_self, TimerManager.setTimer_of_ne hne, haddr]
  intro he
  exact hne (h.addr t u (Or.inl List.mem_cons_self) (Or.inr hu) he).symm

theorem mem_putBack (h : Placed m (t :: out)) (haddr : x.addr = (m.timer t).addr) (u : ℕ) :
    u ∈ ((m.setTimer t x).insert t).timers ↔ u = t ∨ u ∈ m.timers :=
  mem_insert (h.comparable haddr)

theorem setTimer_addr (haddr : x.addr = (m.timer t).addr) (u : ℕ) :
    ((m.setTimer t x).timer u).addr = (m.timer u).addr := by
  by_cases hu : u = t
  · subst hu
    simpa using haddr
  · simp [hu]

/-- Changing a timer that has been taken out leaves the order of the set. -/
theorem setTimer_ordered (h : Placed m (t :: out)) : Ordered (m.setTimer t x).lt m.timers := by
  have hne : ∀ u ∈ m.timers, u ≠ t := fun u hu he => h.apart t List.mem_cons_self (he ▸ hu)
  exact h.ordered.congr fun a ha b hb => TimerManager.setTimer_lt (hne a ha) (hne b hb)

/-- Put a timer back under a new key, at its old address. -/
theorem putBack (h : Placed m (t :: out)) (haddr : x.addr = (m.timer t).addr) :
    Placed ((m.setTimer t x).insert t) out := by
  obtain ⟨htout, hnodup⟩ := List.nodup_cons.mp h.nodup
  have hmem := h.mem_putBack haddr
  have hall (u : ℕ) (hu : u ∈ out ∨ u ∈ ((m.setTimer t x).insert t).timers) :
      u ∈ t :: out ∨ u ∈ m.timers := by
    rw [hmem] at hu
    rw [List.mem_cons]
    tauto
  refine ⟨h.setTimer_ordered.insert (TimerManager.lt_strict _) (h.comparable haddr), hnodup, ?_, ?_⟩
  · intro u hu hc
    rcases (hmem u).mp hc with rfl | hc
    · exact htout hu
    · exact h.apart u (List.mem_cons_of_mem _ hu) hc
  · intro a b ha hb
    simp only [TimerManager.insert_timer, setTimer_addr haddr]
    exact h.addr a b (hall a ha) (hall b hb)

/-- Leave a timer out of the set. -/
theorem retire (h : Placed m (t :: out)) (haddr : x.addr = (m.timer t).addr) :
    Placed (m.setTimer t x) out := by
  have hsub (u : ℕ) (hu : u ∈ out ∨ u ∈ m.timers) : u ∈ t :: out ∨ u ∈ m.timers :=
    hu.imp_left (List.mem_cons_of_mem _)
  refine ⟨h.setTimer_ordered, (List.nodup_cons.mp h.nodup).2,
    fun u hu => h.apart u (List.mem_cons_of_mem _ hu), ?_⟩
  intro a b ha hb
  rw [setTimer_addr haddr, setTimer_addr haddr]
  exact h.addr a b (hsub a ha) (hsub b hb)

end Placed

namespace Good

variable {m : TimerManager} {out : List ℕ} {t : ℕ}

theorem new (insertAtFrontCb : Bool) : Good (TimerManager.new insertAtFrontCb) [] where
  ordered := List.Pairwise.nil
  nodup := List.nodup_nil
  apart := by simp
  addr := by simp [TimerManager.new]
  alloc := by simp [TimerManager.new]
  armed := by simp [TimerManager.new]

theorem timers_nodup (h : Good m out) : m.timers.Nodup := h.ordered.nodup m.lt_strict

theorem find_eq (h : Good m out) (ht : t ∈ m.timers) : m.find t = some t :=
  find_eq_self m.lt_strict h.ordered ht

theorem erase_timers (h : Good m out) (ht : t ∈ m.timers) :
    (m.erase t).timers = m.timers.erase t :=
  OrderedSet.erase_eq m.lt_strict h.ordered ht

/-- Between calls the timers in the set are those that still have a callback. -/
theorem mem_timers_iff (h : Good m []) (ht : t < m.count) :
    t ∈ m.timers ↔ (m.timer t).cb ≠ none := by
  simpa using h.armed t ht

theorem cb_eq_none (h : Good m []) (ht : t < m.count) (hmem : t ∉ m.timers) :
    (m.timer t).cb = none := by
  rw [h.mem_timers_iff ht] at hmem
  exact not_not.mp hmem

/-- Take a timer out of the set. -/
theorem take (h : Good m out) (ht : t ∈ m.timers) : Good (m.erase t) (t :: out) := by
  have hmem (u : ℕ) : u ∈ (m.erase t).timers ↔ u ≠ t ∧ u ∈ m.timers := by
    rw [h.erase_timers ht]
    exact h.timers_nodup.mem_erase_iff
  have hall (u : ℕ) : (u ∈ t :: out ∨ u ∈ (m.erase t).timers) ↔ (u ∈ out ∨ u ∈ m.timers) := by
    rw [hmem, List.mem_cons]
    by_cases hu : u = t
    · subst hu
      simp [ht]
    · simp [hu]
  refine ⟨?_, ?_, ?_, ?_, ?_, ?_⟩
  · rw [Ordered, h.erase_timers ht]
    exact List.Pairwise.sublist List.erase_sublist h.ordered
  · exact List.nodup_cons.mpr ⟨fun hout => h.apart t hout ht, h.nodup⟩
  · intro u hu
    rw [hmem]
    rcases List.mem_cons.mp hu with rfl | hu
    · simp
    · exact fun hc => h.apart u hu hc.2
  · intro a b ha hb
    exact h.addr a b ((hall a).mp ha) ((hall b).mp hb)
  · intro u hu
    exact h.alloc u ((hall u).mp hu)
  · intro u hu
    rw [hall]
    exact h.armed u hu

theorem placed (h : Good m out) : Placed m out := ⟨h.ordered, h.nodup, h.apart, h.addr⟩

/-- Put a timer back under a new key, at its old address and with a callback. -/
theorem putBack (h : Good m (t :: out)) {x : Timer} (haddr : x.addr = (m.timer t).addr)
    (hcb : x.cb ≠ none) : Good ((m.setTimer t x).insert t) out := by
  have hplaced := h.placed.putBack haddr
  have hall (u : ℕ) : (u ∈ out ∨ u ∈ ((m.setTimer t x).insert t).timers) ↔
      (u ∈ t :: out ∨ u ∈ m.timers) := by
    rw [h.placed.mem_putBack haddr, List.mem_cons]
    tauto
  refine ⟨hplaced.ordered, hplaced.nodup, hplaced.apart, hplaced.addr, ?_, ?_⟩
  · intro u hu
    exact h.alloc u ((hall u).mp hu)
  · intro u hu
    rw [hall]
    by_cases hut : u = t
    · subst hut
      simpa using hcb
    · simpa [hut] using h.armed u hu

/-- Retire a timer that has been taken out. -/
theorem retire (h : Good m (t :: out)) :
    Good (m.setTimer t { m.timer t with cb := none }) out := by
  have htout : t ∉ out := (List.nodup_cons.mp h.nodup).1
  have htset : t ∉ m.timers := h.apart t List.mem_cons_self
  have hplaced : Placed (m.setTimer t { m.timer t with cb := none }) out := h.placed.retire rfl
  refine ⟨hplaced.ordered, hplaced.nodup, hplaced.apart, hplaced.addr, ?_, ?_⟩
  · exact fun u hu => h.alloc u (hu.imp_left (List.mem_cons_of_mem _))
  · intro u hu
    by_cases hut : u = t
    · subst hut
      simp [htout, htset]
    · simpa [hut] using h.armed u hu

/-- Put a new timer into the set, at an address no timer of the set has. -/
theorem enlist (h : Good m []) {x : Timer} (hcb : x.cb ≠ none)
    (hfresh : ∀ u ∈ m.timers, (m.timer u).addr ≠ x.addr) :
    Good (({ m with count := m.count + 1 }.setTimer m.count x).insert m.count) [] := by
  have hnot : m.count ∉ m.timers := fun hc => Nat.lt_irrefl _ (h.alloc _ (Or.inr hc))
  have hne : ∀ u ∈ m.timers, u ≠ m.count := fun u hu he => hnot (he ▸ hu)
  set m' := { m with count := m.count + 1 }.setTimer m.count x with hm'
  have hself : m'.timer m.count = x := by simp [hm']
  have hother {u : ℕ} (hu : u ≠ m.count) : m'.timer u = m.timer u := by simp [hm', hu]
  have hcomp : ∀ u ∈ m'.timers, m'.lt m.count u = true ∨ m'.lt u m.count = true := by
    intro u hu
    refine comparator_total ?_
    rw [hself, hother (hne u hu)]
    exact (hfresh u hu).symm
  have hord : Ordered m'.lt m'.timers := by
    refine h.ordered.congr fun a ha b hb => ?_
    simp only [TimerManager.lt, hother (hne a ha), hother (hne b hb)]
  have hmem (u : ℕ) : u ∈ (m'.insert m.count).timers ↔ u = m.count ∨ u ∈ m.timers :=
    mem_insert hcomp
  refine ⟨hord.insert m'.lt_strict hcomp, List.nodup_nil, by simp, ?_, ?_, ?_⟩
  · intro a b ha hb he
    simp only [List.not_mem_nil, false_or, hmem, TimerManager.insert_timer] at ha hb he
    rcases ha with rfl | ha <;> rcases hb with rfl | hb
    · rfl
    · rw [hself, hother (hne b hb)] at he
      exact absurd he.symm (hfresh b hb)
    · rw [hself, hother (hne a ha)] at he
      exact absurd he (hfresh a ha)
    · rw [hother (hne a ha), hother (hne b hb)] at he
      exact h.addr a b (Or.inr ha) (Or.inr hb) he
  · intro u hu
    simp only [List.not_mem_nil, false_or, hmem] at hu
    have hcount : (m'.insert m.count).count = m.count + 1 := rfl
    rcases hu with rfl | hu
    · omega
    · have := h.alloc u (Or.inr hu)
      omega
  · intro u hu
    have hcount : u < m.count + 1 := hu
    simp only [List.not_mem_nil, false_or, hmem, TimerManager.insert_timer]
    by_cases hut : u = m.count
    · subst hut
      simpa [hself] using hcb
    · rw [hother hut, ← h.mem_timers_iff (by omega)]
      simp [hut]

end Good

end Xzmjx.TimerModel
