import Xzmjx.TimerDeadlines

/-!
# What `listExpiredCb` takes out of the set

The iterator starts at the lower bound of a temporary timer, whose address decides
on which side of it a timer with the same deadline stands, and is advanced over
equal deadlines. Where it stops does not depend on that address: everything before
it is due and nothing behind it is.
-/
namespace Xzmjx.TimerModel
open OrderedSet

variable {m : TimerManager}

/-- The entry of a timer in the batch of callbacks. -/
def TimerManager.callback (m : TimerManager) (t : ℕ) : Option (ℕ × Callback) :=
  (m.timer t).cb.map fun cb => (t, cb)

/-- A timer after its turn in the loop, at clock reading `now`. -/
def Timer.fired (x : Timer) (now : ℕ) : Timer :=
  if x.recurring then { x with next := wrap (now + x.ms) } else { x with cb := none }

/-! ### Where the iterator stops -/

/-- Behind the iterator nothing is due. -/
theorem expire_not_due (h : Ordered m.lt m.timers) {now nowAddr t : ℕ}
    (ht : t ∈ (m.expire now nowAddr).2) : now < (m.timer t).next := by
  set iter := m.timers.dropWhile fun t =>
    comparator (m.timer t) { addr := nowAddr, next := now }
  have hord : Ordered m.lt iter := List.Pairwise.sublist (List.dropWhile_sublist _) h
  -- From the lower bound on no deadline is before `now`.
  have hge : ∀ u ∈ iter, now ≤ (m.timer u).next := by
    intro u hu
    have hmono : m.timers.Pairwise fun a b =>
        comparator (m.timer b) { addr := nowAddr, next := now } = true →
          comparator (m.timer a) { addr := nowAddr, next := now } = true :=
      h.imp fun hab hb => comparator_trans _ _ _ hab hb
    have hnot := not_of_mem_dropWhile hmono hu
    by_contra hlt
    have hlt : comparator (m.timer u) { addr := nowAddr, next := now } = true := by
      rw [comparator_iff]
      dsimp only
      omega
    simp [hlt] at hnot
  have hmono : iter.Pairwise fun a b =>
      decide ((m.timer b).next = now) = true → decide ((m.timer a).next = now) = true := by
    refine List.Pairwise.imp_of_mem ?_ hord
    intro a b ha _ hab hb
    have hlt := (comparator_iff _ _).mp hab
    have hle := hge a ha
    simp only [decide_eq_true_eq] at hb ⊢
    omega
  have hne := not_of_mem_dropWhile hmono ht
  have hle := hge t (List.dropWhile_sublist _ |>.mem ht)
  simp only [decide_eq_false_iff_not] at hne
  omega

theorem expire_eq_filter (h : Ordered m.lt m.timers) (now nowAddr : ℕ) :
    (m.expire now nowAddr).1 = m.timers.filter fun t => (m.timer t).next ≤ now := by
  conv_rhs => rw [← expire_append m now nowAddr]
  rw [List.filter_append, List.filter_eq_self.mpr, List.filter_eq_nil_iff.mpr, List.append_nil]
  · intro t ht
    have := expire_not_due h ht
    simpa using this
  · intro t ht
    simpa using expire_due ht

theorem mem_expire_right (h : Ordered m.lt m.timers) {now nowAddr t : ℕ} :
    t ∈ (m.expire now nowAddr).2 ↔ t ∈ m.timers ∧ t ∉ (m.expire now nowAddr).1 := by
  have hnodup := h.nodup m.lt_strict
  rw [← expire_append m now nowAddr] at hnodup ⊢
  have hdisj := (List.nodup_append.mp hnodup).2.2
  rw [List.mem_append]
  constructor
  · exact fun ht => ⟨Or.inr ht, fun hc => hdisj t hc t ht rfl⟩
  · exact fun ht => ht.1.resolve_left ht.2

/-! ### The loop -/

theorem fire_eq (t now : ℕ) :
    m.fire t now = ((m.callback t).toList,
      if (m.timer t).recurring then (m.setTimer t ((m.timer t).fired now)).insert t
      else m.setTimer t ((m.timer t).fired now)) := by
  unfold TimerManager.fire TimerManager.callback Timer.fired
  split_ifs <;> rfl

theorem fired_addr (x : Timer) (now : ℕ) : (x.fired now).addr = x.addr := by
  unfold Timer.fired
  split_ifs <;> rfl

/-- One round of the loop on a set in any state. -/
theorem Placed.fire {t : ℕ} {out : List ℕ} (h : Placed m (t :: out)) (now : ℕ) :
    Placed (m.fire t now).2 out ∧
      (∀ u, u ∈ (m.fire t now).2.timers ↔
        u ∈ m.timers ∨ (u = t ∧ (m.timer t).recurring = true)) ∧
      (m.fire t now).2.timer = Function.update m.timer t ((m.timer t).fired now) := by
  rw [fire_eq]
  have haddr := fired_addr (m.timer t) now
  cases hrec : (m.timer t).recurring with
  | true =>
      simp only [if_true]
      refine ⟨h.putBack haddr, fun u => ?_, rfl⟩
      rw [h.mem_putBack haddr]
      tauto
  | false =>
      simp only [Bool.false_eq_true, if_false]
      exact ⟨h.retire haddr, by simp, rfl⟩

theorem callback_congr {m' : TimerManager} {t : ℕ} (h : m'.timer t = m.timer t) :
    m'.callback t = m.callback t := by
  rw [TimerManager.callback, TimerManager.callback, h]

/-- What the loop over the timers `ts` leaves behind. -/
structure FiredAll (m : TimerManager) (ts : List ℕ) (clock : ℕ → ℕ)
    (cbs : List (ℕ × Callback)) (m' : TimerManager) : Prop where
  placed : Placed m' []
  handed : cbs = ts.filterMap m.callback
  fired : ∀ i t, ts[i]? = some t → m'.timer t = (m.timer t).fired (clock i)
  other : ∀ t ∉ ts, m'.timer t = m.timer t
  mem : ∀ t, t ∈ m'.timers ↔ t ∈ m.timers ∨ (t ∈ ts ∧ (m.timer t).recurring = true)

theorem Placed.fireAll (ts : List ℕ) (clock : ℕ → ℕ) (h : Placed m ts) :
    FiredAll m ts clock (m.fireAll ts clock).1 (m.fireAll ts clock).2 := by
  induction ts generalizing m clock with
  | nil => exact ⟨h, rfl, by simp, fun _ _ => rfl, by simp [TimerManager.fireAll]⟩
  | cons t ts ih =>
      obtain ⟨hplaced, hmem, htimer⟩ := h.fire (clock 0)
      have hnot : t ∉ ts := (List.nodup_cons.mp h.nodup).1
      have hother : ∀ u ∈ ts, (m.fire t (clock 0)).2.timer u = m.timer u := by
        intro u hu
        have hut : u ≠ t := fun he => hnot (he ▸ hu)
        rw [htimer, Function.update_of_ne hut]
      have hrest := ih (fun i => clock (i + 1)) hplaced
      simp only [TimerManager.fireAll]
      refine ⟨hrest.placed, ?_, ?_, ?_, ?_⟩
      · have hcbs : ts.filterMap (m.fire t (clock 0)).2.callback = ts.filterMap m.callback :=
          List.filterMap_congr fun u hu => callback_congr (hother u hu)
        rw [hrest.handed, hcbs, fire_eq, List.filterMap_cons]
        cases m.callback t <;> rfl
      · intro i u hi
        cases i with
        | zero =>
            obtain rfl : t = u := by simpa using hi
            rw [hrest.other t hnot, htimer, Function.update_self]
        | succ i =>
            have hi : ts[i]? = some u := by simpa using hi
            rw [hrest.fired i u hi, hother u (List.mem_of_getElem? hi)]
      · intro u hu
        obtain ⟨hut, huts⟩ := not_or.mp (fun hc => hu (List.mem_cons.mpr hc))
        rw [hrest.other u huts, htimer, Function.update_of_ne hut]
      · intro u
        rw [hrest.mem, hmem, List.mem_cons]
        by_cases hut : u = t
        · subst hut
          simp [hnot]
        · by_cases huts : u ∈ ts
          · simp [hut, hother u huts]
          · simp [hut, huts]

/-- What a caller of `listExpiredCb` is promised: `due` are the timers of the set
whose deadline is not after `now`, in the order of the set, and `clock i` is the
reading that the loop takes for the `i`-th of them. -/
structure ExpirySpec (m : TimerManager) (now : ℕ) (clock : ℕ → ℕ) (due : List ℕ)
    (cbs : List (ℕ × Callback)) (m' : TimerManager) : Prop where
  mem_due : ∀ t, t ∈ due ↔ t ∈ m.timers ∧ (m.timer t).next ≤ now
  due_nodup : due.Nodup
  due_ordered : due.Pairwise fun a b =>
    (m.timer a).next < (m.timer b).next ∨
      (m.timer a).next = (m.timer b).next ∧ (m.timer a).addr < (m.timer b).addr
  handed : cbs = due.filterMap fun t => (m.timer t).cb.map fun cb => (t, cb)
  oneShot : ∀ t ∈ due, (m.timer t).recurring = false → t ∉ m'.timers
  recurring : ∀ i t, due[i]? = some t → (m.timer t).recurring = true →
    m'.timers.count t = 1 ∧
      m'.timer t = { m.timer t with next := wrap (clock i + (m.timer t).ms) }
  others : ∀ t ∉ due, m'.timer t = m.timer t ∧ m'.timers.count t = m.timers.count t
  ordered : Ordered m'.lt m'.timers

/-- `listExpiredCb` hands out exactly the expired timers. For every set of timers
at different addresses, every reading `now`, every address of the temporary timer and
all later readings. -/
theorem listExpiredCb_expired (m : TimerManager) (h : Placed m []) (now nowAddr : ℕ)
    (clock : ℕ → ℕ) :
    ExpirySpec m now clock (m.timers.filter fun t => (m.timer t).next ≤ now)
      (m.listExpiredCb now nowAddr clock).1 (m.listExpiredCb now nowAddr clock).2 := by
  have hdue := expire_eq_filter h.ordered now nowAddr
  have hall := (h.expire now nowAddr).fireAll _ clock
  have hnodup := h.ordered.nodup m.lt_strict
  have hnodup' : (m.listExpiredCb now nowAddr clock).2.timers.Nodup :=
    hall.placed.ordered.nodup (TimerManager.lt_strict _)
  have hright (t : ℕ) : t ∈ (m.expire now nowAddr).2 ↔ t ∈ m.timers ∧ t ∉ _ :=
    mem_expire_right h.ordered
  have hmem (t : ℕ) : t ∈ (m.listExpiredCb now nowAddr clock).2.timers ↔ _ := hall.mem t
  rw [← hdue]
  refine ⟨?_, ?_, ?_, hall.handed, ?_, ?_, ?_, hall.placed.ordered⟩
  · intro t
    rw [hdue]
    simp
  · exact (h.expire now nowAddr).nodup
  · rw [hdue]
    refine List.Pairwise.imp ?_ (h.ordered.sublist List.filter_sublist)
    exact fun hab => (comparator_iff _ _).mp hab
  · intro t ht hrec
    rw [hmem, hright]
    simp [ht, hrec]
  · intro i t hi hrec
    refine ⟨List.count_eq_one_of_mem hnodup' ?_, ?_⟩
    · exact (hmem t).mpr (Or.inr ⟨List.mem_of_getElem? hi, hrec⟩)
    · have hfired := hall.fired i t hi
      rw [Timer.fired, if_pos hrec] at hfired
      exact hfired
  · intro t ht
    refine ⟨hall.other t ht, ?_⟩
    rw [hnodup.count, hnodup'.count]
    refine if_congr ?_ rfl rfl
    rw [hmem, hright]
    simp [ht]

/-- Three timers with the deadline 20, one of them behind the temporary timer, and one
with a later deadline. -/
def TimerManager.crowded : TimerManager where
  timer t := match t with
    | 0 => { addr := 32, ms := 10, next := 20, cb := some 5 }
    | 1 => { addr := 64, recurring := true, ms := 10, next := 20, cb := some 6 }
    | 2 => { addr := 16, ms := 20, next := 30, cb := some 7 }
    | _ => { addr := 48, ms := 5, next := 20, cb := some 8 }
  count := 4
  timers := [0, 3, 1, 2]
  insertAtFrontCb := true

theorem listExpiredCb_expired_crowded :
    Placed TimerManager.crowded [] ∧
    (TimerManager.crowded.listExpiredCb 20 50 fun _ => 21).1 = [(0, 5), (3, 8), (1, 6)] ∧
    ExpirySpec TimerManager.crowded 20 (fun _ => 21) [0, 3, 1]
      (TimerManager.crowded.listExpiredCb 20 50 fun _ => 21).1
      (TimerManager.crowded.listExpiredCb 20 50 fun _ => 21).2 := by
  have h : Placed TimerManager.crowded [] := by
    have haddr : ∀ a ∈ TimerManager.crowded.timers, ∀ b ∈ TimerManager.crowded.timers,
        (TimerManager.crowded.timer a).addr = (TimerManager.crowded.timer b).addr → a = b := by
      decide
    refine ⟨by unfold Ordered; decide, List.nodup_nil, by simp, fun a b ha hb => ?_⟩
    exact haddr a (by simpa using ha) b (by simpa using hb)
  exact ⟨h, by decide, listExpiredCb_expired _ h 20 50 fun _ => 21⟩

end Xzmjx.TimerModel
