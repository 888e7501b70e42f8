import Xzmjx.TimerRuns
import Mathlib.Data.List.MinMax
import Mathlib.Data.List.TakeWhile

/-!
# The next deadline never moves forward unannounced

`epoll_wait` sleeps until the smallest deadline of the set, so a call that makes
that deadline earlier must invoke the front callback. Two of the four paths that
insert into the set do not look at the front at all: `refresh` and the recurring
timers of `listExpiredCb`. They rely on the clock. A deadline is a start that the
clock had already reached plus the timer's interval, and this survives every call,
so a deadline taken anew from a later reading is a later one.
-/
namespace Xzmjx.TimerModel
open OrderedSet

/-- The smallest deadline of the set, `⊤` when the set is empty. -/
def TimerManager.deadline (m : TimerManager) : WithTop ℕ :=
  (m.timers.map fun t => (m.timer t).next).minimum

/-- Whether the call invokes the front callback, which it does after the insertion. -/
def frontCbInvoked (m : TimerManager) : Op → Bool
  | .addTimer addr ms cb recurring now => (m.addTimer addr ms cb recurring now).1
  | .reset t ms fromNow now => (m.reset t ms fromNow now).2.1
  | .cancel _ | .refresh _ _ | .listExpiredCb _ _ _ => false

/-- The clock readings a call takes, in order, each with the interval added to it. -/
def Op.readings (m : TimerManager) : Op → List (ℕ × ℕ)
  | .addTimer _ ms _ _ now => [(now, ms)]
  | .cancel _ => []
  | .refresh t now => if (m.refresh t now).1 then [(now, (m.timer t).ms)] else []
  | .reset t ms fromNow now => if fromNow && (m.reset t ms fromNow now).1 then [(now, ms)] else []
  | .listExpiredCb now nowAddr clock =>
      (now, 0) :: (((m.expire now nowAddr).1.zipIdx.filter fun p => (m.timer p.1).recurring).map
        fun p => (clock p.2, (m.timer p.1).ms))

/-- The readings of the calls of a run, in order. -/
def readings (m : TimerManager) : List Op → List (ℕ × ℕ)
  | [] => []
  | op :: ops =>
      match step m op with
      | none => []
      | some m' => op.readings m ++ readings m' ops

/-- The 64-bit interval that a call is given. -/
def Op.interval : Op → ℕ
  | .addTimer _ ms _ _ _ | .reset _ ms _ _ => ms
  | .cancel _ | .refresh _ _ | .listExpiredCb _ _ _ => 0

/-- A call that moves the next deadline forward, or gives an empty set its first
one, invokes the front callback; `refresh` and `listExpiredCb` never do either. -/
def Announced (m : TimerManager) (op : Op) : Prop :=
  ∀ m', step m op = some m' →
    (m'.deadline < m.deadline → frontCbInvoked m op = true) ∧
    (∀ t now, op = .refresh t now → m.deadline ≤ m'.deadline) ∧
    (∀ now nowAddr clock, op = .listExpiredCb now nowAddr clock → m.deadline ≤ m'.deadline)

/-- The deadline of a timer is a start plus its interval, and no reading still to
come is before the start. -/
def Started (m : TimerManager) (later : List (ℕ × ℕ)) : Prop :=
  ∀ t ∈ m.timers, (m.timer t).ms < 2 ^ 64 ∧ ∃ start < 2 ^ 64,
    (m.timer t).next = wrap (start + (m.timer t).ms) ∧ ∀ r ∈ later, start ≤ r.1

variable {m m' : TimerManager}

theorem wrap_le (n : ℕ) : wrap n ≤ n := Nat.mod_le _ _

theorem wrap_eq {n : ℕ} (h : n < 2 ^ 64) : wrap n = n := Nat.mod_eq_of_lt h

/-- `reset` from the old start finds the start the deadline was made from. -/
theorem wrap_sub_interval {start ms : ℕ} (hstart : start < 2 ^ 64) (hms : ms < 2 ^ 64) :
    wrap (wrap (start + ms) + 2 ^ 64 - ms) = start := by
  unfold wrap
  omega

/-! ### The smallest deadline -/

theorem deadline_le_next {t : ℕ} (ht : t ∈ m.timers) :
    m.deadline ≤ WithTop.some (m.timer t).next :=
  List.minimum_le_of_mem' (List.mem_map.mpr ⟨t, ht, rfl⟩)

theorem deadline_le_deadline
    (h : ∀ u ∈ m'.timers, ∃ v ∈ m.timers, (m.timer v).next ≤ (m'.timer u).next) :
    m.deadline ≤ m'.deadline := by
  refine List.le_minimum_of_forall_le ?_
  intro d hd
  obtain ⟨u, hu, rfl⟩ := List.mem_map.mp hd
  obtain ⟨v, hv, hle⟩ := h u hu
  exact (deadline_le_next hv).trans (WithTop.coe_le_coe.mpr hle)

theorem Good.head_next_le {out : List ℕ} {t : ℕ} {ts : List ℕ} (h : Good m out)
    (hts : m.timers = t :: ts) {u : ℕ} (hu : u ∈ m.timers) :
    (m.timer t).next ≤ (m.timer u).next := by
  have hord := h.ordered
  rw [Ordered, hts] at hord
  rw [hts] at hu
  rcases List.mem_cons.mp hu with rfl | hu
  · exact Nat.le_refl _
  · have hlt := (comparator_iff _ _).mp ((List.pairwise_cons.mp hord).1 u hu)
    omega

/-- If only one timer has a new deadline and the next deadline has moved forward,
then that timer is at the front. -/
theorem Good.front_of_deadline_lt {t : ℕ} (h : Good m' []) (ht : t ∈ m'.timers)
    (hother : ∀ u ∈ m'.timers, u ≠ t → u ∈ m.timers ∧ (m'.timer u).next = (m.timer u).next)
    (hlt : m'.deadline < m.deadline) : m'.timers.head? = m'.find t := by
  rw [h.find_eq ht]
  obtain ⟨x, xs, hxs⟩ := List.exists_cons_of_ne_nil (List.ne_nil_of_mem ht)
  by_cases hx : x = t
  · rw [hxs, hx]
    rfl
  · have hmem : x ∈ m'.timers := by simp [hxs]
    obtain ⟨hold, hnext⟩ := hother x hmem hx
    refine absurd (deadline_le_deadline fun u hu => ⟨x, hold, ?_⟩) (not_le_of_gt hlt)
    rw [← hnext]
    exact h.head_next_le hxs hu

/-! ### Where the deadlines after a call come from -/

/-- A timer of the set after a call has kept its deadline, has a deadline made from
a reading of the call, or was reset from its old start. -/
inductive Keyed (m : TimerManager) (op : Op) (m' : TimerManager) (u : ℕ) : Prop
  | kept (hmem : u ∈ m.timers) (hnext : (m'.timer u).next = (m.timer u).next)
      (hms : (m'.timer u).ms = (m.timer u).ms)
  | read (now : ℕ) (hread : (now, (m'.timer u).ms) ∈ op.readings m)
      (hnext : (m'.timer u).next = wrap (now + (m'.timer u).ms))
  | restarted (ms now : ℕ) (hop : op = .reset u ms false now) (hmem : u ∈ m.timers)
      (hms : (m'.timer u).ms = ms)
      (hnext : (m'.timer u).next = wrap (wrap ((m.timer u).next + 2 ^ 64 - (m.timer u).ms) + ms))

theorem Keyed.of_timer_eq {op : Op} {u : ℕ} (hmem : u ∈ m.timers) (h : m'.timer u = m.timer u) :
    Keyed m op m' u :=
  .kept hmem (by rw [h]) (by rw [h])

/-- The set after a timer was given new fields and put back. -/
theorem mem_timers_putBack {t u : ℕ} {x : Timer}
    (hu : u ∈ (((m.erase t).setTimer t x).insert t).timers) : u = t ∨ u ∈ m.timers :=
  (mem_of_mem_insert hu).imp_right mem_of_mem_erase

theorem timer_putBack_of_ne {t u : ℕ} {x : Timer} (hu : u ≠ t) :
    (((m.erase t).setTimer t x).insert t).timer u = m.timer u := by
  rw [TimerManager.insert_timer, TimerManager.setTimer_of_ne hu]
  rfl

theorem cancel_keyed {t u : ℕ} (hu : u ∈ (m.cancel t).2.timers) :
    Keyed m (.cancel t) (m.cancel t).2 u := by
  have hfields : ((m.setTimer t { m.timer t with cb := none }).timer u).next = (m.timer u).next ∧
      ((m.setTimer t { m.timer t with cb := none }).timer u).ms = (m.timer u).ms := by
    by_cases hut : u = t
    · subst hut
      simp
    · simp [hut]
  unfold TimerManager.cancel at hu ⊢
  dsimp only at hu ⊢
  split_ifs at hu ⊢
  · exact .of_timer_eq hu rfl
  · exact .kept (mem_of_mem_erase hu) hfields.1 hfields.2
  · exact .kept hu hfields.1 hfields.2

theorem refresh_keyed {t now u : ℕ} (hu : u ∈ (m.refresh t now).2.timers) :
    Keyed m (.refresh t now) (m.refresh t now).2 u := by
  have hread : (m.refresh t now).1 = true →
      (now, (m.timer t).ms) ∈ (Op.refresh t now).readings m := by
    intro h
    simp [Op.readings, h]
  unfold TimerManager.refresh at hu hread ⊢
  dsimp only at hu hread ⊢
  split_ifs at hu hread ⊢
  · exact .of_timer_eq hu rfl
  · by_cases hut : u = t
    · subst hut
      refine .read now ?_ ?_
      · simpa [TimerManager.erase] using hread rfl
      · simp
    · exact .of_timer_eq ((mem_timers_putBack hu).resolve_left hut) (timer_putBack_of_ne hut)
  · exact .of_timer_eq hu rfl

theorem reset_keyed (h : Good m []) {t ms now u : ℕ} {fromNow : Bool} (ht : t < m.count)
    (hu : u ∈ (m.reset t ms fromNow now).2.2.timers) :
    Keyed m (.reset t ms fromNow now) (m.reset t ms fromNow now).2.2 u := by
  have hread : fromNow = true → (m.reset t ms fromNow now).1 = true →
      (now, ms) ∈ (Op.reset t ms fromNow now).readings m := by
    intro hfrom hok
    subst hfrom
    simp [Op.readings, hok]
  unfold TimerManager.reset TimerManager.addTimerLocked at hu hread ⊢
  dsimp only at hu hread ⊢
  split_ifs at hu hread ⊢ with hcb hfind hfrom
  · exact .of_timer_eq hu rfl
  · by_cases hut : u = t
    · subst hut
      refine .read now ?_ ?_
      · simpa using hread hfrom rfl
      · simp
    · exact .of_timer_eq ((mem_timers_putBack hu).resolve_left hut) (timer_putBack_of_ne hut)
  · by_cases hut : u = t
    · subst hut
      have hmem : u ∈ m.timers := (h.mem_timers_iff ht).mpr hcb
      refine .restarted ms now ?_ hmem ?_ ?_
      · rw [Bool.not_eq_true] at hfrom
        rw [hfrom]
      · simp
      · simp [TimerManager.erase]
    · exact .of_timer_eq ((mem_timers_putBack hu).resolve_left hut) (timer_putBack_of_ne hut)
  · exact .of_timer_eq hu rfl

theorem addTimer_keyed {addr ms now u : ℕ} {cb : Callback} {recurring : Bool}
    (hu : u ∈ (m.addTimer addr ms cb recurring now).2.timers) :
    Keyed m (.addTimer addr ms cb recurring now) (m.addTimer addr ms cb recurring now).2 u := by
  unfold TimerManager.addTimer TimerManager.addTimerLocked at hu ⊢
  dsimp only at hu ⊢
  by_cases hut : u = m.count
  · subst hut
    refine .read now ?_ ?_
    · simp [Op.readings]
    · simp
  · refine .of_timer_eq ((mem_of_mem_insert hu).resolve_left hut) ?_
    rw [TimerManager.insert_timer, TimerManager.setTimer_of_ne hut]

/-- After the loop a timer of the set was there before, or is a recurring timer of
the loop with a deadline made from its own reading. -/
theorem fireAll_keyed (ts : List ℕ) (clock : ℕ → ℕ) (h : Good m ts) {u : ℕ}
    (hu : u ∈ (m.fireAll ts clock).2.timers) :
    (u ∈ m.timers ∧ (m.fireAll ts clock).2.timer u = m.timer u) ∨
      ∃ i, ts[i]? = some u ∧ (m.timer u).recurring = true ∧
        ((m.fireAll ts clock).2.timer u).ms = (m.timer u).ms ∧
        ((m.fireAll ts clock).2.timer u).next = wrap (clock i + (m.timer u).ms) := by
  induction ts generalizing m clock with
  | nil => exact Or.inl ⟨hu, rfl⟩
  | cons t ts ih =>
      obtain ⟨hgood, -, -, hother, hrec, -⟩ := fire_spec h (clock 0)
      have hnot : t ∉ ts := (List.nodup_cons.mp h.nodup).1
      simp only [TimerManager.fireAll] at hu ⊢
      rcases ih (fun i => clock (i + 1)) hgood hu with ⟨hmem, heq⟩ | ⟨i, hi, hr, hms, hnext⟩
      · rw [heq]
        unfold TimerManager.fire at hmem ⊢
        dsimp only at hmem ⊢
        split_ifs at hmem ⊢ with hrt
        · by_cases hut : u = t
          · subst hut
            refine Or.inr ⟨0, rfl, hrt, ?_, ?_⟩
            · simp
            · simp
          · exact Or.inl ⟨(mem_of_mem_insert hmem).resolve_left hut, by simp [hut]⟩
        · have hut : u ≠ t := fun he => h.apart t List.mem_cons_self (he ▸ hmem)
          exact Or.inl ⟨hmem, by simp [hut]⟩
      · have hut : u ≠ t := fun he => hnot (he ▸ List.mem_of_getElem? hi)
        rw [hother u hut] at hr hms hnext
        exact Or.inr ⟨i + 1, by simpa using hi, hr, hms, hnext⟩

theorem mem_readings_listExpiredCb {now nowAddr u i : ℕ} {clock : ℕ → ℕ}
    (hi : (m.expire now nowAddr).1[i]? = some u) (hrec : (m.timer u).recurring = true) :
    (clock i, (m.timer u).ms) ∈ (Op.listExpiredCb now nowAddr clock).readings m := by
  refine List.mem_cons_of_mem _ (List.mem_map.mpr ⟨(u, i), ?_, rfl⟩)
  exact List.mem_filter.mpr ⟨List.mem_zipIdx_iff_getElem?.mpr hi, hrec⟩

theorem listExpiredCb_keyed (h : Good m []) {now nowAddr u : ℕ} {clock : ℕ → ℕ}
    (hu : u ∈ (m.listExpiredCb now nowAddr clock).2.timers) :
    Keyed m (.listExpiredCb now nowAddr clock) (m.listExpiredCb now nowAddr clock).2 u := by
  have hsub : ∀ v ∈ (m.expire now nowAddr).2, v ∈ m.timers := by
    intro v hv
    rw [← expire_append m now nowAddr]
    exact List.mem_append_right _ hv
  rcases fireAll_keyed _ clock (h.expire now nowAddr) hu with ⟨hmem, heq⟩ | ⟨i, hi, hr, hms, hnext⟩
  · exact .of_timer_eq (hsub u hmem) heq
  · refine .read (clock i) ?_ ?_
    · exact hms.symm ▸ mem_readings_listExpiredCb hi hr
    · exact hnext.trans (by rw [← hms]; rfl)

theorem step_keyed (h : Good m []) {op : Op} (hstep : step m op = some m') {u : ℕ}
    (hu : u ∈ m'.timers) : Keyed m op m' u := by
  obtain ⟨out, hperformed⟩ := performed_of_step hstep
  cases hperformed with
  | addTimer hfresh => exact addTimer_keyed hu
  | cancel ht => exact cancel_keyed hu
  | refresh ht => exact refresh_keyed hu
  | reset ht => exact reset_keyed h ht hu
  | listExpiredCb => exact listExpiredCb_keyed h hu

/-! ### One call -/

/-- The readings of a call and of those after it never decrease, and the call's own
sums do not overflow. -/
structure Timely (m : TimerManager) (op : Op) (later : List (ℕ × ℕ)) : Prop where
  monotone : (op.readings m ++ later).Pairwise fun a b => a.1 ≤ b.1
  fits : ∀ r ∈ op.readings m, r.1 + r.2 < 2 ^ 64
  interval : op.interval < 2 ^ 64

theorem Started.step (h : Good m []) {op : Op} {later : List (ℕ × ℕ)}
    (hs : Started m (op.readings m ++ later)) (htime : Timely m op later)
    (hstep : step m op = some m') : Started m' later := by
  intro u hu
  cases step_keyed h hstep hu with
  | kept hmem hnext hms =>
      obtain ⟨hlt, start, hstart, heq, hle⟩ := hs u hmem
      rw [hnext, hms]
      exact ⟨hlt, start, hstart, heq, fun r hr => hle r (List.mem_append_right _ hr)⟩
  | read now hread hnext =>
      have hfits := htime.fits _ hread
      have hle := (List.pairwise_append.mp htime.monotone).2.2
      dsimp only at hfits
      exact ⟨by omega, now, by omega, hnext, fun r hr => hle _ hread r hr⟩
  | restarted ms now hop hmem hms hnext =>
      obtain ⟨hlt, start, hstart, heq, hle⟩ := hs u hmem
      have hinterval := htime.interval
      rw [hop] at hinterval
      rw [heq, wrap_sub_interval hstart hlt] at hnext
      rw [hms]
      exact ⟨hinterval, start, hstart, hnext, fun r hr => hle r (List.mem_append_right _ hr)⟩

/-- `refresh` reads a clock that has reached the start, so the deadline moves back. -/
theorem refresh_deadline (h : Good m []) {t now : ℕ} {later : List (ℕ × ℕ)} (ht : t < m.count)
    (hs : Started m ((Op.refresh t now).readings m ++ later))
    (htime : Timely m (.refresh t now) later) : m.deadline ≤ (m.refresh t now).2.deadline := by
  refine deadline_le_deadline fun u hu => ?_
  cases refresh_keyed hu with
  | kept hmem hnext _ => exact ⟨u, hmem, Nat.le_of_eq hnext.symm⟩
  | restarted ms now' hop _ _ _ => cases hop
  | read now' hread hnext =>
      have hok : (m.refresh t now).1 = true := by
        by_contra hc
        simp [Op.readings, hc] at hread
      have hmem : t ∈ m.timers := by
        have hanswer := (refresh_spec h ht now).answer t rfl
        simpa [hok] using hanswer
      obtain ⟨-, start, -, heq, hle⟩ := hs t hmem
      have hstart := hle _ (List.mem_append_left _ hread)
      have hfits := htime.fits _ hread
      simp only [Op.readings, hok, if_true, List.mem_singleton, Prod.mk.injEq] at hread
      obtain ⟨rfl, hms⟩ := hread
      refine ⟨t, hmem, ?_⟩
      rw [hnext, wrap_eq hfits, heq, hms]
      have := wrap_le (start + (m.timer t).ms)
      dsimp only at hstart
      omega

/-- A timer that `listExpiredCb` takes out is due. -/
theorem expire_due {now nowAddr t : ℕ} (ht : t ∈ (m.expire now nowAddr).1) :
    (m.timer t).next ≤ now := by
  rcases List.mem_append.mp ht with ht | ht
  · have hlt := List.mem_takeWhile_imp ht
    rw [comparator_iff] at hlt
    dsimp only at hlt
    omega
  · have heq := List.mem_takeWhile_imp ht
    simp only [decide_eq_true_eq] at heq
    omega

/-- A recurring timer was due, and its new deadline is made from a later reading. -/
theorem listExpiredCb_deadline (h : Good m []) {now nowAddr : ℕ} {clock : ℕ → ℕ}
    {later : List (ℕ × ℕ)} (htime : Timely m (.listExpiredCb now nowAddr clock) later) :
    m.deadline ≤ (m.listExpiredCb now nowAddr clock).2.deadline := by
  have hsplit := expire_append m now nowAddr
  refine deadline_le_deadline fun u hu => ⟨u, ?_⟩
  rcases fireAll_keyed _ clock (h.expire now nowAddr) hu with ⟨hmem, heq⟩ | ⟨i, hi, hr, hms, hnext⟩
  · refine ⟨?_, Nat.le_of_eq (congrArg Timer.next heq).symm⟩
    rw [← hsplit]
    exact List.mem_append_right _ hmem
  · have hexp := List.mem_of_getElem? hi
    have hread : (clock i, (m.timer u).ms) ∈ (Op.listExpiredCb now nowAddr clock).readings m :=
      mem_readings_listExpiredCb hi hr
    have hfits := htime.fits _ hread
    have hlater : now ≤ clock i := by
      obtain ⟨hhead, -⟩ := List.pairwise_cons.mp (List.pairwise_append.mp htime.monotone).1
      rcases List.mem_cons.mp hread with heq | htail
      · exact Nat.le_of_eq (congrArg Prod.fst heq).symm
      · exact hhead _ htail
    refine ⟨?_, ?_⟩
    · rw [← hsplit]
      exact List.mem_append_left _ hexp
    · have hdue := expire_due hexp
      have hle : (m.timer u).next ≤ clock i + (m.timer u).ms := by omega
      exact hle.trans (Nat.le_of_eq (hnext.trans (wrap_eq hfits)).symm)

theorem addTimer_front (h : Good m []) (hcb : m.insertAtFrontCb = true) {addr ms now : ℕ}
    {cb : Callback} {recurring : Bool} (hfresh : addr ∉ m.timers.map fun t => (m.timer t).addr)
    (hlt : (m.addTimer addr ms cb recurring now).2.deadline < m.deadline) :
    (m.addTimer addr ms cb recurring now).1 = true := by
  have hspec : CallSpec m (.addTimer addr ms cb recurring now)
      (m.addTimer addr ms cb recurring now).2 (.added m.count) := addTimer_spec h hfresh
  have hmem : m.count ∈ (m.addTimer addr ms cb recurring now).2.timers := by
    refine (hspec.good.mem_timers_iff (Nat.lt_succ_self _)).mpr ?_
    simp [TimerManager.addTimer, TimerManager.addTimerLocked]
  have hfront := hspec.good.front_of_deadline_lt hmem ?_ hlt
  · refine Bool.and_eq_true_iff.mpr ⟨decide_eq_true hfront, hcb⟩
  · intro u hu hne
    refine ⟨(mem_of_mem_insert hu).resolve_left hne, ?_⟩
    simp [TimerManager.addTimer, TimerManager.addTimerLocked, hne]

theorem reset_front (h : Good m []) (hcb : m.insertAtFrontCb = true) {t ms now : ℕ}
    {fromNow : Bool} (ht : t < m.count)
    (hlt : (m.reset t ms fromNow now).2.2.deadline < m.deadline) :
    (m.reset t ms fromNow now).2.1 = true := by
  have hgood := (reset_spec h ht ms fromNow now).good
  unfold TimerManager.reset TimerManager.addTimerLocked at hlt hgood ⊢
  by_cases hmem : t ∈ m.timers
  · have hsome := (h.mem_timers_iff ht).mp hmem
    simp only [if_neg hsome, h.find_eq hmem, Option.isSome_some, if_true] at hlt hgood ⊢
    refine Bool.and_eq_true_iff.mpr ⟨decide_eq_true ?_, hcb⟩
    refine hgood.front_of_deadline_lt ?_ ?_ hlt
    · refine (hgood.mem_timers_iff ht).mpr ?_
      simpa [TimerManager.erase] using hsome
    · intro u hu hne
      exact ⟨(mem_timers_putBack hu).resolve_left hne, by rw [timer_putBack_of_ne hne]⟩
  · rw [if_pos (h.cb_eq_none ht hmem)] at hlt
    exact absurd hlt (lt_irrefl _)

theorem cancel_deadline (t : ℕ) : m.deadline ≤ (m.cancel t).2.deadline := by
  refine deadline_le_deadline fun u hu => ?_
  cases cancel_keyed hu with
  | kept hmem hnext _ => exact ⟨u, hmem, Nat.le_of_eq hnext.symm⟩
  | read now hread _ => simp [Op.readings] at hread
  | restarted ms now hop _ _ _ => cases hop

/-- One call, from any state whose deadlines were started in time. -/
theorem Started.announced (h : Good m []) (hcb : m.insertAtFrontCb = true) {op : Op}
    {later : List (ℕ × ℕ)} (hs : Started m (op.readings m ++ later))
    (htime : Timely m op later) : Announced m op := by
  intro m' hstep
  obtain ⟨out, hperformed⟩ := performed_of_step hstep
  cases hperformed with
  | addTimer hfresh => exact ⟨addTimer_front h hcb hfresh, by simp, by simp⟩
  | cancel ht =>
      exact ⟨fun hlt => absurd (cancel_deadline _) (not_le_of_gt hlt), by simp, by simp⟩
  | refresh ht =>
      have hle := refresh_deadline h ht hs htime
      exact ⟨fun hlt => absurd hle (not_le_of_gt hlt), fun _ _ _ => hle, by simp⟩
  | reset ht => exact ⟨reset_front h hcb ht, by simp, by simp⟩
  | listExpiredCb =>
      have hle := listExpiredCb_deadline h htime
      exact ⟨fun hlt => absurd hle (not_le_of_gt hlt), by simp, fun _ _ _ _ => hle⟩

/-! ### Whole runs -/

theorem fireAll_insertAtFrontCb (ts : List ℕ) (clock : ℕ → ℕ) :
    (m.fireAll ts clock).2.insertAtFrontCb = m.insertAtFrontCb := by
  induction ts generalizing m clock with
  | nil => rfl
  | cons t ts ih =>
      simp only [TimerManager.fireAll]
      rw [ih]
      unfold TimerManager.fire
      dsimp only
      split_ifs <;> rfl

/-- The callback is set once, before any call. -/
theorem step_insertAtFrontCb {op : Op} (hstep : step m op = some m') :
    m'.insertAtFrontCb = m.insertAtFrontCb := by
  obtain ⟨out, hperformed⟩ := performed_of_step hstep
  cases hperformed with
  | addTimer hfresh => rfl
  | cancel ht =>
      unfold TimerManager.cancel
      dsimp only
      split_ifs <;> rfl
  | refresh ht =>
      unfold TimerManager.refresh
      dsimp only
      split_ifs <;> rfl
  | reset ht =>
      unfold TimerManager.reset
      dsimp only
      split_ifs <;> rfl
  | listExpiredCb => exact fireAll_insertAtFrontCb _ _

theorem readings_cons {op : Op} {ops : List Op} (hstep : step m op = some m') :
    readings m (op :: ops) = op.readings m ++ readings m' ops := by
  simp [readings, hstep]

theorem allSteps_announced {ops : List Op} (h : Good m []) (hcb : m.insertAtFrontCb = true)
    (hs : Started m (readings m ops))
    (hclock : (readings m ops).Pairwise fun a b => a.1 ≤ b.1)
    (hfits : ∀ r ∈ readings m ops, r.1 + r.2 < 2 ^ 64)
    (hms : ∀ op ∈ ops, op.interval < 2 ^ 64) : StepSystem.AllSteps step Announced m ops := by
  induction ops generalizing m with
  | nil => trivial
  | cons op ops ih =>
      cases hstep : step m op with
      | none => exact ⟨by simp [Announced, hstep], by simp [hstep]⟩
      | some m' =>
          rw [readings_cons hstep] at hs hclock hfits
          have htime : Timely m op (readings m' ops) :=
            ⟨hclock, fun r hr => hfits r (List.mem_append_left _ hr), hms op List.mem_cons_self⟩
          refine ⟨hs.announced h hcb htime, fun m₁ hm₁ => ?_⟩
          obtain rfl := Option.some.inj (hstep.symm.trans hm₁)
          obtain ⟨out, hexec⟩ := step_exec hstep
          refine ih (exec_spec h hexec).good ((step_insertAtFrontCb hstep).trans hcb)
            (hs.step h htime hstep) (List.pairwise_append.mp hclock).2.1 ?_ ?_
          · exact fun r hr => hfits r (List.mem_append_right _ hr)
          · exact fun op' hop' => hms op' (List.mem_cons_of_mem _ hop')

/-- The next deadline never moves forward unannounced. In every sequence of
calls on a manager whose front callback is set, with clock readings that never
decrease and no overflow when an interval is added to one: a call after which the
smallest deadline is smaller than before, or the set is no longer empty, invoked
the callback, and `refresh` and `listExpiredCb` are never such calls. -/
theorem deadline_announced (ops : List Op)
    (hclock : (readings (TimerManager.new true) ops).Pairwise fun a b => a.1 ≤ b.1)
    (hfits : ∀ r ∈ readings (TimerManager.new true) ops, r.1 + r.2 < 2 ^ 64)
    (hms : ∀ op ∈ ops, op.interval < 2 ^ 64) :
    StepSystem.AllSteps step Announced (TimerManager.new true) ops :=
  allSteps_announced (Good.new true) rfl (by simp [Started, TimerManager.new]) hclock hfits hms

/-- A recurring timer is shortened from its old start, refreshed, and expires. -/
theorem deadline_announced_short_reset :
    (readings (TimerManager.new true) [.addTimer 16 50 1 true 10, .reset 0 5 false 0,
      .refresh 0 12, .listExpiredCb 20 48 (fun _ => 21)] = [(10, 50), (12, 5), (20, 0), (21, 5)]) ∧
    StepSystem.AllSteps step Announced (TimerManager.new true) [.addTimer 16 50 1 true 10,
      .reset 0 5 false 0, .refresh 0 12, .listExpiredCb 20 48 (fun _ => 21)] :=
  ⟨by decide, deadline_announced _ (by decide) (by decide) (by decide)⟩

end Xzmjx.TimerModel
