import Xzmjx.ChannelClosing

/-!
# No value is lost in a channel

Whatever the order in which the fibers take their turns, a value that is given to `push` is in
one place: with the fiber that waits, in the buffer, with the fiber that popped it, or refused.
What is popped comes out in the order in which it was taken in.
-/
namespace Xzmjx.CircleBuffer

variable {α : Type*} {b b' : CircleBuffer α} {q : List α} {v : α}

/-- A push that goes through appends its value. -/
theorem Represents.push_true (h : Represents b q) (hpush : b.push v = .ok (true, b')) :
    Represents b' (q ++ [v]) := by
  by_cases hroom : q.length < b.capacity
  · by_cases hidx : b.wIdx < b.capacity
    · obtain ⟨b'', hpush', -, -, hrep⟩ := push_room h hroom hidx
      cases hpush.symm.trans hpush'
      exact hrep
    · cases hpush.symm.trans (push_fault h hroom hidx)
  · cases hpush.symm.trans (push_full h hroom)

/-- What a pop returns is the oldest value. -/
theorem Represents.pop_some (h : Represents b q) (hpop : b.pop = (some v, b')) :
    ∃ q', q = v :: q' ∧ Represents b' q' := by
  cases q with
  | nil => cases hpop.symm.trans (pop_nil h)
  | cons x q =>
      obtain ⟨b'', hpop', -, -, hrep⟩ := pop_cons h
      cases hpop.symm.trans hpop'
      exact ⟨q, rfl, hrep⟩

theorem capacity_of_push {done : Bool} (h : b.push v = .ok (done, b')) :
    b'.capacity = b.capacity := by
  unfold push at h
  split_ifs at h
  · cases h; rfl
  · cases h; rfl

theorem capacity_of_pop {r : Option α} (h : b.pop = (r, b')) : b'.capacity = b.capacity := by
  unfold pop at h
  split_ifs at h
  · cases h; rfl
  · cases h; rfl

end Xzmjx.CircleBuffer

namespace Xzmjx.ChannelModel
open StepSystem Function
open CircleBuffer (Represents)

variable {σ ι α : Type*}

/-! ### What a step yields -/

/-- The value that a fiber pushes while it waits. -/
def Pc.value : Pc α → List α
  | .inPush v => [v]
  | _ => []

namespace Outcome

/-- What goes into the buffer, of the values that the call is about. -/
def accepted : Outcome α → List α → List α
  | .pushed true, vs => vs
  | _, _ => []

def refused : Outcome α → List α → List α
  | .pushed false, vs => vs
  | _, _ => []

def taken : Outcome α → List α
  | .popped (some v) => [v]
  | _ => []

end Outcome

namespace State

/-- Everybody who waits or was submitted. -/
def waiters (s : State σ ι α) : WaitQueue σ ι := s.emptyCond ++ s.fullCond ++ s.submitted

/-- The values that wait with their fibers. -/
def pending (s : State σ ι α) : List α := s.waiters.flatMap fun w => (s.pc w.2).value

/-- The value that a step is about. -/
def argument (s : State σ ι α) : Action σ ι α → List α
  | .push _ _ v => [v]
  | .resume _ f => (s.pc f).value
  | _ => []

/-- The value of a call of `push`. -/
def offered (_ : State σ ι α) : Action σ ι α → List α
  | .push _ _ v => [v]
  | _ => []

variable [DecidableEq σ] [DecidableEq ι]

/-- What the step puts into the buffer. -/
def accepted (s : State σ ι α) (a : Action σ ι α) : List α :=
  (s.exec a).elim [] fun r => r.2.accepted (s.argument a)

/-- What a push that returns false was given. -/
def refused (s : State σ ι α) (a : Action σ ι α) : List α :=
  (s.exec a).elim [] fun r => r.2.refused (s.argument a)

/-- What the step gives to a fiber that pops. -/
def taken (s : State σ ι α) (a : Action σ ι α) : List α :=
  (s.exec a).elim [] fun r => r.2.taken

end State

/-! ### Who waits where -/

/-- A fiber that is inside a call waits in one place, for what the queue is about, unless it is
the one that has its turn. -/
structure Custody (turn : Option ι) (s : State σ ι α) : Prop where
  nodup : (s.waiters.map Prod.snd).Nodup
  mem_iff : ∀ f, f ∈ s.waiters.map Prod.snd ↔ s.pc f ≠ .outside ∧ turn ≠ some f
  inPush : ∀ w ∈ s.emptyCond, ∃ v, s.pc w.2 = .inPush v
  inPop : ∀ w ∈ s.fullCond, s.pc w.2 = .inPop

namespace State
variable {s : State σ ι α}

theorem waiters_notifyEmpty (s : State σ ι α) : s.notifyEmpty.waiters.Perm s.waiters := by
  unfold waiters notifyEmpty notify
  cases s.emptyCond with
  | nil => exact List.Perm.refl _
  | cons w ws =>
      show (ws ++ s.fullCond ++ (s.submitted ++ [w])).Perm (w :: ws ++ s.fullCond ++ s.submitted)
      rw [← List.append_assoc]
      exact List.perm_append_comm

theorem waiters_notifyFull (s : State σ ι α) : s.notifyFull.waiters.Perm s.waiters := by
  unfold waiters notifyFull notify
  cases s.fullCond with
  | nil => exact List.Perm.refl _
  | cons w ws =>
      show (s.emptyCond ++ ws ++ (s.submitted ++ [w])).Perm
        (s.emptyCond ++ (w :: ws) ++ s.submitted)
      rw [List.append_assoc, List.append_assoc]
      refine List.Perm.append_left _ ?_
      rw [← List.append_assoc]
      exact List.perm_append_comm

theorem waiters_emptyCond (s : State σ ι α) (w : σ × ι) :
    (s.emptyCond ++ [w] ++ s.fullCond ++ s.submitted).Perm (w :: s.waiters) := by
  rw [waiters, List.append_assoc _ s.fullCond, List.append_assoc _ s.fullCond, List.append_assoc]
  exact List.perm_middle

theorem waiters_fullCond (s : State σ ι α) (w : σ × ι) :
    (s.emptyCond ++ (s.fullCond ++ [w]) ++ s.submitted).Perm (w :: s.waiters) := by
  rw [waiters, ← List.append_assoc, List.append_assoc]
  exact List.perm_middle

@[simp] theorem pc_goto_self [DecidableEq ι] (s : State σ ι α) (f : ι) (pc : Pc α) :
    (s.goto f pc).pc f = pc := update_self ..

theorem pc_goto_of_ne [DecidableEq ι] {f g : ι} (h : g ≠ f) (pc : Pc α) :
    (s.goto f pc).pc g = s.pc g := update_of_ne h ..

theorem shut_data (s : State σ ι α) : s.shut.data = s.data := by
  unfold shut
  split_ifs
  · rfl
  · rfl

theorem pending_perm {s' : State σ ι α} (hpc : s'.pc = s.pc)
    (hwaiters : s'.waiters.Perm s.waiters) : s'.pending.Perm s.pending := by
  unfold pending
  rw [hpc]
  exact hwaiters.flatMap_right _

theorem pending_shut (s : State σ ι α) : s.shut.pending.Perm s.pending := by
  unfold shut
  split_ifs
  · exact List.Perm.refl _
  · exact pending_perm rfl ((waiters_notifyFull _).trans (waiters_notifyEmpty _))

end State

namespace Custody
variable {s s' : State σ ι α} {f : ι} {k : σ} {v : α} {turn : Option ι}

theorem of_perm (h : Custody turn s) (hpc : s'.pc = s.pc) (hwaiters : s'.waiters.Perm s.waiters)
    (hempty : s'.emptyCond ⊆ s.emptyCond) (hfull : s'.fullCond ⊆ s.fullCond) : Custody turn s' where
  nodup := ((hwaiters.map Prod.snd).nodup_iff).mpr h.nodup
  mem_iff g := by rw [(hwaiters.map Prod.snd).mem_iff, h.mem_iff, hpc]
  inPush w hw := by
    rw [hpc]
    exact h.inPush w (hempty hw)
  inPop w hw := by
    rw [hpc]
    exact h.inPop w (hfull hw)

theorem notifyEmpty (h : Custody turn s) : Custody turn s.notifyEmpty := by
  refine h.of_perm rfl s.waiters_notifyEmpty ?_ (List.Subset.refl _)
  unfold State.notifyEmpty notify
  cases s.emptyCond with
  | nil => exact List.Subset.refl _
  | cons w ws => exact List.subset_cons_self w ws

theorem notifyFull (h : Custody turn s) : Custody turn s.notifyFull := by
  refine h.of_perm rfl s.waiters_notifyFull (List.Subset.refl _) ?_
  unfold State.notifyFull notify
  cases s.fullCond with
  | nil => exact List.Subset.refl _
  | cons w ws => exact List.subset_cons_self w ws

theorem data (h : Custody turn s) (data : CircleBuffer α) : Custody turn { s with data := data } :=
  ⟨h.nodup, h.mem_iff, h.inPush, h.inPop⟩

theorem shut (h : Custody turn s) : Custody turn s.shut := by
  unfold State.shut
  split_ifs
  · exact h
  · have hclosed : Custody turn { s with isClosed := true } :=
      ⟨h.nodup, h.mem_iff, h.inPush, h.inPop⟩
    exact hclosed.notifyEmpty.notifyFull

/-- A fiber outside may have its turn. -/
theorem call (h : Custody none s) (hf : s.pc f = .outside) : Custody (some f) s := by
  refine ⟨h.nodup, fun g => ?_, h.inPush, h.inPop⟩
  rw [h.mem_iff]
  refine and_congr_right fun hg => ⟨fun _ => ?_, fun _ he => by cases he⟩
  intro he
  obtain rfl := Option.some.inj he
  exact hg hf

theorem not_mem (h : Custody (some f) s) : f ∉ s.waiters.map Prod.snd := fun hmem =>
  ((h.mem_iff f).mp hmem).2 rfl

theorem ne_of_mem (h : Custody (some f) s) {w : σ × ι} (hw : w ∈ s.waiters) : w.2 ≠ f := by
  rintro rfl
  exact h.not_mem (List.mem_map_of_mem hw)

section Turns
variable [DecidableEq ι]

theorem pending_goto (h : Custody (some f) s) (pc : Pc α) :
    (s.goto f pc).pending = s.pending := by
  have hvalue : ∀ w ∈ s.waiters, ((s.goto f pc).pc w.2).value = (s.pc w.2).value := by
    intro w hw
    rw [State.pc_goto_of_ne (h.ne_of_mem hw)]
  exact List.flatMap_congr hvalue

/-- The turn ends outside. -/
theorem leave (h : Custody (some f) s) : Custody none (s.goto f .outside) := by
  refine ⟨h.nodup, fun g => ?_, ?_, ?_⟩
  · rw [show (s.goto f .outside).waiters = s.waiters from rfl, h.mem_iff]
    by_cases hg : g = f
    · subst hg
      simp
    · have hne : some f ≠ some g := fun he => hg (Option.some.inj he).symm
      simp [State.pc_goto_of_ne hg, hne]
  · intro w hw
    have hmem : w ∈ s.waiters := List.mem_append_left _ (List.mem_append_left _ hw)
    obtain ⟨v, hv⟩ := h.inPush w hw
    exact ⟨v, by rw [State.pc_goto_of_ne (h.ne_of_mem hmem), hv]⟩
  · intro w hw
    have hmem : w ∈ s.waiters := List.mem_append_left _ (List.mem_append_right _ hw)
    rw [State.pc_goto_of_ne (h.ne_of_mem hmem)]
    exact h.inPop w hw

/-- The turn ends with a wait. -/
theorem wait (h : Custody (some f) s) (pc : Pc α) (emptyCond fullCond : WaitQueue σ ι)
    (hpc : pc ≠ .outside)
    (hempty : ∀ w ∈ emptyCond, w ∈ s.emptyCond ∨ (w.2 = f ∧ ∃ v, pc = .inPush v))
    (hfull : ∀ w ∈ fullCond, w ∈ s.fullCond ∨ (w.2 = f ∧ pc = .inPop))
    (hwaiters : (emptyCond ++ fullCond ++ s.submitted).Perm ((k, f) :: s.waiters)) :
    Custody none (State.goto { s with emptyCond := emptyCond, fullCond := fullCond } f pc) ∧
      (State.goto { s with emptyCond := emptyCond, fullCond := fullCond } f pc).pending.Perm
        (pc.value ++ s.pending) := by
  have hsame : ∀ w ∈ s.waiters, update s.pc f pc w.2 = s.pc w.2 := fun w hw =>
    update_of_ne (h.ne_of_mem hw) _ _
  refine ⟨⟨?_, fun g => ?_, ?_, ?_⟩, ?_⟩
  · refine ((hwaiters.map Prod.snd).nodup_iff).mpr ?_
    exact List.nodup_cons.mpr ⟨h.not_mem, h.nodup⟩
  · refine ((hwaiters.map Prod.snd).mem_iff).trans ?_
    rw [List.map_cons, List.mem_cons, h.mem_iff]
    by_cases hg : g = f
    · subst hg
      simp [hpc]
    · have hne : some f ≠ some g := fun he => hg (Option.some.inj he).symm
      simp [State.pc_goto_of_ne hg, hg, hne]
  · intro w hw
    rcases hempty w hw with hw | ⟨rfl, v, rfl⟩
    · have hmem : w ∈ s.waiters := List.mem_append_left _ (List.mem_append_left _ hw)
      obtain ⟨v, hv⟩ := h.inPush w hw
      exact ⟨v, (hsame w hmem).trans hv⟩
    · exact ⟨v, update_self ..⟩
  · intro w hw
    rcases hfull w hw with hw | ⟨rfl, rfl⟩
    · have hmem : w ∈ s.waiters := List.mem_append_left _ (List.mem_append_right _ hw)
      exact (hsame w hmem).trans (h.inPop w hw)
    · exact update_self ..
  · refine (hwaiters.flatMap_right _).trans ?_
    rw [List.flatMap_cons]
    refine List.Perm.append (List.Perm.of_eq ?_) (List.Perm.of_eq ?_)
    · exact congrArg Pc.value (update_self ..)
    · exact List.flatMap_congr fun w hw => congrArg Pc.value (hsame w hw)

end Turns

/-- A fiber that was submitted has its turn. -/
theorem resume [DecidableEq σ] [DecidableEq ι] (h : Custody none s) (hmem : (k, f) ∈ s.submitted) :
    Custody (some f) { s with submitted := s.submitted.erase (k, f) } ∧
      s.pending.Perm ((s.pc f).value ++
        State.pending { s with submitted := s.submitted.erase (k, f) }) := by
  have hwaiters : s.waiters.Perm
      ((k, f) :: State.waiters { s with submitted := s.submitted.erase (k, f) }) := by
    refine ((List.perm_cons_erase hmem).append_left _).trans ?_
    exact List.perm_middle
  have hnodup := ((hwaiters.map Prod.snd).nodup_iff).mp h.nodup
  rw [List.map_cons, List.nodup_cons] at hnodup
  refine ⟨⟨hnodup.2, fun g => ?_, h.inPush, h.inPop⟩, ?_⟩
  · have hiff := h.mem_iff g
    rw [(hwaiters.map Prod.snd).mem_iff, List.map_cons, List.mem_cons] at hiff
    constructor
    · intro hg
      refine ⟨(hiff.mp (.inr hg)).1, ?_⟩
      intro he
      obtain rfl := Option.some.inj he
      exact hnodup.1 hg
    · rintro ⟨hg, hne⟩
      rcases hiff.mpr ⟨hg, fun he => by cases he⟩ with rfl | hg'
      · exact absurd rfl hne
      · exact hg'
  · have hperm := hwaiters.flatMap_right fun w => (s.pc w.2).value
    rw [List.flatMap_cons] at hperm
    exact hperm

end Custody

/-! ### What a turn does -/

/-- A turn that is about the values `vs` puts each of them in one place, and keeps the buffer a
queue. -/
structure Turn (s : State σ ι α) (vs : List α) (out : Outcome α) (s' : State σ ι α) : Prop where
  custody : Custody none s'
  ledger : (s.pending ++ vs).Perm (out.accepted vs ++ out.refused vs ++ s'.pending)
  fifo : ∀ q, Represents s.data q →
    ∃ q', Represents s'.data q' ∧ q ++ out.accepted vs = out.taken ++ q'
  capacity : s'.data.capacity = s.data.capacity

namespace Custody
variable {s s' : State σ ι α} {f : ι} {k : σ} {v : α}

section Attempts
variable [DecidableEq ι] {out : Outcome α}

theorem leaves {s₁ : State σ ι α} (h : Custody (some f) s₁) (hpending : s₁.pending.Perm s.pending) :
    Custody none (s₁.goto f .outside) ∧ (s₁.goto f .outside).pending.Perm s.pending :=
  ⟨h.leave, (List.Perm.of_eq (h.pending_goto .outside)).trans hpending⟩

theorem pushAttempt (h : Custody (some f) s) (hpush : s.pushAttempt k f v = some (s', out)) :
    Turn s [v] out s' := by
  unfold State.pushAttempt at hpush
  split at hpush
  · cases hpush
  · next data hdata =>
      cases hpush
      obtain ⟨hcustody, hpending⟩ := (h.data data).notifyFull.leaves (s := s)
        (State.pending_perm rfl (State.waiters_notifyFull { s with data := data }))
      refine ⟨hcustody, ?_, ?_, ?_⟩
      · exact List.perm_append_comm.trans (hpending.symm.append_left [v])
      · exact fun q hq => ⟨q ++ [v], hq.push_true hdata, rfl⟩
      · exact CircleBuffer.capacity_of_push hdata
  · next data hdata =>
      cases hpush
      obtain ⟨hcustody, hpending⟩ := h.wait (.inPush v) (s.emptyCond ++ [(k, f)]) s.fullCond
        (fun he => by cases he)
        (fun w hw => (List.mem_append.mp hw).imp_right fun hw =>
          ⟨congrArg Prod.snd (List.mem_singleton.mp hw), v, rfl⟩)
        (fun w hw => .inl hw)
        (State.waiters_emptyCond s (k, f))
      refine ⟨hcustody, List.perm_append_comm.trans hpending.symm, ?_, rfl⟩
      exact fun q hq => ⟨q, hq, List.append_nil q⟩

theorem popAttempt (h : Custody (some f) s) (hpop : s.popAttempt k f = (s', out)) :
    Turn s [] out s' := by
  unfold State.popAttempt at hpop
  split at hpop
  · next v data hdata =>
      cases hpop
      obtain ⟨hcustody, hpending⟩ := (h.data data).notifyEmpty.leaves (s := s)
        (State.pending_perm rfl (State.waiters_notifyEmpty { s with data := data }))
      refine ⟨hcustody, ?_, fun q hq => ?_, ?_⟩
      · rw [List.append_nil]
        exact hpending.symm
      · obtain ⟨q', rfl, hq'⟩ := hq.pop_some hdata
        exact ⟨q', hq', List.append_nil _⟩
      · exact CircleBuffer.capacity_of_pop hdata
  · next data hdata =>
      cases hpop
      obtain ⟨hcustody, hpending⟩ := h.wait .inPop s.emptyCond (s.fullCond ++ [(k, f)])
        (fun he => by cases he)
        (fun w hw => .inl hw)
        (fun w hw => (List.mem_append.mp hw).imp_right fun hw =>
          ⟨congrArg Prod.snd (List.mem_singleton.mp hw), rfl⟩)
        (State.waiters_fullCond s (k, f))
      refine ⟨hcustody, ?_, ?_, rfl⟩
      · rw [List.append_nil]
        exact hpending.symm
      · exact fun q hq => ⟨q, hq, List.append_nil q⟩

theorem resumed (h : Custody (some f) s) (hresumed : s.resumed k f = some (s', out)) :
    Turn s (s.pc f).value out s' := by
  unfold State.resumed at hresumed
  split at hresumed
  · cases hresumed
  · next v hpc =>
      rw [hpc]
      split_ifs at hresumed
      · cases hresumed
        obtain ⟨hcustody, hpending⟩ := h.leaves (List.Perm.refl _)
        refine ⟨hcustody, List.perm_append_comm.trans (hpending.symm.append_left [v]), ?_, rfl⟩
        exact fun q hq => ⟨q, hq, List.append_nil q⟩
      · exact h.pushAttempt hresumed
  · next hpc =>
      rw [hpc]
      split_ifs at hresumed
      · cases hresumed
        obtain ⟨hcustody, hpending⟩ := h.leaves (List.Perm.refl _)
        refine ⟨hcustody, ?_, fun q hq => ⟨q, hq, List.append_nil q⟩, rfl⟩
        exact (List.Perm.of_eq (List.append_nil _)).trans hpending.symm
      · exact h.popAttempt (Option.some.inj hresumed)

end Attempts

end Custody

/-! ### Whole runs -/

section Runs
variable [DecidableEq σ] [DecidableEq ι] {s s' t : State σ ι α} {a : Action σ ι α}
  {out : Outcome α} {as : List (Action σ ι α)}

/-- A step puts the values that it is about in one place each, and keeps the buffer a queue. -/
structure Passes (s : State σ ι α) (a : Action σ ι α) (s' : State σ ι α) : Prop where
  custody : Custody none s'
  ledger : (s.pending ++ s.offered a).Perm (s.accepted a ++ s.refused a ++ s'.pending)
  fifo : ∀ q, Represents s.data q →
    ∃ q', Represents s'.data q' ∧ q ++ s.accepted a = s.taken a ++ q'
  capacity : s'.data.capacity = s.data.capacity

theorem Turn.passes (hexec : s.exec a = some (s', out))
    {s₀ : State σ ι α} (h : Turn s₀ (s.argument a) out s') (hdata : s₀.data = s.data)
    (hpending : (s.pending ++ s.offered a).Perm (s₀.pending ++ s.argument a)) :
    Passes s a s' := by
  have haccepted : s.accepted a = out.accepted (s.argument a) := by
    rw [State.accepted, hexec]
    rfl
  have hrefused : s.refused a = out.refused (s.argument a) := by
    rw [State.refused, hexec]
    rfl
  have htaken : s.taken a = out.taken := by
    rw [State.taken, hexec]
    rfl
  refine ⟨h.custody, ?_, fun q hq => ?_, hdata ▸ h.capacity⟩
  · rw [haccepted, hrefused]
    exact hpending.trans h.ledger
  · rw [haccepted, htaken]
    exact h.fifo q (hdata ▸ hq)

theorem State.outside_of_exec (hexec : s.exec a = some (s', out)) (f : ι)
    (ha : (∃ k v, a = .push k f v) ∨ (∃ k, a = .pop k f) ∨ a = .close f) :
    s.pc f = .outside := by
  unfold exec at hexec
  rcases ha with ⟨k, v, rfl⟩ | ⟨k, rfl⟩ | rfl
  all_goals
    dsimp only at hexec
    split at hexec
    · assumption
    · cases hexec

theorem Custody.step (h : Custody none s) (hstep : s.step a = some s') : Passes s a s' := by
  obtain ⟨out, hexec⟩ := State.exec_of_step hstep
  cases a with
  | push k f v =>
      have hf := State.outside_of_exec hexec f (.inl ⟨k, v, rfl⟩)
      exact ((h.call hf).pushAttempt (State.exec_push hexec)).passes hexec rfl (List.Perm.refl _)
  | pop k f =>
      have hf := State.outside_of_exec hexec f (.inr (.inl ⟨k, rfl⟩))
      exact ((h.call hf).popAttempt (State.exec_pop hexec)).passes hexec rfl (List.Perm.refl _)
  | resume k f =>
      have hmem : (k, f) ∈ s.submitted := by
        by_contra hmem
        simp [State.exec, hmem] at hexec
      obtain ⟨hcustody, hpending⟩ := h.resume hmem
      refine (hcustody.resumed (State.exec_resume hexec)).passes hexec rfl ?_
      refine (List.Perm.of_eq (List.append_nil _)).trans (hpending.trans ?_)
      exact List.perm_append_comm
  | close f =>
      have hf := State.outside_of_exec hexec f (.inr (.inr rfl))
      have hexec' : s.exec (.close f) = some (s.shut, .closed) := by rw [State.exec, hf]
      cases hexec.symm.trans hexec'
      have hturn : Turn s [] .closed s.shut := by
        refine ⟨h.shut, ?_, fun q hq => ⟨q, ?_, List.append_nil q⟩, ?_⟩
        · exact (List.Perm.of_eq (List.append_nil _)).trans s.pending_shut.symm
        · rwa [State.shut_data]
        · rw [State.shut_data]
      exact hturn.passes hexec rfl (List.Perm.refl _)

omit [DecidableEq σ] [DecidableEq ι] in
theorem custody_init (data : CircleBuffer α) : Custody none (State.init data : State σ ι α) where
  nodup := List.nodup_nil
  mem_iff f := iff_of_false List.not_mem_nil fun h => h.1 rfl
  inPush w hw := by cases hw
  inPop w hw := by cases hw

/-- Where the values of a run are when it ends in `t`. -/
structure Conserves (slots : List α) (as : List (Action σ ι α)) (t : State σ ι α) : Prop where
  /-- What was popped is what came first into the buffer, and the rest is still there. -/
  fifo : ∃ q, Represents t.data q ∧ q.length ≤ slots.length ∧
    collect State.step State.accepted (State.init (CircleBuffer.init slots)) as =
      collect State.step State.taken (State.init (CircleBuffer.init slots)) as ++ q
  /-- What was given to `push` went into the buffer, was refused, or waits with its fiber. -/
  ledger : (collect State.step State.offered (State.init (CircleBuffer.init slots)) as).Perm
    (collect State.step State.accepted (State.init (CircleBuffer.init slots)) as ++
      collect State.step State.refused (State.init (CircleBuffer.init slots)) as ++ t.pending)
  custody : Custody none t

/-- Every run of a channel that stays inside the slots, whoever takes the turns, keeps its values
and their order. -/
theorem channel_conserves (slots : List α) (as : List (Action σ ι α)) (t : State σ ι α)
    (hrun : run State.step (State.init (CircleBuffer.init slots)) as = some t) :
    Conserves slots as t := by
  have hinit : Custody none (State.init (CircleBuffer.init slots) : State σ ι α) := custody_init _
  refine ⟨?_, ?_, ?_⟩
  · obtain ⟨q, ⟨hq, hcapacity⟩, hfifo⟩ := run_fifo (Custody none)
      (fun s q => Represents s.data q ∧ s.data.capacity = slots.length)
      (by
        rintro s a s' q hs ⟨hq, hcapacity⟩ hs'
        have hpasses := hs.step hs'
        obtain ⟨q', hq', hone⟩ := hpasses.fifo q hq
        exact ⟨hpasses.custody, q', ⟨hq', hpasses.capacity.trans hcapacity⟩, hone⟩)
      hinit ⟨CircleBuffer.represents_init slots, rfl⟩ hrun
    exact ⟨q, hq, hcapacity ▸ hq.length_le, hfifo⟩
  · have hledger := run_ledger (fun s a => s.accepted a ++ s.refused a) (Custody none)
      State.pending
      (fun s a s' hs hs' => ⟨(hs.step hs').custody, (hs.step hs').ledger⟩) hinit hrun
    exact hledger.trans ((collect_append_perm ..).append_right _)
  · exact run_preserves (Custody none) (fun s a s' hs hs' => (hs.step hs').custody) hinit hrun

/-- One fiber fills the only slot, a second waits with its value and is refused when a third
closes the channel, and a fourth pops. -/
def oneSlot : List (Action Unit ℕ ℕ) :=
  [.push () 1 7, .push () 2 8, .close 3, .resume () 2, .pop () 4]

theorem channel_conserves_oneSlot :
    ∃ t, run State.step (State.init (CircleBuffer.init [0])) oneSlot = some t ∧
      Conserves [0] oneSlot t ∧
      collect State.step State.taken (State.init (CircleBuffer.init [0])) oneSlot = [7] ∧
      collect State.step State.refused (State.init (CircleBuffer.init [0])) oneSlot = [8] :=
  ⟨_, rfl, channel_conserves [0] oneSlot _ rfl, rfl, rfl⟩

end Runs

end Xzmjx.ChannelModel
