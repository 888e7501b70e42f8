import Xzmjx.IOManagerCoherence
import Xzmjx.FallibleCalls

/-!
# What the operations do in a coherent state

One equation for each operation of the IO manager: in a coherent state it leaves
everything as it was, or it performs `arm`, `drop` or `fire` on directions of
one descriptor, or an assertion fails.
-/
namespace Xzmjx.IOManagerModel
open Function FallibleCalls

variable {ω : Type*}

theorem Event.and_event_any (e : Event) (d : Direction) : (e &&& d.event).any = e.has d := by
  rcases e with ⟨_ | _, _ | _⟩ <;> cases d <;> rfl

theorem Event.and_comm (a b : Event) : a &&& b = b &&& a :=
  congrArg₂ Event.mk (Bool.and_comm ..) (Bool.and_comm ..)

theorem Event.event_and_any (e : Event) (d : Direction) : (d.event &&& e).any = e.has d := by
  rw [Event.and_comm, Event.and_event_any]

/-- `epoll_ctl` with the operation that the source chooses for the events that
are left, on a registered descriptor. -/
theorem epollCtl_left {interest : ℕ → Option Event} {fd : ℕ} (h : (interest fd).isSome)
    (left : Event) (fails : Bool) :
    epollCtl interest (if left.any then .mod else .del) fd left fails =
      if fails then none else some (update interest fd left.registered) := by
  obtain ⟨e, he⟩ := Option.isSome_iff_exists.mp h
  cases fails <;> cases hl : left.any <;> simp [epollCtl, Event.registered, he, hl]

/-- The waiter that a call of `addEvent` registers. -/
def waiterOf (cb : Option ω) (self : ℕ) (fiber : ω) : Waiter ω :=
  match cb with
  | some cb => ⟨self, true, cb⟩
  | none => ⟨self, false, fiber⟩

/-- Where a sequence of calls fails. -/
theorem bind_eq_error {α β : Type _} {x : Except Fault α} {g : α → Except Fault β} {f : Fault}
    (h : x >>= g = .error f) : x = .error f ∨ ∃ a, x = .ok a ∧ g a = .error f := by
  cases x with
  | error e =>
      cases h
      exact .inl rfl
  | ok a => exact .inr ⟨a, rfl, h⟩

namespace FdContext

/-- Clearing the bit of a direction and resetting its context. -/
theorem clear_eq_put (c : FdContext ω) (d : Direction) :
    ({ c with events := c.events &&& ~~~d.event } : FdContext ω).setContext d.event {} =
      c.put d none := by
  rcases c with ⟨r, w, ⟨_ | _, _ | _⟩⟩ <;> cases d <;> rfl

theorem getContext_event (c : FdContext ω) (d : Direction) :
    c.getContext d.event = .ok (c.side d) := by
  cases d <;> rfl

theorem getContext_ok {c : FdContext ω} {event : Event} {e : EventContext ω}
    (h : c.getContext event = .ok e) : ∃ d : Direction, event = d.event ∧ e = c.side d := by
  unfold getContext at h
  split at h
  · exact ⟨.read, ‹_›, by simpa [side] using h.symm⟩
  · split at h
    · exact ⟨.write, ‹_›, by simpa [side] using h.symm⟩
    · cases h

theorem getContext_error {c : FdContext ω} {event : Event} {f : Fault}
    (h : c.getContext event = .error f) : f = .eventKind := by
  unfold getContext at h
  split at h
  · cases h
  · split at h
    · cases h
    · cases h
      rfl

theorem attach_error {c : FdContext ω} {event : Event} {cb : Option ω} {self : Option ℕ}
    {fiber : Option ω} {f : Fault} (h : c.attach event cb self fiber = .error f) :
    f ≠ .triggerArmed := by
  obtain he | ⟨e, -, he⟩ := bind_eq_error h
  · rw [getContext_error he]
    decide
  · split at he <;> split at he <;> cases he <;> decide

theorem attach_ok {c c' : FdContext ω} {event : Event} {cb : Option ω} {self : Option ℕ}
    {fiber : Option ω} (h : c.attach event cb self fiber = .ok c') :
    ∃ d : Direction, event = d.event := by
  obtain ⟨e, he, -⟩ := bind_eq_ok h
  obtain ⟨d, hd, -⟩ := getContext_ok he
  exact ⟨d, hd⟩

/-- Setting the bit of a direction and filling its context, which was empty. -/
theorem attach_event {c : FdContext ω} {d : Direction} (h : c.side d = {}) (cb : Option ω)
    (self : ℕ) (fiber : ω) :
    ({ c with events := c.events ||| d.event } : FdContext ω).attach d.event cb (some self)
      (some fiber) = .ok (c.put d (some (waiterOf cb self fiber))) := by
  rcases c with ⟨r, w, ⟨_ | _, _ | _⟩⟩ <;> cases d <;> subst h <;> cases cb <;> rfl

end FdContext

namespace IOManager
variable {io : IOManager ω}

/-- An armed direction of a coherent state holds a waiter. -/
theorem Coherent.side_eq (hc : io.Coherent) {fd : ℕ} {d : Direction}
    (h : (io.events fd).has d = true) :
    ∃ w : Waiter ω, io.waiter? fd d = some w ∧ (io.context fd).side d = w.context := by
  obtain ⟨hside, hbit⟩ := hc.context fd d
  obtain ⟨w, hw⟩ := Option.isSome_iff_exists.mp (hbit.symm.trans h)
  refine ⟨w, hw, ?_⟩
  rw [hside, hw]
  rfl

theorem Coherent.side_empty (hc : io.Coherent) {fd : ℕ} {d : Direction}
    (h : (io.events fd).has d = false) : (io.context fd).side d = {} := by
  obtain ⟨hside, hbit⟩ := hc.context fd d
  have hnone : ((io.context fd).side d).waiter? = none := by
    simpa using hbit.symm.trans h
  rw [hside, hnone]
  rfl

theorem Coherent.has_eq (hc : io.Coherent) (fd : ℕ) (d : Direction) :
    (io.events fd).has d = (io.waiter? fd d).isSome := (hc.context fd d).2

theorem Coherent.registered_of_has (hc : io.Coherent) {fd : ℕ} {d : Direction}
    (h : (io.events fd).has d = true) : (io.interest fd).isSome := by
  have hany : (io.events fd).any = true := by
    cases d <;> simp only [Event.has] at h <;> simp [Event.any, h]
  simp [hc.interest fd, Event.registered, hany]

/-- `triggerContext` where the event context holds a waiter. The kernel has been
told already, so its interest is arbitrary here. -/
theorem triggerContext_armed {fd : ℕ} {d : Direction} {w : Waiter ω}
    (h : (io.events fd).has d = true) (hw : (io.context fd).side d = w.context)
    (interest : ℕ → Option Event) :
    { io with interest }.triggerContext fd d.event = .ok
      { io with
        interest
        context := update io.context fd ((io.context fd).put d none)
        submitted := io.submitted ++ [w.submission] } := by
  have hside : (({ io.context fd with events := io.events fd &&& ~~~d.event } :
      FdContext ω)).side d = w.context := by
    rw [← hw]
    cases d <;> rfl
  unfold triggerContext
  rw [Event.event_and_any, h]
  simp only [Bool.not_true, Bool.false_eq_true, if_false, FdContext.getContext_event, hside]
  rcases w with ⟨s, _ | _, x⟩
  · simp [Waiter.context, Waiter.submission, submit, setFdContext, pure, Except.pure, bind,
      Except.bind, FdContext.clear_eq_put]
  · simp [Waiter.context, Waiter.submission, submit, setFdContext, pure, Except.pure, bind,
      Except.bind, FdContext.clear_eq_put]

theorem triggerContext_unarmed {fd : ℕ} {d : Direction} (h : (io.events fd).has d = false)
    (interest : ℕ → Option Event) :
    { io with interest }.triggerContext fd d.event = .error .triggerArmed := by
  unfold triggerContext
  rw [Event.event_and_any, h]
  rfl

theorem triggerContext_ok {fd : ℕ} {event : Event} {io' : IOManager ω}
    (h : io.triggerContext fd event = .ok io') : ∃ d : Direction, event = d.event := by
  unfold triggerContext at h
  split at h
  · cases h
  · obtain ⟨e, he, -⟩ := bind_eq_ok h
    obtain ⟨d, hd, -⟩ := FdContext.getContext_ok he
    exact ⟨d, hd⟩

/-- The lookup that `delEvent` and `cancelEvent` begin with. -/
theorem Coherent.leave_event (hc : io.Coherent) (fd : ℕ) (d : Direction) (fails : Bool) :
    io.leave fd d.event fails =
      if (io.events fd).has d && !fails then some (io.put fd d none).interest else none := by
  have hleft : (io.events fd) &&& ~~~d.event = ((io.context fd).put d none).events :=
    congrArg FdContext.events ((io.context fd).clear_eq_put d) ▸ by cases d <;> rfl
  unfold leave
  rw [Event.and_event_any]
  cases h : (io.events fd).has d with
  | false => split <;> rfl
  | true =>
      have hfd := (hc.pending_pos h).1
      rw [if_neg (by omega), if_neg (by simp), epollCtl_left (hc.registered_of_has h), hleft]
      cases fails <;> rfl

theorem Coherent.delEvent_event (hc : io.Coherent) (fd : ℕ) (d : Direction) (fails : Bool) :
    io.delEvent fd d.event fails =
      .ok (if (io.events fd).has d && !fails then (true, io.drop fd d) else (false, io)) := by
  unfold delEvent
  rw [hc.leave_event]
  cases (io.events fd).has d && !fails with
  | false => rfl
  | true =>
      simp only [if_true, FdContext.getContext_event, FdContext.resetContext,
        FdContext.clear_eq_put]
      rfl

theorem Coherent.cancelEvent_event (hc : io.Coherent) (fd : ℕ) (d : Direction) (fails : Bool) :
    io.cancelEvent fd d.event fails =
      .ok (if (io.events fd).has d && !fails then (true, io.fire fd d) else (false, io)) := by
  unfold cancelEvent
  rw [hc.leave_event]
  cases h : (io.events fd).has d && !fails with
  | false => rfl
  | true =>
      have hd : (io.events fd).has d = true := by simp_all
      obtain ⟨w, hw, hside⟩ := hc.side_eq hd
      simp only [if_true, triggerContext_armed hd hside, IOManager.fire, hw]
      rfl

/-- A call of `delEvent` that returns. -/
theorem Coherent.delEvent_cases (hc : io.Coherent) {fd : ℕ} {event : Event} {fails b : Bool}
    {io' : IOManager ω} (h : io.delEvent fd event fails = .ok (b, io')) :
    (b = false ∧ io' = io) ∨
      ∃ d : Direction, event = d.event ∧ b = true ∧ (io.events fd).has d = true ∧
        io' = io.drop fd d := by
  by_cases hd : ∃ d : Direction, event = d.event
  · obtain ⟨d, rfl⟩ := hd
    rw [hc.delEvent_event] at h
    split at h
    · next hb =>
        cases h
        exact .inr ⟨d, rfl, rfl, by simp_all, rfl⟩
    · cases h
      exact .inl ⟨rfl, rfl⟩
  · unfold delEvent at h
    split at h
    · cases h
      exact .inl ⟨rfl, rfl⟩
    · obtain ⟨e, he, -⟩ := bind_eq_ok h
      obtain ⟨d, hd', -⟩ := FdContext.getContext_ok he
      exact absurd ⟨d, hd'⟩ hd

theorem delEvent_error {fd : ℕ} {event : Event} {fails : Bool} {f : Fault}
    (h : io.delEvent fd event fails = .error f) : f = .eventKind := by
  unfold delEvent at h
  split at h
  · cases h
  · obtain he | ⟨e, -, he⟩ := bind_eq_error h
    · exact FdContext.getContext_error he
    · cases he

/-- `cancelEvent` has checked what `triggerContext` asserts. -/
theorem Coherent.cancelEvent_error (hc : io.Coherent) {fd : ℕ} {event : Event} {fails : Bool}
    {f : Fault} (h : io.cancelEvent fd event fails = .error f) : f ≠ .triggerArmed := by
  by_cases hd : ∃ d : Direction, event = d.event
  · obtain ⟨d, rfl⟩ := hd
    rw [hc.cancelEvent_event] at h
    cases h
  · unfold cancelEvent at h
    split at h
    · cases h
    next interest hleave =>
    have hand : ((io.events fd) &&& event).any = true := by
      unfold leave at hleave
      split at hleave
      · cases hleave
      · split at hleave
        · cases hleave
        · next hnot => simpa using hnot
    obtain he | ⟨e, -, he⟩ := bind_eq_error h
    · unfold triggerContext at he
      rw [Event.and_comm event] at he
      simp only [hand, Bool.not_true, Bool.false_eq_true, if_false] at he
      obtain he | ⟨e, he, -⟩ := bind_eq_error he
      · rw [FdContext.getContext_error he]
        decide
      · obtain ⟨d, hd', -⟩ := FdContext.getContext_ok he
        exact absurd ⟨d, hd'⟩ hd
    · cases he

/-- A call of `cancelEvent` that returns. -/
theorem Coherent.cancelEvent_cases (hc : io.Coherent) {fd : ℕ} {event : Event} {fails b : Bool}
    {io' : IOManager ω} (h : io.cancelEvent fd event fails = .ok (b, io')) :
    (b = false ∧ io' = io) ∨
      ∃ d : Direction, event = d.event ∧ b = true ∧ (io.events fd).has d = true ∧
        io' = io.fire fd d := by
  by_cases hd : ∃ d : Direction, event = d.event
  · obtain ⟨d, rfl⟩ := hd
    rw [hc.cancelEvent_event] at h
    split at h
    · next hb =>
        cases h
        exact .inr ⟨d, rfl, rfl, by simp_all, rfl⟩
    · cases h
      exact .inl ⟨rfl, rfl⟩
  · unfold cancelEvent at h
    split at h
    · cases h
      exact .inl ⟨rfl, rfl⟩
    · obtain ⟨e, he, -⟩ := bind_eq_ok h
      exact absurd (triggerContext_ok he) hd

theorem Coherent.ensureContext (hc : io.Coherent) (fd : ℕ) : (io.ensureContext fd).Coherent := by
  unfold IOManager.ensureContext
  split
  · exact hc.contextResize (by omega)
  · exact hc

theorem Coherent.waiter?_ensureContext (hc : io.Coherent) (fd fd' : ℕ) (d : Direction) :
    (io.ensureContext fd).waiter? fd' d = io.waiter? fd' d := by
  unfold IOManager.ensureContext
  split
  · by_cases h : fd' < io.size
    · simp [waiter?, IOManager.contextResize, h]
    · have hnone : io.waiter? fd' d = none := by
        have hbit := hc.has_eq fd' d
        rw [hc.beyond fd' (by omega)] at hbit
        cases d <;> simpa [Event.has, eventNone] using hbit
      rw [hnone]
      cases d <;> simp [waiter?, IOManager.contextResize, h, FdContext.side,
        EventContext.waiter?]
  · rfl

theorem submitted_ensureContext (io : IOManager ω) (fd : ℕ) :
    (io.ensureContext fd).submitted = io.submitted := by
  unfold IOManager.ensureContext
  split <;> rfl

/-- `epoll_ctl` with the operation that `addEvent` chooses. -/
theorem Coherent.epollCtl_add (hc : io.Coherent) {fd : ℕ} {d : Direction} (w : Waiter ω)
    (fails : Bool) :
    epollCtl io.interest (if (io.events fd).any then .mod else .add) fd
        (io.events fd ||| d.event) fails =
      if fails then none else some (io.put fd d (some w)).interest := by
  have hev : ((io.context fd).put d (some w)).events.registered =
      some (io.events fd ||| d.event) := by
    rcases hx : io.context fd with ⟨r, w, ⟨_ | _, _ | _⟩⟩ <;> cases d <;> simp [events, hx] <;> rfl
  have hreg := hc.interest fd
  unfold Event.registered at hreg
  cases fails <;> cases ha : (io.events fd).any <;> simp_all [epollCtl, IOManager.put]

/-- A call of `addEvent` that returns, on a thread with a scheduler. -/
theorem Coherent.addEvent_cases (hc : io.Coherent) {fd : ℕ} {event : Event} {cb : Option ω}
    {self : ℕ} {fiber : ω} {fails : Bool} {r : ℤ} {io' : IOManager ω}
    (h : io.addEvent fd event cb (some self) (some fiber) fails = .ok (r, io')) :
    (r = -1 ∧ io' = io.ensureContext fd) ∨
      ∃ d : Direction, event = d.event ∧ r = 0 ∧ fd < (io.ensureContext fd).size ∧
        ((io.ensureContext fd).events fd).has d = false ∧
        io' = (io.ensureContext fd).arm fd d (waiterOf cb self fiber) := by
  have hc' := hc.ensureContext fd
  unfold addEvent at h
  generalize io.ensureContext fd = io₁ at h hc' ⊢
  simp only at h
  split at h
  · cases h
  next hfd =>
  split at h
  · cases h
  next hev =>
  split at h
  · cases h
    exact .inl ⟨rfl, rfl⟩
  next interest hctl =>
  obtain ⟨c, hattach, hret⟩ := bind_eq_ok h
  obtain ⟨d, rfl⟩ := FdContext.attach_ok hattach
  have hd : (io₁.events fd).has d = false := by simpa [Event.and_event_any] using hev
  rw [FdContext.attach_event (hc'.side_empty hd)] at hattach
  rw [hc'.epollCtl_add (waiterOf cb self fiber)] at hctl
  cases fails with
  | true => cases hctl
  | false =>
      cases hctl
      cases hattach
      cases hret
      exact .inr ⟨d, rfl, rfl, by omega, hd, rfl⟩

theorem addEvent_error {fd : ℕ} {event : Event} {cb : Option ω} {self : Option ℕ}
    {fiber : Option ω} {fails : Bool} {f : Fault}
    (h : io.addEvent fd event cb self fiber fails = .error f) : f ≠ .triggerArmed := by
  unfold addEvent at h
  simp only at h
  split at h
  · cases h
    decide
  split at h
  · cases h
    decide
  split at h
  · cases h
  · obtain he | ⟨c, -, he⟩ := bind_eq_error h
    · exact FdContext.attach_error he
    · cases he

/-- The two `if`s at the end of the dispatch, when the events are armed. -/
def fireReported (io : IOManager ω) (fd : ℕ) (real : Event) : IOManager ω :=
  let io := if real.read then io.fire fd .read else io
  if real.write then io.fire fd .write else io

/-- In the dispatch the kernel is told first, so `triggerContext` meets the old
mask under the new interest. -/
theorem Coherent.triggerReported_armed (hc : io.Coherent) {fd : ℕ} {real : Event} {d : Direction}
    (hreal : real.has d = true) (h : (io.events fd).has d = true)
    (interest : ℕ → Option Event) :
    { io with interest }.triggerReported fd real d.event =
      .ok { io.fire fd d with interest } := by
  obtain ⟨w, hw, hside⟩ := hc.side_eq h
  unfold triggerReported
  rw [Event.and_event_any, hreal, if_pos rfl, triggerContext_armed h hside]
  simp only [IOManager.fire, hw]
  rfl

theorem triggerReported_unarmed {fd : ℕ} {real : Event} {d : Direction}
    (hreal : real.has d = true) (h : (io.events fd).has d = false)
    (interest : ℕ → Option Event) :
    { io with interest }.triggerReported fd real d.event = .error .triggerArmed := by
  unfold triggerReported
  rw [Event.and_event_any, hreal, if_pos rfl, triggerContext_unarmed h]
  rfl

theorem triggerReported_other {fd : ℕ} {real : Event} {d : Direction}
    (hreal : real.has d = false) : io.triggerReported fd real d.event = .ok io := by
  unfold triggerReported
  rw [Event.and_event_any, hreal]
  rfl

/-- The condition under which the dispatch gets past its guard and its `epoll_ctl`. -/
def reaches (io : IOManager ω) (r : Record) (fails : Bool) : Bool :=
  (io.events r.fd &&& io.realEvent r).any && !fails

/-- Everything that the record reports is armed. -/
def allArmed (io : IOManager ω) (r : Record) : Bool :=
  !(io.realEvent r &&& ~~~io.events r.fd).any

theorem events_fire (io : IOManager ω) (fd : ℕ) (d : Direction) :
    (io.fire fd d).events fd = io.events fd &&& ~~~d.event := by
  simp only [fire, drop, events, context_put, update_self]
  rcases io.context fd with ⟨r, w, ⟨_ | _, _ | _⟩⟩ <;> cases d <;> rfl

/-- Firing tells the kernel the same as the one `epoll_ctl` of the dispatch. -/
theorem fireReported_interest (io : IOManager ω) {fd : ℕ} {real : Event} (hreal : real.any = true) :
    (io.fireReported fd real).interest =
      update io.interest fd (io.events fd &&& ~~~real).registered := by
  have hfire : ∀ (io : IOManager ω) d,
      (io.fire fd d).interest = update io.interest fd ((io.fire fd d).events fd).registered := by
    intro io d
    simp [fire, drop, put, events]
  rcases real with ⟨_ | _, _ | _⟩
  · cases hreal
  · simp [fireReported, hfire, events_fire]
    rfl
  · simp [fireReported, hfire, events_fire]
    rfl
  · simp only [fireReported, hfire, events_fire, update_idem, if_true]
    congr 2
    rcases io.events fd with ⟨_ | _, _ | _⟩ <;> rfl

/-- The dispatch after its `epoll_ctl` succeeded. -/
theorem Coherent.trigger_both (hc : io.Coherent) {fd : ℕ} {real : Event}
    (hreal : (io.events fd &&& real).any = true) (interest : ℕ → Option Event) :
    (do
      let io₁ ← { io with interest }.triggerReported fd real Direction.read.event
      io₁.triggerReported fd real Direction.write.event) =
      if (real &&& ~~~io.events fd).any then .error .triggerArmed
      else .ok { io.fireReported fd real with interest } := by
  rcases real with ⟨_ | _, _ | _⟩
  · simp [Event.any] at hreal
  · have hw : (io.events fd).has .write = true := by simpa [Event.any, Event.has] using hreal
    rw [triggerReported_other (by rfl)]
    simp only [bind, Except.bind]
    rw [hc.triggerReported_armed (by rfl) hw]
    simp_all [Event.any, Event.has, fireReported]
  · have hr : (io.events fd).has .read = true := by simpa [Event.any, Event.has] using hreal
    rw [hc.triggerReported_armed (by rfl) hr]
    simp only [bind, Except.bind]
    rw [triggerReported_other (by rfl)]
    simp_all [Event.any, Event.has, fireReported]
  · cases hr : (io.events fd).has .read with
    | false =>
        rw [triggerReported_unarmed (by rfl) hr]
        simp_all [Event.any, Event.has, bind, Except.bind]
    | true =>
        rw [hc.triggerReported_armed (by rfl) hr]
        simp only [bind, Except.bind]
        have hkeep : ((io.fire fd .read).events fd).has .write = (io.events fd).has .write := by
          simp [events_fire, Event.has, Direction.event, eventRead]
        cases hw : (io.events fd).has .write with
        | false =>
            rw [triggerReported_unarmed (by rfl) (hkeep.trans hw)]
            simp_all [Event.any, Event.has]
        | true =>
            rw [(hc.fire hr).triggerReported_armed (by rfl) (hkeep.trans hw)]
            simp_all [Event.any, Event.has, fireReported]

theorem Coherent.dispatch_eq (hc : io.Coherent) (r : Record) (fails : Bool) :
    io.dispatch r fails =
      if io.reaches r fails then
        if io.allArmed r then .ok (io.fireReported r.fd (io.realEvent r))
        else .error .triggerArmed
      else .ok io := by
  unfold dispatch reaches allArmed
  simp only
  by_cases hnone : io.events r.fd &&& io.realEvent r = eventNone
  · rw [if_pos hnone, hnone]
    rfl
  have hany : (io.events r.fd &&& io.realEvent r).any = true := by
    simpa [← Event.any_eq_false] using hnone
  have hreg : (io.interest r.fd).isSome := by
    have hev : (io.events r.fd).any = true := by
      simp only [Event.any, Event.and_read, Event.and_write, Bool.or_eq_true,
        Bool.and_eq_true] at hany ⊢
      exact hany.imp And.left And.left
    simp [hc.interest, Event.registered, hev]
  have hreal : (io.realEvent r).any = true := by
    simp only [Event.any, Event.and_read, Event.and_write, Bool.or_eq_true,
      Bool.and_eq_true] at hany ⊢
    exact hany.imp And.right And.right
  rw [if_neg hnone, epollCtl_left hreg, hany]
  cases fails with
  | true => rfl
  | false =>
      refine (hc.trigger_both hany _).trans ?_
      cases (io.realEvent r &&& ~~~io.events r.fd).any with
      | true => rfl
      | false =>
          rw [← io.fireReported_interest hreal]
          rfl

/-- When the dispatch triggers an event that is not armed. -/
theorem Coherent.dispatch_error_iff (hc : io.Coherent) (r : Record) (fails : Bool) :
    io.dispatch r fails = .error .triggerArmed ↔
      ¬ (fails = true ∨ io.events r.fd &&& io.realEvent r = eventNone ∨
        io.realEvent r &&& ~~~io.events r.fd = eventNone) := by
  rw [hc.dispatch_eq, ← Event.any_eq_false, ← Event.any_eq_false]
  unfold reaches allArmed
  cases (io.realEvent r &&& ~~~io.events r.fd).any <;>
    cases (io.events r.fd &&& io.realEvent r).any <;> cases fails <;> simp

/-- A dispatch that returns. -/
theorem Coherent.dispatch_cases (hc : io.Coherent) {r : Record} {fails : Bool}
    {io' : IOManager ω} (h : io.dispatch r fails = .ok io') :
    io' = io ∨ ((io.realEvent r &&& ~~~io.events r.fd).any = false ∧
      io' = io.fireReported r.fd (io.realEvent r)) := by
  rw [hc.dispatch_eq] at h
  split at h
  · split at h
    · next harmed =>
        cases h
        exact .inr ⟨by simpa [allArmed] using harmed, rfl⟩
    · cases h
  · cases h
    exact .inl rfl

/-- What firing an armed event that is reported keeps, the end of the dispatch keeps. -/
theorem fireReported_keeps_reported (P : IOManager ω → Prop) {fd : ℕ} {real : Event}
    (hfire : ∀ (io : IOManager ω) d, real.has d = true → P io → (io.events fd).has d = true →
      P (io.fire fd d))
    (h : P io) (hreal : (real &&& ~~~io.events fd).any = false) :
    P (io.fireReported fd real) := by
  rcases real with ⟨_ | _, _ | _⟩
  · exact h
  · exact hfire io .write rfl h (by simpa [Event.any, Event.has] using hreal)
  · exact hfire io .read rfl h (by simpa [Event.any, Event.has] using hreal)
  · have hboth : (io.events fd).read = true ∧ (io.events fd).write = true := by
      simpa [Event.any] using hreal
    refine hfire _ .write rfl (hfire io .read rfl h hboth.1) ?_
    simpa [events_fire, Event.has, Direction.event, eventRead] using hboth.2

/-- What firing one armed event keeps, the end of the dispatch keeps. -/
theorem fireReported_keeps (P : IOManager ω → Prop)
    (hfire : ∀ (io : IOManager ω) fd d, P io → (io.events fd).has d = true → P (io.fire fd d))
    (h : P io) {fd : ℕ} {real : Event} (hreal : (real &&& ~~~io.events fd).any = false) :
    P (io.fireReported fd real) :=
  fireReported_keeps_reported P (fun io d _ => hfire io fd d) h hreal

theorem Coherent.fireReported (hc : io.Coherent) {fd : ℕ} {real : Event}
    (h : (real &&& ~~~io.events fd).any = false) : (io.fireReported fd real).Coherent :=
  fireReported_keeps Coherent (fun _ _ _ hc hd => hc.fire hd) hc h

/-- What a dispatch fires is what it takes out of the mask. -/
theorem cleared_fireReported {fd : ℕ} {real : Event}
    (h : (real &&& ~~~io.events fd).any = false) :
    io.events fd &&& ~~~(io.fireReported fd real).events fd = real := by
  have hev : (io.fireReported fd real).events fd = io.events fd &&& ~~~real := by
    rcases real with ⟨_ | _, _ | _⟩ <;> simp only [fireReported, events_fire, if_true, if_false,
      Bool.false_eq_true] <;> rcases io.events fd with ⟨_ | _, _ | _⟩ <;> rfl
  rw [hev]
  revert h
  rcases real with ⟨_ | _, _ | _⟩ <;> rcases io.events fd with ⟨_ | _, _ | _⟩ <;> decide

end IOManager

end Xzmjx.IOManagerModel
