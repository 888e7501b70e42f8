import Xzmjx.IOManagerSpecs
import Xzmjx.OneShot
import Xzmjx.StepSystem

/-!
# Runs of the IO manager

A run interleaves `addEvent`, `delEvent`, `cancelEvent` and dispatches of
arbitrary records. Beside the IO manager a ledger is kept that follows only what
the callers see: a call of `addEvent` that returned 0 opens a registration,
`delEvent` returning true drops it, `cancelEvent` returning true and the dispatch
taking its event out of the mask fire it.
-/
namespace Xzmjx.IOManagerModel
open OneShot StepSystem Function

variable {ω : Type*}

inductive Op (ω : Type*)
  | addEvent (fd : ℕ) (event : Event) (cb : Option ω) (self : ℕ) (fiber : ω) (fails : Bool)
  | delEvent (fd : ℕ) (event : Event) (fails : Bool)
  | cancelEvent (fd : ℕ) (event : Event) (fails : Bool)
  | dispatch (record : Record) (fails : Bool)

abbrev Ledger (ω : Type*) := Registry (ℕ × Direction) (Waiter ω)

structure System (ω : Type*) where
  io : IOManager ω
  ledger : Ledger ω

def directionOf (event : Event) : Direction := if event = eventRead then .read else .write

@[simp] theorem directionOf_event (d : Direction) : directionOf d.event = d := by
  cases d <;> rfl

/-- Fire the registrations of the events of `fd` that left its mask. -/
def Ledger.fireCleared (l : Ledger ω) (fd : ℕ) (cleared : Event) : Ledger ω :=
  let l := if cleared.read then l.fire (fd, .read) else l
  if cleared.write then l.fire (fd, .write) else l

namespace System

def new : System ω := ⟨IOManager.new, Registry.empty⟩

/-- One operation; `none` where an assertion fails. -/
def step (s : System ω) : Op ω → Option (System ω)
  | .addEvent fd event cb self fiber fails =>
      match s.io.addEvent fd event cb (some self) (some fiber) fails with
      | .error _ => none
      | .ok (r, io) =>
          some ⟨io, if r = 0 then s.ledger.arm (fd, directionOf event) (waiterOf cb self fiber)
            else s.ledger⟩
  | .delEvent fd event fails =>
      match s.io.delEvent fd event fails with
      | .error _ => none
      | .ok (b, io) => some ⟨io, if b then s.ledger.drop (fd, directionOf event) else s.ledger⟩
  | .cancelEvent fd event fails =>
      match s.io.cancelEvent fd event fails with
      | .error _ => none
      | .ok (b, io) => some ⟨io, if b then s.ledger.fire (fd, directionOf event) else s.ledger⟩
  | .dispatch r fails =>
      match s.io.dispatch r fails with
      | .error _ => none
      | .ok io => some ⟨io, s.ledger.fireCleared r.fd (s.io.events r.fd &&& ~~~io.events r.fd)⟩

/-- The ledger's open registrations are the waiters of the IO manager, and its
deliveries are the submissions, in order. -/
structure Linked (s : System ω) : Prop where
  coherent : s.io.Coherent
  sound : s.ledger.Sound
  slot : ∀ fd d, s.io.waiter? fd d = (s.ledger.slot (fd, d)).map Prod.snd
  submitted : s.io.submitted = s.ledger.delivered.map fun p => p.2.submission

theorem linked_new : (new : System ω).Linked :=
  ⟨IOManager.coherent_new, Registry.sound_empty, by
    intro fd d
    cases d <;> rfl, rfl⟩

theorem Linked.slot_update {s : System ω} (h : s.Linked) (fd : ℕ) (d : Direction)
    (o : Option (ℕ × Waiter ω)) (fd' : ℕ) (d' : Direction) :
    (s.io.put fd d (o.map Prod.snd)).waiter? fd' d' =
      (update s.ledger.slot (fd, d) o (fd', d')).map Prod.snd := by
  rw [IOManager.waiter?_put]
  by_cases hk : fd' = fd ∧ d' = d
  · obtain ⟨rfl, rfl⟩ := hk
    simp
  · have hne : (fd', d') ≠ (fd, d) := by simpa using hk
    rw [if_neg hk, update_of_ne hne]
    exact h.slot fd' d'

theorem Linked.arm {s : System ω} (h : s.Linked) {fd : ℕ} (hfd : fd < s.io.size) {d : Direction}
    (hd : (s.io.events fd).has d = false) (w : Waiter ω) :
    Linked ⟨s.io.arm fd d w, s.ledger.arm (fd, d) w⟩ := by
  have hfree : s.ledger.slot (fd, d) = none := by
    rw [h.coherent.has_eq, h.slot] at hd
    simpa using hd
  exact ⟨h.coherent.arm hfd hd w, h.sound.arm hfree w,
    h.slot_update fd d (some (s.ledger.history.length, w)), h.submitted⟩

theorem Linked.drop {s : System ω} (h : s.Linked) {fd : ℕ} {d : Direction}
    (hd : (s.io.events fd).has d = true) :
    Linked ⟨s.io.drop fd d, s.ledger.drop (fd, d)⟩ := by
  refine ⟨h.coherent.drop hd, h.sound.drop _, fun fd' d' => ?_, ?_⟩
  · exact (h.slot_update fd d none fd' d').trans (by simp [Registry.drop])
  · exact h.submitted.trans (by simp [Registry.drop])

theorem Linked.fire {s : System ω} (h : s.Linked) {fd : ℕ} {d : Direction}
    (hd : (s.io.events fd).has d = true) :
    Linked ⟨s.io.fire fd d, s.ledger.fire (fd, d)⟩ := by
  refine ⟨h.coherent.fire hd, h.sound.fire _, fun fd' d' => ?_, ?_⟩
  · exact (h.slot_update fd d none fd' d').trans (by simp [Registry.fire])
  · show s.io.submitted ++ ((s.io.waiter? fd d).map Waiter.submission).toList =
      (s.ledger.delivered ++ (s.ledger.slot (fd, d)).toList).map fun p => p.2.submission
    rw [h.submitted, h.slot]
    cases s.ledger.slot (fd, d) <;> simp

theorem Linked.ensureContext {s : System ω} (h : s.Linked) (fd : ℕ) :
    Linked ⟨s.io.ensureContext fd, s.ledger⟩ := by
  refine ⟨h.coherent.ensureContext fd, h.sound, fun fd' d => ?_, ?_⟩
  · rw [← h.slot fd' d]
    exact h.coherent.waiter?_ensureContext fd fd' d
  · rw [← h.submitted]
    exact s.io.submitted_ensureContext fd

theorem Linked.fireReported {s : System ω} (h : s.Linked) {fd : ℕ} {real : Event}
    (hreal : (real &&& ~~~s.io.events fd).any = false) :
    Linked ⟨s.io.fireReported fd real, s.ledger.fireCleared fd real⟩ := by
  have hr : real.read = true → (s.io.events fd).has .read = true := by
    intro hr
    simp_all [Event.any, Event.has]
  have hw : real.write = true → (s.io.events fd).has .write = true := by
    intro hw
    simp_all [Event.any, Event.has]
  rcases real with ⟨_ | _, _ | _⟩
  · exact h
  · exact h.fire (hw rfl)
  · exact h.fire (hr rfl)
  · refine (h.fire (hr rfl)).fire (d := .write) ?_
    simpa [IOManager.events_fire, Event.has, Direction.event, eventRead] using hw rfl

/-- Everything that one operation can do to the IO manager and the ledger. -/
theorem Linked.step_cases {s s' : System ω} (h : s.Linked) {op : Op ω}
    (hs : s.step op = some s') :
    s' = s ∨ (∃ fd, s' = ⟨s.io.ensureContext fd, s.ledger⟩) ∨
    (∃ fd d w, fd < (s.io.ensureContext fd).size ∧
      ((s.io.ensureContext fd).events fd).has d = false ∧
      s' = ⟨(s.io.ensureContext fd).arm fd d w, s.ledger.arm (fd, d) w⟩) ∨
    (∃ fd d, (s.io.events fd).has d = true ∧ s' = ⟨s.io.drop fd d, s.ledger.drop (fd, d)⟩) ∨
    (∃ fd d, (s.io.events fd).has d = true ∧ s' = ⟨s.io.fire fd d, s.ledger.fire (fd, d)⟩) ∨
    (∃ fd real, (real &&& ~~~s.io.events fd).any = false ∧
      s' = ⟨s.io.fireReported fd real, s.ledger.fireCleared fd real⟩) := by
  cases op with
  | addEvent fd event cb self fiber fails =>
      simp only [System.step] at hs
      split at hs
      · cases hs
      next r io hadd =>
      cases hs
      obtain ⟨rfl, rfl⟩ | ⟨d, rfl, rfl, hfd, hd, rfl⟩ := h.coherent.addEvent_cases hadd
      · exact .inr (.inl ⟨fd, rfl⟩)
      · exact .inr (.inr (.inl ⟨fd, d, waiterOf cb self fiber, hfd, hd, by simp⟩))
  | delEvent fd event fails =>
      simp only [System.step] at hs
      split at hs
      · cases hs
      next b io hdel =>
      cases hs
      obtain ⟨rfl, rfl⟩ | ⟨d, rfl, rfl, hd, rfl⟩ := h.coherent.delEvent_cases hdel
      · exact .inl rfl
      · exact .inr (.inr (.inr (.inl ⟨fd, d, hd, by simp⟩)))
  | cancelEvent fd event fails =>
      simp only [System.step] at hs
      split at hs
      · cases hs
      next b io hcancel =>
      cases hs
      obtain ⟨rfl, rfl⟩ | ⟨d, rfl, rfl, hd, rfl⟩ := h.coherent.cancelEvent_cases hcancel
      · exact .inl rfl
      · exact .inr (.inr (.inr (.inr (.inl ⟨fd, d, hd, by simp⟩))))
  | dispatch r fails =>
      simp only [System.step] at hs
      split at hs
      · cases hs
      next io hdisp =>
      cases hs
      obtain rfl | ⟨hreal, rfl⟩ := h.coherent.dispatch_cases hdisp
      · have hsame : s.io.events r.fd &&& ~~~s.io.events r.fd = eventNone := by
          rcases s.io.events r.fd with ⟨_ | _, _ | _⟩ <;> rfl
        rw [hsame]
        exact .inl rfl
      · rw [IOManager.cleared_fireReported hreal]
        exact .inr (.inr (.inr (.inr (.inr ⟨r.fd, _, hreal, rfl⟩))))

theorem Linked.step {s s' : System ω} (h : s.Linked) {op : Op ω} (hs : s.step op = some s') :
    s'.Linked := by
  obtain rfl | ⟨fd, rfl⟩ | ⟨fd, d, w, hfd, hd, rfl⟩ | ⟨fd, d, hd, rfl⟩ | ⟨fd, d, hd, rfl⟩ |
    ⟨fd, real, hreal, rfl⟩ := h.step_cases hs
  · exact h
  · exact h.ensureContext fd
  · exact (h.ensureContext fd).arm hfd hd w
  · exact h.drop hd
  · exact h.fire hd
  · exact h.fireReported hreal

/-- A registration that was dropped or fired keeps its fate. -/
theorem Linked.step_keeps {s s' : System ω} (h : s.Linked) {op : Op ω} (hs : s.step op = some s')
    {t : ℕ} {x : Registration (ℕ × Direction) (Waiter ω)} (hx : s.ledger.history[t]? = some x)
    (hf : x.fate ≠ .armed) : s'.ledger.history[t]? = some x := by
  obtain rfl | ⟨fd, rfl⟩ | ⟨fd, d, w, hfd, hd, rfl⟩ | ⟨fd, d, hd, rfl⟩ | ⟨fd, d, hd, rfl⟩ |
    ⟨fd, real, hreal, rfl⟩ := h.step_cases hs
  · exact hx
  · exact hx
  · exact Registry.arm_keeps hx _ _
  · exact h.sound.settle_keeps hx hf _ _
  · exact h.sound.settle_keeps hx hf _ _
  · rcases real with ⟨_ | _, _ | _⟩
    · exact hx
    · exact h.sound.settle_keeps hx hf _ _
    · exact h.sound.settle_keeps hx hf _ _
    · exact (h.sound.fire _).settle_keeps (h.sound.settle_keeps hx hf _ _) hf _ _

theorem Linked.run {s s' : System ω} (h : s.Linked) {ops : List (Op ω)}
    (hs : run System.step s ops = some s') : s'.Linked := by
  induction ops generalizing s with
  | nil => exact Option.some.inj hs ▸ h
  | cons op ops ih =>
      obtain ⟨s₁, h₁, hrest⟩ := run_cons.mp hs
      exact ih (h.step h₁) hrest

theorem Linked.run_keeps {s s' : System ω} (h : s.Linked) {ops : List (Op ω)}
    (hs : StepSystem.run System.step s ops = some s') {t : ℕ}
    {x : Registration (ℕ × Direction) (Waiter ω)} (hx : s.ledger.history[t]? = some x)
    (hf : x.fate ≠ .armed) : s'.ledger.history[t]? = some x := by
  induction ops generalizing s with
  | nil => exact Option.some.inj hs ▸ hx
  | cons op ops ih =>
      obtain ⟨s₁, h₁, hrest⟩ := run_cons.mp hs
      exact ih (h.step h₁) hrest (h.step_keeps h₁ hx hf)

/-- What a caller may rely on in a state of the IO manager. `deliveries t` counts the
submissions that belong to the registration with ticket `t`. -/
structure Bookkeeping (s : System ω) : Prop where
  /-- The pending count is the number of bits set in all the masks. -/
  pending : s.io.pendingEventCount = ∑ fd ∈ Finset.range s.io.size, (s.io.events fd).bits
  beyond : ∀ fd, s.io.size ≤ fd → s.io.events fd = eventNone
  /-- A bit is set iff the event context holds a scheduler and exactly one of a
  fiber and a callback. -/
  contexts : ∀ fd d, (s.io.events fd).has d = true ↔
    ((s.io.context fd).side d).scheduler.isSome ∧
      (((s.io.context fd).side d).fiber.isSome ^^ ((s.io.context fd).side d).cb.isSome)
  /-- The kernel watches a descriptor for exactly the events of its mask. -/
  interest : ∀ fd, s.io.interest fd =
    if s.io.events fd = eventNone then none else some (s.io.events fd)
  /-- The submissions are the deliveries of the ledger, in order. -/
  submitted : s.io.submitted = s.ledger.delivered.map fun p => p.2.submission
  /-- What is delivered for a ticket is the waiter that was registered under it. -/
  delivered : ∀ t w, (t, w) ∈ s.ledger.delivered →
    ∃ x, s.ledger.history[t]? = some x ∧ x.waiter = w
  deliveries : ∀ t x, s.ledger.history[t]? = some x →
    s.ledger.deliveries t = if x.fate = .fired then 1 else 0

theorem Linked.bookkeeping {s : System ω} (h : s.Linked) : s.Bookkeeping where
  pending := h.coherent.pending
  beyond := h.coherent.beyond
  contexts fd d := by
    rw [h.coherent.has_eq]
    exact waiter?_isSome_iff _
  interest fd := by
    rw [h.coherent.interest, Event.registered]
    by_cases hn : s.io.events fd = eventNone
    · simp [hn, Event.any, eventNone]
    · have hany : (s.io.events fd).any = true := by
        simpa [← Event.any_eq_false] using hn
      simp [hn, hany]
  submitted := h.submitted
  delivered t w hw := by
    obtain ⟨k, hk⟩ := (h.sound.delivered_iff t w).mp hw
    exact ⟨_, hk, rfl⟩
  deliveries t x hx := h.sound.deliveries_eq hx

/-- In every state `s` that a run reaches the bookkeeping is coherent. Wherever the
run goes on from there, a registration that was dropped in `s` is never submitted,
and one that was cancelled or dispatched has been submitted once and never again. -/
theorem event_bookkeeping_coherent (ops more : List (Op ω)) (s s' : System ω)
    (hs : StepSystem.run System.step System.new ops = some s)
    (hs' : StepSystem.run System.step s more = some s') :
    s.Bookkeeping ∧ s'.Bookkeeping ∧
      ∀ t x, s.ledger.history[t]? = some x →
        s'.ledger.deliveries t ≤ 1 ∧ (x.fate = .dropped → s'.ledger.deliveries t = 0) ∧
          (x.fate = .fired → s.ledger.deliveries t = 1 ∧ s'.ledger.deliveries t = 1) := by
  have h := linked_new.run hs
  have h' := h.run hs'
  refine ⟨h.bookkeeping, h'.bookkeeping, fun t x hx => ⟨?_, fun hf => ?_, fun hf => ⟨?_, ?_⟩⟩⟩
  · exact List.nodup_iff_count_le_one.mp h'.sound.delivered_nodup t
  · have hx' := h.run_keeps hs' hx (by rw [hf]; decide)
    simp [h'.sound.deliveries_eq hx', hf]
  · simp [h.sound.deliveries_eq hx, hf]
  · have hx' := h.run_keeps hs' hx (by rw [hf]; decide)
    simp [h'.sound.deliveries_eq hx', hf]

/-- A fiber waits to read and a callback to write on descriptor 40; the read is
cancelled, then a hang-up on the descriptor dispatches the write. -/
theorem event_bookkeeping_coherent_hangup :
    ∃ s s' : System ℕ,
      StepSystem.run System.step System.new
        [.addEvent 40 eventRead none 1 7 false, .addEvent 40 eventWrite (some 8) 1 7 false,
          .cancelEvent 40 eventRead false] = some s ∧
      StepSystem.run System.step s
        [.dispatch { fd := 40, epollin := false, epollout := false, epollhup := true } false] =
          some s' ∧
      s'.io.submitted = [⟨1, some 7, none⟩, ⟨1, none, some 8⟩] ∧
      s.Bookkeeping ∧ s'.Bookkeeping := by
  have hsub : (StepSystem.run System.step (System.new : System ℕ)
      ([.addEvent 40 eventRead none 1 7 false, .addEvent 40 eventWrite (some 8) 1 7 false,
          .cancelEvent 40 eventRead false] ++
        [.dispatch { fd := 40, epollin := false, epollout := false, epollhup := true } false])).map
      (fun s => s.io.submitted) = some [⟨1, some 7, none⟩, ⟨1, none, some 8⟩] := by decide
  obtain ⟨s', hs', hlog⟩ := Option.map_eq_some_iff.mp hsub
  obtain ⟨s, hs, hmore⟩ := run_append.mp hs'
  have h := event_bookkeeping_coherent _ _ s s' hs hmore
  exact ⟨s, s', hs, hmore, hlog, h.1, h.2.1⟩

end System

end Xzmjx.IOManagerModel
