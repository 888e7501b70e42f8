import Xzmjx.IOManagerSpecs

/-!
# The bulk operations against the single-event ones

`delAll` and `cancelAll` are separate code from `delEvent` and `cancelEvent`.
Here they are compared with the calls they stand for: one call of the
single-event operation for each armed event of the descriptor.
-/
namespace Xzmjx.IOManagerModel
open Function

variable {ω : Type*}

namespace IOManager
variable {io : IOManager ω}

/-- Call a single-event operation for each event that is armed at the start. -/
def eachArmed (op : IOManager ω → Event → Except Fault (Bool × IOManager ω)) (io : IOManager ω)
    (fd : ℕ) : Except Fault (IOManager ω) := do
  let armed := io.events fd
  let io ← if armed.read then Prod.snd <$> op io eventRead else pure io
  if armed.write then Prod.snd <$> op io eventWrite else pure io

def delEach (io : IOManager ω) (fd : ℕ) : Except Fault (IOManager ω) :=
  io.eachArmed (fun io event => io.delEvent fd event false) fd

def cancelEach (io : IOManager ω) (fd : ℕ) : Except Fault (IOManager ω) :=
  io.eachArmed (fun io event => io.cancelEvent fd event false) fd

/-- The same masks, contexts, registrations and count, and the same tasks submitted. -/
structure Agree (io io' : IOManager ω) : Prop where
  context : io.context = io'.context
  interest : io.interest = io'.interest
  pending : io.pendingEventCount = io'.pendingEventCount
  submitted : io.submitted.Perm io'.submitted

def DelAllAgrees (io : IOManager ω) (fd : ℕ) : Prop :=
  ∃ io', io.delEach fd = .ok io' ∧ (io.delAll fd false).2.Agree io'

def CancelAllAgrees (io : IOManager ω) (fd : ℕ) : Prop :=
  ∃ b io₁ io₂, io.cancelAll fd false = .ok (b, io₁) ∧ io.cancelEach fd = .ok io₂ ∧ io₁.Agree io₂

/-- The waiters of a descriptor as tasks. -/
def waiting (io : IOManager ω) (fd : ℕ) : List (Submission ω) :=
  ((io.waiter? fd .read).map Waiter.submission).toList ++
    ((io.waiter? fd .write).map Waiter.submission).toList

/-- After `close` nothing is armed and every waiter was submitted exactly once. -/
def CloseDrains (io : IOManager ω) (fd : ℕ) : Prop :=
  ∃ io', io.close fd false false = .ok io' ∧ io'.events fd = eventNone ∧
    io'.submitted.Perm (io.submitted ++ io.waiting fd)

theorem events_drop (io : IOManager ω) (fd : ℕ) (d : Direction) :
    (io.drop fd d).events fd = io.events fd &&& ~~~d.event := io.events_fire fd d

/-- An operation that performs `act` on an armed direction, called for each. -/
theorem Coherent.eachArmed_eq (hc : io.Coherent) {fd : ℕ}
    (op : IOManager ω → Event → Except Fault (Bool × IOManager ω))
    (act : IOManager ω → Direction → IOManager ω)
    (hop : ∀ io d, Coherent io → (io.events fd).has d = true → op io d.event = .ok (true, act io d))
    (hcoh : ∀ io d, Coherent io → (io.events fd).has d = true → (act io d).Coherent)
    (hev : ∀ io d, (act io d).events fd = io.events fd &&& ~~~d.event) :
    ∃ io', io.eachArmed op fd = .ok io' ∧ io'.events fd = eventNone ∧
      io' = (let io₁ := if (io.events fd).read then act io .read else io
        if (io.events fd).write then act io₁ .write else io₁) := by
  refine ⟨_, ?_, ?_, rfl⟩
  · unfold eachArmed
    cases hr : (io.events fd).read with
    | false =>
        cases hw : (io.events fd).write with
        | false => simp [hr, hw, bind, Except.bind, pure, Except.pure]
        | true =>
            have hop₁ := hop io .write hc hw
            simp only [Direction.event] at hop₁
            simp [hr, hw, hop₁, bind, Except.bind, pure, Except.pure]
    | true =>
        have hop₁ := hop io .read hc hr
        simp only [Direction.event] at hop₁
        cases hw : (io.events fd).write with
        | false => simp [hr, hw, hop₁, bind, Except.bind, pure, Except.pure]
        | true =>
            have hw₁ : ((act io .read).events fd).has .write = true := by
              simpa [hev, Event.has, Direction.event, eventRead] using hw
            have hop₂ := hop (act io .read) .write (hcoh io .read hc hr) hw₁
            simp only [Direction.event] at hop₂
            simp [hr, hw, hop₁, hop₂, bind, Except.bind]
  · rcases hx : io.events fd with ⟨_ | _, _ | _⟩ <;> simp [hev, hx] <;> rfl

theorem Coherent.delEach_clears (hc : io.Coherent) (fd : ℕ) :
    ∃ io', io.delEach fd = .ok io' ∧ io'.events fd = eventNone := by
  obtain ⟨io', hio', hev, -⟩ := hc.eachArmed_eq
    (fun io event => io.delEvent fd event false) (fun io d => io.drop fd d)
    (fun io d hc hd => by simp [hc.delEvent_event, hd])
    (fun io d hc hd => hc.drop hd) (fun io d => io.events_drop fd d)
  exact ⟨io', hio', hev⟩

theorem Coherent.cancelEach_eq (hc : io.Coherent) (fd : ℕ) :
    io.cancelEach fd = .ok (io.fireReported fd (io.events fd)) ∧
      (io.fireReported fd (io.events fd)).events fd = eventNone := by
  obtain ⟨io', hio', hev, rfl⟩ := hc.eachArmed_eq
    (fun io event => io.cancelEvent fd event false) (fun io d => io.fire fd d)
    (fun io d hc hd => by simp [hc.cancelEvent_event, hd])
    (fun io d hc hd => hc.fire hd) (fun io d => io.events_fire fd d)
  exact ⟨hio', hev⟩

/-- `delAll` resets the contexts but leaves the mask as it was. -/
theorem delAll_events (io : IOManager ω) (fd : ℕ) (fails : Bool) :
    (io.delAll fd fails).2.events fd = io.events fd := by
  have hreset : ∀ (io : IOManager ω) event, (io.resetArmed fd event).events fd = io.events fd := by
    intro io event
    unfold resetArmed
    split
    · simp only [events, setFdContext, update_self, FdContext.resetContext, FdContext.setContext]
      split <;> rfl
    · rfl
  unfold delAll
  split
  · rfl
  · rw [hreset, hreset]

/-- The slip of `delAll`: the events of a descriptor stay set in its mask. -/
theorem Coherent.not_delAllAgrees (hc : io.Coherent) {fd : ℕ} (h : (io.events fd).any = true) :
    ¬ io.DelAllAgrees fd := by
  rintro ⟨io', hio', hagree⟩
  obtain ⟨io₂, hio₂, hnone⟩ := hc.delEach_clears fd
  obtain rfl : io' = io₂ := Except.ok.inj (hio'.symm.trans hio₂)
  have hmask : io'.events fd = io.events fd := by
    rw [← io.delAll_events fd false, events, events, hagree.context]
  rw [← hmask, hnone] at h
  cases h

theorem Coherent.leaveAll_eq (hc : io.Coherent) {fd : ℕ} (h : (io.events fd).any = true) :
    io.leaveAll fd false = some (update io.interest fd none) := by
  have hfd : fd < io.size := by
    by_contra hle
    rw [hc.beyond fd (by omega)] at h
    cases h
  have hreg : io.interest fd = some (io.events fd) := by
    rw [hc.interest, Event.registered, if_pos h]
  unfold leaveAll
  rw [if_neg (by omega), h]
  simp [epollCtl, hreg]

/-- `cancelAll` with one direction armed, or with both, where only the first of its
two branches is taken. -/
theorem Coherent.cancelAll_eq (hc : io.Coherent) {fd : ℕ} {d : Direction}
    (hd : (io.events fd).has d = true)
    (hfirst : d = .write → (io.events fd).has .read = false) :
    io.cancelAll fd false =
      .ok (true, { io.fire fd d with interest := update io.interest fd none }) := by
  have hany : (io.events fd).any = true := by
    cases d <;> simp only [Event.has] at hd <;> simp [Event.any, hd]
  have hr := Event.and_event_any (io.events fd) .read
  have hw := Event.and_event_any (io.events fd) .write
  obtain ⟨w, hwait, hside⟩ := hc.side_eq hd
  have htrigger := triggerContext_armed hd hside (update io.interest fd none)
  unfold cancelAll
  rw [hc.leaveAll_eq hany]
  cases d with
  | read =>
      simp only [Direction.event] at hr htrigger
      simp only [hr, hd, if_true, htrigger, IOManager.fire, hwait]
      rfl
  | write =>
      simp only [Direction.event] at hr hw htrigger
      simp only [hr, hw, hd, hfirst rfl, if_true, Bool.false_eq_true, if_false, htrigger,
        IOManager.fire, hwait]
      rfl

/-- With one direction armed `cancelAll` is `cancelEvent` on it. -/
theorem Coherent.cancelAll_single (hc : io.Coherent) {fd : ℕ} (h : (io.events fd).any = true)
    (hone : ¬ ((io.events fd).read = true ∧ (io.events fd).write = true)) :
    io.cancelAll fd false = .ok (true, io.fireReported fd (io.events fd)) := by
  have hinterest : (io.fireReported fd (io.events fd)).interest = update io.interest fd none := by
    rw [io.fireReported_interest h]
    rcases io.events fd with ⟨_ | _, _ | _⟩ <;> rfl
  cases hr : (io.events fd).read with
  | true =>
      have hw : (io.events fd).write = false := by simpa [hr] using hone
      have hfire : io.fireReported fd (io.events fd) = io.fire fd .read := by
        simp [IOManager.fireReported, hr, hw]
      rw [hc.cancelAll_eq (d := .read) hr (by simp), ← hinterest, hfire]
  | false =>
      have hw : (io.events fd).write = true := by simpa [Event.any, hr] using h
      have hfire : io.fireReported fd (io.events fd) = io.fire fd .write := by
        simp [IOManager.fireReported, hr, hw]
      rw [hc.cancelAll_eq (d := .write) hw (fun _ => hr), ← hinterest, hfire]

/-- With both directions armed `cancelAll` leaves the write behind, unregistered. -/
theorem Coherent.cancelAll_both (hc : io.Coherent) {fd : ℕ}
    (hboth : (io.events fd).read = true ∧ (io.events fd).write = true) :
    ∃ io', io.cancelAll fd false = .ok (true, io') ∧ io'.events fd = eventWrite ∧
      io'.interest fd = none := by
  refine ⟨_, hc.cancelAll_eq (d := .read) hboth.1 (by simp), ?_, update_self ..⟩
  refine (io.events_fire fd .read).trans ?_
  revert hboth
  rcases io.events fd with ⟨_ | _, _ | _⟩ <;> decide

theorem Coherent.cancelAllAgrees_iff (hc : io.Coherent) {fd : ℕ}
    (h : (io.events fd).any = true) :
    io.CancelAllAgrees fd ↔ ¬ ((io.events fd).read = true ∧ (io.events fd).write = true) := by
  obtain ⟨heach, hclear⟩ := hc.cancelEach_eq fd
  constructor
  · rintro ⟨b, io₁, io₂, h₁, h₂, hagree⟩ hboth
    obtain ⟨io', hio', hev, -⟩ := hc.cancelAll_both hboth
    obtain rfl : io₁ = io' := (Prod.mk.inj (Except.ok.inj (h₁.symm.trans hio'))).2
    obtain rfl := Except.ok.inj (h₂.symm.trans heach)
    rw [events, hagree.context] at hev
    exact absurd (hclear.symm.trans hev) (by decide)
  · intro hone
    exact ⟨_, _, _, hc.cancelAll_single h hone, heach, rfl, rfl, rfl, List.Perm.refl _⟩

/-- Firing the one armed direction submits every waiter of the descriptor. -/
theorem Coherent.submitted_fireReported (hc : io.Coherent) {fd : ℕ}
    (hone : ¬ ((io.events fd).read = true ∧ (io.events fd).write = true)) :
    (io.fireReported fd (io.events fd)).submitted = io.submitted ++ io.waiting fd := by
  have hr := hc.has_eq fd .read
  have hw := hc.has_eq fd .write
  unfold waiting
  cases hread : (io.events fd).read with
  | false =>
      have hnone : io.waiter? fd .read = none := by simpa [Event.has, hread] using hr.symm
      cases hwrite : (io.events fd).write with
      | false =>
          have hnone' : io.waiter? fd .write = none := by simpa [Event.has, hwrite] using hw.symm
          simp [IOManager.fireReported, hread, hwrite, hnone, hnone']
      | true =>
          simp only [IOManager.fireReported, hread, hwrite, hnone]
          rfl
  | true =>
      have hwrite : (io.events fd).write = false := by simpa [hread] using hone
      have hnone : io.waiter? fd .write = none := by simpa [Event.has, hwrite] using hw.symm
      simp only [IOManager.fireReported, hread, hwrite, hnone, Option.map_none, Option.toList_none,
        List.append_nil]
      rfl

theorem Coherent.closeDrains_iff (hc : io.Coherent) {fd : ℕ} (h : (io.events fd).any = true) :
    io.CloseDrains fd ↔ ¬ ((io.events fd).read = true ∧ (io.events fd).write = true) := by
  constructor
  · rintro ⟨io', hclose, hnone, -⟩ hboth
    obtain ⟨io₁, h₁, hev, hreg⟩ := hc.cancelAll_both hboth
    -- the descriptor is no longer registered, so `delAll` fails and changes nothing
    have hdel : (io₁.delAll fd false).2 = io₁ := by
      have hleave : io₁.leaveAll fd false = none := by
        unfold leaveAll
        split
        · rfl
        · split
          · rfl
          · simp [epollCtl, hreg]
      simp [delAll, hleave]
    simp only [close, h₁, hdel, bind, Except.bind, pure, Except.pure] at hclose
    obtain rfl := Except.ok.inj hclose
    exact absurd (hnone.symm.trans hev) (by decide)
  · intro hone
    have hclear := (hc.cancelEach_eq fd).2
    refine ⟨_, ?_, hclear, ?_⟩
    · have hdel : ((io.fireReported fd (io.events fd)).delAll fd false).2 =
          io.fireReported fd (io.events fd) := by
        have hleave : (io.fireReported fd (io.events fd)).leaveAll fd false = none := by
          unfold leaveAll
          rw [show ((io.fireReported fd (io.events fd)).context fd).events = eventNone from hclear]
          split <;> rfl
        simp [delAll, hleave]
      simp only [close, hc.cancelAll_single h hone, hdel, bind, Except.bind, pure, Except.pure]
    · rw [hc.submitted_fireReported hone]

/-- On a descriptor with an armed event, `delAll` never agrees with `delEvent`;
`cancelAll` agrees with `cancelEvent`, and `close` drains the descriptor, exactly
when not both directions are armed. -/
theorem bulk_operations_agree_iff (io : IOManager ω) (fd : ℕ) (hc : io.Coherent)
    (h : (io.events fd).any = true) :
    ¬ io.DelAllAgrees fd ∧
      (io.CancelAllAgrees fd ↔ ¬ ((io.events fd).read = true ∧ (io.events fd).write = true)) ∧
      (io.CloseDrains fd ↔ ¬ ((io.events fd).read = true ∧ (io.events fd).write = true)) :=
  ⟨hc.not_delAllAgrees h, hc.cancelAllAgrees_iff h, hc.closeDrains_iff h⟩

/-- Descriptor 3 with a fiber waiting to read. -/
def readArmed : IOManager ℕ := new.arm 3 .read ⟨1, false, 7⟩

theorem coherent_readArmed : readArmed.Coherent := coherent_new.arm (by decide) rfl _

theorem bulk_operations_agree_read_only :
    ¬ readArmed.DelAllAgrees 3 ∧ readArmed.CancelAllAgrees 3 ∧ readArmed.CloseDrains 3 := by
  obtain ⟨hdel, hcancel, hclose⟩ := bulk_operations_agree_iff readArmed 3 coherent_readArmed rfl
  exact ⟨hdel, hcancel.mpr (by decide), hclose.mpr (by decide)⟩

/-- Descriptor 3 with a callback waiting to write as well. -/
def bothArmed : IOManager ℕ := readArmed.arm 3 .write ⟨1, true, 8⟩

theorem coherent_bothArmed : bothArmed.Coherent := coherent_readArmed.arm (by decide) rfl _

/-- With both directions armed each of the three statements fails. -/
theorem bulk_operations_disagree :
    bothArmed.Coherent ∧ (bothArmed.events 3).any = true ∧
      ¬ bothArmed.DelAllAgrees 3 ∧ ¬ bothArmed.CancelAllAgrees 3 ∧ ¬ bothArmed.CloseDrains 3 :=
  ⟨coherent_bothArmed, rfl, coherent_bothArmed.not_delAllAgrees rfl,
    fun h => (coherent_bothArmed.cancelAllAgrees_iff rfl).mp h ⟨rfl, rfl⟩,
    fun h => (coherent_bothArmed.closeDrains_iff rfl).mp h ⟨rfl, rfl⟩⟩

end IOManager

end Xzmjx.IOManagerModel
