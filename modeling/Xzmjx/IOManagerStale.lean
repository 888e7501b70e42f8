import Xzmjx.IOManagerSpecs
import Xzmjx.StepSystem

/-!
# Stale epoll records

`wait` fetches its records before it takes the mutex of a descriptor, so other
threads can change the mask in between. A state is the IO manager together with
the records that were fetched and not yet dispatched.
-/
namespace Xzmjx.IOManagerModel
open StepSystem FallibleCalls

variable {ω : Type*}

structure Window (ω : Type*) where
  io : IOManager ω
  fetched : List Record

inductive Act (ω : Type*)
  | addEvent (fd : ℕ) (event : Event) (cb : Option ω) (self : ℕ) (fiber : ω) (fails : Bool)
  | delEvent (fd : ℕ) (event : Event) (fails : Bool)
  | cancelEvent (fd : ℕ) (event : Event) (fails : Bool)
  /-- `epoll_wait` reports a record. -/
  | fetch (record : Record)
  /-- The dispatch of the `i`-th record that was fetched. -/
  | dispatch (i : ℕ) (fails : Bool)

/-- A record reports only what the descriptor is registered for; errors and hang-ups
are reported for every registered descriptor. -/
def reportable (interest : ℕ → Option Event) (r : Record) : Bool :=
  match interest r.fd with
  | none => false
  | some events => (!r.epollin || events.read) && (!r.epollout || events.write)

namespace Window

def new : Window ω := ⟨IOManager.new, []⟩

/-- One step of some thread, or the assertion that fails in it. -/
def perform (s : Window ω) : Act ω → Except Fault (Window ω)
  | .addEvent fd event cb self fiber fails => do
      let (_, io) ← s.io.addEvent fd event cb (some self) (some fiber) fails
      return { s with io }
  | .delEvent fd event fails => do
      let (_, io) ← s.io.delEvent fd event fails
      return { s with io }
  | .cancelEvent fd event fails => do
      let (_, io) ← s.io.cancelEvent fd event fails
      return { s with io }
  | .fetch r =>
      return if reportable s.io.interest r then { s with fetched := s.fetched ++ [r] } else s
  | .dispatch i fails =>
      match s.fetched[i]? with
      | none => return s
      | some r => do
          let io ← s.io.dispatch r fails
          return ⟨io, s.fetched.eraseIdx i⟩

def step (s : Window ω) (a : Act ω) : Option (Window ω) := (s.perform a).toOption

theorem perform_of_step {s s' : Window ω} {a : Act ω} (h : s.step a = some s') :
    s.perform a = .ok s' := eq_ok_of_toOption h

/-- The assertion of `triggerContext` does not fail in this step. -/
def TriggersArmed (s : Window ω) (a : Act ω) : Prop :=
  ∀ f, s.perform a = .error f → f ≠ .triggerArmed

/-- A record that is dispatched does not report an armed direction together with one
that is not armed any more, unless `epoll_ctl` fails. -/
def Unmixed (s : Window ω) : Act ω → Prop
  | .dispatch i fails => ∀ r ∈ s.fetched[i]?, fails = true ∨
      s.io.events r.fd &&& s.io.realEvent r = eventNone ∨
      s.io.realEvent r &&& ~~~s.io.events r.fd = eventNone
  | _ => True

theorem coherent_perform {s s' : Window ω} {a : Act ω} (hc : s.io.Coherent)
    (h : s.perform a = .ok s') : s'.io.Coherent := by
  cases a with
  | addEvent fd event cb self fiber fails =>
      obtain ⟨⟨r, io⟩, hadd, hret⟩ := bind_eq_ok h
      cases hret
      obtain ⟨-, rfl⟩ | ⟨d, -, -, hfd, hd, rfl⟩ := hc.addEvent_cases hadd
      · exact hc.ensureContext fd
      · exact (hc.ensureContext fd).arm hfd hd _
  | delEvent fd event fails =>
      obtain ⟨⟨b, io⟩, hdel, hret⟩ := bind_eq_ok h
      cases hret
      obtain ⟨-, rfl⟩ | ⟨d, -, -, hd, rfl⟩ := hc.delEvent_cases hdel
      · exact hc
      · exact hc.drop hd
  | cancelEvent fd event fails =>
      obtain ⟨⟨b, io⟩, hcancel, hret⟩ := bind_eq_ok h
      cases hret
      obtain ⟨-, rfl⟩ | ⟨d, -, -, hd, rfl⟩ := hc.cancelEvent_cases hcancel
      · exact hc
      · exact hc.fire hd
  | fetch r =>
      cases h
      split <;> exact hc
  | dispatch i fails =>
      simp only [perform] at h
      split at h
      · cases h
        exact hc
      · obtain ⟨io, hdisp, hret⟩ := bind_eq_ok h
        cases hret
        obtain rfl | ⟨hreal, rfl⟩ := hc.dispatch_cases hdisp
        · exact hc
        · exact hc.fireReported hreal

/-- The guard of the dispatch is enough exactly for unmixed records. -/
theorem triggersArmed_iff {s : Window ω} (hc : s.io.Coherent) (a : Act ω) :
    s.TriggersArmed a ↔ s.Unmixed a := by
  cases a with
  | addEvent fd event cb self fiber fails =>
      refine iff_of_true (fun f h => ?_) trivial
      obtain he | ⟨p, -, he⟩ := bind_eq_error h
      · exact IOManager.addEvent_error he
      · cases he
  | delEvent fd event fails =>
      refine iff_of_true (fun f h => ?_) trivial
      obtain he | ⟨p, -, he⟩ := bind_eq_error h
      · rw [IOManager.delEvent_error he]
        decide
      · cases he
  | cancelEvent fd event fails =>
      refine iff_of_true (fun f h => ?_) trivial
      obtain he | ⟨p, -, he⟩ := bind_eq_error h
      · exact hc.cancelEvent_error he
      · cases he
  | fetch r => exact iff_of_true (fun f h => nomatch h) trivial
  | dispatch i fails =>
      simp only [TriggersArmed, Unmixed, perform]
      cases s.fetched[i]? with
      | none => exact iff_of_true (fun f h => nomatch h) (fun r h => nomatch h)
      | some r =>
          simp only [Option.mem_def, Option.some.injEq, forall_eq']
          rw [← not_iff_not, ← hc.dispatch_error_iff]
          constructor
          · intro h
            push Not at h
            obtain ⟨f, hf, rfl⟩ := h
            obtain he | ⟨io, -, he⟩ := bind_eq_error hf
            · exact he
            · cases he
          · intro h hall
            exact hall .triggerArmed (by rw [h]; rfl) rfl

/-- A run trips the assertion of `triggerContext` nowhere iff every record it
dispatches is unmixed at that moment. -/
theorem trigger_assertion_holds_iff (acts : List (Act ω)) :
    AllSteps step TriggersArmed (new : Window ω) acts ↔
      AllSteps step Unmixed (new : Window ω) acts := by
  refine allSteps_iff (fun s => s.io.Coherent) (fun s a hc => triggersArmed_iff hc a) ?_
    IOManager.coherent_new acts
  intro s a s' hc _ h
  exact coherent_perform hc (perform_of_step h)

/-- Both directions of descriptor 3 are armed and reported; the write is deleted
before the record is dispatched, which then triggers it. -/
theorem trigger_assertion_fails :
    ¬ AllSteps step TriggersArmed (new : Window ℕ)
      [.addEvent 3 eventRead none 1 7 false, .addEvent 3 eventWrite none 1 8 false,
        .fetch { fd := 3, epollin := true, epollout := true }, .delEvent 3 eventWrite false,
        .dispatch 0 false] := by
  intro h
  obtain ⟨-, h⟩ := h
  obtain ⟨-, h⟩ := h _ rfl
  obtain ⟨-, h⟩ := h _ rfl
  obtain ⟨-, h⟩ := h _ rfl
  exact (h _ rfl).1 .triggerArmed rfl rfl

end Window

end Xzmjx.IOManagerModel
