import Xzmjx.HttpBodyBytes

/-!
# The announced length of a body

A request announces the length of its body: by `Content-Length`, or chunk by chunk. What
has been announced and has arrived is read off the incoming bytes with the step of
`http_parser` alone, without the callbacks and without any request; the body that the
callbacks gather never gets longer.
-/
namespace Xzmjx.HttpParserModel
open PushParser (openAfter)

/-- An action behind which a call reads nothing. -/
def ends : Act → Bool
  | .fail _ => true
  | .stop => true
  | _ => false

theorem any_ends_of_openAfter {o o' : Option Element} {as : List Act}
    (h : openAfter o as = some o') : as.any ends = false := by
  induction as generalizing o with
  | nil => rfl
  | cons a as ih =>
      cases a with
      | mark k => exact ih h
      | emit k thr adv => exact ih h
      | notify n => exact ih h
      | fail e => cases h
      | stop => cases h

theorem openAfter_of_any_ends (o : Option Element) {as : List Act} (h : as.any ends = false) :
    ∃ o', openAfter o as = some o' := by
  induction as generalizing o with
  | nil => exact ⟨o, rfl⟩
  | cons a as ih =>
      obtain ⟨ha, has⟩ : ends a = false ∧ as.any ends = false := by simpa using h
      cases a with
      | mark k => exact ih _ has
      | emit k thr adv => exact ih _ has
      | notify n => exact ih _ has
      | fail e => cases ha
      | stop => cases ha

/-- What is still to come of the length that was announced last. -/
def HttpParser.outstanding (p : HttpParser) : ℕ := if p.state.inBody then p.contentLength else 0

namespace HttpParser
variable {p : HttpParser} {ch : UInt8} {o : Option Element}

theorem outstanding_of_not_inBody (h : p.state.inBody = false) : p.outstanding = 0 := by
  simp [outstanding, h]

theorem Shape.contentLength_pos (h : p.Shape o) (hin : p.state.inBody = true) :
    0 < p.contentLength := by
  have hopen : p.OpenBody → 0 < p.contentLength := by
    intro hbody
    cases hbody with
    | identity _ hlen _ => exact hlen
    | chunk _ hlen _ => exact hlen
    | chunkEnd hs _ _ =>
        rw [hs] at hin
        cases hin
  cases h with
  | plain hs _ => cases hst : p.state <;> simp_all [State.plain, State.inBody]
  | url hs _ => cases hst : p.state <;> simp_all [State.inUrl, State.inBody]
  | headerField hs _ => simp [hs, State.inBody] at hin
  | headerValue hs => simp [hs, State.inBody] at hin
  | body hbody => exact hopen hbody
  | bodyCut hbody => exact hopen hbody

/-- A byte of a body is one that was outstanding. -/
theorem outstanding_step (h : p.Shape o) (hin : p.state.inBody = true) :
    (p.step ch).1.outstanding + 1 = p.outstanding := by
  have hpos := h.contentLength_pos hin
  cases hs : p.state with
  | chunkData =>
      have hstep : p.step ch = p.chunkData := by simp [step, hs, parsingHeader, dispatch]
      rw [hstep, chunkData, outstanding, outstanding, hs]
      by_cases hlast : p.contentLength - 1 = 0
      · simp only [hlast, State.inBody, if_true, Bool.false_eq_true, if_false]
        omega
      · simp only [hlast, State.inBody, if_true, if_false]
        omega
  | bodyIdentity =>
      have hstep : p.step ch = p.bodyIdentity := by simp [step, hs, parsingHeader, dispatch]
      rw [hstep, bodyIdentity]
      dsimp only
      split_ifs with hlast
      · have hnew : (messageDone
            { p with contentLength := p.contentLength - 1, state := .messageDone }).1.state.inBody =
            false := by
          show (newMessage _).inBody = false
          unfold newMessage
          split <;> rfl
        rw [outstanding_of_not_inBody hnew, outstanding, hs]
        simp only [State.inBody, if_true]
        omega
      · simp only [outstanding, hs, State.inBody, if_true]
        omega
  | _ =>
      rw [hs] at hin
      cases hin

end HttpParser

/-- What the bytes of a connection announce: the lengths, whether a request is complete, and
whether the parser has failed or stopped for an upgrade. -/
structure BodyScan where
  parser : HttpParser
  announced : ℕ
  complete : Bool
  ended : Bool

namespace BodyScan

def new : BodyScan := ⟨.init, 0, false, false⟩

/-- A length is announced by the byte behind which a body or a chunk begins. -/
def byte (d : BodyScan) (b : UInt8) : BodyScan :=
  if d.ended then d
  else
    let (p, as) := d.parser.step b
    { parser := p
      announced := d.announced + if d.parser.state.inBody then 0 else p.outstanding
      complete := d.complete || as.contains (.notify .messageComplete)
      ended := as.any ends }

/-- The bytes of one read. -/
def read (d : BodyScan) (bs : List UInt8) : BodyScan :=
  bs.foldl byte { d with parser := machine.enter d.parser }

/-- What has arrived of the announced lengths. -/
def arrived (d : BodyScan) : ℕ := d.announced - d.parser.outstanding

/-- The parser is in good shape, and no more is outstanding than was announced. -/
structure Sound (d : BodyScan) : Prop where
  shape : d.ended = false → ∃ o, d.parser.Shape o
  le : d.parser.outstanding ≤ d.announced

variable {d : BodyScan} {b : UInt8} {bs : List UInt8}

theorem byte_of_ended (h : d.ended = true) : d.byte b = d := if_pos h

theorem byte_of_live (h : d.ended = false) :
    d.byte b =
      { parser := (d.parser.step b).1
        announced :=
          d.announced + if d.parser.state.inBody then 0 else (d.parser.step b).1.outstanding
        complete := d.complete || (d.parser.step b).2.contains (.notify .messageComplete)
        ended := (d.parser.step b).2.any ends } :=
  if_neg (Bool.eq_false_iff.mp h)

/-- One byte: it has arrived if it belongs to a body. -/
theorem Sound.byte (hd : d.Sound) (b : UInt8) :
    (d.byte b).Sound ∧
      (d.ended = false →
        (d.byte b).arrived = d.arrived + if d.parser.state.inBody then 1 else 0) := by
  by_cases hend : d.ended = true
  · rw [byte_of_ended hend]
    exact ⟨hd, fun hlive => by rw [hend] at hlive; cases hlive⟩
  · rw [Bool.not_eq_true] at hend
    obtain ⟨o, hshape⟩ := hd.shape hend
    have hle := hd.le
    have hnext : (d.parser.step b).2.any ends = false →
        ∃ o, (d.parser.step b).1.Shape o := by
      intro hrun
      obtain ⟨o', ho'⟩ := openAfter_of_any_ends o hrun
      exact ⟨o', (HttpParser.lands_step hshape).shape o' ho'⟩
    rw [byte_of_live hend]
    by_cases hin : d.parser.state.inBody = true
    · have hone : (d.parser.step b).1.outstanding + 1 = d.parser.outstanding :=
        HttpParser.outstanding_step hshape hin
      refine ⟨⟨hnext, ?_⟩, fun _ => ?_⟩
      · rw [if_pos hin]
        dsimp only
        omega
      · simp only [arrived, if_pos hin]
        omega
    · have hzero := HttpParser.outstanding_of_not_inBody (Bool.eq_false_iff.mpr hin)
      refine ⟨⟨hnext, ?_⟩, fun _ => ?_⟩
      · rw [if_neg hin]
        exact Nat.le_add_left _ _
      · simp only [arrived, if_neg hin, hzero]
        omega

theorem Sound.enter (hd : d.Sound) : Sound { d with parser := machine.enter d.parser } := by
  refine ⟨fun hlive => ?_, hd.le⟩
  obtain ⟨o, hshape⟩ := hd.shape hlive
  exact ⟨_, HttpRequestModel.resting_of_shape (p := ⟨d.parser, {}, none⟩) hshape⟩

/-- Reading on takes nothing back. -/
theorem Sound.foldl (hd : d.Sound) (bs : List UInt8) :
    (bs.foldl BodyScan.byte d).Sound ∧ d.arrived ≤ (bs.foldl BodyScan.byte d).arrived ∧
      (d.complete = true → (bs.foldl BodyScan.byte d).complete = true) := by
  induction bs generalizing d with
  | nil => exact ⟨hd, Nat.le_refl _, id⟩
  | cons b bs ih =>
      obtain ⟨hsound, hgrow⟩ := hd.byte b
      obtain ⟨hlast, hle, hcomplete⟩ := ih hsound
      refine ⟨hlast, Nat.le_trans ?_ hle, fun h => hcomplete ?_⟩
      · by_cases hend : d.ended = true
        · exact Nat.le_of_eq (congrArg arrived (byte_of_ended hend).symm)
        · rw [hgrow (Bool.eq_false_iff.mpr hend)]
          exact Nat.le_add_right _ _
      · by_cases hend : d.ended = true
        · rwa [byte_of_ended hend]
        · rw [byte_of_live (Bool.eq_false_iff.mpr hend), h]
          rfl

theorem Sound.read (hd : d.Sound) (bs : List UInt8) :
    (d.read bs).Sound ∧ (d.complete = true → (d.read bs).complete = true) :=
  ⟨(hd.enter.foldl bs).1, (hd.enter.foldl bs).2.2⟩

theorem new_sound : new.Sound := ⟨fun _ => ⟨none, .plain rfl ⟨rfl, rfl⟩⟩, Nat.le_refl _⟩

end BodyScan

end Xzmjx.HttpParserModel

namespace Xzmjx.HttpRequestModel
open HttpParserModel PushParser

/-! ### The end of a request among the actions -/

section Actions
variable {c : RequestRun} {b : UInt8} {as : List Act}

theorem act_finished_le (a : Act) (h : (act requestSettings b c a).client.finished = true) :
    c.client.finished = true ∨ a = .notify .messageComplete := by
  obtain ⟨s, f, g, t, n⟩ := c
  cases a with
  | mark k => exact .inl h
  | fail e => exact .inl h
  | stop => exact .inl h
  | notify m =>
      cases m with
      | messageComplete => exact .inr rfl
      | _ => exact .inl h
  | emit k thr adv =>
      refine .inl ?_
      cases f with
      | none => exact h
      | some f =>
          obtain ⟨j, bs⟩ := f
          by_cases hj : j = k
          · subst hj
            cases hd : requestSettings.data j (if thr then bs ++ [b] else bs) g with
            | ok g' => simpa [act, hd, data_finished hd] using h
            | error e => simpa [act, hd] using h
          · simpa [act, hj] using h

theorem acts_finished_le (h : (acts requestSettings b c as).client.finished = true) :
    c.client.finished = true ∨ .notify .messageComplete ∈ as := by
  induction as generalizing c with
  | nil => exact .inl h
  | cons a as ih =>
      by_cases hr : c.status = .running
      · rw [acts_cons_running hr] at h
        rcases ih h with hfin | hmem
        · rcases act_finished_le a hfin with hfin | rfl
          · exact .inl hfin
          · exact .inr List.mem_cons_self
        · exact .inr (List.mem_cons_of_mem _ hmem)
      · rw [acts_of_ne_running hr] at h
        exact .inl h

/-- Actions that are all taken report the end of a request that is among them. -/
theorem acts_finished_of_running (hrun : (acts requestSettings b c as).status = .running)
    (h : .notify .messageComplete ∈ as) :
    (acts requestSettings b c as).client.finished = true := by
  induction as generalizing c with
  | nil => cases h
  | cons a as ih =>
      by_cases hr : c.status = .running
      · rw [acts_cons_running hr] at hrun ⊢
        rcases List.mem_cons.mp h with rfl | h
        · exact acts_finished rfl
        · exact ih hrun h
      · rw [acts_of_ne_running hr] at hrun
        exact absurd hrun hr

theorem acts_stopped_ends (hr : c.status = .running)
    (h : (acts requestSettings b c as).status = .stopped) : as.any ends = true := by
  induction as generalizing c with
  | nil =>
      rw [acts, hr] at h
      cases h
  | cons a as ih =>
      rw [acts_cons_running hr] at h
      by_cases hr' : (act requestSettings b c a).status = .running
      · rw [List.any_cons, ih hr' h, Bool.or_true]
      · rw [acts_of_ne_running hr'] at h
        obtain rfl := eq_stop_of_act hr h
        rfl

end Actions

/-! ### What is gathered has arrived -/

/-- The scan of the bytes that a call has read so far. -/
structure Follows (d : BodyScan) (c : RequestRun) : Prop where
  sound : d.Sound
  le : gathered c ≤ d.arrived
  finished : c.client.finished = true → d.complete = true
  /-- A call that has not failed has gathered all of it. -/
  exact : (∀ e, c.status ≠ .failed e) →
    gathered c = d.arrived ∧ (d.complete = true → c.client.finished = true)
  running : c.status = .running →
    d.ended = false ∧ d.parser = c.ctrl ∧ c.ctrl.Shape (c.frag.map Prod.fst)
  stopped : c.status = .stopped → d.ended = true ∧ held c = 0

section Scan
variable {d : BodyScan} {c : RequestRun} {p : Parser HttpParser HttpErrno RequestData}

/-- A byte that a running call reads. -/
theorem Follows.byte_running (h : Follows d c) (hr : c.status = .running) (b : UInt8) :
    Follows (d.byte b) (byte machine requestSettings c b) := by
  obtain ⟨hlive, hparser, hshape⟩ := h.running hr
  obtain ⟨hsound, hgrow⟩ := h.sound.byte b
  obtain ⟨hgathered, hheld⟩ := gathered_byte (b := b) hr hshape
  obtain ⟨hclient, -, hstatus⟩ := advance_client
    (acts requestSettings b { c with ctrl := (c.ctrl.step b).1 } (c.ctrl.step b).2) b
  obtain ⟨hall, hfinished⟩ := h.exact fun e => by rw [hr]; exact fun hc => by cases hc
  have hbyte := byte_eq_advance (b := b) hr
  have heq : gathered (byte machine requestSettings c b) = (d.byte b).arrived := by
    rw [hgathered, hall, hgrow hlive, hparser]
  refine ⟨hsound, Nat.le_of_eq heq, ?_, fun hgood => ⟨heq, ?_⟩, ?_, ?_⟩
  · intro hfin
    rw [hbyte, hclient] at hfin
    rw [BodyScan.byte_of_live hlive, hparser]
    rcases acts_finished_le hfin with hold | hmem
    · exact Bool.or_eq_true_iff.mpr (.inl (h.finished hold))
    · exact Bool.or_eq_true_iff.mpr (.inr (List.contains_iff_mem.mpr hmem))
  · intro hcomplete
    rw [BodyScan.byte_of_live hlive, hparser] at hcomplete
    rw [hbyte, hclient]
    rw [hbyte, hstatus] at hgood
    rcases Bool.or_eq_true_iff.mp hcomplete with hold | hmem
    · exact acts_finished (hfinished hold)
    · cases hst : (acts requestSettings b { c with ctrl := (c.ctrl.step b).1 }
          (c.ctrl.step b).2).status with
      | running => exact acts_finished_of_running hst (List.contains_iff_mem.mp hmem)
      | stopped =>
          exact acts_stopped_finished (HttpParser.lands_step hshape).stop hr hst
      | failed e => exact absurd hst (hgood e)
  · intro hrun
    obtain ⟨-, hctrl, -, hopen⟩ := PushParser.byte_running hrun
    rw [BodyScan.byte_of_live hlive, hparser]
    refine ⟨any_ends_of_openAfter hopen, hctrl.symm, ?_⟩
    rw [hctrl]
    exact (HttpParser.lands_step hshape).shape _ hopen
  · intro hstop
    refine ⟨?_, hheld hstop⟩
    rw [hbyte, hstatus] at hstop
    rw [BodyScan.byte_of_live hlive, hparser]
    exact acts_stopped_ends (c := { c with ctrl := (c.ctrl.step b).1 }) hr hstop

theorem Follows.byte (h : Follows d c) (b : UInt8) :
    Follows (d.byte b) (byte machine requestSettings c b) := by
  cases hst : c.status with
  | running => exact h.byte_running hst b
  | stopped =>
      rw [byte_of_ne_running (by rw [hst]; exact fun hc => by cases hc),
        BodyScan.byte_of_ended (h.stopped hst).1]
      exact h
  | failed e =>
      rw [byte_of_ne_running (by rw [hst]; exact fun hc => by cases hc)]
      obtain ⟨hsound, hle, hcomplete⟩ := h.sound.foldl [b]
      refine ⟨hsound, Nat.le_trans h.le hle, fun hfin => hcomplete (h.finished hfin),
        fun hgood => absurd hst (hgood e), fun hr => ?_, fun hr => ?_⟩
      · cases hst.symm.trans hr
      · cases hst.symm.trans hr

theorem Follows.run (h : Follows d c) (bs : Bytes) :
    Follows (bs.foldl BodyScan.byte d) (run machine requestSettings c bs) := by
  induction bs generalizing d c with
  | nil => exact h
  | cons b bs ih => exact ih (h.byte b)

/-- The scan of all that a parser has read without an error and without the end of a request. -/
structure Scanned (d : BodyScan) (p : Parser HttpParser HttpErrno RequestData) : Prop where
  sound : d.Sound
  live : d.ended = false
  parser : d.parser = p.ctrl
  arrived : d.arrived = p.client.data.body.length
  complete : d.complete = true → p.client.finished = true
  finished : p.client.finished = false
  resting : Resting p
  errno : p.errno = none

theorem Scanned.start (h : Scanned d p) :
    Follows { d with parser := machine.enter d.parser } (PushParser.start machine p) := by
  have heq : gathered (PushParser.start machine p) = d.arrived :=
    (gathered_start p).trans h.arrived.symm
  refine ⟨h.sound.enter, Nat.le_of_eq heq, fun hfin => ?_, fun _ => ⟨heq, h.complete⟩,
    fun _ => ⟨h.live, congrArg machine.enter h.parser, h.resting.start_shape⟩, fun hc => ?_⟩
  · have hnot : (PushParser.start machine p).client.finished = false := h.finished
    rw [hnot] at hfin
    cases hfin
  · cases hc

/-- One call: the body gets no longer than what has arrived, and without an error it is all of
it. -/
theorem Scanned.feed (h : Scanned d p) (bs : Bytes) :
    (feed machine requestSettings p bs).1.client.data.body.length ≤ (d.read bs).arrived ∧
      ((feed machine requestSettings p bs).1.client.finished = true →
        (d.read bs).complete = true) ∧
      ((feed machine requestSettings p bs).1.errno = none →
        (feed machine requestSettings p bs).1.client.data.body.length = (d.read bs).arrived ∧
          ((d.read bs).complete = true →
            (feed machine requestSettings p bs).1.client.finished = true)) := by
  have hrun := h.start.run bs
  obtain ⟨hle, heq⟩ := finish_body fun hstop => (hrun.stopped hstop).2
  rw [PushParser.feed, h.errno]
  dsimp only
  refine ⟨Nat.le_trans hle hrun.le, fun hfin => ?_, fun herr => ?_⟩
  · rw [finish_finished] at hfin
    exact hrun.finished hfin
  · have hgood : ∀ e, (PushParser.run machine requestSettings (PushParser.start machine p)
        bs).status ≠ .failed e := by
      intro e hst
      simp [finish, hst] at herr
    obtain ⟨hall, hcomplete⟩ := hrun.exact hgood
    rw [finish_finished]
    exact ⟨(heq herr).trans hall, hcomplete⟩

/-- A call without an error that does not finish a request. -/
theorem Scanned.next (h : Scanned d p) {bs : Bytes} (hne : bs ≠ [])
    (herr : (PushParser.feed machine requestSettings p bs).1.errno = none)
    (hfin : (PushParser.feed machine requestSettings p bs).1.client.finished = false) :
    Scanned (d.read bs) (PushParser.feed machine requestSettings p bs).1 := by
  have hrun := h.start.run bs
  obtain ⟨-, -, hexact⟩ := h.feed bs
  obtain ⟨hall, hcomplete⟩ := hexact herr
  obtain ⟨-, hrest⟩ := feed_spec h.resting h.errno hne herr
  have hfeed : PushParser.feed machine requestSettings p bs = finish machine requestSettings
      (PushParser.run machine requestSettings (PushParser.start machine p) bs) := by
    rw [PushParser.feed, h.errno]
  have hst : (PushParser.run machine requestSettings (PushParser.start machine p) bs).status =
      .running := by
    cases hst : (PushParser.run machine requestSettings (PushParser.start machine p) bs).status with
    | running => rfl
    | stopped =>
        rw [hfeed, finish_finished, (h.resting.stopped hst).1] at hfin
        cases hfin
    | failed e =>
        rw [hfeed] at herr
        simp [finish, hst] at herr
  obtain ⟨hlive, hparser, -⟩ := hrun.running hst
  refine ⟨hrun.sound, hlive, ?_, hall.symm, hcomplete, hfin, (hrest hfin).1, herr⟩
  rw [hfeed] at herr ⊢
  exact hparser.trans (finish_running hst herr).2.symm

theorem scanned_new : Scanned .new HttpRequestParser.new.parser :=
  ⟨BodyScan.new_sound, rfl, rfl, rfl, fun h => (Bool.false_ne_true h).elim, rfl, new_resting, rfl⟩

end Scan

end Xzmjx.HttpRequestModel
