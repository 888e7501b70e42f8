import Xzmjx.HttpParserModel

/-!
# Invariants of http_parser

Which element is open in which state, and what the first line of a request can
do. The first part carries the cuts that do not show, the second one the cut
that every request has and that does.
-/
namespace Xzmjx.HttpParserModel
open PushParser (openAfter)

/-- No loop over a header field or value is in progress. -/
structure HttpParser.Calm (p : HttpParser) : Prop where
  inLoop : p.inLoop = false
  fast : p.fast = 0

/-- The states in which nothing is open. -/
def State.plain : State → Bool
  | .reqSchema => false
  | .reqSchemaSlash => false
  | .reqSchemaSlashSlash => false
  | .reqServerStart => false
  | .reqServer => false
  | .reqServerWithAt => false
  | .reqPath => false
  | .reqQueryStringStart => false
  | .reqQueryString => false
  | .reqFragmentStart => false
  | .reqFragment => false
  | .headerField => false
  | .headerValue => false
  | .chunkData => false
  | .chunkDataAlmostDone => false
  | .bodyIdentity => false
  | _ => true

/-- The states of a URL. -/
def State.inUrl : State → Bool
  | .reqSchema => true
  | .reqSchemaSlash => true
  | .reqSchemaSlashSlash => true
  | .reqServerStart => true
  | .reqServer => true
  | .reqServerWithAt => true
  | .reqPath => true
  | .reqQueryStringStart => true
  | .reqQueryString => true
  | .reqFragmentStart => true
  | .reqFragment => true
  | _ => false

/-- A body is being read. -/
inductive HttpParser.OpenBody (p : HttpParser) : Prop
  | identity (h : p.state = .bodyIdentity) (hlen : 0 < p.contentLength) (hc : p.Calm)
  | chunk (h : p.state = .chunkData) (hlen : 0 < p.contentLength) (hc : p.Calm)
  | chunkEnd (h : p.state = .chunkDataAlmostDone) (hlen : p.contentLength = 0) (hc : p.Calm)

/-- The element that is open, for each state. -/
inductive HttpParser.Shape (p : HttpParser) : Option Element → Prop
  | plain (h : p.state.plain = true) (hc : p.Calm) : Shape p none
  | url (h : p.state.inUrl = true) (hc : p.Calm) : Shape p (some .url)
  | headerField (h : p.state = .headerField) (hf : p.fast = 0) : Shape p (some .headerField)
  | headerValue (h : p.state = .headerValue) : Shape p (some .headerValue)
  | body (h : p.OpenBody) : Shape p (some .body)
  | bodyCut (h : p.OpenBody) : Shape p none

/-- Stopping is announced as the completion of a message. -/
def stopsComplete : List Act → Bool
  | [] => true
  | .notify .messageComplete :: _ => true
  | .stop :: _ => false
  | _ :: as => stopsComplete as

/-- A step ends in a state that fits the element it leaves open. -/
structure Lands (o : Option Element) (r : Step) : Prop where
  shape : ∀ o', openAfter o r.2 = some o' → r.1.Shape o'
  stop : stopsComplete r.2 = true

namespace HttpParser
variable {p : HttpParser} {ch : UInt8} {o : Option Element}

theorem lands_halt {q : HttpParser} {as : List Act} (h : openAfter o as = none)
    (hs : stopsComplete as = true) : Lands o (q, as) := by
  refine ⟨?_, hs⟩
  intro o' ho
  rw [h] at ho
  cases ho

theorem lands_fail (e : HttpErrno) : Lands o (p.fail e) := lands_halt rfl rfl

theorem lands_silent {q : HttpParser} (h : q.Shape o) : Lands o (q, []) := by
  refine ⟨?_, rfl⟩
  intro o' ho
  cases ho
  exact h

theorem lands_goto {s : State} (hs : s.plain = true) (hc : p.Calm) : Lands none (p.goto s) :=
  lands_silent (.plain hs ⟨hc.inLoop, hc.fast⟩)

theorem lands_mark {q : HttpParser} {k : Element} {as : List Act} (h : Lands (some k) (q, as)) :
    Lands none (q, .mark k :: as) := ⟨h.shape, h.stop⟩

theorem lands_emit {q : HttpParser} {k : Element} {thr adv : Bool} {as : List Act}
    (h : Lands none (q, as)) : Lands (some k) (q, .emit k thr adv :: as) := by
  refine ⟨?_, h.stop⟩
  intro o' ho
  exact h.shape o' (by simpa [openAfter] using ho)

theorem lands_notify {q : HttpParser} {n : Notice} {as : List Act} (h : Lands o (q, as)) :
    Lands o (q, .notify n :: as) := by
  refine ⟨h.shape, ?_⟩
  cases n with
  | messageComplete => rfl
  | _ => exact h.stop

theorem newMessage_plain (p : HttpParser) : p.newMessage.plain = true := by
  unfold newMessage
  split <;> rfl

theorem lands_messageDone (hc : p.Calm) : Lands none p.messageDone := by
  by_cases hu : p.upgrade
  · rw [messageDone, if_pos hu]
    exact lands_halt rfl rfl
  · rw [messageDone, if_neg hu]
    exact lands_notify (lands_silent (.plain (newMessage_plain p) ⟨hc.inLoop, hc.fast⟩))

theorem lands_headersDone (hc : p.Calm) : Lands none (p.headersDone ch) := by
  unfold headersDone
  dsimp only
  split_ifs with _ _ _ _ hlen
  · exact lands_fail _
  · exact lands_halt rfl rfl
  · exact lands_goto rfl ⟨hc.inLoop, hc.fast⟩
  · exact lands_fail _
  · exact lands_notify (lands_silent (.plain (newMessage_plain _) ⟨hc.inLoop, hc.fast⟩))
  · refine lands_silent (.bodyCut (.identity rfl ?_ ⟨hc.inLoop, hc.fast⟩))
    exact Nat.pos_of_ne_zero fun hzero => hlen (.inl hzero)

theorem lands_headersAlmostDone (hc : p.Calm) : Lands none (p.headersAlmostDone ch) := by
  unfold headersAlmostDone
  split_ifs
  · exact lands_fail _
  · exact lands_notify (lands_messageDone ⟨hc.inLoop, hc.fast⟩)
  · exact lands_fail _
  · exact lands_notify (lands_headersDone ⟨hc.inLoop, hc.fast⟩)

theorem lands_headerFieldStart (hc : p.Calm) : Lands none (p.headerFieldStart ch) := by
  unfold headerFieldStart
  split_ifs
  · exact lands_goto rfl hc
  · exact lands_headersAlmostDone ⟨hc.inLoop, hc.fast⟩
  · split
    · exact lands_fail _
    · refine lands_mark (lands_silent (.headerField ?_ ?_))
      · rfl
      · exact hc.fast

theorem fieldChar_frame (c : UInt8) :
    (p.fieldChar c).state = p.state ∧ (p.fieldChar c).fast = p.fast := by
  unfold fieldChar
  split <;> try exact ⟨rfl, rfl⟩
  dsimp only
  split_ifs <;> exact ⟨rfl, rfl⟩

theorem lands_headerField (h : p.state = .headerField) (hf : p.fast = 0) :
    Lands (some .headerField) (p.headerField ch) := by
  unfold headerField
  split
  · next c _ =>
      obtain ⟨hs, hfast⟩ := fieldChar_frame (p := p) c
      exact lands_silent (.headerField (hs.trans h) (hfast.trans hf))
  · dsimp only
    split_ifs
    · exact lands_fail _
    · exact lands_emit (lands_silent (.plain rfl ⟨rfl, hf⟩))
    · exact lands_fail _

theorem lands_headerValueStart : Lands none (p.headerValueStart ch) := by
  have hmark : ∀ q : HttpParser, q.state = .headerValue → Lands none (q, [.mark .headerValue]) :=
    fun q h => lands_mark (lands_silent (.headerValue h))
  unfold headerValueStart
  dsimp only
  split <;> try exact hmark _ rfl
  split_ifs
  · exact lands_halt rfl rfl
  · exact hmark _ rfl
  · exact lands_halt rfl rfl

theorem lands_headerValueDiscardWs (h : p.state.plain = true) (hc : p.Calm) :
    Lands none (p.headerValueDiscardWs ch) := by
  unfold headerValueDiscardWs
  split_ifs
  · exact lands_silent (.plain h hc)
  · exact lands_goto rfl hc
  · exact lands_goto rfl hc
  · exact lands_headerValueStart

theorem setHeaderFlag_calm (hc : p.Calm) : p.setHeaderFlag.Calm := by
  unfold setHeaderFlag
  split <;> exact ⟨hc.inLoop, hc.fast⟩

theorem contentLengthNum_state {q : HttpParser} (h : p.contentLengthNum ch = .ok q) :
    q.state = p.state := by
  unfold contentLengthNum at h
  split_ifs at h <;> cases h <;> rfl

@[simp] theorem setHeaderFlag_state : p.setHeaderFlag.state = p.state := by
  unfold setHeaderFlag
  split <;> rfl

theorem connectionToken_state : (p.connectionToken ch).state = p.state := by
  unfold connectionToken
  split_ifs
  · exact setHeaderFlag_state
  · rfl
  · rfl

theorem valueChar_state {q : HttpParser} (h : p.valueChar ch = .ok q) : q.state = p.state := by
  unfold valueChar at h
  dsimp only at h
  split at h
  case h_4 =>
    split_ifs at h
    · cases h; rfl
    · exact contentLengthNum_state h
  case h_5 => exact contentLengthNum_state h
  case h_6 =>
    split_ifs at h
    cases h
    rfl
  all_goals cases h
  all_goals try rfl
  all_goals first
    | exact connectionToken_state
    | (split_ifs <;> rfl)

theorem lands_headerAlmostDone (hc : p.Calm) : Lands none (p.headerAlmostDone ch) := by
  unfold headerAlmostDone
  split_ifs
  · exact lands_fail _
  · exact lands_goto rfl hc

theorem lands_headerValue (h : p.state = .headerValue) :
    Lands (some .headerValue) (p.headerValue ch) := by
  unfold headerValue
  dsimp only
  split_ifs
  · exact lands_silent (.headerValue h)
  · exact lands_halt rfl rfl
  · exact lands_emit (lands_silent (.plain rfl ⟨rfl, rfl⟩))
  · exact lands_fail _
  · exact lands_emit (lands_headerAlmostDone ⟨rfl, rfl⟩)
  · split
    · exact lands_fail _
    · next q hq => exact lands_silent (.headerValue ((valueChar_state hq).trans h))
  · exact lands_fail _

theorem lands_headerValueLws (hc : p.Calm) : Lands none (p.headerValueLws ch) := by
  unfold headerValueLws
  split_ifs
  · exact lands_headerValueStart
  · exact lands_headerValueStart
  · have hc' := setHeaderFlag_calm hc
    exact lands_headerFieldStart ⟨hc'.inLoop, hc'.fast⟩

theorem lands_headerValueDiscardLws (hc : p.Calm) : Lands none (p.headerValueDiscardLws ch) := by
  unfold headerValueDiscardLws
  split_ifs
  · exact lands_goto rfl hc
  · exact lands_fail _
  · have hc' := setHeaderFlag_calm hc
    exact lands_mark (lands_emit (lands_headerFieldStart ⟨hc'.inLoop, hc'.fast⟩))

theorem lands_headerValueDiscardWsAlmostDone (hc : p.Calm) :
    Lands none (p.headerValueDiscardWsAlmostDone ch) := by
  unfold headerValueDiscardWsAlmostDone
  split_ifs
  · exact lands_fail _
  · exact lands_goto rfl hc

theorem lands_chunkSizeStart (hc : p.Calm) : Lands none (p.chunkSizeStart ch) := by
  unfold chunkSizeStart
  split
  · exact lands_fail _
  · exact lands_silent (.plain rfl ⟨hc.inLoop, hc.fast⟩)

theorem lands_chunkSize (h : p.state.plain = true) (hc : p.Calm) :
    Lands none (p.chunkSize ch) := by
  by_cases hcr : ch = CR
  · rw [chunkSize, if_pos hcr]
    exact lands_goto rfl hc
  · rw [chunkSize, if_neg hcr]
    split
    · split_ifs
      · exact lands_goto rfl hc
      · exact lands_fail _
    · split_ifs
      · exact lands_fail _
      · exact lands_silent (.plain h ⟨hc.inLoop, hc.fast⟩)

theorem lands_chunkParameters (h : p.state.plain = true) (hc : p.Calm) :
    Lands none (p.chunkParameters ch) := by
  unfold chunkParameters
  split_ifs
  · exact lands_goto rfl hc
  · exact lands_silent (.plain h hc)

theorem lands_chunkSizeAlmostDone (hc : p.Calm) : Lands none (p.chunkSizeAlmostDone ch) := by
  unfold chunkSizeAlmostDone
  split_ifs with _ hlen
  · exact lands_fail _
  · exact lands_notify (lands_silent (.plain rfl ⟨hc.inLoop, hc.fast⟩))
  · refine lands_notify (lands_silent (.bodyCut (.chunk rfl ?_ ⟨hc.inLoop, hc.fast⟩)))
    exact Nat.pos_of_ne_zero hlen

/-- A byte of chunk data keeps the body open. -/
theorem chunkData_openBody (hc : p.Calm) : p.chunkData.1.OpenBody := by
  by_cases hlen : p.contentLength - 1 = 0
  · exact .chunkEnd (by simp [chunkData, hlen]) hlen ⟨hc.inLoop, hc.fast⟩
  · exact .chunk (by simp [chunkData, hlen]) (Nat.pos_of_ne_zero hlen) ⟨hc.inLoop, hc.fast⟩

theorem lands_chunkDataAlmostDone (hc : p.Calm) (ho : o = none ∨ o = some .body) :
    Lands o (p.chunkDataAlmostDone ch) := by
  unfold chunkDataAlmostDone
  split_ifs
  · exact lands_fail _
  · have hlast : Lands none ({ p with state := .chunkDataDone }, []) :=
      lands_silent (.plain rfl ⟨hc.inLoop, hc.fast⟩)
    rcases ho with rfl | rfl
    · refine ⟨?_, rfl⟩
      intro o' h
      exact hlast.shape o' (by simpa [openAfter] using h)
    · exact lands_emit hlast

theorem lands_chunkDataDone (hc : p.Calm) : Lands none (p.chunkDataDone ch) := by
  unfold chunkDataDone
  split_ifs
  · exact lands_fail _
  · exact lands_notify (lands_silent (.plain rfl ⟨hc.inLoop, hc.fast⟩))

theorem lands_markBody {q : HttpParser} {as : List Act} (ho : o = none ∨ o = some .body)
    (h : Lands (some .body) (q, as)) : Lands o (q, .mark .body :: as) := by
  rcases ho with rfl | rfl <;> exact ⟨h.shape, h.stop⟩

theorem lands_bodyIdentity (h : p.state = .bodyIdentity) (hc : p.Calm)
    (ho : o = none ∨ o = some .body) : Lands o p.bodyIdentity := by
  unfold bodyIdentity
  dsimp only
  split_ifs with hlen
  · exact lands_markBody ho (lands_emit (lands_messageDone ⟨hc.inLoop, hc.fast⟩))
  · exact lands_markBody ho (lands_silent (.body (.identity h (Nat.pos_of_ne_zero hlen)
      ⟨hc.inLoop, hc.fast⟩)))

theorem lands_dead (h : p.state.plain = true) (hc : p.Calm) : Lands none (p.dead ch) := by
  unfold dead
  split_ifs
  · exact lands_silent (.plain h hc)
  · exact lands_fail _

theorem lands_startReq (h : p.state.plain = true) (hc : p.Calm) : Lands none (p.startReq ch) := by
  unfold startReq
  dsimp only
  split_ifs
  · exact lands_silent (.plain h hc)
  · split
    · exact lands_fail _
    · exact lands_notify (lands_silent (.plain rfl ⟨hc.inLoop, hc.fast⟩))
  · exact lands_fail _

theorem lands_reqMethod (h : p.state.plain = true) (hc : p.Calm) :
    Lands none (p.reqMethod ch) := by
  unfold reqMethod
  split_ifs
  · exact lands_fail _
  · exact lands_silent (.plain rfl ⟨hc.inLoop, hc.fast⟩)
  · exact lands_silent (.plain h ⟨hc.inLoop, hc.fast⟩)
  · split
    · exact lands_fail _
    · exact lands_silent (.plain h ⟨hc.inLoop, hc.fast⟩)
  · exact lands_fail _

/-- The URL automaton goes on in a URL state or gives up. -/
theorem parseUrlChar_inUrl (s : State) (ch : UInt8) :
    parseUrlChar s ch = .dead ∨ (parseUrlChar s ch).inUrl = true := by
  have hserver : parseUrlChar.server ch = .dead ∨ (parseUrlChar.server ch).inUrl = true := by
    unfold parseUrlChar.server
    split_ifs <;> simp [State.inUrl]
  have hquery : parseUrlChar.query ch = .dead ∨ (parseUrlChar.query ch).inUrl = true := by
    unfold parseUrlChar.query
    split_ifs <;> simp [State.inUrl]
  by_cases hws : ch = ' '.toUInt8 ∨ ch = CR ∨ ch = LF ∨ ch = 9 ∨ ch = 12
  · unfold parseUrlChar
    rw [if_pos hws]
    exact Or.inl rfl
  · unfold parseUrlChar
    rw [if_neg hws]
    cases s with
    | reqServerStart => exact hserver
    | reqServer => exact hserver
    | reqQueryStringStart => exact hquery
    | reqQueryString => exact hquery
    | reqServerWithAt =>
        dsimp only
        split_ifs
        · exact Or.inl rfl
        · exact hserver
    | _ =>
        dsimp only
        try split_ifs
        all_goals simp [State.inUrl]

theorem lands_urlChar {q : HttpParser} {marks : List Act} (hc : q.Calm)
    (ho : openAfter o marks = some (some .url))
    (hfail : openAfter o (marks ++ [.fail .invalidUrl]) = none)
    (hstop : stopsComplete marks = true)
    (hstop' : stopsComplete (marks ++ [.fail .invalidUrl]) = true) :
    Lands o (q.urlChar ch marks) := by
  unfold urlChar
  dsimp only
  rcases parseUrlChar_inUrl q.state ch with hd | hu
  · rw [if_pos hd]
    exact lands_halt hfail hstop'
  · have hd : parseUrlChar q.state ch ≠ .dead := by
      intro h
      rw [h] at hu
      cases hu
    rw [if_neg hd]
    refine ⟨?_, hstop⟩
    intro o' h
    rw [ho] at h
    cases h
    exact .url hu ⟨hc.inLoop, hc.fast⟩

theorem lands_reqSpacesBeforeUrl (h : p.state.plain = true) (hc : p.Calm) :
    Lands none (p.reqSpacesBeforeUrl ch) := by
  unfold reqSpacesBeforeUrl
  split_ifs
  · exact lands_silent (.plain h hc)
  · exact lands_urlChar ⟨hc.inLoop, hc.fast⟩ rfl rfl rfl rfl
  · exact lands_urlChar hc rfl rfl rfl rfl

theorem lands_reqUrlStart (hc : p.Calm) : Lands (some .url) (p.reqUrlStart ch) := by
  unfold reqUrlStart
  split_ifs
  · exact lands_fail _
  · exact lands_urlChar hc rfl rfl rfl rfl

theorem lands_reqUrl (hc : p.Calm) : Lands (some .url) (p.reqUrl ch) := by
  unfold reqUrl
  split_ifs
  · exact lands_emit (lands_silent (.plain rfl ⟨hc.inLoop, hc.fast⟩))
  · exact lands_emit (lands_silent (.plain rfl ⟨hc.inLoop, hc.fast⟩))
  · exact lands_emit (lands_silent (.plain rfl ⟨hc.inLoop, hc.fast⟩))
  · exact lands_urlChar hc rfl rfl rfl rfl

theorem lands_reqHttpStart (h : p.state.plain = true) (hc : p.Calm) :
    Lands none (p.reqHttpStart ch) := by
  unfold reqHttpStart
  split_ifs
  · exact lands_silent (.plain h hc)
  · exact lands_goto rfl hc
  · exact lands_goto rfl hc
  · exact lands_fail _

theorem lands_expect {c : Char} {s : State} (hs : s.plain = true) (hc : p.Calm) :
    Lands none (p.expect ch c s) := by
  unfold expect
  split_ifs
  · exact lands_fail _
  · exact lands_goto hs hc

theorem lands_reqHttpMajor (hc : p.Calm) : Lands none (p.reqHttpMajor ch) := by
  unfold reqHttpMajor
  split_ifs
  · exact lands_silent (.plain rfl ⟨hc.inLoop, hc.fast⟩)
  · exact lands_fail _

theorem lands_reqHttpDot (hc : p.Calm) : Lands none (p.reqHttpDot ch) := by
  unfold reqHttpDot
  split_ifs
  · exact lands_fail _
  · exact lands_goto rfl hc

theorem lands_reqHttpMinor (hc : p.Calm) : Lands none (p.reqHttpMinor ch) := by
  unfold reqHttpMinor
  split_ifs
  · exact lands_silent (.plain rfl ⟨hc.inLoop, hc.fast⟩)
  · exact lands_fail _

theorem lands_reqHttpEnd (hc : p.Calm) : Lands none (p.reqHttpEnd ch) := by
  unfold reqHttpEnd
  split_ifs
  · exact lands_goto rfl hc
  · exact lands_goto rfl hc
  · exact lands_fail _

theorem lands_reqLineAlmostDone (hc : p.Calm) : Lands none (p.reqLineAlmostDone ch) := by
  unfold reqLineAlmostDone
  split_ifs
  · exact lands_fail _
  · exact lands_goto rfl hc

theorem lands_dispatch_plain (h : p.state.plain = true) (hc : p.Calm) :
    Lands none (p.dispatch ch) := by
  unfold dispatch
  cases hs : p.state with
  | dead => exact lands_dead h hc
  | startReq => exact lands_startReq h hc
  | reqMethod => exact lands_reqMethod h hc
  | reqSpacesBeforeUrl => exact lands_reqSpacesBeforeUrl h hc
  | reqHttpStart => exact lands_reqHttpStart h hc
  | reqHttpH => exact lands_expect rfl hc
  | reqHttpHT => exact lands_expect rfl hc
  | reqHttpHTT => exact lands_expect rfl hc
  | reqHttpI => exact lands_expect rfl hc
  | reqHttpIC => exact lands_expect rfl hc
  | reqHttpHTTP => exact lands_expect rfl hc
  | reqHttpMajor => exact lands_reqHttpMajor hc
  | reqHttpDot => exact lands_reqHttpDot hc
  | reqHttpMinor => exact lands_reqHttpMinor hc
  | reqHttpEnd => exact lands_reqHttpEnd hc
  | reqLineAlmostDone => exact lands_reqLineAlmostDone hc
  | headerFieldStart => exact lands_headerFieldStart hc
  | headerValueDiscardWs => exact lands_headerValueDiscardWs h hc
  | headerValueDiscardWsAlmostDone => exact lands_headerValueDiscardWsAlmostDone hc
  | headerValueDiscardLws => exact lands_headerValueDiscardLws hc
  | headerValueStart => exact lands_headerValueStart
  | headerValueLws => exact lands_headerValueLws hc
  | headerAlmostDone => exact lands_headerAlmostDone hc
  | chunkSizeStart => exact lands_chunkSizeStart hc
  | chunkSize => exact lands_chunkSize h hc
  | chunkParameters => exact lands_chunkParameters h hc
  | chunkSizeAlmostDone => exact lands_chunkSizeAlmostDone hc
  | headersAlmostDone => exact lands_headersAlmostDone hc
  | headersDone => exact lands_headersDone hc
  | chunkDataDone => exact lands_chunkDataDone hc
  | messageDone => exact lands_messageDone hc
  | _ => rw [hs] at h; cases h

theorem lands_dispatch_url (h : p.state.inUrl = true) (hc : p.Calm) :
    Lands (some .url) (p.dispatch ch) := by
  unfold dispatch
  cases hs : p.state with
  | reqSchema => exact lands_reqUrlStart hc
  | reqSchemaSlash => exact lands_reqUrlStart hc
  | reqSchemaSlashSlash => exact lands_reqUrlStart hc
  | reqServerStart => exact lands_reqUrlStart hc
  | reqServer => exact lands_reqUrl hc
  | reqServerWithAt => exact lands_reqUrl hc
  | reqPath => exact lands_reqUrl hc
  | reqQueryStringStart => exact lands_reqUrl hc
  | reqQueryString => exact lands_reqUrl hc
  | reqFragmentStart => exact lands_reqUrl hc
  | reqFragment => exact lands_reqUrl hc
  | _ => rw [hs] at h; cases h

theorem lands_dispatch_body (h : p.OpenBody) (ho : o = none ∨ o = some .body) :
    Lands o (p.dispatch ch) := by
  unfold dispatch
  cases h with
  | identity hs _ hc =>
      rw [hs]
      exact lands_bodyIdentity hs hc ho
  | chunk hs _ hc =>
      rw [hs]
      exact lands_markBody ho (lands_silent (.body (chunkData_openBody hc)))
  | chunkEnd hs _ hc =>
      rw [hs]
      exact lands_chunkDataAlmostDone hc ho

theorem lands_dispatch (h : p.Shape o) : Lands o (p.dispatch ch) := by
  cases h with
  | plain h hc => exact lands_dispatch_plain h hc
  | url h hc => exact lands_dispatch_url h hc
  | headerField h hf =>
      unfold dispatch
      rw [h]
      exact lands_headerField h hf
  | headerValue h =>
      unfold dispatch
      rw [h]
      exact lands_headerValue h
  | body h => exact lands_dispatch_body h (Or.inr rfl)
  | bodyCut h => exact lands_dispatch_body h (Or.inl rfl)

/-- The shape does not depend on the count of header bytes. -/
theorem Shape.setNread {n : UInt32} (h : p.Shape o) : Shape { p with nread := n } o := by
  have hbody : p.OpenBody → OpenBody { p with nread := n } := by
    intro h
    cases h with
    | identity hs hlen hc => exact .identity hs hlen ⟨hc.inLoop, hc.fast⟩
    | chunk hs hlen hc => exact .chunk hs hlen ⟨hc.inLoop, hc.fast⟩
    | chunkEnd hs hlen hc => exact .chunkEnd hs hlen ⟨hc.inLoop, hc.fast⟩
  cases h with
  | plain h hc => exact .plain h ⟨hc.inLoop, hc.fast⟩
  | url h hc => exact .url h ⟨hc.inLoop, hc.fast⟩
  | headerField h hf => exact .headerField h hf
  | headerValue h => exact .headerValue h
  | body h => exact .body (hbody h)
  | bodyCut h => exact .bodyCut (hbody h)

theorem lands_step (h : p.Shape o) : Lands o (p.step ch) := by
  unfold step
  dsimp only
  split_ifs
  · exact lands_fail _
  · exact lands_dispatch h.setNread
  · exact lands_dispatch h

/-! ### Call boundaries -/

theorem Calm.quiet (hc : p.Calm) (hr : p.resume = none) : machine.Quiet p := by
  obtain ⟨hl, hf⟩ := hc
  refine ⟨?_, hr, ?_⟩
  · cases p
    simp_all [machine]
  · simp [machine, leave, hl]

theorem resume_of_plain (h : p.state.plain = true) : p.resume = none := by
  unfold resume
  cases hs : p.state <;> first | rfl | (rw [hs] at h; cases h)

theorem resume_of_inUrl (h : p.state.inUrl = true) : p.resume = some .url := by
  unfold resume
  cases hs : p.state <;> first | rfl | (rw [hs] at h; cases h)

theorem Shape.url_open (h : p.Shape o) (hu : p.state.inUrl = true) : o = some .url := by
  have hbody : ¬p.OpenBody := by
    intro hb
    cases hb <;> simp_all [State.inUrl]
  cases h with
  | plain hs _ => cases hst : p.state <;> simp_all [State.plain, State.inUrl]
  | url _ _ => rfl
  | headerField hs _ => simp [hs, State.inUrl] at hu
  | headerValue hs => simp [hs, State.inUrl] at hu
  | body hb => exact absurd hb hbody
  | bodyCut hb => exact absurd hb hbody

theorem OpenBody.calm (h : p.OpenBody) : p.Calm := by
  cases h <;> assumption

theorem OpenBody.quiet (h : p.OpenBody) : machine.Quiet p := by
  refine h.calm.quiet ?_
  cases h with
  | identity hs _ _ => simp [resume, hs]
  | chunk hs _ _ => simp [resume, hs]
  | chunkEnd hs _ _ => simp [resume, hs]

theorem OpenBody.step_eq (h : p.OpenBody) : p.step ch = p.dispatch ch := by
  cases h with
  | identity hs _ _ => simp [step, hs, parsingHeader]
  | chunk hs _ _ => simp [step, hs, parsingHeader]
  | chunkEnd hs _ _ => simp [step, hs, parsingHeader]

/-- A body goes on at the next byte whether or not its mark is set. -/
theorem OpenBody.reopens (h : p.OpenBody) :
    PushParser.Reopens .body (p.step ch).1.OpenBody (p.step ch).2 := by
  rw [h.step_eq]
  cases h with
  | identity hs _ hc =>
      unfold dispatch
      rw [hs]
      dsimp only [bodyIdentity]
      split_ifs with hlen
      · exact .last
      · exact .more (.identity hs (Nat.pos_of_ne_zero hlen) ⟨hc.inLoop, hc.fast⟩)
  | chunk hs _ hc =>
      simp only [dispatch, hs]
      exact .more (chunkData_openBody hc)
  | chunkEnd hs _ hc =>
      simp only [dispatch, hs, chunkDataAlmostDone]
      split_ifs
      · exact .reject _
      · exact .close

/-- Chunk data that is followed by a carriage return is not rejected. -/
theorem OpenBody.not_rejected (h : p.OpenBody) {rest : List UInt8}
    (hend : p.state = .bodyIdentity ∨ ∀ b, rest[p.contentLength]? = some b → b = CR) :
    machine.rejectsOpen p rest = false := by
  induction rest generalizing p with
  | nil => rfl
  | cons b rest ih =>
      have hstep : machine.step p b = p.dispatch b := h.step_eq
      rw [PushParser.Machine.rejectsOpen, hstep]
      cases h with
      | identity hs _ hc =>
          unfold dispatch
          rw [hs]
          dsimp only [bodyIdentity]
          split_ifs with hlen
          · rfl
          · exact ih (.identity hs (Nat.pos_of_ne_zero hlen) ⟨hc.inLoop, hc.fast⟩) (Or.inl hs)
      | chunk hs hlen hc =>
          simp only [dispatch, hs]
          refine ih (chunkData_openBody hc) (Or.inr ?_)
          intro b' hb'
          rcases hend with hid | hend
          · rw [hs] at hid
            cases hid
          · refine hend b' ?_
            obtain ⟨n, hn⟩ := Nat.exists_eq_succ_of_ne_zero (Nat.ne_of_gt hlen)
            rw [hn]
            simpa [chunkData, hn] using hb'
      | chunkEnd hs hlen hc =>
          rcases hend with hid | hend
          · rw [hs] at hid
            cases hid
          · have hcr : b = CR := hend b (by simp [hlen])
            simp [dispatch, hs, chunkDataAlmostDone, hcr]

/-! ### Up to the end of the first URL -/

/-- The parser has not got past the URL of its first request. -/
structure Early (p : HttpParser) : Prop where
  state : p.state = .startReq ∨ p.state = .reqMethod ∨ p.state = .reqSpacesBeforeUrl ∨
    p.state.inUrl = true
  upgrade : p.upgrade = false
  calm : p.Calm

/-- What an early parser does with a byte: it gives up, stays early or closes the URL. -/
inductive EarlyStep (p : HttpParser) : Step → Prop
  | fails {q : HttpParser} {as : List Act} {e : HttpErrno} (hq : q.upgrade = false)
      (has : as = [.fail e] ∨ as = [.mark .url, .fail e]) : EarlyStep p (q, as)
  | stays {q : HttpParser} {as : List Act} (hq : q.Early)
      (has : as = [] ∨ as = [.mark .url] ∨ as = [.notify .messageBegin]) : EarlyStep p (q, as)
  | closes {q : HttpParser} (hq : q.upgrade = false) (hp : p.state.inUrl = true) :
      EarlyStep p (q, [.emit .url false true])

theorem early_fail (h : p.upgrade = false) (e : HttpErrno) {p' : HttpParser} :
    EarlyStep p' (p.fail e) := .fails h (Or.inl rfl)

theorem early_urlChar (h : p.upgrade = false) (hc : p.Calm) {marks : List Act} {p' : HttpParser}
    (hm : marks = [] ∨ marks = [.mark .url]) : EarlyStep p' (p.urlChar ch marks) := by
  unfold HttpParser.urlChar
  dsimp only
  rcases parseUrlChar_inUrl p.state ch with hd | hu
  · rw [if_pos hd]
    refine .fails (e := .invalidUrl) h ?_
    rcases hm with rfl | rfl
    · exact Or.inl rfl
    · exact Or.inr rfl
  · rw [if_neg (by intro hd; rw [hd] at hu; cases hu)]
    refine .stays ⟨Or.inr (Or.inr (Or.inr hu)), h, hc.inLoop, hc.fast⟩ ?_
    rcases hm with rfl | rfl
    · exact Or.inl rfl
    · exact Or.inr (Or.inl rfl)

theorem Early.startReq (h : p.Early) : EarlyStep p (p.startReq ch) := by
  unfold HttpParser.startReq
  dsimp only
  split_ifs
  · exact .stays h (Or.inl rfl)
  · split
    · exact early_fail (by exact h.upgrade) _
    · exact .stays ⟨Or.inr (Or.inl rfl), h.upgrade, h.calm.inLoop, h.calm.fast⟩
        (Or.inr (Or.inr rfl))
  · exact early_fail (by exact h.upgrade) _

theorem Early.reqMethod (h : p.Early) : EarlyStep p (p.reqMethod ch) := by
  unfold HttpParser.reqMethod
  split_ifs
  · exact early_fail h.upgrade _
  · exact .stays ⟨Or.inr (Or.inr (Or.inl rfl)), h.upgrade, h.calm.inLoop, h.calm.fast⟩ (Or.inl rfl)
  · exact .stays ⟨h.state, h.upgrade, h.calm.inLoop, h.calm.fast⟩ (Or.inl rfl)
  · split
    · exact early_fail h.upgrade _
    · exact .stays ⟨h.state, h.upgrade, h.calm.inLoop, h.calm.fast⟩ (Or.inl rfl)
  · exact early_fail h.upgrade _

theorem Early.reqSpacesBeforeUrl (h : p.Early) : EarlyStep p (p.reqSpacesBeforeUrl ch) := by
  unfold HttpParser.reqSpacesBeforeUrl
  split_ifs
  · exact .stays h (Or.inl rfl)
  · exact early_urlChar (p := { p with state := .reqServerStart }) h.upgrade
      ⟨h.calm.inLoop, h.calm.fast⟩ (Or.inr rfl)
  · exact early_urlChar h.upgrade h.calm (Or.inr rfl)

theorem Early.reqUrlStart (h : p.Early) : EarlyStep p (p.reqUrlStart ch) := by
  unfold HttpParser.reqUrlStart
  split_ifs
  · exact early_fail h.upgrade _
  · exact early_urlChar h.upgrade h.calm (Or.inl rfl)

theorem Early.reqUrl (h : p.Early) (hu : p.state.inUrl = true) : EarlyStep p (p.reqUrl ch) := by
  unfold HttpParser.reqUrl
  split_ifs
  · exact .closes h.upgrade hu
  · exact .closes h.upgrade hu
  · exact .closes h.upgrade hu
  · exact early_urlChar h.upgrade h.calm (Or.inl rfl)

theorem Early.dispatch (h : p.Early) : EarlyStep p (p.dispatch ch) := by
  have hst := h.state
  unfold HttpParser.dispatch
  cases hs : p.state with
  | startReq => exact h.startReq
  | reqMethod => exact h.reqMethod
  | reqSpacesBeforeUrl => exact h.reqSpacesBeforeUrl
  | reqSchema => exact h.reqUrlStart
  | reqSchemaSlash => exact h.reqUrlStart
  | reqSchemaSlashSlash => exact h.reqUrlStart
  | reqServerStart => exact h.reqUrlStart
  | reqServer => exact h.reqUrl (by rw [hs]; rfl)
  | reqServerWithAt => exact h.reqUrl (by rw [hs]; rfl)
  | reqPath => exact h.reqUrl (by rw [hs]; rfl)
  | reqQueryStringStart => exact h.reqUrl (by rw [hs]; rfl)
  | reqQueryString => exact h.reqUrl (by rw [hs]; rfl)
  | reqFragmentStart => exact h.reqUrl (by rw [hs]; rfl)
  | reqFragment => exact h.reqUrl (by rw [hs]; rfl)
  | _ => simp [hs, State.inUrl] at hst

theorem EarlyStep.of_state {q : HttpParser} {r : Step} (hs : q.state = p.state)
    (h : EarlyStep q r) : EarlyStep p r := by
  cases h with
  | fails hq has => exact .fails hq has
  | stays hq has => exact .stays hq has
  | closes hq hp => exact .closes hq (hs ▸ hp)

theorem Early.step (h : p.Early) : EarlyStep p (p.step ch) := by
  unfold HttpParser.step
  dsimp only
  split_ifs
  · exact early_fail (by exact h.upgrade) _
  · have hq : Early { p with nread := p.nread + 1 } :=
      ⟨h.state, h.upgrade, h.calm.inLoop, h.calm.fast⟩
    exact EarlyStep.of_state (q := { p with nread := p.nread + 1 }) rfl hq.dispatch
  · exact h.dispatch

end HttpParser

end Xzmjx.HttpParserModel
