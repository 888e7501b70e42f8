import Xzmjx.HttpSessionRuns

/-!
# The bytes of a body

A byte belongs to a body exactly if the parser reads it in one of two states. However the input
is cut, what the body callback has been given, together with the open fragment, is as long as
the number of these bytes.
-/
namespace Xzmjx.HttpParserModel

/-- No step of a body is among the actions. -/
def bodyFree (as : List Act) : Bool :=
  as.all fun
    | .mark .body => false
    | .emit .body _ _ => false
    | _ => true

/-- The states in which a byte belongs to a body. -/
def State.inBody : State → Bool
  | .bodyIdentity => true
  | .chunkData => true
  | _ => false

namespace HttpParser
variable {p : HttpParser} {ch : UInt8}

theorem bodyFree_ite {c : Prop} [Decidable c] {r r' : Step} (h : bodyFree r.2 = true)
    (h' : bodyFree r'.2 = true) : bodyFree (if c then r else r').2 = true := by
  split_ifs
  · exact h
  · exact h'

theorem bodyFree_messageDone : bodyFree p.messageDone.2 = true := by
  unfold messageDone
  split_ifs <;> rfl

theorem bodyFree_headersDone : bodyFree (p.headersDone ch).2 = true := by
  unfold headersDone
  dsimp only
  split_ifs <;> rfl

theorem bodyFree_headersAlmostDone : bodyFree (p.headersAlmostDone ch).2 = true := by
  unfold headersAlmostDone
  dsimp only
  split_ifs
  · rfl
  · exact bodyFree_messageDone
  · rfl
  · exact bodyFree_headersDone

theorem bodyFree_headerFieldStart : bodyFree (p.headerFieldStart ch).2 = true := by
  unfold headerFieldStart
  split_ifs
  · rfl
  · exact bodyFree_headersAlmostDone
  · split <;> rfl

theorem bodyFree_headerField : bodyFree (p.headerField ch).2 = true := by
  unfold headerField
  dsimp only
  split
  · rfl
  · split_ifs <;> rfl

theorem bodyFree_headerValueStart : bodyFree (p.headerValueStart ch).2 = true := by
  unfold headerValueStart
  dsimp only
  split <;> try rfl
  split_ifs <;> rfl

theorem bodyFree_headerValueDiscardWs : bodyFree (p.headerValueDiscardWs ch).2 = true :=
  bodyFree_ite rfl (bodyFree_ite rfl (bodyFree_ite rfl bodyFree_headerValueStart))

theorem bodyFree_headerAlmostDone : bodyFree (p.headerAlmostDone ch).2 = true :=
  bodyFree_ite rfl rfl

theorem bodyFree_headerValue : bodyFree (p.headerValue ch).2 = true := by
  unfold headerValue
  dsimp only
  split_ifs <;> try rfl
  · exact bodyFree_headerAlmostDone
  · split <;> rfl

theorem bodyFree_headerValueLws : bodyFree (p.headerValueLws ch).2 = true :=
  bodyFree_ite bodyFree_headerValueStart bodyFree_headerFieldStart

theorem bodyFree_headerValueDiscardLws : bodyFree (p.headerValueDiscardLws ch).2 = true :=
  bodyFree_ite rfl (bodyFree_ite rfl bodyFree_headerFieldStart)

theorem bodyFree_urlChar {marks : List Act} (h : marks = [] ∨ marks = [.mark .url]) :
    bodyFree (p.urlChar ch marks).2 = true := by
  unfold urlChar
  rcases h with rfl | rfl <;> (dsimp only; split_ifs <;> rfl)

theorem bodyFree_reqSpacesBeforeUrl : bodyFree (p.reqSpacesBeforeUrl ch).2 = true :=
  bodyFree_ite rfl (bodyFree_urlChar (.inr rfl))

theorem bodyFree_reqUrlStart : bodyFree (p.reqUrlStart ch).2 = true :=
  bodyFree_ite rfl (bodyFree_urlChar (.inl rfl))

theorem bodyFree_reqUrl : bodyFree (p.reqUrl ch).2 = true :=
  bodyFree_ite rfl (bodyFree_ite rfl (bodyFree_urlChar (.inl rfl)))

theorem bodyFree_startReq : bodyFree (p.startReq ch).2 = true := by
  unfold startReq
  dsimp only
  split_ifs <;> try rfl
  split <;> rfl

theorem bodyFree_reqMethod : bodyFree (p.reqMethod ch).2 = true := by
  unfold reqMethod
  split_ifs <;> try rfl
  split <;> rfl

theorem bodyFree_chunkSize : bodyFree (p.chunkSize ch).2 = true := by
  apply bodyFree_ite rfl
  split
  · exact bodyFree_ite rfl rfl
  · exact bodyFree_ite rfl rfl

theorem bodyFree_chunkSizeStart : bodyFree (p.chunkSizeStart ch).2 = true := by
  unfold chunkSizeStart
  split <;> rfl

theorem bodyFree_chunkSizeAlmostDone : bodyFree (p.chunkSizeAlmostDone ch).2 = true :=
  bodyFree_ite rfl (bodyFree_ite rfl rfl)

/-- Outside of a body no step of one is taken. -/
theorem bodyFree_dispatch (hin : p.state.inBody = false) (hend : p.state ≠ .chunkDataAlmostDone) :
    bodyFree (p.dispatch ch).2 = true := by
  unfold dispatch
  cases hs : p.state with
  | dead => exact bodyFree_ite rfl rfl
  | startReq => exact bodyFree_startReq
  | reqMethod => exact bodyFree_reqMethod
  | reqSpacesBeforeUrl => exact bodyFree_reqSpacesBeforeUrl
  | reqSchema => exact bodyFree_reqUrlStart
  | reqSchemaSlash => exact bodyFree_reqUrlStart
  | reqSchemaSlashSlash => exact bodyFree_reqUrlStart
  | reqServerStart => exact bodyFree_reqUrlStart
  | reqServer => exact bodyFree_reqUrl
  | reqServerWithAt => exact bodyFree_reqUrl
  | reqPath => exact bodyFree_reqUrl
  | reqQueryStringStart => exact bodyFree_reqUrl
  | reqQueryString => exact bodyFree_reqUrl
  | reqFragmentStart => exact bodyFree_reqUrl
  | reqFragment => exact bodyFree_reqUrl
  | reqHttpStart =>
      exact bodyFree_ite rfl (bodyFree_ite rfl (bodyFree_ite rfl rfl))
  | reqHttpH => exact bodyFree_ite rfl rfl
  | reqHttpHT => exact bodyFree_ite rfl rfl
  | reqHttpHTT => exact bodyFree_ite rfl rfl
  | reqHttpI => exact bodyFree_ite rfl rfl
  | reqHttpIC => exact bodyFree_ite rfl rfl
  | reqHttpHTTP => exact bodyFree_ite rfl rfl
  | reqHttpMajor => exact bodyFree_ite rfl rfl
  | reqHttpDot => exact bodyFree_ite rfl rfl
  | reqHttpMinor => exact bodyFree_ite rfl rfl
  | reqHttpEnd => exact bodyFree_ite rfl (bodyFree_ite rfl rfl)
  | reqLineAlmostDone => exact bodyFree_ite rfl rfl
  | headerFieldStart => exact bodyFree_headerFieldStart
  | headerField => exact bodyFree_headerField
  | headerValueDiscardWs => exact bodyFree_headerValueDiscardWs
  | headerValueDiscardWsAlmostDone => exact bodyFree_ite rfl rfl
  | headerValueDiscardLws => exact bodyFree_headerValueDiscardLws
  | headerValueStart => exact bodyFree_headerValueStart
  | headerValue => exact bodyFree_headerValue
  | headerValueLws => exact bodyFree_headerValueLws
  | headerAlmostDone => exact bodyFree_headerAlmostDone
  | chunkSizeStart => exact bodyFree_chunkSizeStart
  | chunkSize => exact bodyFree_chunkSize
  | chunkParameters => exact bodyFree_ite rfl rfl
  | chunkSizeAlmostDone => exact bodyFree_chunkSizeAlmostDone
  | headersAlmostDone => exact bodyFree_headersAlmostDone
  | headersDone => exact bodyFree_headersDone
  | chunkData =>
      rw [hs] at hin
      cases hin
  | chunkDataAlmostDone => exact absurd hs hend
  | chunkDataDone => exact bodyFree_ite rfl rfl
  | bodyIdentity =>
      rw [hs] at hin
      cases hin
  | messageDone => exact bodyFree_messageDone

theorem bodyFree_step (hin : p.state.inBody = false) (hend : p.state ≠ .chunkDataAlmostDone) :
    bodyFree (p.step ch).2 = true := by
  unfold step
  dsimp only
  split_ifs
  · rfl
  · exact bodyFree_dispatch hin hend
  · exact bodyFree_dispatch hin hend

theorem step_chunkData (ch : UInt8) (h : p.state = .chunkData) : (p.step ch).2 = [.mark .body] := by
  simp [step, h, parsingHeader, dispatch, chunkData]

theorem step_chunkDataAlmostDone (ch : UInt8) (h : p.state = .chunkDataAlmostDone) :
    (p.step ch).2 = [.fail .strict] ∨ (p.step ch).2 = [.emit .body false true] := by
  have hstep : p.step ch = p.chunkDataAlmostDone ch := by
    simp [step, h, parsingHeader, dispatch]
  rw [hstep, chunkDataAlmostDone]
  split_ifs
  · exact .inl rfl
  · exact .inr rfl

theorem step_bodyIdentity (ch : UInt8) (h : p.state = .bodyIdentity) :
    (p.step ch).2 = [.mark .body] ∨
      ∃ more, (p.step ch).2 = .mark .body :: .emit .body true false :: more ∧
        bodyFree more = true := by
  have hstep : p.step ch = p.bodyIdentity := by
    simp [step, h, parsingHeader, dispatch]
  rw [hstep, bodyIdentity]
  dsimp only
  split_ifs
  · exact .inr ⟨_, rfl, bodyFree_messageDone⟩
  · exact .inl rfl

end HttpParser

end Xzmjx.HttpParserModel

namespace Xzmjx.HttpRequestModel
open HttpParserModel PushParser

/-! ### What a call gathers -/

/-- The length of an open fragment of the body. -/
def held (c : RequestRun) : ℕ :=
  match c.frag with
  | some (.body, xs) => xs.length
  | _ => 0

/-- What the body callback has been given, with the open fragment. -/
def gathered (c : RequestRun) : ℕ := c.client.data.body.length + held c

section Byte
variable {c : RequestRun} {b : UInt8}

theorem held_eq_zero (h : c.frag.map Prod.fst ≠ some .body) : held c = 0 := by
  obtain ⟨s, f, g, t, n⟩ := c
  cases f with
  | none => rfl
  | some f =>
      obtain ⟨k, xs⟩ := f
      cases k with
      | body => exact absurd rfl h
      | url => rfl
      | headerField => rfl
      | headerValue => rfl

theorem data_body {k : Element} (hk : k ≠ .body) {xs : Bytes} {g g' : RequestData}
    (h : requestSettings.data k xs g = .ok g') : g'.data.body = g.data.body := by
  cases k with
  | url =>
      simp only [requestSettings, onRequestUrlCb] at h
      split at h
      · cases h
      · cases h
        rfl
  | headerField => cases h; rfl
  | headerValue => cases h; rfl
  | body => exact absurd rfl hk

/-- An action that is none of the body leaves it alone and opens no fragment of it. -/
theorem act_bodyFree {a : Act} (ha : bodyFree [a] = true)
    (h : c.frag.map Prod.fst ≠ some .body) :
    (act requestSettings b c a).client.data.body = c.client.data.body ∧
      (act requestSettings b c a).frag.map Prod.fst ≠ some .body := by
  obtain ⟨s, f, g, t, n⟩ := c
  cases a with
  | fail e => exact ⟨rfl, h⟩
  | stop => exact ⟨rfl, h⟩
  | notify m => cases m <;> exact ⟨rfl, h⟩
  | mark k =>
      refine ⟨rfl, ?_⟩
      cases f with
      | some f => exact h
      | none =>
          rintro hk
          obtain rfl := Option.some.inj hk
          cases ha
  | emit k thr adv =>
      have hk : k ≠ .body := by
        rintro rfl
        cases ha
      cases f with
      | none => exact ⟨rfl, h⟩
      | some f =>
          obtain ⟨j, bs⟩ := f
          by_cases hj : j = k
          · subst hj
            cases hd : requestSettings.data j (if thr then bs ++ [b] else bs) g with
            | ok g' =>
                simp only [act, hd, if_true]
                exact ⟨data_body hk hd, fun h => by cases h⟩
            | error e =>
                simp only [act, hd, if_true]
                exact ⟨trivial, h⟩
          · simp only [act, hj, if_false]
            exact ⟨trivial, h⟩

theorem acts_bodyFree {as : List Act} (has : bodyFree as = true)
    (h : c.frag.map Prod.fst ≠ some .body) :
    (acts requestSettings b c as).client.data.body = c.client.data.body ∧
      (acts requestSettings b c as).frag.map Prod.fst ≠ some .body := by
  induction as generalizing c with
  | nil => exact ⟨rfl, h⟩
  | cons a as ih =>
      by_cases hr : c.status = .running
      · have hsplit : bodyFree [a] = true ∧ bodyFree as = true := by
          simpa [bodyFree] using has
        obtain ⟨hbody, hfrag⟩ := act_bodyFree (b := b) hsplit.1 h
        obtain ⟨hbody', hfrag'⟩ := ih hsplit.2 hfrag
        rw [acts_cons_running hr]
        exact ⟨hbody'.trans hbody, hfrag'⟩
      · rw [acts_of_ne_running hr]
        exact ⟨rfl, h⟩

/-- In a state of the body no other element is open. -/
theorem open_body (hshape : c.ctrl.Shape (c.frag.map Prod.fst))
    (h : c.ctrl.state.inBody = true ∨ c.ctrl.state = .chunkDataAlmostDone) :
    c.frag = none ∨ ∃ xs, c.frag = some (.body, xs) := by
  obtain ⟨s, f, g, t, n⟩ := c
  cases f with
  | none => exact .inl rfl
  | some f =>
      obtain ⟨k, xs⟩ := f
      refine .inr ⟨xs, ?_⟩
      have hstates : s.state = .bodyIdentity ∨ s.state = .chunkData ∨
          s.state = .chunkDataAlmostDone := by
        rcases h with h | h
        · cases hs : s.state <;> simp_all [State.inBody]
        · exact .inr (.inr h)
      cases hshape with
      | url hs _ => rcases hstates with h | h | h <;> simp [h, State.inUrl] at hs
      | headerField hs _ => rcases hstates with h | h | h <;> simp [h] at hs
      | headerValue hs => rcases hstates with h | h | h <;> simp [h] at hs
      | body _ => rfl

/-- A byte outside of a body. -/
theorem gathered_byte_bodyFree (hr : c.status = .running)
    (hfree : bodyFree (c.ctrl.step b).2 = true)
    (hfrag : c.frag.map Prod.fst ≠ some .body) :
    gathered (byte machine requestSettings c b) = gathered c ∧
      held (byte machine requestSettings c b) = 0 := by
  obtain ⟨hbody, hnone⟩ := acts_bodyFree (c := { c with ctrl := (c.ctrl.step b).1 }) (b := b)
    hfree hfrag
  obtain ⟨hclient, hkind, -⟩ := advance_client
    (acts requestSettings b { c with ctrl := (c.ctrl.step b).1 } (c.ctrl.step b).2) b
  rw [byte_eq_advance hr, gathered, hclient, hbody, held_eq_zero (hkind ▸ hnone), gathered,
    held_eq_zero hfrag]
  exact ⟨rfl, rfl⟩

/-- A byte that is marked joins the open fragment. -/
theorem gathered_byte_mark (hr : c.status = .running)
    (hopen : c.frag = none ∨ ∃ xs, c.frag = some (.body, xs))
    (hacts : (c.ctrl.step b).2 = [.mark .body]) :
    gathered (byte machine requestSettings c b) = gathered c + 1 ∧
      (byte machine requestSettings c b).status = .running := by
  obtain ⟨s, f, g, t, n⟩ := c
  obtain rfl : t = _ := hr
  rw [byte_eq_advance rfl, hacts]
  rcases hopen with rfl | ⟨xs, rfl⟩
  · exact ⟨rfl, rfl⟩
  · refine ⟨?_, rfl⟩
    show g.data.body.length + (xs ++ [b]).length = g.data.body.length + xs.length + 1
    rw [List.length_append, List.length_singleton, Nat.add_assoc]

/-- The last byte of a body of known length goes to the callback with its fragment. -/
theorem gathered_byte_last {more : List Act} (hr : c.status = .running)
    (hopen : c.frag = none ∨ ∃ xs, c.frag = some (.body, xs))
    (hacts : (c.ctrl.step b).2 = .mark .body :: .emit .body true false :: more)
    (hmore : bodyFree more = true) :
    gathered (byte machine requestSettings c b) = gathered c + 1 ∧
      held (byte machine requestSettings c b) = 0 := by
  obtain ⟨s, f, g, t, n⟩ := c
  obtain rfl : t = _ := hr
  obtain ⟨xs, hxs, hheld⟩ : ∃ xs, f.getD (.body, []) = (.body, xs) ∧
      held ⟨s, f, g, .running, n⟩ = xs.length := by
    rcases hopen with rfl | ⟨xs, rfl⟩
    · exact ⟨[], rfl, rfl⟩
    · exact ⟨xs, rfl, rfl⟩
  have hstart : acts requestSettings b ⟨(s.step b).1, f, g, .running, n⟩ (s.step b).2 =
      acts requestSettings b
        ⟨(s.step b).1, none, onRequestBodyCb (xs ++ [b]) g, .running, n⟩ more := by
    rw [hacts, acts_cons_running rfl, acts_cons_running rfl]
    simp only [act, hxs, if_true]
    rfl
  obtain ⟨hbody, hnone⟩ := acts_bodyFree (b := b)
    (c := ⟨(s.step b).1, none, onRequestBodyCb (xs ++ [b]) g, .running, n⟩) hmore
    fun h => by cases h
  obtain ⟨hclient, hkind, -⟩ := advance_client
    (acts requestSettings b ⟨(s.step b).1, f, g, .running, n⟩ (s.step b).2) b
  rw [hstart] at hclient hkind
  rw [byte_eq_advance rfl, hstart, gathered, hclient, hbody, held_eq_zero (hkind ▸ hnone),
    gathered, hheld]
  refine ⟨?_, rfl⟩
  show (g.data.body ++ (xs ++ [b])).length + 0 = _
  rw [List.length_append, List.length_append, List.length_singleton]
  rfl

/-- The byte behind a chunk closes its fragment or is refused. -/
theorem gathered_byte_end (hr : c.status = .running)
    (hopen : c.frag = none ∨ ∃ xs, c.frag = some (.body, xs))
    (hacts : (c.ctrl.step b).2 = [.fail .strict] ∨
      (c.ctrl.step b).2 = [.emit .body false true]) :
    gathered (byte machine requestSettings c b) = gathered c ∧
      (byte machine requestSettings c b).status ≠ .stopped := by
  obtain ⟨s, f, g, t, n⟩ := c
  obtain rfl : t = _ := hr
  rw [byte_eq_advance rfl]
  rcases hacts with hacts | hacts
  · rw [hacts]
    exact ⟨rfl, fun h => by cases h⟩
  · rw [hacts]
    rcases hopen with rfl | ⟨xs, rfl⟩
    · exact ⟨rfl, fun h => by cases h⟩
    · refine ⟨?_, fun h => by cases h⟩
      show (g.data.body ++ xs).length + 0 = g.data.body.length + xs.length
      rw [List.length_append, Nat.add_zero]

/-- One byte: what is gathered grows by the bytes of the body, and a call that stops holds no
fragment of it. -/
theorem gathered_byte (hr : c.status = .running) (hshape : c.ctrl.Shape (c.frag.map Prod.fst)) :
    gathered (byte machine requestSettings c b) =
        gathered c + (if c.ctrl.state.inBody then 1 else 0) ∧
      ((byte machine requestSettings c b).status = .stopped →
        held (byte machine requestSettings c b) = 0) := by
  by_cases hin : c.ctrl.state.inBody = true
  · rw [if_pos hin]
    have hopen := open_body hshape (.inl hin)
    have hmark : (c.ctrl.step b).2 = [.mark .body] →
        gathered (byte machine requestSettings c b) = gathered c + 1 ∧
          ((byte machine requestSettings c b).status = .stopped →
            held (byte machine requestSettings c b) = 0) := by
      intro hacts
      obtain ⟨hgrow, hrunning⟩ := gathered_byte_mark hr hopen hacts
      refine ⟨hgrow, fun hstop => ?_⟩
      rw [hrunning] at hstop
      cases hstop
    cases hs : c.ctrl.state with
    | chunkData => exact hmark (HttpParser.step_chunkData b hs)
    | bodyIdentity =>
        rcases HttpParser.step_bodyIdentity b hs with hacts | ⟨more, hacts, hmore⟩
        · exact hmark hacts
        · obtain ⟨hgrow, hheld⟩ := gathered_byte_last hr hopen hacts hmore
          exact ⟨hgrow, fun _ => hheld⟩
    | _ =>
        rw [hs] at hin
        cases hin
  · rw [if_neg hin, Nat.add_zero]
    by_cases hend : c.ctrl.state = .chunkDataAlmostDone
    · obtain ⟨hsame, hstop⟩ := gathered_byte_end hr (open_body hshape (.inr hend))
        (HttpParser.step_chunkDataAlmostDone b hend)
      exact ⟨hsame, fun h => absurd h hstop⟩
    · have hfrag : c.frag.map Prod.fst ≠ some .body := by
        intro hbody
        rw [hbody] at hshape
        cases hshape with
        | body h => cases h <;> simp_all [State.inBody]
      obtain ⟨hsame, hheld⟩ := gathered_byte_bodyFree hr
        (HttpParser.bodyFree_step (Bool.eq_false_iff.mpr hin) hend) hfrag
      exact ⟨hsame, fun _ => hheld⟩

end Byte

/-! ### Calls -/

section Call
variable {c : RequestRun}

theorem gathered_start (p : Parser HttpParser HttpErrno RequestData) :
    gathered (start machine p) = p.client.data.body.length := by
  rw [gathered, held, start]
  cases machine.resume p.ctrl with
  | none => rfl
  | some k => cases k <;> rfl

theorem Resting.start_shape {p : Parser HttpParser HttpErrno RequestData} (h : Resting p) :
    (start machine p).ctrl.Shape ((start machine p).frag.map Prod.fst) := by
  rw [start, Option.map_map]
  unfold Resting at h
  cases hres : machine.resume p.ctrl with
  | none =>
      rw [hres] at h
      exact h
  | some k =>
      rw [hres] at h
      exact h

/-- The end of a call hands out no more than has been gathered, and all of it without an error. -/
theorem finish_body (hstop : c.status = .stopped → held c = 0) :
    (finish machine requestSettings c).1.client.data.body.length ≤ gathered c ∧
      ((finish machine requestSettings c).1.errno = none →
        (finish machine requestSettings c).1.client.data.body.length = gathered c) := by
  obtain ⟨s, f, g, t, n⟩ := c
  cases t with
  | failed e => exact ⟨Nat.le_add_right _ _, fun h => by cases h⟩
  | stopped =>
      have hheld := hstop rfl
      have heq : gathered ⟨s, f, g, .stopped, n⟩ = g.data.body.length := by
        rw [gathered, hheld, Nat.add_zero]
      rw [heq]
      exact ⟨Nat.le_refl _, fun _ => rfl⟩
  | running =>
      rw [finish]
      dsimp only
      cases machine.leave s with
      | error e => exact ⟨Nat.le_add_right _ _, fun h => by cases h⟩
      | ok s' =>
          cases f with
          | none => exact ⟨Nat.le_refl _, fun _ => rfl⟩
          | some f =>
              obtain ⟨k, xs⟩ := f
              dsimp only
              by_cases hk : k = .body
              · subst hk
                have hlen : (g.data.body ++ xs).length = g.data.body.length + xs.length :=
                  List.length_append
                exact ⟨Nat.le_of_eq hlen, fun _ => hlen⟩
              · have hheld : held ⟨s, some (k, xs), g, .running, n⟩ = 0 :=
                  held_eq_zero fun h => hk (Option.some.inj h)
                rw [gathered, hheld, Nat.add_zero]
                cases hd : requestSettings.data k xs g with
                | ok g' =>
                    dsimp only
                    rw [data_body hk hd]
                    exact ⟨Nat.le_refl _, fun _ => rfl⟩
                | error e => exact ⟨Nat.le_refl _, fun h => by cases h⟩

end Call

end Xzmjx.HttpRequestModel
