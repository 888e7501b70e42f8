import Xzmjx.HttpRequestModel
import Xzmjx.HttpParserInvariant

/-!
# How a request is cut

`HttpRequestParser::execute` fed with a request in chunks. The body callback
appends, so a body may be cut; the callbacks for the URL and for header fields
and values replace what the fragment before has set, so a cut inside one of
these, or just behind it, shows.
-/
namespace Xzmjx.HttpRequestModel
open HttpParserModel PushParser

abbrev RequestRun := Run HttpParser UInt8 Element HttpErrno RequestData

namespace HttpRequestParser

/-- `m_error` is set exactly for an error that no upgrade hides. -/
def Tracks (h : HttpRequestParser) : Prop :=
  h.error = if h.parser.ctrl.upgrade then none else h.parser.errno

theorem new_tracks : new.Tracks := rfl

/-- What `execute` makes of the return of `http_parser_execute`. -/
theorem execute_spec (h : HttpRequestParser) (data : Bytes) :
    ∃ buf, h.execute data =
      (⟨(httpParserExecute requestSettings h.parser data).1,
        if (httpParserExecute requestSettings h.parser data).1.ctrl.upgrade then h.error
        else (httpParserExecute requestSettings h.parser data).1.errno.or h.error⟩,
      buf, (httpParserExecute requestSettings h.parser data).2) := by
  unfold execute
  generalize httpParserExecute requestSettings h.parser data = r
  obtain ⟨⟨p, g, errno⟩, n⟩ := r
  by_cases hu : p.upgrade
  · exact ⟨data, by simp [hu]⟩
  · cases errno with
    | some e => exact ⟨data, by simp [hu]⟩
    | none =>
        by_cases hn : n < data.length
        · exact ⟨_, by simp [hu, hn]; rfl⟩
        · exact ⟨_, by simp [hu, hn]; rfl⟩

theorem parser_execute (h : HttpRequestParser) (data : Bytes) :
    (h.execute data).1.parser = (httpParserExecute requestSettings h.parser data).1 := by
  obtain ⟨buf, hb⟩ := h.execute_spec data
  rw [hb]

theorem execute_count (h : HttpRequestParser) (data : Bytes) :
    (h.execute data).2.2 = (httpParserExecute requestSettings h.parser data).2 := by
  obtain ⟨buf, hb⟩ := h.execute_spec data
  rw [hb]

end HttpRequestParser

theorem httpParserExecute_eq_feed {p : Parser HttpParser HttpErrno RequestData} {data : Bytes}
    (hd : data ≠ []) :
    httpParserExecute requestSettings p data = feed machine requestSettings p data := by
  rw [httpParserExecute, if_neg (by simp [hd])]

theorem httpParserExecute_of_errno {p : Parser HttpParser HttpErrno RequestData} {e : HttpErrno}
    (hp : p.errno = some e) (data : Bytes) :
    httpParserExecute requestSettings p data = (p, 0) := by
  rw [httpParserExecute, if_neg (by simp [hp]), feed, hp]

namespace HttpRequestParser

theorem Tracks.execute {h : HttpRequestParser} (ht : h.Tracks) (data : Bytes) :
    (h.execute data).1.Tracks := by
  obtain ⟨buf, hb⟩ := h.execute_spec data
  rw [hb]
  unfold Tracks at ht ⊢
  cases he : h.parser.errno with
  | some e =>
      rw [httpParserExecute_of_errno he]
      rw [he] at ht
      dsimp only
      rw [ht, he]
      split_ifs <;> rfl
  | none =>
      have hnone : h.error = none := by
        rw [ht, he]
        split_ifs <;> rfl
      dsimp only
      rw [hnone, Option.or_none]

theorem eq_of_parser_eq {h h' : HttpRequestParser} (ht : h.Tracks) (ht' : h'.Tracks)
    (hp : h.parser = h'.parser) : h = h' := by
  obtain ⟨p, e⟩ := h
  obtain ⟨p', e'⟩ := h'
  obtain rfl : p = p' := hp
  rw [mk.injEq]
  exact ⟨rfl, (ht : e = _).trans (ht' : e' = _).symm⟩

theorem Tracks.executeAll {h : HttpRequestParser} (ht : h.Tracks) (chunks : List Bytes) :
    (h.executeAll chunks).Tracks := by
  induction chunks generalizing h with
  | nil => exact ht
  | cons x chunks ih => exact ih (ht.execute x)

theorem parser_executeAll (h : HttpRequestParser) {chunks : List Bytes}
    (hne : ∀ x ∈ chunks, x ≠ []) :
    (h.executeAll chunks).parser = feedAll machine requestSettings h.parser chunks := by
  induction chunks generalizing h with
  | nil => rfl
  | cons x chunks ih =>
      have hx : (h.execute x).1.parser = (feed machine requestSettings h.parser x).1 := by
        rw [parser_execute, httpParserExecute_eq_feed (hne x (by simp))]
      have := ih (h.execute x).1 (fun y hy => hne y (by simp [hy]))
      rw [hx] at this
      exact this

end HttpRequestParser

/-! ### Cuts inside a body do not show -/

theorem body_resumable : Resumable machine requestSettings .body HttpParser.OpenBody where
  accepts xs g := ⟨_, rfl⟩
  append xs ys g g' h := by
    cases h
    simp [requestSettings, onRequestBodyCb]
  step _ _ h := h.reopens
  quiet _ h := h.quiet

/-- Where a new parser stands after reading `r` in one call, before the call ends. -/
def standing (r : Bytes) : RequestRun :=
  run machine requestSettings (start machine HttpRequestParser.new.parser) r

theorem standing_append (xs ys : Bytes) :
    standing (xs ++ ys) = run machine requestSettings (standing xs) ys := run_append _ _ _

theorem standing_shape {r : Bytes} (h : (standing r).status = .running) :
    (standing r).ctrl.Shape ((standing r).frag.map Prod.fst) :=
  run_invariant HttpParser.Shape (fun _ _ _ _ hs ho => (HttpParser.lands_step hs).shape _ ho)
    (.plain rfl ⟨rfl, rfl⟩) h

/-- The request `pre ++ post` may be cut behind `pre`: the parser has given up before, or it has
not stopped for an upgrade and no URL, header field or header value is open; an open chunk of
the body is followed by its carriage return. -/
def cutOk (pre post : Bytes) : Bool :=
  match (standing pre).status, (standing pre).frag with
  | .failed _, _ => true
  | .stopped, _ => false
  | .running, none => true
  | .running, some (.body, _) =>
      (standing pre).ctrl.state = .bodyIdentity ||
        (post[(standing pre).ctrl.contentLength]?).all (· = CR)
  | .running, some _ => false

/-- Every cut between two of the chunks is one of these. -/
def CutsOk (chunks : List Bytes) : Prop :=
  ∀ xs ys, xs ≠ [] → ys ≠ [] → chunks = xs ++ ys → cutOk xs.flatten ys.flatten = true

theorem cutsOk_single (x : Bytes) : CutsOk [x] := by
  intro xs ys hx hy h
  have hlen := congrArg List.length h
  have hx' := List.length_pos_iff.mpr hx
  have hy' := List.length_pos_iff.mpr hy
  simp at hlen
  omega

theorem cutsOk_pair {x y : Bytes} (h : cutOk x y = true) : CutsOk [x, y] := by
  intro xs ys hx hy hxy
  cases xs with
  | nil => contradiction
  | cons x' xs =>
      cases xs with
      | nil =>
          obtain ⟨rfl, rfl⟩ : x = x' ∧ [y] = ys := by simpa using hxy
          simpa using h
      | cons x'' xs =>
          have hlen := congrArg List.length hxy
          have hy' := List.length_pos_iff.mpr hy
          simp only [List.length_cons, List.length_nil, List.length_append] at hlen
          omega

theorem clean_of_cutOk {pre post : Bytes} (h : cutOk pre post = true) :
    CleanCut machine .body HttpParser.OpenBody post (standing pre) := by
  unfold cutOk at h
  have hshape := standing_shape (r := pre)
  generalize standing pre = c at h hshape ⊢
  obtain ⟨s, f, g, t, n⟩ := c
  cases t with
  | failed e => exact .failed rfl
  | stopped => cases h
  | running =>
      cases f with
      | none =>
          refine .between rfl ?_ rfl
          cases hshape rfl with
          | plain hs hc => exact hc.quiet (HttpParser.resume_of_plain hs)
          | bodyCut hb => exact hb.quiet
      | some f =>
          obtain ⟨k, xs⟩ := f
          cases k with
          | body =>
              cases hshape rfl with
              | body hb =>
                  refine .inside rfl rfl hb (hb.not_rejected ?_)
                  rw [Bool.or_eq_true, decide_eq_true_eq] at h
                  refine h.imp id ?_
                  intro hcr b hb'
                  simpa [hb'] using hcr
          | url => cases h
          | headerField => cases h
          | headerValue => cases h

theorem cleanCuts_of_cutOk {pre : Bytes} {chunks : List Bytes}
    (h : ∀ xs ys, xs ≠ [] → ys ≠ [] → chunks = xs ++ ys →
      cutOk (pre ++ xs.flatten) ys.flatten = true) :
    CleanCuts machine requestSettings .body HttpParser.OpenBody (standing pre) chunks := by
  induction chunks generalizing pre with
  | nil => trivial
  | cons x chunks ih =>
      cases chunks with
      | nil => trivial
      | cons y zs =>
          rw [CleanCuts, ← standing_append]
          refine ⟨?_, ih ?_⟩
          · simpa using clean_of_cutOk (h [x] (y :: zs) (by simp) (by simp) rfl)
          · intro xs ys hx hy hxy
            have := h (x :: xs) ys (by simp) hy (by rw [hxy]; rfl)
            simpa using this

/-- `r` cut into consecutive non-empty chunks. -/
structure Segments (r : Bytes) (chunks : List Bytes) : Prop where
  flatten : chunks.flatten = r
  nonempty : ∀ x ∈ chunks, x ≠ []

theorem Segments.whole {r : Bytes} (hr : r ≠ []) : Segments r [r] := ⟨by simp, by simpa using hr⟩

theorem Segments.two {xs ys : Bytes} (hx : xs ≠ []) (hy : ys ≠ []) :
    Segments (xs ++ ys) [xs, ys] := ⟨by simp, by simp [hx, hy]⟩

namespace HttpRequestParser

/-- Harmless cuts do not show in the parser. -/
theorem executeAll_eq_whole {r : Bytes} {chunks : List Bytes} (hs : Segments r chunks)
    (hr : r ≠ []) (hcuts : CutsOk chunks) : new.executeAll chunks = new.executeAll [r] := by
  have hne : chunks ≠ [] := by
    rintro rfl
    exact hr hs.flatten.symm
  have hclean : CleanCuts machine requestSettings .body HttpParser.OpenBody (standing []) chunks :=
    cleanCuts_of_cutOk hcuts
  refine eq_of_parser_eq (new_tracks.executeAll _) (new_tracks.executeAll _) ?_
  rw [parser_executeAll _ hs.nonempty, parser_executeAll _ (Segments.whole hr).nonempty,
    feedAll_eq_feed body_resumable rfl hne hclean, hs.flatten]
  rfl

end HttpRequestParser

/-! ### The cut behind the URL -/

/-- A run stands inside the first URL and the next byte closes it. -/
structure UrlEnd (c : RequestRun) (b : UInt8) : Prop where
  running : c.status = .running
  early : c.ctrl.Early
  inUrl : c.ctrl.state.inUrl = true
  closes : ∃ q : HttpParser, machine.step c.ctrl b = (q, [.emit .url false true]) ∧
    q.upgrade = false

/-- A run that has not reached the end of its first URL has not finished a request. -/
theorem urlEnd_or_not_finished (bs : Bytes) {c : RequestRun} (hr : c.status = .running)
    (he : c.ctrl.Early) (hf : c.client.finished = false) :
    (∃ xs b ys, bs = xs ++ b :: ys ∧ UrlEnd (run machine requestSettings c xs) b) ∨
      (run machine requestSettings c bs).client.finished = false := by
  induction bs generalizing c with
  | nil => exact Or.inr hf
  | cons b bs ih =>
      obtain ⟨s, f, g, t, n⟩ := c
      obtain rfl : t = _ := hr
      have hstep : HttpParser.EarlyStep s (s.step b) := he.step
      generalize hm : HttpParser.step s b = r at hstep
      have hm' : machine.step s b = r := hm
      cases hstep with
      | fails hq has =>
          right
          rw [run_cons, run_of_ne_running]
          · rcases has with rfl | rfl <;> simpa [byte, hm', acts, act, advance] using hf
          · rcases has with rfl | rfl <;> simp [byte, hm', acts, act, advance]
      | @stays q as hq has =>
          have hb : (byte machine requestSettings ⟨s, f, g, .running, n⟩ b).status = .running ∧
              (byte machine requestSettings ⟨s, f, g, .running, n⟩ b).ctrl = q ∧
              (byte machine requestSettings ⟨s, f, g, .running, n⟩ b).client = g := by
            rcases has with rfl | rfl | rfl <;>
              simp [byte, hm', acts, act, advance, requestSettings]
          obtain ⟨hbr, hbc, hbg⟩ := hb
          rcases ih hbr (by rw [hbc]; exact hq) (by rw [hbg]; exact hf) with
            ⟨xs, b', ys, rfl, hend⟩ | hfin
          · exact Or.inl ⟨b :: xs, b', ys, rfl, hend⟩
          · exact Or.inr hfin
      | closes hq hp =>
          exact Or.inl ⟨[], b, bs, rfl, rfl, he, hp, _, hm', hq⟩

theorem UrlEnd.exists_of_finished {r : Bytes} (h : (standing r).client.finished = true) :
    ∃ xs b ys, r = xs ++ b :: ys ∧ UrlEnd (standing xs) b := by
  have he : (start machine HttpRequestParser.new.parser).ctrl.Early :=
    ⟨Or.inl rfl, rfl, rfl, rfl⟩
  rcases urlEnd_or_not_finished r rfl he rfl with hend | hfin
  · exact hend
  · rw [standing, hfin] at h
    cases h

theorem HttpRequestParser.Tracks.hasError {h : HttpRequestParser} (ht : h.Tracks)
    {e : HttpErrno} (he : h.parser.errno = some e) (hu : h.parser.ctrl.upgrade = false) :
    h.hasError = true := by
  rw [HttpRequestParser.hasError, ht, hu, he]
  rfl

/-- An empty URL fragment is refused. -/
theorem feed_urlEnd {p : Parser HttpParser HttpErrno RequestData} {q : HttpParser} {b : UInt8}
    {ys : Bytes} (hp : p.errno = none) (hc : p.ctrl.Early) (hu : p.ctrl.state.inUrl = true)
    (hstep : machine.step p.ctrl b = (q, [.emit .url false true])) :
    (feed machine requestSettings p (b :: ys)).1 = ⟨q, p.client, some .cbUrl⟩ := by
  have henter : machine.enter p.ctrl = p.ctrl := by
    obtain ⟨s, g, e⟩ := p
    obtain ⟨-, -, hl, hf⟩ := hc
    cases s
    simp_all [machine]
  have hres : machine.resume p.ctrl = some .url := HttpParser.resume_of_inUrl hu
  have hbyte : (byte machine requestSettings (start machine p) b) =
      ⟨q, some (.url, []), p.client, .failed .cbUrl, 1⟩ := by
    simp [byte, start, henter, hres, hstep, acts, act, advance, requestSettings, onRequestUrlCb,
      httpParserParseUrl]
  rw [feed, hp]
  dsimp only
  rw [run_cons, hbyte, run_of_ne_running (by simp)]
  rfl

/-- A request that is cut just behind its URL is refused. -/
theorem UrlEnd.hasError {xs ys : Bytes} {b : UInt8} (h : UrlEnd (standing xs) b)
    (hx : xs ≠ []) : (HttpRequestParser.new.executeAll [xs, b :: ys]).hasError = true := by
  obtain ⟨q, hstep, hq⟩ := h.closes
  have hparser : (HttpRequestParser.new.executeAll [xs, b :: ys]).parser =
      (feed machine requestSettings (finish machine requestSettings (standing xs)).1
        (b :: ys)).1 := by
    rw [HttpRequestParser.parser_executeAll _ (by simp [hx])]
    rfl
  have hleave : machine.leave (standing xs).ctrl = .ok (standing xs).ctrl := by
    simp [machine, HttpParser.leave, h.early.calm.inLoop]
  have hfrag : ∃ u, (standing xs).frag = some (.url, u) := by
    have hopen := (standing_shape h.running).url_open h.inUrl
    cases hf : (standing xs).frag with
    | none => simp [hf] at hopen
    | some f =>
        obtain ⟨k, u⟩ := f
        obtain rfl : k = .url := by simpa [hf] using hopen
        exact ⟨u, rfl⟩
  obtain ⟨u, hfrag⟩ := hfrag
  have ht := HttpRequestParser.new_tracks.executeAll [xs, b :: ys]
  cases hd : requestSettings.data .url u (standing xs).client with
  | error e =>
      have hp : (finish machine requestSettings (standing xs)).1 =
          ⟨(standing xs).ctrl, (standing xs).client, some e⟩ := by
        simp [finish, h.running, hleave, hfrag, hd]
      rw [hp, feed] at hparser
      exact ht.hasError (by rw [hparser]) (by rw [hparser]; exact h.early.upgrade)
  | ok g =>
      have hp : (finish machine requestSettings (standing xs)).1 =
          ⟨(standing xs).ctrl, g, none⟩ := by
        simp [finish, h.running, hleave, hfrag, hd]
      rw [hp, feed_urlEnd rfl h.early h.inUrl hstep] at hparser
      exact ht.hasError (by rw [hparser]) (by rw [hparser]; exact hq)

/-! ### Segmentation -/

theorem data_finished {k : Element} {xs : Bytes} {g g' : RequestData}
    (h : requestSettings.data k xs g = .ok g') : g'.finished = g.finished := by
  cases k with
  | url =>
      simp only [requestSettings, onRequestUrlCb] at h
      split at h
      · cases h
      · cases h
        rfl
  | headerField => cases h; rfl
  | headerValue => cases h; rfl
  | body => cases h; rfl

/-- The end of a call finishes no request. -/
theorem finish_finished (c : RequestRun) :
    (finish machine requestSettings c).1.client.finished = c.client.finished := by
  obtain ⟨s, f, g, t, n⟩ := c
  cases t with
  | failed e => rfl
  | stopped => rfl
  | running =>
      simp only [finish]
      split
      · rfl
      · split
        · rfl
        · split
          · next h => exact data_finished h
          · rfl

namespace HttpRequestParser

/-- What a client of the parser sees after executing the chunks: `hasError`, `isFinish` and the
request. -/
def outcome (chunks : List Bytes) : Bool × Bool × HttpRequest :=
  let h := new.executeAll chunks
  (h.hasError, h.isFinish, h.getData)

theorem parser_executeAll_whole {r : Bytes} (hr : r ≠ []) :
    (new.executeAll [r]).parser = (finish machine requestSettings (standing r)).1 := by
  rw [parser_executeAll _ (Segments.whole hr).nonempty]
  rfl

/-- Every request that is accepted in one piece is refused when cut behind its URL. -/
theorem exists_refused_cut {r : Bytes} (hfin : (new.executeAll [r]).isFinish = true) :
    ∃ chunks, Segments r chunks ∧ (new.executeAll chunks).hasError = true := by
  have hr : r ≠ [] := by
    rintro rfl
    cases hfin
  have hstand : (standing r).client.finished = true := by
    rw [← finish_finished, ← parser_executeAll_whole hr]
    exact hfin
  obtain ⟨xs, b, ys, rfl, hend⟩ := UrlEnd.exists_of_finished hstand
  have hx : xs ≠ [] := by
    rintro rfl
    cases hend.inUrl
  exact ⟨[xs, b :: ys], Segments.two hx (by simp), hend.hasError hx⟩

/-- Two ways of cutting `r` agree if their cuts are harmless. Without that condition no request
that the parser accepts is safe from its segmentation. -/
theorem outcome_segmentation (r : Bytes) :
    (∀ c₁ c₂, Segments r c₁ → Segments r c₂ → CutsOk c₁ → CutsOk c₂ →
      outcome c₁ = outcome c₂) ∧
    ((new.executeAll [r]).hasError = false → (new.executeAll [r]).isFinish = true →
      ∃ c₁ c₂, Segments r c₁ ∧ Segments r c₂ ∧ outcome c₁ ≠ outcome c₂) := by
  refine ⟨?_, ?_⟩
  · intro c₁ c₂ h₁ h₂ hc₁ hc₂
    by_cases hr : r = []
    · subst hr
      have hnil : ∀ c, Segments [] c → c = [] := by
        intro c hc
        cases c with
        | nil => rfl
        | cons x c =>
            exact absurd (List.append_eq_nil_iff.mp hc.flatten).1 (hc.nonempty x (by simp))
      rw [hnil c₁ h₁, hnil c₂ h₂]
    · unfold outcome
      rw [executeAll_eq_whole h₁ hr hc₁, executeAll_eq_whole h₂ hr hc₂]
  · intro herr hfin
    obtain ⟨chunks, hs, hbad⟩ := exists_refused_cut hfin
    have hr : r ≠ [] := by
      rintro rfl
      cases hfin
    refine ⟨[r], chunks, Segments.whole hr, hs, ?_⟩
    intro heq
    have : (new.executeAll [r]).hasError = (new.executeAll chunks).hasError := congrArg Prod.fst heq
    rw [herr, hbad] at this
    cases this

def loginHead : Bytes :=
  bytes "POST /login?aa=bb#sss HTTP/1.1\r\nHost: www.sylar.top\r\nContent-Length: 10\r\n\r\n12345"

/-- The request of the parser's test, cut inside its body and behind its URL. -/
theorem outcome_segmentation_login :
    outcome [loginHead ++ bytes "67890"] = outcome [loginHead, bytes "67890"] ∧
    ∃ c₁ c₂, Segments (loginHead ++ bytes "67890") c₁ ∧ Segments (loginHead ++ bytes "67890") c₂ ∧
      outcome c₁ ≠ outcome c₂ := by
  have hone : Segments (loginHead ++ bytes "67890") [loginHead ++ bytes "67890"] :=
    Segments.whole (by decide +kernel)
  have htwo : Segments (loginHead ++ bytes "67890") [loginHead, bytes "67890"] :=
    Segments.two (by decide +kernel) (by decide +kernel)
  exact ⟨(outcome_segmentation _).1 _ _ hone htwo (cutsOk_single _)
      (cutsOk_pair (by decide +kernel)),
    (outcome_segmentation _).2 (by decide +kernel) (by decide +kernel)⟩

/-- A cut inside a header name loses the beginning of the name. -/
theorem outcome_depends_on_segmentation :
    ¬∀ r c₁ c₂, Segments r c₁ → Segments r c₂ → outcome c₁ = outcome c₂ := by
  intro h
  have hsplit : Segments (bytes "GET /a HTTP/1.1\r\nHost: x\r\n\r\n")
      [bytes "GET /a HTTP/1.1\r\nHo", bytes "st: x\r\n\r\n"] :=
    ⟨by decide +kernel, by decide +kernel⟩
  have heq := h _ _ _ (Segments.whole (by decide +kernel)) hsplit
  revert heq
  decide +kernel

end HttpRequestParser

end Xzmjx.HttpRequestModel
