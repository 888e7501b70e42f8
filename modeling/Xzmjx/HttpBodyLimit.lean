import Xzmjx.HttpBodyAnnounced

/-!
# The limit for a request body

`recvRequest` takes the size of its buffer from the configuration and compares the bytes that
are not parsed with it. Nothing reads the limit for the body, so the body is as long as the
peer announces and sends it.
-/
namespace Xzmjx.HttpRequestModel
open HttpParserModel PushParser

/-- A round of the loop: the parser before it, and the data that it executes. -/
structure Round where
  parser : HttpRequestParser
  data : Bytes

namespace Round

/-- The parser behind `execute`. -/
def after (r : Round) : HttpRequestParser := (r.parser.execute r.data).1

/-- The bytes that are not parsed: `offset` behind `execute`. -/
def offset (r : Round) : ℕ := r.data.length - (r.parser.execute r.data).2.2

/-- What the buffer holds for the next round. -/
def kept (r : Round) : Bytes := (r.parser.execute r.data).2.1.take r.offset

/-- The loop makes another round. -/
def Continues (buffSize : ℕ) (r : Round) : Prop :=
  r.after.hasError = false ∧ r.offset < buffSize ∧ r.after.isFinish = false

instance (buffSize : ℕ) (r : Round) : Decidable (r.Continues buffSize) :=
  inferInstanceAs (Decidable (_ ∧ _ ∧ _))

end Round

namespace HttpSession

/-- The rounds that `recvLoop` makes. -/
def rounds (buffSize : ℕ) : ℕ → HttpRequestParser → Bytes → Socket → List Round
  | 0, _, _, _ => []
  | fuel + 1, parser, held, s =>
      let (got, s) := s.read (buffSize - held.length)
      if got = [] then []
      else
        let r : Round := ⟨parser, held ++ got⟩
        r :: if r.Continues buffSize then rounds buffSize fuel r.after r.kept s else []

/-- The rounds of one call. -/
def recvRounds (buffSize : ℕ) (s : Socket) : List Round :=
  rounds buffSize (s.incoming.flatten.length + 1) .new [] s

/-- Behind every call of `execute` the body exceeds the limit by one buffer at most, and the
body of a returned request does not exceed it. -/
structure BodyLimited (limit buffSize : ℕ) (s : Socket) : Prop where
  accumulated : ∀ r ∈ recvRounds buffSize s, r.after.getData.body.length ≤ limit + buffSize
  returned : ∀ req, (recvRequest buffSize s).1 = some req → req.body.length ≤ limit

/-- What the first reads announce. -/
def announces (buffSize : ℕ) (d : BodyScan) (s : Socket) (n : ℕ) : BodyScan :=
  (s.reads buffSize n).1.foldl BodyScan.read d

/-- What has arrived of the announced lengths with read `n + 1` fits the limit, with one buffer
more as long as no request is complete. -/
def Within (limit buffSize : ℕ) (d : BodyScan) (s : Socket) (n : ℕ) : Prop :=
  (announces buffSize d s (n + 1)).arrived ≤
    if (announces buffSize d s (n + 1)).complete then limit else limit + buffSize

/-- The reads up to the one that completes a request fit the limit. -/
def AnnouncesWithin (limit buffSize : ℕ) (d : BodyScan) (s : Socket) : Prop :=
  ∀ n, (announces buffSize d s n).complete = false → Within limit buffSize d s n

theorem init_body (r : HttpRequest) : r.init.body = r.body := by
  unfold HttpRequest.init
  dsimp only
  split_ifs <;> rfl

/-! ### Rounds -/

/-- What holds of the parser and the data of a round. -/
structure Sound (buffSize : ℕ) (r : Round) : Prop where
  tracks : r.parser.Tracks
  resting : r.parser.parser.errno = none → Resting r.parser.parser
  nonempty : r.data ≠ []
  fits : r.data.length ≤ buffSize

section Rounds
variable {buffSize fuel : ℕ} {r : Round}

theorem Sound.after_parser (h : Sound buffSize r) :
    r.after.parser = (feed machine requestSettings r.parser.parser r.data).1 := by
  rw [Round.after, HttpRequestParser.parser_execute, httpParserExecute_eq_feed h.nonempty]

/-- An error stays. -/
theorem Sound.live (h : Sound buffSize r) (herr : r.after.parser.errno = none) :
    r.parser.parser.errno = none := by
  cases he : r.parser.parser.errno with
  | none => rfl
  | some e =>
      rw [h.after_parser, feed, he] at herr
      rw [he] at herr
      cases herr

/-- A round without an error parses something. -/
theorem Sound.parses (h : Sound buffSize r) (herr : r.after.parser.errno = none) :
    0 < (r.parser.execute r.data).2.2 ∧ r.after.hasError = false := by
  have hp := h.live herr
  exact ⟨(execute_all (h.resting hp) hp h.nonempty herr).1, execute_no_error h.tracks herr⟩

/-- The parser stays sound between two rounds. -/
theorem Sound.next (h : Sound buffSize r) (hfin : r.after.isFinish = false) :
    r.after.Tracks ∧ (r.after.parser.errno = none → Resting r.after.parser) := by
  refine ⟨h.tracks.execute r.data, fun herr => ?_⟩
  have hp := h.live herr
  exact ((execute_all (h.resting hp) hp h.nonempty herr).2 hfin).1

variable {h : HttpRequestParser} {held : Bytes} {s : Socket}

/-- The round that the loop makes next. -/
def nextRound (buffSize : ℕ) (h : HttpRequestParser) (held : Bytes) (s : Socket) : Round :=
  ⟨h, held ++ (s.read (buffSize - held.length)).1⟩

theorem rounds_succ (buffSize fuel : ℕ) (h : HttpRequestParser) (held : Bytes) (s : Socket) :
    rounds buffSize (fuel + 1) h held s =
      if (s.read (buffSize - held.length)).1 = [] then []
      else
        nextRound buffSize h held s ::
          if (nextRound buffSize h held s).Continues buffSize then
            rounds buffSize fuel (nextRound buffSize h held s).after
              (nextRound buffSize h held s).kept (s.read (buffSize - held.length)).2
          else [] := rfl

theorem recvLoop_nextRound (hgot : (s.read (buffSize - held.length)).1 ≠ [])
    (hround : r = nextRound buffSize h held s) :
    (recvLoop buffSize (fuel + 1) h held s).1 =
      if r.after.hasError then none
      else if buffSize ≤ r.offset then none
      else if r.after.isFinish then some r.after.getData.init
      else (recvLoop buffSize fuel r.after r.kept (s.read (buffSize - held.length)).2).1 := by
  subst hround
  rw [recvLoop_succ, if_neg hgot, apply_ite Prod.fst, apply_ite Prod.fst, apply_ite Prod.fst]
  rfl

theorem recvLoop_continues (hgot : (s.read (buffSize - held.length)).1 ≠ [])
    (hround : r = nextRound buffSize h held s) (hcont : r.Continues buffSize) :
    (recvLoop buffSize (fuel + 1) h held s).1 =
      (recvLoop buffSize fuel r.after r.kept (s.read (buffSize - held.length)).2).1 := by
  obtain ⟨herr, hroom, hfin⟩ := hcont
  rw [recvLoop_nextRound hgot hround, if_neg (Bool.eq_false_iff.mp herr),
    if_neg (Nat.not_le_of_lt hroom), if_neg (Bool.eq_false_iff.mp hfin)]

theorem recvLoop_ends (hgot : (s.read (buffSize - held.length)).1 ≠ [])
    (hround : r = nextRound buffSize h held s) (hends : ¬r.Continues buffSize) :
    (recvLoop buffSize (fuel + 1) h held s).1 =
      if r.after.hasError = false ∧ r.offset < buffSize then some r.after.getData.init
      else none := by
  rw [recvLoop_nextRound hgot hround]
  by_cases herr : r.after.hasError = true
  · rw [if_pos herr, if_neg]
    rintro ⟨hno, -⟩
    rw [herr] at hno
    cases hno
  · rw [if_neg herr]
    rw [Bool.not_eq_true] at herr
    by_cases hfull : buffSize ≤ r.offset
    · rw [if_pos hfull, if_neg fun hgood => Nat.not_lt_of_le hfull hgood.2]
    · have hfin : r.after.isFinish = true := by
        by_contra hnot
        exact hends ⟨herr, Nat.lt_of_not_le hfull, Bool.eq_false_iff.mpr hnot⟩
      rw [if_neg hfull, if_pos hfin, if_pos ⟨herr, Nat.lt_of_not_le hfull⟩]

/-- The next round is sound. -/
theorem sound_nextRound (ht : h.Tracks) (hrest : h.parser.errno = none → Resting h.parser)
    (hheld : held.length ≤ buffSize) (hgot : (s.read (buffSize - held.length)).1 ≠ []) :
    Sound buffSize (nextRound buffSize h held s) := by
  refine ⟨ht, hrest, List.append_ne_nil_of_right_ne_nil _ hgot, ?_⟩
  have hle := s.read_length_le (buffSize - held.length)
  rw [nextRound, List.length_append]
  omega

theorem kept_length_le (h : r.Continues buffSize) : r.kept.length ≤ buffSize :=
  Nat.le_trans (List.length_take_le _ _) (Nat.le_of_lt h.2.1)

/-- A request that the loop returns is the one of a round that finishes it. -/
theorem exists_round_of_recvLoop {req : HttpRequest}
    (hloop : (recvLoop buffSize fuel h held s).1 = some req) :
    ∃ r ∈ rounds buffSize fuel h held s,
      r.after.isFinish = true ∧ req = r.after.getData.init := by
  induction fuel generalizing h held s with
  | zero => cases hloop
  | succ fuel ih =>
      rw [rounds_succ]
      by_cases hgot : (s.read (buffSize - held.length)).1 = []
      · rw [recvLoop_succ, if_pos hgot] at hloop
        cases hloop
      · rw [if_neg hgot]
        by_cases hcont : (nextRound buffSize h held s).Continues buffSize
        · rw [recvLoop_continues hgot rfl hcont] at hloop
          obtain ⟨r, hr, hlast⟩ := ih hloop
          rw [if_pos hcont]
          exact ⟨r, List.mem_cons_of_mem _ hr, hlast⟩
        · rw [recvLoop_ends hgot rfl hcont] at hloop
          split_ifs at hloop with hgood
          refine ⟨_, List.mem_cons_self, ?_, (Option.some.inj hloop).symm⟩
          by_contra hnot
          exact hcont ⟨hgood.1, hgood.2, Bool.eq_false_iff.mpr hnot⟩

/-- A round that finishes a request without an error is the last one, and the loop returns the
request. -/
theorem recvLoop_of_round (ht : h.Tracks) (hrest : h.parser.errno = none → Resting h.parser)
    (hheld : held.length ≤ buffSize) (hr : r ∈ rounds buffSize fuel h held s)
    (hfin : r.after.isFinish = true) (herr : r.after.parser.errno = none) :
    (recvLoop buffSize fuel h held s).1 = some r.after.getData.init := by
  induction fuel generalizing h held s with
  | zero => cases hr
  | succ fuel ih =>
      rw [rounds_succ] at hr
      by_cases hgot : (s.read (buffSize - held.length)).1 = []
      · rw [if_pos hgot] at hr
        cases hr
      · rw [if_neg hgot] at hr
        have hfirst := sound_nextRound ht hrest hheld hgot
        rcases List.mem_cons.mp hr with rfl | hr
        · have hlast : ¬(nextRound buffSize h held s).Continues buffSize := fun hcont =>
            absurd hcont.2.2 (by rw [hfin]; decide)
          obtain ⟨hpos, hno⟩ := hfirst.parses herr
          have hfits := hfirst.fits
          have hlen := List.length_pos_iff.mpr hfirst.nonempty
          rw [recvLoop_ends hgot rfl hlast, if_pos ⟨hno, by rw [Round.offset]; omega⟩]
        · split_ifs at hr with hcont
          · obtain ⟨ht', hrest'⟩ := hfirst.next hcont.2.2
            rw [recvLoop_continues hgot rfl hcont]
            exact ih ht' hrest' (kept_length_le hcont) hr
          · cases hr

end Rounds

/-! ### A body of any length -/

/-- A request whose body arrives in chunks, up to its first chunk of one byte. -/
def chunkedHead : Bytes :=
  bytes "POST /b HTTP/1.1\r\nTransfer-Encoding: chunked\r\n\r\n1\r\nx\r\n"

def oneChunk : Bytes := bytes "1\r\nx\r\n"
def lastChunk : Bytes := bytes "0\r\n\r\n"

/-- The request in segments, `n` chunks behind the first. -/
def chunkedSegments (n : ℕ) : List Bytes :=
  chunkedHead :: (List.replicate n oneChunk ++ [lastChunk])

/-- The parser between two chunks. -/
def betweenChunks : HttpParser :=
  { HttpParser.init with
    state := .chunkSizeStart
    headerState := .transferEncodingChunked
    index := 6
    flags := { chunked := true }
    usesTransferEncoding := true
    httpMajor := 1
    httpMinor := 1
    method := .post }

section Chunks
variable {g : RequestData} {m : ℕ}

theorem standing_chunkedHead :
    standing chunkedHead =
      ⟨betweenChunks, none, (standing chunkedHead).client, .running, 54⟩ := by
  have hfields : (standing chunkedHead).ctrl = betweenChunks ∧ (standing chunkedHead).frag = none ∧
      (standing chunkedHead).status = .running ∧ (standing chunkedHead).parsed = 54 := by
    decide +kernel
  obtain ⟨hctrl, hfrag, hstatus, hparsed⟩ := hfields
  -- the run is evaluated for the fields above and nowhere else
  generalize standing chunkedHead = c at hctrl hfrag hstatus hparsed ⊢
  obtain ⟨s, f, g, t, n⟩ := c
  exact (Run.mk.injEq ..).mpr ⟨hctrl, hfrag, rfl, hstatus, hparsed⟩

theorem run_oneChunk :
    run machine requestSettings ⟨betweenChunks, none, g, .running, m⟩ oneChunk =
      ⟨betweenChunks, none, onRequestBodyCb (bytes "x") g, .running, m + 6⟩ := by
  have hbytes : oneChunk = ['1'.toUInt8, CR, LF, 'x'.toUInt8, CR, LF] := rfl
  have hstep : machine.step = HttpParser.step := rfl
  have hsize : betweenChunks.step '1'.toUInt8 =
      ({ betweenChunks with state := .chunkSize, nread := 1, contentLength := 1 }, []) := rfl
  have hcr : HttpParser.step
      { betweenChunks with state := .chunkSize, nread := 1, contentLength := 1 } CR =
      ({ betweenChunks with state := .chunkSizeAlmostDone, nread := 2, contentLength := 1 },
        []) := rfl
  have hlf : HttpParser.step
      { betweenChunks with state := .chunkSizeAlmostDone, nread := 2, contentLength := 1 } LF =
      ({ betweenChunks with state := .chunkData, nread := 0, contentLength := 1 },
        [.notify .chunkHeader]) := rfl
  have hdata : HttpParser.step
      { betweenChunks with state := .chunkData, nread := 0, contentLength := 1 } 'x'.toUInt8 =
      ({ betweenChunks with state := .chunkDataAlmostDone, nread := 0, contentLength := 0 },
        [.mark .body]) := rfl
  have hcr' : HttpParser.step
      { betweenChunks with state := .chunkDataAlmostDone, nread := 0, contentLength := 0 } CR =
      ({ betweenChunks with state := .chunkDataDone, nread := 0, contentLength := 0 },
        [.emit .body false true]) := rfl
  rw [hbytes]
  simp only [run_cons, byte, hstep, hsize, hcr, hlf, hdata, hcr', acts, act, advance, run_nil]
  rfl

/-- Chunks of one byte add as many bytes to the body. -/
theorem run_chunks (n : ℕ) :
    ∃ g', run machine requestSettings ⟨betweenChunks, none, g, .running, m⟩
          (List.replicate n oneChunk).flatten =
        ⟨betweenChunks, none, g', .running, m + 6 * n⟩ ∧
      g'.data.body.length = g.data.body.length + n ∧ g'.finished = g.finished := by
  induction n generalizing g m with
  | zero => exact ⟨g, rfl, rfl, rfl⟩
  | succ n ih =>
      obtain ⟨g', hrun, hlen, hfin⟩ := ih (g := onRequestBodyCb (bytes "x") g) (m := m + 6)
      refine ⟨g', ?_, ?_, hfin⟩
      · rw [List.replicate_succ, List.flatten_cons, run_append, run_oneChunk, hrun]
        congr 1
        omega
      · have hone : (onRequestBodyCb (bytes "x") g).data.body.length =
            g.data.body.length + 1 := List.length_append
        omega

/-- The chunks that are read leave the parser between two of them. -/
theorem standing_chunks (n : ℕ) :
    ∃ g, standing (chunkedHead ++ (List.replicate n oneChunk).flatten) =
        ⟨betweenChunks, none, g, .running, 54 + 6 * n⟩ ∧
      g.data.body.length = n + 1 ∧ g.finished = false := by
  obtain ⟨g, hrun, hlen, hfin⟩ := run_chunks (g := (standing chunkedHead).client) (m := 54) n
  refine ⟨g, ?_, ?_, ?_⟩
  · rw [standing_append, standing_chunkedHead, hrun]
  · rw [hlen, show (standing chunkedHead).client.data.body.length = 1 from rfl,
      Nat.add_comm]
  · rw [hfin]
    rfl

/-- The parser behind the last chunk. -/
def behindChunks : HttpParser :=
  { betweenChunks with
    state := .startReq
    flags := { chunked := true, trailing := true }
    nread := 2 }

theorem run_lastChunk :
    run machine requestSettings ⟨betweenChunks, none, g, .running, m⟩ lastChunk =
        ⟨behindChunks, none, onRequestMessageCompleteCb g, .running, m + 5⟩ ∧
      (run machine requestSettings ⟨betweenChunks, none, g, .running, m⟩
        lastChunk.dropLast).client = g := by
  have hbytes : lastChunk = ['0'.toUInt8, CR, LF, CR, LF] := rfl
  have hstep : machine.step = HttpParser.step := rfl
  have hsize : betweenChunks.step '0'.toUInt8 =
      ({ betweenChunks with state := .chunkSize, nread := 1 }, []) := rfl
  have hcr : HttpParser.step { betweenChunks with state := .chunkSize, nread := 1 } CR =
      ({ betweenChunks with state := .chunkSizeAlmostDone, nread := 2 }, []) := rfl
  have hlf : HttpParser.step { betweenChunks with state := .chunkSizeAlmostDone, nread := 2 } LF =
      ({ behindChunks with state := .headerFieldStart, nread := 0 }, [.notify .chunkHeader]) := rfl
  have hcr' : HttpParser.step { behindChunks with state := .headerFieldStart, nread := 0 } CR =
      ({ behindChunks with state := .headersAlmostDone, nread := 1 }, []) := rfl
  have hlf' : HttpParser.step { behindChunks with state := .headersAlmostDone, nread := 1 } LF =
      (behindChunks, [.notify .chunkComplete, .notify .messageComplete]) := rfl
  rw [hbytes]
  simp only [List.dropLast, run_cons, byte, hstep, hsize, hcr, hlf, hcr', hlf', acts, act, advance,
    run_nil]
  exact ⟨rfl, rfl⟩

theorem flatten_chunkedSegments (n : ℕ) :
    (chunkedSegments n).flatten =
      chunkedHead ++ (List.replicate n oneChunk).flatten ++ lastChunk := by
  rw [chunkedSegments, List.flatten_cons, List.flatten_append, List.flatten_singleton,
    List.append_assoc]

theorem chunkedSegments_complete (n : ℕ) :
    CompleteRequest (chunkedSegments n).flatten ∧
      (requestOf (chunkedSegments n).flatten).body.length = n + 1 := by
  obtain ⟨g, hstand, hlen, hfin⟩ := standing_chunks n
  obtain ⟨hlast, hbefore⟩ := run_lastChunk (g := g) (m := 54 + 6 * n)
  have hwhole : (HttpRequestParser.new.executeAll [(chunkedSegments n).flatten]).parser =
      ⟨behindChunks, onRequestMessageCompleteCb g, none⟩ := by
    have hne : (chunkedSegments n).flatten ≠ [] :=
      List.append_ne_nil_of_left_ne_nil (s := chunkedHead) (by decide) _
    rw [HttpRequestParser.parser_executeAll_whole hne, flatten_chunkedSegments, standing_append,
      hstand, hlast]
    rfl
  have hbefore' : (standing (chunkedSegments n).flatten.dropLast).client.finished = false := by
    rw [flatten_chunkedSegments, List.dropLast_append_of_ne_nil (by decide),
      standing_append, hstand, hbefore, hfin]
  refine ⟨completeRequest_of_dropLast ?_ ?_ hbefore', ?_⟩
  · rw [hwhole]
  · rw [HttpRequestParser.isFinish, hwhole]
    rfl
  · rw [requestOf, HttpRequestParser.getData, hwhole, init_body, ← hlen]
    rfl

/-- Segments that fit the buffer are read one by one. -/
theorem reads_segments {buffSize : ℕ} {xs : List Bytes} (h : ∀ x ∈ xs, x.length ≤ buffSize) :
    (Socket.reads buffSize xs.length ⟨xs, true⟩).1 = xs := by
  induction xs with
  | nil => rfl
  | cons x xs ih =>
      have hx := h x List.mem_cons_self
      have hread : Socket.read ⟨x :: xs, true⟩ buffSize = (x, ⟨xs, true⟩) := by
        simp [Socket.read, List.take_of_length_le hx, List.drop_of_length_le hx]
      rw [List.length_cons, Socket.reads, hread]
      exact congrArg (x :: ·) (ih fun y hy => h y (List.mem_cons_of_mem _ hy))

theorem mem_chunkedSegments {n : ℕ} {x : Bytes} (h : x ∈ chunkedSegments n) :
    x = chunkedHead ∨ x = oneChunk ∨ x = lastChunk := by
  rcases List.mem_cons.mp h with rfl | h
  · exact .inl rfl
  · rcases List.mem_append.mp h with h | h
    · exact .inr (.inl (List.eq_of_mem_replicate h))
    · exact .inr (.inr (List.mem_singleton.mp h))

theorem reads_chunkedSegments {buffSize : ℕ} (hbuff : 64 ≤ buffSize) (n : ℕ) :
    (Socket.reads buffSize (chunkedSegments n).length ⟨chunkedSegments n, true⟩).1 =
      chunkedSegments n := by
  apply reads_segments
  intro x hx
  have hlen : chunkedHead.length ≤ 64 ∧ oneChunk.length ≤ 64 ∧ lastChunk.length ≤ 64 := by
    decide
  rcases mem_chunkedSegments hx with rfl | rfl | rfl <;> omega

theorem chunkedSegments_delivers {buffSize : ℕ} (hbuff : 64 ≤ buffSize) (n : ℕ) :
    Socket.Delivers ⟨chunkedSegments n, true⟩ buffSize (chunkedSegments n).flatten
      (chunkedSegments n).length := by
  refine ⟨?_, by rw [reads_chunkedSegments hbuff]⟩
  intro x hx
  rw [reads_chunkedSegments hbuff] at hx
  rcases mem_chunkedSegments hx with rfl | rfl | rfl <;> decide

/-- The segments cut the request between two chunks. -/
theorem chunkedSegments_cutsOk (n : ℕ) : CutsOk (chunkedSegments n) := by
  intro xs ys hx hy h
  obtain ⟨x, xs, rfl⟩ := List.exists_cons_of_ne_nil hx
  obtain rfl | ⟨ys, y, rfl⟩ := List.eq_nil_or_concat ys
  · exact absurd rfl hy
  · obtain ⟨rfl, htail⟩ : chunkedHead = x ∧ List.replicate n oneChunk ++ [lastChunk] =
        xs ++ ys.concat y := by simpa [chunkedSegments] using h
    have hinit : List.replicate n oneChunk = xs ++ ys := by
      have hdrop := congrArg List.dropLast htail
      rwa [List.dropLast_concat, List.concat_eq_append, ← List.append_assoc,
        List.dropLast_concat] at hdrop
    obtain ⟨-, hxs, -⟩ := List.replicate_eq_append_iff.mp hinit
    obtain ⟨g, hstand, -, -⟩ := standing_chunks xs.length
    rw [cutOk, List.flatten_cons, hxs, hstand]

/-- Whatever the limit, some stream brings a request with a longer body. -/
theorem exists_longer (limit : ℕ) {buffSize : ℕ} (hbuff : 64 ≤ buffSize) :
    ∃ s req, (recvRequest buffSize s).1 = some req ∧ limit < req.body.length := by
  obtain ⟨hcomplete, hlen⟩ := chunkedSegments_complete limit
  have hdelivers := chunkedSegments_delivers hbuff limit
  have hcuts : CutsOk (Socket.reads buffSize (chunkedSegments limit).length
      ⟨chunkedSegments limit, true⟩).1 := by
    rw [reads_chunkedSegments hbuff]
    exact chunkedSegments_cutsOk limit
  refine ⟨⟨chunkedSegments limit, true⟩, _, congrArg Prod.fst
    (recvRequest_of_delivers hcomplete hdelivers hcuts), ?_⟩
  rw [hlen]
  exact Nat.lt_succ_self limit

end Chunks

/-! ### The limit -/

section Limit
variable {limit buffSize fuel n : ℕ} {h : HttpRequestParser} {held : Bytes} {s : Socket}
  {d : BodyScan} {r : Round}

theorem announces_succ (buffSize : ℕ) (d : BodyScan) (s : Socket) (n : ℕ) :
    announces buffSize d s (n + 1) =
      announces buffSize (d.read (s.read buffSize).1) (s.read buffSize).2 n := rfl

theorem AnnouncesWithin.next (h : AnnouncesWithin limit buffSize d s) :
    AnnouncesWithin limit buffSize (d.read (s.read buffSize).1) (s.read buffSize).2 :=
  fun n hn => h (n + 1) hn

/-- A parser that has failed keeps what it has. -/
theorem after_of_errno {e : HttpErrno} (he : r.parser.parser.errno = some e) :
    r.after.parser = r.parser.parser := by
  rw [Round.after, HttpRequestParser.parser_execute, httpParserExecute_of_errno he]

theorem rounds_of_errno {e : HttpErrno} (he : h.parser.errno = some e)
    (hr : r ∈ rounds buffSize fuel h held s) : r.after.parser = h.parser := by
  induction fuel generalizing h held s with
  | zero => cases hr
  | succ fuel ih =>
      rw [rounds_succ] at hr
      have hfirst : (nextRound buffSize h held s).after.parser = h.parser := after_of_errno he
      split_ifs at hr with hgot hcont
      · cases hr
      · rcases List.mem_cons.mp hr with rfl | hr
        · exact hfirst
        · rw [ih (by rw [hfirst]; exact he) hr, hfirst]
      · obtain rfl := List.mem_singleton.mp hr
        exact hfirst

/-- The loop on an empty buffer. -/
theorem rounds_nil (buffSize fuel : ℕ) (h : HttpRequestParser) (s : Socket) :
    rounds buffSize (fuel + 1) h [] s =
      if (s.read buffSize).1 = [] then []
      else
        nextRound buffSize h [] s ::
          if (nextRound buffSize h [] s).Continues buffSize then
            rounds buffSize fuel (nextRound buffSize h [] s).after
              (nextRound buffSize h [] s).kept (s.read buffSize).2
          else [] := rfl

theorem sound_scannedRound (ht : h.Tracks) (hscan : Scanned d h.parser)
    (hgot : (s.read buffSize).1 ≠ []) : Sound buffSize (nextRound buffSize h [] s) :=
  @sound_nextRound _ h [] s ht (fun _ => hscan.resting) (Nat.zero_le _) hgot

/-- Its round gathers what has arrived. -/
theorem Sound.scanned (hsound : Sound buffSize (nextRound buffSize h [] s))
    (hscan : Scanned d h.parser) :
    (nextRound buffSize h [] s).after.getData.body.length ≤ (d.read (s.read buffSize).1).arrived ∧
      ((nextRound buffSize h [] s).after.isFinish = true →
        (d.read (s.read buffSize).1).complete = true) ∧
      ((nextRound buffSize h [] s).after.parser.errno = none →
        (nextRound buffSize h [] s).after.getData.body.length =
            (d.read (s.read buffSize).1).arrived ∧
          ((d.read (s.read buffSize).1).complete = true →
            (nextRound buffSize h [] s).after.isFinish = true)) := by
  rw [HttpRequestParser.getData, HttpRequestParser.isFinish, hsound.after_parser]
  exact hscan.feed _

/-- Behind it the buffer is empty again. -/
theorem Sound.scanned_next (hsound : Sound buffSize (nextRound buffSize h [] s))
    (hscan : Scanned d h.parser) (herr : (nextRound buffSize h [] s).after.parser.errno = none)
    (hfin : (nextRound buffSize h [] s).after.isFinish = false) :
    Scanned (d.read (s.read buffSize).1) (nextRound buffSize h [] s).after.parser ∧
      (nextRound buffSize h [] s).kept = [] := by
  obtain ⟨-, hall⟩ := execute_all hscan.resting hscan.errno hsound.nonempty herr
  refine ⟨?_, ?_⟩
  · rw [HttpRequestParser.isFinish, hsound.after_parser] at hfin
    rw [hsound.after_parser] at herr ⊢
    exact hscan.next hsound.nonempty herr hfin
  · have hoffset : (nextRound buffSize h [] s).offset = 0 := by
      rw [Round.offset]
      exact Nat.sub_eq_zero_of_le (Nat.le_of_eq (hall hfin).2.symm)
    rw [Round.kept, hoffset, List.take_zero]

/-- Reads that fit keep the body within the limit in every round. -/
theorem rounds_within (ht : h.Tracks) (hscan : Scanned d h.parser)
    (hwithin : AnnouncesWithin limit buffSize d s)
    (hr : r ∈ rounds buffSize fuel h [] s) :
    r.after.getData.body.length ≤ limit + buffSize ∧
      (r.after.isFinish = true → r.after.getData.body.length ≤ limit) := by
  induction fuel generalizing h d s with
  | zero => cases hr
  | succ fuel ih =>
      rw [rounds_nil] at hr
      have hopen : d.complete = false := by
        by_contra hcomplete
        have := hscan.complete (by simpa using hcomplete)
        rw [hscan.finished] at this
        cases this
      have hfits : (d.read (s.read buffSize).1).arrived ≤
          if (d.read (s.read buffSize).1).complete then limit else limit + buffSize :=
        hwithin 0 hopen
      have hround : (s.read buffSize).1 ≠ [] →
          (nextRound buffSize h [] s).after.getData.body.length ≤ limit + buffSize ∧
            ((nextRound buffSize h [] s).after.isFinish = true →
              (nextRound buffSize h [] s).after.getData.body.length ≤ limit) := by
        intro hgot
        have hsound := sound_scannedRound ht hscan hgot
        obtain ⟨hle, hfinish, -⟩ := hsound.scanned hscan
        refine ⟨Nat.le_trans hle ?_, fun hfin => Nat.le_trans hle ?_⟩
        · split_ifs at hfits <;> omega
        · rwa [if_pos (hfinish hfin)] at hfits
      split_ifs at hr with hgot hcont
      · cases hr
      · rcases List.mem_cons.mp hr with rfl | hr
        · exact hround hgot
        · have hsound := sound_scannedRound ht hscan hgot
          cases herr : (nextRound buffSize h [] s).after.parser.errno with
          | none =>
              obtain ⟨hnext, hkept⟩ := hsound.scanned_next hscan herr hcont.2.2
              rw [hkept] at hr
              exact ih (hsound.next hcont.2.2).1 hnext hwithin.next hr
          | some e =>
              -- an error behind an upgrade goes unnoticed, and the parser stands still
              have hsame := rounds_of_errno herr hr
              rw [HttpRequestParser.getData, HttpRequestParser.isFinish, hsame]
              exact hround hgot
      · obtain rfl := List.mem_singleton.mp hr
        exact hround hgot

/-- A round without an error has gathered what has arrived. -/
theorem rounds_scanned (ht : h.Tracks) (hscan : Scanned d h.parser)
    (hr : (rounds buffSize fuel h [] s)[n]? = some r) (herr : r.after.parser.errno = none) :
    r.after.getData.body.length = (announces buffSize d s (n + 1)).arrived ∧
      ((announces buffSize d s (n + 1)).complete = true → r.after.isFinish = true) := by
  induction fuel generalizing h d s n with
  | zero => cases hr
  | succ fuel ih =>
      rw [rounds_nil] at hr
      by_cases hgot : (s.read buffSize).1 = []
      · rw [if_pos hgot] at hr
        cases hr
      · rw [if_neg hgot] at hr
        have hsound := sound_scannedRound ht hscan hgot
        cases n with
        | zero =>
            obtain rfl := Option.some.inj hr
            exact (hsound.scanned hscan).2.2 herr
        | succ n =>
            rw [List.getElem?_cons_succ] at hr
            split_ifs at hr with hcont
            · cases hlast : (nextRound buffSize h [] s).after.parser.errno with
              | none =>
                  obtain ⟨hnext, hkept⟩ := hsound.scanned_next hscan hlast hcont.2.2
                  rw [hkept] at hr
                  rw [announces_succ]
                  exact ih (hsound.next hcont.2.2).1 hnext hr
              | some e =>
                  rw [rounds_of_errno hlast (List.mem_of_getElem? hr), hlast] at herr
                  cases herr
            · cases hr

/-- Reads that fit keep the body within the limit. -/
theorem bodyLimited_of_within (h : AnnouncesWithin limit buffSize .new s) :
    BodyLimited limit buffSize s := by
  have hall : ∀ r ∈ recvRounds buffSize s, _ := fun r hr =>
    rounds_within HttpRequestParser.new_tracks scanned_new h hr
  refine ⟨fun r hr => (hall r hr).1, ?_⟩
  intro req hreq
  obtain ⟨r, hr, hfin, rfl⟩ := exists_round_of_recvLoop hreq
  rw [init_body]
  exact (hall r hr).2 hfin

/-- Within the limit every read fits that the parser gets through. -/
theorem BodyLimited.within (h : BodyLimited limit buffSize s)
    (hr : (recvRounds buffSize s)[n]? = some r) (herr : r.after.parser.errno = none) :
    Within limit buffSize .new s n := by
  obtain ⟨hall, hfinish⟩ := rounds_scanned HttpRequestParser.new_tracks scanned_new hr herr
  have hmem : r ∈ recvRounds buffSize s := List.mem_of_getElem? hr
  rw [Within, ← hall]
  split_ifs with hcomplete
  · rw [← init_body]
    exact h.returned _ (recvLoop_of_round HttpRequestParser.new_tracks (fun _ => new_resting)
      (Nat.zero_le _) hmem (hfinish hcomplete) herr)
  · exact h.accumulated r hmem

/-- A completed request stays one. -/
theorem announces_complete (hd : d.Sound) (hcomplete : d.complete = true) (n : ℕ) :
    (announces buffSize d s n).complete = true := by
  induction n generalizing d s with
  | zero => exact hcomplete
  | succ n ih =>
      obtain ⟨hsound, hstays⟩ := hd.read (s.read buffSize).1
      exact ih hsound (hstays hcomplete)

/-- Where the first read completes a request, it is the only one that has to fit. -/
theorem announcesWithin_of_first
    (hcomplete : (announces buffSize .new s 1).complete = true)
    (harrived : (announces buffSize .new s 1).arrived ≤ limit) :
    AnnouncesWithin limit buffSize .new s := by
  intro n hn
  cases n with
  | zero => rwa [Within, if_pos hcomplete]
  | succ n =>
      rw [announces_succ] at hn
      rw [announces_complete (BodyScan.new_sound.read _).1 hcomplete] at hn
      cases hn

end Limit

/-- The body stays within the limit as long as what the incoming bytes announce, by
`Content-Length` or chunk by chunk, fits it where it has arrived; and it does not if that does
not fit in a round that the parser gets through. Whatever the limit is, some stream exceeds
it. -/
theorem body_limited (limit buffSize : ℕ) (s : Socket) :
    (AnnouncesWithin limit buffSize .new s → BodyLimited limit buffSize s) ∧
      (BodyLimited limit buffSize s → ∀ n r, (recvRounds buffSize s)[n]? = some r →
        r.after.parser.errno = none → Within limit buffSize .new s n) ∧
      (64 ≤ buffSize → ∃ s', ¬BodyLimited limit buffSize s') := by
  refine ⟨bodyLimited_of_within, fun h n r hr herr => h.within hr herr, fun hbuff => ?_⟩
  obtain ⟨s', req, hreq, hlonger⟩ := exists_longer limit hbuff
  exact ⟨s', fun h => absurd (h.returned req hreq) (Nat.not_le_of_lt hlonger)⟩

/-- A body of three bytes and a limit of three. -/
theorem body_limited_postB : BodyLimited 3 4096 ⟨[postB], true⟩ :=
  (body_limited 3 4096 ⟨[postB], true⟩).1
    (announcesWithin_of_first (by decide +kernel) (by decide +kernel))

/-- A body of three bytes and a limit of two. -/
theorem body_not_limited : ¬BodyLimited 2 4096 ⟨[postB], true⟩ := by
  intro h
  have hreq : (recvRequest 4096 ⟨[postB], true⟩).1 = some (requestOf postB) := by decide +kernel
  have hlen := h.returned _ hreq
  revert hlen
  decide +kernel

end HttpSession

end Xzmjx.HttpRequestModel
