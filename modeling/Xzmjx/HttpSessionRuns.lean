import Xzmjx.HttpSegmentation

/-!
# One request for each call of recvRequest

`HttpSession::recvRequest` allocates its buffer and its parser for each call and
drops both when it returns. Bytes behind the request that a read has brought in
are lost with them, after the parser has mixed them into the request. A call
takes exactly one request from the connection when a read ends with it.
-/
namespace Xzmjx.HttpRequestModel
open HttpParserModel PushParser

/-! ### Reads -/

/-- The results of `n` reads into an empty buffer, and the socket afterwards. -/
def Socket.reads (buffSize : ℕ) : ℕ → Socket → List Bytes × Socket
  | 0, s => ([], s)
  | n + 1, s =>
      ((s.read buffSize).1 :: (Socket.reads buffSize n (s.read buffSize).2).1,
        (Socket.reads buffSize n (s.read buffSize).2).2)

namespace Socket
variable {s : Socket} {buffSize n : ℕ}

theorem read_flatten (s : Socket) (n : ℕ) :
    (s.read n).1 ++ (s.read n).2.incoming.flatten = s.incoming.flatten := by
  obtain ⟨incoming, connected⟩ := s
  cases connected with
  | false => rfl
  | true =>
      cases incoming with
      | nil => rfl
      | cons x xs =>
          by_cases hd : x.drop n = []
          · have htake : x.take n = x := by simpa [hd] using List.take_append_drop n x
            simp only [read, htake, hd, not_true_eq_false, if_false, if_true]
            rfl
          · simp only [read, hd, not_true_eq_false, if_false]
            rw [List.flatten_cons, List.flatten_cons, ← List.append_assoc, List.take_append_drop]

theorem read_length_le (s : Socket) (n : ℕ) : (s.read n).1.length ≤ n := by
  obtain ⟨incoming, connected⟩ := s
  cases connected with
  | false => simp [read]
  | true =>
      cases incoming with
      | nil => simp [read]
      | cons x xs => exact List.length_take_le n x

theorem reads_flatten (s : Socket) (buffSize n : ℕ) :
    (s.reads buffSize n).1.flatten ++ (s.reads buffSize n).2.incoming.flatten =
      s.incoming.flatten := by
  induction n generalizing s with
  | zero => rfl
  | succ n ih =>
      rw [reads, List.flatten_cons, List.append_assoc, ih, read_flatten]

theorem reads_length (s : Socket) (buffSize n : ℕ) : (s.reads buffSize n).1.length = n := by
  induction n generalizing s with
  | zero => rfl
  | succ n ih => simp [reads, ih]

theorem read_connected (s : Socket) (n : ℕ) : (s.read n).2.connected = s.connected := by
  obtain ⟨incoming, connected⟩ := s
  cases connected with
  | false => rfl
  | true => cases incoming <;> rfl

theorem reads_connected (s : Socket) (buffSize n : ℕ) :
    (s.reads buffSize n).2.connected = s.connected := by
  induction n generalizing s with
  | zero => rfl
  | succ n ih => rw [reads, ih, read_connected]

theorem connected_of_read_ne_nil (h : (s.read n).1 ≠ []) : s.connected = true := by
  by_contra hc
  simp [read, hc] at h

/-- Non-empty reads are not more than the bytes they bring. -/
theorem le_of_reads_ne_nil (h : ∀ x ∈ (s.reads buffSize n).1, x ≠ []) :
    n ≤ s.incoming.flatten.length := by
  have hlen : ∀ xs : List Bytes, (∀ x ∈ xs, x ≠ []) → xs.length ≤ xs.flatten.length := by
    intro xs hxs
    induction xs with
    | nil => simp
    | cons x xs ih =>
        have hx := List.length_pos_iff.mpr (hxs x (by simp))
        have := ih (fun y hy => hxs y (by simp [hy]))
        simp only [List.length_cons, List.flatten_cons, List.length_append]
        omega
  have hle := hlen _ h
  have hflat := congrArg List.length (reads_flatten s buffSize n)
  rw [List.length_append] at hflat
  rw [reads_length] at hle
  omega

/-- The first `n` reads bring exactly the bytes `r`: the last of them ends with `r`. -/
structure Delivers (s : Socket) (buffSize : ℕ) (r : Bytes) (n : ℕ) : Prop where
  nonempty : ∀ x ∈ (s.reads buffSize n).1, x ≠ []
  flatten : (s.reads buffSize n).1.flatten = r

namespace Delivers
variable {r t : Bytes}

theorem pos (h : s.Delivers buffSize r n) (hr : r ≠ []) : 0 < n := by
  rcases Nat.eq_zero_or_pos n with rfl | hn
  · exact absurd h.flatten.symm hr
  · exact hn

theorem connected (h : s.Delivers buffSize r n) (hr : r ≠ []) :
    (s.reads buffSize n).2.connected = true := by
  rw [reads_connected]
  obtain ⟨k, rfl⟩ : ∃ k, n = k + 1 := ⟨n - 1, by have := h.pos hr; omega⟩
  have hne : (s.read buffSize).1 ≠ [] := h.nonempty _ (by simp [reads])
  exact connected_of_read_ne_nil hne

theorem rest (h : s.Delivers buffSize r n) (hs : s.incoming.flatten = r ++ t) :
    (s.reads buffSize n).2.incoming.flatten = t := by
  have hflat := reads_flatten s buffSize n
  rw [h.flatten, hs] at hflat
  exact List.append_cancel_left hflat

end Delivers

end Socket

/-! ### One call of execute -/

/-- A parser between two calls is in good shape. -/
def Resting (p : Parser HttpParser HttpErrno RequestData) : Prop :=
  (machine.enter p.ctrl).Shape (machine.resume p.ctrl)

theorem new_resting : Resting HttpRequestParser.new.parser := .plain rfl ⟨rfl, rfl⟩

theorem resting_of_shape {p : Parser HttpParser HttpErrno RequestData} {o : Option Element}
    (h : p.ctrl.Shape o) : Resting p := by
  have hbody : p.ctrl.OpenBody → Resting p := by
    intro hb
    have hq := hb.quiet
    rw [Resting, hq.enter, hq.resume]
    exact .bodyCut hb
  unfold Resting
  cases h with
  | plain hs _ =>
      rw [show machine.resume p.ctrl = none from HttpParser.resume_of_plain hs]
      exact .plain hs ⟨rfl, rfl⟩
  | url hs _ =>
      rw [show machine.resume p.ctrl = some .url from HttpParser.resume_of_inUrl hs]
      exact .url hs ⟨rfl, rfl⟩
  | headerField hs _ =>
      rw [show machine.resume p.ctrl = some .headerField by simp [machine, HttpParser.resume, hs]]
      exact .headerField hs rfl
  | headerValue hs =>
      rw [show machine.resume p.ctrl = some .headerValue by simp [machine, HttpParser.resume, hs]]
      exact .headerValue hs
  | body hb => exact hbody hb
  | bodyCut hb => exact hbody hb

theorem act_finished {c : RequestRun} {b : UInt8} (a : Act) (h : c.client.finished = true) :
    (act requestSettings b c a).client.finished = true := by
  obtain ⟨s, f, g, t, n⟩ := c
  cases a with
  | mark k => exact h
  | fail e => exact h
  | stop => exact h
  | notify m => cases m <;> first | exact h | rfl
  | emit k thr adv =>
      cases f with
      | none => exact h
      | some f =>
          obtain ⟨j, bs⟩ := f
          by_cases hj : j = k
          · subst hj
            cases hd : requestSettings.data j (if thr then bs ++ [b] else bs) g with
            | ok g' => simpa [act, hd] using (data_finished hd).trans h
            | error e => simpa [act, hd] using h
          · simpa [act, hj] using h

theorem acts_finished {c : RequestRun} {b : UInt8} {as : List Act}
    (h : c.client.finished = true) : (acts requestSettings b c as).client.finished = true := by
  induction as generalizing c with
  | nil => exact h
  | cons a as ih =>
      by_cases hr : c.status = .running
      · rw [acts_cons_running hr]
        exact ih (act_finished a h)
      · rw [acts_of_ne_running hr]
        exact h

theorem advance_client (c : RequestRun) (b : UInt8) :
    (advance b c).client = c.client ∧
      (advance b c).frag.map Prod.fst = c.frag.map Prod.fst ∧
        (advance b c).status = c.status := by
  obtain ⟨s, f, g, t, n⟩ := c
  cases t with
  | running => cases f <;> exact ⟨rfl, rfl, rfl⟩
  | stopped => exact ⟨rfl, rfl, rfl⟩
  | failed e => exact ⟨rfl, rfl, rfl⟩

theorem byte_eq_advance {c : RequestRun} {b : UInt8} (hr : c.status = .running) :
    byte machine requestSettings c b =
      advance b
        (acts requestSettings b { c with ctrl := (c.ctrl.step b).1 } (c.ctrl.step b).2) := by
  rw [byte, hr]
  rfl

/-- Reading on does not take back that a request is finished. -/
theorem run_finished {c : RequestRun} (bs : Bytes) (h : c.client.finished = true) :
    (run machine requestSettings c bs).client.finished = true := by
  induction bs generalizing c with
  | nil => exact h
  | cons b bs ih =>
      rw [run_cons]
      apply ih
      by_cases hr : c.status = .running
      · obtain ⟨hclient, -, -⟩ := advance_client
          (acts requestSettings b { c with ctrl := (c.ctrl.step b).1 } (c.ctrl.step b).2) b
        rw [byte_eq_advance hr, hclient]
        exact acts_finished h
      · rw [byte_of_ne_running hr]
        exact h

theorem acts_stopped_finished {c : RequestRun} {b : UInt8} {as : List Act}
    (hs : stopsComplete as = true) (hr : c.status = .running)
    (h : (acts requestSettings b c as).status = .stopped) :
    (acts requestSettings b c as).client.finished = true := by
  induction as generalizing c with
  | nil =>
      rw [acts, hr] at h
      cases h
  | cons a as ih =>
      rw [acts_cons_running hr] at h ⊢
      by_cases hr' : (act requestSettings b c a).status = .running
      · cases a with
        | notify n =>
            cases n with
            | messageComplete => exact acts_finished rfl
            | _ => exact ih hs hr' h
        | stop => cases hs
        | _ => exact ih hs hr' h
      · rw [acts_of_ne_running hr'] at h ⊢
        obtain rfl := eq_stop_of_act hr h
        cases hs

theorem Resting.shape {p : Parser HttpParser HttpErrno RequestData} (hrest : Resting p)
    {bs : Bytes} (h : (run machine requestSettings (start machine p) bs).status = .running) :
    (run machine requestSettings (start machine p) bs).ctrl.Shape
      ((run machine requestSettings (start machine p) bs).frag.map Prod.fst) := by
  refine run_invariant HttpParser.Shape
    (fun _ _ _ _ hs ho => (HttpParser.lands_step hs).shape _ ho) ?_ h
  unfold Resting at hrest
  rw [start, Option.map_map]
  cases hres : machine.resume p.ctrl <;> rw [hres] at hrest <;> exact hrest

/-- A call that stops before the end of its data has finished a request. -/
theorem Resting.stopped {p : Parser HttpParser HttpErrno RequestData} (hrest : Resting p)
    {bs : Bytes} (h : (run machine requestSettings (start machine p) bs).status = .stopped) :
    (run machine requestSettings (start machine p) bs).client.finished = true ∧
      0 < (run machine requestSettings (start machine p) bs).parsed := by
  obtain ⟨xs, b, ys, -, hrun, heq⟩ := run_stopped (c := start machine p) rfl h
  have hlands : Lands _ (HttpParser.step _ b) := HttpParser.lands_step (hrest.shape hrun)
  have hstop := hlands.stop
  rw [heq] at h ⊢
  exact ⟨acts_stopped_finished hstop (by exact hrun) h, acts_stopped_parsed (by exact hrun) h⟩

theorem finish_running {c : RequestRun} (hr : c.status = .running)
    (herr : (finish machine requestSettings c).1.errno = none) :
    (finish machine requestSettings c).2 = c.parsed ∧
      (finish machine requestSettings c).1.ctrl = c.ctrl := by
  obtain ⟨s, f, g, t, n⟩ := c
  obtain rfl : t = _ := hr
  by_cases hl : s.inLoop ∧ s.overflows
  · simp [finish, machine, HttpParser.leave, hl] at herr
  · have hleave : machine.leave s = .ok s := if_neg hl
    cases f with
    | none => simp [finish, hleave]
    | some f =>
        cases hd : requestSettings.data f.1 f.2 g with
        | ok g' => simp [finish, hleave, hd]
        | error e => simp [finish, hleave, hd] at herr

/-- A call without an error parses a byte, and all bytes unless it has finished a request. -/
theorem feed_spec {p : Parser HttpParser HttpErrno RequestData} {bs : Bytes} (hrest : Resting p)
    (hp : p.errno = none) (hne : bs ≠ [])
    (herr : (feed machine requestSettings p bs).1.errno = none) :
    0 < (feed machine requestSettings p bs).2 ∧
      ((feed machine requestSettings p bs).1.client.finished = false →
        Resting (feed machine requestSettings p bs).1 ∧
          (feed machine requestSettings p bs).2 = bs.length) := by
  have hfeed : feed machine requestSettings p bs =
      finish machine requestSettings (run machine requestSettings (start machine p) bs) := by
    rw [feed, hp]
  rw [hfeed] at herr ⊢
  cases hst : (run machine requestSettings (start machine p) bs).status with
  | failed e => simp [finish, hst] at herr
  | stopped =>
      obtain ⟨hfin, hpos⟩ := hrest.stopped hst
      refine ⟨by simpa [finish, hst] using hpos, ?_⟩
      intro hnot
      rw [finish_finished, hfin] at hnot
      cases hnot
  | running =>
      obtain ⟨hcount, hctrl⟩ := finish_running hst herr
      have hlen : (finish machine requestSettings
          (run machine requestSettings (start machine p) bs)).2 = bs.length := by
        rw [hcount, run_parsed hst]
        simp [start]
      refine ⟨by rw [hlen]; exact List.length_pos_iff.mpr hne, fun _ => ⟨?_, hlen⟩⟩
      exact resting_of_shape (o := _) (by rw [hctrl]; exact hrest.shape hst)

/-! ### The loop of recvRequest -/

namespace HttpSession

theorem recvLoop_succ (buffSize fuel : ℕ) (h : HttpRequestParser) (held : Bytes) (s : Socket) :
    recvLoop buffSize (fuel + 1) h held s =
      if (s.read (buffSize - held.length)).1 = [] then
        (none, (s.read (buffSize - held.length)).2.close)
      else if (h.execute (held ++ (s.read (buffSize - held.length)).1)).1.hasError then
        (none, (s.read (buffSize - held.length)).2.close)
      else if buffSize ≤ (held ++ (s.read (buffSize - held.length)).1).length -
          (h.execute (held ++ (s.read (buffSize - held.length)).1)).2.2 then
        (none, (s.read (buffSize - held.length)).2.close)
      else if (h.execute (held ++ (s.read (buffSize - held.length)).1)).1.isFinish then
        (some (h.execute (held ++ (s.read (buffSize - held.length)).1)).1.getData.init,
          (s.read (buffSize - held.length)).2)
      else
        recvLoop buffSize fuel (h.execute (held ++ (s.read (buffSize - held.length)).1)).1
          ((h.execute (held ++ (s.read (buffSize - held.length)).1)).2.1.take
            ((held ++ (s.read (buffSize - held.length)).1).length -
              (h.execute (held ++ (s.read (buffSize - held.length)).1)).2.2))
          (s.read (buffSize - held.length)).2 := rfl

/-- A parser that has failed behind an upgrade never finishes a request. -/
theorem recvLoop_stuck {buffSize fuel : ℕ} {h : HttpRequestParser} {held : Bytes} {s : Socket}
    {e : HttpErrno} (he : h.parser.errno = some e) (hf : h.isFinish = false) :
    (recvLoop buffSize fuel h held s).1 = none := by
  induction fuel generalizing h held s with
  | zero => rfl
  | succ fuel ih =>
      rw [recvLoop_succ]
      have hparser : (h.execute (held ++ (s.read (buffSize - held.length)).1)).1.parser =
          h.parser := by
        rw [HttpRequestParser.parser_execute, httpParserExecute_of_errno he]
      have hfin : (h.execute (held ++ (s.read (buffSize - held.length)).1)).1.isFinish = false := by
        rw [HttpRequestParser.isFinish, hparser]
        exact hf
      split_ifs <;> try rfl
      · next hc => rw [hfin] at hc; cases hc
      · exact ih (by rw [hparser]; exact he) hfin

/-- A round of the loop on an empty buffer whose data is parsed without an error and does not
finish the request. -/
theorem execute_all {h : HttpRequestParser} {x : Bytes} (hrest : Resting h.parser)
    (hp : h.parser.errno = none) (hx : x ≠ [])
    (herr : (h.execute x).1.parser.errno = none) :
    0 < (h.execute x).2.2 ∧
      ((h.execute x).1.isFinish = false →
        Resting (h.execute x).1.parser ∧ (h.execute x).2.2 = x.length) := by
  rw [HttpRequestParser.isFinish, HttpRequestParser.execute_count,
    HttpRequestParser.parser_execute, httpParserExecute_eq_feed hx]
  rw [HttpRequestParser.parser_execute, httpParserExecute_eq_feed hx] at herr
  exact feed_spec hrest hp hx herr

theorem recvLoop_some {buffSize fuel : ℕ} {h : HttpRequestParser} {s s' : Socket}
    {q : HttpRequest} (hrest : Resting h.parser) (hp : h.parser.errno = none)
    (hloop : recvLoop buffSize fuel h [] s = (some q, s')) :
    ∃ n, s' = (s.reads buffSize n).2 ∧ ∀ x ∈ (s.reads buffSize n).1, x ≠ [] := by
  induction fuel generalizing h s with
  | zero => cases hloop
  | succ fuel ih =>
      rw [recvLoop_succ] at hloop
      simp only [List.length_nil, Nat.sub_zero, List.nil_append] at hloop
      split_ifs at hloop with hx herr hfull hfin
      · cases hloop
      · cases hloop
      · cases hloop
      · cases hloop
        refine ⟨1, rfl, ?_⟩
        intro x hxm
        obtain rfl : x = (s.read buffSize).1 := by simpa [Socket.reads] using hxm
        exact hx
      · rw [Bool.not_eq_true] at hfin
        cases he : (h.execute (s.read buffSize).1).1.parser.errno with
        | some e =>
            have hnone := congrArg Prod.fst hloop
            rw [recvLoop_stuck he hfin] at hnone
            cases hnone
        | none =>
            obtain ⟨hrest', hcount⟩ := (execute_all hrest hp hx he).2 hfin
            rw [hcount, Nat.sub_self, List.take_zero] at hloop
            obtain ⟨n, hs', hne⟩ := ih hrest' he hloop
            refine ⟨n + 1, hs', ?_⟩
            intro x hxm
            rcases List.mem_cons.mp hxm with rfl | hxm
            · exact hx
            · exact hne x hxm

/-! ### Complete requests -/

end HttpSession

/-- `r` is one complete request: the parser accepts it and finishes with its last byte. -/
structure CompleteRequest (r : Bytes) : Prop where
  accepted : (HttpRequestParser.new.executeAll [r]).parser.errno = none
  finished : (HttpRequestParser.new.executeAll [r]).isFinish = true
  first : ∀ xs ys, ys ≠ [] → r = xs ++ ys → (standing xs).client.finished = false

/-- The `HttpRequest` of `r` alone. -/
def requestOf (r : Bytes) : HttpRequest := (HttpRequestParser.new.executeAll [r]).getData.init

/-- It is enough that the request is not finished before its last byte. -/
theorem completeRequest_of_dropLast {r : Bytes}
    (ha : (HttpRequestParser.new.executeAll [r]).parser.errno = none)
    (hf : (HttpRequestParser.new.executeAll [r]).isFinish = true)
    (h : (standing r.dropLast).client.finished = false) : CompleteRequest r := by
  refine ⟨ha, hf, ?_⟩
  intro xs ys hy heq
  obtain rfl | ⟨ys, y, rfl⟩ := List.eq_nil_or_concat ys
  · exact absurd rfl hy
  · have hsplit : r.dropLast = xs ++ ys := by
      rw [heq, List.concat_eq_append, ← List.append_assoc, List.dropLast_concat]
    by_contra hnot
    rw [Bool.not_eq_false] at hnot
    have hrun := run_finished ys hnot
    rw [← standing_append, ← hsplit, h] at hrun
    cases hrun

namespace CompleteRequest
variable {r : Bytes}

theorem ne_nil (hr : CompleteRequest r) : r ≠ [] := by
  rintro rfl
  cases hr.finished

theorem parser_eq (hr : CompleteRequest r) :
    (HttpRequestParser.new.executeAll [r]).parser =
      (finish machine requestSettings (standing r)).1 :=
  HttpRequestParser.parser_executeAll_whole hr.ne_nil

/-- No part of a complete request makes the parser give up. -/
theorem not_failed (hr : CompleteRequest r) {xs ys : Bytes} (h : r = xs ++ ys) (e : HttpErrno) :
    (standing xs).status ≠ .failed e := by
  intro hs
  have hfail : standing r = standing xs := by
    rw [h, standing_append, run_of_ne_running (by simp [hs])]
  have hacc := hr.accepted
  rw [hr.parser_eq, hfail, finish, hs] at hacc
  cases hacc

end CompleteRequest

namespace HttpSession

theorem sync_finished {rest : Bytes} {w c : RequestRun}
    (h : Sync machine requestSettings .body HttpParser.OpenBody rest w c) :
    c.client.finished = w.client.finished := by
  cases h with
  | level hl =>
      obtain ⟨n, rfl⟩ := hl
      rfl
  | behind _ _ hd _ => exact data_finished hd

section Round
variable {buffSize fuel : ℕ} {h : HttpRequestParser} {s : Socket}

theorem execute_no_error (ht : h.Tracks) {x : Bytes}
    (herr : (h.execute x).1.parser.errno = none) : (h.execute x).1.hasError = false := by
  rw [HttpRequestParser.hasError, ht.execute, herr]
  split_ifs <;> rfl

theorem recvLoop_more (ht : h.Tracks) (hrest : Resting h.parser) (hp : h.parser.errno = none)
    (hx : (s.read buffSize).1 ≠ [])
    (herr : (h.execute (s.read buffSize).1).1.parser.errno = none)
    (hfin : (h.execute (s.read buffSize).1).1.isFinish = false) :
    recvLoop buffSize (fuel + 1) h [] s =
      recvLoop buffSize fuel (h.execute (s.read buffSize).1).1 [] (s.read buffSize).2 := by
  have hpos := List.length_pos_iff.mpr hx
  have hle := s.read_length_le buffSize
  obtain ⟨-, hcount⟩ := (execute_all hrest hp hx herr).2 hfin
  rw [recvLoop_succ]
  simp only [List.length_nil, Nat.sub_zero, List.nil_append]
  rw [if_neg hx, execute_no_error ht herr, if_neg (by simp), hcount, Nat.sub_self,
    if_neg (by omega), if_neg (by simp [hfin]), List.take_zero]

theorem recvLoop_last (ht : h.Tracks) (hrest : Resting h.parser) (hp : h.parser.errno = none)
    (hx : (s.read buffSize).1 ≠ [])
    (herr : (h.execute (s.read buffSize).1).1.parser.errno = none)
    (hfin : (h.execute (s.read buffSize).1).1.isFinish = true) :
    recvLoop buffSize (fuel + 1) h [] s =
      (some (h.execute (s.read buffSize).1).1.getData.init, (s.read buffSize).2) := by
  have hpos := List.length_pos_iff.mpr hx
  have hle := s.read_length_le buffSize
  have hcount := (execute_all hrest hp hx herr).1
  rw [recvLoop_succ]
  simp only [List.length_nil, Nat.sub_zero, List.nil_append]
  rw [if_neg hx, execute_no_error ht herr, if_neg (by simp), if_neg (by omega), if_pos hfin]

end Round

/-- Reads that end with a complete request and cut it at harmless places yield that request. -/
theorem recvLoop_complete {buffSize n fuel : ℕ} {h : HttpRequestParser} {s : Socket} {pre : Bytes}
    (hfuel : n ≤ fuel) (hn : 0 < n) (hne : ∀ x ∈ (s.reads buffSize n).1, x ≠ [])
    (hr : CompleteRequest (pre ++ (s.reads buffSize n).1.flatten)) (ht : h.Tracks)
    (hrest : Resting h.parser) (hp : h.parser.errno = none)
    (hlink : Linked machine requestSettings .body HttpParser.OpenBody
      (s.reads buffSize n).1.flatten (standing pre) h.parser)
    (hcuts : CleanCuts machine requestSettings .body HttpParser.OpenBody (standing pre)
      (s.reads buffSize n).1) :
    recvLoop buffSize fuel h [] s =
      (some (requestOf (pre ++ (s.reads buffSize n).1.flatten)), (s.reads buffSize n).2) := by
  induction n generalizing fuel h s pre with
  | zero => cases hn
  | succ n ih =>
      obtain ⟨fuel, rfl⟩ : ∃ k, fuel = k + 1 := ⟨fuel - 1, by omega⟩
      have hx : (s.read buffSize).1 ≠ [] := hne _ (by simp [Socket.reads])
      have hexec : (h.execute (s.read buffSize).1).1.parser =
          (feed machine requestSettings h.parser (s.read buffSize).1).1 := by
        rw [HttpRequestParser.parser_execute, httpParserExecute_eq_feed hx]
      have hlen := Socket.reads_length (s.read buffSize).2 buffSize n
      simp only [Socket.reads, List.flatten_cons] at hr hlink hcuts ⊢
      cases hrs : (Socket.reads buffSize n (s.read buffSize).2).1 with
      | nil =>
          obtain rfl : n = 0 := by simpa [hrs] using hlen.symm
          rw [hrs] at hr hlink
          simp only [List.flatten_nil, List.append_nil] at hr hlink ⊢
          have hparser : (h.execute (s.read buffSize).1).1.parser =
              (HttpRequestParser.new.executeAll [pre ++ (s.read buffSize).1]).parser := by
            rw [hexec, hlink.feed_last body_resumable, hr.parser_eq, standing_append]
          rw [recvLoop_last ht hrest hp hx (by rw [hparser]; exact hr.accepted)
            (by rw [HttpRequestParser.isFinish, hparser]; exact hr.finished),
            HttpRequestParser.getData, hparser]
          rfl
      | cons y zs =>
          have hn' : 0 < n := by
            rw [hrs, List.length_cons] at hlen
            omega
          have hflat : (pre ++ (s.read buffSize).1) ++ (y :: zs).flatten =
              pre ++ ((s.read buffSize).1 ++ (y :: zs).flatten) := List.append_assoc _ _ _
          rw [hrs] at hr hlink hcuts
          rw [CleanCuts, ← standing_append] at hcuts
          have hnext := hlink.feed body_resumable (by rw [← standing_append]; exact hcuts.1)
          rw [← standing_append, ← hexec] at hnext
          cases hnext with
          | dead hw _ => exact absurd hw (hr.not_failed hflat.symm _)
          | live herr hsync =>
              have hy : (y :: zs).flatten ≠ [] := by
                simp [hne y (by simp [Socket.reads, hrs])]
              have hfin : (h.execute (s.read buffSize).1).1.isFinish = false :=
                (sync_finished hsync).trans (hr.first _ _ hy hflat.symm)
              rw [recvLoop_more ht hrest hp hx herr hfin]
              have hwhole : CompleteRequest ((pre ++ (s.read buffSize).1) ++
                  (Socket.reads buffSize n (s.read buffSize).2).1.flatten) := by
                rw [hrs, hflat]
                exact hr
              have hih := ih (Nat.le_of_succ_le_succ hfuel) hn'
                (fun z hz => hne z (by simp [Socket.reads, hz])) hwhole (ht.execute _)
                ((execute_all hrest hp hx herr).2 hfin).1 herr
                (by rw [hrs]; exact .live herr hsync) (by rw [hrs]; exact hcuts.2)
              rwa [hrs, hflat] at hih

/-! ### One request for each call -/

theorem recvRequest_of_delivers {buffSize n : ℕ} {s : Socket} {r : Bytes}
    (hr : CompleteRequest r) (hd : s.Delivers buffSize r n)
    (hcuts : CutsOk (s.reads buffSize n).1) :
    recvRequest buffSize s = (some (requestOf r), (s.reads buffSize n).2) := by
  have hn := hd.pos hr.ne_nil
  have hfuel := Socket.le_of_reads_ne_nil hd.nonempty
  have hclean : CleanCuts machine requestSettings .body HttpParser.OpenBody (standing [])
      (s.reads buffSize n).1 := cleanCuts_of_cutOk hcuts
  have hlink : Linked machine requestSettings .body HttpParser.OpenBody
      (s.reads buffSize n).1.flatten (standing []) HttpRequestParser.new.parser := .start rfl
  have hwhole : CompleteRequest ([] ++ (s.reads buffSize n).1.flatten) := by
    rw [hd.flatten]
    exact hr
  have hloop := recvLoop_complete (Nat.le_succ_of_le hfuel) hn hd.nonempty hwhole
    HttpRequestParser.new_tracks new_resting rfl hlink hclean
  rw [hd.flatten] at hloop
  exact hloop

/-- A call takes the request `r` from the connection and leaves the bytes `t` for the next. -/
structure ConsumesOne (buffSize : ℕ) (s : Socket) (r t : Bytes) : Prop where
  request : (recvRequest buffSize s).1 = some (requestOf r)
  rest : (recvRequest buffSize s).2.incoming.flatten = t
  connected : (recvRequest buffSize s).2.connected = true

theorem consumesOne_of_delivers {buffSize n : ℕ} {s : Socket} {r t : Bytes}
    (hr : CompleteRequest r) (hs : s.incoming.flatten = r ++ t) (hd : s.Delivers buffSize r n)
    (hcuts : CutsOk (s.reads buffSize n).1) : ConsumesOne buffSize s r t := by
  have heq := recvRequest_of_delivers hr hd hcuts
  refine ⟨?_, ?_, ?_⟩
  · rw [heq]
  · rw [heq]
    exact hd.rest hs
  · rw [heq]
    exact hd.connected hr.ne_nil

/-- No call gives back bytes: what it leaves is what its reads have left. -/
theorem ConsumesOne.delivers {buffSize : ℕ} {s : Socket} {r t : Bytes}
    (h : ConsumesOne buffSize s r t) (hs : s.incoming.flatten = r ++ t) :
    ∃ n, s.Delivers buffSize r n := by
  have hsome : recvRequest buffSize s = (some (requestOf r), (recvRequest buffSize s).2) :=
    Prod.ext h.request rfl
  obtain ⟨n, hs', hne⟩ := recvLoop_some new_resting rfl hsome
  have hrest : (s.reads buffSize n).2.incoming.flatten = t := hs' ▸ h.rest
  have hflat := Socket.reads_flatten s buffSize n
  refine ⟨n, hne, ?_⟩
  rw [hrest, hs] at hflat
  exact List.append_cancel_right hflat

/-- Requests that arrive one behind another, each with a read that ends with it. -/
inductive Pipelined (buffSize : ℕ) : Socket → List Bytes → Prop
  | nil (s : Socket) : Pipelined buffSize s []
  | cons {s : Socket} {r : Bytes} {rs : List Bytes} {n : ℕ} (complete : CompleteRequest r)
      (delivers : s.Delivers buffSize r n) (cuts : CutsOk (s.reads buffSize n).1)
      (next : Pipelined buffSize (s.reads buffSize n).2 rs) : Pipelined buffSize s (r :: rs)

theorem Pipelined.recvRequests {buffSize : ℕ} {s : Socket} {rs : List Bytes} {t : Bytes}
    (h : Pipelined buffSize s rs) (hs : s.incoming.flatten = rs.flatten ++ t) :
    (recvRequests buffSize rs.length s).1 = rs.map requestOf ∧
      (recvRequests buffSize rs.length s).2.incoming.flatten = t := by
  induction h with
  | nil s => exact ⟨rfl, hs⟩
  | @cons s r rs n hr hd hcuts hnext ih =>
      rw [List.flatten_cons, List.append_assoc] at hs
      obtain ⟨hreqs, hrest⟩ := ih (hd.rest hs)
      rw [List.length_cons, HttpSession.recvRequests, recvRequest_of_delivers hr hd hcuts]
      exact ⟨by rw [List.map_cons, ← hreqs], hrest⟩

/-- A call never consumes exactly one request without a read that ends with it, and it does with
such a read if no read cuts the request at a harmful place. -/
theorem recvRequest_consumes_one (buffSize : ℕ) (s : Socket) :
    (∀ r t, CompleteRequest r → s.incoming.flatten = r ++ t →
      (ConsumesOne buffSize s r t → ∃ n, s.Delivers buffSize r n) ∧
      ∀ n, s.Delivers buffSize r n → CutsOk (s.reads buffSize n).1 →
        ConsumesOne buffSize s r t) ∧
    ∀ rs t, Pipelined buffSize s rs → s.incoming.flatten = rs.flatten ++ t →
      (recvRequests buffSize rs.length s).1 = rs.map requestOf ∧
        (recvRequests buffSize rs.length s).2.incoming.flatten = t := by
  refine ⟨?_, ?_⟩
  · intro r t hr hs
    exact ⟨fun h => h.delivers hs, fun n hd hcuts => consumesOne_of_delivers hr hs hd hcuts⟩
  · intro rs t h hs
    exact h.recvRequests hs

def getA : Bytes := bytes "GET /a HTTP/1.1\r\nHost: x\r\n\r\n"
def postB : Bytes := bytes "POST /b HTTP/1.1\r\nContent-Length: 3\r\n\r\nxyz"

theorem getA_complete : CompleteRequest getA :=
  completeRequest_of_dropLast (by decide +kernel) (by decide +kernel) (by decide +kernel)

theorem postB_complete : CompleteRequest postB :=
  completeRequest_of_dropLast (by decide +kernel) (by decide +kernel) (by decide +kernel)

/-- Two requests in two segments, read with the default buffer size. -/
theorem recvRequest_consumes_getA :
    ConsumesOne 4096 ⟨[getA, postB], true⟩ getA postB ∧
    (∃ n, Socket.Delivers ⟨[getA, postB], true⟩ 4096 getA n) ∧
    (recvRequests 4096 2 ⟨[getA, postB], true⟩).1 = [requestOf getA, requestOf postB] := by
  have hs : (Socket.mk [getA, postB] true).incoming.flatten = getA ++ postB := by decide +kernel
  have ha : Socket.Delivers ⟨[getA, postB], true⟩ 4096 getA 1 :=
    ⟨by decide +kernel, by decide +kernel⟩
  have hb : Socket.Delivers ⟨[postB], true⟩ 4096 postB 1 :=
    ⟨by decide +kernel, by decide +kernel⟩
  have hone := ((recvRequest_consumes_one _ _).1 _ _ getA_complete hs).2 _ ha (cutsOk_single _)
  have hnext : (Socket.reads 4096 1 ⟨[getA, postB], true⟩).2 = ⟨[postB], true⟩ := by
    decide +kernel
  have hpipe : Pipelined 4096 ⟨[getA, postB], true⟩ [getA, postB] := by
    refine .cons getA_complete ha (cutsOk_single _) ?_
    rw [hnext]
    exact .cons postB_complete hb (cutsOk_single _) (.nil _)
  exact ⟨hone, ((recvRequest_consumes_one _ _).1 _ _ getA_complete hs).1 hone,
    ((recvRequest_consumes_one _ _).2 _ [] hpipe (by decide +kernel)).1⟩

/-- Two requests in one segment: the first call returns a mixture of both, and the second is
lost. -/
theorem recvRequest_not_consumes_one :
    ¬∀ s r t, CompleteRequest r → s.incoming.flatten = r ++ t → (∀ x ∈ s.incoming, x ≠ []) →
      s.connected = true → ConsumesOne 4096 s r t := by
  intro h
  have hone := h ⟨[getA ++ postB], true⟩ getA postB getA_complete (by decide +kernel)
    (by decide +kernel) rfl
  have hrest := hone.rest
  revert hrest
  decide +kernel

end HttpSession

end Xzmjx.HttpRequestModel
