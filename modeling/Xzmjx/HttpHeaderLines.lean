import Xzmjx.HttpHeaderNames

/-!
# Reading dumped header lines

The triples for a line of a header section: its name, its value and the line end. A value that is
empty reaches the callback with the first byte of the next line only.
-/
namespace Xzmjx.HttpRequestModel
open HttpParserModel PushParser UrlCoding

/-- A run at the beginning of a header line, `g` being the request so far. -/
inductive AtLine (k : Known) (n : ℕ) (g : RequestData) (c : RequestRun) : Prop
  | first (h : At (HttpParser.Idle .headerFieldStart k n) none g c)
  | behind (h : At (fun p => p.Idle .headerValueLws k n ∧
      p.headerState ≠ .transferEncodingChunked) none g c)
  | behindEmpty (g₀ : RequestData) (h : At (fun p => p.Idle .headerValueDiscardLws k n ∧
      p.headerState ≠ .transferEncodingChunked ∧ p.headerState ≠ .contentLength) none g₀ c)
      (hg : onRequestHeaderValueCb [] g₀ = g)

section Lines
variable {k : Known} {n : ℕ} {g : RequestData} {b : UInt8}

/-- A header that is not about chunks sets no flag but one for the connection. -/
theorem HttpParser_setHeaderFlag {p : HttpParser} {s s' : State} (h : p.Idle s k n)
    (hs : p.headerState ≠ .transferEncodingChunked) :
    { p.setHeaderFlag with state := s' }.Idle s' k n := by
  have hknows := h.knows
  unfold HttpParser.setHeaderFlag
  split
  · exact ⟨rfl, ⟨h.calm.inLoop, h.calm.fast⟩, { hknows with }⟩
  · exact ⟨rfl, ⟨h.calm.inLoop, h.calm.fast⟩, { hknows with }⟩
  · exact ⟨rfl, ⟨h.calm.inLoop, h.calm.fast⟩, { hknows with }⟩
  · contradiction
  · exact ⟨rfl, ⟨h.calm.inLoop, h.calm.fast⟩, { hknows with }⟩

/-- Wherever the line before has left the parser, the first byte of a line is read as the first
byte of the section. -/
theorem AtLine.byte {c : RequestRun} (h : AtLine k n g c) (hn : n < maxHeaderSize.toNat)
    (hblank : ¬(b = ' '.toUInt8 ∨ b = 9)) :
    ∃ (p : HttpParser) (m : ℕ), p.Idle .headerFieldStart k (n + 1) ∧
      run machine requestSettings c [b] =
      advance b (acts requestSettings b
        ⟨(p.headerFieldStart b).1, none, g, .running, m⟩ (p.headerFieldStart b).2) := by
  obtain ⟨s, f, g', t, m⟩ := c
  cases h with
  | first h =>
      obtain ⟨hr, hs, hf, hg⟩ := h
      obtain rfl : t = _ := hr
      obtain rfl : f = none := hf
      obtain rfl : g' = g := hg
      have hc := hs.counted hn
      have hstep : machine.step s b = s.counted.headerFieldStart b := by
        rw [show machine.step s b = _ from hs.step_eq hn rfl]
        simp only [HttpParser.dispatch, hc.state]
      refine ⟨s.counted, m, hc, ?_⟩
      rw [run_cons, run_nil]
      simp only [PushParser.byte, hstep]
  | behind h =>
      obtain ⟨hr, ⟨hs, hchunked⟩, hf, hg⟩ := h
      obtain rfl : t = _ := hr
      obtain rfl : f = none := hf
      obtain rfl : g' = g := hg
      have hc := hs.counted hn
      have hstep : machine.step s b = HttpParser.headerFieldStart
          { s.counted.setHeaderFlag with state := .headerFieldStart } b := by
        rw [show machine.step s b = _ from hs.step_eq hn rfl]
        simp only [HttpParser.dispatch, hc.state, HttpParser.headerValueLws, hblank, if_false]
      refine ⟨_, m, HttpParser_setHeaderFlag hc hchunked, ?_⟩
      rw [run_cons, run_nil]
      simp only [PushParser.byte, hstep]
  | behindEmpty _ h hcb =>
      obtain ⟨hr, ⟨hs, hchunked, hlength⟩, hf, hg⟩ := h
      obtain rfl : t = _ := hr
      obtain rfl : f = none := hf
      obtain rfl : g' = _ := hg
      have hc := hs.counted hn
      have hlength' : s.counted.headerState ≠ .contentLength := hlength
      have hstep : machine.step s b =
          ((HttpParser.headerFieldStart
              { s.counted.setHeaderFlag with state := .headerFieldStart } b).1,
            .mark .headerValue :: .emit .headerValue false false ::
              (HttpParser.headerFieldStart
                { s.counted.setHeaderFlag with state := .headerFieldStart } b).2) := by
        rw [show machine.step s b = _ from hs.step_eq hn rfl]
        simp only [HttpParser.dispatch, hc.state, HttpParser.headerValueDiscardLws, hblank,
          if_false, hlength']
      refine ⟨_, m, HttpParser_setHeaderFlag hc hchunked, ?_⟩
      rw [run_cons, run_nil]
      simp only [PushParser.byte, hstep]
      rw [acts_cons_running rfl, acts_cons_running rfl]
      rw [← hcb]
      rfl

/-- The first character of a name. -/
theorem AtLine.name (hb : (token b).isSome = true) (hn : n < maxHeaderSize.toNat) :
    Triple machine requestSettings (AtLine k n g) [b]
      (At (InName k (n + 1) [tolower b]) (some (.headerField, [b])) g) := by
  intro c hc
  obtain ⟨-, -, -, -, -, hblank, htab, -⟩ := token_eq b hb
  obtain ⟨p, m, hp, hrun⟩ := hc.byte hn (b := b) (by rintro (h | h) <;> contradiction)
  rw [hrun, headerFieldStart_token p hb]
  refine ⟨rfl, ?_, rfl, rfl⟩
  have hname := nameParser_singleton hb
  refine ⟨rfl, hp.calm.fast, ?_, ?_, ?_, { hp.knows with encoding := rfl }⟩
  · rw [hname]
    rfl
  · rw [hname]
    rfl
  · rw [hname]
    exact hp.knows.encoding

/-- The line end that closes the section. -/
theorem AtLine.close (hn : n < maxHeaderSize.toNat) :
    Triple machine requestSettings (AtLine k n g) [CR]
      (At (HttpParser.Idle .headersAlmostDone k (n + 1)) none g) := by
  intro c hc
  obtain ⟨p, m, hp, hrun⟩ := hc.byte hn (b := CR) (by decide)
  have hstart : p.headerFieldStart CR = p.goto .headersAlmostDone := rfl
  rw [hrun, hstart]
  exact ⟨rfl, hp.goto _, rfl, rfl⟩

/-- A further character of a name. -/
theorem InName.step {w : Bytes} {p : HttpParser} (h : InName k n w p) (hw : w ≠ [])
    (hb : (token b).isSome = true) (hn : n < maxHeaderSize.toNat) :
    ∃ q, machine.step p b = (q, []) ∧ InName k (n + 1) (w ++ [tolower b]) q := by
  have hnread : p.nread.toNat < maxHeaderSize.toNat := h.knows.nread ▸ hn
  have hcount := h.knows.counted hn
  have happend := nameParser_append hw (tolower b)
  obtain ⟨htoken, -⟩ := token_eq b hb
  have hchar := fieldChar_congr (p := p.counted) h.headerState h.index h.encoding (tolower b)
  have hstate : p.counted.state = .headerField := h.state
  refine ⟨{ p.counted.fieldChar (tolower b) with inLoop := true }, ?_, ?_⟩
  · rw [show machine.step p b = _ from HttpParser.step_eq hnread (h.state ▸ rfl)]
    simp only [HttpParser.dispatch, hstate, HttpParser.headerField, htoken]
  · rw [hchar]
    refine ⟨h.state, h.fast, ?_, ?_, ?_, { hcount with }⟩
    · rw [happend]
    · rw [happend]
    · rw [happend]

/-- A name and what `dump` writes behind it. The client hears of the name. -/
theorem reads_fieldName {name : Bytes} (hname : IsName name)
    (hencoding : (nameParser (caseKey name)).usesTransferEncoding = false)
    (hn : n + name.length + 2 ≤ maxHeaderSize.toNat) :
    Triple machine requestSettings (AtLine k n g) (name ++ bytes ": ")
      (At (fun p => p.Idle .headerValueDiscardWs k (n + name.length + 2) ∧
        p.headerState = (nameParser (caseKey name)).headerState) none
        (onRequestHeaderFieldCb name g)) := by
  have hkey := hname.caseKey
  obtain ⟨b, bs, rfl⟩ := List.exists_cons_of_ne_nil hname.nonempty
  rw [List.length_cons] at hn
  have hfirst := AtLine.name (k := k) (g := g) (hname.tokens b List.mem_cons_self)
    (by omega : n < maxHeaderSize.toNat)
  have hrest : Triple machine requestSettings
      (At (InName k (n + 1) [tolower b]) (some (.headerField, [b])) g) bs
      (At (InName k (n + 1 + bs.length) (tolower b :: bs.map tolower))
        (some (.headerField, b :: bs)) g) := by
    refine At.silents (I := fun done => InName k (n + 1 + done.length)
      (tolower b :: done.map tolower)) ?_
    intro done c hc p hp
    have hlen := hc.length_le
    rw [List.length_append, List.length_singleton] at hlen
    have hmem : c ∈ bs := hc.subset (List.mem_append_right _ List.mem_cons_self)
    obtain ⟨q, hq, hin⟩ := hp.step (List.cons_ne_nil _ _)
      (hname.tokens c (List.mem_cons_of_mem _ hmem)) (by omega)
    refine ⟨q, hq, ?_⟩
    rw [List.length_append, List.length_singleton, List.map_append, List.map_singleton]
    exact hin
  have hcolon : Triple machine requestSettings
      (At (InName k (n + 1 + bs.length) (tolower b :: bs.map tolower))
        (some (.headerField, b :: bs)) g) [':'.toUInt8]
      (At (fun p => p.Idle .headerValueDiscardWs k (n + 1 + bs.length + 1) ∧
        p.headerState = (nameParser (caseKey (b :: bs))).headerState) none
        (onRequestHeaderFieldCb (b :: bs) g)) := by
    refine At.emit true rfl ?_
    intro p hp
    have hnread : p.nread.toNat < maxHeaderSize.toNat := by
      rw [show p.nread.toNat = n + 1 + bs.length from hp.knows.nread]
      omega
    have hcount := hp.knows.counted (by omega : n + 1 + bs.length < maxHeaderSize.toNat)
    have hroom : ¬p.counted.overflows = true := by
      rw [HttpParser.not_overflows, Bool.false_eq_true]
      · exact not_false
      · rw [show p.counted.nread.toNat = n + 1 + bs.length + 1 from hcount.nread]
        omega
    have hstate : p.counted.state = .headerField := hp.state
    have hcolon : token ':'.toUInt8 = none := by decide
    have huses : p.usesTransferEncoding = false := by
      rw [hp.encoding, ← List.map_cons, ← hkey]
      exact hencoding
    refine ⟨{ p.counted with inLoop := false, state := .headerValueDiscardWs }, ?_,
      ⟨rfl, ⟨rfl, hp.fast⟩, { hcount with encoding := huses }⟩, ?_⟩
    · rw [show machine.step p _ = _ from HttpParser.step_eq hnread (hp.state ▸ rfl)]
      simp only [HttpParser.dispatch, hstate, HttpParser.headerField, hcolon, if_true]
      exact if_neg hroom
    · rw [hkey, List.map_cons]
      exact hp.headerState
  have hblank : Triple machine requestSettings
      (At (fun p => p.Idle .headerValueDiscardWs k (n + 1 + bs.length + 1) ∧
        p.headerState = (nameParser (caseKey (b :: bs))).headerState) none
        (onRequestHeaderFieldCb (b :: bs) g)) [' '.toUInt8]
      (At (fun p => p.Idle .headerValueDiscardWs k (n + (bs.length + 1) + 2) ∧
        p.headerState = (nameParser (caseKey (b :: bs))).headerState) none
        (onRequestHeaderFieldCb (b :: bs) g)) := by
    refine At.silent ?_
    rintro p ⟨hp, hs⟩
    have hc := hp.counted (by omega)
    have hcount : n + 1 + bs.length + 1 + 1 = n + (bs.length + 1) + 2 := by omega
    rw [hcount] at hc
    refine ⟨p.counted, ?_, hc, hs⟩
    rw [show machine.step p _ = _ from hp.step_eq (by omega) rfl]
    simp only [HttpParser.dispatch, hc.state]
    rfl
  exact (hfirst.cons hrest).append (hcolon.cons hblank)

end Lines

end Xzmjx.HttpRequestModel
