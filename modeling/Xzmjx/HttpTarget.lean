import Xzmjx.HttpRequestLine

/-!
# The URL of a dumped request

`dump` writes the path, the query behind `?` and the fragment behind `#`. Both automata, the one
in `http_parser_execute` and the one in `http_parser_parse_url`, go through the same states over
this text, and the second one finds the three parts again.
-/
namespace Xzmjx.HttpRequestModel
open HttpParserModel PushParser

/-- A part of a URL and the delimiter before it. -/
def delimited (d : UInt8) (part : Bytes) : Bytes := if part = [] then [] else d :: part

/-- What `dump` writes between the method and the version. -/
def HttpRequest.target (r : HttpRequest) : Bytes :=
  r.path ++ (delimited '?'.toUInt8 r.query ++ delimited '#'.toUInt8 r.fragment)

/-- The three parts of a URL as the parser can tell them apart. -/
structure HttpRequest.UrlSafe (r : HttpRequest) : Prop where
  path_head : r.path.head? = some '/'.toUInt8 ∨ r.path.head? = some '*'.toUInt8
  path : ∀ c ∈ r.path, isUrlChar c
  query : ∀ c ∈ r.query, isUrlChar c ∨ c = '?'.toUInt8
  fragment_head : r.fragment.head? ≠ some '#'.toUInt8
  fragment : ∀ c ∈ r.fragment, isUrlChar c ∨ c = '?'.toUInt8 ∨ c = '#'.toUInt8
  length : r.target.length < 2 ^ 16

/-! ### The automaton over the parts -/

/-- The automaton enters `s'` from `s` with the first byte of `part` and stays there. -/
def Enters (s s' : State) (part : Bytes) : Prop :=
  ∃ b bs, part = b :: bs ∧ parseUrlChar s b = s' ∧ ∀ c ∈ bs, parseUrlChar s' c = s'

section Chars
variable {c : UInt8}

theorem parseUrlChar_of_isUrlChar (h : isUrlChar c = true) :
    parseUrlChar .reqPath c = .reqPath ∧ parseUrlChar .reqQueryStringStart c = .reqQueryString ∧
      parseUrlChar .reqQueryString c = .reqQueryString ∧
      parseUrlChar .reqFragmentStart c = .reqFragment ∧
      parseUrlChar .reqFragment c = .reqFragment := by
  have hne : c ≠ ' '.toUInt8 ∧ c ≠ CR ∧ c ≠ LF ∧ c ≠ 9 ∧ c ≠ 12 := by
    refine ⟨?_, ?_, ?_, ?_, ?_⟩ <;>
    · rintro rfl
      revert h
      decide
  obtain ⟨hblank, hcr, hlf, htab, hff⟩ := hne
  simp [parseUrlChar, parseUrlChar.query, h, hblank, hcr, hlf, htab, hff]

theorem parseUrlChar_query (h : isUrlChar c = true ∨ c = '?'.toUInt8) :
    parseUrlChar .reqQueryStringStart c = .reqQueryString ∧
      parseUrlChar .reqQueryString c = .reqQueryString := by
  rcases h with h | rfl
  · obtain ⟨-, hstart, hstay, -, -⟩ := parseUrlChar_of_isUrlChar h
    exact ⟨hstart, hstay⟩
  · decide

theorem parseUrlChar_fragment
    (h : isUrlChar c = true ∨ c = '?'.toUInt8 ∨ c = '#'.toUInt8) :
    (c ≠ '#'.toUInt8 → parseUrlChar .reqFragmentStart c = .reqFragment) ∧
      parseUrlChar .reqFragment c = .reqFragment := by
  rcases h with h | rfl | rfl
  · obtain ⟨-, -, -, hstart, hstay⟩ := parseUrlChar_of_isUrlChar h
    exact ⟨fun _ => hstart, hstay⟩
  · decide
  · decide

end Chars

namespace HttpRequest.UrlSafe
variable {r : HttpRequest} (h : r.UrlSafe)
include h

theorem enters_path : Enters .reqSpacesBeforeUrl .reqPath r.path := by
  have hhead := h.path_head
  have hpath := h.path
  cases hp : r.path with
  | nil => simp [hp] at hhead
  | cons b bs =>
      rw [hp] at hhead hpath
      refine ⟨b, bs, rfl, ?_, fun c hc => ?_⟩
      · rcases hhead with hb | hb
        · obtain rfl : b = '/'.toUInt8 := Option.some.inj hb
          decide
        · obtain rfl : b = '*'.toUInt8 := Option.some.inj hb
          decide
      · exact (parseUrlChar_of_isUrlChar (hpath c (List.mem_cons_of_mem _ hc))).1

theorem enters_query (hne : r.query ≠ []) :
    Enters .reqQueryStringStart .reqQueryString r.query := by
  obtain ⟨b, bs, hq⟩ := List.exists_cons_of_ne_nil hne
  have hquery := h.query
  rw [hq] at hquery
  refine ⟨b, bs, hq, (parseUrlChar_query (hquery b List.mem_cons_self)).1, fun c hc => ?_⟩
  exact (parseUrlChar_query (hquery c (List.mem_cons_of_mem _ hc))).2

theorem enters_fragment (hne : r.fragment ≠ []) :
    Enters .reqFragmentStart .reqFragment r.fragment := by
  obtain ⟨b, bs, hf⟩ := List.exists_cons_of_ne_nil hne
  have hhead := h.fragment_head
  have hfragment := h.fragment
  rw [hf] at hhead hfragment
  have hb : b ≠ '#'.toUInt8 := fun he => hhead (congrArg some he)
  refine ⟨b, bs, hf, (parseUrlChar_fragment (hfragment b List.mem_cons_self)).1 hb, fun c hc => ?_⟩
  exact (parseUrlChar_fragment (hfragment c (List.mem_cons_of_mem _ hc))).2

end HttpRequest.UrlSafe

/-! ### The parser goes over the URL -/

theorem walks_stay {s : State} {xs ys : Bytes} (hs : s.inTarget = true)
    (hstay : ∀ c ∈ xs, parseUrlChar s c = s) (hys : Walks s ys) : Walks s (xs ++ ys) := by
  induction xs with
  | nil => exact hys
  | cons c xs ih =>
      have hc := hstay c List.mem_cons_self
      rw [List.cons_append, Walks, hc]
      exact ⟨hs, ih fun d hd => hstay d (List.mem_cons_of_mem _ hd)⟩

theorem Enters.walks {s s' : State} {part rest : Bytes} (h : Enters s s' part)
    (hs : s'.inTarget = true) (hrest : Walks s' rest) : Walks s (part ++ rest) := by
  obtain ⟨b, bs, rfl, hb, hstay⟩ := h
  rw [List.cons_append, Walks, hb]
  exact ⟨hs, walks_stay hs hstay hrest⟩

/-- A part that may be missing. -/
theorem walks_delimited {s s' s'' : State} {d : UInt8} {part rest : Bytes}
    (hd : parseUrlChar s d = s') (hs' : s'.inTarget = true) (hs'' : s''.inTarget = true)
    (h : part ≠ [] → Enters s' s'' part) (hnone : Walks s rest) (hsome : Walks s'' rest) :
    Walks s (delimited d part ++ rest) := by
  rw [delimited]
  split_ifs with hpart
  · exact hnone
  · rw [List.cons_append, Walks, hd]
    exact ⟨hs', (h hpart).walks hs'' hsome⟩

theorem HttpRequest.UrlSafe.walks {r : HttpRequest} (h : r.UrlSafe) :
    Walks .reqSpacesBeforeUrl r.target := by
  have hfragment : ∀ s : State, parseUrlChar s '#'.toUInt8 = .reqFragmentStart →
      Walks s (delimited '#'.toUInt8 r.fragment) := by
    intro s hs
    have hend : Walks s (delimited '#'.toUInt8 r.fragment ++ []) :=
      walks_delimited hs rfl rfl h.enters_fragment trivial trivial
    rwa [List.append_nil] at hend
  refine h.enters_path.walks rfl (walks_delimited (by decide) rfl rfl h.enters_query ?_ ?_)
  · exact hfragment _ (by decide)
  · exact hfragment _ (by decide)

/-! ### The callback takes the URL apart -/

/-- Where a part of the URL lies. -/
def partSpan (off : ℕ) (part : Bytes) : Option Span :=
  if part = [] then none else some ⟨UInt16.ofNat off, UInt16.ofNat part.length⟩

/-- The fields of the URL. -/
def HttpRequest.spans (r : HttpRequest) : HttpParserUrl
  | .path => partSpan 0 r.path
  | .query => partSpan (r.path.length + 1) r.query
  | .fragment =>
      partSpan ((r.path ++ delimited '?'.toUInt8 r.query).length + 1) r.fragment
  | _ => none

theorem grow_eq {u : HttpParserUrl} {f : UrlField} {d : Span} (h : u f = some d) :
    grow u f = Function.update u f (some { d with len := d.len + 1 }) := by
  rw [grow, h]
  rfl

/-- The bytes of a field behind its first one. -/
theorem parseUrlLoop_stay {s : State} {f : UrlField} {u : HttpParserUrl} {d : Span} {i : ℕ}
    {xs rest : Bytes} (hf : urlField s = some (some f)) (hat : s ≠ .reqServerWithAt)
    (hstay : ∀ c ∈ xs, parseUrlChar s c = s) :
    parseUrlLoop s (some f) false (Function.update u f (some d)) i (xs ++ rest) =
      parseUrlLoop s (some f) false
        (Function.update u f (some { d with len := d.len + UInt16.ofNat xs.length }))
        (i + xs.length) rest := by
  induction xs generalizing d i with
  | nil =>
      have hlen : d.len + UInt16.ofNat ([] : Bytes).length = d.len := UInt16.add_zero _
      rw [hlen]
      rfl
  | cons c xs ih =>
      have hc := hstay c List.mem_cons_self
      have hlen : d.len + 1 + UInt16.ofNat xs.length =
          d.len + UInt16.ofNat (c :: xs).length := by
        rw [List.length_cons, UInt16.add_assoc, Nat.add_comm, UInt16.ofNat_add]
        rfl
      rw [List.cons_append, parseUrlLoop]
      simp only [hc, hf, hat, decide_false, Bool.or_false, if_true]
      rw [grow_eq (Function.update_self ..), Function.update_idem,
        ih fun e he => hstay e (List.mem_cons_of_mem _ he), hlen, List.length_cons, Nat.add_assoc,
        Nat.add_comm 1]

/-- A whole field. -/
theorem parseUrlLoop_enters {s s' : State} {f : UrlField} {old : Option UrlField}
    {u : HttpParserUrl} {i : ℕ} {part rest : Bytes} (h : Enters s s' part)
    (hf : urlField s' = some (some f)) (hat : s' ≠ .reqServerWithAt) (hold : old ≠ some f) :
    parseUrlLoop s old false u i (part ++ rest) =
      parseUrlLoop s' (some f) false (Function.update u f (partSpan i part)) (i + part.length)
        rest := by
  obtain ⟨b, bs, rfl, hb, hstay⟩ := h
  have hlen : (1 : UInt16) + UInt16.ofNat bs.length = UInt16.ofNat (b :: bs).length := by
    rw [List.length_cons, Nat.add_comm, UInt16.ofNat_add]
    rfl
  rw [List.cons_append, parseUrlLoop]
  simp only [hb, hf, hat, decide_false, Bool.or_false, hold, if_false]
  rw [parseUrlLoop_stay hf hat hstay, hlen, partSpan, if_neg (List.cons_ne_nil _ _),
    List.length_cons, Nat.add_assoc, Nat.add_comm 1]

/-- A field that may be missing, with its delimiter. -/
theorem parseUrlLoop_delimited {s s' s'' : State} {d : UInt8} {f : UrlField}
    {old : Option UrlField} {u : HttpParserUrl} {i : ℕ} {part rest : Bytes}
    (hd : parseUrlChar s d = s') (hs' : urlField s' = some none) (hat' : s' ≠ .reqServerWithAt)
    (hf : urlField s'' = some (some f)) (hat : s'' ≠ .reqServerWithAt) (hold : old ≠ some f)
    (h : part ≠ [] → Enters s' s'' part) (hu : u f = none) :
    parseUrlLoop s old false u i (delimited d part ++ rest) =
      parseUrlLoop (if part = [] then s else s'') (if part = [] then old else some f) false
        (Function.update u f (partSpan (i + 1) part)) (i + (delimited d part).length) rest := by
  rw [delimited]
  by_cases hpart : part = []
  · rw [if_pos hpart, if_pos hpart, if_pos hpart, partSpan, if_pos hpart, ← hu,
      Function.update_eq_self]
    rfl
  · rw [if_neg hpart, if_neg hpart, if_neg hpart, List.cons_append, parseUrlLoop]
    simp only [hd, hs', hat', decide_false, Bool.or_false]
    rw [parseUrlLoop_enters (h hpart) hf hat hold, List.length_cons, Nat.add_assoc, Nat.add_comm 1]

theorem HttpRequest.UrlSafe.parse {r : HttpRequest} (h : r.UrlSafe) :
    httpParserParseUrl r.target = some r.spans := by
  have hloop : parseUrlLoop .reqSpacesBeforeUrl none false (fun _ => none) 0 r.target =
      some (r.spans, false) := by
    have hspans : r.spans = Function.update (Function.update (Function.update (fun _ => none)
        .path (partSpan 0 r.path)) .query (partSpan (r.path.length + 1) r.query)) .fragment
        (partSpan ((r.path ++ delimited '?'.toUInt8 r.query).length + 1) r.fragment) := by
      funext f
      cases f <;> rfl
    have hpath : parseUrlLoop .reqSpacesBeforeUrl none false (fun _ => none) 0 (r.path ++
        (delimited '?'.toUInt8 r.query ++ delimited '#'.toUInt8 r.fragment)) = _ :=
      parseUrlLoop_enters h.enters_path (f := .path) rfl (by decide) (by decide)
    have hfragment := fun (s : State) (old : Option UrlField) (u : HttpParserUrl) (i : ℕ)
        (hs : parseUrlChar s '#'.toUInt8 = .reqFragmentStart) (hold : old ≠ some .fragment)
        (hu : u .fragment = none) =>
      (parseUrlLoop_delimited hs rfl (by decide) (f := .fragment) rfl (by decide) hold
        h.enters_fragment hu :
        parseUrlLoop s old false u i (delimited '#'.toUInt8 r.fragment ++ []) = _)
    rw [HttpRequest.target, hpath, Nat.zero_add,
      parseUrlLoop_delimited (f := .query)
        (show parseUrlChar .reqPath '?'.toUInt8 = .reqQueryStringStart by decide) rfl
        (by decide) rfl (by decide) (by decide) h.enters_query rfl]
    rw [← List.append_nil (delimited '#'.toUInt8 r.fragment), hfragment]
    · rw [hspans, List.length_append]
      rfl
    · split_ifs <;> decide
    · split_ifs <;> decide
    · rfl
  have hne : r.target ≠ [] := by
    obtain ⟨b, bs, hp, -, -⟩ := h.enters_path
    rw [HttpRequest.target, hp]
    exact List.cons_ne_nil _ _
  rw [httpParserParseUrl, if_neg hne, hloop]
  rfl

/-- A span that does not wrap reads its part of the URL. -/
theorem getD_partSpan {pre part post old : Bytes} {off : ℕ} (hoff : off = pre.length)
    (hlen : (pre ++ part ++ post).length < 2 ^ 16) (hold : part = [] → old = []) :
    ((partSpan off part).map fun d => d.text (pre ++ part ++ post)).getD old = part := by
  rw [List.length_append, List.length_append] at hlen
  rw [partSpan]
  split_ifs with hpart
  · rw [hpart]
    exact hold hpart
  · have hoff' : (UInt16.ofNat off).toNat = pre.length := by
      rw [hoff, UInt16.toNat_ofNat']
      exact Nat.mod_eq_of_lt (by omega)
    have hlen' : (UInt16.ofNat part.length).toNat = part.length := by
      rw [UInt16.toNat_ofNat']
      exact Nat.mod_eq_of_lt (by omega)
    rw [Option.map_some, Option.getD_some, Span.text, hoff', hlen', List.append_assoc,
      List.drop_left, List.take_left]

/-- The callback finds the parts that `dump` has written. -/
theorem HttpRequest.UrlSafe.onRequestUrlCb {r : HttpRequest} (h : r.UrlSafe) {g : RequestData}
    (hquery : g.data.query = []) (hfragment : g.data.fragment = []) :
    onRequestUrlCb r.target g = .ok { g with
      data := { g.data with path := r.path, query := r.query, fragment := r.fragment } } := by
  have hpath : ∀ old : Bytes,
      ((r.spans .path).map fun d => d.text r.target).getD old = r.path := by
    intro old
    obtain ⟨b, bs, hp, -, -⟩ := h.enters_path
    exact getD_partSpan (show 0 = ([] : Bytes).length from rfl) h.length fun hnil =>
      absurd (hp.symm.trans hnil) (List.cons_ne_nil b bs)
  have hquery' : ((r.spans .query).map fun d => d.text r.target).getD g.data.query =
      r.query := by
    by_cases hq : r.query = []
    · rw [HttpRequest.spans, partSpan, if_pos hq, hq]
      exact hquery
    · have htarget : r.target = (r.path ++ ['?'.toUInt8]) ++ r.query ++
          delimited '#'.toUInt8 r.fragment := by
        rw [HttpRequest.target, delimited, if_neg hq]
        simp
      have hlen := h.length
      rw [htarget] at hlen ⊢
      exact getD_partSpan (by rw [List.length_append]; rfl) hlen fun hnil => absurd hnil hq
  have hfragment' : ((r.spans .fragment).map fun d => d.text r.target).getD g.data.fragment =
      r.fragment := by
    by_cases hf : r.fragment = []
    · rw [HttpRequest.spans, partSpan, if_pos hf, hf]
      exact hfragment
    · have htarget : r.target = (r.path ++ delimited '?'.toUInt8 r.query ++ ['#'.toUInt8]) ++
          r.fragment ++ [] := by
        rw [HttpRequest.target, delimited.eq_def '#'.toUInt8, if_neg hf]
        simp
      have hlen := h.length
      rw [htarget] at hlen ⊢
      exact getD_partSpan (by simp [Nat.add_assoc]) hlen fun hnil => absurd hnil hf
  rw [HttpRequestModel.onRequestUrlCb, h.parse]
  dsimp only
  rw [hpath, hquery', hfragment']

/-! ### The first line -/

/-- The parser behind the text of a method. -/
def behindMethod (m : HttpMethod) : HttpParser :=
  { HttpParser.init with
    state := .reqMethod
    index := m.text.length
    nread := UInt32.ofNat m.text.length
    contentLength := ullongMax
    method := m }

/-- The text of every method leads to it, except for the one with blanks in its text. -/
theorem standing_method {m : HttpMethod} (hsearch : m ≠ .msearch) :
    (standing m.text).status = .running ∧ (standing m.text).ctrl = behindMethod m ∧
      (standing m.text).frag = none ∧ (standing m.text).client = {} := by
  cases m <;> first | contradiction | decide +kernel

/-- What the parser knows of a request behind its first line. -/
def HttpRequest.known (r : HttpRequest) : Known :=
  ⟨r.method, (r.version >>> 4).toNat, (r.version &&& 0x0f).toNat, none⟩

/-- The members that the first line brings, the method and the version apart. -/
def HttpRequest.lineData (r : HttpRequest) : RequestData :=
  { data := { path := r.path, query := r.query, fragment := r.fragment } }

/-- The first line in the words of the automata. -/
theorem startLine_eq (r : WireRequest) (hmajor : (r.version >>> 4).toNat < 10)
    (hminor : (r.version &&& 0x0f).toNat < 10) :
    r.startLine = r.method.text ++ ([' '.toUInt8] ++ ((r.target ++ [' '.toUInt8]) ++
      (bytes "HTTP/" ++ [Numerals.digit (r.version >>> 4).toNat] ++ bytes "." ++
        [Numerals.digit (r.version &&& 0x0f).toNat]))) := by
  have hdelim : ∀ (d : UInt8) (part : Bytes),
      (if part = [] then [] else [d]) ++ part = delimited d part := by
    intro d part
    rw [delimited]
    split_ifs with hpart
    · exact hpart
    · rfl
  have hquery := hdelim '?'.toUInt8 r.query
  have hfragment := hdelim '#'.toUInt8 r.fragment
  rw [WireRequest.startLine, versionText, decimal_eq, decimal_eq, Numerals.numeral_of_lt hmajor,
    Numerals.numeral_of_lt hminor, HttpRequest.target, ← hquery, ← hfragment]
  simp only [List.append_assoc]
  rfl

theorem standing_startLine {r : WireRequest} (hurl : r.UrlSafe) (hconnect : r.method ≠ .connect)
    (hsearch : r.method ≠ .msearch) (hmajor : (r.version >>> 4).toNat < 10)
    (hminor : (r.version &&& 0x0f).toNat < 10)
    (hn : (r.startLine ++ CRLF).length ≤ maxHeaderSize.toNat) :
    At (HttpParser.Idle .headerFieldStart r.known (r.startLine ++ CRLF).length) none r.lineData
      (standing (r.startLine ++ CRLF)) := by
  have hmax : maxHeaderSize.toNat = 81920 := rfl
  have hline := startLine_eq r hmajor hminor
  have hlen : (r.startLine ++ CRLF).length =
      r.method.text.length + 1 + r.target.length + 1 + 8 + 2 := by
    rw [List.length_append, hline]
    simp only [List.length_append, List.length_singleton]
    have hhttp : (bytes "HTTP/").length = 5 ∧ (bytes ".").length = 1 ∧ CRLF.length = 2 := by
      decide
    omega
  obtain ⟨hstatus, hctrl, hfrag, hclient⟩ := standing_method hsearch
  have hmethod : At (fun p => p.Idle .reqMethod ⟨r.method, 0, 0, none⟩ r.method.text.length ∧
      p.index = p.method.text.length) none {} (standing r.method.text) := by
    refine ⟨hstatus, ?_, hfrag, hclient⟩
    rw [hctrl]
    refine ⟨⟨rfl, ⟨rfl, rfl⟩, ⟨rfl, rfl, rfl, rfl, rfl, rfl, rfl, rfl, rfl, rfl, ?_⟩⟩, rfl⟩
    exact Nat.mod_eq_of_lt (by omega)
  have hblank : Triple machine requestSettings
      (At (fun p => p.Idle .reqMethod ⟨r.method, 0, 0, none⟩ r.method.text.length ∧
        p.index = p.method.text.length) none {}) [' '.toUInt8]
      (At (HttpParser.Idle .reqSpacesBeforeUrl ⟨r.method, 0, 0, none⟩
        (r.method.text.length + 1)) none {}) := by
    refine At.silent ?_
    rintro p ⟨hp, hindex⟩
    have hc := hp.counted (by omega)
    refine ⟨{ p.counted with state := .reqSpacesBeforeUrl, index := p.index + 1 }, ?_, rfl,
      ⟨hc.calm.inLoop, hc.calm.fast⟩, { hc.knows with }⟩
    rw [show machine.step p _ = _ from hp.step_eq (by omega) rfl]
    simp only [HttpParser.dispatch, hc.state]
    rw [HttpParser.reqMethod, if_neg (by decide), if_pos ⟨rfl, hindex⟩]
    rfl
  have htarget := reads_url (C := requestSettings) (k := ⟨r.method, 0, 0, none⟩)
    (n := r.method.text.length + 1) (g := {}) hurl.walks
    (by
      obtain ⟨b, bs, hp, -, -⟩ := hurl.enters_path
      rw [HttpRequest.target, hp]
      exact List.cons_ne_nil _ _)
    (hurl.onRequestUrlCb rfl rfl) hconnect (by omega)
  have hversion := reads_version (C := requestSettings) (k := ⟨r.method, 0, 0, none⟩)
    (n := r.method.text.length + 1 + r.target.length + 1) (g := r.lineData) hmajor hminor
    (by omega)
  have hend := reads_crlf (C := requestSettings) (k := r.known) (g := r.lineData)
    (n := r.method.text.length + 1 + r.target.length + 1 + 8) (s := .reqHttpEnd)
    .reqLineAlmostDone .headerFieldStart (by omega) rfl rfl
    (by
      intro q hq
      simp only [HttpParser.dispatch, hq]
      rfl)
    (by
      intro q hq
      simp only [HttpParser.dispatch, hq]
      rfl)
  have hall := ((hblank.append (htarget.append hversion)).append hend) _ hmethod
  rw [hlen, hline, List.append_assoc, standing_append]
  exact hall

end Xzmjx.HttpRequestModel
