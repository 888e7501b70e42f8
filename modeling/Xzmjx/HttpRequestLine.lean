import Xzmjx.HttpDump
import Xzmjx.HttpSegmentation
import Xzmjx.PushParserTriples

/-!
# Reading a dumped request line

What the parser has learned while it reads a header section, and the triples for the first line
of a request: the method, the URL, which the callback takes apart again, and the version.
-/
namespace Xzmjx.HttpParserModel
open PushParser

/-! ### What the parser has learned -/

/-- The part of a message that is behind the parser: `length` is the content length. -/
structure Known where
  method : HttpMethod
  major : ℕ
  minor : ℕ
  length : Option ℕ

namespace HttpParser

/-- The parser knows `k` after `n` bytes of a header section that asks for nothing special. -/
structure Knows (k : Known) (n : ℕ) (p : HttpParser) : Prop where
  method : p.method = k.method
  major : p.httpMajor = k.major
  minor : p.httpMinor = k.minor
  hasLength : p.flags.contentLength = k.length.isSome
  contentLength : p.contentLength = k.length.getD ullongMax
  chunked : p.flags.chunked = false
  trailing : p.flags.trailing = false
  upgradeFlag : p.flags.upgrade = false
  upgrade : p.upgrade = false
  encoding : p.usesTransferEncoding = false
  nread : p.nread.toNat = n

/-- Between two elements. -/
structure Idle (s : State) (k : Known) (n : ℕ) (p : HttpParser) : Prop where
  state : p.state = s
  calm : p.Calm
  knows : p.Knows k n

/-- The parser with one more byte counted. -/
def counted (p : HttpParser) : HttpParser := { p with nread := p.nread + 1 }

variable {p : HttpParser} {k : Known} {n : ℕ} {ch : UInt8} {s : State}

theorem nread_counted (hn : p.nread.toNat < maxHeaderSize.toNat) :
    p.counted.nread.toNat = p.nread.toNat + 1 := by
  have hmax : maxHeaderSize.toNat = 81920 := rfl
  rw [counted, UInt32.toNat_add, UInt32.toNat_one]
  exact Nat.mod_eq_of_lt (by omega)

theorem not_overflows (hn : p.nread.toNat ≤ maxHeaderSize.toNat) : p.overflows = false := by
  rw [overflows, decide_eq_false_iff_not, UInt32.lt_iff_toNat_lt]
  omega

/-- While there is room, a byte of a header section goes to the switch over the state. -/
theorem step_eq (hn : p.nread.toNat < maxHeaderSize.toNat)
    (hs : parsingHeader p.state = true) : p.step ch = p.counted.dispatch ch := by
  have hroom : p.counted.overflows = false := by
    apply not_overflows
    rw [nread_counted hn]
    omega
  rw [step, if_pos hs, if_neg]
  · rfl
  · rintro ⟨-, hover⟩
    exact absurd hroom (by rw [counted, hover]; decide)

theorem Knows.counted (h : p.Knows k n) (hn : n < maxHeaderSize.toNat) :
    p.counted.Knows k (n + 1) := by
  refine { h with nread := ?_ }
  rw [nread_counted (h.nread ▸ hn), h.nread]

theorem Idle.counted (h : p.Idle s k n) (hn : n < maxHeaderSize.toNat) :
    p.counted.Idle s k (n + 1) :=
  ⟨h.state, ⟨h.calm.inLoop, h.calm.fast⟩, h.knows.counted hn⟩

theorem Idle.step_eq (h : p.Idle s k n) (hn : n < maxHeaderSize.toNat)
    (hs : parsingHeader s = true) : p.step ch = p.counted.dispatch ch :=
  HttpParser.step_eq (h.knows.nread ▸ hn) (h.state ▸ hs)

theorem Idle.goto (h : p.Idle s k n) (s' : State) : { p with state := s' }.Idle s' k n :=
  ⟨rfl, ⟨h.calm.inLoop, h.calm.fast⟩, { h.knows with }⟩

end HttpParser

/-- Reading `bs` from behind the element at hand to behind the next one. -/
abbrev Reads {γ : Type*} (C : Client UInt8 Element Notice HttpErrno γ)
    (I : HttpParser → Prop) (g : γ) (bs : List UInt8) (J : HttpParser → Prop) (g' : γ) : Prop :=
  Triple machine C (At (ε := HttpErrno) I none g) bs (At J none g')

section Line
variable {γ : Type*} {C : Client UInt8 Element Notice HttpErrno γ} {g : γ} {k : Known} {n : ℕ}

/-- A byte of a constant, or between two parts of a line. -/
theorem reads_goto {s : State} (s' : State) {ch : UInt8} (hn : n < maxHeaderSize.toNat)
    (hs : HttpParser.parsingHeader s = true)
    (h : ∀ q : HttpParser, q.state = s → q.dispatch ch = q.goto s') :
    Reads C (HttpParser.Idle s k n) g [ch] (HttpParser.Idle s' k (n + 1)) g := by
  refine At.silent fun p hp => ?_
  have hc := hp.counted hn
  exact ⟨_, (hp.step_eq hn hs).trans (h _ hc.state), hc.goto s'⟩

/-- The end of a line. -/
theorem reads_crlf {s : State} (s' s'' : State) (hn : n + 2 ≤ maxHeaderSize.toNat)
    (hs : HttpParser.parsingHeader s = true) (hs' : HttpParser.parsingHeader s' = true)
    (hcr : ∀ q : HttpParser, q.state = s → q.dispatch CR = q.goto s')
    (hlf : ∀ q : HttpParser, q.state = s' → q.dispatch LF = q.goto s'') :
    Reads C (HttpParser.Idle s k n) g [CR, LF] (HttpParser.Idle s'' k (n + 2)) g :=
  (reads_goto s' (by omega) hs hcr).cons (reads_goto s'' (by omega) hs' hlf)

/-! ### The URL -/

/-- The states behind the first byte of an absolute path. -/
def State.inTarget : State → Bool
  | .reqPath => true
  | .reqQueryStringStart => true
  | .reqQueryString => true
  | .reqFragmentStart => true
  | .reqFragment => true
  | _ => false

/-- The URL automaton reads `url` from `s` on without leaving these states. -/
def Walks : State → List UInt8 → Prop
  | _, [] => True
  | s, b :: bs => (parseUrlChar s b).inTarget = true ∧ Walks (parseUrlChar s b) bs

/-- A byte the automaton goes on with is no blank and no line end. -/
theorem urlByte_of_inTarget {s : State} {b : UInt8} (h : (parseUrlChar s b).inTarget = true) :
    b ≠ ' '.toUInt8 ∧ b ≠ CR ∧ b ≠ LF := by
  refine ⟨?_, ?_, ?_⟩ <;>
  · rintro rfl
    cases h

theorem HttpParser.urlChar_eq {p : HttpParser} {b : UInt8} (marks : List Act)
    (h : (parseUrlChar p.state b).inTarget = true) :
    p.urlChar b marks = ({ p with state := parseUrlChar p.state b }, marks) := by
  have hne : parseUrlChar p.state b ≠ .dead := by
    intro hd
    rw [hd] at h
    cases h
  simp only [HttpParser.urlChar, hne, if_false]

theorem HttpParser.dispatch_reqUrl {p : HttpParser} (b : UInt8) (hs : p.state.inTarget = true) :
    p.dispatch b = p.reqUrl b := by
  unfold HttpParser.dispatch
  cases hstate : p.state <;> first | rfl | (rw [hstate] at hs; cases hs)

theorem HttpParser.dispatch_inTarget {p : HttpParser} {b : UInt8} (hs : p.state.inTarget = true)
    (h : (parseUrlChar p.state b).inTarget = true) :
    p.dispatch b = ({ p with state := parseUrlChar p.state b }, []) := by
  obtain ⟨hblank, hcr, hlf⟩ := urlByte_of_inTarget h
  rw [dispatch_reqUrl b hs, HttpParser.reqUrl, if_neg hblank, if_neg (by simp [hcr, hlf]),
    urlChar_eq _ h]

theorem parsingHeader_inTarget {s : State} (h : s.inTarget = true) :
    HttpParser.parsingHeader s = true := by
  cases s <;> first | rfl | cases h

/-- The bytes of a URL behind its first one. -/
theorem reads_urlRest {s : State} (xs : List UInt8) {bs : List UInt8} (hs : s.inTarget = true)
    (hw : Walks s bs) (hn : n + bs.length ≤ maxHeaderSize.toNat) :
    Triple machine C (At (ε := HttpErrno) (HttpParser.Idle s k n) (some (.url, xs)) g) bs
      (At (fun p => ∃ s', s'.inTarget = true ∧ p.Idle s' k (n + bs.length))
        (some (.url, xs ++ bs)) g) := by
  induction bs generalizing s xs n with
  | nil =>
      rw [List.append_nil]
      exact (Triple.nil _).weaken (fun _ h => h) fun c h =>
        ⟨h.running, ⟨s, hs, h.ctrl⟩, h.frag, h.client⟩
  | cons b bs ih =>
      rw [List.length_cons] at hn
      obtain ⟨hb, hbs⟩ := hw
      have hfirst : Triple machine C
          (At (ε := HttpErrno) (HttpParser.Idle s k n) (some (.url, xs)) g) [b]
          (At (HttpParser.Idle (parseUrlChar s b) k (n + 1)) (some (.url, xs ++ [b])) g) := by
        refine At.silent fun p hp => ?_
        have hc := hp.counted (by omega)
        have hstep := HttpParser.dispatch_inTarget (p := p.counted) (b := b)
          (by rw [hc.state]; exact hs) (by rw [hc.state]; exact hb)
        rw [hc.state] at hstep
        exact ⟨_, (hp.step_eq (by omega) (parsingHeader_inTarget hs)).trans hstep, hc.goto _⟩
      have hrest := ih (xs ++ [b]) hb hbs (n := n + 1) (by omega)
      rw [List.append_assoc, List.singleton_append, Nat.add_assoc, Nat.add_comm 1] at hrest
      exact hfirst.cons hrest

/-- A URL and the blank behind it: the callback sees it in one piece. -/
theorem reads_url {url : List UInt8} {g' : γ} (hw : Walks .reqSpacesBeforeUrl url)
    (hne : url ≠ []) (hd : C.data .url url g = .ok g') (hconnect : k.method ≠ .connect)
    (hn : n + url.length + 1 ≤ maxHeaderSize.toNat) :
    Reads C (HttpParser.Idle .reqSpacesBeforeUrl k n) g (url ++ [' '.toUInt8])
      (HttpParser.Idle .reqHttpStart k (n + url.length + 1)) g' := by
  obtain ⟨b, bs, rfl⟩ := List.exists_cons_of_ne_nil hne
  rw [List.length_cons] at hn ⊢
  obtain ⟨hb, hbs⟩ := hw
  have hfirst : Triple machine C
      (At (ε := HttpErrno) (HttpParser.Idle .reqSpacesBeforeUrl k n) none g) [b]
      (At (HttpParser.Idle (parseUrlChar .reqSpacesBeforeUrl b) k (n + 1))
        (some (.url, [b])) g) := by
    refine At.mark fun p hp => ?_
    have hc := hp.counted (by omega)
    obtain ⟨hblank, -, -⟩ := urlByte_of_inTarget hb
    have hmethod : p.counted.method ≠ .connect := by
      rw [hc.knows.method]
      exact hconnect
    have hstep : p.counted.dispatch b =
        ({ p.counted with state := parseUrlChar .reqSpacesBeforeUrl b }, [.mark .url]) := by
      have hchar := HttpParser.urlChar_eq (p := p.counted) (b := b) [.mark .url]
        (by rw [hc.state]; exact hb)
      rw [hc.state] at hchar
      simp only [HttpParser.dispatch, hc.state, HttpParser.reqSpacesBeforeUrl, hblank, hmethod,
        if_false, hchar]
    exact ⟨_, (hp.step_eq (by omega) rfl).trans hstep, hc.goto _⟩
  have hrest := reads_urlRest (C := C) (g := g) (k := k) [b] hb hbs (n := n + 1) (by omega)
  have hlast : Triple machine C
      (At (ε := HttpErrno) (fun p => ∃ s', s'.inTarget = true ∧
        p.Idle s' k (n + 1 + bs.length)) (some (.url, [b] ++ bs)) g) [' '.toUInt8]
      (At (HttpParser.Idle .reqHttpStart k (n + (bs.length + 1) + 1)) none g') := by
    refine At.emit true hd ?_
    rintro p ⟨s', hs', hp⟩
    have hc := hp.counted (by omega)
    have hstep : p.counted.dispatch ' '.toUInt8 =
        ({ p.counted with state := .reqHttpStart }, [.emit .url false true]) := by
      rw [HttpParser.dispatch_reqUrl _ (by rw [hc.state]; exact hs'), HttpParser.reqUrl,
        if_pos rfl]
    have hcount : n + 1 + bs.length + 1 = n + (bs.length + 1) + 1 := by omega
    rw [hcount] at hc
    exact ⟨_, (hp.step_eq (by omega) (parsingHeader_inTarget hs')).trans hstep, hc.goto _⟩
  exact (hfirst.cons hrest).append hlast

/-! ### The version -/

/-- `HTTP/` and a version of two digits. -/
theorem reads_version {major minor : ℕ} (hmajor : major < 10) (hminor : minor < 10)
    (hn : n + 8 ≤ maxHeaderSize.toNat) :
    Reads C (HttpParser.Idle .reqHttpStart k n) g
      (bytes "HTTP/" ++ [Numerals.digit major] ++ bytes "." ++ [Numerals.digit minor])
      (HttpParser.Idle .reqHttpEnd { k with major := major, minor := minor } (n + 8)) g := by
  have hdigit : ∀ d < 10, isNum (Numerals.digit d) = true ∧
      (Numerals.digit d - '0'.toUInt8).toNat = d := by decide
  have hbytes : bytes "HTTP/" ++ [Numerals.digit major] ++ bytes "." ++ [Numerals.digit minor] =
      ['H'.toUInt8, 'T'.toUInt8, 'T'.toUInt8, 'P'.toUInt8, '/'.toUInt8, Numerals.digit major,
        '.'.toUInt8, Numerals.digit minor] := rfl
  have hstart : Reads C (HttpParser.Idle .reqHttpStart k n) g
      ['H'.toUInt8, 'T'.toUInt8, 'T'.toUInt8, 'P'.toUInt8, '/'.toUInt8]
      (HttpParser.Idle .reqHttpMajor k (n + 5)) g := by
    refine (reads_goto .reqHttpH (by omega) rfl ?_).cons ?_
    · intro q hq
      simp only [HttpParser.dispatch, hq]
      rfl
    refine (reads_goto .reqHttpHT (by omega) rfl ?_).cons ?_
    · intro q hq
      simp only [HttpParser.dispatch, hq]
      rfl
    refine (reads_goto .reqHttpHTT (by omega) rfl ?_).cons ?_
    · intro q hq
      simp only [HttpParser.dispatch, hq]
      rfl
    refine (reads_goto .reqHttpHTTP (by omega) rfl ?_).cons (reads_goto _ (by omega) rfl ?_)
    · intro q hq
      simp only [HttpParser.dispatch, hq]
      rfl
    · intro q hq
      simp only [HttpParser.dispatch, hq]
      rfl
  have hmajor' : Reads C (HttpParser.Idle .reqHttpMajor k (n + 5)) g [Numerals.digit major]
      (HttpParser.Idle .reqHttpDot { k with major := major } (n + 6)) g := by
    refine At.silent fun p hp => ?_
    have hc := hp.counted (by omega)
    refine ⟨{ p.counted with httpMajor := major, state := .reqHttpDot }, ?_, rfl,
      ⟨hc.calm.inLoop, hc.calm.fast⟩, { hc.knows with major := rfl }⟩
    rw [show machine.step p _ = _ from hp.step_eq (by omega) rfl]
    simp only [HttpParser.dispatch, hc.state, HttpParser.reqHttpMajor, (hdigit major hmajor).1,
      (hdigit major hmajor).2, not_true_eq_false, if_false]
  have hdot : Reads C (HttpParser.Idle .reqHttpDot { k with major := major } (n + 6)) g
      ['.'.toUInt8] (HttpParser.Idle .reqHttpMinor { k with major := major } (n + 7)) g := by
    refine reads_goto _ (by omega) rfl ?_
    intro q hq
    simp only [HttpParser.dispatch, hq]
    rfl
  have hminor' : Reads C (HttpParser.Idle .reqHttpMinor { k with major := major } (n + 7)) g
      [Numerals.digit minor]
      (HttpParser.Idle .reqHttpEnd { k with major := major, minor := minor } (n + 8)) g := by
    refine At.silent fun p hp => ?_
    have hc := hp.counted (by omega)
    refine ⟨{ p.counted with httpMinor := minor, state := .reqHttpEnd }, ?_, rfl,
      ⟨hc.calm.inLoop, hc.calm.fast⟩, { hc.knows with minor := rfl }⟩
    rw [show machine.step p _ = _ from hp.step_eq (by omega) rfl]
    simp only [HttpParser.dispatch, hc.state, HttpParser.reqHttpMinor, (hdigit minor hminor).1,
      (hdigit minor hminor).2, not_true_eq_false, if_false]
  rw [hbytes]
  exact hstart.append (hmajor'.cons (hdot.cons hminor'))

end Line

end Xzmjx.HttpParserModel
