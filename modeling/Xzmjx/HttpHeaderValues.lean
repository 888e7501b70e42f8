import Xzmjx.HttpHeaderLines

/-!
# Reading dumped header values

A value behind an ordinary name may set a flag for the connection and does nothing else to the
parser. The value behind `content-length` is the length of the body that follows the section.
-/
namespace Xzmjx.HttpRequestModel
open HttpParserModel PushParser UrlCoding

/-- The states of a comparison behind an ordinary name. -/
def ordinaryState : HeaderState → Bool
  | .general => true
  | .c => true
  | .co => true
  | .con => true
  | .matchingConnection => true
  | .matchingProxyConnection => true
  | .matchingContentLength => true
  | .matchingTransferEncoding => true
  | .matchingUpgrade => true
  | .connection => true
  | _ => false

/-- The states inside a value behind an ordinary name. -/
def harmlessState : HeaderState → Bool
  | .general => true
  | .matchingConnectionTokenStart => true
  | .matchingConnectionKeepAlive => true
  | .matchingConnectionClose => true
  | .matchingConnectionUpgrade => true
  | .matchingConnectionToken => true
  | .connectionKeepAlive => true
  | .connectionClose => true
  | .connectionUpgrade => true
  | _ => false

theorem OrdinaryName.state {name : Bytes} (h : OrdinaryName name) :
    ordinaryState (nameParser (caseKey name)).headerState = true := by
  obtain ⟨hspells, -⟩ := h.spells
  have hlength := h.length
  have hcoding := h.coding
  have hupgrade := h.upgrade
  generalize nameParser (caseKey name) = p at hspells
  cases hs : p.headerState <;> rw [hs] at hspells <;> first | rfl | exact hspells.elim | skip
  · exact absurd hspells hlength
  · exact absurd hspells hupgrade

/-- A value as `dump` may write it. -/
structure IsValue (value : Bytes) : Prop where
  chars : ∀ c ∈ value, isHeaderChar c = true ∧ c ≠ CR ∧ c ≠ LF
  head : ∀ c ∈ value.head?, c ≠ ' '.toUInt8 ∧ c ≠ 9

/-! ### Inside a value -/

/-- The parser stands inside a value, in the states `S` of the comparison. -/
structure InValue (S : HeaderState → Prop) (k : Known) (n : ℕ) (p : HttpParser) : Prop where
  state : p.state = .headerValue
  headerState : S p.headerState
  fast : p.fast ≤ n
  knows : p.Knows k n

section Values
variable {k k' : Known} {n : ℕ} {g : RequestData} {b : UInt8} {p q : HttpParser}
  {S : HeaderState → Prop}

/-- A character that the switch over the comparison takes. -/
theorem InValue.step (h : InValue S k n p) (hn : n < maxHeaderSize.toNat)
    (hb : isHeaderChar b = true ∧ b ≠ CR ∧ b ≠ LF) (hq : p.counted.valueChar b = .ok q) :
    machine.step p b = ({ q with inLoop := true }, []) := by
  have hstate : p.counted.state = .headerValue := h.state
  have hfast : p.counted.fast ≠ maxHeaderSize.toNat := by
    have hle : p.counted.fast ≤ n := h.fast
    omega
  rw [show machine.step p b = _ from
    HttpParser.step_eq (h.knows.nread ▸ hn) (h.state ▸ rfl)]
  simp only [HttpParser.dispatch, hstate, HttpParser.headerValue, hfast, if_false, hb.2.1, hb.2.2,
    hb.1, not_true_eq_false, hq]

/-- A step inside a value that sets no flag but one for the connection. -/
structure HarmlessStep (p q : HttpParser) : Prop where
  headerState : harmlessState q.headerState = true
  state : q.state = p.state
  fast : q.fast ≤ p.fast + 1
  knows : ∀ k n, p.Knows k n → q.Knows k n

theorem harmlessStep_compare {s : HeaderState} (i : ℕ) (hs : harmlessState s = true) :
    HarmlessStep p { p with headerState := s, index := i } :=
  ⟨hs, rfl, Nat.le_succ _, fun _ _ h => { h with }⟩

theorem setHeaderFlag_knows (hs : p.headerState ≠ .transferEncodingChunked) (h : p.Knows k n) :
    p.setHeaderFlag.Knows k n := by
  unfold HttpParser.setHeaderFlag
  split
  · exact { h with }
  · exact { h with }
  · exact { h with }
  · contradiction
  · exact h

theorem setHeaderFlag_fast : p.setHeaderFlag.fast = p.fast := by
  unfold HttpParser.setHeaderFlag
  split <;> rfl

theorem harmlessStep_connectionToken (hs : harmlessState p.headerState = true) (b : UInt8) :
    HarmlessStep p (p.connectionToken b) := by
  have hchunked : p.headerState ≠ .transferEncodingChunked := by
    intro he
    rw [he] at hs
    cases hs
  unfold HttpParser.connectionToken
  split_ifs
  · refine ⟨rfl, HttpParser.setHeaderFlag_state, ?_, fun _ _ h =>
      { setHeaderFlag_knows hchunked h with }⟩
    exact setHeaderFlag_fast.le.trans (Nat.le_succ _)
  · exact harmlessStep_compare p.index rfl
  · exact ⟨hs, rfl, Nat.le_succ _, fun _ _ h => h⟩

theorem harmlessStep_matching (hs : harmlessState p.headerState = true) (text : String)
    (c : UInt8) {yes : HeaderState} (hyes : harmlessState yes = true) :
    HarmlessStep p (p.matching text c .matchingConnectionToken yes) := by
  refine harmlessStep_compare (p.index + 1) ?_
  split_ifs
  · rfl
  · exact hyes
  · exact hs

/-- Inside a harmless value every character is taken. -/
theorem valueChar_harmless (hs : harmlessState p.headerState = true) (b : UInt8) :
    ∃ q, p.valueChar b = .ok q ∧ HarmlessStep p q := by
  have hmatching := harmlessStep_matching hs
  have htoken := harmlessStep_connectionToken hs b
  unfold HttpParser.valueChar
  cases hstate : p.headerState
  case general => exact ⟨_, rfl, ⟨rfl, rfl, Nat.le_refl _, fun _ _ h => { h with }⟩⟩
  case matchingConnectionTokenStart =>
    refine ⟨_, rfl, harmlessStep_compare p.index ?_⟩
    split_ifs <;> rfl
  case matchingConnectionKeepAlive => exact ⟨_, rfl, hmatching "keep-alive" (lower b) rfl⟩
  case matchingConnectionClose => exact ⟨_, rfl, hmatching "close" (lower b) rfl⟩
  case matchingConnectionUpgrade => exact ⟨_, rfl, hmatching "upgrade" (lower b) rfl⟩
  case matchingConnectionToken =>
    refine ⟨_, rfl, ?_⟩
    split_ifs
    · exact harmlessStep_compare 0 rfl
    · exact ⟨hs, rfl, Nat.le_succ _, fun _ _ h => h⟩
  case connectionKeepAlive => exact ⟨_, rfl, htoken⟩
  case connectionClose => exact ⟨_, rfl, htoken⟩
  case connectionUpgrade => exact ⟨_, rfl, htoken⟩
  -- the other states compare a name, a length or a transfer encoding
  all_goals
    rw [hstate] at hs
    cases hs

/-- The first character of a value behind an ordinary name. -/
theorem headerValueStart_ordinary (hs : ordinaryState p.headerState = true) (b : UInt8) :
    ∃ s, p.headerValueStart b = ({ p with state := .headerValue, index := 0, headerState := s },
      [.mark .headerValue]) ∧ harmlessState s = true := by
  unfold HttpParser.headerValueStart
  cases hstate : p.headerState
  case connection =>
    refine ⟨_, rfl, ?_⟩
    split_ifs <;> rfl
  all_goals
    rw [hstate] at hs
    first | cases hs; done | exact ⟨_, rfl, rfl⟩

/-- The line end behind a value hands the value out. -/
theorem reads_valueEnd (xs : Bytes) (hS : ∀ s, S s → s ≠ .transferEncodingChunked)
    (hn : n + 2 ≤ maxHeaderSize.toNat) :
    Triple machine requestSettings (At (InValue S k n) (some (.headerValue, xs)) g) CRLF
      (AtLine k (n + 2) (onRequestHeaderValueCb xs g)) := by
  have hcr : Triple machine requestSettings
      (At (InValue S k n) (some (.headerValue, xs)) g) [CR]
      (At (fun p => p.Idle .headerAlmostDone k (n + 1) ∧
        p.headerState ≠ .transferEncodingChunked) none (onRequestHeaderValueCb xs g)) := by
    refine At.emit true rfl ?_
    intro p hp
    have hcount := hp.knows.counted (by omega : n < maxHeaderSize.toNat)
    have hstate : p.counted.state = .headerValue := hp.state
    have hfast : p.counted.fast ≠ maxHeaderSize.toNat := by
      have hle : p.counted.fast ≤ n := hp.fast
      omega
    have hroom : ¬p.counted.overflows = true := by
      rw [HttpParser.not_overflows, Bool.false_eq_true]
      · exact not_false
      · rw [hcount.nread]
        omega
    refine ⟨{ p.counted with state := .headerAlmostDone, inLoop := false, fast := 0 }, ?_,
      ⟨rfl, ⟨rfl, rfl⟩, { hcount with }⟩, hS _ hp.headerState⟩
    rw [show machine.step p CR = _ from
      HttpParser.step_eq (hp.knows.nread ▸ by omega) (hp.state ▸ rfl)]
    simp only [HttpParser.dispatch, hstate, HttpParser.headerValue, hfast, if_false, if_true]
    rw [show HttpParser.overflows _ = p.counted.overflows from rfl, if_neg hroom]
  have hlf : Triple machine requestSettings
      (At (fun p => p.Idle .headerAlmostDone k (n + 1) ∧
        p.headerState ≠ .transferEncodingChunked) none (onRequestHeaderValueCb xs g)) [LF]
      (At (fun p => p.Idle .headerValueLws k (n + 2) ∧
        p.headerState ≠ .transferEncodingChunked) none (onRequestHeaderValueCb xs g)) := by
    refine At.silent ?_
    rintro p ⟨hp, hchunked⟩
    have hc := hp.counted (by omega)
    refine ⟨{ p.counted with state := .headerValueLws }, ?_, hc.goto _, hchunked⟩
    rw [show machine.step p LF = _ from hp.step_eq (by omega) rfl]
    simp only [HttpParser.dispatch, hc.state]
    rfl
  exact (hcr.cons hlf).weaken (fun _ h => h) fun _ h => .behind h

/-- A missing value: the callback hears of it with the next line. -/
theorem reads_emptyValue (hn : n + 2 ≤ maxHeaderSize.toNat) :
    Triple machine requestSettings (At (fun p => p.Idle .headerValueDiscardWs k n ∧
      ordinaryState p.headerState = true) none g) CRLF
      (AtLine k (n + 2) (onRequestHeaderValueCb [] g)) := by
  have hgoto : ∀ (s s' : State) {m : ℕ} {b : UInt8}, m < maxHeaderSize.toNat →
      HttpParser.parsingHeader s = true →
      (∀ q : HttpParser, q.state = s → ordinaryState q.headerState = true →
        q.dispatch b = q.goto s') →
      Triple machine requestSettings
        (At (fun p => p.Idle s k m ∧ ordinaryState p.headerState = true) none g) [b]
        (At (fun p => p.Idle s' k (m + 1) ∧ ordinaryState p.headerState = true) none g) := by
    intro s s' m b hm hs h
    refine At.silent ?_
    rintro p ⟨hp, hstate⟩
    have hc := hp.counted hm
    exact ⟨_, (hp.step_eq hm hs).trans (h _ hc.state hstate), hc.goto s', hstate⟩
  have hcr := hgoto .headerValueDiscardWs .headerValueDiscardWsAlmostDone (b := CR)
    (by omega : n < maxHeaderSize.toNat) rfl (by
      intro q hq _
      simp only [HttpParser.dispatch, hq]
      rfl)
  have hlf := hgoto .headerValueDiscardWsAlmostDone .headerValueDiscardLws (b := LF)
    (by omega : n + 1 < maxHeaderSize.toNat) rfl (by
      intro q hq _
      simp only [HttpParser.dispatch, hq]
      rfl)
  refine (hcr.cons hlf).weaken (fun _ h => h) fun c h => .behindEmpty g ?_ rfl
  refine ⟨h.running, ⟨h.ctrl.1, ?_, ?_⟩, h.frag, h.client⟩
  · intro he
    have hordinary := h.ctrl.2
    rw [he] at hordinary
    cases hordinary
  · intro he
    have hordinary := h.ctrl.2
    rw [he] at hordinary
    cases hordinary

/-- The first character of a value. -/
theorem reads_valueStart {l : Known} {T : HeaderState → Prop} (hn : n < maxHeaderSize.toNat)
    (hb : isHeaderChar b = true ∧ b ≠ CR ∧ b ≠ LF) (hblank : b ≠ ' '.toUInt8 ∧ b ≠ 9)
    (h : ∀ p : HttpParser, T p.headerState → p.Idle .headerValueDiscardWs k (n + 1) →
      ∃ q, p.headerValueStart b = (q, [.mark .headerValue]) ∧ InValue S l (n + 1) q) :
    Triple machine requestSettings
      (At (fun p => p.Idle .headerValueDiscardWs k n ∧ T p.headerState) none g) [b]
      (At (InValue S l (n + 1)) (some (.headerValue, [b])) g) := by
  refine At.mark ?_
  rintro p ⟨hp, hT⟩
  have hc := hp.counted hn
  obtain ⟨q, hq, hin⟩ := h p.counted hT hc
  refine ⟨q, ?_, hin⟩
  rw [show machine.step p b = _ from hp.step_eq hn rfl]
  simp only [HttpParser.dispatch, hc.state, HttpParser.headerValueDiscardWs, hb.2.1, hb.2.2,
    hblank.1, hblank.2, or_self, if_false, hq]

/-- The value behind an ordinary name. -/
theorem reads_value {value : Bytes} (hvalue : IsValue value)
    (hn : n + value.length + 2 ≤ maxHeaderSize.toNat) :
    Triple machine requestSettings (At (fun p => p.Idle .headerValueDiscardWs k n ∧
      ordinaryState p.headerState = true) none g) (value ++ CRLF)
      (AtLine k (n + value.length + 2) (onRequestHeaderValueCb value g)) := by
  cases value with
  | nil => exact reads_emptyValue hn
  | cons b bs =>
      rw [List.length_cons] at hn ⊢
      have hb := hvalue.chars b List.mem_cons_self
      have hfirst := reads_valueStart (k := k) (l := k) (g := g)
        (S := fun s => harmlessState s = true) (T := fun s => ordinaryState s = true)
        (by omega : n < maxHeaderSize.toNat) hb (hvalue.head b rfl) (by
          intro p hT hp
          obtain ⟨s, hstart, hs⟩ := headerValueStart_ordinary hT b
          exact ⟨_, hstart, rfl, hs, hp.calm.fast.le.trans (Nat.zero_le _), { hp.knows with }⟩)
      have hrest : Triple machine requestSettings
          (At (InValue (fun s => harmlessState s = true) k (n + 1)) (some (.headerValue, [b])) g)
          bs (At (InValue (fun s => harmlessState s = true) k (n + 1 + bs.length))
            (some (.headerValue, b :: bs)) g) := by
        refine At.silents
          (I := fun done => InValue (fun s => harmlessState s = true) k (n + 1 + done.length)) ?_
        intro done c hc p hp
        have hlen := hc.length_le
        rw [List.length_append, List.length_singleton] at hlen ⊢
        have hmem : c ∈ bs := hc.subset (List.mem_append_right _ List.mem_cons_self)
        obtain ⟨q, hq, hstep⟩ := valueChar_harmless (p := p.counted) hp.headerState c
        have hcount := hp.knows.counted (by omega : n + 1 + done.length < maxHeaderSize.toNat)
        refine ⟨_, hp.step (by omega) (hvalue.chars c (List.mem_cons_of_mem _ hmem)) hq,
          hstep.state.trans hp.state, hstep.headerState, ?_, { hstep.knows _ _ hcount with }⟩
        exact hstep.fast.trans (Nat.succ_le_succ hp.fast)
      have hend := reads_valueEnd (k := k) (n := n + 1 + bs.length) (g := g)
        (S := fun s => harmlessState s = true) (b :: bs) (by
          rintro s hs rfl
          cases hs) (by omega)
      have hcount : n + 1 + bs.length + 2 = n + (bs.length + 1) + 2 := by omega
      rw [hcount] at hend
      exact (hfirst.cons hrest).append hend

/-- A header with an ordinary name. -/
theorem reads_header {h : Bytes × Bytes} (hname : OrdinaryName h.1) (hvalue : IsValue h.2)
    (hn : n + (headerLine h ++ CRLF).length ≤ maxHeaderSize.toNat) :
    Triple machine requestSettings (AtLine k n g) (headerLine h ++ CRLF)
      (AtLine k (n + (headerLine h ++ CRLF).length)
        (onRequestHeaderValueCb h.2 (onRequestHeaderFieldCb h.1 g))) := by
  have hlen : (headerLine h ++ CRLF).length = h.1.length + 2 + h.2.length + 2 := by
    rw [headerLine, List.length_append, List.length_append, List.length_append]
    rfl
  rw [hlen] at hn ⊢
  have hfield := reads_fieldName (k := k) (n := n) (g := g) hname.toIsName hname.spells.2
    (by omega)
  have hvalue' := reads_value (k := k) (n := n + h.1.length + 2)
    (g := onRequestHeaderFieldCb h.1 g) hvalue (by omega)
  have hcount : n + h.1.length + 2 + h.2.length + 2 = n + (h.1.length + 2 + h.2.length + 2) := by
    omega
  rw [hcount] at hvalue'
  rw [headerLine, List.append_assoc]
  refine hfield.append (hvalue'.weaken (fun c hc => ?_) fun _ hc => hc)
  exact ⟨hc.running, ⟨hc.ctrl.1, by rw [hc.ctrl.2]; exact hname.state⟩, hc.frag, hc.client⟩

/-! ### The length of the body -/

/-- A digit that the length has room for. -/
theorem contentLengthNum_digit {v d : ℕ} (h : p.Knows { k with length := some v } n)
    (hd : d < 10) (hv : v ≤ (ullongMax - 10) / 10) :
    p.contentLengthNum (Numerals.digit d) = .ok { p with
      headerState := .contentLengthNum
      contentLength := v * 10 + d } := by
  have hdigit : ∀ d < 10, Numerals.digit d ≠ ' '.toUInt8 ∧ isNum (Numerals.digit d) = true ∧
      (Numerals.digit d - '0'.toUInt8).toNat = d := by decide
  obtain ⟨hblank, hnum, hvalue⟩ := hdigit d hd
  have hlength : p.contentLength = v := h.contentLength
  rw [HttpParser.contentLengthNum, if_neg hblank, if_neg (not_not.mpr hnum), hlength,
    if_neg (Nat.not_lt.mpr hv), hvalue]

/-- The value behind `content-length`. -/
theorem reads_lengthValue {len : ℕ} (hk : k.length = none) (hlen : len < 2 ^ 63)
    (hn : n + (decimal len).length + 2 ≤ maxHeaderSize.toNat) :
    Triple machine requestSettings (At (fun p => p.Idle .headerValueDiscardWs k n ∧
      p.headerState = .contentLength) none g) (decimal len ++ CRLF)
      (AtLine { k with length := some len } (n + (decimal len).length + 2)
        (onRequestHeaderValueCb (decimal len) g)) := by
  have hvalue : Numerals.value 10 (decimal len) = len := by
    rw [decimal_eq]
    exact Numerals.value_numeral (by decide) (by decide) len
  have hdigits : ∀ c ∈ decimal len, ∃ d < 10, c = Numerals.digit d := by
    intro c hc
    rw [decimal_eq] at hc
    obtain ⟨d, hd, rfl⟩ := Numerals.exists_digit_of_mem (by decide) hc
    exact ⟨d, hd, rfl⟩
  have hchar : ∀ d < 10, (isHeaderChar (Numerals.digit d) = true ∧ Numerals.digit d ≠ CR ∧
      Numerals.digit d ≠ LF) ∧ (Numerals.digit d ≠ ' '.toUInt8 ∧ Numerals.digit d ≠ 9) ∧
      isNum (Numerals.digit d) = true ∧ (Numerals.digit d - '0'.toUInt8).toNat = d ∧
      Numerals.digitValue (Numerals.digit d) = some d := by
    decide
  have hne : decimal len ≠ [] := by
    rw [decimal_eq]
    exact Numerals.numeral_ne_nil
  obtain ⟨b, bs, hcons⟩ := List.exists_cons_of_ne_nil hne
  rw [hcons] at hvalue hdigits hn ⊢
  rw [List.length_cons] at hn ⊢
  obtain ⟨d, hd, rfl⟩ := hdigits b List.mem_cons_self
  obtain ⟨hheader, hblank, hnum, hsub, hval⟩ := hchar d hd
  have hone : Numerals.value 10 [Numerals.digit d] = d := by
    rw [Numerals.value, List.foldl_cons, List.foldl_nil, hval, Nat.zero_mul, Nat.zero_add]
    rfl
  have hfirst := reads_valueStart (k := k) (g := g)
    (l := { k with length := some (Numerals.value 10 [Numerals.digit d]) })
    (S := fun s => s = .contentLengthNum) (T := fun s => s = .contentLength)
    (by omega : n < maxHeaderSize.toNat) hheader hblank (by
      intro p hT hp
      have hlength : p.flags.contentLength = false := by rw [hp.knows.hasLength, hk]; rfl
      refine ⟨{ p with
        state := .headerValue
        index := 0
        flags := { p.flags with contentLength := true }
        contentLength := d
        headerState := .contentLengthNum }, ?_, rfl, rfl,
        hp.calm.fast.le.trans (Nat.zero_le _), { hp.knows with
          hasLength := rfl, contentLength := hone.symm }⟩
      unfold HttpParser.headerValueStart
      simp only [hT, hnum, not_true_eq_false, if_false, hlength, Bool.false_eq_true, hsub])
  have hrest : Triple machine requestSettings
      (At (InValue (fun s => s = .contentLengthNum)
        { k with length := some (Numerals.value 10 [Numerals.digit d]) } (n + 1))
        (some (.headerValue, [Numerals.digit d])) g) bs
      (At (InValue (fun s => s = .contentLengthNum)
        { k with length := some (Numerals.value 10 (Numerals.digit d :: bs)) }
        (n + 1 + bs.length)) (some (.headerValue, Numerals.digit d :: bs)) g) := by
    refine At.silents (I := fun done => InValue (fun s => s = .contentLengthNum)
      { k with length := some (Numerals.value 10 (Numerals.digit d :: done)) }
      (n + 1 + done.length)) ?_
    intro done c hc p hp
    have hlength := hc.length_le
    rw [List.length_append, List.length_singleton] at hlength ⊢
    have hmem : c ∈ bs := hc.subset (List.mem_append_right _ List.mem_cons_self)
    obtain ⟨e, he, rfl⟩ := hdigits c (List.mem_cons_of_mem _ hmem)
    obtain ⟨hheader', -, -, -, hval'⟩ := hchar e he
    -- what has been read is less than a tenth of the length
    have hroom : Numerals.value 10 (Numerals.digit d :: done) ≤ (ullongMax - 10) / 10 := by
      have hmul := Numerals.value_mul_le (b := 10) (by decide)
        (show Numerals.digit d :: done ++ [Numerals.digit e] <+: Numerals.digit d :: bs from
          List.cons_prefix_cons.mpr ⟨rfl, hc⟩)
      rw [hvalue] at hmul
      have hmax : (ullongMax - 10) / 10 = 1844674407370955160 := by decide
      omega
    have hcount := hp.knows.counted (by omega : n + 1 + done.length < maxHeaderSize.toNat)
    have hstate : p.counted.headerState = .contentLengthNum := hp.headerState
    have hchar' : p.counted.valueChar (Numerals.digit e) = .ok { p.counted with
        headerState := .contentLengthNum
        contentLength := Numerals.value 10 (Numerals.digit d :: done) * 10 + e } := by
      unfold HttpParser.valueChar
      simp only [hstate]
      exact contentLengthNum_digit hcount he hroom
    refine ⟨_, hp.step (by omega) hheader' hchar', hp.state, rfl,
      hp.fast.trans (Nat.le_succ _), { hcount with contentLength := ?_ }⟩
    rw [← List.cons_append, Numerals.value_append_singleton, hval']
    rfl
  have hend := reads_valueEnd (n := n + 1 + bs.length) (g := g)
    (k := { k with length := some (Numerals.value 10 (Numerals.digit d :: bs)) })
    (S := fun s => s = .contentLengthNum) (Numerals.digit d :: bs) (by
      rintro s rfl
      decide) (by omega)
  have hcount : n + 1 + bs.length + 2 = n + (bs.length + 1) + 2 := by omega
  rw [hcount, hvalue] at hend
  rw [hvalue] at hrest
  exact (hfirst.cons hrest).append hend

/-- The line that `dump` writes for a body. -/
theorem reads_lengthLine (body : Bytes) (hk : k.length = none) (hlen : body.length < 2 ^ 63)
    (hn : n + (lengthLine body ++ CRLF).length ≤ maxHeaderSize.toNat) :
    Triple machine requestSettings (AtLine k n g) (lengthLine body ++ CRLF)
      (AtLine { k with length := some body.length } (n + (lengthLine body ++ CRLF).length)
        (onRequestHeaderValueCb (decimal body.length)
          (onRequestHeaderFieldCb (bytes "content-length") g))) := by
  have hline : lengthLine body = bytes "content-length" ++ bytes ": " ++ decimal body.length := rfl
  have hcount : n + (lengthLine body ++ CRLF).length =
      n + (bytes "content-length").length + 2 + (decimal body.length).length + 2 := by
    rw [hline, List.length_append, List.length_append, List.length_append]
    have hcrlf : CRLF.length = 2 ∧ (bytes ": ").length = 2 := by decide
    omega
  have hname : IsName (bytes "content-length") := ⟨by decide, by decide +kernel⟩
  have hstate : (nameParser (caseKey (bytes "content-length"))).headerState = .contentLength ∧
      (nameParser (caseKey (bytes "content-length"))).usesTransferEncoding = false := by
    decide +kernel
  rw [hcount] at hn ⊢
  have hfield := reads_fieldName (k := k) (n := n) (g := g) hname hstate.2 (by omega)
  rw [hstate.1] at hfield
  have hvalue := reads_lengthValue (n := n + (bytes "content-length").length + 2)
    (g := onRequestHeaderFieldCb (bytes "content-length") g) hk hlen (by omega)
  rw [hline, List.append_assoc]
  exact hfield.append hvalue

end Values

end Xzmjx.HttpRequestModel
