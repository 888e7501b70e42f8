import Xzmjx.HttpRequestLine
import Xzmjx.UrlCoding

/-!
# How the parser compares a header name

`http_parser_execute` compares the characters of a name with the names it knows while it reads
them. `nameParser` is a new parser after these comparisons; an ordinary name leaves it with
nothing to do about the value.
-/
namespace Xzmjx.HttpRequestModel
open HttpParserModel PushParser UrlCoding

/-! ### Names -/

/-- A character of a name, as the parser compares it. -/
theorem token_eq (c : UInt8) : (token c).isSome = true → token c = some (tolower c) ∧
    tolower c ≠ 0 ∧ c ≠ 0 ∧ c ≠ CR ∧ c ≠ LF ∧ c ≠ ' '.toUInt8 ∧ c ≠ 9 ∧ c ≠ ':'.toUInt8 := by
  revert c
  exact forall_byte (by decide +kernel)

theorem tolower_tolower (c : UInt8) : tolower (tolower c) = tolower c := by
  revert c
  exact forall_byte (by decide +kernel)

theorem token_tolower (c : UInt8) :
    (token c).isSome = true → (token (tolower c)).isSome = true := by
  revert c
  exact forall_byte (by decide +kernel)

/-- A name of a header. -/
structure IsName (name : Bytes) : Prop where
  nonempty : name ≠ []
  tokens : ∀ c ∈ name, (token c).isSome = true

theorem IsName.caseKey {name : Bytes} (h : IsName name) : caseKey name = name.map tolower := by
  have hall : name.takeWhile (· ≠ 0) = name := by
    apply List.takeWhile_eq_self_iff.mpr
    intro c hc
    obtain ⟨-, -, hzero, -⟩ := token_eq c (h.tokens c hc)
    exact decide_eq_true hzero
  rw [HttpRequestModel.caseKey, hall]

/-- A new parser after the characters `w` of a name. -/
def nameParser : Bytes → HttpParser
  | [] => HttpParser.init
  | c :: w => w.foldl HttpParser.fieldChar (HttpParser.init.headerFieldStart c).1

/-- The parser stands inside a name, behind the characters `w`. -/
structure InName (k : Known) (n : ℕ) (w : Bytes) (p : HttpParser) : Prop where
  state : p.state = .headerField
  fast : p.fast = 0
  headerState : p.headerState = (nameParser w).headerState
  index : p.index = (nameParser w).index
  encoding : p.usesTransferEncoding = (nameParser w).usesTransferEncoding
  knows : { p with usesTransferEncoding := false }.Knows k n

/-- The switch inside a name looks at three members and changes no others. -/
theorem fieldChar_congr {p q : HttpParser} (hs : p.headerState = q.headerState)
    (hi : p.index = q.index) (hu : p.usesTransferEncoding = q.usesTransferEncoding) (c : UInt8) :
    p.fieldChar c = { p with
      headerState := (q.fieldChar c).headerState
      index := (q.fieldChar c).index
      usesTransferEncoding := (q.fieldChar c).usesTransferEncoding } := by
  obtain ⟨state, s, i, flags, u, nread, len, major, minor, method, upgrade, inLoop, fast⟩ := p
  obtain ⟨state', s', i', flags', u', nread', len', major', minor', method', upgrade', inLoop',
    fast'⟩ := q
  obtain rfl : s = s' := hs
  obtain rfl : i = i' := hi
  obtain rfl : u = u' := hu
  cases s <;> try rfl
  -- only the comparison with `transfer-encoding` may change a third member
  dsimp only [HttpParser.fieldChar, HttpParser.matching]
  split_ifs <;> rfl

/-- The comparison that the first character of a name begins. -/
def firstState (c : UInt8) : HeaderState :=
  if c = 'c'.toUInt8 then .c
  else if c = 'p'.toUInt8 then .matchingProxyConnection
  else if c = 't'.toUInt8 then .matchingTransferEncoding
  else if c = 'u'.toUInt8 then .matchingUpgrade
  else .general

theorem headerFieldStart_token (p : HttpParser) {c : UInt8} (h : (token c).isSome = true) :
    p.headerFieldStart c = ({ p with
      index := 0
      state := .headerField
      headerState := firstState (tolower c) }, [.mark .headerField]) := by
  obtain ⟨htoken, -, -, hcr, hlf, -⟩ := token_eq c h
  rw [HttpParser.headerFieldStart, if_neg hcr, if_neg hlf, htoken]
  rfl

theorem nameParser_singleton {c : UInt8} (h : (token c).isSome = true) :
    nameParser [tolower c] = { HttpParser.init with
      index := 0
      state := .headerField
      headerState := firstState (tolower c) } := by
  rw [nameParser, headerFieldStart_token _ (token_tolower c h), tolower_tolower]
  rfl

theorem nameParser_append {w : Bytes} (hw : w ≠ []) (c : UInt8) :
    nameParser (w ++ [c]) = (nameParser w).fieldChar c := by
  obtain ⟨b, bs, rfl⟩ := List.exists_cons_of_ne_nil hw
  rw [List.cons_append, nameParser, List.foldl_append]
  rfl

/-! ### Which names the parser knows -/

/-- What the state of the comparison says about the characters before it. -/
def Spells (w : Bytes) (index : ℕ) : HeaderState → Prop
  | .general => True
  | .connection => True
  | .matchingConnection => True
  | .matchingProxyConnection => True
  | .c => w = bytes "c" ∧ index = 0
  | .co => w = bytes "co" ∧ index = 1
  | .con => w = bytes "con" ∧ index = 2
  | .matchingContentLength => w <+: bytes "content-length" ∧ index + 1 = w.length
  | .contentLength => w = bytes "content-length"
  | .matchingTransferEncoding => w <+: bytes "transfer-encoding" ∧ index + 1 = w.length
  | .matchingUpgrade => w <+: bytes "upgrade" ∧ index + 1 = w.length
  | .upgrade => w = bytes "upgrade"
  | _ => False

theorem prefix_append_singleton {w text : Bytes} {c : UInt8} (hw : w <+: text)
    (hc : text[w.length]? = some c) : w ++ [c] <+: text := by
  obtain ⟨rest, rfl⟩ := hw
  rw [List.getElem?_append_right (Nat.le_refl _), Nat.sub_self] at hc
  cases rest with
  | nil => cases hc
  | cons b rest =>
      obtain rfl : b = c := Option.some.inj hc
      exact ⟨rest, by rw [List.append_assoc, List.singleton_append]⟩

/-- One more character of a comparison. -/
theorem matching_cases {p : HttpParser} {w : Bytes} {text : String} (c : UInt8)
    (no yes : HeaderState) (hw : w <+: bytes text) (hi : p.index + 1 = w.length) :
    ((p.matching text c no yes).headerState = no) ∨
      (w ++ [c] = bytes text ∧ (p.matching text c no yes).headerState = yes) ∨
      (w ++ [c] <+: bytes text ∧ (p.matching text c no yes).index + 1 = (w ++ [c]).length ∧
        (p.matching text c no yes).headerState = p.headerState) := by
  rw [HttpParser.matching, List.length_append, List.length_singleton, ← hi]
  dsimp only
  split_ifs with hne hend
  · exact .inl rfl
  · have hpre := prefix_append_singleton hw (by rw [← hi]; exact not_not.mp hne)
    refine .inr (.inl ⟨hpre.eq_of_length ?_, rfl⟩)
    rw [List.length_append, List.length_singleton]
    omega
  · have hpre := prefix_append_singleton hw (by rw [← hi]; exact not_not.mp hne)
    exact .inr (.inr ⟨hpre, rfl, rfl⟩)

theorem matching_headerState (p : HttpParser) (text : String) (c : UInt8) (no yes : HeaderState) :
    (p.matching text c no yes).headerState = no ∨ (p.matching text c no yes).headerState = yes ∨
      (p.matching text c no yes).headerState = p.headerState := by
  rw [HttpParser.matching]
  dsimp only
  split_ifs
  · exact .inl rfl
  · exact .inr (.inl rfl)
  · exact .inr (.inr rfl)

/-- A comparison that changes nothing else keeps the account of the characters. -/
theorem Spells.matching {p : HttpParser} {w : Bytes} {text : String} {c : UInt8}
    {yes : HeaderState} (hw : w <+: bytes text) (hi : p.index + 1 = w.length)
    (hyes : w ++ [c] = bytes text → ∀ i, Spells (w ++ [c]) i yes)
    (hstay : ∀ i, w ++ [c] <+: bytes text → i + 1 = (w ++ [c]).length →
      Spells (w ++ [c]) i p.headerState) :
    Spells (w ++ [c]) (p.matching text c .general yes).index
      (p.matching text c .general yes).headerState := by
  rcases matching_cases c .general yes hw hi with
    hno | ⟨hall, heq⟩ | ⟨hpre, hidx, hsame⟩
  · rw [hno]
    trivial
  · rw [heq]
    exact hyes hall _
  · rw [hsame]
    exact hstay _ hpre hidx

theorem Spells.matchingCoding {p : HttpParser} {w : Bytes} {c : UInt8}
    (hs : p.headerState = .matchingTransferEncoding)
    (h : Spells w p.index .matchingTransferEncoding)
    (hcoding : w ++ [c] ≠ bytes "transfer-encoding") :
    Spells (w ++ [c]) (p.matching "transfer-encoding" c .general .transferEncoding).index
        (p.matching "transfer-encoding" c .general .transferEncoding).headerState ∧
      (p.matching "transfer-encoding" c .general .transferEncoding).headerState ≠
        .transferEncoding := by
  obtain ⟨hw, hi⟩ := h
  rcases matching_cases c .general .transferEncoding hw hi with
    hno | ⟨hall, -⟩ | ⟨hpre, hidx, hsame⟩
  · rw [hno]
    exact ⟨trivial, by decide⟩
  · exact absurd hall hcoding
  · rw [hsame, hs]
    exact ⟨⟨hpre, hidx⟩, by decide⟩

/-- A character keeps the account of the characters, unless it completes the name that cannot be
ordinary. -/
theorem Spells.fieldChar {p : HttpParser} {w : Bytes} (h : Spells w p.index p.headerState)
    (c : UInt8) (hcoding : w ++ [c] ≠ bytes "transfer-encoding") :
    Spells (w ++ [c]) (p.fieldChar c).index (p.fieldChar c).headerState ∧
      (p.fieldChar c).usesTransferEncoding = p.usesTransferEncoding := by
  unfold HttpParser.fieldChar
  cases hs : p.headerState <;> rw [hs] at h
  case general => exact ⟨by rw [hs]; trivial, rfl⟩
  case connection => exact ⟨trivial, rfl⟩
  case contentLength => exact ⟨trivial, rfl⟩
  case upgrade => exact ⟨trivial, rfl⟩
  case c =>
    obtain ⟨rfl, hi⟩ := h
    refine ⟨?_, rfl⟩
    dsimp only
    split_ifs with hc
    · exact ⟨by rw [hc]; rfl, by rw [hi]⟩
    · trivial
  case co =>
    obtain ⟨rfl, hi⟩ := h
    refine ⟨?_, rfl⟩
    dsimp only
    split_ifs with hc
    · exact ⟨by rw [hc]; rfl, by rw [hi]⟩
    · trivial
  case con =>
    obtain ⟨rfl, hi⟩ := h
    refine ⟨?_, rfl⟩
    dsimp only
    split_ifs with hn ht
    · trivial
    · exact ⟨by rw [ht]; decide, by rw [hi]; rfl⟩
    · trivial
  case matchingConnection =>
    refine ⟨?_, rfl⟩
    rcases matching_headerState p "connection" c .general .connection with he | he | he <;>
      simp only [he, hs, Spells]
  case matchingProxyConnection =>
    refine ⟨?_, rfl⟩
    rcases matching_headerState p "proxy-connection" c .general .connection with he | he | he <;>
      simp only [he, hs, Spells]
  case matchingContentLength =>
    refine ⟨Spells.matching h.1 h.2 (fun hall _ => hall) fun i hpre hi => ?_, rfl⟩
    rw [hs]
    exact ⟨hpre, hi⟩
  case matchingUpgrade =>
    refine ⟨Spells.matching h.1 h.2 (fun hall _ => hall) fun i hpre hi => ?_, rfl⟩
    rw [hs]
    exact ⟨hpre, hi⟩
  case matchingTransferEncoding =>
    obtain ⟨hspells, hne⟩ := Spells.matchingCoding hs h hcoding
    dsimp only
    rw [if_neg hne]
    exact ⟨hspells, rfl⟩
  all_goals exact h.elim

/-- A name that neither sets the length nor asks for a transfer encoding or an upgrade. -/
structure OrdinaryName (name : Bytes) : Prop extends IsName name where
  length : caseKey name ≠ bytes "content-length"
  coding : ¬bytes "transfer-encoding" <+: caseKey name
  upgrade : caseKey name ≠ bytes "upgrade"

theorem spells_first {b : UInt8} (h : (token b).isSome = true) :
    Spells [tolower b] (nameParser [tolower b]).index (nameParser [tolower b]).headerState ∧
      (nameParser [tolower b]).usesTransferEncoding = false := by
  rw [nameParser_singleton h]
  refine ⟨?_, rfl⟩
  dsimp only
  rw [firstState]
  split_ifs with hc hp ht hu
  · exact ⟨by rw [hc]; rfl, rfl⟩
  · trivial
  · exact ⟨by rw [ht]; decide, rfl⟩
  · exact ⟨by rw [hu]; decide, rfl⟩
  · trivial

theorem OrdinaryName.spells {name : Bytes} (h : OrdinaryName name) :
    Spells (caseKey name) (nameParser (caseKey name)).index
        (nameParser (caseKey name)).headerState ∧
      (nameParser (caseKey name)).usesTransferEncoding = false := by
  have hprefix : ∀ w, w <+: caseKey name → w ≠ [] →
      Spells w (nameParser w).index (nameParser w).headerState ∧
        (nameParser w).usesTransferEncoding = false := by
    intro w
    induction w using List.reverseRecOn with
    | nil => exact fun _ hne => absurd rfl hne
    | append_singleton w c ih =>
        intro hw _
        by_cases hnil : w = []
        · subst hnil
          rw [List.nil_append] at hw ⊢
          rw [h.caseKey] at hw
          obtain ⟨b, hb, rfl⟩ := List.mem_map.mp (hw.subset List.mem_cons_self)
          exact spells_first (h.tokens b hb)
        · have hcoding : w ++ [c] ≠ bytes "transfer-encoding" := by
            intro heq
            exact h.coding (heq ▸ hw)
          obtain ⟨hspells, huses⟩ := ih ((List.prefix_append w [c]).trans hw) hnil
          obtain ⟨hspells', huses'⟩ := hspells.fieldChar c hcoding
          rw [nameParser_append hnil]
          exact ⟨hspells', huses'.trans huses⟩
  refine hprefix _ (List.prefix_refl _) ?_
  rw [h.caseKey]
  exact fun hnil => h.nonempty (List.map_eq_nil_iff.mp hnil)

end Xzmjx.HttpRequestModel
