import Xzmjx.HttpParserUrl

/-!
# The patterns of a log formatter

A pattern is a sequence of literal characters, of `%%`, and of items: a letter behind `%`,
or `%d` with or without the format of a date in braces.
-/
namespace Xzmjx.LogPattern

/-- What an item prints, by the name of its class. -/
inductive Field
  | message
  | level
  | elapse
  | logName
  | threadId
  | newLine
  | filename
  | line
  | tab
  | fiberId
  | threadName
  deriving DecidableEq, Repr

/-- The letter of an item behind `%`. -/
def Field.letter : Field → UInt8
  | .message => 'm'.toUInt8
  | .level => 'p'.toUInt8
  | .elapse => 'r'.toUInt8
  | .logName => 'c'.toUInt8
  | .threadId => 't'.toUInt8
  | .newLine => 'n'.toUInt8
  | .filename => 'f'.toUInt8
  | .line => 'l'.toUInt8
  | .tab => 'T'.toUInt8
  | .fiberId => 'F'.toUInt8
  | .threadName => 'N'.toUInt8

inductive Token
  | char (c : UInt8)
  | percent
  | item (field : Field)
  | date
  | block (body : List UInt8)
  deriving DecidableEq, Repr

/-- The pattern is derived as the tokens. -/
inductive Parses : List UInt8 → List Token → Prop
  | nil : Parses [] []
  | char {c : UInt8} {p : List UInt8} {ts : List Token} (hc : c ≠ '%'.toUInt8) (h : Parses p ts) :
      Parses (c :: p) (.char c :: ts)
  | percent {p : List UInt8} {ts : List Token} (h : Parses p ts) :
      Parses ('%'.toUInt8 :: '%'.toUInt8 :: p) (.percent :: ts)
  | item (field : Field) {p : List UInt8} {ts : List Token} (h : Parses p ts) :
      Parses ('%'.toUInt8 :: field.letter :: p) (.item field :: ts)
  | date {p : List UInt8} {ts : List Token} (hopen : p.head? ≠ some '{'.toUInt8)
      (h : Parses p ts) : Parses ('%'.toUInt8 :: 'd'.toUInt8 :: p) (.date :: ts)
  | block {body p : List UInt8} {ts : List Token} (hbody : '}'.toUInt8 ∉ body) (h : Parses p ts) :
      Parses ('%'.toUInt8 :: 'd'.toUInt8 :: '{'.toUInt8 :: (body ++ '}'.toUInt8 :: p))
        (.block body :: ts)

def Derivable (p : List UInt8) : Prop := ∃ ts, Parses p ts

theorem Field.letter_ne (field : Field) :
    field.letter ≠ '%'.toUInt8 ∧ field.letter ≠ 'd'.toUInt8 := by
  cases field <;> decide

/-- Each `%` of the pattern has a character behind it. A letter that is none of an item is
skipped, and of braces that are not closed the one that opens. -/
inductive Paired : List UInt8 → Prop
  | nil : Paired []
  | char {c : UInt8} {p : List UInt8} (hc : c ≠ '%'.toUInt8) (h : Paired p) : Paired (c :: p)
  | letter {x : UInt8} {p : List UInt8} (hx : x ≠ 'd'.toUInt8) (h : Paired p) :
      Paired ('%'.toUInt8 :: x :: p)
  | date {p : List UInt8} (hopen : p.head? ≠ some '{'.toUInt8) (h : Paired p) :
      Paired ('%'.toUInt8 :: 'd'.toUInt8 :: p)
  | block {body p : List UInt8} (hbody : '}'.toUInt8 ∉ body) (h : Paired p) :
      Paired ('%'.toUInt8 :: 'd'.toUInt8 :: '{'.toUInt8 :: (body ++ '}'.toUInt8 :: p))
  | unclosed {p : List UInt8} (hopen : '}'.toUInt8 ∉ p) (h : Paired p) :
      Paired ('%'.toUInt8 :: 'd'.toUInt8 :: '{'.toUInt8 :: p)

/-- A character other than `%` is a token of its own. -/
theorem Parses.of_char {c : UInt8} {p : List UInt8} {ts : List Token} (h : Parses (c :: p) ts)
    (hc : c ≠ '%'.toUInt8) : ∃ rest, ts = .char c :: rest ∧ Parses p rest := by
  cases h with
  | char _ h => exact ⟨_, rfl, h⟩
  | percent _ => exact absurd rfl hc
  | item _ _ => exact absurd rfl hc
  | date _ _ => exact absurd rfl hc
  | block _ _ => exact absurd rfl hc

/-- The four ways to go on behind a `%`. -/
theorem Parses.percent_cases {x : UInt8} {p : List UInt8} {ts : List Token}
    (h : Parses ('%'.toUInt8 :: x :: p) ts) :
    (x = '%'.toUInt8 ∧ ∃ rest, ts = .percent :: rest ∧ Parses p rest) ∨
    (∃ field : Field, x = field.letter ∧ ∃ rest, ts = .item field :: rest ∧ Parses p rest) ∨
    (x = 'd'.toUInt8 ∧ p.head? ≠ some '{'.toUInt8 ∧
      ∃ rest, ts = .date :: rest ∧ Parses p rest) ∨
    (x = 'd'.toUInt8 ∧ ∃ body after rest, '}'.toUInt8 ∉ body ∧
      p = '{'.toUInt8 :: (body ++ '}'.toUInt8 :: after) ∧
      ts = .block body :: rest ∧ Parses after rest) := by
  generalize hq : '%'.toUInt8 :: x :: p = q at h
  cases h with
  | nil => cases hq
  | char hc _ => exact absurd (List.cons.inj hq).1.symm hc
  | percent h =>
      obtain ⟨rfl, rfl⟩ := List.cons.inj (List.cons.inj hq).2
      exact Or.inl ⟨rfl, _, rfl, h⟩
  | item field h =>
      obtain ⟨hx, rfl⟩ := List.cons.inj (List.cons.inj hq).2
      exact Or.inr (Or.inl ⟨field, hx, _, rfl, h⟩)
  | date hopen h =>
      obtain ⟨hx, rfl⟩ := List.cons.inj (List.cons.inj hq).2
      exact Or.inr (Or.inr (Or.inl ⟨hx, hopen, _, rfl, h⟩))
  | block hbody h =>
      obtain ⟨hx, hp⟩ := List.cons.inj (List.cons.inj hq).2
      exact Or.inr (Or.inr (Or.inr ⟨hx, _, _, _, hbody, hp, rfl, h⟩))

/-- No pattern has a letter behind `%` that is none of an item. -/
theorem not_derivable {x : UInt8} {rest : List UInt8} (hpercent : x ≠ '%'.toUInt8)
    (hd : x ≠ 'd'.toUInt8) (hletter : ∀ field : Field, x ≠ field.letter) :
    ¬Derivable ('%'.toUInt8 :: x :: rest) := by
  rintro ⟨ts, h⟩
  rcases h.percent_cases with ⟨hx, -⟩ | ⟨field, hx, -⟩ | ⟨hx, -⟩ | ⟨hx, -⟩
  · exact hpercent hx
  · exact hletter field hx
  · exact hd hx
  · exact hd hx

theorem Field.letter_injective : Function.Injective Field.letter := by
  intro f g h
  cases f <;> cases g <;> first | rfl | exact absurd h (by decide)

/-- The braces of a date end at the first that closes. -/
theorem block_unique {body body' p p' : List UInt8} (hbody : '}'.toUInt8 ∉ body)
    (hbody' : '}'.toUInt8 ∉ body')
    (h : body ++ '}'.toUInt8 :: p = body' ++ '}'.toUInt8 :: p') : body = body' ∧ p = p' := by
  have hfront : ∀ l q : List UInt8, '}'.toUInt8 ∉ l →
      (l ++ '}'.toUInt8 :: q).takeWhile (· ≠ '}'.toUInt8) = l := by
    intro l q hl
    rw [List.takeWhile_append_of_pos fun c hc => ?_]
    · simp
    · rw [decide_eq_true_eq]
      exact ne_of_mem_of_not_mem hc hl
  have heq : body = body' := by
    rw [← hfront body p hbody, h, hfront body' p' hbody']
  subst heq
  exact ⟨rfl, (List.cons.inj (List.append_cancel_left h)).2⟩

/-- A pattern has one derivation at most; the induction is on the first. -/
theorem Parses.unique {p : List UInt8} {ts ts' : List Token} (h : Parses p ts)
    (h' : Parses p ts') : ts = ts' := by
  induction h generalizing ts' with
  | nil =>
      cases h'
      rfl
  | char hc _ ih =>
      obtain ⟨rest, rfl, hrest⟩ := h'.of_char hc
      rw [ih hrest]
  | percent _ ih =>
      rcases h'.percent_cases with ⟨-, rest, rfl, hrest⟩ | ⟨field, hx, -⟩ | ⟨hx, -⟩ | ⟨hx, -⟩
      · rw [ih hrest]
      · exact absurd hx.symm field.letter_ne.1
      · cases hx
      · cases hx
  | item field _ ih =>
      rcases h'.percent_cases with ⟨hx, -⟩ | ⟨field', hx, rest, rfl, hrest⟩ | ⟨hx, -⟩ | ⟨hx, -⟩
      · exact absurd hx field.letter_ne.1
      · rw [Field.letter_injective hx, ih hrest]
      · exact absurd hx field.letter_ne.2
      · exact absurd hx field.letter_ne.2
  | date hopen _ ih =>
      rcases h'.percent_cases with ⟨hx, -⟩ | ⟨field, hx, -⟩ | ⟨-, -, rest, rfl, hrest⟩ |
        ⟨-, body, after, rest, -, hp, -⟩
      · cases hx
      · exact absurd hx.symm field.letter_ne.2
      · rw [ih hrest]
      · exact absurd (by rw [hp]; rfl) hopen
  | block hbody _ ih =>
      rcases h'.percent_cases with ⟨hx, -⟩ | ⟨field, hx, -⟩ | ⟨-, hopen, -⟩ |
        ⟨-, body', after, rest, hbody', hp, rfl, hrest⟩
      · cases hx
      · exact absurd hx.symm field.letter_ne.2
      · exact absurd rfl hopen
      · obtain ⟨rfl, rfl⟩ := block_unique hbody hbody' (List.cons.inj hp).2
        rw [ih hrest]

/-! ### Pairs -/

section Pairs

variable {c x : UInt8} {p body : List UInt8}

theorem not_paired_percent : ¬Paired ['%'.toUInt8] := by
  intro h
  cases h with
  | char hc _ => exact hc rfl

theorem paired_char (hc : c ≠ '%'.toUInt8) : Paired (c :: p) ↔ Paired p := by
  refine ⟨fun h => ?_, .char hc⟩
  cases h with
  | char _ h => exact h
  | letter _ _ => exact absurd rfl hc
  | date _ _ => exact absurd rfl hc
  | block _ _ => exact absurd rfl hc
  | unclosed _ _ => exact absurd rfl hc

theorem paired_letter (hx : x ≠ 'd'.toUInt8) : Paired ('%'.toUInt8 :: x :: p) ↔ Paired p := by
  refine ⟨fun h => ?_, .letter hx⟩
  cases h with
  | char hc _ => exact absurd rfl hc
  | letter _ h => exact h
  | date _ _ => exact absurd rfl hx
  | block _ _ => exact absurd rfl hx
  | unclosed _ _ => exact absurd rfl hx

theorem paired_date (hopen : p.head? ≠ some '{'.toUInt8) :
    Paired ('%'.toUInt8 :: 'd'.toUInt8 :: p) ↔ Paired p := by
  refine ⟨fun h => ?_, .date hopen⟩
  cases h with
  | char hc _ => exact absurd rfl hc
  | letter hx _ => exact absurd rfl hx
  | date _ h => exact h
  | block _ _ => exact absurd rfl hopen
  | unclosed _ _ => exact absurd rfl hopen

/-- The two ways into the braces of a date. -/
theorem Paired.brace_cases
    (h : Paired ('%'.toUInt8 :: 'd'.toUInt8 :: '{'.toUInt8 :: p)) :
    (∃ body after, '}'.toUInt8 ∉ body ∧ p = body ++ '}'.toUInt8 :: after ∧ Paired after) ∨
      ('}'.toUInt8 ∉ p ∧ Paired p) := by
  cases h with
  | char hc _ => exact absurd rfl hc
  | letter hx _ => exact absurd rfl hx
  | date hopen _ => exact absurd rfl hopen
  | block hbody h => exact Or.inl ⟨_, _, hbody, rfl, h⟩
  | unclosed hopen h => exact Or.inr ⟨hopen, h⟩

theorem paired_block (hbody : '}'.toUInt8 ∉ body) :
    Paired ('%'.toUInt8 :: 'd'.toUInt8 :: '{'.toUInt8 :: (body ++ '}'.toUInt8 :: p)) ↔
      Paired p := by
  refine ⟨fun h => ?_, .block hbody⟩
  rcases h.brace_cases with ⟨body', after, hbody', heq, h⟩ | ⟨hopen, -⟩
  · obtain ⟨-, rfl⟩ := block_unique hbody hbody' heq
    exact h
  · exact absurd (List.mem_append_right body List.mem_cons_self) hopen

theorem paired_unclosed (hopen : '}'.toUInt8 ∉ p) :
    Paired ('%'.toUInt8 :: 'd'.toUInt8 :: '{'.toUInt8 :: p) ↔ Paired p := by
  refine ⟨fun h => ?_, .unclosed hopen⟩
  rcases h.brace_cases with ⟨body, after, -, rfl, -⟩ | ⟨-, h⟩
  · exact absurd (List.mem_append_right body List.mem_cons_self) hopen
  · exact h

end Pairs

end Xzmjx.LogPattern
