import Xzmjx.HttpParams
import Xzmjx.LogPattern
import Xzmjx.StreamReads

/-!
# Parsing the pattern of a log formatter

`init` walks over the pattern with one index. Literal characters are collected in `str`
and pushed as one item in front of the next item; an error is pushed as an item of its own,
and the walk goes on behind it. The index and the number of characters are of type `int`.
-/
namespace Xzmjx.LogFormatterModel
open HttpParserModel HttpRequestModel LogPattern
open StreamModel (toInt toInt_of_lt)

/-- The objects that print: a `StringFormatItem`, a `DateTimeFormatItem`, or one of the others,
which take no format. -/
inductive Item
  | string (str : Bytes)
  | field (field : Field)
  | dateTime (format : Bytes)
  deriving DecidableEq, Repr

/-- The `m_format` of a date for which `format` is given. -/
def dateFormat (format : Bytes) : Bytes :=
  if format = [] then bytes "%Y-%m-%d %H:%M:%S" else format

/-- `DateTimeFormatItem::DateTimeFormatItem`. -/
def Item.dateTimeFormat (format : Bytes) : Item := .dateTime (dateFormat format)

def itemMap : List (UInt8 × (Bytes → Item)) :=
  [('m'.toUInt8, fun _ => .field .message),
    ('p'.toUInt8, fun _ => .field .level),
    ('r'.toUInt8, fun _ => .field .elapse),
    ('c'.toUInt8, fun _ => .field .logName),
    ('t'.toUInt8, fun _ => .field .threadId),
    ('n'.toUInt8, fun _ => .field .newLine),
    ('d'.toUInt8, Item.dateTimeFormat),
    ('f'.toUInt8, fun _ => .field .filename),
    ('l'.toUInt8, fun _ => .field .line),
    ('T'.toUInt8, fun _ => .field .tab),
    ('F'.toUInt8, fun _ => .field .fiberId),
    ('N'.toUInt8, fun _ => .field .threadName)]

/-- The item of an error. -/
def errorItem : Item := .string (bytes "<error format %>")

/-- Push the literal that has been collected, if any. -/
def flush (str : Bytes) (items : List Item) : List Item :=
  if str ≠ [] then items ++ [.string str] else items

/-- The loop of `init` from `i` on; `none` where `i` is no `int` any more. -/
def initFrom (pattern : Bytes) (n i : ℕ) (str : Bytes) (items : List Item) (error : Bool) :
    Option (List Item × Bool) :=
  if 2 ^ 31 ≤ i then none
  else if i < n then
    if pattern.getD i 0 ≠ '%'.toUInt8 then
      initFrom pattern n (i + 1) (str ++ [pattern.getD i 0]) items error
    else if n ≤ i + 1 then initFrom pattern n (i + 2) str (items ++ [errorItem]) true
    else if pattern.getD (i + 1) 0 = '%'.toUInt8 then
      initFrom pattern n (i + 2) (str ++ ['%'.toUInt8]) items error
    else if pattern.getD (i + 1) 0 ≠ 'd'.toUInt8 then
      match itemMap.lookup (pattern.getD (i + 1) 0) with
      | none => initFrom pattern n (i + 2) [] (flush str items ++ [errorItem]) true
      | some item => initFrom pattern n (i + 2) [] (flush str items ++ [item []]) error
    else if n ≤ i + 2 ∨ pattern.getD (i + 2) 0 ≠ '{'.toUInt8 then
      initFrom pattern n (i + 2) [] (flush str items ++ [.dateTimeFormat []]) error
    else
      match hfind : find pattern '}'.toUInt8 (i + 2) with
      | none =>
          initFrom pattern n (i + 3) []
            (flush str items ++
              [.string (bytes "<error format %d" ++ pattern.drop (i + 2) ++ bytes ">")]) true
      | some index =>
          initFrom pattern n (index + 1) []
            (flush str items ++
              [.dateTimeFormat (substr pattern (i + 3) (index - (i + 2) - 1))]) error
  else some (items, error)
termination_by n - i
decreasing_by
  all_goals try omega
  obtain ⟨k, -, -, -, hindex⟩ := find_eq_some hfind
  omega

structure LogFormatter where
  pattern : Bytes
  items : List Item
  error : Bool

/-- `LogFormatter::LogFormatter`; the number of characters is cut to an `int`, and of a negative
number of them none is looked at. -/
def construct (pattern : Bytes) : Option LogFormatter :=
  (initFrom pattern (toInt pattern.length).toNat 0 [] [] false).map fun r => ⟨pattern, r.1, r.2⟩

/-! ### One round of the loop -/

section Rounds

variable {p rest : Bytes} {i : ℕ} {c : UInt8} {str : Bytes} {items : List Item} {error : Bool}

theorem drop_eq_cons (h : p.drop i = c :: rest) :
    i < p.length ∧ p.getD i 0 = c ∧ p.drop (i + 1) = rest := by
  have hlt : i < p.length := by
    by_contra hge
    rw [List.drop_eq_nil_of_le (by omega)] at h
    cases h
  rw [List.drop_eq_getElem_cons hlt] at h
  obtain ⟨hc, hrest⟩ := List.cons.inj h
  refine ⟨hlt, ?_, hrest⟩
  rw [List.getD_eq_getElem?_getD, List.getElem?_eq_getElem hlt, hc]
  rfl

theorem init_end (hi : i < 2 ^ 31) (h : p.length ≤ i) :
    initFrom p p.length i str items error = some (items, error) := by
  rw [initFrom, if_neg (by omega), if_neg (by omega)]

theorem init_char (hi : i < 2 ^ 31) (h : p.drop i = c :: rest) (hc : c ≠ '%'.toUInt8) :
    initFrom p p.length i str items error =
      initFrom p p.length (i + 1) (str ++ [c]) items error := by
  obtain ⟨hlt, hget, -⟩ := drop_eq_cons h
  conv_lhs => rw [initFrom]
  rw [if_neg (by omega), if_pos hlt, hget, if_pos hc]

/-- A `%` with nothing behind it is an error. -/
theorem init_last (hi : i < 2 ^ 31) (h : p.drop i = ['%'.toUInt8]) :
    initFrom p p.length i str items error =
      initFrom p p.length (i + 2) str (items ++ [errorItem]) true := by
  obtain ⟨hlt, hget, hrest⟩ := drop_eq_cons h
  have hlen : p.length ≤ i + 1 := List.drop_eq_nil_iff.mp hrest
  conv_lhs => rw [initFrom]
  rw [if_neg (by omega), if_pos hlt, hget, if_neg (not_not.mpr rfl), if_pos hlen]

/-- What is behind a `%` decides the round. -/
theorem init_behind (hi : i < 2 ^ 31) (h : p.drop i = '%'.toUInt8 :: c :: rest) :
    initFrom p p.length i str items error =
      if c = '%'.toUInt8 then initFrom p p.length (i + 2) (str ++ ['%'.toUInt8]) items error
      else if c ≠ 'd'.toUInt8 then
        match itemMap.lookup c with
        | none => initFrom p p.length (i + 2) [] (flush str items ++ [errorItem]) true
        | some item => initFrom p p.length (i + 2) [] (flush str items ++ [item []]) error
      else if rest.head? ≠ some '{'.toUInt8 then
        initFrom p p.length (i + 2) [] (flush str items ++ [.dateTimeFormat []]) error
      else
        match find p '}'.toUInt8 (i + 2) with
        | none =>
            initFrom p p.length (i + 3) []
              (flush str items ++
                [.string (bytes "<error format %d" ++ p.drop (i + 2) ++ bytes ">")]) true
        | some index =>
            initFrom p p.length (index + 1) []
              (flush str items ++ [.dateTimeFormat (substr p (i + 3) (index - (i + 2) - 1))])
              error := by
  obtain ⟨hlt, hget, htail⟩ := drop_eq_cons h
  obtain ⟨hlt', hget', hrest⟩ := drop_eq_cons htail
  have hopen : (p.length ≤ i + 2 ∨ p.getD (i + 2) 0 ≠ '{'.toUInt8) ↔
      rest.head? ≠ some '{'.toUInt8 := by
    cases rest with
    | nil => exact iff_of_true (Or.inl (List.drop_eq_nil_iff.mp hrest)) (by simp)
    | cons b rest =>
        obtain ⟨hlt'', hget'', -⟩ := drop_eq_cons hrest
        rw [hget'', or_iff_right (by omega), List.head?_cons, Ne, Ne, Option.some.injEq]
  conv_lhs => rw [initFrom]
  rw [if_neg (by omega), if_pos hlt, hget, if_neg (not_not.mpr rfl), if_neg (by omega), hget']
  simp only [hopen]
  congr 3
  split
  · rename_i hfind
    rw [hfind]
  · rename_i hfind
    rw [hfind]

theorem init_percent (hi : i < 2 ^ 31) (h : p.drop i = '%'.toUInt8 :: '%'.toUInt8 :: rest) :
    initFrom p p.length i str items error =
      initFrom p p.length (i + 2) (str ++ ['%'.toUInt8]) items error := by
  rw [init_behind hi h, if_pos rfl]

/-- Behind `%` stands a letter other than that of a date. -/
theorem init_letter (hi : i < 2 ^ 31) (h : p.drop i = '%'.toUInt8 :: c :: rest)
    (hc : c ≠ '%'.toUInt8) (hd : c ≠ 'd'.toUInt8) :
    initFrom p p.length i str items error =
      match itemMap.lookup c with
      | none => initFrom p p.length (i + 2) [] (flush str items ++ [errorItem]) true
      | some item => initFrom p p.length (i + 2) [] (flush str items ++ [item []]) error := by
  rw [init_behind hi h, if_neg hc, if_pos hd]

theorem init_date (hi : i < 2 ^ 31) (h : p.drop i = '%'.toUInt8 :: 'd'.toUInt8 :: rest)
    (hopen : rest.head? ≠ some '{'.toUInt8) :
    initFrom p p.length i str items error =
      initFrom p p.length (i + 2) [] (flush str items ++ [.dateTimeFormat []]) error := by
  rw [init_behind hi h, if_neg (by decide), if_neg (not_not.mpr rfl), if_pos hopen]

/-- What the two ways into the braces have in common. -/
theorem init_brace (hi : i < 2 ^ 31)
    (h : p.drop i = '%'.toUInt8 :: 'd'.toUInt8 :: '{'.toUInt8 :: rest) :
    initFrom p p.length i str items error =
      match find p '}'.toUInt8 (i + 2) with
      | none =>
          initFrom p p.length (i + 3) []
            (flush str items ++
              [.string (bytes "<error format %d" ++ p.drop (i + 2) ++ bytes ">")]) true
      | some index =>
          initFrom p p.length (index + 1) []
            (flush str items ++ [.dateTimeFormat (substr p (i + 3) (index - (i + 2) - 1))])
            error := by
  have hopen : ¬('{'.toUInt8 :: rest).head? ≠ some '{'.toUInt8 := not_not.mpr rfl
  rw [init_behind hi h, if_neg (by decide), if_neg (not_not.mpr rfl), if_neg hopen]

/-- A brace that is not closed is an error, and the walk goes on behind it. -/
theorem init_open (hi : i < 2 ^ 31)
    (h : p.drop i = '%'.toUInt8 :: 'd'.toUInt8 :: '{'.toUInt8 :: rest) (hopen : '}'.toUInt8 ∉ rest) :
    ∃ message, initFrom p p.length i str items error =
      initFrom p p.length (i + 3) [] (flush str items ++ [.string message]) true := by
  have hnone : find p '}'.toUInt8 (i + 2) = none := by
    obtain ⟨-, -, htail⟩ := drop_eq_cons h
    obtain ⟨-, -, hrest⟩ := drop_eq_cons htail
    rw [find_eq_none, hrest, List.mem_cons, not_or]
    exact ⟨by decide, hopen⟩
  refine ⟨bytes "<error format %d" ++ p.drop (i + 2) ++ bytes ">", ?_⟩
  rw [init_brace hi h, hnone]

theorem drop_block {body : Bytes} (h : p.drop i =
      '%'.toUInt8 :: 'd'.toUInt8 :: '{'.toUInt8 :: (body ++ '}'.toUInt8 :: rest)) :
    i + (body.length + 4) ≤ p.length ∧ p.drop (i + (body.length + 4)) = rest := by
  have hlen := congrArg List.length h
  rw [List.length_drop] at hlen
  simp only [List.length_cons, List.length_append] at hlen
  refine ⟨by omega, ?_⟩
  rw [← List.drop_drop, h]
  simp

theorem init_block {body : Bytes} (hi : i < 2 ^ 31)
    (h : p.drop i =
      '%'.toUInt8 :: 'd'.toUInt8 :: '{'.toUInt8 :: (body ++ '}'.toUInt8 :: rest))
    (hbody : '}'.toUInt8 ∉ body) :
    initFrom p p.length i str items error =
      initFrom p p.length (i + (body.length + 4)) []
        (flush str items ++ [.dateTimeFormat body]) error := by
  obtain ⟨-, -, htail⟩ := drop_eq_cons h
  obtain ⟨-, -, hrest⟩ := drop_eq_cons htail
  obtain ⟨-, -, hinner⟩ := drop_eq_cons hrest
  have hfind : find p '}'.toUInt8 (i + 2) = some (i + 3 + body.length) := by
    have hnone : ('{'.toUInt8 :: body).findIdx? (· == '}'.toUInt8) = none := by
      rw [List.findIdx?_eq_none_iff]
      intro c hc
      rw [beq_eq_false_iff_ne]
      rintro rfl
      rcases List.mem_cons.mp hc with hbrace | hmem
      · exact absurd hbrace (by decide)
      · exact hbody hmem
    have hfound : ('}'.toUInt8 :: rest).findIdx? (· == '}'.toUInt8) = some 0 := by
      rw [List.findIdx?_cons, if_pos (beq_self_eq_true _)]
    rw [find, hrest, ← List.cons_append, List.findIdx?_append, hnone, hfound]
    simp only [Option.map_some, Option.none_or, List.length_cons, Option.some.injEq]
    omega
  have hcount : i + 3 + body.length - (i + 2) - 1 = body.length := by omega
  have hnext : i + 3 + body.length + 1 = i + (body.length + 4) := by omega
  rw [init_brace hi h, hfind]
  dsimp only
  rw [substr, hinner, hcount, List.take_left, hnext]

theorem itemMap_letter (field : Field) :
    itemMap.lookup field.letter = some fun _ => .field field := by
  cases field <;> rfl

theorem init_item (hi : i < 2 ^ 31) (field : Field)
    (h : p.drop i = '%'.toUInt8 :: field.letter :: rest) :
    initFrom p p.length i str items error =
      initFrom p p.length (i + 2) [] (flush str items ++ [.field field]) error := by
  rw [init_letter hi h field.letter_ne.1 field.letter_ne.2, itemMap_letter]

theorem init_unknown (hi : i < 2 ^ 31) (h : p.drop i = '%'.toUInt8 :: c :: rest)
    (hc : c ≠ '%'.toUInt8) (hd : c ≠ 'd'.toUInt8) (hlookup : itemMap.lookup c = none) :
    initFrom p p.length i str items error =
      initFrom p p.length (i + 2) [] (flush str items ++ [errorItem]) true := by
  rw [init_letter hi h hc hd, hlookup]

/-- A letter of the map is that of a date or of another item. -/
theorem exists_field_of_lookup {item : Bytes → Item} (h : itemMap.lookup c = some item)
    (hd : c ≠ 'd'.toUInt8) : ∃ field : Field, c = field.letter := by
  obtain ⟨l, l', hl, -⟩ := List.lookup_eq_some_iff.mp h
  have hmem : c ∈ itemMap.map Prod.fst := by
    rw [hl]
    simp
  simp only [itemMap, List.map_cons, List.map_nil, List.mem_cons, List.not_mem_nil, or_false] at hmem
  rcases hmem with rfl | rfl | rfl | rfl | rfl | rfl | rfl | rfl | rfl | rfl | rfl | rfl
  · exact ⟨.message, rfl⟩
  · exact ⟨.level, rfl⟩
  · exact ⟨.elapse, rfl⟩
  · exact ⟨.logName, rfl⟩
  · exact ⟨.threadId, rfl⟩
  · exact ⟨.newLine, rfl⟩
  · exact absurd rfl hd
  · exact ⟨.filename, rfl⟩
  · exact ⟨.line, rfl⟩
  · exact ⟨.tab, rfl⟩
  · exact ⟨.fiberId, rfl⟩
  · exact ⟨.threadName, rfl⟩

/-! ### Derivable patterns -/

/-- The items that `init` pushes for the tokens when `str` has been collected before them;
what is collected behind the last item is not pushed. -/
def pushed : Bytes → List Token → List Item
  | _, [] => []
  | str, .char c :: ts => pushed (str ++ [c]) ts
  | str, .percent :: ts => pushed (str ++ ['%'.toUInt8]) ts
  | str, .item field :: ts => flush str [] ++ .field field :: pushed [] ts
  | str, .date :: ts => flush str [] ++ .dateTimeFormat [] :: pushed [] ts
  | str, .block body :: ts => flush str [] ++ .dateTimeFormat body :: pushed [] ts

theorem flush_append (str : Bytes) (items : List Item) : flush str items = items ++ flush str [] := by
  unfold flush
  split_ifs
  · simp
  · simp

/-- A pattern that can be derived has its items pushed and no error. -/
theorem init_of_parses {q : Bytes} {ts : List Token} (hlen : p.length < 2 ^ 31)
    (hparse : Parses q ts) (hi : i ≤ p.length) (hq : p.drop i = q) :
    initFrom p p.length i str items error = some (items ++ pushed str ts, error) := by
  induction hparse generalizing i str items with
  | nil =>
      rw [init_end (by omega) (List.drop_eq_nil_iff.mp hq), pushed, List.append_nil]
  | char hc _ ih =>
      obtain ⟨hlt, -, hrest⟩ := drop_eq_cons hq
      rw [init_char (by omega) hq hc, ih (by omega) hrest, pushed]
  | percent _ ih =>
      obtain ⟨-, -, htail⟩ := drop_eq_cons hq
      obtain ⟨hlt, -, hrest⟩ := drop_eq_cons htail
      rw [init_percent (by omega) hq, ih (by omega) hrest, pushed]
  | item field _ ih =>
      obtain ⟨-, -, htail⟩ := drop_eq_cons hq
      obtain ⟨hlt, -, hrest⟩ := drop_eq_cons htail
      rw [init_item (by omega) field hq, ih (by omega) hrest, pushed, flush_append]
      simp
  | date hopen _ ih =>
      obtain ⟨-, -, htail⟩ := drop_eq_cons hq
      obtain ⟨hlt, -, hrest⟩ := drop_eq_cons htail
      rw [init_date (by omega) hq hopen, ih (by omega) hrest, pushed, flush_append]
      simp
  | @block body rest ts hbody _ ih =>
      obtain ⟨hle, hrest⟩ := drop_block hq
      rw [init_block (by omega) hq hbody, ih (by omega) hrest, pushed, flush_append]
      simp

/-- Behind a last lone `%` the index is no `int` any more if the pattern has as many characters
as there can be. -/
def Ends (p : Bytes) (i : ℕ) : Prop := p.length + 1 < 2 ^ 31 ∨ Paired (p.drop i)

/-- From `i` on the loop ends if it can, and if it ends without an error there was none before
and the rest of the pattern can be derived. -/
def Settles (p : Bytes) (i : ℕ) : Prop :=
  ∀ str items error,
    (Ends p i → ∃ r, initFrom p p.length i str items error = some r ∧
      (r.2 = false → error = false ∧ Derivable (p.drop i))) ∧
    (¬Ends p i → initFrom p p.length i str items error = none)

theorem settles_of_round {j : ℕ} (hj : Settles p j)
    (hround : ∀ str items error, ∃ str' items',
      initFrom p p.length i str items error = initFrom p p.length j str' items' error)
    (hpaired : Paired (p.drop i) ↔ Paired (p.drop j))
    (hderive : Derivable (p.drop j) → Derivable (p.drop i)) : Settles p i := by
  intro str items error
  obtain ⟨str', items', heq⟩ := hround str items error
  obtain ⟨hends, hstuck⟩ := hj str' items' error
  rw [Ends, hpaired, heq]
  refine ⟨fun h => ?_, hstuck⟩
  obtain ⟨r, hr, hok⟩ := hends h
  exact ⟨r, hr, fun hfalse => ⟨(hok hfalse).1, hderive (hok hfalse).2⟩⟩

theorem settles_of_error {j : ℕ} (hj : Settles p j)
    (hround : ∀ str items error, ∃ str' items',
      initFrom p p.length i str items error = initFrom p p.length j str' items' true)
    (hpaired : Paired (p.drop i) ↔ Paired (p.drop j)) : Settles p i := by
  intro str items error
  obtain ⟨str', items', heq⟩ := hround str items error
  obtain ⟨hends, hstuck⟩ := hj str' items' true
  rw [Ends, hpaired, heq]
  refine ⟨fun h => ?_, hstuck⟩
  obtain ⟨r, hr, hok⟩ := hends h
  exact ⟨r, hr, fun hfalse => absurd (hok hfalse).1 (by simp)⟩

/-- A `%` with nothing behind it takes the index one too far. -/
theorem settles_last (hi : i < 2 ^ 31) (hlen : p.length < 2 ^ 31) (hq : p.drop i = ['%'.toUInt8]) :
    Settles p i := by
  intro str items error
  obtain ⟨hlt, -, hrest⟩ := drop_eq_cons hq
  have hend : i + 1 = p.length := le_antisymm hlt (List.drop_eq_nil_iff.mp hrest)
  have hends : Ends p i ↔ p.length + 1 < 2 ^ 31 := by
    rw [Ends, hq, or_iff_left not_paired_percent]
  rw [hends, init_last hi hq]
  constructor
  · intro hfits
    exact ⟨_, init_end (by omega) (by omega), fun h => by cases h⟩
  · intro hover
    rw [initFrom, if_pos (by omega)]

/-- Behind `%d`: a date, with a format in braces or without, or braces that are not closed. -/
theorem settles_date (hi : i < 2 ^ 31) (hq : p.drop i = '%'.toUInt8 :: 'd'.toUInt8 :: rest)
    (hlater : ∀ j, i < j → j ≤ p.length → Settles p j) : Settles p i := by
  obtain ⟨-, -, htail⟩ := drop_eq_cons hq
  obtain ⟨hlt, -, hrest⟩ := drop_eq_cons htail
  by_cases hbrace : rest.head? = some '{'.toUInt8
  · obtain ⟨inner, rfl⟩ := List.head?_eq_some_iff.mp hbrace
    by_cases hclosed : '}'.toUInt8 ∈ inner
    · obtain ⟨body, rest, rfl, hbody⟩ := List.eq_append_cons_of_mem hclosed
      obtain ⟨hle, hdrop⟩ := drop_block hq
      refine settles_of_round (hlater (i + (body.length + 4)) (by omega) hle)
        (fun str items error => ⟨_, _, init_block hi hq hbody⟩) ?_ ?_
      · rw [hdrop, hq]
        exact paired_block hbody
      · rw [hdrop, hq]
        rintro ⟨ts, h⟩
        exact ⟨_, .block hbody h⟩
    · obtain ⟨hlt', -, hinner⟩ := drop_eq_cons hrest
      refine settles_of_error (hlater (i + 3) (by omega) hlt') (fun str items error => ?_) ?_
      · obtain ⟨message, heq⟩ := init_open hi hq hclosed
        exact ⟨_, _, heq⟩
      · rw [hinner, hq]
        exact paired_unclosed hclosed
  · refine settles_of_round (hlater (i + 2) (by omega) hlt)
      (fun str items error => ⟨_, _, init_date hi hq hbrace⟩) ?_ ?_
    · rw [hrest, hq]
      exact paired_date hbrace
    · rw [hrest, hq]
      rintro ⟨ts, h⟩
      exact ⟨_, .date hbrace h⟩

/-- Behind `%`: another one, the letter of an item, or one that is unknown. -/
theorem settles_letter (hi : i < 2 ^ 31) (hq : p.drop i = '%'.toUInt8 :: c :: rest)
    (hd : c ≠ 'd'.toUInt8) (hnext : Settles p (i + 2)) : Settles p i := by
  obtain ⟨-, -, htail⟩ := drop_eq_cons hq
  obtain ⟨-, -, hrest⟩ := drop_eq_cons htail
  have hpaired : Paired (p.drop i) ↔ Paired (p.drop (i + 2)) := by
    rw [hrest, hq]
    exact paired_letter hd
  by_cases hc : c = '%'.toUInt8
  · subst hc
    refine settles_of_round hnext (fun str items error => ⟨_, _, init_percent hi hq⟩) hpaired ?_
    rw [hrest, hq]
    rintro ⟨ts, h⟩
    exact ⟨_, .percent h⟩
  · cases hlookup : itemMap.lookup c with
    | none =>
        exact settles_of_error hnext
          (fun str items error => ⟨_, _, init_unknown hi hq hc hd hlookup⟩) hpaired
    | some item =>
        obtain ⟨field, rfl⟩ := exists_field_of_lookup hlookup hd
        refine settles_of_round hnext (fun str items error => ⟨_, _, init_item hi field hq⟩)
          hpaired ?_
        rw [hrest, hq]
        rintro ⟨ts, h⟩
        exact ⟨_, .item field h⟩

/-- The whole loop; the induction is on what is left of the pattern. -/
theorem settles (hlen : p.length < 2 ^ 31) (hi : i ≤ p.length) : Settles p i := by
  induction hm : p.length - i using Nat.strong_induction_on generalizing i with
  | _ m ih =>
      have hlater : ∀ j, i < j → j ≤ p.length → Settles p j :=
        fun j hj hle => ih (p.length - j) (by omega) hle rfl
      have hlt : i < 2 ^ 31 := by omega
      rcases hq : p.drop i with _ | ⟨c, rest⟩
      · intro str items error
        rw [Ends, hq]
        refine ⟨fun _ => ⟨_, init_end hlt (List.drop_eq_nil_iff.mp hq), fun h => ⟨h, [], .nil⟩⟩, ?_⟩
        intro h
        exact absurd (Or.inr .nil) h
      obtain ⟨hin, -, hrest⟩ := drop_eq_cons hq
      by_cases hc : c = '%'.toUInt8
      · subst hc
        rcases rest with _ | ⟨x, rest⟩
        · exact settles_last hlt hlen hq
        obtain ⟨hin', -, -⟩ := drop_eq_cons hrest
        by_cases hd : x = 'd'.toUInt8
        · subst hd
          exact settles_date hlt hq hlater
        · exact settles_letter hlt hq hd (hlater (i + 2) (by omega) hin')
      · refine settles_of_round (hlater (i + 1) (by omega) hin)
          (fun str items error => ⟨_, _, init_char hlt hq hc⟩) ?_ ?_
        · rw [hrest, hq]
          exact paired_char hc
        · rw [hrest, hq]
          rintro ⟨ts, h⟩
          exact ⟨_, .char hc h⟩

end Rounds

/-! ### What `error` decides -/

/-- The formatter is made, and `error` says whether its pattern can be derived. -/
def Decides (p : Bytes) : Prop :=
  ∃ formatter, construct p = some formatter ∧ (formatter.error = false ↔ Derivable p)

variable {p : Bytes}

theorem construct_of_lt (hlen : p.length < 2 ^ 31) :
    construct p = (initFrom p p.length 0 [] [] false).map fun r => ⟨p, r.1, r.2⟩ := by
  rw [construct, toInt_of_lt hlen, Int.toNat_natCast]

theorem construct_of_parses {ts : List Token} (hlen : p.length < 2 ^ 31)
    (hparse : Parses p ts) : construct p = some ⟨p, pushed [] ts, false⟩ := by
  have hinit : initFrom p p.length 0 [] [] false = some ([] ++ pushed [] ts, false) :=
    init_of_parses hlen hparse (Nat.zero_le _) rfl
  rw [construct_of_lt hlen, hinit]
  rfl

/-- `error` decides a pattern whose length is an `int` exactly when the index stays one. -/
theorem decides_iff_of_lt (hlen : p.length < 2 ^ 31) :
    Decides p ↔ p.length + 1 < 2 ^ 31 ∨ Paired p := by
  obtain ⟨hends, hstuck⟩ := settles hlen (Nat.zero_le _) [] [] false
  constructor
  · rintro ⟨formatter, hmade, -⟩
    by_contra hno
    rw [construct_of_lt hlen, hstuck hno] at hmade
    cases hmade
  · intro hyes
    obtain ⟨r, hr, hok⟩ := hends hyes
    have hmade : construct p = some ⟨p, r.1, r.2⟩ := by
      rw [construct_of_lt hlen, hr]
      rfl
    refine ⟨_, hmade, fun h => (hok h).2, ?_⟩
    rintro ⟨ts, hparse⟩
    rw [construct_of_parses hlen hparse] at hmade
    rw [← Option.some.inj hmade]

/-- Of a pattern whose length is no positive `int` nothing is looked at. -/
theorem construct_of_cut (hcut : toInt p.length ≤ 0) : construct p = some ⟨p, [], false⟩ := by
  rw [construct, Int.toNat_of_nonpos hcut, initFrom, if_neg (by decide), if_neg (by decide)]
  rfl

theorem decides_iff_of_cut (hcut : toInt p.length ≤ 0) : Decides p ↔ Derivable p := by
  constructor
  · rintro ⟨formatter, hmade, hiff⟩
    obtain rfl := Option.some.inj ((construct_of_cut hcut).symm.trans hmade)
    exact hiff.mp rfl
  · intro hder
    exact ⟨_, construct_of_cut hcut, fun _ => hder, fun _ => rfl⟩

/-- `error` decides the patterns whose length is an `int`, but for those of 2^31 - 1 characters
in which a `%` has nothing behind it. Of those whose length is cut to zero or to a negative
number it accepts all. -/
theorem error_decides (p : Bytes) :
    (p.length < 2 ^ 31 → (Decides p ↔ p.length + 1 < 2 ^ 31 ∨ Paired p)) ∧
      (toInt p.length ≤ 0 → (Decides p ↔ Derivable p)) :=
  ⟨decides_iff_of_lt, decides_iff_of_cut⟩

/-- `%a` and then more of the same, 2^31 characters in all: their number is cut to a negative
one, and the formatter has no error. -/
theorem long_pattern_accepted :
    ¬Decides ('%'.toUInt8 :: 'a'.toUInt8 :: List.replicate (2 ^ 31 - 2) 'a'.toUInt8) := by
  rintro ⟨formatter, hmade, hiff⟩
  have hcut : toInt ('%'.toUInt8 :: 'a'.toUInt8 ::
      List.replicate (2 ^ 31 - 2) 'a'.toUInt8).length ≤ 0 := by
    rw [List.length_cons, List.length_cons, List.length_replicate]
    decide
  obtain rfl := Option.some.inj ((construct_of_cut hcut).symm.trans hmade)
  have hletter : ∀ field : Field, 'a'.toUInt8 ≠ field.letter := by
    intro field
    cases field <;> decide
  exact not_derivable (by decide) (by decide) hletter (hiff.mp rfl)

end Xzmjx.LogFormatterModel
