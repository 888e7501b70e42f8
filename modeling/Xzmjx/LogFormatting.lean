import Xzmjx.LogDefineYaml
import Xzmjx.LogFormatterModel
import Xzmjx.TextStreams

/-!
# What a log formatter prints

The items print one behind the other. A date is printed by way of a buffer of 64 characters,
which holds nothing definite when `localtime_r` fails or the text does not fit.
-/
namespace Xzmjx.LogFormatterModel
open HttpParserModel HttpRequestModel LogPattern Numerals
open LogModel (LogLevel)

/-- What the items read of a `LogEvent` and of its logger. -/
structure LogEvent where
  filename : Bytes
  line : Int32
  elapse : UInt32
  threadId : UInt32
  fiberId : UInt32
  time : UInt64
  threadName : Bytes
  content : Bytes
  loggerName : Bytes
  deriving DecidableEq, Repr

/-- `localtime_r`, of the time as a `time_t`, and the text of `strftime`. -/
structure Clock where
  Tm : Type
  localtime : UInt64 → Option Tm
  strftime : Bytes → Tm → Bytes

/-- The texts one behind the other, if there are all of them. -/
def joined {α : Type} (text : α → Option Bytes) : List α → Option Bytes
  | [] => some []
  | a :: as => do
      let front ← text a
      let rest ← joined text as
      pure (front ++ rest)

section Printing

variable (clock : Clock) (level : LogLevel) (event : LogEvent)

def fieldText : Field → Bytes
  | .message => event.content
  | .level => bytes level.toString
  | .elapse => numeral 10 event.elapse.toNat
  | .logName => event.loggerName
  | .threadId => numeral 10 event.threadId.toNat
  | .newLine => ['\n'.toUInt8]
  | .filename => event.filename
  | .line => TextStreams.putInt event.line
  | .tab => ['\t'.toUInt8]
  | .fiberId => numeral 10 event.fiberId.toNat
  | .threadName => event.threadName

/-- The text of the time of an event; the format ends at its first NUL. -/
def timeText (format : Bytes) : Option Bytes :=
  (clock.localtime event.time).map (clock.strftime (format.takeWhile (· ≠ 0)))

/-- The `format` of an item; `none` where `buf` is printed without having been filled. -/
def Item.format : Item → Option Bytes
  | .string str => some str
  | .field f => some (fieldText level event f)
  | .dateTime format => (timeText clock event format).filter fun text => text.length < 64

/-- `LogFormatter::format`. -/
def LogFormatter.format (formatter : LogFormatter) : Option Bytes :=
  joined (Item.format clock level event) formatter.items

/-- What a token stands for. -/
def tokenText : Token → Option Bytes
  | .char c => some [c]
  | .percent => some ['%'.toUInt8]
  | .item field => some (fieldText level event field)
  | .date => timeText clock event (dateFormat [])
  | .block body => timeText clock event (dateFormat body)

/-- The formatter of `p` prints what the tokens of `p` stand for. -/
def Renders (p : Bytes) : Prop :=
  ∃ formatter ts text, construct p = some formatter ∧ Parses p ts ∧
    joined (tokenText clock level event) ts = some text ∧
    formatter.format clock level event = some text

end Printing

/-! ### Texts -/

section Joined

variable {α : Type} {text text' : α → Option Bytes} {a : α} {as bs : List α} {s : Bytes}

theorem joined_cons_eq_some : joined text (a :: as) = some s ↔
    ∃ front rest, text a = some front ∧ joined text as = some rest ∧ s = front ++ rest := by
  simp only [joined, bind, Option.bind_eq_some_iff, pure, Option.some.injEq]
  constructor
  · rintro ⟨front, hfront, rest, hrest, rfl⟩
    exact ⟨front, rest, hfront, hrest, rfl⟩
  · rintro ⟨front, rest, hfront, hrest, rfl⟩
    exact ⟨front, hfront, rest, hrest, rfl⟩

theorem joined_append_eq_some : joined text (as ++ bs) = some s ↔
    ∃ front rest, joined text as = some front ∧ joined text bs = some rest ∧
      s = front ++ rest := by
  induction as generalizing s with
  | nil => simp [joined]
  | cons a as ih =>
      simp only [List.cons_append, joined_cons_eq_some, ih]
      constructor
      · rintro ⟨front, rest, hfront, ⟨middle, last, hmiddle, hlast, rfl⟩, rfl⟩
        exact ⟨front ++ middle, last, ⟨front, middle, hfront, hmiddle, rfl⟩, hlast,
          (List.append_assoc _ _ _).symm⟩
      · rintro ⟨_, last, ⟨front, middle, hfront, hmiddle, rfl⟩, hlast, rfl⟩
        exact ⟨front, middle ++ last, hfront, ⟨middle, last, hmiddle, hlast, rfl⟩,
          List.append_assoc _ _ _⟩

/-- All there is to join is there when each text is. -/
theorem exists_joined (h : ∀ a ∈ as, ∃ s, text a = some s) : ∃ s, joined text as = some s := by
  induction as with
  | nil => exact ⟨[], rfl⟩
  | cons a as ih =>
      obtain ⟨ha, has⟩ := List.forall_mem_cons.mp h
      obtain ⟨front, hfront⟩ := ha
      obtain ⟨rest, hrest⟩ := ih has
      exact ⟨_, joined_cons_eq_some.mpr ⟨front, rest, hfront, hrest, rfl⟩⟩

/-- A text that is there only under a condition is there for a list when the condition holds
of all of it. -/
theorem joined_eq_some_iff {P : α → Prop}
    (h : ∀ a s, text' a = some s ↔ P a ∧ text a = some s) :
    joined text' as = some s ↔ (∀ a ∈ as, P a) ∧ joined text as = some s := by
  induction as generalizing s with
  | nil => simp [joined]
  | cons a as ih =>
      simp only [joined_cons_eq_some, h, ih, List.forall_mem_cons]
      constructor
      · rintro ⟨front, rest, ⟨ha, hfront⟩, ⟨has, hrest⟩, rfl⟩
        exact ⟨⟨ha, has⟩, front, rest, hfront, hrest, rfl⟩
      · rintro ⟨⟨ha, has⟩, front, rest, hfront, hrest, rfl⟩
        exact ⟨front, rest, ⟨ha, hfront⟩, ⟨has, hrest⟩, rfl⟩

end Joined

/-! ### What is printed -/

def isLiteral : Token → Bool
  | .char _ | .percent => true
  | .item _ | .date | .block _ => false

section Tokens

variable (clock : Clock) (level : LogLevel) (event : LogEvent)

/-- A date is there, and the buffer holds it. -/
def PrintsDate (format : Bytes) : Prop :=
  ∃ text ∈ timeText clock event (dateFormat format), text.length < 64

def Printable : Token → Prop
  | .char _ | .percent | .item _ => True
  | .date => PrintsDate clock event []
  | .block body => PrintsDate clock event body

/-- What the item of a token prints, and a literal if it is printed. -/
def printedText : Token → Option Bytes
  | .char c => some [c]
  | .percent => some ['%'.toUInt8]
  | .item f => Item.format clock level event (.field f)
  | .date => Item.format clock level event (.dateTimeFormat [])
  | .block body => Item.format clock level event (.dateTimeFormat body)

end Tokens

variable {clock : Clock} {level : LogLevel} {event : LogEvent}

theorem format_dateTimeFormat (level : LogLevel) (format s : Bytes) :
    Item.format clock level event (.dateTimeFormat format) = some s ↔
      PrintsDate clock event format ∧ timeText clock event (dateFormat format) = some s := by
  rw [Item.dateTimeFormat, Item.format, Option.filter_eq_some_iff, decide_eq_true_eq]
  constructor
  · rintro ⟨htext, hlen⟩
    exact ⟨⟨s, htext, hlen⟩, htext⟩
  · rintro ⟨⟨text, htext, hlen⟩, hs⟩
    obtain rfl := Option.some.inj (htext.symm.trans hs)
    exact ⟨hs, hlen⟩

theorem printedText_eq_some (t : Token) (s : Bytes) :
    printedText clock level event t = some s ↔
      Printable clock event t ∧ tokenText clock level event t = some s := by
  cases t with
  | char c => exact ⟨fun h => ⟨trivial, h⟩, And.right⟩
  | percent => exact ⟨fun h => ⟨trivial, h⟩, And.right⟩
  | item f => exact ⟨fun h => ⟨trivial, h⟩, And.right⟩
  | date => exact format_dateTimeFormat level [] s
  | block body => exact format_dateTimeFormat level body s

/-- What is dropped at the end of a list, from the front. -/
theorem rdropWhile_cons {α : Type} (p : α → Bool) (a : α) (l : List α) :
    (a :: l).rdropWhile p =
      if l.rdropWhile p = [] then (if p a then [] else [a]) else a :: l.rdropWhile p := by
  induction l using List.reverseRecOn with
  | nil => rw [List.rdropWhile_singleton, List.rdropWhile_nil, if_pos rfl]
  | append_singleton l x ih =>
      rw [← List.cons_append]
      by_cases hx : p x
      · rw [List.rdropWhile_concat_pos _ _ _ hx, List.rdropWhile_concat_pos _ _ _ hx, ih]
      · rw [List.rdropWhile_concat_neg _ _ _ hx, List.rdropWhile_concat_neg _ _ _ hx,
          if_neg (by simp)]
        rfl

/-- A text that is there is put in front. -/
theorem joined_cons {α : Type} {text : α → Option Bytes} {a : α} {s : Bytes} (h : text a = some s)
    (as : List α) : joined text (a :: as) = (joined text as).map (s ++ ·) := by
  rw [joined, h]
  cases joined text as <;> rfl

theorem joined_flush (str : Bytes) (items : List Item) :
    joined (Item.format clock level event) (flush str [] ++ items) =
      (joined (Item.format clock level event) items).map (str ++ ·) := by
  unfold flush
  split_ifs with hstr
  · have hprint : Item.format clock level event (.string str) = some str := rfl
    exact joined_cons hprint items
  · rw [not_not.mp hstr]
    simp

/-- The items of a literal are put together with what has been collected. -/
theorem joined_literal {t : Token} {front : Bytes} (ht : isLiteral t = true)
    (hfront : printedText clock level event t = some front) (str : Bytes) (ts : List Token) :
    (if (t :: ts).rdropWhile isLiteral = [] then some []
      else (joined (printedText clock level event) ((t :: ts).rdropWhile isLiteral)).map
        (str ++ ·)) =
    if ts.rdropWhile isLiteral = [] then some []
    else (joined (printedText clock level event) (ts.rdropWhile isLiteral)).map
      (str ++ front ++ ·) := by
  rw [rdropWhile_cons]
  by_cases hts : ts.rdropWhile isLiteral = []
  · rw [if_pos hts, if_pos ht, if_pos rfl, if_pos hts]
  · rw [if_neg hts, if_neg (List.cons_ne_nil _ _), if_neg hts, joined_cons hfront, Option.map_map]
    congr 1
    ext rest : 1
    exact (List.append_assoc _ _ _).symm

/-- An item is printed behind what has been collected. -/
theorem joined_item {t : Token} {item : Item} (ht : isLiteral t = false)
    (hitem : printedText clock level event t = Item.format clock level event item)
    {ts : List Token} {items : List Item}
    (hts : joined (Item.format clock level event) items =
      if ts.rdropWhile isLiteral = [] then some []
      else (joined (printedText clock level event) (ts.rdropWhile isLiteral)).map ([] ++ ·))
    (str : Bytes) :
    joined (Item.format clock level event) (flush str [] ++ item :: items) =
      if (t :: ts).rdropWhile isLiteral = [] then some []
      else (joined (printedText clock level event) ((t :: ts).rdropWhile isLiteral)).map
        (str ++ ·) := by
  have hshown : (t :: ts).rdropWhile isLiteral = t :: ts.rdropWhile isLiteral := by
    rw [rdropWhile_cons]
    split_ifs with h hlit
    · simp [ht] at hlit
    · rw [h]
    · rfl
  have hrest : joined (Item.format clock level event) items =
      joined (printedText clock level event) (ts.rdropWhile isLiteral) := by
    rw [hts]
    split_ifs with h
    · rw [h]
      rfl
    · simp
  rw [joined_flush, hshown, if_neg (List.cons_ne_nil _ _), joined, joined, hrest, hitem]

/-- The literals behind the last item are not printed. -/
theorem joined_pushed (str : Bytes) (ts : List Token) :
    joined (Item.format clock level event) (pushed str ts) =
      if ts.rdropWhile isLiteral = [] then some []
      else (joined (printedText clock level event) (ts.rdropWhile isLiteral)).map (str ++ ·) := by
  induction ts generalizing str with
  | nil => rw [pushed, List.rdropWhile_nil, if_pos rfl, joined]
  | cons t ts ih =>
      cases t with
      | char c => rw [pushed, ih, joined_literal rfl rfl]
      | percent => rw [pushed, ih, joined_literal rfl rfl]
      | item f => exact joined_item rfl rfl (ih []) str
      | date => exact joined_item rfl rfl (ih []) str
      | block body => exact joined_item rfl rfl (ih []) str

theorem format_pushed (ts : List Token) :
    joined (Item.format clock level event) (pushed [] ts) =
      joined (printedText clock level event) (ts.rdropWhile isLiteral) := by
  rw [joined_pushed]
  split_ifs with h
  · rw [h, joined]
  · simp

/-! ### Patterns that are rendered -/

variable {p : Bytes}

/-- A literal has a text that is not empty. -/
theorem eq_nil_of_literals {ts : List Token} (hlit : ∀ t ∈ ts, isLiteral t = true)
    (hs : joined (tokenText clock level event) ts = some []) : ts = [] := by
  cases ts with
  | nil => rfl
  | cons t ts =>
      obtain ⟨front, rest, hfront, -, hnil⟩ := joined_cons_eq_some.mp hs
      obtain ⟨rfl, -⟩ := List.append_eq_nil_iff.mp hnil.symm
      have ht := hlit t List.mem_cons_self
      cases t with
      | char c => cases hfront
      | percent => cases hfront
      | item f => cases ht
      | date => cases ht
      | block body => cases ht

/-- The last token of a pattern, if it has any, is no literal. -/
def EndsInItem (ts : List Token) : Prop := ∀ t ∈ ts.getLast?, isLiteral t = false

theorem rdropWhile_eq_self {ts : List Token} :
    ts.rdropWhile isLiteral = ts ↔ EndsInItem ts := by
  rw [List.rdropWhile_eq_self_iff, EndsInItem]
  constructor
  · intro h t ht
    obtain ⟨hne, rfl⟩ := List.mem_getLast?_eq_getLast ht
    simpa using h hne
  · intro h hne
    simpa using h _ (List.getLast_mem_getLast? hne)

/-- What is printed of a pattern is what it stands for when nothing stands behind its last item. -/
theorem printed_iff {ts : List Token} {s : Bytes}
    (hs : joined (tokenText clock level event) ts = some s) :
    joined (printedText clock level event) (ts.rdropWhile isLiteral) = some s ↔
      EndsInItem ts ∧ ∀ t ∈ ts, Printable clock event t := by
  rw [joined_eq_some_iff printedText_eq_some, ← rdropWhile_eq_self]
  constructor
  · rintro ⟨hprint, hshown⟩
    have hsplit : ts.rdropWhile isLiteral ++ ts.rtakeWhile isLiteral = ts :=
      List.rdropWhile_append_rtakeWhile
    rw [← hsplit] at hs
    obtain ⟨front, rest, hfront, hrest, hwhole⟩ := joined_append_eq_some.mp hs
    obtain rfl := Option.some.inj (hshown.symm.trans hfront)
    have hnil : rest = [] := List.append_right_eq_self.mp hwhole.symm
    subst hnil
    have hdropped := eq_nil_of_literals (fun t ht => List.mem_rtakeWhile_imp ht) hrest
    rw [hdropped, List.append_nil] at hsplit
    exact ⟨hsplit, hsplit ▸ hprint⟩
  · rintro ⟨hself, hprint⟩
    rw [hself]
    exact ⟨hprint, hs⟩

theorem exists_tokenText (level : LogLevel) {t : Token} (h : Printable clock event t) :
    ∃ s, tokenText clock level event t = some s := by
  cases t with
  | char c => exact ⟨_, rfl⟩
  | percent => exact ⟨_, rfl⟩
  | item f => exact ⟨_, rfl⟩
  | date => exact h.imp fun _ htext => htext.1
  | block body => exact h.imp fun _ htext => htext.1

theorem renders_iff_of_lt (hlen : p.length < 2 ^ 31) :
    Renders clock level event p ↔
      ∃ ts, Parses p ts ∧ EndsInItem ts ∧ ∀ t ∈ ts, Printable clock event t := by
  have hformat : ∀ ts, Parses p ts → ∀ formatter, construct p = some formatter →
      formatter.format clock level event =
        joined (printedText clock level event) (ts.rdropWhile isLiteral) := by
    intro ts hparse formatter hmade
    obtain rfl := Option.some.inj ((construct_of_parses hlen hparse).symm.trans hmade)
    exact format_pushed ts
  constructor
  · rintro ⟨formatter, ts, text, hmade, hparse, htext, hprinted⟩
    rw [hformat ts hparse formatter hmade] at hprinted
    exact ⟨ts, hparse, (printed_iff htext).mp hprinted⟩
  · rintro ⟨ts, hparse, hends, hprint⟩
    obtain ⟨text, htext⟩ := exists_joined fun t ht => exists_tokenText level (hprint t ht)
    have hmade := construct_of_parses hlen hparse
    refine ⟨_, ts, text, hmade, hparse, htext, ?_⟩
    rw [hformat ts hparse _ hmade]
    exact (printed_iff htext).mpr ⟨hends, hprint⟩

theorem renders_iff_of_cut (hcut : StreamModel.toInt p.length ≤ 0) :
    Renders clock level event p ↔
      ∃ ts, Parses p ts ∧ joined (tokenText clock level event) ts = some [] := by
  constructor
  · rintro ⟨formatter, ts, text, hmade, hparse, htext, hprinted⟩
    obtain rfl := Option.some.inj ((construct_of_cut hcut).symm.trans hmade)
    obtain rfl := Option.some.inj hprinted
    exact ⟨ts, hparse, htext⟩
  · rintro ⟨ts, hparse, htext⟩
    exact ⟨_, ts, [], construct_of_cut hcut, hparse, htext, rfl⟩

/-- A pattern whose length is an `int` is rendered when it does not end in a literal and
its dates fit the buffer. One whose length is cut to zero or to a negative number is rendered
when its text is empty. -/
theorem renders_iff (clock : Clock) (level : LogLevel) (event : LogEvent) (p : Bytes) :
    (p.length < 2 ^ 31 → (Renders clock level event p ↔
      ∃ ts, Parses p ts ∧ EndsInItem ts ∧ ∀ t ∈ ts, Printable clock event t)) ∧
    (StreamModel.toInt p.length ≤ 0 → (Renders clock level event p ↔
      ∃ ts, Parses p ts ∧ joined (tokenText clock level event) ts = some [])) :=
  ⟨renders_iff_of_lt, renders_iff_of_cut⟩

/-- Of the pattern `a` nothing is printed. -/
theorem literal_not_printed :
    (∃ formatter, construct (bytes "a") = some formatter ∧ formatter.error = false ∧
      formatter.format ⟨Unit, fun _ => some (), fun format _ => format⟩ .info
        ⟨[], 0, 0, 0, 0, 0, [], [], []⟩ = some []) ∧
    ¬Renders ⟨Unit, fun _ => some (), fun format _ => format⟩ .info
      ⟨[], 0, 0, 0, 0, 0, [], [], []⟩ (bytes "a") := by
  have hparse : Parses (bytes "a") [.char 'a'.toUInt8] := .char (by decide) .nil
  have hmade := construct_of_parses (by decide) hparse
  refine ⟨⟨_, hmade, rfl, rfl⟩, ?_⟩
  rintro ⟨formatter, ts, text, hmade', hparse', htext, hprinted⟩
  obtain rfl := Option.some.inj (hmade.symm.trans hmade')
  obtain rfl := Option.some.inj hprinted
  obtain rfl := hparse.unique hparse'
  obtain ⟨front, tail, hfront, -, hnil⟩ := joined_cons_eq_some.mp htext
  obtain rfl := Option.some.inj hfront
  cases hnil

end Xzmjx.LogFormatterModel
