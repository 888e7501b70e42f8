import Mathlib.Tactic.Common
import Xzmjx.TextStreams

/-!
# Scalar configuration values

Where there is no other specialisation, `LexicalCast` inserts its argument into a string stream
and extracts the result from it. The test of `lexical_cast` asks that skipping blanks does
*not* run into the end of the text, so a text that is used up throws and one with something
left is accepted. `toString` and `fromString` catch what is thrown.

The variable is that of a single thread.
-/
namespace Xzmjx.ConfigModel
open TextStreams

/-- The types with the operators `<<` and `>>`. -/
class Streamable (α : Type) where
  put : α → List UInt8
  get : α → IStream → α × IStream

instance : Streamable Int32 := ⟨putInt, IStream.getInt⟩

instance : Streamable (List UInt8) := ⟨id, IStream.getString⟩

/-- `lexical_cast`; `none` where it throws. -/
def lexicalCast {Source : Type} (Target : Type) [Streamable Source] [Streamable Target]
    [Inhabited Target] (arg : Source) : Option Target :=
  let (result, interpreter) := Streamable.get (default : Target) { rest := Streamable.put arg }
  if !(!interpreter.fail && !interpreter.ws.eof) then none else some result

/-- A `ConfigVar` of a scalar type. `notices` are the calls of its listeners so far, each with
the old value and the new one. -/
structure ConfigVar (α : Type) where
  val : α
  listeners : List ℕ
  notices : List (ℕ × α × α)

namespace ConfigVar

variable {α : Type}

def setValue [DecidableEq α] (v : ConfigVar α) (val : α) : ConfigVar α :=
  if val = v.val then v
  else { v with val, notices := v.notices ++ v.listeners.map fun i => (i, v.val, val) }

def toString [Streamable α] (v : ConfigVar α) : List UInt8 :=
  (lexicalCast (List UInt8) v.val).getD []

def fromString [DecidableEq α] [Streamable α] [Inhabited α] (v : ConfigVar α) (f : List UInt8) :
    ConfigVar α :=
  match lexicalCast α f with
  | some val => v.setValue val
  | none => v

theorem setValue_val [DecidableEq α] (v : ConfigVar α) (val : α) : (v.setValue val).val = val := by
  rw [setValue]
  split_ifs with h
  · exact h.symm
  · rfl

end ConfigVar

/-! ### What the test accepts -/

section Cast

variable {Source Target : Type} [Streamable Source] [Streamable Target] [Inhabited Target]
  {arg : Source} {result : Target} {s : IStream}

theorem lexicalCast_eq
    (h : Streamable.get (default : Target) { rest := Streamable.put arg } = (result, s)) :
    lexicalCast Target arg = if s.fail = false ∧ s.ws.eof = false then some result else none := by
  rw [lexicalCast, h]
  show (if !(!s.fail && !s.ws.eof) then none else some result) = _
  cases s.fail with
  | true => rfl
  | false =>
      cases s.ws.eof with
      | true => rfl
      | false => rfl

/-- A text that the extraction uses up throws. -/
theorem lexicalCast_of_eof
    (h : Streamable.get (default : Target) { rest := Streamable.put arg } = (result, s))
    (heof : s.eof = true) : lexicalCast Target arg = none := by
  rw [lexicalCast_eq h]
  have hws : s.ws.eof = true := ws_eof.mpr (Or.inl heof)
  rw [if_neg fun hc => by simp [hws] at hc]

end Cast

/-- A value whose text is a word is not cast to a string. -/
theorem lexicalCast_word {Source : Type} [Streamable Source] {arg : Source}
    (hne : Streamable.put arg ≠ []) (hword : ∀ c ∈ Streamable.put arg, isSpace c = false) :
    lexicalCast (List UInt8) arg = none :=
  lexicalCast_of_eof (getString_word [] hne hword) rfl

theorem lexicalCast_putInt (n : Int32) : lexicalCast Int32 (putInt n) = none :=
  lexicalCast_of_eof (getInt_putInt n default) rfl

theorem putInt_ne_nil (n : Int32) : putInt n ≠ [] := by
  rw [← NumberText.text_ofInt, NumberText.text]
  simp [(NumberText.ofInt n).ne_nil]

theorem isSpace_of_mem_putInt (n : Int32) : ∀ c ∈ putInt n, isSpace c = false := by
  intro c hc
  rw [putInt] at hc
  split_ifs at hc with hneg
  · rcases List.mem_cons.mp hc with rfl | hc
    · rfl
    · exact isSpace_of_isDigit (isDigit_of_mem_numeral hc)
  · exact isSpace_of_isDigit (isDigit_of_mem_numeral hc)

/-! ### What can be asked of a variable -/

/-- A number followed by text: what follows does not go on with the number and is not blank. -/
structure Trailing extends NumberText where
  after : List UInt8
  no_digit : ∀ c ∈ after.head?, isDigit c = false
  not_blank : ∃ c ∈ after, isSpace c = false

def Trailing.whole (t : Trailing) : List UInt8 := t.text ++ t.after

/-- A non-empty string without blanks. -/
structure Word where
  chars : List UInt8
  ne_nil : chars ≠ []
  no_blank : ∀ c ∈ chars, isSpace c = false

inductive Question
  /-- `toString` after `setValue(n)`. -/
  | printInt (v : ConfigVar Int32) (n : Int32)
  /-- `fromString` of the text of `n`. -/
  | loadInt (v : ConfigVar Int32) (n : Int32)
  | printWord (v : ConfigVar (List UInt8)) (s : Word)
  | loadWord (v : ConfigVar (List UInt8)) (s : Word)
  /-- `fromString` of a number with something behind it. -/
  | loadTrailing (v : ConfigVar Int32) (t : Trailing)

namespace Question

/-- The variable prints and loads as it should. -/
def Answered : Question → Prop
  | .printInt v n => (v.setValue n).toString = putInt n
  | .loadInt v n => (v.fromString (putInt n)).val = n
  | .printWord v s => (v.setValue s.chars).toString = s.chars
  | .loadWord v s => (v.fromString s.chars).val = s.chars
  | .loadTrailing v t => (v.fromString t.whole).val = v.val

/-- Nothing that has a text is printed; a text is loaded if the variable has its value
already; a number with something behind it is left out if it does not fit an `int`, or
if the variable has its value already. -/
def Holds : Question → Prop
  | .printInt _ _ | .printWord _ _ => False
  | .loadInt v n => v.val = n
  | .loadWord v s => v.val = s.chars
  | .loadTrailing v t => InRange t.number → v.val.toInt = t.number

end Question

theorem toString_setValue_int (v : ConfigVar Int32) (n : Int32) :
    (v.setValue n).toString = [] := by
  rw [ConfigVar.toString, ConfigVar.setValue_val,
    lexicalCast_word (putInt_ne_nil n) (isSpace_of_mem_putInt n)]
  rfl

theorem toString_setValue_word (v : ConfigVar (List UInt8)) (s : Word) :
    (v.setValue s.chars).toString = [] := by
  rw [ConfigVar.toString, ConfigVar.setValue_val, lexicalCast_word s.ne_nil s.no_blank]
  rfl

theorem fromString_putInt (v : ConfigVar Int32) (n : Int32) : v.fromString (putInt n) = v := by
  rw [ConfigVar.fromString, lexicalCast_putInt]

theorem fromString_word (v : ConfigVar (List UInt8)) (s : Word) : v.fromString s.chars = v := by
  have hcast : lexicalCast (List UInt8) s.chars = none := lexicalCast_word s.ne_nil s.no_blank
  rw [ConfigVar.fromString, hcast]

/-- A number with something behind it is accepted whenever it fits. -/
theorem lexicalCast_trailing (t : Trailing) :
    lexicalCast Int32 t.whole =
      if InRange t.number then some (Int32.ofIntClamp t.number) else none := by
  rw [lexicalCast_eq (getInt_number t.toNumberText default t.after t.no_digit)]
  obtain ⟨c, hmem, hc⟩ := t.not_blank
  have hempty : t.after.isEmpty = false := List.isEmpty_eq_false_iff.mpr (List.ne_nil_of_mem hmem)
  have heof : ∀ fail, (IStream.mk t.after t.after.isEmpty fail).ws.eof = false := by
    intro fail
    rw [Bool.eq_false_iff, ne_eq, ws_eof, hempty]
    rintro (hend | hblank)
    · cases hend
    · rw [hblank c hmem] at hc
      cases hc
  simp [heof]

theorem loadTrailing_iff (v : ConfigVar Int32) (t : Trailing) :
    (v.fromString t.whole).val = v.val ↔ (InRange t.number → v.val.toInt = t.number) := by
  rw [ConfigVar.fromString, lexicalCast_trailing]
  by_cases hrange : InRange t.number
  · rw [if_pos hrange]
    show (v.setValue _).val = v.val ↔ _
    rw [ConfigVar.setValue_val, eq_comm, ← Int32.toInt_inj, toInt_ofIntClamp hrange]
    exact ⟨fun h _ => h, fun h => h hrange⟩
  · rw [if_neg hrange]
    exact ⟨fun _ h => absurd h hrange, fun _ => rfl⟩

/-- When scalar variables print and load as they should: for every variable, every integer,
every word and every number with something behind it, exactly as `Holds` says. -/
theorem Question.answered_iff (q : Question) : q.Answered ↔ q.Holds := by
  cases q with
  | printInt v n =>
      show (v.setValue n).toString = putInt n ↔ False
      rw [toString_setValue_int, iff_false]
      exact (putInt_ne_nil n).symm
  | loadInt v n =>
      show (v.fromString (putInt n)).val = n ↔ v.val = n
      rw [fromString_putInt]
  | printWord v s =>
      show (v.setValue s.chars).toString = s.chars ↔ False
      rw [toString_setValue_word, iff_false]
      exact s.ne_nil.symm
  | loadWord v s =>
      show (v.fromString s.chars).val = s.chars ↔ v.val = s.chars
      rw [fromString_word]
  | loadTrailing v t => exact loadTrailing_iff v t

/-- `5x`. -/
def Trailing.fiveX : Trailing where
  blanks := []
  sign := .none
  digits := ['5'.toUInt8]
  blank := NumberText.blank_nil
  digit := List.forall_mem_singleton.mpr rfl
  ne_nil := by simp
  after := ['x'.toUInt8]
  no_digit := by
    intro c hc
    obtain rfl := Option.some.inj hc
    rfl
  not_blank := ⟨_, List.mem_singleton_self _, rfl⟩

/-- A variable with the value 0 does not load `5` and loads `5x`, as 5; with the value 5 it
prints nothing. -/
theorem not_answered_five :
    ¬(Question.printInt ⟨0, [], []⟩ 5).Answered ∧ ¬(Question.loadInt ⟨0, [], []⟩ 5).Answered ∧
      ¬(Question.loadTrailing ⟨0, [], []⟩ .fiveX).Answered ∧
      ((⟨0, [], []⟩ : ConfigVar Int32).fromString Trailing.fiveX.whole).val = 5 := by
  unfold Question.Answered
  decide +kernel

end Xzmjx.ConfigModel
