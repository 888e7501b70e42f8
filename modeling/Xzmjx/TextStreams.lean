import Mathlib.Data.List.TakeWhile
import Xzmjx.Numerals

/-!
# Formatted extraction from a text

An input stream on a text is what is left of it and two flags. An extraction skips the blanks
first. `eof` is set by whatever looks at the end of the text, also by an extraction that
succeeds because the text ends there.
-/
namespace TextStreams
open Numerals

structure IStream where
  rest : List UInt8
  eof : Bool := false
  fail : Bool := false
  deriving DecidableEq, Repr

def isSpace (c : UInt8) : Bool := c = 32 || (9 ≤ c && c ≤ 13)

def isDigit (c : UInt8) : Bool := 48 ≤ c && c ≤ 57

inductive Sign
  | none
  | plus
  | minus
  deriving DecidableEq, Repr

def Sign.text : Sign → List UInt8
  | .none => []
  | .plus => ['+'.toUInt8]
  | .minus => ['-'.toUInt8]

def Sign.apply : Sign → ℕ → ℤ
  | .none, n | .plus, n => n
  | .minus, n => -n

/-- The sign in front of a text, and what follows it. -/
def takeSign : List UInt8 → Sign × List UInt8
  | c :: cs =>
      if c = '+'.toUInt8 then (.plus, cs) else if c = '-'.toUInt8 then (.minus, cs)
      else (.none, c :: cs)
  | [] => (.none, [])

/-- The number that decimal digits stand for. -/
def value (digits : List UInt8) : ℕ := digits.foldl (fun n c => 10 * n + (c.toNat - 48)) 0

/-- The numbers of a signed 32-bit integer. -/
def InRange (z : ℤ) : Prop := -2 ^ 31 ≤ z ∧ z < 2 ^ 31

instance (z : ℤ) : Decidable (InRange z) := inferInstanceAs (Decidable (_ ∧ _))

namespace IStream

/-- What every extraction begins with. -/
def sentry (s : IStream) : IStream :=
  if s.eof || s.fail then { s with fail := true }
  else
    let rest := s.rest.dropWhile isSpace
    { rest, eof := rest.isEmpty, fail := rest.isEmpty }

/-- The manipulator that skips blanks and does not fail at the end. -/
def ws (s : IStream) : IStream :=
  let rest := s.rest.dropWhile isSpace
  { s with rest, eof := s.eof || rest.isEmpty }

/-- Extraction of a word into `result`. -/
def getString (result : List UInt8) (s : IStream) : List UInt8 × IStream :=
  let s := s.sentry
  if s.fail then (result, s)
  else
    let word := s.rest.takeWhile fun c => !isSpace c
    let rest := s.rest.dropWhile fun c => !isSpace c
    (word, { rest, eof := rest.isEmpty, fail := word.isEmpty })

/-- Extraction of a decimal number into `result`. All digits are taken, also of a number that
is out of range, for which the nearest bound is stored. -/
def getInt (result : Int32) (s : IStream) : Int32 × IStream :=
  let s := s.sentry
  if s.fail then (result, s)
  else
    let (sign, body) := takeSign s.rest
    let digits := body.takeWhile isDigit
    let rest := body.dropWhile isDigit
    let n := sign.apply (value digits)
    (Int32.ofIntClamp n, { rest, eof := rest.isEmpty, fail := digits.isEmpty || !InRange n })

end IStream

/-- Insertion of a number. -/
def putInt (n : Int32) : List UInt8 :=
  if n.toInt < 0 then '-'.toUInt8 :: numeral 10 n.toInt.natAbs else numeral 10 n.toInt.natAbs

/-! ### Digits -/

theorem isDigit_digit {d : ℕ} (h : d < 10) : isDigit (digit d) = true := by
  interval_cases d <;> rfl

theorem toNat_digit {d : ℕ} (h : d < 10) : (digit d).toNat - 48 = d := by
  interval_cases d <;> rfl

theorem isDigit_of_mem_numeral {n : ℕ} {c : UInt8} (h : c ∈ numeral 10 n) : isDigit c = true := by
  obtain ⟨d, hd, rfl⟩ := exists_digit_of_mem (by decide) h
  exact isDigit_digit hd

theorem value_append_singleton (ds : List UInt8) (c : UInt8) :
    value (ds ++ [c]) = 10 * value ds + (c.toNat - 48) := by
  rw [value, List.foldl_append]
  rfl

/-- A numeral stands for its number. -/
theorem value_numeral (n : ℕ) : value (numeral 10 n) = n := by
  induction n using Nat.strong_induction_on with
  | _ n ih =>
      rcases Nat.lt_or_ge n 10 with hlt | hge
      · have hdigit := toNat_digit hlt
        rw [numeral_of_lt hlt]
        show 10 * 0 + ((digit n).toNat - 48) = n
        omega
      · have hdigit := toNat_digit (Nat.mod_lt n (show 10 > 0 by decide))
        rw [numeral_of_le (by decide) hge, value_append_singleton,
          ih (n / 10) (Nat.div_lt_self (by omega) (by decide)), hdigit, Nat.div_add_mod]

theorem isSpace_of_isDigit {c : UInt8} (h : isDigit c = true) : isSpace c = false := by
  rw [isDigit, Bool.and_eq_true, decide_eq_true_iff, UInt8.le_iff_toNat_le] at h
  have hlow : 48 ≤ c.toNat := h.1
  have hspace : c ≠ 32 := by rintro rfl; revert hlow; decide
  have hhigh : ¬c ≤ 13 := by
    rw [UInt8.le_iff_toNat_le]
    show ¬c.toNat ≤ 13
    omega
  rw [isSpace, decide_eq_false hspace, decide_eq_false hhigh, Bool.and_false, Bool.or_false]

/-! ### A number in a text -/

/-- A number as an extraction reads it: blanks, a sign and digits. -/
structure NumberText where
  blanks : List UInt8
  sign : Sign
  digits : List UInt8
  blank : ∀ c ∈ blanks, isSpace c = true
  digit : ∀ c ∈ digits, isDigit c = true
  ne_nil : digits ≠ []

namespace NumberText

def text (t : NumberText) : List UInt8 := t.blanks ++ (t.sign.text ++ t.digits)

def number (t : NumberText) : ℤ := t.sign.apply (value t.digits)

theorem blank_nil : ∀ c ∈ ([] : List UInt8), isSpace c = true := List.forall_mem_nil _

/-- The text of an inserted number. -/
def ofInt (n : Int32) : NumberText where
  blanks := []
  sign := if n.toInt < 0 then .minus else .none
  digits := numeral 10 n.toInt.natAbs
  blank := blank_nil
  digit _ := isDigit_of_mem_numeral
  ne_nil := numeral_ne_nil

theorem text_ofInt (n : Int32) : (ofInt n).text = putInt n := by
  rw [text, ofInt, putInt]
  split_ifs with h
  · rfl
  · rfl

theorem number_ofInt (n : Int32) : (ofInt n).number = n.toInt := by
  rw [number, ofInt, value_numeral]
  split_ifs with h
  · show -(n.toInt.natAbs : ℤ) = n.toInt
    omega
  · show (n.toInt.natAbs : ℤ) = n.toInt
    omega

end NumberText

theorem inRange_toInt (n : Int32) : InRange n.toInt := ⟨n.le_toInt, n.toInt_lt⟩

theorem toInt_ofIntClamp {z : ℤ} (h : InRange z) : (Int32.ofIntClamp z).toInt = z :=
  Int32.toInt_ofIntClamp h.1 (Int.le_of_lt_add_one h.2)

/-! ### What an extraction leaves -/

theorem dropWhile_eq_self {p : UInt8 → Bool} {cs : List UInt8} (h : ∀ c ∈ cs.head?, p c = false) :
    cs.dropWhile p = cs := by
  cases cs with
  | nil => rfl
  | cons c cs => exact List.dropWhile_cons_of_neg (by simp [h c rfl])

theorem takeWhile_eq_nil {p : UInt8 → Bool} {cs : List UInt8} (h : ∀ c ∈ cs.head?, p c = false) :
    cs.takeWhile p = [] := by
  cases cs with
  | nil => rfl
  | cons c cs => exact List.takeWhile_cons_of_neg (by simp [h c rfl])

theorem takeSign_digits {ds : List UInt8} (sign : Sign) (h : ∀ c ∈ ds.head?, isDigit c = true) :
    takeSign (sign.text ++ ds) = (sign, ds) := by
  cases sign with
  | none =>
      cases ds with
      | nil => rfl
      | cons c ds =>
          have hc := h c rfl
          have hplus : c ≠ '+'.toUInt8 := by rintro rfl; cases hc
          have hminus : c ≠ '-'.toUInt8 := by rintro rfl; cases hc
          show (if c = '+'.toUInt8 then _ else _) = _
          rw [if_neg hplus, if_neg hminus]
  | plus => rfl
  | minus => rfl

/-- Blanks in front of text are skipped. -/
theorem sentry_blanks (blanks : List UInt8) {cs : List UInt8}
    (hblank : ∀ c ∈ blanks, isSpace c = true) (hne : cs ≠ [])
    (hhead : ∀ c ∈ cs.head?, isSpace c = false) :
    IStream.sentry { rest := blanks ++ cs } = { rest := cs } := by
  have hdrop : (blanks ++ cs).dropWhile isSpace = cs := by
    rw [List.dropWhile_append_of_pos hblank, dropWhile_eq_self hhead]
  show IStream.mk ((blanks ++ cs).dropWhile isSpace) _ _ = _
  rw [hdrop, List.isEmpty_eq_false_iff.mpr hne]

theorem head_digits (t : NumberText) (after : List UInt8) :
    ∀ c ∈ (t.digits ++ after).head?, isDigit c = true := by
  obtain ⟨d, ds, hds⟩ := List.exists_cons_of_ne_nil t.ne_nil
  intro c hc
  rw [hds] at hc
  obtain rfl := Option.some.inj hc
  exact t.digit _ (by rw [hds]; exact List.mem_cons_self)

theorem head_sign_digits (t : NumberText) (after : List UInt8) :
    ∀ c ∈ (t.sign.text ++ (t.digits ++ after)).head?, isSpace c = false := by
  intro c hc
  cases hsign : t.sign with
  | none =>
      rw [hsign] at hc
      exact isSpace_of_isDigit (head_digits t after c hc)
  | plus =>
      rw [hsign] at hc
      obtain rfl := Option.some.inj hc
      rfl
  | minus =>
      rw [hsign] at hc
      obtain rfl := Option.some.inj hc
      rfl

/-- A number is read up to the first character that is no digit. -/
theorem getInt_number (t : NumberText) (result : Int32) (after : List UInt8)
    (hafter : ∀ c ∈ after.head?, isDigit c = false) :
    IStream.getInt result { rest := t.text ++ after } =
      (Int32.ofIntClamp t.number,
        { rest := after, eof := after.isEmpty, fail := !InRange t.number }) := by
  have htext : t.text ++ after = t.blanks ++ (t.sign.text ++ (t.digits ++ after)) := by
    rw [NumberText.text, List.append_assoc, List.append_assoc]
  have hne : t.sign.text ++ (t.digits ++ after) ≠ [] := by simp [t.ne_nil]
  have hsign : takeSign (t.sign.text ++ (t.digits ++ after)) = (t.sign, t.digits ++ after) :=
    takeSign_digits t.sign (head_digits t after)
  have htake : (t.digits ++ after).takeWhile isDigit = t.digits := by
    rw [List.takeWhile_append_of_pos t.digit, takeWhile_eq_nil hafter, List.append_nil]
  have hdrop : (t.digits ++ after).dropWhile isDigit = after := by
    rw [List.dropWhile_append_of_pos t.digit, dropWhile_eq_self hafter]
  rw [IStream.getInt, htext, sentry_blanks t.blanks t.blank hne (head_sign_digits t after)]
  simp only [hsign, htake, hdrop, List.isEmpty_eq_false_iff.mpr t.ne_nil, Bool.false_or,
    Bool.false_eq_true, if_false]
  rfl

/-- An inserted number is read back, and the end of the text with it. -/
theorem getInt_putInt (n result : Int32) :
    IStream.getInt result { rest := putInt n } = (n, { rest := [], eof := true }) := by
  have hread := getInt_number (.ofInt n) result [] (by simp)
  rw [List.append_nil, NumberText.text_ofInt, NumberText.number_ofInt] at hread
  have hn : Int32.ofIntClamp n.toInt = n := Int32.toInt_inj.mp (toInt_ofIntClamp (inRange_toInt n))
  rw [hread, hn]
  simp [inRange_toInt n]

/-- A word is read to the end of the text. -/
theorem getString_word {word : List UInt8} (result : List UInt8) (hne : word ≠ [])
    (hword : ∀ c ∈ word, isSpace c = false) :
    IStream.getString result { rest := word } = (word, { rest := [], eof := true }) := by
  have hsentry : IStream.sentry { rest := word } = { rest := word } :=
    sentry_blanks [] (by simp) hne fun c hc => hword c (List.mem_of_mem_head? hc)
  have htake : word.takeWhile (fun c => !isSpace c) = word :=
    List.takeWhile_eq_self_iff.mpr fun c hc => by simp [hword c hc]
  have hdrop : word.dropWhile (fun c => !isSpace c) = [] :=
    List.dropWhile_eq_nil_iff.mpr fun c hc => by simp [hword c hc]
  rw [IStream.getString, hsentry]
  simp [htake, hdrop, hne]

/-- Skipping blanks runs into the end exactly if nothing else is left. -/
theorem ws_eof {s : IStream} :
    s.ws.eof = true ↔ s.eof = true ∨ ∀ c ∈ s.rest, isSpace c = true := by
  show (s.eof || (s.rest.dropWhile isSpace).isEmpty) = true ↔ _
  rw [Bool.or_eq_true, List.isEmpty_iff, List.dropWhile_eq_nil_iff]

end TextStreams
