import Mathlib.Data.List.FinRange
import Xzmjx.HttpParams

/-!
# URL coding

`UrlEncode` and `UrlDecode` copy lazily: `ss` is null as long as the output is what has been
read, and the first byte that is not copied as it is allocates it. `encoded` and `decoded`
say what comes out, without the copying.
-/
namespace Xzmjx.UrlCoding
open HttpParserModel HttpRequestModel

/-! ### The loops -/

/-- The entries of `uri_chars` that are not zero. `=` is one of them. -/
def uriChars : Bytes :=
  bytes "-.0123456789=ABCDEFGHIJKLMNOPQRSTUVWXYZ_abcdefghijklmnopqrstuvwxyz~"

def charIsUnreserved (c : UInt8) : Bool := c ∈ uriChars

def hexdigits : Bytes := bytes "0123456789ABCDEF"

/-- `hexdigits[i]` for an index that four bits make up. -/
def hexdigit (i : UInt8) : UInt8 := hexdigits.getD i.toNat 0

/-- What `UrlEncode` appends for a byte that is not unreserved. -/
def escape (spaceAsPlus : Bool) (c : UInt8) : Bytes :=
  if c = ' '.toUInt8 ∧ spaceAsPlus then ['+'.toUInt8]
  else ['%'.toUInt8, hexdigit (c >>> 4), hexdigit (c &&& 0xf)]

/-- The loop of `UrlEncode` behind the bytes `pre`. -/
def urlEncodeLoop (spaceAsPlus : Bool) : Bytes → Option Bytes → Bytes → Option Bytes
  | _, ss, [] => ss
  | pre, ss, c :: cs =>
      if charIsUnreserved c then urlEncodeLoop spaceAsPlus (pre ++ [c]) (ss.map (· ++ [c])) cs
      else urlEncodeLoop spaceAsPlus (pre ++ [c]) (some (ss.getD pre ++ escape spaceAsPlus c)) cs

/-- `StringUtil::UrlEncode`. -/
def urlEncode (str : Bytes) (spaceAsPlus : Bool) : Bytes :=
  (urlEncodeLoop spaceAsPlus [] none str).getD str

/-- The loop of `UrlDecode` behind the bytes `pre`. -/
def urlDecodeLoop (spaceAsPlus : Bool) : Bytes → Option Bytes → Bytes → Option Bytes
  | _, ss, [] => ss
  | pre, ss, c :: cs =>
      if c = '+'.toUInt8 ∧ spaceAsPlus then
        urlDecodeLoop spaceAsPlus (pre ++ [c]) (some (ss.getD pre ++ [' '.toUInt8])) cs
      else
        match cs with
        | a :: b :: rest =>
            if c = '%'.toUInt8 ∧ isxdigit a ∧ isxdigit b then
              urlDecodeLoop spaceAsPlus (pre ++ [c, a, b])
                (some (ss.getD pre ++ [xdigitChars a <<< 4 ||| xdigitChars b])) rest
            else urlDecodeLoop spaceAsPlus (pre ++ [c]) (ss.map (· ++ [c])) (a :: b :: rest)
        | cs => urlDecodeLoop spaceAsPlus (pre ++ [c]) (ss.map (· ++ [c])) cs

/-- `StringUtil::UrlDecode`. -/
def urlDecode (str : Bytes) (spaceAsPlus : Bool) : Bytes :=
  (urlDecodeLoop spaceAsPlus [] none str).getD str

/-! ### What comes out -/

def encoded (spaceAsPlus : Bool) (str : Bytes) : Bytes :=
  str.flatMap fun c => if charIsUnreserved c then [c] else escape spaceAsPlus c

def decoded (spaceAsPlus : Bool) : Bytes → Bytes
  | [] => []
  | c :: cs =>
      if c = '+'.toUInt8 ∧ spaceAsPlus then ' '.toUInt8 :: decoded spaceAsPlus cs
      else
        match cs with
        | a :: b :: rest =>
            if c = '%'.toUInt8 ∧ isxdigit a ∧ isxdigit b then
              (xdigitChars a <<< 4 ||| xdigitChars b) :: decoded spaceAsPlus rest
            else c :: decoded spaceAsPlus (a :: b :: rest)
        | cs => c :: decoded spaceAsPlus cs

/-- As long as nothing is allocated the output is what has been read. -/
theorem getD_map_append (pre : Bytes) (ss : Option Bytes) (c : UInt8) :
    (ss.map (· ++ [c])).getD (pre ++ [c]) = ss.getD pre ++ [c] := by
  cases ss <;> rfl

theorem urlEncodeLoop_eq (e : Bool) (pre : Bytes) (ss : Option Bytes) (str : Bytes) :
    (urlEncodeLoop e pre ss str).getD (pre ++ str) = ss.getD pre ++ encoded e str := by
  induction str generalizing pre ss with
  | nil => simp [urlEncodeLoop, encoded]
  | cons c cs ih =>
      have hpre : pre ++ c :: cs = (pre ++ [c]) ++ cs := by simp
      rw [urlEncodeLoop, hpre, encoded, List.flatMap_cons]
      split_ifs
      · rw [ih, getD_map_append, List.append_assoc, encoded]
      · rw [ih, Option.getD_some, List.append_assoc, encoded]

theorem urlEncode_eq (str : Bytes) (e : Bool) : urlEncode str e = encoded e str :=
  urlEncodeLoop_eq e [] none str

theorem urlDecodeLoop_eq (d : Bool) (pre : Bytes) (ss : Option Bytes) (str : Bytes) :
    (urlDecodeLoop d pre ss str).getD (pre ++ str) = ss.getD pre ++ decoded d str := by
  induction pre, ss, str using urlDecodeLoop.induct d with
  | case1 pre ss => simp [urlDecodeLoop, decoded]
  | case2 pre ss c cs hplus ih =>
      rw [decoded.eq_def, urlDecodeLoop.eq_def]
      simpa [hplus] using ih
  | case3 pre ss c hplus a b rest hesc ih =>
      rw [decoded.eq_def, urlDecodeLoop.eq_def]
      simpa only [if_neg hplus, if_pos hesc, List.append_assoc, Option.getD_some,
        List.cons_append, List.nil_append] using ih
  | case4 pre ss c hplus a b rest hesc ih =>
      rw [getD_map_append] at ih
      rw [decoded.eq_def, urlDecodeLoop.eq_def]
      simpa only [if_neg hplus, if_neg hesc, List.append_assoc, List.singleton_append] using ih
  | case5 pre ss c hplus cs hshort ih =>
      rw [getD_map_append] at ih
      rw [decoded.eq_def, urlDecodeLoop.eq_def]
      simpa only [if_neg hplus, List.append_assoc, List.singleton_append] using ih

theorem urlDecode_eq (str : Bytes) (d : Bool) : urlDecode str d = decoded d str :=
  urlDecodeLoop_eq d [] none str

/-- With the default of `space_as_plus`. -/
theorem urlDecode_true (str : Bytes) : urlDecode str true = HttpRequestModel.urlDecode str := by
  rw [urlDecode_eq]
  induction str using decoded.induct true with
  | case1 => rfl
  | case2 c cs hplus ih =>
      rw [decoded.eq_def, HttpRequestModel.urlDecode.eq_def]
      simp only [hplus, and_self, if_true, ih]
  | case3 c hplus a b rest hesc ih =>
      rw [decoded.eq_def, HttpRequestModel.urlDecode.eq_def]
      simp only [and_true] at hplus
      simp only [and_true, if_neg hplus, if_pos hesc, ih]
  | case4 c hplus a b rest hesc ih =>
      rw [decoded.eq_def, HttpRequestModel.urlDecode.eq_def]
      simp only [and_true] at hplus
      simp only [and_true, if_neg hplus, if_neg hesc, ih]
  | case5 c hplus cs hshort ih =>
      rw [decoded.eq_def, HttpRequestModel.urlDecode.eq_def]
      simp only [and_true] at hplus
      simp only [and_true, if_neg hplus, ih]

/-! ### Every byte comes back -/

/-- What holds of all 256 bytes can be checked byte for byte. -/
theorem forall_byte {p : UInt8 → Prop} (h : ∀ n < 256, p (UInt8.ofNat n)) (c : UInt8) : p c := by
  have hc := h c.toNat c.toNat_lt
  rwa [UInt8.ofNat_toNat] at hc

theorem unreserved_ne (c : UInt8) (h : charIsUnreserved c = true) :
    c ≠ '+'.toUInt8 ∧ c ≠ '%'.toUInt8 ∧ c ≠ '&'.toUInt8 ∧ c ≠ ';'.toUInt8 := by
  have hall : ∀ c ∈ uriChars,
      c ≠ '+'.toUInt8 ∧ c ≠ '%'.toUInt8 ∧ c ≠ '&'.toUInt8 ∧ c ≠ ';'.toUInt8 := by
    decide +kernel
  exact hall c (of_decide_eq_true h)

/-- The digit of a number below 16. -/
theorem hexdigit_spec {i : UInt8} (hi : i < 16) :
    isxdigit (hexdigit i) = true ∧ xdigitChars (hexdigit i) = i ∧ hexdigit i ∈ hexdigits := by
  have hall : ∀ n < 16, isxdigit (hexdigit (UInt8.ofNat n)) = true ∧
      xdigitChars (hexdigit (UInt8.ofNat n)) = UInt8.ofNat n ∧
        hexdigit (UInt8.ofNat n) ∈ hexdigits := by
    decide +kernel
  have hdigit := hall i.toNat (UInt8.lt_iff_toNat_lt.mp hi)
  rwa [UInt8.ofNat_toNat] at hdigit

theorem halves (c : UInt8) :
    c >>> 4 < 16 ∧ c &&& 0xf < 16 ∧ (c >>> 4) <<< 4 ||| c &&& 0xf = c := by
  apply forall_byte (p := fun c => _ ∧ _ ∧ _) ?_ c
  decide +kernel

/-- The two digits of a byte are digits, and give the byte. -/
theorem digits (c : UInt8) :
    isxdigit (hexdigit (c >>> 4)) = true ∧ isxdigit (hexdigit (c &&& 0xf)) = true ∧
      xdigitChars (hexdigit (c >>> 4)) <<< 4 ||| xdigitChars (hexdigit (c &&& 0xf)) = c ∧
      hexdigit (c >>> 4) ∈ hexdigits ∧ hexdigit (c &&& 0xf) ∈ hexdigits := by
  obtain ⟨hhigh, hlow, hbyte⟩ := halves c
  obtain ⟨hdigit, hvalue, hmem⟩ := hexdigit_spec hhigh
  obtain ⟨hdigit', hvalue', hmem'⟩ := hexdigit_spec hlow
  rw [hvalue, hvalue']
  exact ⟨hdigit, hdigit', hbyte, hmem, hmem'⟩

theorem decoded_unreserved {c : UInt8} (h : charIsUnreserved c = true) (d : Bool)
    (rest : Bytes) : decoded d (c :: rest) = c :: decoded d rest := by
  obtain ⟨hplus, hpercent, -, -⟩ := unreserved_ne c h
  rw [decoded.eq_def]
  dsimp only
  rw [if_neg fun hc => hplus hc.1]
  split
  · rw [if_neg fun hc => hpercent hc.1]
  · rfl

theorem decoded_escape {e d : Bool} (h : ¬(e = true ∧ d = false)) (c : UInt8) (rest : Bytes) :
    decoded d (escape e c ++ rest) = c :: decoded d rest := by
  rw [escape]
  split_ifs with hspace
  · obtain ⟨rfl, he⟩ := hspace
    have hd : d = true := by simpa [he] using h
    rw [List.singleton_append, decoded.eq_def]
    simp only [hd, and_self, if_true]
  · obtain ⟨hhigh, hlow, hbyte, -, -⟩ := digits c
    have hplus : ¬('%'.toUInt8 = '+'.toUInt8 ∧ d = true) := fun hc => absurd hc.1 (by decide)
    rw [List.cons_append, List.cons_append, List.singleton_append, decoded.eq_def]
    simp only [if_neg hplus, hhigh, hlow, and_self, if_true, hbyte]

theorem decoded_encoded {e d : Bool} (h : ¬(e = true ∧ d = false)) (str : Bytes) :
    decoded d (encoded e str) = str := by
  induction str with
  | nil => rw [encoded, List.flatMap_nil, decoded]
  | cons c cs ih =>
      rw [encoded, List.flatMap_cons]
      split_ifs with hc
      · rw [List.singleton_append, decoded_unreserved hc]
        exact congrArg _ ih
      · rw [decoded_escape h]
        exact congrArg _ ih

/-! ### Round trip -/

/-- The texts made of unreserved characters, of `+` for blanks and of escapes with upper-case
digits. -/
inductive Coded (spaceAsPlus : Bool) : Bytes → Prop
  | nil : Coded spaceAsPlus []
  | unreserved {c : UInt8} {cs : Bytes} (h : charIsUnreserved c = true)
      (rest : Coded spaceAsPlus cs) : Coded spaceAsPlus (c :: cs)
  | plus {cs : Bytes} (h : spaceAsPlus = true) (rest : Coded spaceAsPlus cs) :
      Coded spaceAsPlus ('+'.toUInt8 :: cs)
  | escape {a b : UInt8} {cs : Bytes} (ha : a ∈ hexdigits) (hb : b ∈ hexdigits)
      (rest : Coded spaceAsPlus cs) : Coded spaceAsPlus ('%'.toUInt8 :: a :: b :: cs)

theorem coded_encoded (e : Bool) (str : Bytes) : Coded e (encoded e str) := by
  induction str with
  | nil => exact .nil
  | cons c cs ih =>
      rw [encoded, List.flatMap_cons]
      split_ifs with hc
      · exact .unreserved hc ih
      · rw [UrlCoding.escape]
        split_ifs with hspace
        · exact .plus hspace.2 ih
        · obtain ⟨-, -, -, hhigh, hlow⟩ := digits c
          exact .escape hhigh hlow ih

/-- No text of this form has a byte that could end a parameter. -/
theorem Coded.not_mem {e : Bool} {text : Bytes} (h : Coded e text) :
    '&'.toUInt8 ∉ text ∧ ';'.toUInt8 ∉ text := by
  have hdigit : ∀ a ∈ hexdigits, a ≠ '&'.toUInt8 ∧ a ≠ ';'.toUInt8 := by decide +kernel
  induction h with
  | nil => simp
  | @unreserved c cs hc rest ih =>
      obtain ⟨-, -, hamp, hsemi⟩ := unreserved_ne c hc
      simp [hamp.symm, hsemi.symm, ih.1, ih.2]
  | plus he rest ih =>
      rw [List.mem_cons, List.mem_cons, not_or, not_or]
      exact ⟨⟨by decide, ih.1⟩, by decide, ih.2⟩
  | @escape a b cs ha hb rest ih =>
      simp only [List.mem_cons, not_or]
      exact ⟨⟨by decide, (hdigit a ha).1.symm, (hdigit b hb).1.symm, ih.1⟩,
        by decide, (hdigit a ha).2.symm, (hdigit b hb).2.symm, ih.2⟩

/-- `UrlDecode` undoes `UrlEncode` for every byte string, unless blanks are written as `+` and
not read back as blanks. -/
theorem url_round_trip :
    (∀ (str : Bytes) (e d : Bool), ¬(e = true ∧ d = false) →
      urlDecode (urlEncode str e) d = str) ∧
    ∀ (str : Bytes) (e : Bool), Coded e (urlEncode str e) := by
  constructor
  · intro str e d h
    rw [urlDecode_eq, urlEncode_eq, decoded_encoded h]
  · intro str e
    rw [urlEncode_eq]
    exact coded_encoded e str

/-- A blank, a plus, a percent sign and a byte above the ASCII range. -/
theorem url_round_trip_specials :
    urlDecode (urlEncode (bytes "a +%" ++ [0xff]) true) true = bytes "a +%" ++ [0xff] ∧
      urlEncode (bytes "a +%" ++ [0xff]) true = bytes "a+%2B%25%FF" :=
  ⟨url_round_trip.1 _ true true (by decide), by decide +kernel⟩

end Xzmjx.UrlCoding
