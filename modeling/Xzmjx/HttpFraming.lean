import Xzmjx.HttpDump

/-!
# How a dumped message is framed

A reader of the message splits its header section at CRLF and takes of each line the name before
the first colon, in any case, and the value behind it. The fields that `dump` generates meet
there whatever the map of headers holds.
-/
namespace Xzmjx.HttpRequestModel
open HttpParserModel

/-! ### Reading a header section -/

/-- The lines of a text, cut at CRLF. -/
def splitLines : Bytes → List Bytes
  | [] => []
  | [b] => [[b]]
  | b :: c :: rest =>
      if b = CR ∧ c = LF then [] :: splitLines rest
      else
        match splitLines (c :: rest) with
        | [] => [[b]]
        | l :: ls => (b :: l) :: ls

def fieldName (line : Bytes) : Bytes := (line.takeWhile (· ≠ ':'.toUInt8)).map tolower

/-- The value of a field, without the blanks around it. -/
def fieldValue (line : Bytes) : Bytes := trim ((line.dropWhile (· ≠ ':'.toUInt8)).drop 1)

def isContentLength (line : Bytes) : Bool := fieldName line = bytes "content-length"

def namesConnection (line : Bytes) : Bool := fieldName line = bytes "connection"

/-- The fields of a message with the given body: one length at most, the right one, and not
missing; one field for the connection. -/
structure Framed (websocket : Bool) (body : Bytes) (lines : List Bytes) : Prop where
  one_length : lines.countP isContentLength ≤ 1
  length_value : ∀ l ∈ lines, isContentLength l → fieldValue l = decimal body.length
  length_present : body ≠ [] → ∃ l ∈ lines, isContentLength l
  one_connection : websocket = false → lines.countP namesConnection = 1

/-- The condition on the headers. -/
structure Unambiguous (websocket : Bool) (body : Bytes) (headers : MapType) : Prop where
  body_length : body ≠ [] → ∀ h ∈ headers, ¬isContentLength h.1
  zero_length : body = [] → (headers.countP fun h => isContentLength h.1) ≤ 1 ∧
    ∀ h ∈ headers, isContentLength h.1 → fieldValue (headerLine h) = decimal 0
  connection : websocket = false → ∀ h ∈ headers, namesConnection h.1 → isConnection h.1

/-- No line end inside a text. -/
def Clean (s : Bytes) : Prop := CR ∉ s ∧ LF ∉ s

def CleanHeaders (headers : MapType) : Prop := ∀ h ∈ headers, Clean h.1 ∧ Clean h.2

/-- Lines that each end with CRLF. -/
def joinLines (lines : List Bytes) : Bytes := lines.flatMap fun l => l ++ CRLF

section Lines
variable {l rest : Bytes}

theorem splitLines_append (h : CR ∉ l) (rest : Bytes) :
    splitLines (l ++ (CR :: LF :: rest)) = l :: splitLines rest := by
  induction l with
  | nil => rw [List.nil_append, splitLines, if_pos ⟨rfl, rfl⟩]
  | cons b l ih =>
      rw [List.mem_cons, not_or] at h
      have hlast := ih h.2
      cases l with
      | nil =>
          rw [List.nil_append] at hlast
          rw [List.cons_append, List.nil_append, splitLines, if_neg fun hb => h.1 hb.1.symm, hlast]
      | cons c l =>
          rw [List.cons_append] at hlast
          rw [List.cons_append, List.cons_append, splitLines, if_neg fun hb => h.1 hb.1.symm, hlast]

theorem splitLines_joinLines {lines : List Bytes} (h : ∀ l ∈ lines, CR ∉ l) :
    splitLines (joinLines lines) = lines := by
  induction lines with
  | nil => rfl
  | cons l lines ih =>
      have hsplit := splitLines_append (h l List.mem_cons_self) (joinLines lines)
      have htail := ih fun l' hl' => h l' (List.mem_cons_of_mem _ hl')
      have hjoin : joinLines (l :: lines) = l ++ (CR :: LF :: joinLines lines) := by
        rw [joinLines, List.flatMap_cons, List.append_assoc]
        rfl
      rw [hjoin, hsplit, htail]

theorem splitLines_line_end (rest : Bytes) :
    splitLines (CR :: LF :: rest) = [] :: splitLines rest := by
  rw [splitLines, if_pos ⟨rfl, rfl⟩]

theorem splitLines_cons_ne_nil (b : UInt8) (bs : Bytes) : splitLines (b :: bs) ≠ [] := by
  cases bs with
  | nil => exact List.cons_ne_nil _ _
  | cons c bs =>
      rw [splitLines]
      split_ifs
      · exact List.cons_ne_nil _ _
      · split <;> exact List.cons_ne_nil _ _

/-- Whatever stands before a line end, the lines behind it are those of the rest. -/
theorem splitLines_crlf :
    ∀ t rest : Bytes,
      splitLines (t ++ (CR :: LF :: rest)) = splitLines (t ++ CRLF) ++ splitLines rest
  | [], rest => splitLines_line_end rest
  | [b], rest => by
      have hend : ¬(b = CR ∧ CR = LF) := fun h => absurd h.2 (by decide)
      have hline : ∀ rest, splitLines (b :: CR :: LF :: rest) = [b] :: splitLines rest := by
        intro rest
        rw [splitLines, if_neg hend, splitLines_line_end]
      exact (hline rest).trans (congrArg (· ++ splitLines rest) (hline []).symm)
  | b :: c :: t, rest => by
      rw [List.cons_append, List.cons_append, List.cons_append, List.cons_append, splitLines,
        splitLines]
      by_cases hend : b = CR ∧ c = LF
      · rw [if_pos hend, if_pos hend, splitLines_crlf t rest, List.cons_append]
      · have hrest := splitLines_crlf (c :: t) rest
        rw [List.cons_append, List.cons_append] at hrest
        rw [if_neg hend, if_neg hend, hrest]
        cases hlines : splitLines (c :: (t ++ CRLF)) with
        | nil => exact absurd hlines (splitLines_cons_ne_nil _ _)
        | cons l ls => rfl

theorem splitLines_joinLines_append (ls : List Bytes) (rest : Bytes) :
    splitLines (joinLines ls ++ rest) = splitLines (joinLines ls) ++ splitLines rest := by
  induction ls with
  | nil => rfl
  | cons l ls ih =>
      have hline : ∀ rest,
          joinLines (l :: ls) ++ rest = l ++ CR :: LF :: (joinLines ls ++ rest) := by
        intro rest
        rw [joinLines, List.flatMap_cons, List.append_assoc, List.append_assoc]
        rfl
      have hend := hline []
      rw [List.append_nil, List.append_nil] at hend
      rw [hline, hend, splitLines_crlf, splitLines_crlf l (joinLines ls), ih, List.append_assoc]

theorem joinLines_append (xs ys : List Bytes) :
    joinLines (xs ++ ys) = joinLines xs ++ joinLines ys := List.flatMap_append

/-- The name of a header is read from its key alone. -/
theorem fieldName_headerLine (h : Bytes × Bytes) : fieldName (headerLine h) = fieldName h.1 := by
  have hstop : (bytes ": " ++ h.2).takeWhile (· ≠ ':'.toUInt8) = [] := rfl
  rw [fieldName, fieldName, headerLine, List.append_assoc, List.takeWhile_append, hstop,
    List.append_nil]
  split_ifs with hall
  · rw [(List.takeWhile_prefix _).eq_of_length hall]
  · rfl

theorem decimal_digit {n : ℕ} {c : UInt8} (h : c ∈ decimal n) : 48 ≤ c ∧ c ≤ 57 := by
  obtain ⟨d, hd, rfl⟩ := List.mem_map.mp h
  rw [Nat.toList_repr] at hd
  have hdigit := Nat.isDigit_of_mem_toDigits (by decide) (by decide) hd
  rw [Char.isDigit, Bool.and_eq_true, decide_eq_true_iff, decide_eq_true_iff] at hdigit
  obtain ⟨hlow, hhigh⟩ := hdigit
  have hlow' : 48 ≤ d.val.toNat := hlow
  have hhigh' : d.val.toNat ≤ 57 := hhigh
  have hval : d.toUInt8.toNat = d.val.toNat := by
    rw [Char.toUInt8, UInt32.toNat_toUInt8]
    omega
  rw [UInt8.le_iff_toNat_le, UInt8.le_iff_toNat_le, hval]
  exact ⟨hlow', hhigh'⟩

theorem decimal_not_blank {n : ℕ} {c : UInt8} (h : c ∈ decimal n) : isBlank c = false := by
  obtain ⟨hlow, hhigh⟩ := decimal_digit h
  rw [UInt8.le_iff_toNat_le] at hlow hhigh
  have hne : ∀ b : UInt8, b.toNat < 48 → decide (c = b) = false := by
    intro b hb
    apply decide_eq_false
    rintro rfl
    exact absurd hlow (not_le.mpr hb)
  rw [isBlank, hne _ (by decide), hne _ (by decide), hne _ (by decide), hne _ (by decide)]
  rfl

theorem cr_not_mem_decimal (n : ℕ) : CR ∉ decimal n := by
  intro h
  have hblank := decimal_not_blank h
  revert hblank
  decide

/-- A text without blanks is not trimmed. -/
theorem trim_of_not_blank {s : Bytes} (h : ∀ c ∈ s, isBlank c = false) : trim s = s := by
  have hdrop : s.dropWhile isBlank = s := by
    apply List.dropWhile_eq_self_iff.mpr
    intro hl hblank
    rw [h _ (List.getElem_mem hl)] at hblank
    cases hblank
  rw [trim, hdrop]
  apply List.rdropWhile_eq_self_iff.mpr
  intro hne hblank
  rw [h _ (List.getLast_mem hne)] at hblank
  cases hblank

theorem fieldValue_lengthLine (body : Bytes) :
    fieldValue (lengthLine body) = decimal body.length := by
  have hvalue : fieldValue (lengthLine body) = trim (decimal body.length) := rfl
  rw [hvalue]
  exact trim_of_not_blank fun c hc => decimal_not_blank hc

theorem fieldName_lengthLine (body : Bytes) :
    fieldName (lengthLine body) = bytes "content-length" := rfl

theorem fieldName_connectionLine (close : Bool) :
    fieldName (connectionLine close) = bytes "connection" := rfl

theorem fieldName_cookieLine (cookie : Bytes) :
    fieldName (cookieLine cookie) = bytes "set-cookie" := rfl

end Lines

/-! ### Generated and written fields -/

/-- The fields that are generated, around the lines `ls`. -/
def connectionLines (websocket close : Bool) : List Bytes :=
  if websocket then [] else [connectionLine close]

def lengthLines (body : Bytes) : List Bytes := if body ≠ [] then [lengthLine body] else []

/-- The lines of the headers that are not skipped. -/
def headerLines (websocket : Bool) (headers : MapType) : List Bytes :=
  (headers.filter fun h => websocket || !isConnection h.1).map headerLine

/-- Lines that may stand beside the generated fields. -/
structure Apart (websocket : Bool) (body : Bytes) (ls : List Bytes) : Prop where
  body_length : body ≠ [] → ∀ l ∈ ls, ¬isContentLength l
  zero_length : body = [] → ls.countP isContentLength ≤ 1 ∧
    ∀ l ∈ ls, isContentLength l → fieldValue l = decimal 0
  connection : websocket = false → ∀ l ∈ ls, ¬namesConnection l

theorem Framed.perm {websocket : Bool} {body : Bytes} {ls ls' : List Bytes}
    (h : Framed websocket body ls) (hp : ls.Perm ls') : Framed websocket body ls' where
  one_length := by
    rw [← hp.countP_eq]
    exact h.one_length
  length_value l hl := h.length_value l (hp.mem_iff.mpr hl)
  length_present hbody := by
    obtain ⟨l, hl, hname⟩ := h.length_present hbody
    exact ⟨l, hp.mem_iff.mp hl, hname⟩
  one_connection hws := by
    rw [← hp.countP_eq]
    exact h.one_connection hws

section Generated
variable {websocket close : Bool} {body : Bytes} {ls : List Bytes}

theorem not_isContentLength_connectionLines {l : Bytes}
    (hl : l ∈ connectionLines websocket close) : ¬isContentLength l := by
  cases websocket with
  | true => cases hl
  | false =>
      obtain rfl := List.mem_singleton.mp hl
      rw [isContentLength, fieldName_connectionLine]
      decide

theorem not_namesConnection_lengthLines {l : Bytes} (hl : l ∈ lengthLines body) :
    ¬namesConnection l := by
  rw [lengthLines] at hl
  split_ifs at hl
  · obtain rfl := List.mem_singleton.mp hl
    rw [namesConnection, fieldName_lengthLine]
    decide
  · cases hl

theorem countP_lengthLines (body : Bytes) :
    (lengthLines body).countP isContentLength = if body ≠ [] then 1 else 0 := by
  rw [lengthLines]
  split_ifs with hbody
  · exact List.countP_singleton.trans (if_pos rfl)
  · rfl

/-- Of the generated fields only the last is one for the length. -/
theorem countP_isContentLength (websocket close : Bool) (body : Bytes) (ls : List Bytes) :
    (connectionLines websocket close ++ ls ++ lengthLines body).countP isContentLength =
      ls.countP isContentLength + if body ≠ [] then 1 else 0 := by
  rw [List.countP_append, List.countP_append, countP_lengthLines,
    List.countP_eq_zero.mpr fun _ hl => not_isContentLength_connectionLines hl, Nat.zero_add]

/-- Of the generated fields only the first is one for the connection. -/
theorem countP_namesConnection (close : Bool) (body : Bytes) (ls : List Bytes) :
    (connectionLines false close ++ ls ++ lengthLines body).countP namesConnection =
      1 + ls.countP namesConnection := by
  have hfirst : (connectionLines false close).countP namesConnection = 1 := rfl
  rw [List.countP_append, List.countP_append, hfirst,
    List.countP_eq_zero.mpr fun _ hl => not_namesConnection_lengthLines hl, Nat.add_zero]

theorem Framed.apart
    (h : Framed websocket body (connectionLines websocket close ++ ls ++ lengthLines body)) :
    Apart websocket body ls := by
  have hone := h.one_length
  rw [countP_isContentLength] at hone
  refine ⟨fun hbody => ?_, fun hbody => ⟨by omega, fun l hl hname => ?_⟩, fun hws => ?_⟩
  · rw [if_pos hbody] at hone
    exact List.countP_eq_zero.mp (by omega)
  · have hvalue := h.length_value l
      (List.mem_append_left _ (List.mem_append_right _ hl)) hname
    rwa [hbody, List.length_nil] at hvalue
  · have hconnection := h.one_connection hws
    rw [hws, countP_namesConnection] at hconnection
    exact List.countP_eq_zero.mp (by omega)

theorem Apart.framed (h : Apart websocket body ls) :
    Framed websocket body (connectionLines websocket close ++ ls ++ lengthLines body) := by
  refine ⟨?_, fun l hl hname => ?_, fun hbody => ?_, fun hws => ?_⟩
  · rw [countP_isContentLength]
    split_ifs with hbody
    · rw [List.countP_eq_zero.mpr (h.body_length hbody)]
    · exact (h.zero_length (not_not.mp hbody)).1
  · rw [List.mem_append, List.mem_append] at hl
    rcases hl with (hl | hl) | hl
    · exact absurd hname (not_isContentLength_connectionLines hl)
    · by_cases hbody : body = []
      · rw [(h.zero_length hbody).2 l hl hname, hbody, List.length_nil]
      · exact absurd hname (h.body_length hbody l hl)
    · rw [lengthLines] at hl
      split_ifs at hl
      · obtain rfl := List.mem_singleton.mp hl
        exact fieldValue_lengthLine body
      · cases hl
  · refine ⟨lengthLine body, ?_, rfl⟩
    rw [lengthLines, if_pos hbody]
    exact List.mem_append_right _ (List.mem_singleton_self _)
  · rw [hws, countP_namesConnection, List.countP_eq_zero.mpr (h.connection hws)]

theorem framed_iff_apart (websocket close : Bool) (body : Bytes) (ls : List Bytes) :
    Framed websocket body (connectionLines websocket close ++ ls ++ lengthLines body) ↔
      Apart websocket body ls :=
  ⟨Framed.apart, Apart.framed⟩

/-- A key that `strcasecmp` holds equal to `connection` does not read as the length. -/
theorem not_isContentLength {key : Bytes} (h : isConnection key) : ¬isContentLength key := by
  intro hlen
  have hprefix : ∀ {p : UInt8 → Bool} {name : Bytes} {c : UInt8},
      (key.takeWhile p).map tolower = name → name[3]? = some c →
        (key[3]?).map tolower = some c := by
    rintro p name c rfl hc
    rw [List.getElem?_map] at hc
    obtain ⟨b, hb, rfl⟩ := Option.map_eq_some_iff.mp hc
    obtain ⟨hlt, rfl⟩ := List.getElem?_eq_some_iff.mp hb
    rw [List.prefix_iff_getElem?.mp (List.takeWhile_prefix p) 3 hlt]
    rfl
  have hn := hprefix (decide_eq_true_iff.mp h) (c := 'n'.toUInt8) rfl
  have ht := hprefix (decide_eq_true_iff.mp hlen) (c := 't'.toUInt8) rfl
  rw [hn] at ht
  revert ht
  decide

theorem isContentLength_headerLine (h : Bytes × Bytes) :
    isContentLength (headerLine h) = isContentLength h.1 := by
  rw [isContentLength, isContentLength, fieldName_headerLine]

theorem namesConnection_headerLine (h : Bytes × Bytes) :
    namesConnection (headerLine h) = namesConnection h.1 := by
  rw [namesConnection, namesConnection, fieldName_headerLine]

section Headers
variable {headers : MapType} {h : Bytes × Bytes} {more : List Bytes}

/-- A header that is not skipped is written. -/
theorem mem_headerLines (hh : h ∈ headers) (hkept : ¬isConnection h.1) :
    headerLine h ∈ headerLines websocket headers := by
  apply List.mem_map_of_mem
  rw [List.mem_filter, Bool.eq_false_iff.mpr hkept]
  exact ⟨hh, Bool.or_true _⟩

/-- No header that reads as the length is skipped. -/
theorem countP_headerLines (websocket : Bool) (headers : MapType) :
    (headerLines websocket headers).countP isContentLength =
      headers.countP fun h => isContentLength h.1 := by
  rw [headerLines, List.countP_map, List.countP_filter]
  apply List.countP_congr
  intro h _
  rw [Function.comp_apply, isContentLength_headerLine, Bool.and_eq_true]
  refine and_iff_left_of_imp fun hlen => ?_
  rw [Bool.eq_false_iff.mpr fun hc => not_isContentLength hc hlen, Bool.not_false, Bool.or_true]

theorem Apart.unambiguous (hapart : Apart websocket body (headerLines websocket headers ++ more)) :
    Unambiguous websocket body headers := by
  have hmem : ∀ h ∈ headers, isContentLength h.1 →
      headerLine h ∈ headerLines websocket headers ++ more := fun h hh hlen =>
    List.mem_append_left _ (mem_headerLines hh fun hc => not_isContentLength hc hlen)
  refine ⟨fun hbody h hh hlen => ?_, fun hbody => ⟨?_, fun h hh hlen => ?_⟩,
    fun hws h hh hconn => ?_⟩
  · apply hapart.body_length hbody _ (hmem h hh hlen)
    rwa [isContentLength_headerLine]
  · have hone := (hapart.zero_length hbody).1
    rw [List.countP_append, countP_headerLines] at hone
    omega
  · apply (hapart.zero_length hbody).2 _ (hmem h hh hlen)
    rwa [isContentLength_headerLine]
  · by_contra hkept
    apply hapart.connection hws _ (List.mem_append_left _ (mem_headerLines hh hkept))
    rwa [namesConnection_headerLine]

theorem Unambiguous.apart (hheaders : Unambiguous websocket body headers)
    (hlen : ∀ l ∈ more, ¬isContentLength l) (hconn : ∀ l ∈ more, ¬namesConnection l) :
    Apart websocket body (headerLines websocket headers ++ more) := by
  refine ⟨fun hbody l hl => ?_, fun hbody => ⟨?_, fun l hl hname => ?_⟩, fun hws l hl => ?_⟩
  · rcases List.mem_append.mp hl with hl | hl
    · obtain ⟨h, hh, rfl⟩ := List.mem_map.mp hl
      rw [isContentLength_headerLine]
      exact hheaders.body_length hbody h (List.mem_filter.mp hh).1
    · exact hlen l hl
  · rw [List.countP_append, List.countP_eq_zero.mpr hlen, countP_headerLines]
    exact (hheaders.zero_length hbody).1
  · rcases List.mem_append.mp hl with hl | hl
    · obtain ⟨h, hh, rfl⟩ := List.mem_map.mp hl
      rw [isContentLength_headerLine] at hname
      exact (hheaders.zero_length hbody).2 h (List.mem_filter.mp hh).1 hname
    · exact absurd hname (hlen l hl)
  · rcases List.mem_append.mp hl with hl | hl
    · obtain ⟨h, hh, rfl⟩ := List.mem_map.mp hl
      obtain ⟨hin, hkept⟩ := List.mem_filter.mp hh
      rw [hws, Bool.false_or, Bool.not_eq_true'] at hkept
      rw [namesConnection_headerLine]
      intro hnamed
      rw [hheaders.connection hws h hin hnamed] at hkept
      cases hkept
    · exact hconn l hl

end Headers

/-- Headers, and lines that are no fields of either kind. -/
theorem apart_headers_iff (websocket : Bool) (body : Bytes) (headers : MapType)
    {more : List Bytes} (hmore : ∀ l ∈ more, fieldName l = bytes "set-cookie") :
    Apart websocket body (headerLines websocket headers ++ more) ↔
      Unambiguous websocket body headers := by
  have hlen : ∀ l ∈ more, ¬isContentLength l := by
    intro l hl
    rw [isContentLength, hmore l hl]
    decide
  have hconn : ∀ l ∈ more, ¬namesConnection l := by
    intro l hl
    rw [namesConnection, hmore l hl]
    decide
  exact ⟨Apart.unambiguous, fun hheaders => hheaders.apart hlen hconn⟩

end Generated

/-! ### The header sections -/

theorem writeConnection_eq (websocket close : Bool) :
    writeConnection websocket close = joinLines (connectionLines websocket close) := by
  cases websocket with
  | true => rfl
  | false => rw [writeConnection, connectionLines, if_neg Bool.false_ne_true,
      if_neg Bool.false_ne_true, joinLines, List.flatMap_singleton]

theorem writeHeaders_eq (websocket : Bool) (headers : MapType) :
    writeHeaders websocket headers = joinLines (headerLines websocket headers) := by
  rw [writeHeaders, joinLines, headerLines, List.flatMap_map]
  induction headers with
  | nil => rfl
  | cons h headers ih =>
      rw [List.flatMap_cons, ih, List.filter_cons]
      cases websocket with
      | true => rfl
      | false => cases isConnection h.1 <;> rfl

/-- The length field and its line end. -/
def writeLength (body : Bytes) : Bytes := if body ≠ [] then lengthLine body ++ CRLF else []

theorem writeLength_eq (body : Bytes) : writeLength body = joinLines (lengthLines body) := by
  rw [writeLength, lengthLines]
  split_ifs
  · rw [joinLines, List.flatMap_singleton]
  · rfl

theorem writeBody_eq (body : Bytes) : writeBody body = writeLength body ++ CRLF ++ body := by
  rw [writeBody, writeLength]
  split_ifs with hbody
  · rfl
  · rw [not_not.mp hbody, List.nil_append, List.append_nil]

instance (s : Bytes) : Decidable (Clean s) := inferInstanceAs (Decidable (_ ∧ _))

instance (headers : MapType) : Decidable (CleanHeaders headers) :=
  inferInstanceAs (Decidable (∀ h ∈ headers, Clean h.1 ∧ Clean h.2))

section Clean
variable {websocket close : Bool} {body : Bytes} {headers : MapType}

theorem cr_not_mem_append {xs ys : Bytes} (hx : CR ∉ xs) (hy : CR ∉ ys) : CR ∉ xs ++ ys := by
  rw [List.mem_append, not_or]
  exact ⟨hx, hy⟩

theorem cr_not_mem_connectionLines {l : Bytes} (hl : l ∈ connectionLines websocket close) :
    CR ∉ l := by
  cases websocket with
  | true => cases hl
  | false =>
      obtain rfl := List.mem_singleton.mp hl
      cases close <;> decide

theorem cr_not_mem_lengthLines {l : Bytes} (hl : l ∈ lengthLines body) : CR ∉ l := by
  rw [lengthLines] at hl
  split_ifs at hl
  · obtain rfl := List.mem_singleton.mp hl
    exact cr_not_mem_append (by decide) (cr_not_mem_decimal _)
  · cases hl

theorem CleanHeaders.lines (h : CleanHeaders headers) :
    ∀ l ∈ headerLines websocket headers, CR ∉ l := by
  intro l hl
  obtain ⟨header, hin, rfl⟩ := List.mem_map.mp hl
  obtain ⟨hkey, hval⟩ := h header (List.mem_filter.mp hin).1
  exact cr_not_mem_append (cr_not_mem_append hkey.1 (by decide)) hval.1

end Clean

namespace WireRequest

/-- The fields between the first line and the empty line. -/
def headerSection (r : WireRequest) : Bytes :=
  writeConnection r.websocket r.close ++ writeHeaders r.websocket r.headers ++ writeLength r.body

theorem dump_eq (r : WireRequest) :
    r.dump = r.startLine ++ CRLF ++ r.headerSection ++ CRLF ++ r.body := by
  simp only [dump, headerSection, writeBody_eq, List.append_assoc]

theorem splitLines_headerSection {r : WireRequest} (h : CleanHeaders r.headers) :
    splitLines r.headerSection = connectionLines r.websocket r.close ++
      headerLines r.websocket r.headers ++ lengthLines r.body := by
  rw [headerSection, writeConnection_eq, writeHeaders_eq, writeLength_eq, ← joinLines_append,
    ← joinLines_append]
  apply splitLines_joinLines
  intro l hl
  rw [List.mem_append, List.mem_append] at hl
  rcases hl with (hl | hl) | hl
  · exact cr_not_mem_connectionLines hl
  · exact h.lines l hl
  · exact cr_not_mem_lengthLines hl

end WireRequest

namespace HttpResponse

/-- What the headers and the cookies make of the header section. -/
def ownSection (r : HttpResponse) : Bytes :=
  writeHeaders r.websocket r.header ++ r.cookies.flatMap fun i => cookieLine i ++ CRLF

/-- The fields between the first line and the empty line. -/
def headerSection (r : HttpResponse) : Bytes :=
  r.ownSection ++ writeConnection r.websocket r.close ++ writeLength r.body

theorem dump_eq (r : HttpResponse) :
    r.dump = r.startLine ++ CRLF ++ r.headerSection ++ CRLF ++ r.body := by
  simp only [dump, headerSection, ownSection, writeBody_eq, List.append_assoc]

theorem ownSection_eq (r : HttpResponse) :
    r.ownSection = joinLines (headerLines r.websocket r.header ++ r.cookies.map cookieLine) := by
  rw [ownSection, writeHeaders_eq, joinLines_append, joinLines, joinLines, List.flatMap_map]

/-- The generated fields come behind whatever the headers and the cookies make. -/
theorem splitLines_headerSection (r : HttpResponse) :
    splitLines r.headerSection =
      splitLines r.ownSection ++ connectionLines r.websocket r.close ++ lengthLines r.body := by
  have hgenerated : splitLines (joinLines (connectionLines r.websocket r.close ++
      lengthLines r.body)) = connectionLines r.websocket r.close ++ lengthLines r.body := by
    apply splitLines_joinLines
    intro l hl
    rcases List.mem_append.mp hl with hl | hl
    · exact cr_not_mem_connectionLines hl
    · exact cr_not_mem_lengthLines hl
  rw [headerSection, writeConnection_eq, writeLength_eq, List.append_assoc, ← joinLines_append,
    ownSection_eq, splitLines_joinLines_append, hgenerated, List.append_assoc]

theorem splitLines_ownSection {r : HttpResponse} (h : CleanHeaders r.header)
    (hcookies : ∀ c ∈ r.cookies, Clean c) :
    splitLines r.ownSection = headerLines r.websocket r.header ++ r.cookies.map cookieLine := by
  rw [ownSection_eq]
  apply splitLines_joinLines
  intro l hl
  rcases List.mem_append.mp hl with hl | hl
  · exact h.lines l hl
  · obtain ⟨c, hc, rfl⟩ := List.mem_map.mp hl
    exact cr_not_mem_append (by decide) (hcookies c hc).1

end HttpResponse

/-! ### Framing -/

/-- A message with clean headers and cookies is framed unambiguously exactly if its headers name
neither the length, unless they give that of an empty body, nor the connection under a key that
`strcasecmp` does not hold equal to it. -/
theorem dump_framed_iff (req : WireRequest) (rsp : HttpResponse) :
    (CleanHeaders req.headers →
      req.dump = req.startLine ++ CRLF ++ req.headerSection ++ CRLF ++ req.body ∧
        (Framed req.websocket req.body (splitLines req.headerSection) ↔
          Unambiguous req.websocket req.body req.headers)) ∧
      (CleanHeaders rsp.header → (∀ c ∈ rsp.cookies, Clean c) →
        rsp.dump = rsp.startLine ++ CRLF ++ rsp.headerSection ++ CRLF ++ rsp.body ∧
          (Framed rsp.websocket rsp.body (splitLines rsp.headerSection) ↔
            Unambiguous rsp.websocket rsp.body rsp.header)) := by
  refine ⟨fun h => ⟨req.dump_eq, ?_⟩, fun h hcookies => ⟨rsp.dump_eq, ?_⟩⟩
  · have happart := apart_headers_iff req.websocket req.body req.headers
      fun l (hl : l ∈ []) => absurd hl List.not_mem_nil
    rw [List.append_nil] at happart
    rw [WireRequest.splitLines_headerSection h, framed_iff_apart, happart]
  · have hmore : ∀ l ∈ rsp.cookies.map cookieLine, fieldName l = bytes "set-cookie" := by
      intro l hl
      obtain ⟨c, -, rfl⟩ := List.mem_map.mp hl
      exact fieldName_cookieLine c
    have happart := apart_headers_iff rsp.websocket rsp.body rsp.header hmore
    have hperm : (headerLines rsp.websocket rsp.header ++ rsp.cookies.map cookieLine ++
        connectionLines rsp.websocket rsp.close ++ lengthLines rsp.body).Perm
          (connectionLines rsp.websocket rsp.close ++
            (headerLines rsp.websocket rsp.header ++ rsp.cookies.map cookieLine) ++
              lengthLines rsp.body) :=
      List.Perm.append_right _ List.perm_append_comm
    rw [HttpResponse.splitLines_headerSection, HttpResponse.splitLines_ownSection h hcookies,
      ← happart, ← framed_iff_apart rsp.websocket rsp.close]
    exact ⟨fun hf => hf.perm hperm, fun hf => hf.perm hperm.symm⟩

/-- A request and a response with the body `xyz` and a header of their own. -/
theorem dump_framed_iff_host :
    Framed false (bytes "xyz") (splitLines (WireRequest.headerSection
        { body := bytes "xyz", headers := [(bytes "Host", bytes "x")] })) ∧
      Framed false (bytes "xyz") (splitLines (HttpResponse.headerSection
        { body := bytes "xyz", header := [(bytes "Server", bytes "x")] })) := by
  obtain ⟨hreq, hrsp⟩ := dump_framed_iff
    { body := bytes "xyz", headers := [(bytes "Host", bytes "x")] }
    { body := bytes "xyz", header := [(bytes "Server", bytes "x")] }
  have hempty : bytes "xyz" ≠ [] := by decide
  exact ⟨(hreq (by decide)).2.mpr
      ⟨fun _ => by decide, fun h => absurd h hempty, fun _ => by decide⟩,
    (hrsp (by decide) (by decide)).2.mpr
      ⟨fun _ => by decide, fun h => absurd h hempty, fun _ => by decide⟩⟩

/-- A request with a body as a client sends it. -/
def posted : HttpRequestParser :=
  (HttpRequestParser.new.execute
    (bytes "POST /b HTTP/1.1\r\nContent-Length: 3\r\n\r\nxyz")).1

/-- The parser keeps the header for the length, and `dump` writes it beside its own. -/
theorem dump_not_framed :
    posted.hasError = false ∧ posted.isFinish = true ∧ CleanHeaders posted.getData.headers ∧
      (splitLines (WireRequest.headerSection { posted.getData with })).countP isContentLength = 2 ∧
      ¬Framed false posted.getData.body
        (splitLines (WireRequest.headerSection { posted.getData with })) := by
  have htwice : (splitLines (WireRequest.headerSection { posted.getData with })).countP
      isContentLength = 2 := by
    decide +kernel
  refine ⟨by decide +kernel, by decide +kernel, by decide +kernel, htwice, fun h => ?_⟩
  have hone := h.one_length
  rw [htwice] at hone
  exact absurd hone (by decide)

end Xzmjx.HttpRequestModel
