import Mathlib.Data.List.DropRight
import Mathlib.Data.List.Infix
import Mathlib.Order.Lattice
import Xzmjx.HttpRequestModel

/-!
# Query strings, form bodies and cookies

`PARSE_PARAM` walks over the text with one cursor: it looks for the next `=`, and from there
for the next separator. What is between the cursor and the `=` becomes the key, with the
separators in it, so a segment without `=` is taken into the key of the next segment that
has one.

`npos` is `none`. A count that the source computes from `npos` is larger than any string
and reaches to its end.
-/
namespace Xzmjx.HttpRequestModel
open HttpParserModel

/-! ### Strings -/

/-- `std::string::find(c, pos)`. -/
def find (str : Bytes) (c : UInt8) (pos : ℕ) : Option ℕ :=
  ((str.drop pos).findIdx? (· == c)).map (pos + ·)

/-- `std::string::substr`. -/
def substr (str : Bytes) (pos count : ℕ) : Bytes := (str.drop pos).take count

/-- `isxdigit` in the C locale. -/
def isxdigit (c : UInt8) : Bool :=
  ('0'.toUInt8 ≤ c && c ≤ '9'.toUInt8) || ('A'.toUInt8 ≤ c && c ≤ 'F'.toUInt8) ||
    ('a'.toUInt8 ≤ c && c ≤ 'f'.toUInt8)

/-- The table `xdigit_chars`. -/
def xdigitChars (c : UInt8) : UInt8 :=
  if '0'.toUInt8 ≤ c ∧ c ≤ '9'.toUInt8 then c - '0'.toUInt8
  else if 'A'.toUInt8 ≤ c ∧ c ≤ 'F'.toUInt8 then c - 'A'.toUInt8 + 10
  else if 'a'.toUInt8 ≤ c ∧ c ≤ 'f'.toUInt8 then c - 'a'.toUInt8 + 10
  else 0

/-- `StringUtil::UrlDecode` with `space_as_plus`. -/
def urlDecode : Bytes → Bytes
  | [] => []
  | c :: cs =>
      if c = '+'.toUInt8 then ' '.toUInt8 :: urlDecode cs
      else
        match cs with
        | a :: b :: rest =>
            if c = '%'.toUInt8 ∧ isxdigit a ∧ isxdigit b then
              (xdigitChars a <<< 4 ||| xdigitChars b) :: urlDecode rest
            else c :: urlDecode (a :: b :: rest)
        | cs => c :: urlDecode cs

/-- The default `delimit` of `Trim`. -/
def isBlank (c : UInt8) : Bool :=
  c = ' '.toUInt8 || c = '\t'.toUInt8 || c = '\r'.toUInt8 || c = '\n'.toUInt8

/-- `StringUtil::Trim`. -/
def trim (str : Bytes) : Bytes := (str.dropWhile isBlank).rdropWhile isBlank

/-- Whether `strcasestr` finds `needle`. -/
def strcasestr (haystack needle : Bytes) : Bool := caseKey needle <:+: caseKey haystack

/-! ### PARSE_PARAM -/

/-- `m.insert`: an equivalent key keeps its value. -/
def MapType.insert (key val : Bytes) : MapType → MapType
  | [] => [(key, val)]
  | (k, v) :: m =>
      if caseInsensitiveLess k key then (k, v) :: MapType.insert key val m
      else if caseInsensitiveLess key k then (key, val) :: (k, v) :: m
      else (k, v) :: m

/-- The loop of `PARSE_PARAM` at `pos`. Every round moves `pos` forward. -/
def parseLoop (str : Bytes) (flag : UInt8) (trimKey : Bytes → Bytes) :
    ℕ → ℕ → MapType → MapType
  | 0, _, m => m
  | fuel + 1, last, m =>
      match find str '='.toUInt8 last with
      | none => m
      | some key =>
          match find str flag key with
          | none =>
              m.insert (trimKey (substr str last (key - last))) (urlDecode (str.drop (key + 1)))
          | some pos =>
              parseLoop str flag trimKey fuel (pos + 1)
                (m.insert (trimKey (substr str last (key - last)))
                  (urlDecode (substr str (key + 1) (pos - key - 1))))

def parseParam (str : Bytes) (m : MapType) (flag : UInt8) (trimKey : Bytes → Bytes) : MapType :=
  parseLoop str flag trimKey (str.length + 1) 0 m

/-- The fields of `HttpRequest` that are filled from its texts on demand. -/
structure ParamRequest extends HttpRequest where
  params : MapType := []
  cookies : MapType := []
  parserParamFlag : UInt8 := 0
  deriving DecidableEq, Repr

namespace ParamRequest

def initQueryParam (r : ParamRequest) : ParamRequest :=
  if r.parserParamFlag &&& 0x1 ≠ 0 then r
  else
    { r with
      params := parseParam r.query r.params '&'.toUInt8 id
      parserParamFlag := r.parserParamFlag ||| 0x1 }

def initBodyParam (r : ParamRequest) : ParamRequest :=
  if r.parserParamFlag &&& 0x2 ≠ 0 then r
  else
    let contentType := r.getHeader (bytes "content-type")
    if strcasestr contentType (bytes "application/x-www-form-urlencoded") then
      { r with
        params := parseParam r.body r.params '&'.toUInt8 id
        parserParamFlag := r.parserParamFlag ||| 0x2 }
    else { r with parserParamFlag := r.parserParamFlag ||| 0x2 }

def initCookies (r : ParamRequest) : ParamRequest :=
  if r.parserParamFlag &&& 0x4 ≠ 0 then r
  else
    let cookie := r.getHeader (bytes "cookie")
    if cookie = [] then { r with parserParamFlag := r.parserParamFlag ||| 0x4 }
    else
      { r with
        cookies := parseParam cookie r.cookies ';'.toUInt8 trim
        parserParamFlag := r.parserParamFlag ||| 0x4 }

end ParamRequest

/-! ### The grammar -/

/-- The segment has a value. -/
def Valued (seg : Bytes) : Prop := '='.toUInt8 ∈ seg

instance (seg : Bytes) : Decidable (Valued seg) := inferInstanceAs (Decidable (_ ∈ _))

def segmentKey (seg : Bytes) : Bytes := seg.takeWhile (· ≠ '='.toUInt8)

def segmentValue (seg : Bytes) : Bytes := (seg.dropWhile (· ≠ '='.toUInt8)).tail

/-- The keys and values of the segments that have a value. -/
def bindings (flag : UInt8) (str : Bytes) : List (Bytes × Bytes) :=
  ((str.splitOn flag).filter (Valued ·)).map fun seg => (segmentKey seg, segmentValue seg)

/-- Bind keys and values in order; the first binding of a key wins. -/
def MapType.bindAll (trimKey : Bytes → Bytes) (m : MapType) (ps : List (Bytes × Bytes)) :
    MapType :=
  ps.foldl (fun m p => m.insert (trimKey p.1) (urlDecode p.2)) m

/-- No segment without a value is before one that has a value. -/
def ValuesFirst (flag : UInt8) (str : Bytes) : Prop :=
  (str.splitOn flag).Pairwise fun a b => Valued b → Valued a

instance (flag : UInt8) (str : Bytes) : Decidable (ValuesFirst flag str) :=
  inferInstanceAs (Decidable (List.Pairwise _ _))

/-- A byte that can separate segments: it is no `=`, no blank and no end of a C string, and
it has no other case. -/
structure Separator (flag : UInt8) : Prop where
  ne_eq : flag ≠ '='.toUInt8
  ne_zero : flag ≠ 0
  not_blank : isBlank flag = false
  tolower_eq : ∀ c, tolower c = flag ↔ c = flag

/-- Below the letters a byte is its own lower case and nobody else's. -/
theorem tolower_eq_iff {flag : UInt8} (hlow : flag.toNat < 65) (c : UInt8) :
    tolower c = flag ↔ c = flag := by
  unfold tolower
  split_ifs with hupper
  · obtain ⟨hge, hle⟩ := hupper
    have hge : 65 ≤ c.toNat := hge
    have hle : c.toNat ≤ 90 := hle
    have hadd : (c + 32).toNat = c.toNat + 32 := by
      rw [UInt8.toNat_add]
      exact Nat.mod_eq_of_lt (by change c.toNat + 32 < 256; omega)
    refine iff_of_false (fun he => ?_) fun he => ?_
    · rw [← he, hadd] at hlow
      omega
    · rw [← he] at hlow
      omega
  · exact Iff.rfl

theorem separator_ampersand : Separator '&'.toUInt8 :=
  ⟨by decide, by decide, by decide, tolower_eq_iff (by decide)⟩

theorem separator_semicolon : Separator ';'.toUInt8 :=
  ⟨by decide, by decide, by decide, tolower_eq_iff (by decide)⟩

/-! ### The loop, segment by segment -/

/-- What the loop binds: the segments without a value that come before a key are part of it,
each with its separator. -/
def merged (flag : UInt8) : Bytes → List Bytes → List (Bytes × Bytes)
  | _, [] => []
  | carry, seg :: segs =>
      if Valued seg then (carry ++ segmentKey seg, segmentValue seg) :: merged flag [] segs
      else merged flag (carry ++ seg ++ [flag]) segs

theorem find_eq_none {str : Bytes} {c : UInt8} {pos : ℕ} :
    find str c pos = none ↔ c ∉ str.drop pos := by
  rw [find, Option.map_eq_none_iff, List.findIdx?_eq_none_iff]
  simp only [beq_eq_false_iff_ne]
  exact ⟨fun h hc => h c hc rfl, fun h x hx he => h (he ▸ hx)⟩

theorem find_eq_some {str : Bytes} {c : UInt8} {pos i : ℕ} (h : find str c pos = some i) :
    ∃ k t, str.drop pos = k ++ c :: t ∧ c ∉ k ∧ i = pos + k.length := by
  obtain ⟨j, hj, rfl⟩ := Option.map_eq_some_iff.mp h
  obtain ⟨hlt, hc, hbefore⟩ := List.findIdx?_eq_some_iff_getElem.mp hj
  refine ⟨(str.drop pos).take j, (str.drop pos).drop (j + 1), ?_, ?_, ?_⟩
  · have hc : (str.drop pos)[j] = c := by simpa using hc
    rw [← hc, ← List.drop_eq_getElem_cons hlt, List.take_append_drop]
  · intro hmem
    obtain ⟨i, hi, he⟩ := List.getElem_of_mem hmem
    rw [List.length_take] at hi
    rw [List.getElem_take] at he
    have := hbefore i (by omega)
    simp [he] at this
  · rw [List.length_take]
    omega

theorem forall_ne_equals {k : Bytes} (hk : '='.toUInt8 ∉ k) :
    ∀ c ∈ k, decide (c ≠ '='.toUInt8) = true := by
  intro c hc
  rw [decide_eq_true_eq]
  exact fun he => hk (he ▸ hc)

theorem segmentKey_eq {k t : Bytes} (hk : '='.toUInt8 ∉ k) :
    segmentKey (k ++ '='.toUInt8 :: t) = k := by
  rw [segmentKey, List.takeWhile_append_of_pos (forall_ne_equals hk),
    List.takeWhile_cons_of_neg (by simp), List.append_nil]

theorem segmentValue_eq {k t : Bytes} (hk : '='.toUInt8 ∉ k) :
    segmentValue (k ++ '='.toUInt8 :: t) = t := by
  rw [segmentValue, List.dropWhile_append_of_pos (forall_ne_equals hk),
    List.dropWhile_cons_of_neg (by simp), List.tail_cons]

theorem splitOn_append_of_not_mem {flag : UInt8} {xs : Bytes} (h : flag ∉ xs) (ys : Bytes) :
    (xs ++ ys).splitOn flag = (ys.splitOn flag).modifyHead (xs ++ ·) := by
  induction xs with
  | nil =>
      change _ = (ys.splitOn flag).modifyHead fun seg => seg
      cases h : ys.splitOn flag with
      | nil => exact h
      | cons seg segs => exact h
  | cons x xs ih =>
      obtain ⟨hx, hxs⟩ := not_or.mp fun hmem => h (List.mem_cons.mpr hmem)
      rw [List.cons_append, List.splitOn_cons_eq_if_modifyHead, ih hxs,
        if_neg (by simpa using Ne.symm hx), List.modifyHead_modifyHead]
      rfl

/-- Text without `=` binds nothing. -/
theorem merged_eq_nil {flag : UInt8} {str : Bytes} (h : '='.toUInt8 ∉ str) (carry : Bytes) :
    merged flag carry (str.splitOn flag) = [] := by
  by_cases hmem : flag ∈ str
  · obtain ⟨xs, ys, rfl, hxs⟩ := List.eq_append_cons_of_mem hmem
    have hnot : ¬Valued xs := fun hc => h (List.mem_append_left _ hc)
    rw [List.splitOn_append_cons_self_of_not_mem hxs, merged, if_neg hnot]
    exact merged_eq_nil (fun hc => h (by simp [hc])) _
  · have hnot : ¬Valued str := h
    rw [List.splitOn_eq_singleton hmem, merged, if_neg hnot, merged]
termination_by str.length

/-- Text without `=` before a segment with a value: all of it goes into the key. -/
theorem merged_append {flag : UInt8} (hflag : flag ≠ '='.toUInt8) {k t v : Bytes}
    {segs : List Bytes} (hk : '='.toUInt8 ∉ k) (ht : t.splitOn flag = v :: segs)
    (carry : Bytes) :
    merged flag carry ((k ++ '='.toUInt8 :: t).splitOn flag) =
      (carry ++ k, v) :: merged flag [] segs := by
  by_cases hmem : flag ∈ k
  · obtain ⟨xs, ys, rfl, hxs⟩ := List.eq_append_cons_of_mem hmem
    have hnot : ¬Valued xs := fun hc => hk (List.mem_append_left _ hc)
    rw [List.append_assoc, List.cons_append, List.splitOn_append_cons_self_of_not_mem hxs,
      merged, if_neg hnot, merged_append hflag (fun hc => hk (by simp [hc])) ht]
    simp
  · have hseg : flag ∉ k ++ ['='.toUInt8] := by simp [hmem, hflag]
    have hsplit := splitOn_append_of_not_mem hseg t
    rw [List.append_assoc, List.singleton_append, ht] at hsplit
    have hvalued : Valued (k ++ '='.toUInt8 :: v) := by simp [Valued]
    rw [hsplit, List.modifyHead_cons, List.append_assoc, List.singleton_append, merged,
      if_pos hvalued, segmentKey_eq hk, segmentValue_eq hk]
termination_by k.length

/-- The separator that ends a value, from the `=` before it. -/
theorem find_value {flag : UInt8} (hflag : flag ≠ '='.toUInt8) {str t : Bytes} {key p : ℕ}
    (hat : str.drop key = '='.toUInt8 :: t) (h : find str flag key = some p) :
    ∃ v rest, t = v ++ flag :: rest ∧ flag ∉ v ∧ p = key + (v.length + 1) := by
  obtain ⟨k, rest, heq, hk, rfl⟩ := find_eq_some h
  rw [hat] at heq
  cases k with
  | nil => exact absurd (List.cons.inj heq).1.symm hflag
  | cons x v =>
      rw [List.cons_append] at heq
      obtain ⟨rfl, ht⟩ := List.cons.inj heq
      exact ⟨v, rest, ht, fun hc => hk (List.mem_cons_of_mem _ hc), rfl⟩

theorem parseLoop_eq {flag : UInt8} (hflag : flag ≠ '='.toUInt8) (str : Bytes)
    (trimKey : Bytes → Bytes) {fuel : ℕ} (pos : ℕ) (m : MapType)
    (hfuel : (str.drop pos).length < fuel) :
    parseLoop str flag trimKey fuel pos m =
      m.bindAll trimKey (merged flag [] ((str.drop pos).splitOn flag)) := by
  induction fuel generalizing pos m with
  | zero => omega
  | succ fuel ih =>
      rw [parseLoop]
      cases hkey : find str '='.toUInt8 pos with
      | none =>
          rw [merged_eq_nil (find_eq_none.mp hkey)]
          rfl
      | some key =>
          obtain ⟨k, t, hdrop, hk, rfl⟩ := find_eq_some hkey
          have hat : str.drop (pos + k.length) = '='.toUInt8 :: t := by
            rw [← List.drop_drop, hdrop, List.drop_left]
          have hafter : str.drop (pos + k.length + 1) = t := by
            rw [← List.drop_drop, hat, List.drop_one, List.tail_cons]
          have hsub : substr str pos (pos + k.length - pos) = k := by
            rw [substr, hdrop, Nat.add_sub_cancel_left, List.take_left]
          dsimp only
          rw [hsub, hdrop]
          cases hend : find str flag (pos + k.length) with
          | none =>
              have hnot : flag ∉ t := by
                have := find_eq_none.mp hend
                rw [hat] at this
                exact fun hc => this (List.mem_cons_of_mem _ hc)
              rw [merged_append hflag hk (List.splitOn_eq_singleton hnot), merged, hafter]
              rfl
          | some p =>
              obtain ⟨v, rest, rfl, hv, rfl⟩ := find_value hflag hat hend
              have hnext : str.drop (pos + k.length + (v.length + 1) + 1) = rest := by
                rw [Nat.add_assoc (pos + k.length), ← List.drop_drop, hat]
                simp
              have hvalue : substr str (pos + k.length + 1)
                  (pos + k.length + (v.length + 1) - (pos + k.length) - 1) = v := by
                rw [substr, hafter, Nat.add_sub_cancel_left, Nat.add_sub_cancel, List.take_left]
              have hshort : rest.length < fuel := by
                rw [hdrop] at hfuel
                simp only [List.length_append, List.length_cons] at hfuel
                omega
              dsimp only
              rw [hvalue, ih _ _ (hnext.symm ▸ hshort), hnext, merged_append hflag hk
                (List.splitOn_append_cons_self_of_not_mem hv rest)]
              rfl

theorem parseParam_eq {flag : UInt8} (hflag : flag ≠ '='.toUInt8) (str : Bytes) (m : MapType)
    (trimKey : Bytes → Bytes) :
    parseParam str m flag trimKey = m.bindAll trimKey (merged flag [] (str.splitOn flag)) :=
  parseLoop_eq hflag str trimKey 0 m (Nat.lt_succ_self _)

/-- With the values first, the loop binds what the grammar says. -/
theorem merged_eq_of_pairwise {flag : UInt8} {segs : List Bytes}
    (h : segs.Pairwise fun a b => Valued b → Valued a) :
    merged flag [] segs =
      (segs.filter (Valued ·)).map fun seg => (segmentKey seg, segmentValue seg) := by
  have hnone (segs : List Bytes) (hall : ∀ seg ∈ segs, ¬Valued seg) (carry : Bytes) :
      merged flag carry segs = [] := by
    induction segs generalizing carry with
    | nil => rfl
    | cons seg segs ih =>
        rw [merged, if_neg (hall seg List.mem_cons_self)]
        exact ih (fun s hs => hall s (List.mem_cons_of_mem _ hs)) _
  induction segs with
  | nil => rfl
  | cons seg segs ih =>
      obtain ⟨hfirst, hrest⟩ := List.pairwise_cons.mp h
      by_cases hseg : Valued seg
      · rw [merged, if_pos hseg, ih hrest, List.filter_cons_of_pos (by simpa using hseg)]
        rfl
      · have hlater : ∀ s ∈ segs, ¬Valued s := fun s hs hv => hseg (hfirst s hs hv)
        rw [merged, if_neg hseg, hnone segs hlater, List.filter_cons_of_neg (by simpa using hseg),
          List.filter_eq_nil_iff.mpr (by simpa using hlater)]
        rfl

/-- A separator that is carried ends up in a key. -/
theorem exists_merged_of_carry {flag : UInt8} {segs : List Bytes} {carry : Bytes}
    (hcarry : flag ∈ carry) (hvalued : ∃ seg ∈ segs, Valued seg) :
    ∃ p ∈ merged flag carry segs, flag ∈ p.1 := by
  induction segs generalizing carry with
  | nil => simp at hvalued
  | cons seg segs ih =>
      rw [merged]
      split_ifs with hseg
      · exact ⟨_, List.mem_cons_self, List.mem_append_left _ hcarry⟩
      · obtain ⟨s, hs, hv⟩ := hvalued
        rcases List.mem_cons.mp hs with rfl | hs
        · exact absurd hv hseg
        · exact ih (by simp) ⟨s, hs, hv⟩

/-- If a segment without a value is before one that has a value, then a key has a separator. -/
theorem exists_merged_of_not_pairwise {flag : UInt8} {segs : List Bytes}
    (h : ¬segs.Pairwise fun a b => Valued b → Valued a) (carry : Bytes) :
    ∃ p ∈ merged flag carry segs, flag ∈ p.1 := by
  induction segs generalizing carry with
  | nil => exact absurd List.Pairwise.nil h
  | cons seg segs ih =>
      rw [merged]
      split_ifs with hseg
      · have hrest : ¬segs.Pairwise fun a b => Valued b → Valued a := fun hp =>
          h (List.pairwise_cons.mpr ⟨fun _ _ _ => hseg, hp⟩)
        obtain ⟨p, hp, hflag⟩ := ih hrest []
        exact ⟨p, List.mem_cons_of_mem _ hp, hflag⟩
      · by_cases hvalued : ∃ s ∈ segs, Valued s
        · exact exists_merged_of_carry (by simp) hvalued
        · refine absurd (List.pairwise_cons.mpr ⟨fun s hs hv => ?_, ?_⟩) h
          · exact absurd ⟨s, hs, hv⟩ hvalued
          · exact List.pairwise_of_forall_mem_list fun a _ b hb hv => absurd ⟨b, hb, hv⟩ hvalued

/-! ### The map -/

theorem mem_insert_of_mem {key val : Bytes} {m : MapType} {p : Bytes × Bytes} (hp : p ∈ m) :
    p ∈ m.insert key val := by
  induction m with
  | nil => cases hp
  | cons q m ih =>
      rw [MapType.insert]
      split_ifs
      · rcases List.mem_cons.mp hp with rfl | hp
        · exact List.mem_cons_self
        · exact List.mem_cons_of_mem _ (ih hp)
      · exact List.mem_cons_of_mem _ hp
      · exact hp

theorem mem_of_mem_insert {key val : Bytes} {m : MapType} {p : Bytes × Bytes}
    (hp : p ∈ m.insert key val) : p = (key, val) ∨ p ∈ m := by
  induction m with
  | nil => exact .inl (List.mem_singleton.mp hp)
  | cons q m ih =>
      rw [MapType.insert] at hp
      split_ifs at hp
      · rcases List.mem_cons.mp hp with rfl | hp
        · exact .inr List.mem_cons_self
        · exact (ih hp).imp_right (List.mem_cons_of_mem _)
      · exact List.mem_cons.mp hp
      · exact .inr hp

/-- After an insertion the map has an equivalent key. -/
theorem exists_mem_insert (key val : Bytes) (m : MapType) :
    ∃ p ∈ m.insert key val, caseKey p.1 = caseKey key := by
  induction m with
  | nil => exact ⟨_, List.mem_singleton_self _, rfl⟩
  | cons q m ih =>
      rw [MapType.insert]
      split_ifs with hless hgreater
      · obtain ⟨p, hp, he⟩ := ih
        exact ⟨p, List.mem_cons_of_mem _ hp, he⟩
      · exact ⟨_, List.mem_cons_self, rfl⟩
      · refine ⟨q, List.mem_cons_self, ?_⟩
        simp only [caseInsensitiveLess, decide_eq_true_eq] at hless hgreater
        exact List.le_antisymm (List.not_lt.mp hgreater) (List.not_lt.mp hless)

theorem mem_bindAll_of_mem {trimKey : Bytes → Bytes} (ps : List (Bytes × Bytes)) {m : MapType}
    {q : Bytes × Bytes} (hq : q ∈ m) : q ∈ m.bindAll trimKey ps := by
  induction ps generalizing m with
  | nil => exact hq
  | cons p ps ih => exact ih (mem_insert_of_mem hq)

theorem exists_mem_bindAll (trimKey : Bytes → Bytes) {ps : List (Bytes × Bytes)}
    {p : Bytes × Bytes} (hp : p ∈ ps) (m : MapType) :
    ∃ q ∈ m.bindAll trimKey ps, caseKey q.1 = caseKey (trimKey p.1) := by
  induction ps generalizing m with
  | nil => cases hp
  | cons x ps ih =>
      rcases List.mem_cons.mp hp with rfl | hp
      · obtain ⟨q, hq, he⟩ := exists_mem_insert (trimKey p.1) (urlDecode p.2) m
        exact ⟨q, mem_bindAll_of_mem ps hq, he⟩
      · exact ih hp _

theorem mem_of_mem_bindAll {trimKey : Bytes → Bytes} {ps : List (Bytes × Bytes)} {m : MapType}
    {q : Bytes × Bytes} (hq : q ∈ m.bindAll trimKey ps) :
    q ∈ m ∨ ∃ p ∈ ps, q.1 = trimKey p.1 := by
  induction ps generalizing m with
  | nil => exact .inl hq
  | cons x ps ih =>
      rcases ih hq with hq | ⟨p, hp, he⟩
      · rcases mem_of_mem_insert hq with rfl | hq
        · exact .inr ⟨x, List.mem_cons_self, rfl⟩
        · exact .inl hq
      · exact .inr ⟨p, List.mem_cons_of_mem _ hp, he⟩

/-! ### Separators in keys -/

/-- What is done to a key leaves its separators in it and adds nothing. -/
structure KeepsSeparator (flag : UInt8) (trimKey : Bytes → Bytes) : Prop where
  keeps : ∀ k, flag ∈ k → flag ∈ trimKey k
  sub : ∀ k, ∀ c ∈ trimKey k, c ∈ k

theorem keepsSeparator_id (flag : UInt8) : KeepsSeparator flag id := ⟨fun _ h => h, fun _ _ h => h⟩

theorem mem_dropWhile {p : UInt8 → Bool} {c : UInt8} {k : Bytes} (hc : c ∈ k)
    (hp : p c = false) : c ∈ k.dropWhile p := by
  rw [← List.takeWhile_append_dropWhile (p := p) (l := k), List.mem_append] at hc
  refine hc.resolve_left fun h => ?_
  rw [List.mem_takeWhile_imp h] at hp
  cases hp

theorem keepsSeparator_trim {flag : UInt8} (hflag : isBlank flag = false) :
    KeepsSeparator flag trim := by
  refine ⟨fun k hk => ?_, fun k c hc => ?_⟩
  · rw [trim, List.rdropWhile, List.mem_reverse]
    exact mem_dropWhile (List.mem_reverse.mpr (mem_dropWhile hk hflag)) hflag
  · exact (List.dropWhile_sublist _).mem ((List.rdropWhile_prefix _ _).subset hc)

theorem not_mem_of_mem_splitOn {flag : UInt8} {str seg : Bytes} (h : seg ∈ str.splitOn flag) :
    flag ∉ seg := by
  by_cases hmem : flag ∈ str
  · obtain ⟨xs, ys, rfl, hxs⟩ := List.eq_append_cons_of_mem hmem
    rw [List.splitOn_append_cons_self_of_not_mem hxs] at h
    rcases List.mem_cons.mp h with rfl | h
    · exact hxs
    · exact not_mem_of_mem_splitOn h
  · rw [List.splitOn_eq_singleton hmem] at h
    exact List.mem_singleton.mp h ▸ hmem
termination_by str.length

theorem mem_of_mem_splitOn {flag c : UInt8} {str seg : Bytes} (h : seg ∈ str.splitOn flag)
    (hc : c ∈ seg) : c ∈ str := by
  by_cases hmem : flag ∈ str
  · obtain ⟨xs, ys, rfl, hxs⟩ := List.eq_append_cons_of_mem hmem
    rw [List.splitOn_append_cons_self_of_not_mem hxs] at h
    rcases List.mem_cons.mp h with rfl | h
    · exact List.mem_append_left _ hc
    · exact List.mem_append_right _ (List.mem_cons_of_mem _ (mem_of_mem_splitOn h hc))
  · rw [List.splitOn_eq_singleton hmem] at h
    exact List.mem_singleton.mp h ▸ hc
termination_by str.length

/-- The keys of the loop are made of the segments and the separator. -/
theorem mem_key_of_mem_merged {flag c : UInt8} {segs : List Bytes} {carry : Bytes}
    {p : Bytes × Bytes} (hp : p ∈ merged flag carry segs) (hc : c ∈ p.1) :
    c ∈ carry ∨ c = flag ∨ ∃ seg ∈ segs, c ∈ seg := by
  induction segs generalizing carry with
  | nil => cases hp
  | cons seg segs ih =>
      rw [merged] at hp
      split_ifs at hp
      · rcases List.mem_cons.mp hp with rfl | hp
        · rcases List.mem_append.mp hc with hc | hc
          · exact .inl hc
          · exact .inr (.inr ⟨seg, List.mem_cons_self, (List.takeWhile_sublist _).mem hc⟩)
        · rcases ih hp with hc | hc | ⟨s, hs, hc⟩
          · cases hc
          · exact .inr (.inl hc)
          · exact .inr (.inr ⟨s, List.mem_cons_of_mem _ hs, hc⟩)
      · rcases ih hp with hc | hc | ⟨s, hs, hc⟩
        · simp only [List.mem_append, List.mem_singleton] at hc
          rcases hc with (hc | hc) | hc
          · exact .inl hc
          · exact .inr (.inr ⟨seg, List.mem_cons_self, hc⟩)
          · exact .inr (.inl hc)
        · exact .inr (.inl hc)
        · exact .inr (.inr ⟨s, List.mem_cons_of_mem _ hs, hc⟩)

theorem mem_of_mem_caseKey {flag : UInt8} (hsep : Separator flag) {k : Bytes}
    (h : flag ∈ caseKey k) : flag ∈ k := by
  obtain ⟨c, hc, he⟩ := List.mem_map.mp h
  rw [hsep.tolower_eq] at he
  exact he ▸ (List.takeWhile_sublist _).mem hc

theorem mem_caseKey {flag : UInt8} (hsep : Separator flag) {k : Bytes} (hk : 0 ∉ k)
    (h : flag ∈ k) : flag ∈ caseKey k := by
  have hall : k.takeWhile (· ≠ 0) = k := by
    rw [List.takeWhile_eq_self_iff]
    intro c hc
    rw [decide_eq_true_eq]
    exact fun he => hk (he ▸ hc)
  rw [caseKey, hall]
  exact List.mem_map.mpr ⟨flag, h, (hsep.tolower_eq flag).mpr rfl⟩

/-! ### When the segments are bound one by one -/

/-- Whatever was bound before, `fill` adds the bindings of the segments of `str`. -/
def BindsSegments (str : Bytes) (flag : UInt8) (trimKey : Bytes → Bytes)
    (fill : MapType → MapType) : Prop :=
  ∀ m, fill m = m.bindAll trimKey (bindings flag str)

theorem bindsSegments_of_valuesFirst {flag : UInt8} (hsep : Separator flag) (str : Bytes)
    (trimKey : Bytes → Bytes) (h : ValuesFirst flag str) :
    BindsSegments str flag trimKey fun m => parseParam str m flag trimKey := by
  intro m
  dsimp only
  rw [parseParam_eq hsep.ne_eq, merged_eq_of_pairwise h]
  rfl

/-- In a text without zero bytes a key with a separator in it is seen in the map. -/
theorem valuesFirst_of_bindsSegments {flag : UInt8} (hsep : Separator flag) {str : Bytes}
    {trimKey : Bytes → Bytes} (htrim : KeepsSeparator flag trimKey) (hzero : 0 ∉ str)
    (h : BindsSegments str flag trimKey fun m => parseParam str m flag trimKey) :
    ValuesFirst flag str := by
  by_contra hnot
  obtain ⟨p, hp, hflag⟩ := exists_merged_of_not_pairwise hnot []
  have hkey : 0 ∉ trimKey p.1 := by
    intro hc
    rcases mem_key_of_mem_merged hp (htrim.sub _ _ hc) with hc | hc | ⟨seg, hseg, hc⟩
    · cases hc
    · exact hsep.ne_zero hc.symm
    · exact hzero (mem_of_mem_splitOn hseg hc)
  obtain ⟨q, hq, he⟩ := exists_mem_bindAll trimKey hp []
  have hsame : parseParam str [] flag trimKey = MapType.bindAll trimKey [] (bindings flag str) :=
    h []
  rw [← parseParam_eq hsep.ne_eq, hsame] at hq
  have hin : flag ∈ caseKey q.1 := he ▸ mem_caseKey hsep hkey (htrim.keeps _ hflag)
  rcases mem_of_mem_bindAll hq with hq | ⟨r, hr, hqr⟩
  · cases hq
  · obtain ⟨seg, hseg, rfl⟩ := List.mem_map.mp hr
    rw [hqr] at hin
    have hmem := htrim.sub _ _ (mem_of_mem_caseKey hsep hin)
    exact not_mem_of_mem_splitOn (List.mem_of_mem_filter hseg)
      ((List.takeWhile_sublist _).mem hmem)

/-- `fill` binds the segments of `str` if the values are first, and, on a text without zero
bytes, only then. -/
def BindsIffValuesFirst (str : Bytes) (flag : UInt8) (trimKey : Bytes → Bytes)
    (fill : MapType → MapType) : Prop :=
  (ValuesFirst flag str → BindsSegments str flag trimKey fill) ∧
    (0 ∉ str → (BindsSegments str flag trimKey fill ↔ ValuesFirst flag str))

theorem parseParam_bindsIffValuesFirst {flag : UInt8} (hsep : Separator flag) (str : Bytes)
    {trimKey : Bytes → Bytes} (htrim : KeepsSeparator flag trimKey) :
    BindsIffValuesFirst str flag trimKey fun m => parseParam str m flag trimKey := by
  have hforward := bindsSegments_of_valuesFirst hsep str trimKey
  exact ⟨hforward, fun hzero => ⟨valuesFirst_of_bindsSegments hsep htrim hzero, hforward⟩⟩

/-- When query strings, form bodies and cookies are parsed segment by segment. For every
request whose text was not parsed yet: if no segment without `=` is before a segment with
one, then each segment with a `=` is bound, in order and over whatever was bound before, and
nothing else; and on a text without zero bytes only then. -/
theorem parsed_by_segments_iff (r : ParamRequest) :
    (r.parserParamFlag &&& 0x1 = 0 →
      BindsIffValuesFirst r.query '&'.toUInt8 id
        fun m => { r with params := m }.initQueryParam.params) ∧
    (r.parserParamFlag &&& 0x2 = 0 →
      strcasestr (r.getHeader (bytes "content-type"))
        (bytes "application/x-www-form-urlencoded") = true →
      BindsIffValuesFirst r.body '&'.toUInt8 id
        fun m => { r with params := m }.initBodyParam.params) ∧
    (r.parserParamFlag &&& 0x4 = 0 →
      BindsIffValuesFirst (r.getHeader (bytes "cookie")) ';'.toUInt8 trim
        fun m => { r with cookies := m }.initCookies.cookies) := by
  refine ⟨fun hflag => ?_, fun hflag hform => ?_, fun hflag => ?_⟩
  · have hfill : (fun m => { r with params := m }.initQueryParam.params) =
        fun m => parseParam r.query m '&'.toUInt8 id := by
      funext m
      simp [ParamRequest.initQueryParam, hflag]
    rw [hfill]
    exact parseParam_bindsIffValuesFirst separator_ampersand _ (keepsSeparator_id _)
  · have hfill : (fun m => { r with params := m }.initBodyParam.params) =
        fun m => parseParam r.body m '&'.toUInt8 id := by
      funext m
      simp [ParamRequest.initBodyParam, hflag, hform]
    rw [hfill]
    exact parseParam_bindsIffValuesFirst separator_ampersand _ (keepsSeparator_id _)
  · have hfill : (fun m => { r with cookies := m }.initCookies.cookies) =
        fun m => parseParam (r.getHeader (bytes "cookie")) m ';'.toUInt8 trim := by
      funext m
      by_cases hempty : r.getHeader (bytes "cookie") = []
      · simp [ParamRequest.initCookies, hflag, hempty]
        rfl
      · simp [ParamRequest.initCookies, hflag, hempty]
    rw [hfill]
    exact parseParam_bindsIffValuesFirst separator_semicolon _
      (keepsSeparator_trim separator_semicolon.not_blank)

/-- Two values, an empty one among them, and a flag behind; a form body; cookies with blanks. -/
def ParamRequest.flagsLast : ParamRequest where
  query := bytes "a=1&B=&flag"
  body := bytes "k=%41+"
  headers := [(bytes "Content-Type", bytes "application/x-www-form-urlencoded"),
    (bytes "Cookie", bytes "x=1; y=2")]

theorem parsed_by_segments_iff_flags_last :
    (BindsSegments (bytes "a=1&B=&flag") '&'.toUInt8 id
      fun m => { ParamRequest.flagsLast with params := m }.initQueryParam.params) ∧
    (BindsSegments (bytes "k=%41+") '&'.toUInt8 id
      fun m => { ParamRequest.flagsLast with params := m }.initBodyParam.params) ∧
    (BindsSegments (ParamRequest.flagsLast.getHeader (bytes "cookie")) ';'.toUInt8 trim
      fun m => { ParamRequest.flagsLast with cookies := m }.initCookies.cookies) ∧
    ParamRequest.flagsLast.initQueryParam.initBodyParam.params =
      [(bytes "a", bytes "1"), (bytes "B", []), (bytes "k", bytes "A ")] ∧
    ParamRequest.flagsLast.initCookies.cookies =
      [(bytes "x", bytes "1"), (bytes "y", bytes "2")] := by
  obtain ⟨hquery, hbody, hcookie⟩ := parsed_by_segments_iff ParamRequest.flagsLast
  exact ⟨(hquery (by decide)).1 (by decide +kernel),
    (hbody (by decide) (by decide +kernel)).1 (by decide +kernel),
    (hcookie (by decide)).1 (by decide +kernel), by decide +kernel, by decide +kernel⟩

/-- `a&b=1`: the flag `a` becomes part of the key that `1` is bound to. -/
theorem flag_joins_next_key :
    ∃ r : ParamRequest, r.query = bytes "a&b=1" ∧
      r.initQueryParam.params = [(bytes "a&b", bytes "1")] ∧
      bindings '&'.toUInt8 r.query = [(bytes "b", bytes "1")] ∧
      ¬BindsSegments r.query '&'.toUInt8 id
        fun m => { r with params := m }.initQueryParam.params := by
  refine ⟨{ query := bytes "a&b=1" }, rfl, by decide, by decide, fun h => ?_⟩
  exact absurd (h []) (by decide)

end Xzmjx.HttpRequestModel
