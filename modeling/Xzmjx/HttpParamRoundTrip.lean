import Xzmjx.HttpParamMaps
import Xzmjx.UrlCoding

/-!
# Rendered parameter lists

A list of keys and values, written as `key=UrlEncode(value)` with a separator in between, comes
back as the map with these entries. `UrlEncode` writes no separator, so the text splits into
the parameters again; it may write a `=`, but the key ends at the first one.
-/
namespace Xzmjx.HttpRequestModel
open HttpParserModel

/-- `key=UrlEncode(value)`. -/
def renderParam (p : Bytes × Bytes) : Bytes :=
  p.1 ++ '='.toUInt8 :: UrlCoding.urlEncode p.2 true

def renderQuery (ps : List (Bytes × Bytes)) : Bytes :=
  (bytes "&").intercalate (ps.map renderParam)

def renderCookies (ps : List (Bytes × Bytes)) : Bytes :=
  (bytes "; ").intercalate (ps.map renderParam)

/-- Keys that can be told apart and found in the text. -/
structure ParamList (flag : UInt8) (ps : List (Bytes × Bytes)) : Prop where
  plain : ∀ p ∈ ps, '='.toUInt8 ∉ p.1 ∧ flag ∉ p.1
  distinct : ps.Pairwise fun p q => caseKey p.1 ≠ caseKey q.1

def NoSurroundingBlank (k : Bytes) : Prop :=
  (∀ c ∈ k.head?, isBlank c = false) ∧ ∀ c ∈ k.getLast?, isBlank c = false

instance (k : Bytes) : Decidable (NoSurroundingBlank k) := inferInstanceAs (Decidable (_ ∧ _))

/-- The entries of the map are exactly the pairs. -/
structure MapType.Holds (m : MapType) (ps : List (Bytes × Bytes)) : Prop where
  perm : m.Perm ps
  ordered : m.Ordered

/-- Nothing has been parsed or set. -/
structure ParamRequest.Fresh (r : ParamRequest) : Prop where
  params : r.params = []
  cookies : r.cookies = []
  flag : r.parserParamFlag = 0

/-! ### The text -/

theorem not_mem_urlEncode {flag : UInt8} (hflag : flag = '&'.toUInt8 ∨ flag = ';'.toUInt8)
    (v : Bytes) : flag ∉ UrlCoding.urlEncode v true := by
  have hcoded := UrlCoding.coded_encoded true v
  rw [UrlCoding.urlEncode_eq]
  rcases hflag with rfl | rfl
  · exact hcoded.not_mem.1
  · exact hcoded.not_mem.2

theorem urlDecode_urlEncode (v : Bytes) : urlDecode (UrlCoding.urlEncode v true) = v := by
  rw [← UrlCoding.urlDecode_true, UrlCoding.urlDecode_eq, UrlCoding.urlEncode_eq]
  exact UrlCoding.decoded_encoded (by decide) v

/-- The text splits into the parameters again. -/
theorem splitOn_render {flag : UInt8} (hflag : flag = '&'.toUInt8 ∨ flag = ';'.toUInt8)
    {ps : List (Bytes × Bytes)} (hplain : ∀ p ∈ ps, flag ∉ p.1) (hne : ps ≠ []) :
    ([flag].intercalate (ps.map renderParam)).splitOn flag = ps.map renderParam := by
  apply List.splitOn_intercalate
  · intro seg hseg
    obtain ⟨p, hp, rfl⟩ := List.mem_map.mp hseg
    have heq : flag ≠ '='.toUInt8 := by rcases hflag with rfl | rfl <;> decide
    simp only [renderParam, List.mem_append, List.mem_cons, not_or]
    exact ⟨hplain p hp, heq, not_mem_urlEncode hflag p.2⟩
  · simpa using hne

theorem valued_renderParam (p : Bytes × Bytes) : Valued (renderParam p) :=
  List.mem_append_right _ List.mem_cons_self

/-- What the loop makes of the text, whatever is done to the keys. -/
theorem parseParam_render {flag : UInt8} (hsep : Separator flag)
    (hflag : flag = '&'.toUInt8 ∨ flag = ';'.toUInt8) {ps : List (Bytes × Bytes)}
    (hplain : ∀ p ∈ ps, '='.toUInt8 ∉ p.1 ∧ flag ∉ p.1) (hne : ps ≠ []) (m : MapType)
    (trimKey : Bytes → Bytes) :
    parseParam ([flag].intercalate (ps.map renderParam)) m flag trimKey =
      m.bindAll trimKey (ps.map fun p => (p.1, UrlCoding.urlEncode p.2 true)) := by
  have hsplit := splitOn_render hflag (fun p hp => (hplain p hp).2) hne
  have hvalued : ∀ seg ∈ ps.map renderParam, Valued seg := by
    intro seg hseg
    obtain ⟨p, -, rfl⟩ := List.mem_map.mp hseg
    exact valued_renderParam p
  have hfirst : ValuesFirst flag ([flag].intercalate (ps.map renderParam)) := by
    rw [ValuesFirst, hsplit]
    exact List.pairwise_of_forall_mem_list fun a ha b _ _ => hvalued a ha
  have hall : (ps.map renderParam).filter (Valued ·) = ps.map renderParam :=
    List.filter_eq_self.mpr fun seg hseg => decide_eq_true (hvalued seg hseg)
  have hbinds : parseParam ([flag].intercalate (ps.map renderParam)) m flag trimKey =
      m.bindAll trimKey (bindings flag ([flag].intercalate (ps.map renderParam))) :=
    bindsSegments_of_valuesFirst hsep _ trimKey hfirst m
  rw [hbinds, bindings, hsplit, hall, List.map_map]
  congr 1
  apply List.map_congr_left
  intro p hp
  simp only [Function.comp_apply, renderParam]
  rw [segmentKey_eq (hplain p hp).1, segmentValue_eq (hplain p hp).1]

/-- Cookies are separated by `;` alone when the blank counts as part of the next key. -/
theorem renderCookies_cons (p : Bytes × Bytes) (ps : List (Bytes × Bytes)) :
    renderCookies (p :: ps) =
      (bytes ";").intercalate
        ((p :: ps.map fun q => (' '.toUInt8 :: q.1, q.2)).map renderParam) := by
  have hcons (xs : List Bytes) (x : Bytes) : (bytes "; ").intercalate (x :: xs) =
      (bytes ";").intercalate (x :: xs.map (' '.toUInt8 :: ·)) := by
    induction xs generalizing x with
    | nil => rfl
    | cons y ys ih =>
        have hhead (s : Bytes) (z : Bytes) (zs : List Bytes) :
            s.intercalate ((' '.toUInt8 :: z) :: zs) = ' '.toUInt8 :: s.intercalate (z :: zs) :=
          List.intercalate_cons_cons_left
        rw [List.map_cons, List.intercalate_cons_cons, List.intercalate_cons_cons, ih, hhead]
        simp [bytes]
  rw [renderCookies, List.map_cons, hcons, List.map_cons, List.map_map, List.map_map]
  rfl

theorem trim_eq_self {k : Bytes} (h : NoSurroundingBlank k) : trim k = k := by
  obtain ⟨hhead, hlast⟩ := h
  have hdrop : k.dropWhile isBlank = k := by
    cases k with
    | nil => rfl
    | cons c cs =>
        rw [List.dropWhile_cons_of_neg (by simp [hhead c rfl])]
  rw [trim, hdrop, List.rdropWhile_eq_self_iff]
  intro hk
  have hc := hlast _ (List.getLast?_eq_getLast_of_ne_nil hk)
  simp [hc]

/-- The blank behind the separator is trimmed off. -/
theorem trim_cons_blank (k : Bytes) : trim (' '.toUInt8 :: k) = trim k := by
  rw [trim, List.dropWhile_cons_of_pos (by decide), trim]

/-! ### Round trip -/

theorem holds_bindAll {trimKey : Bytes → Bytes} {ps qs : List (Bytes × Bytes)}
    (hkeys : (qs.map fun p => (trimKey p.1, p.2)) = ps)
    (hps : ps.Pairwise fun p q => caseKey p.1 ≠ caseKey q.1) :
    MapType.Holds (MapType.bindAll trimKey []
      (qs.map fun p => (p.1, UrlCoding.urlEncode p.2 true))) ps := by
  constructor
  · have hperm := MapType.perm_bindAll trimKey
      (qs.map fun p => (p.1, UrlCoding.urlEncode p.2 true)) []
      (by rw [← hkeys, List.pairwise_map] at hps; rwa [List.pairwise_map]) (by simp)
    rw [List.nil_append, List.map_map] at hperm
    have hback : ((fun p : Bytes × Bytes => (trimKey p.1, urlDecode p.2)) ∘
        fun p : Bytes × Bytes => (p.1, UrlCoding.urlEncode p.2 true)) =
        fun p : Bytes × Bytes => (trimKey p.1, p.2) := by
      funext p
      simp only [Function.comp_apply, urlDecode_urlEncode]
    rwa [hback, hkeys] at hperm
  · exact MapType.Ordered.bindAll List.Pairwise.nil _ _

theorem query_round_trip {ps : List (Bytes × Bytes)} (h : ParamList '&'.toUInt8 ps) :
    MapType.Holds (parseParam (renderQuery ps) [] '&'.toUInt8 id) ps := by
  by_cases hne : ps = []
  · subst hne
    exact ⟨by decide, by decide⟩
  · show MapType.Holds (parseParam (['&'.toUInt8].intercalate _) _ _ _) _
    rw [parseParam_render separator_ampersand (.inl rfl) h.plain hne]
    exact holds_bindAll (by simp) h.distinct

theorem cookies_round_trip {ps : List (Bytes × Bytes)} (h : ParamList ';'.toUInt8 ps)
    (hblank : ∀ p ∈ ps, NoSurroundingBlank p.1) (hne : ps ≠ []) :
    MapType.Holds (parseParam (renderCookies ps) [] ';'.toUInt8 trim) ps := by
  cases ps with
  | nil => exact absurd rfl hne
  | cons p ps =>
      have hplain : ∀ q ∈ p :: ps.map (fun q => (' '.toUInt8 :: q.1, q.2)),
          '='.toUInt8 ∉ q.1 ∧ ';'.toUInt8 ∉ q.1 := by
        intro q hq
        rcases List.mem_cons.mp hq with rfl | hq
        · exact h.plain q List.mem_cons_self
        · obtain ⟨r, hr, rfl⟩ := List.mem_map.mp hq
          obtain ⟨heq, hsemi⟩ := h.plain r (List.mem_cons_of_mem _ hr)
          simp only [List.mem_cons, not_or]
          exact ⟨⟨by decide, heq⟩, by decide, hsemi⟩
      have hkeys : ((p :: ps.map (fun q => (' '.toUInt8 :: q.1, q.2))).map
          fun q => (trim q.1, q.2)) = p :: ps := by
        rw [List.map_cons, List.map_map, trim_eq_self (hblank p List.mem_cons_self)]
        congr 1
        conv_rhs => rw [← List.map_id ps]
        apply List.map_congr_left
        intro q hq
        simp only [Function.comp_apply, trim_cons_blank,
          trim_eq_self (hblank q (List.mem_cons_of_mem _ hq)), id_eq]
      rw [renderCookies_cons]
      show MapType.Holds (parseParam ([';'.toUInt8].intercalate _) _ _ _) _
      rw [parseParam_render separator_semicolon (.inr rfl) hplain (by simp)]
      exact holds_bindAll hkeys h.distinct

/-- Rendered queries and cookies come back as the map with exactly the rendered entries, for
arbitrary values and for keys that can be told apart. -/
theorem params_round_trip :
    (∀ (r : ParamRequest) (ps : List (Bytes × Bytes)), r.Fresh → ParamList '&'.toUInt8 ps →
      MapType.Holds { r with query := renderQuery ps }.initQueryParam.params ps) ∧
    ∀ (r : ParamRequest) (ps : List (Bytes × Bytes)), r.Fresh → ParamList ';'.toUInt8 ps →
      (∀ p ∈ ps, NoSurroundingBlank p.1) → ps ≠ [] →
      MapType.Holds { r with
        toHttpRequest := r.setHeader (bytes "cookie") (renderCookies ps) }.initCookies.cookies
        ps := by
  constructor
  · intro r ps hr h
    have hflag : r.parserParamFlag &&& 0x1 = 0 := by
      rw [hr.flag]
      rfl
    simp only [ParamRequest.initQueryParam, hflag, ne_eq, not_true_eq_false, if_false, hr.params]
    exact query_round_trip h
  · intro r ps hr h hblank hne
    have hflag : r.parserParamFlag &&& 0x4 = 0 := by
      rw [hr.flag]
      rfl
    have hget : (r.setHeader (bytes "cookie") (renderCookies ps)).getHeader (bytes "cookie") =
        renderCookies ps := by
      simp only [HttpRequest.setHeader, HttpRequest.getHeader, MapType.find_set, Option.getD_some]
    have hcookie : renderCookies ps ≠ [] := by
      cases ps with
      | nil => exact absurd rfl hne
      | cons p ps =>
          rw [renderCookies, List.map_cons]
          cases ps <;> simp [List.intercalate_cons_cons, renderParam]
    simp only [ParamRequest.initCookies, hflag, ne_eq, not_true_eq_false, if_false, hget, hcookie,
      hr.cookies]
    exact cookies_round_trip h hblank hne

/-- Values with separators, an equals sign and a blank in them, and an empty key. -/
theorem params_round_trip_specials :
    MapType.Holds { ({} : ParamRequest) with
      query := renderQuery [(bytes "b", bytes "1&2=3; "), ([], bytes "+%")]
      }.initQueryParam.params [(bytes "b", bytes "1&2=3; "), ([], bytes "+%")] ∧
    MapType.Holds { ({} : ParamRequest) with
      toHttpRequest := HttpRequest.setHeader {} (bytes "cookie")
        (renderCookies [(bytes "sid", bytes "a b;c"), (bytes "Lang", [])])
      }.initCookies.cookies [(bytes "sid", bytes "a b;c"), (bytes "Lang", [])] := by
  have hfresh : ParamRequest.Fresh {} := ⟨rfl, rfl, rfl⟩
  constructor
  · exact params_round_trip.1 {} _ hfresh ⟨by decide, by decide⟩
  · exact params_round_trip.2 {} _ hfresh ⟨by decide, by decide⟩ (by decide +kernel) (by decide)

end Xzmjx.HttpRequestModel
