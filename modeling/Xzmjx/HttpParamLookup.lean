import Xzmjx.HttpParamMaps
import Xzmjx.UrlCoding

/-!
# Looking up parameters

The query and a form body are parsed when a parameter is first asked for. `getParam` parses
the body before the query, the template accessors the query before the body, and the first
binding of a key stays. After the first lookup both are parsed and the map is final, so a
sequence of lookups sees one of two maps.

`boost::lexical_cast<std::string>` is a parameter, and `none` is its exception.
-/
namespace Xzmjx.HttpRequestModel
open HttpParserModel

/-- `getAs` for strings. -/
def getAs (lexicalCast : Bytes → Option Bytes) (m : MapType) (key default : Bytes) : Bytes :=
  match m.find key with
  | none => default
  | some v => (lexicalCast v).getD default

/-- `checkGetAs` for strings: the result and `val`. -/
def checkGetAs (lexicalCast : Bytes → Option Bytes) (m : MapType) (key default : Bytes) :
    Bool × Bytes :=
  match m.find key with
  | none => (false, default)
  | some v =>
      match lexicalCast v with
      | some val => (true, val)
      | none => (false, default)

inductive Accessor
  | getParam
  | getParamAs
  | checkGetParamAs
  deriving DecidableEq, Repr

structure Lookup where
  accessor : Accessor
  key : Bytes
  default : Bytes
  deriving DecidableEq, Repr

namespace ParamRequest

def getParam (r : ParamRequest) (key default : Bytes) : Bytes × ParamRequest :=
  let r := r.initBodyParam.initQueryParam
  ((r.params.find key).getD default, r)

def getParamAs (lexicalCast : Bytes → Option Bytes) (r : ParamRequest) (key default : Bytes) :
    Bytes × ParamRequest :=
  let r := r.initQueryParam.initBodyParam
  (getAs lexicalCast r.params key default, r)

def checkGetParamAs (lexicalCast : Bytes → Option Bytes) (r : ParamRequest)
    (key default : Bytes) : (Bool × Bytes) × ParamRequest :=
  let r := r.initQueryParam.initBodyParam
  (checkGetAs lexicalCast r.params key default, r)

/-- The value that a lookup gives, and the request afterwards. -/
def look (lexicalCast : Bytes → Option Bytes) (r : ParamRequest) (l : Lookup) :
    Bytes × ParamRequest :=
  match l.accessor with
  | .getParam => r.getParam l.key l.default
  | .getParamAs => r.getParamAs lexicalCast l.key l.default
  | .checkGetParamAs =>
      let (found, r) := r.checkGetParamAs lexicalCast l.key l.default
      (found.2, r)

/-- The lookups of a sequence, each with its value. -/
def answers (lexicalCast : Bytes → Option Bytes) : ParamRequest → List Lookup →
    List (Lookup × Bytes)
  | _, [] => []
  | r, l :: ls => (l, (r.look lexicalCast l).1) :: answers lexicalCast (r.look lexicalCast l).2 ls

/-- Lookups of one key give the same value in all sequences of lookups. -/
def OrderIndependent (lexicalCast : Bytes → Option Bytes) (r : ParamRequest) : Prop :=
  ∀ ls ls', ∀ a ∈ r.answers lexicalCast ls, ∀ b ∈ r.answers lexicalCast ls',
    a.1.key = b.1.key → a.1.default = b.1.default → a.2 = b.2

/-- The value that the query will bind a key to, if it is still to be parsed. -/
def queryBinding (r : ParamRequest) (k : Bytes) : Option Bytes :=
  if r.parserParamFlag &&& 0x1 = 0 then
    MapType.firstBinding (merged '&'.toUInt8 [] (r.query.splitOn '&'.toUInt8)) k
  else none

/-- The value that a form body will bind a key to, if it is still to be parsed. -/
def bodyBinding (r : ParamRequest) (k : Bytes) : Option Bytes :=
  if r.parserParamFlag &&& 0x2 = 0 ∧ strcasestr (r.getHeader (bytes "content-type"))
      (bytes "application/x-www-form-urlencoded") then
    MapType.firstBinding (merged '&'.toUInt8 [] (r.body.splitOn '&'.toUInt8)) k
  else none

/-- No key that is still free is given one value by the query and another by the body. -/
def Consistent (r : ParamRequest) : Prop :=
  ∀ k v w, r.params.find k = none → r.queryBinding k = some v → r.bodyBinding k = some w → v = w

/-! ### The two maps -/

/-- The flag of one parse does not show in the bit of the other. -/
theorem flag_bits (f : UInt8) :
    (f ||| 0x1) &&& 0x1 ≠ 0 ∧ (f ||| 0x2) &&& 0x2 ≠ 0 ∧ (f ||| 0x1) &&& 0x2 = f &&& 0x2 ∧
      (f ||| 0x2) &&& 0x1 = f &&& 0x1 := by
  apply UrlCoding.forall_byte (p := fun f => _ ∧ _ ∧ _ ∧ _) ?_ f
  decide +kernel

variable (r : ParamRequest)

theorem initQueryParam_flag : r.initQueryParam.parserParamFlag &&& 0x1 ≠ 0 := by
  rw [initQueryParam]
  split_ifs with h
  · exact h
  · exact (flag_bits _).1

theorem initBodyParam_flag : r.initBodyParam.parserParamFlag &&& 0x2 ≠ 0 := by
  rw [initBodyParam]
  split_ifs with h
  · exact h
  dsimp only
  split_ifs
  · exact (flag_bits _).2.1
  · exact (flag_bits _).2.1

theorem bodyBinding_initQueryParam (k : Bytes) :
    r.initQueryParam.bodyBinding k = r.bodyBinding k := by
  rw [initQueryParam]
  split_ifs
  · rfl
  · simp only [bodyBinding, (flag_bits _).2.2.1]

theorem queryBinding_initBodyParam (k : Bytes) :
    r.initBodyParam.queryBinding k = r.queryBinding k := by
  rw [initBodyParam]
  split_ifs
  · rfl
  dsimp only
  split_ifs
  · simp only [queryBinding, (flag_bits _).2.2.2]
  · simp only [queryBinding, (flag_bits _).2.2.2]

variable {r}

theorem find_initQueryParam (hr : r.params.Ordered) (k : Bytes) :
    r.initQueryParam.params.find k = (r.params.find k).or (r.queryBinding k) ∧
      r.initQueryParam.params.Ordered := by
  by_cases hflag : r.parserParamFlag &&& 0x1 = 0
  · have hparams : r.initQueryParam.params = r.params.bindAll id
        (merged '&'.toUInt8 [] (r.query.splitOn '&'.toUInt8)) := by
      simp only [initQueryParam, hflag, ne_eq, not_true_eq_false, if_false]
      exact parseParam_eq (by decide) _ _ _
    rw [hparams, queryBinding, if_pos hflag]
    exact ⟨MapType.find_bindAll hr _ k, hr.bindAll _ _⟩
  · have hsame : r.initQueryParam = r := by rw [initQueryParam, if_pos hflag]
    rw [hsame, queryBinding, if_neg hflag, Option.or_none]
    exact ⟨rfl, hr⟩

theorem find_initBodyParam (hr : r.params.Ordered) (k : Bytes) :
    r.initBodyParam.params.find k = (r.params.find k).or (r.bodyBinding k) ∧
      r.initBodyParam.params.Ordered := by
  by_cases hpending : r.parserParamFlag &&& 0x2 = 0 ∧ strcasestr
      (r.getHeader (bytes "content-type")) (bytes "application/x-www-form-urlencoded") = true
  · have hparams : r.initBodyParam.params = r.params.bindAll id
        (merged '&'.toUInt8 [] (r.body.splitOn '&'.toUInt8)) := by
      simp only [initBodyParam, hpending.1, ne_eq, not_true_eq_false, if_false, hpending.2, if_true]
      exact parseParam_eq (by decide) _ _ _
    rw [hparams, bodyBinding, if_pos hpending]
    exact ⟨MapType.find_bindAll hr _ k, hr.bindAll _ _⟩
  · have hsame : r.initBodyParam.params = r.params := by
      rw [initBodyParam]
      split_ifs with hflag
      · rfl
      dsimp only
      split_ifs with hform
      · exact absurd ⟨not_not.mp hflag, hform⟩ hpending
      · rfl
    rw [hsame, bodyBinding, if_neg hpending, Option.or_none]
    exact ⟨rfl, hr⟩

/-- The map of a sequence that `getParam` begins. -/
theorem find_bodyFirst (hr : r.params.Ordered) (k : Bytes) :
    r.initBodyParam.initQueryParam.params.find k =
      (r.params.find k).or ((r.bodyBinding k).or (r.queryBinding k)) := by
  obtain ⟨hfind, hordered⟩ := find_initBodyParam hr k
  rw [(find_initQueryParam hordered k).1, hfind, queryBinding_initBodyParam, Option.or_assoc]

/-- The map of a sequence that a template accessor begins. -/
theorem find_queryFirst (hr : r.params.Ordered) (k : Bytes) :
    r.initQueryParam.initBodyParam.params.find k =
      (r.params.find k).or ((r.queryBinding k).or (r.bodyBinding k)) := by
  obtain ⟨hfind, hordered⟩ := find_initQueryParam hr k
  rw [(find_initBodyParam hordered k).1, hfind, bodyBinding_initQueryParam, Option.or_assoc]

/-- The two maps agree exactly if the query and the body do. -/
theorem maps_agree_iff (hr : r.params.Ordered) :
    (∀ k, r.initBodyParam.initQueryParam.params.find k =
      r.initQueryParam.initBodyParam.params.find k) ↔ r.Consistent := by
  simp only [find_bodyFirst hr, find_queryFirst hr]
  constructor
  · intro h k v w hfree hq hb
    have hk := h k
    rw [hfree, hq, hb] at hk
    exact (Option.some.inj hk).symm
  · intro h k
    cases hfree : r.params.find k with
    | some v => rfl
    | none =>
        cases hq : r.queryBinding k with
        | none => cases r.bodyBinding k <;> rfl
        | some v =>
            cases hb : r.bodyBinding k with
            | none => rfl
            | some w => rw [h k v w hfree hq hb]

/-! ### Sequences of lookups -/

/-- Query and body have been parsed. -/
def Parsed (r : ParamRequest) : Prop :=
  r.parserParamFlag &&& 0x1 ≠ 0 ∧ r.parserParamFlag &&& 0x2 ≠ 0

theorem Parsed.initQueryParam (h : r.Parsed) : r.initQueryParam = r := by
  rw [ParamRequest.initQueryParam, if_pos h.1]

theorem Parsed.initBodyParam (h : r.Parsed) : r.initBodyParam = r := by
  rw [ParamRequest.initBodyParam, if_pos h.2]

/-- The request after the parses of an accessor. -/
def settled (r : ParamRequest) : Accessor → ParamRequest
  | .getParam => r.initBodyParam.initQueryParam
  | .getParamAs => r.initQueryParam.initBodyParam
  | .checkGetParamAs => r.initQueryParam.initBodyParam

theorem Parsed.settled (h : r.Parsed) (a : Accessor) : r.settled a = r := by
  cases a <;> simp only [ParamRequest.settled, h.initQueryParam, h.initBodyParam]

theorem parsed_bodyFirst (r : ParamRequest) : r.initBodyParam.initQueryParam.Parsed := by
  refine ⟨initQueryParam_flag _, ?_⟩
  have hbody := initBodyParam_flag r
  rw [ParamRequest.initQueryParam]
  split_ifs
  · exact hbody
  · rwa [(flag_bits _).2.2.1]

theorem parsed_queryFirst (r : ParamRequest) : r.initQueryParam.initBodyParam.Parsed := by
  refine ⟨?_, initBodyParam_flag _⟩
  have hquery := initQueryParam_flag r
  rw [ParamRequest.initBodyParam]
  split_ifs
  · exact hquery
  dsimp only
  split_ifs
  · rwa [(flag_bits _).2.2.2]
  · rwa [(flag_bits _).2.2.2]

theorem parsed_settled (r : ParamRequest) (a : Accessor) : (r.settled a).Parsed := by
  cases a with
  | getParam => exact parsed_bodyFirst r
  | getParamAs => exact parsed_queryFirst r
  | checkGetParamAs => exact parsed_queryFirst r

variable {lexicalCast : Bytes → Option Bytes}

/-- Every accessor looks its key up in the map that it leaves behind. -/
theorem look_eq (hcast : ∀ v, lexicalCast v = some v) (r : ParamRequest) (l : Lookup) :
    r.look lexicalCast l =
      (((r.settled l.accessor).params.find l.key).getD l.default, r.settled l.accessor) := by
  obtain ⟨accessor, key, default⟩ := l
  cases accessor with
  | getParam => rfl
  | getParamAs =>
      simp only [look, getParamAs, getAs, settled]
      cases r.initQueryParam.initBodyParam.params.find key with
      | none => rfl
      | some v => simp only [hcast, Option.getD_some]
  | checkGetParamAs =>
      simp only [look, checkGetParamAs, checkGetAs, settled]
      cases r.initQueryParam.initBodyParam.params.find key with
      | none => rfl
      | some v => simp only [hcast, Option.getD_some]

/-- After both parses all lookups are lookups in one map. -/
theorem Parsed.answers (h : r.Parsed) (hcast : ∀ v, lexicalCast v = some v)
    {ls : List Lookup} {a : Lookup × Bytes} (ha : a ∈ r.answers lexicalCast ls) :
    a.2 = (r.params.find a.1.key).getD a.1.default := by
  induction ls with
  | nil => cases ha
  | cons l ls ih =>
      rw [ParamRequest.answers, look_eq hcast, h.settled] at ha
      rcases List.mem_cons.mp ha with rfl | ha
      · rfl
      · exact ih ha

/-- A sequence of lookups sees the map of its first lookup. -/
theorem exists_settled (hcast : ∀ v, lexicalCast v = some v) {ls : List Lookup}
    {a : Lookup × Bytes} (ha : a ∈ r.answers lexicalCast ls) :
    ∃ first, a.2 = ((r.settled first).params.find a.1.key).getD a.1.default := by
  cases ls with
  | nil => cases ha
  | cons l ls =>
      rw [ParamRequest.answers, look_eq hcast] at ha
      refine ⟨l.accessor, ?_⟩
      rcases List.mem_cons.mp ha with rfl | ha
      · rfl
      · exact (parsed_settled r l.accessor).answers hcast ha

theorem find_settled (h : ∀ k, r.initBodyParam.initQueryParam.params.find k =
    r.initQueryParam.initBodyParam.params.find k) (a : Accessor) (k : Bytes) :
    (r.settled a).params.find k = r.initQueryParam.initBodyParam.params.find k := by
  cases a with
  | getParam => exact h k
  | getParamAs => rfl
  | checkGetParamAs => rfl

/-- Values that agree with every default are the same. -/
theorem eq_of_getD_eq {x y : Option Bytes} (h : ∀ d, x.getD d = y.getD d) : x = y := by
  cases x with
  | none =>
      cases y with
      | none => rfl
      | some w => exact absurd (h (0 :: w)) (List.cons_ne_self 0 w)
  | some v =>
      cases y with
      | none => exact absurd (h (0 :: v)).symm (List.cons_ne_self 0 v)
      | some w => exact congrArg some (h [])

/-- Lookups do not depend on the order of the accessors exactly if the query and a form body
that are still to be parsed do not bind a free key to two values. -/
theorem lookups_order_independent_iff (hcast : ∀ v, lexicalCast v = some v)
    (hr : r.params.Ordered) : r.OrderIndependent lexicalCast ↔ r.Consistent := by
  rw [← maps_agree_iff hr]
  constructor
  · intro h k
    apply eq_of_getD_eq
    intro d
    have hbody := look_eq hcast r ⟨.getParam, k, d⟩
    have hquery := look_eq hcast r ⟨.getParamAs, k, d⟩
    have hvalue := h [⟨.getParam, k, d⟩] [⟨.getParamAs, k, d⟩] _ List.mem_cons_self _
      List.mem_cons_self rfl rfl
    rw [hbody, hquery] at hvalue
    exact hvalue
  · intro h ls ls' a ha b hb hkey hdefault
    obtain ⟨first, ha⟩ := exists_settled hcast ha
    obtain ⟨first', hb⟩ := exists_settled hcast hb
    rw [ha, hb, find_settled h, find_settled h, hkey, hdefault]

/-- A query and a form body with one key in common, and the same value for it. -/
def sameTwice : ParamRequest where
  query := bytes "a=1&b=2"
  body := bytes "A=1&c=3"
  headers := [(bytes "Content-Type", bytes "application/x-www-form-urlencoded")]

theorem lookups_order_independent_iff_same : sameTwice.OrderIndependent some := by
  apply (lookups_order_independent_iff (fun _ => rfl) (by decide)).mpr
  intro k v w _ hv hw
  have hquery : merged '&'.toUInt8 [] (sameTwice.query.splitOn '&'.toUInt8) =
      [(bytes "a", bytes "1"), (bytes "b", bytes "2")] := by decide +kernel
  have hbody : merged '&'.toUInt8 [] (sameTwice.body.splitOn '&'.toUInt8) =
      [(bytes "A", bytes "1"), (bytes "c", bytes "3")] := by decide +kernel
  have hcase : caseKey (bytes "A") = caseKey (bytes "a") := by decide
  rw [queryBinding, if_pos (by decide), hquery] at hv
  rw [bodyBinding, if_pos (by decide +kernel), hbody] at hw
  by_cases ha : caseKey (bytes "a") = caseKey k
  · rw [MapType.firstBinding_cons_of_eq ha] at hv
    rw [MapType.firstBinding_cons_of_eq (hcase.trans ha)] at hw
    exact Option.some.inj (hv.symm.trans hw)
  · rw [MapType.firstBinding_cons_of_ne (hcase ▸ ha)] at hw
    by_cases hc : caseKey (bytes "c") = caseKey k
    · have hb : caseKey (bytes "b") ≠ caseKey k := fun hb => absurd (hb.trans hc.symm) (by decide)
      rw [MapType.firstBinding_cons_of_ne ha, MapType.firstBinding_cons_of_ne hb] at hv
      cases hv
    · rw [MapType.firstBinding_cons_of_ne hc] at hw
      cases hw

/-- The query says `a=1` and the body `a=2`: `getParam` gives 2 and `getParamAs` gives 1. -/
theorem lookups_depend_on_order :
    ¬OrderIndependent some
      { query := bytes "a=1"
        body := bytes "a=2"
        headers := [(bytes "content-type", bytes "application/x-www-form-urlencoded")] } := by
  intro h
  have hvalue := h [⟨.getParam, bytes "a", []⟩] [⟨.getParamAs, bytes "a", []⟩] _
    List.mem_cons_self _ List.mem_cons_self rfl rfl
  revert hvalue
  decide +kernel

end ParamRequest

end Xzmjx.HttpRequestModel
