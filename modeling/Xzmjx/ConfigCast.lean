import Mathlib.Data.Finmap
import Mathlib.Data.Finset.Image
import Mathlib.Data.Nat.Pairing
import Xzmjx.ConfigYaml

/-!
# Configuration values as text

`LexicalCast` has one pair of specialisations for each container, and a nested type
composes them. Every encoder builds a YAML node and emits it; they differ in what
they store for a child. Vectors and maps store the tree that `YAML::Load` reads from
the child's text, sets store the text itself, as a scalar. A decoder emits each child
of the node that it has loaded and passes the text on, and finds no children in a
scalar.

`YAML::Load`, the emitter and the conversions of scalars are parameters, and so is the
order in which a container is iterated.
-/
namespace Xzmjx.ConfigModel

/-- The types of configuration values over scalar types `ι`. -/
inductive Ty (ι : Type)
  | scalar (i : ι)
  | vector (t : Ty ι)
  | set (t : Ty ι)
  | unorderedSet (t : Ty ι)
  | map (t : Ty ι)
  | unorderedMap (t : Ty ι)
  deriving DecidableEq, Repr

/-- `std::map<std::string, _>` and its unordered sibling. -/
abbrev StringMap (α : Type) := Finmap fun _ : String => α

/-- The values of a type. Two sets are equal if they have the same elements. -/
def Val {ι : Type} (S : ι → Type) : Ty ι → Type
  | .scalar i => S i
  | .vector t => List (Val S t)
  | .set t | .unorderedSet t => Finset (Val S t)
  | .map t | .unorderedMap t => StringMap (Val S t)

variable {ι : Type} {S : ι → Type}

instance decEqVal [∀ i, DecidableEq (S i)] : (t : Ty ι) → DecidableEq (Val S t)
  | .scalar i => inferInstanceAs (DecidableEq (S i))
  | .vector t =>
      have := decEqVal t
      inferInstanceAs (DecidableEq (List (Val S t)))
  | .set t | .unorderedSet t =>
      have := decEqVal t
      inferInstanceAs (DecidableEq (Finset (Val S t)))
  | .map t | .unorderedMap t =>
      have := decEqVal t
      inferInstanceAs (DecidableEq (StringMap (Val S t)))

/-- The YAML library. -/
structure Yaml where
  load : String → Option Node
  emit : Node → String
  /-- What `node[0], node[1], …` read in a map. -/
  index : List (String × Node) → Option (List Node)

/-- The casts of the scalar types; `none` where one throws. -/
structure ScalarCasts (S : ι → Type) where
  toText : (i : ι) → S i → Option String
  ofText : (i : ι) → String → Option (S i)

inductive Kind
  | ordered
  | unordered
  deriving DecidableEq, Repr

/-- The orders in which `for (auto it : f)` visits the elements of a container. -/
structure Iteration (S : ι → Type) where
  elements : Kind → (t : Ty ι) → Finset (Val S t) → List (Val S t)
  elements_val : ∀ kind t s, (elements kind t s : Multiset (Val S t)) = s.val
  entries : Kind → (t : Ty ι) → StringMap (Val S t) → List (Σ _ : String, Val S t)
  entries_val : ∀ kind t m, (entries kind t m : Multiset (Σ _ : String, Val S t)) = m.entries

/-- The pairs from `node.begin()` to `node.end()`. The elements of a sequence are no pairs,
and `Scalar()` of their first component throws. -/
def Node.pairs : Node → Option (List (String × Node))
  | .map entries => some entries
  | .sequence [] | .null | .scalar _ => some []
  | .sequence (_ :: _) => none

namespace Yaml

variable (y : Yaml) {α : Type}

/-- The nodes `node[i]` for `i < node.size()`. -/
def items : Node → Option (List Node)
  | .sequence items => some items
  | .map entries => y.index entries
  | .null | .scalar _ => some []

/-- `LexicalCast<std::vector<T>, std::string>`. -/
def vectorToString (cast : α → Option String) (f : List α) : Option String := do
  let items ← f.mapM fun x => (cast x).bind y.load
  some (y.emit (.sequence items))

/-- `LexicalCast<std::string, std::vector<T>>`. -/
def vectorFromString (cast : String → Option α) (f : String) : Option (List α) := do
  let node ← y.load f
  let items ← y.items node
  items.mapM fun item => cast (y.emit item)

/-- `LexicalCast<std::set<T>, std::string>` on the elements in the order of iteration; the one
for `std::unordered_set` is the same. -/
def setToString (cast : α → Option String) (f : List α) : Option String := do
  let items ← f.mapM fun x => (cast x).map Node.scalar
  some (y.emit (.sequence items))

/-- `LexicalCast<std::string, std::set<T>>` and the one for `std::unordered_set`. -/
def setFromString [DecidableEq α] (cast : String → Option α) (f : String) :
    Option (Finset α) := do
  let node ← y.load f
  let items ← y.items node
  let values ← items.mapM fun item => cast (y.emit item)
  some values.toFinset

/-- `LexicalCast<std::map<std::string, T>, std::string>` on the entries in the order of
iteration, and the one for `std::unordered_map`. The keys are different, so each
assignment to `node[it.first]` adds an entry. -/
def mapToString (cast : α → Option String) (f : List (Σ _ : String, α)) : Option String := do
  let entries ← f.mapM fun it => ((cast it.2).bind y.load).map fun node => (it.1, node)
  some (y.emit (.map entries))

/-- `LexicalCast<std::string, std::map<std::string, T>>` and the one for
`std::unordered_map`; `insert` keeps the first entry of a key, as `toFinmap` does. -/
def mapFromString (cast : String → Option α) (f : String) : Option (StringMap α) := do
  let node ← y.load f
  let pairs ← node.pairs
  let entries ← pairs.mapM fun it =>
    (cast (y.emit it.2)).map fun x => (⟨it.1, x⟩ : Σ _ : String, α)
  some entries.toFinmap

/-! ### One container around its children -/

variable {y : Yaml}

theorem mapM_eq_some_map {β : Type} {f : α → Option β} {g : α → β} {xs : List α}
    (h : ∀ x ∈ xs, f x = some (g x)) : xs.mapM f = some (xs.map g) := by
  induction xs with
  | nil => rfl
  | cons x xs ih =>
      rw [List.mapM_cons, h x List.mem_cons_self, ih fun z hz => h z (List.mem_cons_of_mem _ hz)]
      rfl

/-- The text of a container is that of the node it was encoded as. -/
theorem vector_back (hy : ∀ node, y.load (y.emit node) = some node)
    {cast : α → Option String} {back : String → Option α} {g : α → α}
    (hcast : ∀ x, ∃ text node, cast x = some text ∧ y.load text = some node ∧
      back (y.emit node) = some (g x)) (xs : List α) :
    ∃ node, y.vectorToString cast xs = some (y.emit node) ∧
      y.vectorFromString back (y.emit node) = some (xs.map g) := by
  choose text node htext hload hback using hcast
  have hitems : (xs.mapM fun x => (cast x).bind y.load) = some (xs.map node) :=
    mapM_eq_some_map fun x _ => by rw [htext, Option.bind_some, hload]
  have hvalues : ((xs.map node).mapM fun item => back (y.emit item)) = some (xs.map g) := by
    rw [List.mapM_map]
    exact mapM_eq_some_map fun x _ => hback x
  refine ⟨.sequence (xs.map node), ?_, ?_⟩
  · rw [Yaml.vectorToString, hitems]
    rfl
  · rw [Yaml.vectorFromString, hy]
    exact hvalues

theorem set_back [DecidableEq α] (hy : ∀ node, y.load (y.emit node) = some node)
    {cast : α → Option String} {back : String → Option α} {g : α → α}
    (hcast : ∀ x, ∃ text, cast x = some text ∧
      back (y.emit (.scalar text)) = some (g x)) (xs : List α) :
    ∃ node, y.setToString cast xs = some (y.emit node) ∧
      y.setFromString back (y.emit node) = some (xs.map g).toFinset := by
  choose text htext hback using hcast
  have hitems : (xs.mapM fun x => (cast x).map Node.scalar) =
      some (xs.map fun x => .scalar (text x)) :=
    mapM_eq_some_map fun x _ => by rw [htext, Option.map_some]
  have hvalues : ((xs.map fun x => Node.scalar (text x)).mapM fun item => back (y.emit item)) =
      some (xs.map g) := by
    rw [List.mapM_map]
    exact mapM_eq_some_map fun x _ => hback x
  refine ⟨.sequence (xs.map fun x => .scalar (text x)), ?_, ?_⟩
  · rw [Yaml.setToString, hitems]
    rfl
  · rw [Yaml.setFromString, hy]
    simp only [Yaml.items, Option.bind_eq_bind, Option.bind_some, hvalues]

theorem map_back (hy : ∀ node, y.load (y.emit node) = some node)
    {cast : α → Option String} {back : String → Option α} {g : α → α}
    (hcast : ∀ x, ∃ text node, cast x = some text ∧ y.load text = some node ∧
      back (y.emit node) = some (g x)) (xs : List (Σ _ : String, α)) :
    ∃ node, y.mapToString cast xs = some (y.emit node) ∧
      y.mapFromString back (y.emit node) =
        some (xs.map fun e => (⟨e.1, g e.2⟩ : Σ _ : String, α)).toFinmap := by
  choose text node htext hload hback using hcast
  have hentries : (xs.mapM fun it => ((cast it.2).bind y.load).map fun node => (it.1, node)) =
      some (xs.map fun it => (it.1, node it.2)) :=
    mapM_eq_some_map fun x _ => by rw [htext, Option.bind_some, hload, Option.map_some]
  have hvalues : ((xs.map fun it => (it.1, node it.2)).mapM fun it =>
      (back (y.emit it.2)).map fun x => (⟨it.1, x⟩ : Σ _ : String, α)) =
      some (xs.map fun e => ⟨e.1, g e.2⟩) := by
    rw [List.mapM_map]
    exact mapM_eq_some_map fun x _ => by rw [Function.comp, hback, Option.map_some]
  refine ⟨.map (xs.map fun it => (it.1, node it.2)), ?_, ?_⟩
  · rw [Yaml.mapToString, hentries]
    rfl
  · rw [Yaml.mapFromString, hy]
    simp only [Node.pairs, Option.bind_eq_bind, Option.bind_some, hvalues]

end Yaml

/-- A loaded text that was emitted is the node it was emitted from, and a scalar comes back
from its text as it stands, from the emitted text of the node it is loaded as, and from the
emitted text of the scalar node it is pushed as. -/
structure LeavesRoundTrip (y : Yaml) (c : ScalarCasts S) : Prop where
  load_emit : ∀ node, y.load (y.emit node) = some node
  leaf : ∀ i a, ∃ text node, c.toText i a = some text ∧ c.ofText i text = some a ∧
    y.load text = some node ∧ c.ofText i (y.emit node) = some a ∧
    c.ofText i (y.emit (.scalar text)) = some a

/-- What comes back of an element of a set: no decoder of a container finds anything in a
scalar. -/
def emptied : (t : Ty ι) → Val S t → Val S t
  | .scalar _, a => a
  | .vector _, _ => []
  | .set _, _ | .unorderedSet _, _ => (∅ : Finset _)
  | .map _, _ | .unorderedMap _, _ => (∅ : StringMap _)

/-- Scalars, and containers with nothing in them. -/
def ScalarOrEmpty : (t : Ty ι) → Val S t → Prop
  | .scalar _, _ => True
  | .vector _, xs => xs = ([] : List _)
  | .set _, s | .unorderedSet _, s => s = (∅ : Finset _)
  | .map _, m | .unorderedMap _, m => m = (∅ : StringMap _)

theorem emptied_eq_self_iff {t : Ty ι} {v : Val S t} : emptied t v = v ↔ ScalarOrEmpty t v := by
  cases t with
  | scalar i => exact iff_of_true rfl trivial
  | vector t | set t | unorderedSet t | map t | unorderedMap t => exact eq_comm

theorem emptied_emptied {t : Ty ι} (v : Val S t) : emptied t (emptied t v) = emptied t v := by
  cases t <;> rfl

variable [∀ i, DecidableEq (S i)]

/-- `LexicalCast<T, std::string>`. -/
def toText (y : Yaml) (c : ScalarCasts S) (o : Iteration S) :
    (t : Ty ι) → Val S t → Option String
  | .scalar i, a => c.toText i a
  | .vector t, xs => y.vectorToString (toText y c o t) xs
  | .set t, s => y.setToString (toText y c o t) (o.elements .ordered t s)
  | .unorderedSet t, s => y.setToString (toText y c o t) (o.elements .unordered t s)
  | .map t, m => y.mapToString (toText y c o t) (o.entries .ordered t m)
  | .unorderedMap t, m => y.mapToString (toText y c o t) (o.entries .unordered t m)

/-- `LexicalCast<std::string, T>`. -/
def fromText (y : Yaml) (c : ScalarCasts S) : (t : Ty ι) → String → Option (Val S t)
  | .scalar i, f => c.ofText i f
  | .vector t, f => y.vectorFromString (fromText y c t) f
  | .set t, f | .unorderedSet t, f => y.setFromString (fromText y c t) f
  | .map t, f | .unorderedMap t, f => y.mapFromString (fromText y c t) f

/-- The value comes back from its text. -/
def RoundTrips (y : Yaml) (c : ScalarCasts S) (o : Iteration S) (t : Ty ι) (v : Val S t) : Prop :=
  (toText y c o t v).bind (fromText y c t) = some v

/-! ### What comes back -/

/-- What comes back of a value. -/
def collapse (o : Iteration S) : (t : Ty ι) → Val S t → Val S t
  | .scalar _, a => a
  | .vector t, xs => List.map (collapse o t) xs
  | .set t, s | .unorderedSet t, s => Finset.image (emptied t) s
  | .map t, m =>
      ((o.entries .ordered t m).map fun e => (⟨e.1, collapse o t e.2⟩ : Σ _, _)).toFinmap
  | .unorderedMap t, m =>
      ((o.entries .unordered t m).map fun e => (⟨e.1, collapse o t e.2⟩ : Σ _, _)).toFinmap

namespace LeavesRoundTrip

variable {y : Yaml} {c : ScalarCasts S}

theorem fromText_scalar (h : LeavesRoundTrip y c) {t : Ty ι} (ht : ∀ i, t ≠ .scalar i)
    (v : Val S t) (text : String) :
    fromText y c t (y.emit (.scalar text)) = some (emptied t v) := by
  cases t with
  | scalar i => exact absurd rfl (ht i)
  | vector t =>
      rw [fromText, Yaml.vectorFromString, h.load_emit]
      rfl
  | set t | unorderedSet t =>
      rw [fromText, Yaml.setFromString, h.load_emit]
      rfl
  | map t | unorderedMap t =>
      rw [fromText, Yaml.mapFromString, h.load_emit]
      rfl

/-- What a caller of the two casts of a type relies on. -/
structure Comes (y : Yaml) (c : ScalarCasts S) (o : Iteration S) (t : Ty ι) (v back : Val S t)
    (text : String) (node : Node) : Prop where
  encoded : toText y c o t v = some text
  decoded : fromText y c t text = some back
  loaded : y.load text = some node
  decodedLoaded : fromText y c t (y.emit node) = some back
  decodedScalar : fromText y c t (y.emit (.scalar text)) = some (emptied t v)

/-- A container's text is the text of a node, so that loading it first makes no difference. -/
theorem comes_of_emit (h : LeavesRoundTrip y c) {o : Iteration S} {t : Ty ι}
    (ht : ∀ i, t ≠ .scalar i) {v back : Val S t}
    (hnode : ∃ node, toText y c o t v = some (y.emit node) ∧
      fromText y c t (y.emit node) = some back) :
    ∃ text node, Comes y c o t v back text node := by
  obtain ⟨node, henc, hdec⟩ := hnode
  exact ⟨y.emit node, node, henc, hdec, h.load_emit node, hdec, h.fromText_scalar ht v _⟩

theorem toFinset_elements (o : Iteration S) (kind : Kind) {t : Ty ι} (s : Finset (Val S t)) :
    ((o.elements kind t s).map (emptied t)).toFinset = s.image (emptied t) := by
  ext x
  have hmem : ∀ z, z ∈ o.elements kind t s ↔ z ∈ s := by
    intro z
    rw [← Multiset.mem_coe, o.elements_val]
    rfl
  simp [hmem]

theorem set_back (h : LeavesRoundTrip y c) (o : Iteration S) (kind : Kind) {t : Ty ι}
    (hcast : ∀ x, ∃ text, toText y c o t x = some text ∧
      fromText y c t (y.emit (.scalar text)) = some (emptied t x)) (s : Finset (Val S t)) :
    ∃ node, y.setToString (toText y c o t) (o.elements kind t s) = some (y.emit node) ∧
      y.setFromString (fromText y c t) (y.emit node) = some (s.image (emptied t)) := by
  rw [← toFinset_elements o kind]
  exact Yaml.set_back h.load_emit hcast _

theorem comes (h : LeavesRoundTrip y c) (o : Iteration S) (t : Ty ι) (v : Val S t) :
    ∃ text node, Comes y c o t v (collapse o t v) text node := by
  induction t with
  | scalar i =>
      obtain ⟨text, node, htext, hback, hload, hloaded, hpushed⟩ := h.leaf i v
      exact ⟨text, node, htext, hback, hload, hloaded, hpushed⟩
  | vector t ih =>
      refine h.comes_of_emit (by simp) (Yaml.vector_back h.load_emit (fun x => ?_) v)
      obtain ⟨text, node, hx⟩ := ih x
      exact ⟨text, node, hx.encoded, hx.loaded, hx.decodedLoaded⟩
  | set t ih | unorderedSet t ih =>
      have hcast : ∀ x, ∃ text, toText y c o t x = some text ∧
          fromText y c t (y.emit (.scalar text)) = some (emptied t x) := by
        intro x
        obtain ⟨text, node, hx⟩ := ih x
        exact ⟨text, hx.encoded, hx.decodedScalar⟩
      exact h.comes_of_emit (by simp) (h.set_back o _ hcast v)
  | map t ih | unorderedMap t ih =>
      refine h.comes_of_emit (by simp) (Yaml.map_back h.load_emit (fun x => ?_) _)
      obtain ⟨text, node, hx⟩ := ih x
      exact ⟨text, node, hx.encoded, hx.loaded, hx.decodedLoaded⟩

end LeavesRoundTrip

/-! ### When everything comes back -/

/-- Every element of a set that the value has in it, at any depth of vectors and maps, is a
scalar or an empty container. -/
def SetsFlat : (t : Ty ι) → Val S t → Prop
  | .scalar _, _ => True
  | .vector t, xs => ∀ x ∈ (show List (Val S t) from xs), SetsFlat t x
  | .set t, s | .unorderedSet t, s => ∀ x ∈ (show Finset (Val S t) from s), ScalarOrEmpty t x
  | .map t, m | .unorderedMap t, m =>
      ∀ e ∈ Finmap.entries (show StringMap (Val S t) from m), SetsFlat t e.2

theorem map_eq_self_iff {α : Type} {f : α → α} {xs : List α} :
    xs.map f = xs ↔ ∀ x ∈ xs, f x = x := by
  induction xs with
  | nil => simp
  | cons x xs ih => simp [ih]

theorem image_emptied_eq_self_iff {t : Ty ι} {s : Finset (Val S t)} :
    s.image (emptied t) = s ↔ ∀ x ∈ s, emptied t x = x := by
  constructor
  · intro hs x hx
    rw [← hs] at hx
    obtain ⟨z, -, rfl⟩ := Finset.mem_image.mp hx
    exact emptied_emptied z
  · intro hs
    rw [Finset.image_congr (g := id) fun x hx => hs x hx, Finset.image_id]

/-- A map rebuilt from its entries, each with its value changed. -/
theorem toFinmap_map_eq_self_iff {α : Type} {m : StringMap α} {l : List (Σ _ : String, α)}
    (hl : (l : Multiset (Σ _ : String, α)) = m.entries) {g : α → α} :
    (l.map fun e => (⟨e.1, g e.2⟩ : Σ _ : String, α)).toFinmap = m ↔
      ∀ e ∈ m.entries, g e.2 = e.2 := by
  have hnodup : l.NodupKeys := by
    have := m.nodupKeys
    rwa [← hl] at this
  have hlookup (k : String) : m.lookup k = l.dlookup k := by
    ext b
    rw [← Option.mem_def, ← Option.mem_def, Finmap.mem_lookup_iff, List.mem_dlookup_iff hnodup,
      ← hl, Multiset.mem_coe]
  have hmapped (k : String) :
      (l.map fun e => (⟨e.1, g e.2⟩ : Σ _ : String, α)).toFinmap.lookup k =
        (m.lookup k).map g := by
    rw [Finmap.dlookup_list_toFinmap, hlookup]
    exact List.dlookup_map₂ (f := fun _ => g) k
  constructor
  · rintro heq ⟨k, x⟩ he
    have hx : m.lookup k = some x := Finmap.lookup_eq_some_iff.mpr he
    have hg := hmapped k
    rw [heq, hx] at hg
    exact (Option.some.inj hg).symm
  · intro hg
    refine Finmap.ext_lookup fun k => ?_
    rw [hmapped]
    cases hx : m.lookup k with
    | none => rfl
    | some x => exact congrArg some (hg ⟨k, x⟩ (Finmap.lookup_eq_some_iff.mp hx))

theorem collapse_eq_self_iff (o : Iteration S) {t : Ty ι} {v : Val S t} :
    collapse o t v = v ↔ SetsFlat t v := by
  induction t with
  | scalar i => exact iff_of_true rfl trivial
  | vector t ih => exact map_eq_self_iff.trans (forall₂_congr fun x _ => ih)
  | set t _ | unorderedSet t _ =>
      exact image_emptied_eq_self_iff.trans (forall₂_congr fun x _ => emptied_eq_self_iff)
  | map t ih | unorderedMap t ih =>
      exact (toFinmap_map_eq_self_iff (o.entries_val _ t v)).trans (forall₂_congr fun e _ => ih)

/-- Values that come back from their text. Of every type and every value, and under
every order of iteration: exactly those whose sets hold nothing but scalars and empty
containers. -/
theorem roundTrips_iff (y : Yaml) (c : ScalarCasts S) (h : LeavesRoundTrip y c) (o : Iteration S)
    (t : Ty ι) (v : Val S t) : RoundTrips y c o t v ↔ SetsFlat t v := by
  obtain ⟨text, node, hcomes⟩ := h.comes o t v
  rw [RoundTrips, hcomes.encoded, Option.bind_some, hcomes.decoded, ← collapse_eq_self_iff o]
  exact Option.some_inj

/-! ### A library that satisfies the assumptions

The texts are those of the block style for the nodes that `true`, `false` and containers of
them are encoded as below; every other node is given some text of its own. -/

def textCode : List Char → ℕ
  | [] => 0
  | c :: cs => Nat.pair c.toNat (textCode cs) + 1

theorem textCode_injective : Function.Injective textCode := by
  intro cs
  induction cs with
  | nil =>
      rintro (_ | ⟨d, ds⟩) h
      · rfl
      · simp [textCode] at h
  | cons c cs ih =>
      rintro (_ | ⟨d, ds⟩) h
      · simp [textCode] at h
      · simp only [textCode, Nat.add_right_cancel_iff, Nat.pair_eq_pair] at h
        rw [Char.toNat_inj.mp h.1, ih h.2]

mutual

/-- A number for every node. -/
def Node.code : Node → ℕ
  | .null => Nat.pair 0 0
  | .scalar text => Nat.pair 1 (textCode text.toList)
  | .sequence items => Nat.pair 2 (codeItems items)
  | .map entries => Nat.pair 3 (codeEntries entries)

def codeItems : List Node → ℕ
  | [] => 0
  | item :: items => Nat.pair item.code (codeItems items) + 1

def codeEntries : List (String × Node) → ℕ
  | [] => 0
  | (key, child) :: entries =>
      Nat.pair (Nat.pair (textCode key.toList) child.code) (codeEntries entries) + 1

end

mutual

theorem code_injective (a b : Node) (h : a.code = b.code) : a = b := by
  match a, b with
  | .null, .null => rfl
  | .scalar s, .scalar t =>
      simp only [Node.code, Nat.pair_eq_pair, true_and] at h
      rw [String.toList_inj.mp (textCode_injective h)]
  | .sequence xs, .sequence ys =>
      simp only [Node.code, Nat.pair_eq_pair, true_and] at h
      rw [codeItems_injective xs ys h]
  | .map es, .map fs =>
      simp only [Node.code, Nat.pair_eq_pair, true_and] at h
      rw [codeEntries_injective es fs h]
  | .null, .scalar _ | .null, .sequence _ | .null, .map _ | .scalar _, .null
  | .scalar _, .sequence _ | .scalar _, .map _ | .sequence _, .null | .sequence _, .scalar _
  | .sequence _, .map _ | .map _, .null | .map _, .scalar _ | .map _, .sequence _ =>
      simp [Node.code, Nat.pair_eq_pair] at h

theorem codeItems_injective (xs ys : List Node) (h : codeItems xs = codeItems ys) : xs = ys := by
  match xs, ys with
  | [], [] => rfl
  | x :: xs, y :: ys =>
      simp only [codeItems, Nat.add_right_cancel_iff, Nat.pair_eq_pair] at h
      rw [code_injective x y h.1, codeItems_injective xs ys h.2]
  | [], _ :: _ | _ :: _, [] => simp [codeItems] at h

theorem codeEntries_injective (es fs : List (String × Node))
    (h : codeEntries es = codeEntries fs) : es = fs := by
  match es, fs with
  | [], [] => rfl
  | (k, x) :: es, (l, y) :: fs =>
      simp only [codeEntries, Nat.add_right_cancel_iff, Nat.pair_eq_pair] at h
      rw [String.toList_inj.mp (textCode_injective h.1.1), code_injective x y h.1.2,
        codeEntries_injective es fs h.2]
  | [], _ :: _ | _ :: _, [] => simp [codeEntries] at h

end

/-- The texts of the block style. -/
def blockText : Node → Option String
  | .scalar "1" => some "1"
  | .scalar "0" => some "0"
  | .scalar "- 1" => some "\"- 1\""
  | .sequence [.scalar "1"] => some "- 1"
  | .sequence [.scalar "- 1"] => some "- \"- 1\""
  | _ => none

def ofBlockText : String → Option Node
  | "1" => some (.scalar "1")
  | "0" => some (.scalar "0")
  | "\"- 1\"" => some (.scalar "- 1")
  | "- 1" => some (.sequence [.scalar "1"])
  | "- \"- 1\"" => some (.sequence [.scalar "- 1"])
  | _ => none

theorem ofBlockText_eq {node : Node} {text : String} (h : blockText node = some text) :
    ofBlockText text = some node := by
  unfold blockText at h
  split at h <;> cases h <;> rfl

/-- The texts of the other nodes. -/
def otherText (node : Node) : String := String.ofList (List.replicate (node.code + 8) '&')

theorem length_lt_of_ofBlockText {text : String} {node : Node} (h : ofBlockText text = some node) :
    text.length < 8 := by
  unfold ofBlockText at h
  split at h
  · decide
  · decide
  · decide
  · decide
  · decide
  · cases h

theorem ofBlockText_otherText (node : Node) : ofBlockText (otherText node) = none := by
  by_contra hsome
  obtain ⟨node', hnode'⟩ := Option.ne_none_iff_exists'.mp hsome
  have hlen := length_lt_of_ofBlockText hnode'
  simp only [otherText, String.length_ofList, List.length_replicate] at hlen
  omega

theorem otherText_injective : Function.Injective otherText := by
  intro a b h
  have hlen := congrArg String.length h
  simp only [otherText, String.length_ofList, List.length_replicate] at hlen
  exact code_injective a b (by omega)

def emitBlock (node : Node) : String := (blockText node).getD (otherText node)

/-- Every text is read back as the node it came from. -/
theorem emitBlock_injective : Function.Injective emitBlock := by
  intro a b h
  unfold emitBlock at h
  cases ha : blockText a with
  | some s =>
      cases hb : blockText b with
      | some t =>
          obtain rfl : s = t := by simpa [ha, hb] using h
          exact Option.some.inj ((ofBlockText_eq ha).symm.trans (ofBlockText_eq hb))
      | none =>
          obtain rfl : s = otherText b := by simpa [ha, hb] using h
          simpa [ofBlockText_otherText] using ofBlockText_eq ha
  | none =>
      cases hb : blockText b with
      | some t =>
          obtain rfl : otherText a = t := by simpa [ha, hb] using h
          simpa [ofBlockText_otherText] using ofBlockText_eq hb
      | none => exact otherText_injective (by simpa [ha, hb] using h)

open Classical in
/-- A reader that inverts an emitter. -/
theorem load_of_injective {emit : Node → String} (h : Function.Injective emit) (node : Node) :
    (if hex : ∃ n, emit n = emit node then some hex.choose else none) = some node := by
  have hex : ∃ n, emit n = emit node := ⟨node, rfl⟩
  rw [dif_pos hex, h hex.choose_spec]

open Classical in
/-- The library whose emitter writes these texts and that loads them back. -/
noncomputable def Yaml.block : Yaml where
  load text := if h : ∃ node, emitBlock node = text then some h.choose else none
  emit := emitBlock
  index _ := none

/-- The casts of a leaf type of two values that round-trip; `lexical_cast` of a `bool` throws. -/
def boolCasts : ScalarCasts fun _ : Unit => Bool where
  toText _ b := some (if b then "1" else "0")
  ofText _ text := if text = "1" then some true else if text = "0" then some false else none

noncomputable def Iteration.someOrder (S : ι → Type) : Iteration S where
  elements _ _ s := s.toList
  elements_val _ _ s := s.coe_toList
  entries _ _ m := m.entries.toList
  entries_val _ _ m := m.entries.coe_toList

theorem Yaml.block_load_emit (node : Node) :
    Yaml.block.load (Yaml.block.emit node) = some node :=
  load_of_injective emitBlock_injective node

theorem leavesRoundTrip_block : LeavesRoundTrip Yaml.block boolCasts where
  load_emit := Yaml.block_load_emit
  leaf _ b := by
    refine ⟨if b then "1" else "0", .scalar (if b then "1" else "0"), rfl, ?_, ?_, ?_, ?_⟩
    · cases b <;> rfl
    · cases b
      · exact Yaml.block_load_emit (.scalar "0")
      · exact Yaml.block_load_emit (.scalar "1")
    · cases b <;> rfl
    · cases b <;> rfl

/-- A vector of leaves comes back. -/
theorem roundTrips_vector :
    LeavesRoundTrip Yaml.block boolCasts ∧
      toText Yaml.block boolCasts (.someOrder _) (.vector (.scalar ())) [true] = some "- 1" ∧
      RoundTrips Yaml.block boolCasts (.someOrder _) (.vector (.scalar ())) [true] := by
  refine ⟨leavesRoundTrip_block, ?_, ?_⟩
  · have hload : Yaml.block.load "1" = some (.scalar "1") := Yaml.block_load_emit (.scalar "1")
    have hitems : ([true].mapM fun x => (boolCasts.toText () x).bind Yaml.block.load) =
        some [.scalar "1"] := by
      simp [boolCasts, hload]
    exact congrArg (Option.bind · _) hitems
  · refine (roundTrips_iff _ _ leavesRoundTrip_block _ _ _).mpr ?_
    intro x hx
    trivial

/-- A set that holds the vector `[true]` comes back as the set of the empty vector. -/
theorem not_roundTrips_set_vector :
    LeavesRoundTrip Yaml.block boolCasts ∧
      (toText Yaml.block boolCasts (.someOrder _) (.set (.vector (.scalar ())))
        ({[true]} : Finset (List Bool))).bind
          (fromText Yaml.block boolCasts (.set (.vector (.scalar ())))) =
        some ({[]} : Finset (List Bool)) ∧
      ¬RoundTrips Yaml.block boolCasts (.someOrder _) (.set (.vector (.scalar ())))
        ({[true]} : Finset (List Bool)) := by
  obtain ⟨text, node, hcomes⟩ := leavesRoundTrip_block.comes (.someOrder _)
    (.set (.vector (.scalar ()))) ({[true]} : Finset (List Bool))
  have hback : (toText Yaml.block boolCasts (.someOrder _) (.set (.vector (.scalar ())))
      ({[true]} : Finset (List Bool))).bind
        (fromText Yaml.block boolCasts (.set (.vector (.scalar ())))) =
      some ({[]} : Finset (List Bool)) := by
    rw [hcomes.encoded, Option.bind_some, hcomes.decoded]
    rfl
  refine ⟨leavesRoundTrip_block, hback, fun hround => ?_⟩
  have heq : ({[]} : Finset (List Bool)) = {[true]} :=
    Option.some.inj (hback.symm.trans hround)
  simp at heq

end Xzmjx.ConfigModel
