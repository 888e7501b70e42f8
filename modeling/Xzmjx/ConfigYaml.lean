import Mathlib.Data.List.Basic
import Mathlib.Tactic.Common

/-!
# Configuration files as YAML trees

`ListAllNodes` walks the maps of a tree and lists every node it meets under the
dotted path of keys that leads to it; `LoadFromYaml` then looks each name up among
the registered variables. The walk passes its `prefix` by value, but the argument of
the recursive call is the conditional expression
`prefix == "" ? prefix = key : prefix + "." + key`, which at the root assigns it.
-/
namespace Xzmjx.ConfigModel

/-- A `YAML::Node`. -/
inductive Node
  | null
  | scalar (text : String)
  | sequence (items : List Node)
  | map (entries : List (String × Node))

mutual

/-- The nodes that `ListAllNodes` appends to its output, each under its name. -/
def listAllNodes (pre : String) : Node → List (String × Node)
  | .map entries => (pre, .map entries) :: listEntries pre entries
  | .null => [(pre, .null)]
  | .scalar text => [(pre, .scalar text)]
  | .sequence items => [(pre, .sequence items)]

/-- The loop over the entries of a map. Where the name is empty, the first key becomes
the name for the rest of the loop too. -/
def listEntries (pre : String) : List (String × Node) → List (String × Node)
  | [] => []
  | (key, child) :: rest =>
      if pre = "" then listAllNodes key child ++ listEntries key rest
      else listAllNodes (pre ++ "." ++ key) child ++ listEntries pre rest

end

/-- What `LoadFromYaml` passes to `fromString` for a node: the text of a scalar, and what
the node is emitted as otherwise. -/
def valueText (emit : Node → String) : Node → String
  | .scalar text => text
  | node => emit node

/-- `LoadFromYaml`: the calls of `fromString`, each with the name of its variable. -/
def loadFromYaml (emit : Node → String) (registered : String → Bool) (root : Node) :
    List (String × String) :=
  (listAllNodes "" root).filterMap fun it =>
    if it.1 = "" then none
    else if registered it.1 then some (it.1, valueText emit it.2) else none

/-! ### Paths of a tree -/

/-- The node at the end of a path of keys. -/
inductive At : Node → List String → Node → Prop
  | root (node : Node) : At node [] node
  | key {entries : List (String × Node)} {k : String} {child node : Node} {path : List String}
      (hmem : (k, child) ∈ entries) (hat : At child path node) :
      At (.map entries) (k :: path) node

mutual

/-- The nodes reachable through map keys in pre-order, each with its path. -/
def preorder : Node → List (List String × Node)
  | .map entries => ([], .map entries) :: preorderEntries entries
  | .null => [([], .null)]
  | .scalar text => [([], .scalar text)]
  | .sequence items => [([], .sequence items)]

def preorderEntries : List (String × Node) → List (List String × Node)
  | [] => []
  | (key, child) :: rest =>
      (preorder child).map (fun p => (key :: p.1, p.2)) ++ preorderEntries rest

end

/-- The keys of a path joined by dots; the root has the empty name. -/
def dotted (path : List String) : String := ".".intercalate path

mutual

theorem mem_preorder (node n : Node) (path : List String) :
    (path, n) ∈ preorder node ↔ At node path n := by
  match node with
  | .map entries =>
      rw [preorder, List.mem_cons, mem_preorderEntries]
      constructor
      · rintro (heq | ⟨k, child, path', rfl, hmem, hat⟩)
        · obtain ⟨rfl, rfl⟩ := Prod.mk.inj heq
          exact .root _
        · exact .key hmem hat
      · intro hat
        cases hat with
        | root => exact Or.inl rfl
        | key hmem hat => exact Or.inr ⟨_, _, _, rfl, hmem, hat⟩
  | .null | .scalar _ | .sequence _ =>
      rw [preorder, List.mem_singleton]
      constructor
      · intro heq
        obtain ⟨rfl, rfl⟩ := Prod.mk.inj heq
        exact .root _
      · intro hat
        cases hat
        rfl

theorem mem_preorderEntries (entries : List (String × Node)) (n : Node) (path : List String) :
    (path, n) ∈ preorderEntries entries ↔
      ∃ k child path', path = k :: path' ∧ (k, child) ∈ entries ∧ At child path' n := by
  match entries with
  | [] => simp [preorderEntries]
  | (key, child) :: rest =>
      rw [preorderEntries, List.mem_append, mem_preorderEntries rest, List.mem_map]
      constructor
      · rintro (⟨⟨path', n'⟩, hmem, heq⟩ | ⟨k, c, path', rfl, hmem, hat⟩)
        · obtain ⟨rfl, rfl⟩ := Prod.mk.inj heq
          exact ⟨key, child, path', rfl, by simp, (mem_preorder child n' path').mp hmem⟩
        · exact ⟨k, c, path', rfl, by simp [hmem], hat⟩
      · rintro ⟨k, c, path', rfl, hmem, hat⟩
        rcases List.mem_cons.mp hmem with heq | hmem
        · obtain ⟨rfl, rfl⟩ := Prod.mk.inj heq
          exact Or.inl ⟨(path', n), (mem_preorder c n path').mpr hat, rfl⟩
        · exact Or.inr ⟨k, c, path', rfl, hmem, hat⟩

end

/-! ### The walk -/

/-- A name extended by the keys of a path. -/
def extend (pre : String) (path : List String) : String :=
  path.foldl (fun name key => name ++ "." ++ key) pre

theorem dotted_cons (key : String) (path : List String) :
    dotted (key :: path) = extend key path := by
  induction path generalizing key with
  | nil => exact String.intercalate_singleton
  | cons k path ih =>
      have hmove : dotted (key :: k :: path) = dotted ((key ++ "." ++ k) :: path) := by
        rw [dotted, String.intercalate_cons_cons, dotted, String.intercalate_cons_append]
      rw [hmove, ih]
      rfl

theorem append_dot_ne_empty (pre key : String) : pre ++ "." ++ key ≠ "" := by
  intro h
  have hlen := congrArg String.length h
  simp at hlen

theorem extend_ne_empty {pre : String} (hpre : pre ≠ "") (path : List String) :
    extend pre path ≠ "" := by
  induction path generalizing pre with
  | nil => exact hpre
  | cons k path ih => exact ih (append_dot_ne_empty pre k)

mutual

/-- Below the root the name is never assigned, and the walk is the pre-order. -/
theorem listAllNodes_eq {pre : String} (hpre : pre ≠ "") (node : Node) :
    listAllNodes pre node = (preorder node).map fun p => (extend pre p.1, p.2) := by
  match node with
  | .map entries =>
      rw [listAllNodes, preorder, List.map_cons, listEntries_eq hpre entries]
      rfl
  | .null | .scalar _ | .sequence _ => rfl

theorem listEntries_eq {pre : String} (hpre : pre ≠ "") (entries : List (String × Node)) :
    listEntries pre entries = (preorderEntries entries).map fun p => (extend pre p.1, p.2) := by
  match entries with
  | [] => rfl
  | (key, child) :: rest =>
      rw [listEntries, if_neg hpre, preorderEntries, List.map_append, List.map_map,
        listAllNodes_eq (append_dot_ne_empty pre key) child, listEntries_eq hpre rest]
      rfl

end

/-- Under a top-level key the walk is the pre-order with that key in front. -/
theorem listAllNodes_key {key : String} (hkey : key ≠ "") (child : Node) :
    listAllNodes key child =
      ((preorder child).map fun p => (key :: p.1, p.2)).map fun p => (dotted p.1, p.2) := by
  rw [listAllNodes_eq hkey, List.map_map]
  exact List.map_congr_left fun p _ => by simp [dotted_cons]

/-- Trees in which every key on the way to a node is non-empty. -/
def KeysNonEmpty (root : Node) : Prop := ∀ path node, At root path node → ∀ k ∈ path, k ≠ ""

theorem KeysNonEmpty.of_mem {entries : List (String × Node)} (h : KeysNonEmpty (.map entries))
    {k : String} {child : Node} (hmem : (k, child) ∈ entries) : k ≠ "" :=
  h [k] child (.key hmem (.root child)) k (by simp)

/-- The number of entries of the map at the root. -/
def Node.width : Node → ℕ
  | .map entries => entries.length
  | _ => 0

/-- The output is the pre-order of the tree, every node once and under its dotted path. -/
def Flattens (root : Node) : Prop :=
  listAllNodes "" root = (preorder root).map fun p => (dotted p.1, p.2)

theorem flattens_of_width_le_one {root : Node} (h : KeysNonEmpty root) (hw : root.width ≤ 1) :
    Flattens root := by
  match root with
  | .map [] => rfl
  | .map [(key, child)] =>
      have hkey : key ≠ "" := h.of_mem List.mem_cons_self
      rw [Flattens, listAllNodes, listEntries, if_pos rfl, listEntries, List.append_nil,
        listAllNodes_key hkey, preorder, preorderEntries, preorderEntries, List.append_nil]
      rfl
  | .map (_ :: _ :: _) => simp [Node.width] at hw
  | .null | .scalar _ | .sequence _ => rfl

theorem listAllNodes_head (pre : String) (node : Node) :
    ∃ rest, listAllNodes pre node = (pre, node) :: rest := by
  cases node with
  | map entries => exact ⟨_, rfl⟩
  | null => exact ⟨_, rfl⟩
  | scalar text => exact ⟨_, rfl⟩
  | sequence items => exact ⟨_, rfl⟩

theorem preorder_head (node : Node) : ∃ rest, preorder node = ([], node) :: rest := by
  cases node with
  | map entries => exact ⟨_, rfl⟩
  | null => exact ⟨_, rfl⟩
  | scalar text => exact ⟨_, rfl⟩
  | sequence items => exact ⟨_, rfl⟩

/-- The second key of the root is listed below the first one. -/
theorem not_flattens {key key' : String} {child child' : Node} {rest : List (String × Node)}
    (h : KeysNonEmpty (.map ((key, child) :: (key', child') :: rest))) :
    ¬Flattens (.map ((key, child) :: (key', child') :: rest)) := by
  have hkey : key ≠ "" := h.of_mem List.mem_cons_self
  intro hflat
  rw [Flattens, listAllNodes, listEntries, if_pos rfl, listEntries, if_neg hkey, preorder,
    preorderEntries, preorderEntries, List.map_cons, List.map_append, List.map_append,
    listAllNodes_key hkey] at hflat
  have htail := List.append_cancel_left (List.cons.inj hflat).2
  obtain ⟨ns, hns⟩ := listAllNodes_head (key ++ "." ++ key') child'
  obtain ⟨ps, hps⟩ := preorder_head child'
  rw [hns, hps] at htail
  have hname : key ++ "." ++ key' = key' :=
    (congrArg Prod.fst (List.cons.inj htail).1).trans (dotted_cons key' [])
  have hlen := congrArg String.length hname
  simp at hlen

theorem flattens_iff {root : Node} (h : KeysNonEmpty root) : Flattens root ↔ root.width ≤ 1 := by
  refine ⟨fun hflat => ?_, flattens_of_width_le_one h⟩
  match root with
  | .map [] | .map [_] | .null | .scalar _ | .sequence _ => simp [Node.width]
  | .map ((_, _) :: (_, _) :: _) => exact absurd hflat (not_flattens h)

theorem KeysNonEmpty.dotted_ne_empty {root node : Node} {path : List String}
    (h : KeysNonEmpty root) (hat : At root path node) (hpath : path ≠ []) : dotted path ≠ "" := by
  obtain ⟨key, rest, rfl⟩ := List.exists_cons_of_ne_nil hpath
  rw [dotted_cons]
  exact extend_ne_empty (h _ _ hat key List.mem_cons_self) rest

/-! ### Loading -/

/-- `fromString` is called on a registered variable exactly if its name is the dotted path
of a node below the root, with the value of that node. -/
def LoadsPaths (emit : Node → String) (registered : String → Bool) (root : Node) : Prop :=
  ∀ name text, (name, text) ∈ loadFromYaml emit registered root ↔
    registered name = true ∧ ∃ path node, path ≠ [] ∧ At root path node ∧
      dotted path = name ∧ valueText emit node = text

theorem mem_loadFromYaml {emit : Node → String} {registered : String → Bool} {root : Node}
    {name text : String} :
    (name, text) ∈ loadFromYaml emit registered root ↔ registered name = true ∧ name ≠ "" ∧
      ∃ node, (name, node) ∈ listAllNodes "" root ∧ valueText emit node = text := by
  rw [loadFromYaml, List.mem_filterMap]
  constructor
  · rintro ⟨⟨key, node⟩, hmem, hcall⟩
    split_ifs at hcall with hkey hreg
    obtain ⟨rfl, htext⟩ := Prod.mk.inj (Option.some.inj hcall)
    exact ⟨hreg, hkey, node, hmem, htext⟩
  · rintro ⟨hreg, hname, node, hmem, rfl⟩
    exact ⟨(name, node), hmem, by rw [if_neg hname, if_pos hreg]⟩

theorem Flattens.loadsPaths {root : Node} (hflat : Flattens root) (h : KeysNonEmpty root)
    (emit : Node → String) (registered : String → Bool) : LoadsPaths emit registered root := by
  intro name text
  rw [mem_loadFromYaml, hflat]
  refine and_congr_right fun _ => ?_
  constructor
  · rintro ⟨hname, node, hmem, htext⟩
    obtain ⟨⟨path, node'⟩, hpath, heq⟩ := List.mem_map.mp hmem
    obtain ⟨hdot, rfl⟩ := Prod.mk.inj heq
    refine ⟨path, node', ?_, (mem_preorder root node' path).mp hpath, hdot, htext⟩
    rintro rfl
    exact hname hdot.symm
  · rintro ⟨path, node, hne, hat, rfl, htext⟩
    refine ⟨h.dotted_ne_empty hat hne, node, ?_, htext⟩
    exact List.mem_map.mpr ⟨(path, node), (mem_preorder root node path).mpr hat, rfl⟩

/-- The tree is flattened and loaded as it should be exactly when the root is not a map
with two or more entries. -/
theorem flattens_and_loads_iff (emit : Node → String) (registered : String → Bool) (root : Node)
    (h : KeysNonEmpty root) :
    Flattens root ∧ LoadsPaths emit registered root ↔ root.width ≤ 1 := by
  rw [← flattens_iff h]
  exact ⟨And.left, fun hflat => ⟨hflat, hflat.loadsPaths h emit registered⟩⟩

/-- `a: {b: 1, c: 2}`. -/
def Node.oneTop : Node := .map [("a", .map [("b", .scalar "1"), ("c", .scalar "2")])]

/-- `a: 1`, `b: 2`. -/
def Node.twoTop : Node := .map [("a", .scalar "1"), ("b", .scalar "2")]

theorem flattens_and_loads_oneTop :
    KeysNonEmpty Node.oneTop ∧ Node.oneTop.width ≤ 1 ∧
      Flattens Node.oneTop ∧ LoadsPaths (fun _ => "") (fun name => name = "a.c") Node.oneTop := by
  have h : KeysNonEmpty Node.oneTop := by
    intro path node hat
    have hmem := (mem_preorder _ _ _).mpr hat
    simp only [Node.oneTop, preorder, preorderEntries, List.map_cons, List.map_nil, List.mem_cons,
      List.append_nil, List.cons_append, List.nil_append, List.not_mem_nil, or_false,
      Prod.mk.injEq] at hmem
    rcases hmem with ⟨rfl, -⟩ | ⟨rfl, -⟩ | ⟨rfl, -⟩ | ⟨rfl, -⟩ <;> simp
  have hw : Node.oneTop.width ≤ 1 := by decide
  exact ⟨h, hw, (flattens_and_loads_iff _ _ _ h).mpr hw⟩

/-- The variable `b` is in the file and is not loaded. -/
theorem not_loads_twoTop :
    (listAllNodes "" Node.twoTop).map Prod.fst = ["", "a", "a.b"] ∧
      At Node.twoTop ["b"] (.scalar "2") ∧
      loadFromYaml (fun _ => "") (fun name => name = "b") Node.twoTop = [] ∧
      ¬(Flattens Node.twoTop ∧ LoadsPaths (fun _ => "") (fun name => name = "b") Node.twoTop) := by
  have hat : At Node.twoTop ["b"] (.scalar "2") := .key (by simp) (.root _)
  have hload : loadFromYaml (fun _ => "") (fun name => name = "b") Node.twoTop = [] := by
    simp [Node.twoTop, loadFromYaml, listAllNodes, listEntries]
  refine ⟨by simp [Node.twoTop, listAllNodes, listEntries], hat, hload, ?_⟩
  rintro ⟨-, hloads⟩
  have hcall := (hloads "b" "2").mpr
    ⟨by simp, ["b"], _, by simp, hat, String.intercalate_singleton, rfl⟩
  rw [hload] at hcall
  exact List.not_mem_nil hcall

end Xzmjx.ConfigModel
