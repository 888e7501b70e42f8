import Mathlib.Data.List.ReduceOption
import Xzmjx.ConfigCast
import Xzmjx.LogConfig

/-!
# Logger definitions as YAML

The two casts of `LogDefine` each name the fields on their own. What one of them leaves out is
lost: the format of the definition is not written, the level of an appender is written and
not read.

The version of the library decides what text a null node is converted to, if any.
-/
namespace Xzmjx.LogModel
open ConfigModel

/-! ### Levels -/

namespace LogLevel

/-- `ToString`. -/
def toString : LogLevel → String
  | .debug => "DEBUG"
  | .info => "INFO"
  | .warn => "WARN"
  | .error => "ERROR"
  | .fatal => "FATAL"
  | .unknown => "UNKONWN"

/-- `FromString`; any other text is no level. -/
def fromString (str : String) : LogLevel :=
  if str = "DEBUG" ∨ str = "debug" then .debug
  else if str = "INFO" ∨ str = "info" then .info
  else if str = "WARN" ∨ str = "warn" then .warn
  else if str = "ERROR" ∨ str = "error" then .error
  else if str = "FATAL" ∨ str = "fatal" then .fatal
  else .unknown

theorem fromString_toString (level : LogLevel) : fromString level.toString = level := by
  cases level <;> decide

end LogLevel

/-! ### Fields of a node -/

/-- `node[key]`: `none` where it throws, `some none` where it is not defined. -/
def field (key : String) : Node → Option (Option Node)
  | .map entries => some (entries.lookup key)
  | .null | .sequence _ => some none
  | .scalar _ => none

/-- `node.as<std::string>()`. -/
def asString (null : Option String) : Node → Option String
  | .scalar text => some text
  | .null => null
  | .sequence _ | .map _ => none

/-- The text of `node[key]` where it is defined, and `text` otherwise. -/
def fieldText (null : Option String) (key text : String) (node : Node) : Option String := do
  match ← field key node with
  | some child => asString null child
  | none => some text

/-- A node after its assignments to different keys. Without any it stays null. -/
def ofEntries : List (String × Node) → Node
  | [] => .null
  | entries => .map entries

/-- `if (c) node[key] = text`. -/
def entryIf (c : Bool) (key text : String) : List (String × Node) :=
  if c then [(key, .scalar text)] else []

/-! ### The casts -/

namespace LogAppenderDefine

/-- The node `an` of an appender. -/
def toNode (it : LogAppenderDefine) : Node :=
  ofEntries <|
    (if it.type = 0 then [("type", .scalar "StdoutLogAppender")]
      else if it.type = 1 then [("type", .scalar "FileLogAppender"), ("file", .scalar it.file)]
      else []) ++
    (entryIf (it.level ≠ .unknown) "level" it.level.toString ++
      entryIf (it.format ≠ "") "format" it.format)

/-- A round of the loop over the appenders: `some none` where it goes on without one. -/
def ofNode (null : Option String) (a : Node) : Option (Option LogAppenderDefine) := do
  match ← field "type" a with
  | none => some none
  | some child =>
      let type ← asString null child
      if type = "FileLogAppender" then
        match ← field "file" a with
        | none => some none
        | some child =>
            let file ← asString null child
            let format ← fieldText null "format" "" a
            some (some { type := 1, file, format })
      else if type = "StdoutLogAppender" then
        let format ← fieldText null "format" "" a
        some (some { type := 0, format })
      else some none

end LogAppenderDefine

namespace LogDefine

def toNode (define : LogDefine) : Node :=
  .map <| [("name", .scalar define.name)] ++
    (entryIf (define.level ≠ .unknown) "level" define.level.toString ++
      if define.appenders = [] then []
      else [("appenders", .sequence (define.appenders.map LogAppenderDefine.toNode))])

/-- `LexicalCast<LogDefine, std::string>`. -/
def toString (y : Yaml) (define : LogDefine) : String := y.emit define.toNode

def ofNode (y : Yaml) (null : Option String) (n : Node) : Option LogDefine := do
  match ← field "name" n with
  | none => none
  | some child =>
      let name ← asString null child
      let level ← fieldText null "level" "" n
      let format ← fieldText null "format" "" n
      match ← field "appenders" n with
      | none => some { name, level := .fromString level, format }
      | some child =>
          let items ← y.items child
          let appenders ← items.mapM (LogAppenderDefine.ofNode null)
          some { name, level := .fromString level, format, appenders := appenders.reduceOption }

/-- `LexicalCast<std::string, LogDefine>`; `none` where it throws. -/
def fromString (y : Yaml) (null : Option String) (v : String) : Option LogDefine :=
  (y.load v).bind (ofNode y null)

end LogDefine

/-! ### What comes back -/

/-- An appender for the standard output has no file. -/
def LogAppenderDefine.WellFormed (a : LogAppenderDefine) : Prop :=
  a.type = 0 ∧ a.file = "" ∨ a.type = 1

/-- What is both written and read of an appender. -/
def LogAppenderDefine.kept (a : LogAppenderDefine) : LogAppenderDefine :=
  { a with level := .unknown }

/-- What is both written and read of a definition. -/
def LogDefine.kept (d : LogDefine) : LogDefine :=
  { d with format := "", appenders := d.appenders.map LogAppenderDefine.kept }

variable {null : Option String} {es : List (String × Node)} {a : LogAppenderDefine}
  {d : LogDefine} {y : Yaml}

theorem lookup_entryIf_append (c : Bool) (key k text : String) :
    (entryIf c k text ++ es).lookup key =
      if c = true ∧ key = k then some (.scalar text) else es.lookup key := by
  cases c with
  | false => simp [entryIf]
  | true =>
      by_cases h : key = k
      · subst h
        simp [entryIf]
      · simp [entryIf, List.lookup_cons, beq_eq_false_iff_ne.mpr h, h]

theorem lookup_entryIf (c : Bool) (key k text : String) :
    (entryIf c k text).lookup key = if c = true ∧ key = k then some (.scalar text) else none := by
  rw [← List.append_nil (entryIf c k text), lookup_entryIf_append]
  rfl

theorem fieldText_map (key text : String) :
    fieldText null key text (.map es) =
      match es.lookup key with
      | some child => asString null child
      | none => some text := rfl

/-- A format is written unless it is empty, and read wherever it stands. -/
theorem fieldText_format (null : Option String) {es : List (String × Node)}
    (hes : es.lookup "format" = none) (level format : String) (c : Bool) :
    fieldText null "format" ""
      (.map (es ++ (entryIf c "level" level ++ entryIf (format ≠ "") "format" format))) =
        some format := by
  rw [fieldText_map, List.lookup_append, hes, lookup_entryIf_append, lookup_entryIf]
  by_cases h : format = ""
  · simp [h]
  · simp [h, asString]

/-- An appender comes back without its level. -/
theorem LogAppenderDefine.ofNode_toNode (null : Option String) (h : a.WellFormed) :
    ofNode null a.toNode = some (some a.kept) := by
  obtain ⟨type, level, format, file⟩ := a
  rcases h with ⟨htype, hfile⟩ | htype
  · obtain rfl : type = 0 := htype
    obtain rfl : file = "" := hfile
    have hes : List.lookup "format" [("type", Node.scalar "StdoutLogAppender")] = none := rfl
    have hformat := fieldText_format null hes level.toString format (level ≠ .unknown)
    show ofNode null (.map ([("type", .scalar "StdoutLogAppender")] ++ _)) = _
    rw [ofNode, hformat]
    rfl
  · obtain rfl : type = 1 := htype
    have hes : List.lookup "format" [("type", Node.scalar "FileLogAppender"),
        ("file", .scalar file)] = none := rfl
    have hformat := fieldText_format null hes level.toString format (level ≠ .unknown)
    show ofNode null (.map ([("type", .scalar "FileLogAppender"), ("file", .scalar file)] ++ _)) = _
    rw [ofNode, hformat]
    rfl

theorem LogAppenderDefine.mapM_ofNode {as : List LogAppenderDefine} (h : ∀ a ∈ as, a.WellFormed) :
    (as.map toNode).mapM (ofNode null) = some (as.map fun a => some a.kept) := by
  rw [List.mapM_map]
  exact Yaml.mapM_eq_some_map fun a ha => ofNode_toNode null (h a ha)

theorem reduceOption_map_some {α β : Type} (f : α → β) (as : List α) :
    (as.map fun a => some (f a)).reduceOption = as.map f := by
  rw [List.reduceOption, List.filterMap_map]
  exact congrFun List.filterMap_eq_map as

namespace LogDefine

theorem fieldText_level (d : LogDefine) :
    fieldText null "level" "" d.toNode =
      some (if d.level = .unknown then "" else d.level.toString) := by
  rw [toNode, fieldText_map, List.lookup_append, lookup_entryIf_append]
  by_cases hlevel : d.level = .unknown
  · by_cases happenders : d.appenders = []
    · simp [hlevel, happenders, List.lookup_cons]
    · simp [hlevel, happenders, List.lookup_cons]
  · simp [hlevel, List.lookup_cons, asString]

/-- The level of a definition is read as it is written. -/
theorem fromString_levelText (level : LogLevel) :
    LogLevel.fromString (if level = .unknown then "" else level.toString) = level := by
  split_ifs with h
  · rw [h]
    rfl
  · exact level.fromString_toString

/-- No format is written. -/
theorem fieldText_format (d : LogDefine) : fieldText null "format" "" d.toNode = some "" := by
  rw [toNode, fieldText_map, List.lookup_append, lookup_entryIf_append]
  by_cases happenders : d.appenders = []
  · simp [happenders, List.lookup_cons]
  · simp [happenders, List.lookup_cons]

theorem field_appenders (d : LogDefine) :
    field "appenders" d.toNode =
      some (if d.appenders = [] then none
        else some (.sequence (d.appenders.map LogAppenderDefine.toNode))) := by
  show some (List.lookup "appenders" _) = _
  rw [List.lookup_append, lookup_entryIf_append]
  by_cases happenders : d.appenders = []
  · simp [happenders, List.lookup_cons]
  · simp [happenders, List.lookup_cons]

/-- A definition comes back without its format and without the levels of its appenders. -/
theorem ofNode_toNode (h : ∀ a ∈ d.appenders, a.WellFormed) :
    ofNode y null d.toNode = some d.kept := by
  have hname : field "name" d.toNode = some (some (.scalar d.name)) := rfl
  rw [ofNode, hname, fieldText_level, fieldText_format, field_appenders]
  simp only [Option.bind_eq_bind, Option.bind_some, asString, fromString_levelText]
  by_cases happenders : d.appenders = []
  · rw [if_pos happenders, kept, happenders]
    rfl
  · rw [if_neg happenders]
    simp only [Yaml.items, Option.bind_some, LogAppenderDefine.mapM_ofNode h,
      reduceOption_map_some]
    rfl

theorem fromString_toString (null : Option String) (hy : ∀ node, y.load (y.emit node) = some node)
    (h : ∀ a ∈ d.appenders, a.WellFormed) :
    fromString y null (toString y d) = some d.kept := by
  rw [fromString, toString, hy, Option.bind_some, ofNode_toNode h]

theorem kept_eq_iff : d.kept = d ↔ d.format = "" ∧ ∀ a ∈ d.appenders, a.level = .unknown := by
  constructor
  · intro h
    refine ⟨(congrArg format h).symm, fun a ha => ?_⟩
    have happenders : d.appenders.map LogAppenderDefine.kept = d.appenders := congrArg appenders h
    rw [← happenders] at ha
    obtain ⟨b, -, rfl⟩ := List.mem_map.mp ha
    rfl
  · rintro ⟨hformat, hlevels⟩
    obtain ⟨name, level, format, appenders⟩ := d
    obtain rfl : format = "" := hformat
    have hkept : appenders.map LogAppenderDefine.kept = appenders.map id := by
      apply List.map_congr_left
      intro a ha
      obtain ⟨type, level, format, file⟩ := a
      obtain rfl : level = .unknown := hlevels _ ha
      rfl
    rw [kept, hkept, List.map_id]

/-- The two casts give a definition back. -/
def RoundTrips (y : Yaml) (null : Option String) (d : LogDefine) : Prop :=
  fromString y null (toString y d) = some d

/-- When a definition goes through its text: for every definition whose appenders are for the
standard output, without a file, or for a file, exactly when neither the definition has a
format nor any of its appenders a level. -/
theorem casts_inverse_iff (y : Yaml) (null : Option String)
    (hy : ∀ node, y.load (y.emit node) = some node) (d : LogDefine)
    (h : ∀ a ∈ d.appenders, a.WellFormed) :
    RoundTrips y null d ↔ d.format = "" ∧ ∀ a ∈ d.appenders, a.level = .unknown := by
  rw [RoundTrips, fromString_toString null hy h, Option.some_inj, kept_eq_iff]

end LogDefine

open Classical in
/-- The emitter that writes `text` for one node. -/
noncomputable def emitOne (node : Node) (text : String) (n : Node) : String :=
  if n = node then text else otherText n

open Classical in
/-- The library with that emitter, which loads every text back. -/
noncomputable def yamlOf (node : Node) (text : String) : Yaml where
  load t := if h : ∃ n, emitOne node text n = t then some h.choose else none
  emit := emitOne node text
  index _ := none

theorem ne_otherText {text : String} (h : 'n' ∈ text.toList) (n : Node) : text ≠ otherText n := by
  rintro rfl
  rw [otherText, String.toList_ofList] at h
  exact absurd (List.eq_of_mem_replicate h) (by decide)

theorem emitOne_injective (node : Node) {text : String} (h : 'n' ∈ text.toList) :
    Function.Injective (emitOne node text) := by
  intro a b hab
  unfold emitOne at hab
  split_ifs at hab with ha hb hb
  · exact ha.trans hb.symm
  · exact absurd hab (ne_otherText h b)
  · exact absurd hab.symm (ne_otherText h a)
  · exact otherText_injective hab

theorem load_emit_yamlOf (node : Node) (text : String) (h : 'n' ∈ text.toList) (n : Node) :
    (yamlOf node text).load ((yamlOf node text).emit n) = some n :=
  load_of_injective (emitOne_injective node h) n

namespace LogDefine

/-- A level and an appender for the standard output. -/
def systemInfo : LogDefine := .system [{}]

def systemInfoText : String :=
  "name: system\nlevel: INFO\nappenders:\n  - type: StdoutLogAppender"

theorem casts_inverse_iff_system :
    toString (yamlOf systemInfo.toNode systemInfoText) systemInfo = systemInfoText ∧
      RoundTrips (yamlOf systemInfo.toNode systemInfoText) none systemInfo := by
  refine ⟨if_pos rfl, ?_⟩
  refine (casts_inverse_iff _ _ (load_emit_yamlOf _ _ (by decide)) _ ?_).mpr ⟨rfl, ?_⟩
  · intro a ha
    obtain rfl := List.mem_singleton.mp ha
    exact Or.inl ⟨rfl, rfl⟩
  · intro a ha
    obtain rfl := List.mem_singleton.mp ha
    rfl

/-- A name, a format and an appender with a level. -/
def messageOnly : LogDefine :=
  { name := "system", format := "%m%n", appenders := [{ level := .error }] }

def messageOnlyText : String :=
  "name: system\nappenders:\n  - type: StdoutLogAppender\n    level: ERROR"

/-- The format is not written, and the level of the appender is written in vain. -/
theorem message_only_lost :
    (∀ node, (yamlOf messageOnly.toNode messageOnlyText).load
        ((yamlOf messageOnly.toNode messageOnlyText).emit node) = some node) ∧
      toString (yamlOf messageOnly.toNode messageOnlyText) messageOnly = messageOnlyText ∧
      fromString (yamlOf messageOnly.toNode messageOnlyText) none messageOnlyText =
        some { name := "system", appenders := [{}] } ∧
      ¬RoundTrips (yamlOf messageOnly.toNode messageOnlyText) none messageOnly := by
  have hy := load_emit_yamlOf messageOnly.toNode messageOnlyText (by decide)
  have htext : toString (yamlOf messageOnly.toNode messageOnlyText) messageOnly =
      messageOnlyText := if_pos rfl
  have happenders : ∀ a ∈ messageOnly.appenders, a.WellFormed := by
    intro a ha
    obtain rfl := List.mem_singleton.mp ha
    exact Or.inl ⟨rfl, rfl⟩
  have hback := fromString_toString none hy happenders
  refine ⟨hy, htext, ?_, fun hround => ?_⟩
  · rw [htext] at hback
    exact hback
  · have hkept := kept_eq_iff.mp (Option.some.inj (hback.symm.trans hround))
    exact absurd hkept.1 (by decide)

end LogDefine

end Xzmjx.LogModel
